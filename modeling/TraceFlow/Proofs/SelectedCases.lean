import TraceFlow.Proofs.ElementwiseMaps
import TraceFlow.Proofs.IntegerOperations
import TraceFlow.Proofs.LiteralOperands
import TraceFlow.Proofs.StoredElements

set_option autoImplicit false

namespace TraceFlow.Movement

open Builder Kernel Lowering Outcome List
open Elementwise (elementAt operandAt)

-- The case that a number selects. Out of range it is the last.
def chosen (count : Nat) (number : Int) : Nat :=
  if 0 ≤ number ∧ number < count then number.toNat else count - 1

section

variable {d : Datum} (whole : Whole d)

include whole

theorem equal_ofNat {n : Nat} (few : n < 0x8000000000000000) : CompareOp.eq.apply d
    (.int (Int64.ofNat n)) = .bool (d.toInt = n) := by
  have number : (Int64.ofNat n).toInt = n := Int64.toInt_ofNat_of_lt few
  have order (v : Int64) : CompareOp.eq.holds (some (compare v.toInt (Int64.ofNat n).toInt)) =
    decide (v.toInt = n) := by
    rw [CompareOp.holds_compare, number]
    rfl
  cases d with
  | bool v => cases v <;> exact congrArg Datum.bool (order _)
  | int v => exact congrArg Datum.bool (order v)
  | uint v =>
    have same : v.toInt64.toInt = n ↔ (v.toNat : Int) = n := by
      rw [← number, Int64.toInt_inj, number, Int.ofNat_inj]
      refine Iff.trans (@Word.toInt64_inj v (UInt64.ofNat n)) ?_
      rw [← UInt64.toNat_inj, UInt64.toNat_ofNat_of_lt' (few.trans (by decide))]
    exact congrArg Datum.bool ((order v.toInt64).trans (decide_eq_decide.mpr same))
  | float v => exact whole.elim

variable {leaf : String → Expr} {scope : Scope} (selector : (leaf "in0").eval scope = .ok d)

include selector

theorem eval_choices {count : Nat} (few : count ≤ 0x8000000000000000) (last : Expr) :
    ((choices count last).fill leaf).eval scope =
    if 0 ≤ d.toInt ∧ d.toInt < count then (leaf ("in" ++ (d.toInt.toNat + 1).repr)).eval scope else
    (last.fill leaf).eval scope := by
  induction count generalizing last with
  | zero => rw [choices, if_neg (by omega)]
  | succ count ih =>
    rw [choices, ih (by omega)]
    simp only [Expr.fill, Expr.eval, selector, ok_bind, pure_eq,
      equal_ofNat whole (show count < _ by omega), Datum.toBool, decide_eq_true_eq]
    by_cases here : d.toInt = count
    · rw [if_neg (by omega), if_pos here, if_pos (by omega), here, Int.toNat_natCast]
    · rw [if_neg here]
      exact if_congr (by omega) rfl rfl

theorem eval_selection {count : Nat} (some : 0 < count) (few : count ≤ 0x8000000000000000) :
    ((selection count).fill leaf).eval scope = (leaf ("in" ++ (chosen count d.toInt + 1).repr)).eval
      scope := by
  by_cases two : count = 2
  · subst two
    simp only [selection, Expr.fill, Expr.eval, selector, ok_bind, Datum.toBool_eq whole,
      decide_eq_true_eq]
    by_cases zero : d.toInt = 0
    · rw [if_neg (not_not.mpr zero), zero]
      rfl
    · have other : chosen 2 d.toInt = 1 := by
        rw [chosen]
        split <;> omega
      rw [if_pos zero, other]
      rfl
  · rw [selection.eq_2 _ two, eval_choices whole selector (by omega), chosen, Expr.fill]
    by_cases below : 0 ≤ d.toInt ∧ d.toInt < (count - 1 : Nat)
    · rw [if_pos below, if_pos (by omega)]
    · have last : (if 0 ≤ d.toInt ∧ d.toInt < count then d.toInt.toNat else count - 1) + 1 =
        count := by
        split <;> omega
      rw [if_neg below, last]

end

theorem names_choices {slot : String} {case : Nat} {last : Expr}
    (listed : slot ∈ (choices case last).names) :
    slot ∈ last.names ∨ ∃ i ≤ case, slot = "in" ++ i.repr := by
  induction case generalizing last with
  | zero => exact .inl listed
  | succ case ih =>
    rcases ih listed with inner | ⟨i, few, same⟩
    · simp only [Expr.names, append_nil, mem_append, mem_singleton] at inner
      rcases inner with (rfl | rfl) | inner
      · exact .inr ⟨0, by omega, rfl⟩
      · exact .inr ⟨case + 1, le_rfl, rfl⟩
      · exact .inl inner
    · exact .inr ⟨i, by omega, same⟩

theorem names_selection {slot : String} {count : Nat} (listed : slot ∈ (selection count).names) :
    ∃ i < count + 1, slot = "in" ++ i.repr := by
  by_cases two : count = 2
  · subst two
    simp only [selection, Expr.names, mem_append, mem_singleton] at listed
    rcases listed with (rfl | rfl) | rfl
    · exact ⟨0, by decide, rfl⟩
    · exact ⟨2, by decide, rfl⟩
    · exact ⟨1, by decide, rfl⟩
  · rw [selection.eq_2 _ two] at listed
    rcases names_choices listed with last | ⟨i, few, same⟩
    · exact ⟨count, by omega, mem_singleton.mp last⟩
    · exact ⟨i, by omega, same⟩

-- The number that an operand of a selection holds at an index of the output.
def numberAt (given : Var → List Datum) (index : List Nat) : Atom → Int
  | .var v => (elementAt v (given v) index).toInt
  | .literal s => s.value.toInt

-- The operands of a selection: its predicate, and at least one case. Every array has room, and
-- literals can be written down.
structure Selects (e : Equation) (inputs : List Var) (predicate : Atom) (cases : List Atom)
    (out : Var) : Prop where
  primitive : e.primitive = "select_n"
  reads : e.inputs = predicate :: cases
  present : cases ≠ []
  few : cases.length < 0x8000000000000000
  single : e.Single inputs out
  written : ∀ s, .literal s ∈ e.inputs → Written s.value
  broadcasts : ∀ v, .var v ∈ e.inputs → Shape.Broadcasts v.shape out.shape

namespace Selects

variable {e : Equation} {inputs : List Var} {predicate : Atom} {cases : List Atom} {out : Var}
  (selects : Selects e inputs predicate cases out)

include selects

theorem numberAt_eq {given : Var → List Datum} {index : List Nat}
    (member : index ∈ Shape.indices (arrayShape out))
    (elements : ∀ v ∈ inputs, v.Elements (given v)) {atom : Atom} (listed : atom ∈ e.inputs) :
    Whole (operandAt given index atom) ∧
    (operandAt given index atom).toInt = numberAt given index atom := by
  cases atom with
  | var v =>
    have input := selects.single.closed v listed
    have inside := Shape.pick_mem (elements v input).counted
      (Elementwise.sourceIndex_mem (selects.broadcasts v listed) member)
    have proper : Scalar.Proper ⟨v.elem, elementAt v (given v) index⟩ :=
      (elements v input).typed _ inside
    exact ⟨proper.whole (selects.single.whole v (mem_append_left _ input)), rfl⟩
  | literal s =>
    have written := selects.written s listed
    rw [operandAt, numberAt]
    revert written
    cases s.value with
    | uint v => exact fun written => ⟨trivial, Word.toInt_toInt64 written⟩
    | bool v | int v => exact fun _ => ⟨trivial, rfl⟩
    | float v => exact False.elim

theorem exists_composed : ∃ t, select.Composed e t (selection cases.length) := by
  have counted (array : Var → String) :
    (e.inputs.map (Atom.array? array)).length = cases.length + 1 := by
    rw [length_map, selects.reads, length_cons]
  have some := length_pos_iff.mpr selects.present
  obtain ⟨t, made⟩ : ∃ t, ∀ axes array, select.kernel axes (e.inputs.map (Atom.array? array)) e =
    .ok t := by
    simp only [select, counted, Nat.add_sub_cancel]
    split
    · omega
    · exact ⟨_, fun _ _ => rfl⟩
    · exact ⟨_, fun _ _ => rfl⟩
  obtain ⟨total, composes, unbound, holds⟩ := composes_select (made [] fun _ => "")
  have few := selects.few
  rw [counted] at composes holds
  obtain rfl : total = True := eq_true (holds few)
  have apart (k : Nat) : select.connector 0 ≠ select.connector (k + 1) := fun same => by
    have lists := congrArg String.toList same
    rw [select, String.toList_append] at lists
    cases lists
  refine ⟨t, rfl, fun i j same => ?_, isWord_selectConnector, selects.written, made, unbound,
    composes, fun slot listed => ?_⟩
  · rcases i with _ | i <;> rcases j with _ | j
    · rfl
    · exact (apart j same).elim
    · exact (apart i same.symm).elim
    · exact congrArg (· + 1) (Text.repr_inj.mp ((String.append_right_inj _).mp same))
  · rw [selects.reads]
    exact names_selection listed

end Selects

end TraceFlow.Movement
