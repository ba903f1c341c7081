import Mathlib.Data.List.Chain
import TraceFlow.Proofs.Places

set_option autoImplicit false

namespace TraceFlow

open Text List

variable {output : String}

namespace Movement

def startSymbol (output start : String) : String :=
  "__jace_dynamic_map_range_" ++ output ++ "_" ++ start

theorem startSymbol_inj {start other : String} :
    startSymbol output start = startSymbol output other ↔ start = other := by
  exact String.append_right_inj ("__jace_dynamic_map_range_" ++ output ++ "_")

theorem windowIndex_fetched {axes : List Axis} {dim : Nat} {pairs : List (Option String × Atom)}
    {index : List Index}
    {fetched : Dict Access} (made : windowIndex output axes dim pairs = .ok (index, fetched)) :
    fetched.Sorted ∧ ∀ x a, fetched.get? x = some a ↔
      ∃ start, (∃ atom, (some start, atom) ∈ pairs) ∧ x = startSymbol output start ∧
      a = .element start [.constant 0] := by
  induction pairs generalizing dim index fetched with
  | nil =>
    cases made
    refine ⟨Dict.sorted_empty, fun x a => ⟨nofun, ?_⟩⟩
    rintro ⟨start, ⟨atom, ⟨⟩⟩, -⟩
  | cons pair rest ih =>
    obtain ⟨start?, atom⟩ := pair
    rw [windowIndex] at made
    split at made
    · cases made
    next axis found =>
      dsimp only at made
      split at made
      next start =>
        obtain ⟨⟨others, others'⟩, later, made⟩ := bind_eq_ok.mp made
        cases made
        obtain ⟨sorted, known⟩ := ih later
        refine ⟨Dict.sorted_insert sorted _ _, fun x a => ?_⟩
        rw [Dict.get?_insert]
        constructor
        · split
          next here =>
            rintro ⟨⟩
            exact ⟨start, ⟨atom, mem_cons_self⟩, here, rfl⟩
          · intro there
            obtain ⟨start, ⟨atom, member⟩, same⟩ := (known x a).mp there
            exact ⟨start, ⟨atom, mem_cons_of_mem _ member⟩, same⟩
        · rintro ⟨other, ⟨atom', member⟩, rfl, rfl⟩
          split
          next here => rw [startSymbol_inj.mp here]
          next apart =>
            refine (known _ _).mpr ⟨other, ⟨atom', ?_⟩, rfl, rfl⟩
            rcases mem_cons.mp member with same | there
            · cases same
              exact absurd rfl apart
            · exact there
      next literal =>
        obtain ⟨part, -, made⟩ := bind_eq_ok.mp made
        obtain ⟨⟨others, others'⟩, later, made⟩ := bind_eq_ok.mp made
        cases made
        obtain ⟨sorted, known⟩ := ih later
        refine ⟨sorted, fun x a => (known x a).trans ?_⟩
        simp
      · cases made

end Movement

namespace Gather

-- No digit follows an `r`. A parameter over a batch dimension ends in one that does.
def Unmarked (text : String) : Prop :=
  text.toList.IsChain fun a b => a = 'r' → b.isDigit = false

-- Unmarked text that stays so in front of other unmarked text.
def Closed (text : String) : Prop :=
  Unmarked text ∧ text.toList.getLast? ≠ some 'r'

instance (text : String) : Decidable (Closed text) :=
  inferInstanceAs (Decidable (List.IsChain _ _ ∧ _))

theorem Closed.append {a b : String} (first : Closed a) (second : Closed b) : Closed (a ++ b) := by
  rw [Closed, Unmarked, String.toList_append]
  refine ⟨isChain_append.mpr ⟨first.1, second.1, ?_⟩, ?_⟩
  · intro x last y _ marked
    exact absurd (marked ▸ last) first.2
  · rw [getLast?_append]
    intro last
    cases found : b.toList.getLast? with
    | none => exact first.2 (by simpa [found] using last)
    | some c => exact second.2 (by simpa [found] using last)

theorem digits_repr (n : Nat) : ∀ c ∈ n.repr.toList, c.isDigit = true := by
  intro c member
  rw [Nat.toList_repr] at member
  exact Nat.isDigit_of_mem_toDigits (by decide) (by decide) member

theorem closed_repr (n : Nat) : Closed n.repr := by
  have none : 'r' ∉ n.repr.toList := fun member => absurd (digits_repr n 'r' member) (by decide)
  refine ⟨?_, fun last => none (mem_of_getLast? last)⟩
  rw [Unmarked, isChain_iff_getElem]
  intro i bound marked
  exact absurd (marked ▸ getElem_mem _) none

theorem repr_ne_nil (n : Nat) : n.repr.toList ≠ [] := by
  rw [Nat.toList_repr]
  exact Nat.toDigits_ne_nil

theorem marked_patchParam (output : String) (dim : Nat) : ¬ Unmarked (patchParam output dim) := by
  intro chain
  unfold patchParam Unmarked at chain
  rw [String.toList_append, String.toList_append, isChain_append, getLast?_append] at chain
  have last : "_gather".toList.getLast? = some 'r' := by decide
  rw [last] at chain
  obtain ⟨c, rest, digits⟩ := exists_cons_of_ne_nil (repr_ne_nil dim)
  have apart := chain.2.2 'r' rfl c (by rw [digits]; rfl) rfl
  rw [digits_repr dim c (digits ▸ mem_cons_self)] at apart
  cases apart

theorem patchParam_inj {dim other : Nat} : patchParam output dim = patchParam output other ↔
    dim = other :=
  (String.append_right_inj ("__i" ++ output ++ "_gather")).trans repr_inj

def batchAxes (plan : Plan) (output : String) (rank : Nat) (indexShape : List Nat) : List Axis :=
  (((plan.batchDims rank).map (patchParam output)).zip indexShape).map fun (param, extent) =>
    ⟨param, 0, signedWord extent⟩

theorem node_eq_ok {plan : Plan} {source index : String}
    {sourceShape indexShape outputShape : List Nat} {m : MapNode}
    (made : node plan source index output sourceShape indexShape outputShape = .ok m) :
    ∃ axes texts place, plan.subscripts 0 (plan.sizes.zip sourceShape) = .ok (axes, texts) ∧
      target output (plan.batchDims outputShape.length)
        (List.range outputShape.length) plan.keptDims = .ok place ∧
      (batchAxes plan output outputShape.length indexShape ++ axes).length = outputShape.length ∧
      m = { label := "_gather_map_" ++ output,
            axes := if (batchAxes plan output outputShape.length indexShape ++ axes).isEmpty then
            [Elementwise.scalarAxis]
              else batchAxes plan output outputShape.length indexShape ++ axes,
            inputs := reads source index sourceShape ((plan.batchDims outputShape.length).map
              (patchParam output)) plan.startMap,
            dynamic := {}, code := "__out = __arr" ++ bracketed texts,
            outputs := Dict.ofList [("__out", .element output
              (if (batchAxes plan output outputShape.length indexShape ++ axes).isEmpty then
                place ++ [.constant 0] else place))] } := by
  obtain ⟨-, -, made⟩ := bind_eq_ok.mp made
  obtain ⟨⟨axes, texts⟩, cut, made⟩ := bind_eq_ok.mp made
  obtain ⟨place, put, made⟩ := bind_eq_ok.mp made
  obtain ⟨ranked, made⟩ := unless_eq_ok.mp made
  refine ⟨axes, texts, place, cut, put, not_not.mp ranked, ?_⟩
  rw [batchAxes]
  split at made
  next whole place' chosen =>
    cases made
    split at chosen
    next empty =>
      cases chosen
      rw [if_pos empty, if_pos empty]
    next full =>
      cases chosen
      rw [if_neg full, if_neg full]

end Gather

end TraceFlow
