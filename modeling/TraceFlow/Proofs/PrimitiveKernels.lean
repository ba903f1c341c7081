import TraceFlow.Lowering.Arithmetic
import TraceFlow.Proofs.FilledKernels

set_option autoImplicit false

namespace TraceFlow

open Kernel List
open Kernel.Token (scanAll)

namespace Kernel.Expr

def isSame : Expr → Expr → Bool
  | .name m, .name n => m == n
  | .call f [.name m], .call g [.name n] => f == g && m == n
  | .call f [.name m, .name m'], .call g [.name n, .name n'] => f == g && m == n && m' == n'
  | .unary o x, .unary p y => o == p && x.isSame y
  | .arith o x x', .arith p y y' => o == p && x.isSame y && x'.isSame y'
  | .compare o x x', .compare p y y' => o == p && x.isSame y && x'.isSame y'
  | .ifElse x x' x'', .ifElse y y' y'' => x.isSame y && x'.isSame y' && x''.isSame y''
  | _, _ => false

theorem eq_of_isSame (e e' : Expr) (same : e.isSame e' = true) : e = e' := by
  fun_induction isSame e e' <;> simp_all

end Kernel.Expr

namespace Template

-- The pieces of the assignment of a kernel to the output.
def assigned : List Piece → List Piece
  | .text chars :: rest => .text ("__out = ".toList ++ chars) :: rest
  | pieces => pieces

def isSeparate : Piece → Bool
  | .slot name => String.ofList name ∈ slotNames
  | .text chars =>
    match scanAll chars with
    | .error _ => true
    | .ok found => found.all fun
      | .name n => n ∉ slotNames
      | _ => true

def isNamed (e : Expr) : Piece → Bool
  | .slot name => String.ofList name ∈ e.names
  | .text _ => true

-- The expression that a kernel assigns, in terms of its slots.
def formula? (text : String) : Option Expr :=
  match textPieces [] text.toList with
  | .error _ => none
  | .ok pieces =>
    match scanPieces String.toList (assigned pieces) with
    | .ok (.name "__out" :: .mark .becomes :: tokens) =>
      match expression (parseFuel tokens.length) tokens with
      | .ok (e, []) =>
        if isWalled (assigned pieces) && (assigned pieces).all isSeparate &&
          e.names.all (fun n => pieces.contains (.slot n.toList)) &&
            pieces.all (isNamed e) && e.subscripts.isEmpty then some e
        else none
      | _ => none
    | _ => none

structure Formula (text : String) (pieces : List Piece) (e : Expr) : Prop where
  cut : textPieces [] text.toList = .ok pieces
  parses : ∃ tokens, Sound (assigned pieces) (.name "__out" :: .mark .becomes :: tokens) ∧
    expression (parseFuel tokens.length) tokens = .ok (e, [])
  names : ∀ n ∈ e.names, .slot n.toList ∈ pieces
  slots : ∀ name, .slot name ∈ pieces → String.ofList name ∈ e.names
  plain : e.subscripts = []

theorem exists_formula {text : String} {e : Expr} (known : formula? text = some e) :
    ∃ pieces, Formula text pieces e := by
  unfold formula? at known
  split at known
  · cases known
  next pieces cut =>
    split at known
    next tokens scanned =>
      split at known
      next e' parsed =>
        split at known
        next checks =>
          cases known
          simp only [Bool.and_eq_true, all_eq_true, contains_iff_mem, List.isEmpty_iff] at checks
          obtain ⟨⟨⟨⟨walled, separate⟩, names⟩, slots⟩, plain⟩ := checks
          refine ⟨pieces, cut, ⟨tokens, ⟨walled_of_isWalled _ walled, ?_, ?_, scanned⟩, parsed⟩,
            names, fun name member => ?_, plain⟩
          · intro name member
            simpa [isSeparate] using separate _ member
          · intro chars member found read n named
            have each := separate _ member
            simp only [isSeparate, read, all_eq_true] at each
            simpa using each _ named
          · simpa [isNamed] using slots _ member
        · cases known
      · cases known
    · cases known

theorem exists_formula_of_isSame {text : String} {e : Expr}
    (known : (formula? text).any (fun found => found.isSame e) = true) :
    ∃ pieces, Formula text pieces e := by
  obtain ⟨found, read, same⟩ := (Option.any_eq_true _ _).mp known
  cases Expr.eq_of_isSame found e same
  exact exists_formula read

end Template

namespace Kernel.Expr

def isName : Expr → Bool
  | .name _ => true
  | _ => false

def isShallow : Expr → Bool
  | .name _ => true
  | .call _ [x] => x.isName
  | .call _ [x, y] => x.isName && y.isName
  | .unary _ x => x.isName
  | .arith _ x y => x.isName && y.isName
  | .compare _ x y => x.isName && y.isName
  | .ifElse cond yes no => cond.isShallow && yes.isShallow && no.isShallow
  | _ => false

theorem exists_of_isName {e : Expr} (holds : e.isName = true) : ∃ n, e = .name n := by
  cases e with
  | name n => exact ⟨n, rfl⟩
  | _ => cases holds

theorem shallow_of_isShallow (e : Expr) (holds : e.isShallow = true) : Shallow e := by
  fun_induction isShallow e with
  | case1 n => exact .name n
  | case2 function x =>
    obtain ⟨n, rfl⟩ := exists_of_isName holds
    exact .call function n
  | case3 function x y =>
    rw [Bool.and_eq_true] at holds
    obtain ⟨n, rfl⟩ := exists_of_isName holds.1
    obtain ⟨m, rfl⟩ := exists_of_isName holds.2
    exact .pair function n m
  | case4 op x =>
    obtain ⟨n, rfl⟩ := exists_of_isName holds
    exact .unary op n
  | case5 op x y =>
    rw [Bool.and_eq_true] at holds
    obtain ⟨n, rfl⟩ := exists_of_isName holds.1
    obtain ⟨m, rfl⟩ := exists_of_isName holds.2
    exact .arith op n m
  | case6 op x y =>
    rw [Bool.and_eq_true] at holds
    obtain ⟨n, rfl⟩ := exists_of_isName holds.1
    obtain ⟨m, rfl⟩ := exists_of_isName holds.2
    exact .compare op n m
  | case7 cond yes no condIH yesIH noIH =>
    rw [Bool.and_eq_true, Bool.and_eq_true] at holds
    exact .choose (condIH holds.1.1) (yesIH holds.1.2) (noIH holds.2)
  | case8 => cases holds

end Kernel.Expr

namespace Arithmetic

-- Primitives that compare or divide their operands as numbers.
def ordering : List String :=
  ["div", "rem", "pow", "min", "max", "ge", "gt", "le", "lt", "clamp"]

-- Primitives whose results may be larger than their operands.
def wrapping : List String :=
  ["neg", "add", "add_any", "sub", "mul", "pow", "or", "not", "and", "xor"]

structure Classified (primitive : String) (e : Expr) : Prop where
  shallow : e.Shallow
  ordered : e.ordered = true → primitive ∈ ordering
  wraps : e.wraps = true → primitive ∈ wrapping

def isClassified (primitive text : String) : Bool :=
  match Template.formula? text with
  | some e =>
    e.isShallow && (!e.ordered || primitive ∈ ordering) && (!e.wraps || primitive ∈ wrapping)
  | none => false

theorem exists_classified {primitive text : String} (holds : isClassified primitive text = true) :
    ∃ pieces e, Template.Formula text pieces e ∧ Classified primitive e := by
  unfold isClassified at holds
  split at holds
  next e known =>
    obtain ⟨pieces, formula⟩ := Template.exists_formula known
    simp only [Bool.and_eq_true, Bool.or_eq_true, Bool.not_eq_true', decide_eq_true_eq] at holds
    obtain ⟨⟨shallow, ordered⟩, wraps⟩ := holds
    refine ⟨pieces, e, formula, e.shallow_of_isShallow shallow, fun holds => ?_, fun holds => ?_⟩
    · exact ordered.resolve_left (by simp [holds])
    · exact wraps.resolve_left (by simp [holds])
  · cases holds

theorem isSome_of_isClassified {primitive text : String}
    (holds : isClassified primitive text = true) : (Template.formula? text).isSome = true := by
  unfold isClassified at holds
  split at holds
  next known => rw [known]; rfl
  · cases holds

theorem tables_classified : (∀ kernel ∈ kernels, isClassified kernel.1 kernel.2 = true) ∧
    ∀ kernel ∈ logicalKernels, isClassified kernel.1 kernel.2.1 = true ∧
    (Template.formula? kernel.2.2).isSome = true := by
  decide +kernel

end Arithmetic

end TraceFlow
