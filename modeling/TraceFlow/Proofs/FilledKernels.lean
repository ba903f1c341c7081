import TraceFlow.Proofs.LegibleText
import TraceFlow.Proofs.TemplatePieces

set_option autoImplicit false

namespace TraceFlow

open Kernel List
open Kernel.Token (scanAll scanAll_append scanAll_open scanAll_cons step)

variable {texts : String → List Char}

namespace Kernel

def Scope.fill (filling : Filling) (scope : Scope) : Scope where
  value? n :=
    match filling.at? n with
    | some (_, x) => (x.eval scope).toOption
    | none => scope.value? n
  element := scope.element

namespace Expr

variable {leaf : String → Expr} {scope scope' : Scope}

mutual

theorem toOption_eval (elements : ∀ array index, (scope.element array index).toOption =
    (scope'.element array index).toOption) :
    (e : Expr) → (∀ n ∈ e.names, ((leaf n).eval scope).toOption = scope'.value? n) →
    ((e.fill leaf).eval scope).toOption = (e.eval scope').toOption
  | .const value, _ => by rw [fill, eval, eval]
  | .name n, same => by
    rw [fill, same n (by simp [names]), eval]
    cases scope'.value? n <;> rfl
  | .subscript array indices, same => by
    rw [names] at same
    simp only [fill, eval, Outcome.toOption_bind, toOption_evalAll elements indices same, elements]
  | .call function args, same => by
    rw [names] at same
    simp only [fill, eval, Outcome.toOption_bind, toOption_evalAll elements args same]
  | .unary op operand, same => by
    rw [names] at same
    simp only [fill, eval, Outcome.toOption_bind, toOption_eval elements operand same]
  | .arith op lhs rhs, same | .compare op lhs rhs, same | .and lhs rhs, same | .or lhs rhs, same =>
    by
    rw [names, forall_mem_append] at same
    simp only [fill, eval, Outcome.toOption_bind, toOption_eval elements lhs same.1, apply_ite,
      toOption_eval elements rhs same.2]
  | .ifElse cond yes no, same => by
    rw [names, forall_mem_append, forall_mem_append] at same
    simp only [fill, eval, Outcome.toOption_bind, toOption_eval elements cond same.1.1, apply_ite,
      toOption_eval elements yes same.1.2, toOption_eval elements no same.2]

theorem toOption_evalAll (elements : ∀ array index, (scope.element array index).toOption =
    (scope'.element array index).toOption) :
    (es : List Expr) → (∀ n ∈ namesAll es, ((leaf n).eval scope).toOption = scope'.value? n) →
    (evalAll scope (fillAll leaf es)).toOption = (evalAll scope' es).toOption
  | [], _ => by rw [fillAll, evalAll, evalAll]
  | e :: rest, same => by
    rw [namesAll, forall_mem_append] at same
    simp only [fillAll, evalAll, Outcome.toOption_bind, toOption_eval elements e same.1,
      toOption_evalAll elements rest same.2]

end

theorem eval_agree (e : Expr) (values : ∀ n ∈ e.names, scope'.value? n = scope.value? n)
    (elements : ∀ array index, Outcome.Both Eq (scope.element array index)
      (scope'.element array index)) : Outcome.Both Eq (e.eval scope) (e.eval scope') := by
  refine .of_toOption ?_
  rw [← toOption_eval (fun array index => (elements array index).toOption_eq) e fun n member => ?_,
    fill_name]
  rw [values n member, eval]
  cases scope.value? n <;> rfl

theorem eval_fill (filling : Filling) (scope : Scope) (e : Expr) : Outcome.Both Eq
    ((e.fill filling.leaf).eval scope) (e.eval (scope.fill filling)) := by
  refine .of_toOption (toOption_eval ?_ e fun n _ => ?_)
  · exact fun _ _ => rfl
  · simp only [Scope.fill, Filling.leaf]
    cases filling.at? n with
    | none =>
      dsimp only
      rw [eval]
      cases scope.value? n <;> rfl
    | some found => rfl

end Expr

open Classical in
-- Slots filled with the legible ones among the given texts.
noncomputable def Filling.ofTexts (texts : String → List Char) : Filling where
  at? n :=
    if legible : n ∈ slotNames ∧ ∃ entry : List Token × Expr, scanAll (texts n) = .ok entry.1 ∧
      Reads entry.1 entry.2 then some legible.2.choose
    else none
  slots n tokens x known := by
    split at known
    next legible => exact legible.1
    · cases known
  reads n tokens x known := by
    split at known
    next legible =>
      have spec := legible.2.choose_spec.2
      rw [Option.some.inj known] at spec
      exact spec
    · cases known

theorem Filling.ofTexts_eq {n : String} {tokens : List Token} {x : Expr} (slot : n ∈ slotNames)
    (scanned : scanAll (texts n) = .ok tokens) (reads : Reads tokens x) :
    (ofTexts texts).at? n = some (tokens, x) := by
  have legible : n ∈ slotNames ∧ ∃ entry : List Token × Expr, scanAll (texts n) = .ok entry.1 ∧
    Reads entry.1 entry.2 :=
    ⟨slot, (tokens, x), scanned, reads⟩
  have found : (ofTexts texts).at? n = some legible.2.choose := dif_pos legible
  obtain ⟨scanned', reads'⟩ := legible.2.choose_spec
  rw [found]
  generalize legible.2.choose = entry at *
  obtain ⟨tokens', x'⟩ := entry
  obtain rfl : tokens = tokens' := Except.ok.inj (scanned.symm.trans scanned')
  have both := (reads _ (Nat.le_refl _) []).symm.trans (reads' _ (Nat.le_refl _) [])
  cases both
  rfl

def Scans (text : List Char) : Prop :=
  ∃ tokens, scanAll text = .ok tokens

end Kernel

namespace Template

variable {pieces : List Piece}

-- Pieces whose slots stand alone between parentheses.
inductive Walled : List Piece → Prop
  | last (chars : List Char) : Walled [.text chars]
  | slot {before name behind : List Char} {rest : List Piece} :
    Walled (.text (')' :: behind) :: rest) →
    Walled (.text (before ++ ['(']) :: .slot name :: .text (')' :: behind) :: rest)

def isWalled : List Piece → Bool
  | [.text _] => true
  | .text before :: .slot _ :: more =>
    before.getLast? = some '(' && isWalled more && match more with
      | .text (c :: _) :: _ => c = ')'
      | _ => false
  | _ => false

theorem walled_of_isWalled (pieces : List Piece) (holds : isWalled pieces = true) :
    Walled pieces := by
  fun_induction isWalled pieces with
  | case1 chars => exact .last chars
  | case2 before name more ih =>
    simp only [Bool.and_eq_true, decide_eq_true_eq] at holds
    obtain ⟨⟨ends, later⟩, begins⟩ := holds
    obtain ⟨front, rfl⟩ := getLast?_eq_some_iff.mp ends
    split at begins
    next c behind rest =>
      obtain rfl : c = ')' := by simpa using begins
      exact .slot (ih later)
    · cases begins
  | case3 => cases holds

def scanPieces (texts : String → List Char) : List Piece → Except String (List Token)
  | [] => .ok []
  | .text chars :: rest => do return (← scanAll chars) ++ (← scanPieces texts rest)
  | .slot name :: rest =>
    do return (← scanAll (texts (String.ofList name))) ++ (← scanPieces texts rest)

theorem scanAll_fillText (texts : String → List Char) (walled : Walled pieces) :
    scanAll (fillText texts pieces) = scanPieces texts pieces := by
  induction walled with
  | last chars =>
    simp only [fillText, flatMap_cons, flatMap_nil, append_nil, scanPieces]
    cases scanAll chars with
    | error reason => rfl
    | ok tokens => simp [parse_ok, pure, Except.pure]
  | @slot before name behind rest _ ih =>
    have tail : fillText texts (.text (')' :: behind) :: rest) = ')' ::
      (behind ++ fillText texts rest) := rfl
    have text : fillText texts (.text (before ++ ['(']) :: .slot name :: .text (')' :: behind) ::
      rest) =
        before ++ '(' :: (texts (String.ofList name) ++ ')' ::
          (behind ++ fillText texts rest)) := by
      simp [fillText]
    have front : scanAll (before ++ ['(']) = (do return (← scanAll before) ++ [.mark .openParen]) :=
      scanAll_append rfl [] before
    have parts : scanPieces texts (.text (before ++ ['(']) :: .slot name :: .text (')' :: behind) ::
      rest) = (do
        let first ← scanAll (before ++ ['('])
        let others ← (do return (← scanAll (texts (String.ofList name))) ++
          (← scanPieces texts (.text (')' :: behind) :: rest)))
        return first ++ others) := rfl
    rw [text, scanAll_append rfl, scanAll_open, scanAll_append rfl, ← tail, ih, parts, front]
    cases scanAll before with
    | error reason => rfl
    | ok first =>
      cases scanAll (texts (String.ofList name)) with
      | error reason => rfl
      | ok inside =>
        cases scanPieces texts (.text (')' :: behind) :: rest) with
        | error reason => rfl
        | ok later => simp [parse_ok, pure, Except.pure]

theorem filled_append {filling : Filling} {front tokens filled : List Token}
    (plain : ∀ n, .name n ∈ front → n ∉ slotNames)
    (same : Filled filling [] tokens filled) : Filled filling [] (front ++ tokens)
      (front ++ filled) := by
  induction front with
  | nil => exact same
  | cons token rest ih =>
    refine .keep ?_ (ih fun n member => plain n (mem_cons_of_mem _ member))
    rintro n rfl
    cases known : filling.at? n with
    | none => rfl
    | some found => exact absurd (filling.slots _ _ _ known) (plain n mem_cons_self)

structure Sound (pieces : List Piece) (tokens : List Token) : Prop where
  walled : Walled pieces
  slots : ∀ name, .slot name ∈ pieces → String.ofList name ∈ slotNames
  plain : ∀ chars, .text chars ∈ pieces → ∀ found, scanAll chars = .ok found → ∀ n,
    .name n ∈ found → n ∉ slotNames
  scanned : scanPieces String.toList pieces = .ok tokens

theorem scanAll_slotName {n : String} (slot : n ∈ slotNames) : scanAll n.toList = .ok
    [.name n] := by
  simp only [slotNames, mem_cons, not_mem_nil, or_false] at slot
  rcases slot with rfl | rfl | rfl | rfl <;> rfl

theorem exists_filled {texts : String → List Char} {filling : Filling} {pieces : List Piece}
    {tokens : List Token} (sound : Sound pieces tokens)
    (reads : ∀ name, .slot name ∈ pieces → ∃ inside x, scanAll (texts (String.ofList name)) =
      .ok inside ∧ filling.at? (String.ofList name) = some (inside, x)) :
    ∃ filled, scanPieces texts pieces = .ok filled ∧ Filled filling [] tokens filled := by
  obtain ⟨walled, slots, plain, scanned⟩ := sound
  induction walled generalizing tokens with
  | last chars =>
    obtain ⟨found, text, scanned⟩ := parse_bind.mp scanned
    cases scanned
    refine ⟨found ++ [], ?_, filled_append (plain chars mem_cons_self found text) .nil⟩
    rw [scanPieces, text]
    rfl
  | @slot before name behind rest _ ih =>
    have front : scanAll (before ++ ['(']) = (do return (← scanAll before) ++ [.mark .openParen]) :=
      scanAll_append rfl [] before
    obtain ⟨found, text, scanned⟩ := parse_bind.mp scanned
    obtain ⟨later, others, scanned⟩ := parse_bind.mp scanned
    cases scanned
    obtain ⟨named, slot, others⟩ := parse_bind.mp others
    obtain ⟨after, behind', others⟩ := parse_bind.mp others
    cases others
    rw [scanAll_slotName (slots name (by simp))] at slot
    cases slot
    have later {piece : Piece} (member : piece ∈ Piece.text (')' :: behind) :: rest) :=
      mem_cons_of_mem (.text (before ++ ['(']))
      (mem_cons_of_mem (.slot name) member)
    obtain ⟨filled, filled', same⟩ :=
      ih (fun n member => reads n (later member)) (fun n member => slots n (later member))
      (fun chars member => plain chars (later member)) behind'
    obtain ⟨inside, x, read, known⟩ := reads name (by simp)
    -- The piece behind the slot begins with the parenthesis that closes it.
    have closes : ∃ more, after = .mark .closeParen :: more := by
      obtain ⟨found', text', behind'⟩ := parse_bind.mp behind'
      obtain ⟨more, -, behind'⟩ := parse_bind.mp behind'
      cases behind'
      rw [scanAll_cons] at text'
      have closing : step ')' behind = .ok (some (.mark .closeParen), behind) := by
        cases behind <;> rfl
      rw [closing, parse_ok] at text'
      obtain ⟨rest', -, text'⟩ := parse_bind.mp text'
      cases text'
      exact ⟨_, rfl⟩
    obtain ⟨more, rfl⟩ := closes
    obtain ⟨more', rfl, -, same⟩ := same.cons_left (by simp)
    have names := plain _ mem_cons_self found text
    rw [front] at text
    obtain ⟨found', text', text''⟩ := parse_bind.mp text
    cases text''
    refine ⟨found' ++ [.mark .openParen] ++ (inside ++ .mark .closeParen :: more'), ?_, ?_⟩
    · rw [scanPieces, scanPieces, front, text', read, filled']
      rfl
    · have kept := filled_append (fun n member => names n (mem_append_left _ member))
        (Filled.slot known same)
      simpa using kept

theorem scans_slot {found : List Token} (ran : scanPieces texts pieces = .ok found)
    {name : List Char} (member : .slot name ∈ pieces) : Scans (texts (String.ofList name)) := by
  induction pieces generalizing found with
  | nil => cases member
  | cons piece rest ih =>
    cases piece with
    | text chars =>
      obtain ⟨_, -, ran⟩ := parse_bind.mp ran
      obtain ⟨others, later, -⟩ := parse_bind.mp ran
      rcases mem_cons.mp member with impossible | there
      · cases impossible
      · exact ih later there
    | slot other =>
      obtain ⟨inside, here, ran⟩ := parse_bind.mp ran
      obtain ⟨others, later, -⟩ := parse_bind.mp ran
      rcases mem_cons.mp member with same | there
      · cases same
        exact ⟨inside, here⟩
      · exact ih later there

theorem parse_filled {target : String} {tokens : List Token} {e : Expr} {fuel : Nat}
    (sound : Sound pieces (.name target :: .mark .becomes :: tokens))
    (parsed : expression fuel tokens = .ok (e, []))
    (legible : ∀ name, .slot name ∈ pieces → ∀ inside, scanAll (texts (String.ofList name)) =
      .ok inside → ∃ x, Reads inside x) {code : String}
    (text : code.toList = fillText texts pieces) :
    ((∀ name, .slot name ∈ pieces → Scans (texts (String.ofList name))) →
      Assignment.parse code = .ok ⟨target, e.fill (Filling.ofTexts texts).leaf⟩) ∧
    ∀ name, .slot name ∈ pieces → ¬ Scans (texts (String.ofList name)) →
    ¬ (Assignment.parse code).Succeeds := by
  have scanned : Token.scan code = scanPieces texts pieces := by
    rw [Token.scan_eq, text, scanAll_fillText texts sound.walled]
  constructor
  · intro all
    obtain ⟨filled, found, same⟩ :=
      @exists_filled texts (.ofTexts texts) _ _ sound fun name member => by
      obtain ⟨inside, read⟩ := all name member
      obtain ⟨x, reads⟩ := legible name member inside read
      exact ⟨inside, x, read, Filling.ofTexts_eq (sound.slots name member) read reads⟩
    obtain ⟨behind, rfl, -, same⟩ := same.cons_left (by simp)
    obtain ⟨behind, rfl, -, same⟩ := same.cons_left (by simp)
    have parses : Assignment.parse? code = .ok ⟨target, e.fill (Filling.ofTexts texts).leaf⟩ := by
      rw [Assignment.parse?, scanned, found, parse_ok, Assignment.ofTokens_filled parsed same]
    rw [Assignment.parse, parses]
  · rintro name member none ⟨a, parses⟩
    unfold Assignment.parse at parses
    split at parses
    next read =>
      obtain ⟨found, ran, -⟩ := parse_bind.mp read
      exact none (scans_slot (scanned ▸ ran) member)
    · cases parses

end Template

end TraceFlow
