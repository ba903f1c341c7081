import TraceFlow.Proofs.KernelPrinting
import TraceFlow.Proofs.OperandBinding

set_option autoImplicit false

namespace TraceFlow

open List
open Template (Piece textPieces)
open Kernel.Token (scanAll)

variable {text : List Char}

namespace Kernel

variable {code : String} {x : Expr}

namespace Expr

mutual

theorem fill_congr {leaf leaf' : String → Expr} : (e : Expr) → (∀ n ∈ e.names, leaf n = leaf' n) →
    e.fill leaf = e.fill leaf'
  | .const _, _ => by rw [fill, fill]
  | .name n, same => by rw [fill, fill, same n (by simp [names])]
  | .subscript _ indices, same => by rw [fill, fill, fillAll_congr indices (by rwa [names] at same)]
  | .call _ args, same => by rw [fill, fill, fillAll_congr args (by rwa [names] at same)]
  | .unary _ x, same => by rw [fill, fill, fill_congr x (by rwa [names] at same)]
  | .arith _ a b, same | .compare _ a b, same | .and a b, same | .or a b, same => by
    rw [names, forall_mem_append] at same
    rw [fill, fill, fill_congr a same.1, fill_congr b same.2]
  | .ifElse cond yes no, same => by
    rw [names, forall_mem_append, forall_mem_append] at same
    rw [fill, fill, fill_congr cond same.1.1, fill_congr yes same.1.2, fill_congr no same.2]

theorem fillAll_congr {leaf leaf' : String → Expr} :
    (es : List Expr) → (∀ n ∈ namesAll es, leaf n = leaf' n) → fillAll leaf es = fillAll leaf' es
  | [], _ => by rw [fillAll, fillAll]
  | e :: rest, same => by
    rw [namesAll, forall_mem_append] at same
    rw [fillAll, fillAll, fill_congr e same.1, fillAll_congr rest same.2]

end

-- Expressions that read only allowed names and index no array.
def Minds (allowed : String → Prop) (e : Expr) : Prop :=
  (∀ n ∈ e.names, allowed n) ∧ e.subscripts = []

def MindAll (allowed : String → Prop) (es : List Expr) : Prop :=
  (∀ n ∈ namesAll es, allowed n) ∧ subscriptsAll es = []

variable {allowed : String → Prop}

theorem minds_const (value : Datum) : (const value).Minds allowed := by
  rw [Minds, names, subscripts]
  exact ⟨fun n member => absurd member not_mem_nil, rfl⟩

theorem minds_name {n : String} : (name n).Minds allowed ↔ allowed n := by
  simp [Minds, names, subscripts]

variable {leaf : String → Expr}

mutual

theorem minds_fill : (e : Expr) → e.subscripts = [] → (∀ n ∈ e.names, (leaf n).Minds allowed) →
    (e.fill leaf).Minds allowed
  | .const value, _, _ => by
    rw [fill]
    exact minds_const value
  | .name n, _, each => by
    rw [fill]
    exact each n (by simp [names])
  | .subscript array indices, plain, _ => by
    rw [subscripts] at plain
    cases plain
  | .call _ args, plain, each => by
    rw [fill, Minds, names, subscripts]
    exact minds_fillAll args (by rwa [subscripts] at plain) (by rwa [names] at each)
  | .unary _ x, plain, each => by
    rw [fill, Minds, names, subscripts]
    exact minds_fill x (by rwa [subscripts] at plain) (by rwa [names] at each)
  | .arith _ a b, plain, each | .compare _ a b, plain, each | .and a b, plain, each | .or a b,
    plain, each =>
    by
    rw [subscripts, append_eq_nil_iff] at plain
    rw [names, forall_mem_append] at each
    have first := minds_fill a plain.1 each.1
    have second := minds_fill b plain.2 each.2
    rw [fill, Minds, names, subscripts, first.2, second.2]
    exact ⟨forall_mem_append.mpr ⟨first.1, second.1⟩, rfl⟩
  | .ifElse cond yes no, plain, each => by
    rw [subscripts, append_eq_nil_iff, append_eq_nil_iff] at plain
    rw [names, forall_mem_append, forall_mem_append] at each
    have first := minds_fill cond plain.1.1 each.1.1
    have second := minds_fill yes plain.1.2 each.1.2
    have third := minds_fill no plain.2 each.2
    rw [fill, Minds, names, subscripts, first.2, second.2, third.2]
    exact ⟨forall_mem_append.mpr ⟨forall_mem_append.mpr ⟨first.1, second.1⟩, third.1⟩, rfl⟩

theorem minds_fillAll : (es : List Expr) → subscriptsAll es = [] →
    (∀ n ∈ namesAll es, (leaf n).Minds allowed) → MindAll allowed (fillAll leaf es)
  | [], _, _ => by
    rw [fillAll, MindAll, namesAll, subscriptsAll]
    exact ⟨fun n member => absurd member not_mem_nil, rfl⟩
  | e :: rest, plain, each => by
    rw [subscriptsAll, append_eq_nil_iff] at plain
    rw [namesAll, forall_mem_append] at each
    have first := minds_fill e plain.1 each.1
    have others := minds_fillAll rest plain.2 each.2
    rw [fillAll, MindAll, namesAll, subscriptsAll, first.2, others.2]
    exact ⟨forall_mem_append.mpr ⟨first.1, others.1⟩, rfl⟩

end

end Expr

theorem expect_mark {m : Mark} {tokens rest : List Token} (expected : expect m tokens = .ok rest) :
    tokens = .mark m :: rest := by
  unfold expect at expected
  split at expected
  · split at expected
    next same =>
      cases expected
      rw [same]
    · cases expected
  · cases expected

theorem expression_of_parse {a : Assignment}
    (parsed : Assignment.parse ("__out = " ++ code) = .ok a) :
    ∃ tokens fuel, scanAll code.toList = .ok tokens ∧ expression fuel tokens = .ok
      (a.value, []) := by
  unfold Assignment.parse at parsed
  split at parsed
  next a' parsed' =>
    cases parsed
    obtain ⟨all, scanned, parsed⟩ := parse_bind.mp parsed'
    rw [Token.scan_eq, String.toList_append, Token.scanAll_assigned] at scanned
    obtain ⟨tokens, scanned', scanned⟩ := parse_bind.mp scanned
    cases scanned
    refine ⟨tokens, parseFuel tokens.length, scanned', ?_⟩
    obtain ⟨rest, expected, parsed⟩ := parse_bind.mp parsed
    cases expect_mark expected
    obtain ⟨⟨value, left⟩, read, parsed⟩ := parse_bind.mp parsed
    dsimp only at parsed
    split at parsed
    next none =>
      cases parsed
      cases List.isEmpty_iff.mp none
      exact read
    · cases parsed
  · cases parsed

theorem denotes_iff {text : String} : Denotes text.toList x ↔ Assignment.parse
    ("__out = " ++ text) = .ok ⟨"__out", x⟩ := by
  constructor
  · rintro ⟨tokens, fuel, scanned, read⟩
    have assigned : Token.scan ("__out = " ++ text) = .ok (.name "__out" :: .mark .becomes ::
      tokens) := by
      rw [Token.scan_eq, String.toList_append, Token.scanAll_assigned, scanned]
      rfl
    rw [Assignment.parse, Assignment.parse?, assigned, parse_ok,
      Assignment.ofTokens_of_expression read]
  · exact expression_of_parse

theorem denotes_name {n : String} (free : isVariable n = true) : Denotes n.toList (.name n) := by
  obtain ⟨fuel, read⟩ := (Expr.written_name free).whole.reads [] (stops_nil 0)
  have alone := read fuel (Nat.le_refl _)
  rw [Expr.tokens, append_nil] at alone
  exact ⟨[.name n], fuel, spelled_name free, alone⟩

theorem Denotes.scans (denotes : Denotes text x) : Scans text := by
  obtain ⟨tokens, fuel, scanned, read⟩ := denotes
  exact ⟨tokens, scanned⟩

theorem scanAll_enclosed (inside rest : List Char) : scanAll ('(' :: (inside ++ ')' :: rest)) = (do
    let tokens ← scanAll inside
    let more ← scanAll rest
    return .mark .openParen :: (tokens ++ .mark .closeParen :: more)) := by
  rw [Token.scanAll_open, Token.scanAll_append rfl, Token.scanAll_close]
  cases scanAll inside <;> cases scanAll rest <;> rfl

theorem scans_enclosed (scans : Scans ('(' :: (text ++ [')']))) : Scans text := by
  obtain ⟨tokens, scanned⟩ := scans
  rw [scanAll_enclosed] at scanned
  obtain ⟨inside, scanned, -⟩ := parse_bind.mp scanned
  exact ⟨inside, scanned⟩

theorem Denotes.enclosed (denotes : Denotes text x) : Denotes ('(' :: (text ++ [')'])) x := by
  obtain ⟨tokens, fuel, scanned, read⟩ := denotes
  let filling : Filling := .ofTexts fun _ => text
  have known : filling.at? "in0" = some (tokens, x) :=
    Filling.ofTexts_eq (by decide) scanned (reads_of_expression fuel read)
  have parsed : expression 40 [.mark .openParen, .name "in0", .mark .closeParen] = .ok (.name "in0",
    []) := rfl
  have whole := expression_filled closes_nil parsed (Filled.slot known .nil) (Nat.le_add_left _ _)
  refine ⟨_, _, ?_, whole.trans (by simp [Expr.fill, Filling.leaf, known])⟩
  rw [scanAll_enclosed, scanned]
  rfl

def Reading (allowed : String → Prop) (code : String) : Prop :=
  ∀ a, Assignment.parse code = .ok a → a.value.Minds allowed

-- A text that is an expression of allowed names, if it has tokens.
def Tells (allowed : String → Prop) (text : List Char) : Prop :=
  Scans text → ∃ x, Denotes text x ∧ x.Minds allowed

section

variable {allowed : String → Prop} {text : List Char}

theorem Tells.reading (tells : Tells allowed code.toList) : Reading allowed
    ("__out = " ++ code) := by
  intro a parsed
  obtain ⟨tokens, fuel, scanned, read⟩ := expression_of_parse parsed
  obtain ⟨x, denotes, minds⟩ := tells ⟨tokens, scanned⟩
  cases (denotes_iff.mp denotes).symm.trans parsed
  exact minds

theorem Tells.enclosed (tells : Tells allowed text) : Tells allowed ('(' :: (text ++ [')'])) := by
  intro scans
  obtain ⟨x, denotes, minds⟩ := tells (scans_enclosed scans)
  exact ⟨x, denotes.enclosed, minds⟩

theorem tells_const {value : Datum} (denotes : Denotes text (.const value)) : Tells allowed text :=
  fun _ => ⟨_, denotes, Expr.minds_const value⟩

theorem Legible.tells {used : List String} (legible : Legible used text)
    (each : ∀ n ∈ used, allowed n) : Tells allowed text := by
  rintro ⟨tokens, scanned⟩
  obtain ⟨x, fuel, read, numeric⟩ := legible tokens scanned
  exact ⟨x, ⟨tokens, fuel, scanned, read⟩, fun n member => each n (numeric.names member),
    numeric.plain⟩

theorem Legible.tells_nameless (legible : Legible [] text) : Tells allowed text :=
  legible.tells (forall_mem_nil _)

theorem tells_code (d : Datum) : Tells allowed d.code.toList := by
  cases d with
  | bool v =>
    cases v
    · exact tells_const ⟨[.name "False"], 14, rfl, rfl⟩
    · exact tells_const ⟨[.name "True"], 14, rfl, rfl⟩
  | int v => exact (legible_integer _).tells_nameless
  | uint v =>
    rw [Datum.code, Nat.toList_repr]
    exact (unsigned_toDigits _).legible.tells_nameless
  | float v =>
    rw [Datum.code]
    split
    · exact tells_const ⟨[.name "nan"], 14, rfl, rfl⟩
    next number =>
      split
      · split
        · exact tells_const ⟨[.name "inf"], 14, rfl, rfl⟩
        · refine fun _ => ⟨.unary .neg (.const (.float Binary64.infinity)), ⟨_, 40, rfl, rfl⟩, ?_⟩
          rw [Expr.Minds, Expr.names, Expr.subscripts]
          exact Expr.minds_const _
      next finite =>
        have text : Decimal.text v = Decimal.finiteText v.toBits.toNat := by
          rw [Decimal.text, if_neg number, if_neg finite]
        rw [text]
        split
        · simpa [String.toList_append] using (@Legible.tells_nameless allowed _
            (legible_finite v.toBits.toNat)).enclosed
        · exact (legible_finite _).tells_nameless

end

namespace Token

theorem continuesName_repr {n : Nat} {c : Char} (member : c ∈ n.repr.toList) :
    continuesName c = true := by
  rw [Nat.toList_repr] at member
  have digit := isDigit_toDigits member
  simp [continuesName, Char.isAlphanum, digit]

end Token

def isWord (name : String) : Bool :=
  match name.toList with
  | '_' :: rest => rest.all Token.continuesName
  | _ => false

section

variable {name : String} (word : isWord name = true)

include word

theorem exists_of_isWord : ∃ rest, name.toList = '_' :: rest ∧ ∀ c ∈ rest,
    Token.continuesName c = true := by
  unfold isWord at word
  split at word
  next rest text => exact ⟨rest, text, all_eq_true.mp word⟩
  · cases word

theorem isWord_numbered (k : Nat) : isWord (name ++ k.repr) = true := by
  obtain ⟨rest, text, within⟩ := exists_of_isWord word
  rw [isWord, String.toList_append, text, cons_append]
  refine all_eq_true.mpr fun c member => ?_
  rcases mem_append.mp member with first | digit
  · exact within c first
  · exact Token.continuesName_repr digit

theorem isIdentifier_of_isWord : Token.isIdentifier name = true := by
  obtain ⟨rest, text, within⟩ := exists_of_isWord word
  rw [Token.isIdentifier, text]
  exact all_eq_true.mpr within

theorem scanAll_word_append {behind : List Char}
    (stops : ∀ c, behind.head? = some c → Token.continuesName c = false) :
    scanAll (name.toList ++ behind) = (do return .name name :: (← scanAll behind)) :=
  Token.scanAll_identifier_append (isIdentifier_of_isWord word) stops

theorem isVariable_of_isWord : isVariable name = true := by
  have foreign : ∀ other ∈ reservedWords, isWord other = false := by decide
  have free : name ∉ reservedWords := fun reserved => by
    rw [foreign name reserved] at word
    cases word
  simp [isVariable, isIdentifier_of_isWord word, free]

theorem tells_word {allowed : String → Prop} (here : allowed name) : Tells allowed name.toList :=
  fun _ => ⟨_, denotes_name (isVariable_of_isWord word), Expr.minds_name.mpr here⟩

end

theorem Token.scanAll_digits (n : Nat) (behind : List Char) :
    scanAll (n.repr.toList ++ ' ' :: behind) =
    (do return (← ofNumber n.repr.toList) :: (← scanAll behind)) := by
  rw [Nat.toList_repr, scanAll_append rfl, (unsigned_toDigits n).scanAll, scanAll_blank]
  cases ofNumber (Nat.toDigits 10 n) <;> cases scanAll behind <;> rfl

end Kernel

namespace Template

open Kernel

def filled (texts : String → List Char) (text : List Char) : Except String (List Char) :=
  (textPieces [] text).map (fillText texts)

section

variable {texts : String → List Char} {name : List Char}

def FillsTo (texts : String → List Char) (text result : List Char) : Prop :=
  ∃ pieces : List Piece, (∀ piece ∈ pieces, piece.Formed) ∧ text = write pieces ∧
    result = fillText texts pieces

theorem FillsTo.append {text' result result' : List Char} (fills : FillsTo texts text result)
    (fills' : FillsTo texts text' result') : FillsTo texts (text ++ text') (result ++ result') := by
  obtain ⟨pieces, formed, rfl, rfl⟩ := fills
  obtain ⟨pieces', formed', rfl, rfl⟩ := fills'
  exact ⟨pieces ++ pieces', forall_mem_append.mpr ⟨formed, formed'⟩, flatMap_append.symm,
    flatMap_append.symm⟩

theorem fillsTo_plain {chars : List Char} (plain : ∀ c ∈ chars, c ≠ openBrace ∧ c ≠ closeBrace) :
    FillsTo texts chars chars := by
  have same : escape chars = chars := by
    induction chars with
    | nil => rfl
    | cons c chars ih =>
      obtain ⟨here, later⟩ := forall_mem_cons.mp plain
      rw [escape, flatMap_cons, if_neg (by simp [here]), ← escape, ih later, singleton_append]
  refine ⟨[.text chars], by simp [Piece.Formed], ?_, ?_⟩
  · rw [write_text, same, write, flatMap_nil, append_nil]
  · simp [fillText]

theorem fillsTo_text (part : String)
    (none : part.toList.all (fun c => c ≠ openBrace ∧ c ≠ closeBrace) = true) :
    FillsTo texts part.toList part.toList :=
  fillsTo_plain (by simpa using none)

theorem fillsTo_slot (chars : ∀ c ∈ name, isSlotChar c = true) (some : name ≠ []) :
    FillsTo texts (openBrace :: (name ++ [closeBrace])) (texts (String.ofList name)) :=
  ⟨[.slot name], forall_mem_singleton.mpr ⟨some, chars⟩,
    (write_slot name []).symm, by simp [fillText]⟩

end

theorem FillsTo.filled_eq {texts : String → List Char} {result : List Char}
    (fills : FillsTo texts text result) : filled texts text = .ok result := by
  obtain ⟨pieces, formed, rfl, rfl⟩ := fills
  rw [filled, textPieces_write formed]
  exact congrArg Except.ok (fillText_joined texts)

end Template

end TraceFlow
