import TraceFlow.Proofs.LegibleText

set_option autoImplicit false

namespace TraceFlow.Kernel

open List
open Token (scanAll)

def reservedWords : List String :=
  ["if", "else", "and", "or", "not", "True", "False", "nan", "inf"]

def isVariable (name : String) : Bool :=
  Token.isIdentifier name && name ∉ reservedWords

def ArithOp.mark : ArithOp → Mark
  | .add => .plus
  | .sub => .minus
  | .mul => .times
  | .div => .slash
  | .rem => .percent
  | .pow => .power
  | .bitOr => .bar
  | .bitAnd => .ampersand
  | .bitXor => .caret

def CompareOp.mark : CompareOp → Mark
  | .eq => .equal
  | .ne => .notEqual
  | .lt => .less
  | .le => .atMost
  | .gt => .greater
  | .ge => .atLeast

def UnaryOp.token : UnaryOp → Token
  | .neg => .mark .minus
  | .pos => .mark .plus
  | .invert => .mark .tilde
  | .not => .name "not"

def ArithOp.level : ArithOp → Nat
  | .bitOr => 5
  | .bitXor => 6
  | .bitAnd => 7
  | .add | .sub => 8
  | .mul | .div | .rem => 9
  | .pow => 11

def ArithOp.left : ArithOp → Nat
  | .pow => 12
  | op => op.level

def ArithOp.right : ArithOp → Nat
  | .pow => 11
  | op => op.level + 1

def UnaryOp.level : UnaryOp → Nat
  | .not => 3
  | .neg | .pos | .invert => 11

namespace Expr

-- How strongly an expression holds together, from conditionals to operands.
def level : Expr → Nat
  | .ifElse .. => 0
  | .or .. => 1
  | .and .. => 2
  | .unary op _ => op.level
  | .compare .. => 4
  | .arith op .. => op.level
  | .const _ | .name _ | .subscript .. | .call .. => 12

def within (place level : Nat) (tokens : List Token) : List Token :=
  if level < place then .mark .openParen :: (tokens ++ [.mark .closeParen]) else tokens

mutual

def tokens : Expr → List Token
  | .const (.int v) => [.int v]
  | .const (.bool true) => [.name "True"]
  | .const (.bool false) => [.name "False"]
  | .const (.uint v) => [.int (Int64.ofNat v.toNat)]
  | .const (.float v) => [.float v]
  | .name n => [.name n]
  | .subscript array indices =>
    .name array :: .mark .openBracket :: (listed indices ++ [.mark .closeBracket])
  | .call function args =>
    .name function :: .mark .openParen :: (listed args ++ [.mark .closeParen])
  | .unary op x => op.token :: within op.level x.level x.tokens
  | .arith op a b =>
    within op.left a.level a.tokens ++ .mark op.mark :: within op.right b.level b.tokens
  | .compare op a b => within 4 a.level a.tokens ++ .mark op.mark :: within 5 b.level b.tokens
  | .and a b => within 2 a.level a.tokens ++ .name "and" :: within 3 b.level b.tokens
  | .or a b => within 1 a.level a.tokens ++ .name "or" :: within 2 b.level b.tokens
  | .ifElse cond yes no =>
    within 1 yes.level yes.tokens ++ .name "if" :: (within 1 cond.level cond.tokens ++
      .name "else" :: no.tokens)

def listed : List Expr → List Token
  | [] => []
  | [e] => e.tokens
  | e :: rest => e.tokens ++ .mark .comma :: listed rest

end

mutual

-- Integers without sign, truth values, and names that are not reserved.
def isPrintable : Expr → Bool
  | .const (.int v) => 0 ≤ v
  | .const (.bool _) => true
  | .const (.uint _) | .const (.float _) => false
  | .name n => isVariable n
  | .subscript array indices => isVariable array && allPrintable indices
  | .call function args => isVariable function && allPrintable args
  | .unary _ x => x.isPrintable
  | .arith _ a b | .compare _ a b | .and a b | .or a b => a.isPrintable && b.isPrintable
  | .ifElse cond yes no => cond.isPrintable && yes.isPrintable && no.isPrintable

def allPrintable : List Expr → Bool
  | [] => true
  | e :: rest => e.isPrintable && allPrintable rest

end

end Expr

def Token.text : Token → String
  | .int v => Text.integer v.toInt
  | .float v => Decimal.text v
  | .name n => n
  | .mark m => m.text

def Expr.print (e : Expr) : String :=
  " ".intercalate (e.tokens.map Token.text)

def Finally (holds : Nat → Prop) : Prop :=
  ∃ enough, ∀ fuel ≥ enough, holds fuel

namespace Finally

variable {p q r : Nat → Prop}

theorem always (holds : ∀ fuel, p (fuel + 1)) : Finally p := by
  refine ⟨1, fun fuel enough => ?_⟩
  obtain ⟨fuel, rfl⟩ := Nat.exists_eq_add_one_of_ne_zero (by omega : fuel ≠ 0)
  exact holds fuel

theorem and (first : Finally p) (second : Finally q) : Finally fun fuel => p fuel ∧ q fuel := by
  obtain ⟨m, first⟩ := first
  obtain ⟨n, second⟩ := second
  exact ⟨max m n, fun fuel enough => ⟨first fuel (by omega), second fuel (by omega)⟩⟩

theorem succ (step : ∀ fuel, p fuel → q (fuel + 1)) (holds : Finally p) : Finally q := by
  obtain ⟨n, holds⟩ := holds
  refine ⟨n + 1, fun fuel enough => ?_⟩
  obtain ⟨fuel, rfl⟩ := Nat.exists_eq_add_one_of_ne_zero (by omega : fuel ≠ 0)
  exact step fuel (holds fuel (by omega))

end Finally

def Token.joins? : Token → Option Nat
  | .name "if" => some 0
  | .name "or" => some 1
  | .name "and" => some 2
  | .mark .equal | .mark .notEqual | .mark .less | .mark .atMost | .mark .greater | .mark
    .atLeast =>
    some 4
  | .mark .bar => some 5
  | .mark .caret => some 6
  | .mark .ampersand => some 7
  | .mark .plus | .mark .minus => some 8
  | .mark .times | .mark .slash | .mark .percent => some 9
  | .mark .power => some 11
  | .mark .openParen | .mark .openBracket => some 12
  | _ => none

theorem joins?_operator {level : Nat} {token : Token} {join : Expr → Expr → Expr}
    (found : Level.operator? level token = some join) : token.joins? = some (level + 1) := by
  unfold Level.operator? at found
  split at found <;> first | rfl | cases found

-- Tokens that end an expression of a level.
def Stops (level : Nat) (rest : List Token) : Prop :=
  ∀ token others, rest = token :: others → ∀ joined, token.joins? = some joined → joined < level

theorem Stops.mono {low high : Nat} {rest : List Token} (stops : Stops low rest) (le : low ≤ high) :
    Stops high rest :=
  fun token others same joined joins => Nat.lt_of_lt_of_le (stops token others same joined joins) le

theorem stops_cons {level : Nat} {token : Token}
    (joins : ∀ joined, token.joins? = some joined → joined < level) (rest : List Token) :
    Stops level (token :: rest) := by
  rintro _ _ ⟨⟩
  exact joins

theorem stops_nil (level : Nat) : Stops level [] := by
  rintro _ _ ⟨⟩

structure Token.Begins (level : Nat) (token : Token) : Prop where
  positive : 3 < level → token ≠ .name "not"
  unsigned : 11 < level → sign? token = none
  paren : token ≠ .mark .closeParen
  bracket : token ≠ .mark .closeBracket

def parserAt (level fuel : Nat) : List Token → Except String (Expr × List Token) :=
  if level = 0 then expression fuel
  else if level ≤ 10 then binary fuel (level - 1)
  else if level = 11 then signed fuel
  else operand fuel

theorem parserAt_succ {level : Nat} (few : level ≤ 9) (fuel : Nat) :
    parserAt (level + 1) fuel = binary fuel level := by
  rw [parserAt, if_neg (by omega), if_pos (by omega), Nat.add_sub_cancel]

theorem binary_chain {level : Nat} (few : level < 9) (apart : level ≠ 2) (fuel : Nat)
    (tokens : List Token) : binary (fuel + 1) level tokens = (do
      let (lhs, tokens) ← binary fuel (level + 1) tokens
      chain fuel level lhs tokens) := by
  rw [binary.eq_def]
  exact (if_neg apart).trans (if_pos few)

-- Tokens that are read as an expression, whatever ends it.
structure Yields (level : Nat) (tokens : List Token) (e : Expr) : Prop where
  begins : ∃ first others, tokens = first :: others ∧ first.Begins level
  reads : ∀ rest, Stops level rest → Finally fun fuel => parserAt level fuel (tokens ++ rest) =
    .ok (e, rest)

-- Tokens that are read as the left operand of a chain of operators.
structure Leads (level : Nat) (tokens : List Token) (e : Expr) : Prop where
  begins : ∃ first others, tokens = first :: others ∧ first.Begins (level + 1)
  reads : ∀ rest result, Stops (level + 2) rest →
    Finally (fun fuel => chain fuel level e rest = .ok result) →
    Finally fun fuel => binary fuel level (tokens ++ rest) = .ok result

theorem Token.Begins.mono {low high : Nat} {token : Token} (begins : token.Begins high)
    (le : low ≤ high) : token.Begins low :=
  ⟨fun above => begins.positive (by omega), fun above => begins.unsigned (by omega), begins.paren,
    begins.bracket⟩

section

variable {level : Nat} {tokens rest : List Token} {e : Expr}

theorem chain_stops (stops : Stops (level + 1) rest) (e : Expr) (fuel : Nat) :
    chain (fuel + 1) level e rest = .ok (e, rest) := by
  cases rest with
  | nil => rw [chain]
  | cons token others =>
    have none : Level.operator? level token = none := by
      cases found : Level.operator? level token with
      | none => rfl
      | some join => exact absurd (stops _ _ rfl _ (joins?_operator found)) (Nat.lt_irrefl _)
    rw [chain, none]

theorem Leads.yields (leads : Leads level tokens e) (few : level < 9) :
    Yields (level + 1) tokens e where
  begins := leads.begins
  reads rest stops := by
    have read := leads.reads rest (e, rest) (stops.mono (by omega))
      (.always fun fuel => chain_stops stops e fuel)
    simpa only [parserAt_succ (Nat.le_of_lt few)] using read

theorem Yields.leads (yields : Yields (level + 2) tokens e) (few : level < 9) (apart : level ≠ 2) :
    Leads level tokens e where
  begins := by
    obtain ⟨first, others, same, begins⟩ := yields.begins
    exact ⟨first, others, same, begins.mono (by omega)⟩
  reads rest result stops follows := by
    refine ((yields.reads rest stops).and follows).succ fun fuel both => ?_
    rw [parserAt_succ few] at both
    rw [binary_chain few apart, both.1]
    exact both.2

theorem Leads.join {others : List Token} {a b : Expr} {token : Token} {join : Expr → Expr → Expr}
    (leads : Leads level tokens a)
    (found : Level.operator? level token = some join) (yields : Yields (level + 2) others b)
    (few : level < 9) : Leads level (tokens ++ token :: others) (join a b) where
  begins := by
    obtain ⟨first, behind, same, begins⟩ := leads.begins
    exact ⟨first, behind ++ token :: others, by rw [same, cons_append], begins⟩
  reads rest result stops follows := by
    rw [append_assoc, cons_append]
    refine leads.reads _ result (stops_cons ?_ _) (((yields.reads rest stops).and follows).succ
      fun fuel both => ?_)
    · intro joined joins
      cases (joins?_operator found).symm.trans joins
      omega
    · rw [parserAt_succ few] at both
      rw [chain, found]
      dsimp only
      rw [both.1]
      exact both.2

theorem Yields.lower (yields : Yields (level + 1) tokens e) (few : level < 12) :
    Yields level tokens e := by
  have begins : ∃ first others, tokens = first :: others ∧ first.Begins level := by
    obtain ⟨first, others, same, begins⟩ := yields.begins
    exact ⟨first, others, same, begins.mono (by omega)⟩
  obtain ⟨first, others, rfl, starts⟩ := yields.begins
  by_cases chains : 1 ≤ level ∧ level ≤ 9 ∧ level ≠ 3
  · obtain ⟨below, rfl⟩ := Nat.exists_eq_add_one_of_ne_zero (by omega : level ≠ 0)
    exact (yields.leads (by omega) (by omega)).yields (by omega)
  refine ⟨begins, fun rest stops => (yields.reads rest (stops.mono (by omega))).succ
    fun fuel read => ?_⟩
  obtain rfl | rfl | rfl | rfl : level = 0 ∨ level = 3 ∨ level = 10 ∨ level = 11 := by omega
  · change binary fuel 0 _ = _ at read
    change expression (fuel + 1) _ = _
    rw [expression, show binary fuel Level.disjunction _ = _ from read, parse_ok]
    dsimp only
    split
    next others => exact absurd (stops _ _ rfl 0 rfl) (Nat.lt_irrefl _)
    · rfl
  · change binary fuel 3 _ = _ at read
    change binary (fuel + 1) 2 _ = _
    rw [binary.eq_def]
    dsimp only
    rw [if_pos (show 2 = Level.negation from rfl)]
    split
    next impossible => exact absurd (List.cons.inj impossible).1 (starts.positive (by decide))
    · exact read
  · exact read
  · change operand fuel _ = _ at read
    change signed (fuel + 1) _ = _
    rw [cons_append] at read ⊢
    rw [signed, starts.unsigned (by decide)]
    dsimp only
    rw [read, parse_ok]
    dsimp only
    split
    next others => exact absurd (stops _ _ rfl 11 rfl) (Nat.lt_irrefl _)
    · rfl

theorem Yields.mono {low : Nat} (yields : Yields level tokens e) (le : low ≤ level)
    (few : level ≤ 12) : Yields low tokens e := by
  induction level with
  | zero =>
    obtain rfl : low = 0 := by omega
    exact yields
  | succ level ih =>
    rcases Nat.lt_or_eq_of_le le with less | rfl
    · exact ih (yields.lower (by omega)) (by omega) (by omega)
    · exact yields

theorem Yields.parenthesis (yields : Yields 0 tokens e) :
    Yields 12 (.mark .openParen :: (tokens ++ [.mark .closeParen])) e where
  begins := ⟨_, _, rfl, by simp, fun _ => rfl, by simp, by simp⟩
  reads rest _ := by
    refine (yields.reads (.mark .closeParen :: rest) (stops_cons (by rintro _ ⟨⟩) _)).succ
      fun fuel read => ?_
    change expression fuel (tokens ++ .mark .closeParen :: rest) = _ at read
    change operand (fuel + 1) (.mark .openParen :: (tokens ++ [.mark .closeParen]) ++ rest) = _
    rw [cons_append, append_assoc, singleton_append, operand, read]
    rfl

end

theorem Expr.level_le (e : Expr) : e.level ≤ 12 := by
  unfold level
  split
  case h_4 op _ | h_6 op _ _ => cases op <;> decide
  all_goals decide

structure Expr.Written (e : Expr) : Prop where
  yields : Yields e.level e.tokens e
  leads : ∀ level < 9, level ≠ 2 → e.level = level + 1 → Leads level e.tokens e

namespace Expr

variable {e a b : Expr} {close : Mark} {es : List Expr}

theorem Written.within (written : e.Written) {place : Nat} (few : place ≤ 12) :
    Yields place (within place e.level e.tokens) e := by
  rw [Expr.within]
  split
  · exact (written.yields.mono (Nat.zero_le _) e.level_le).parenthesis.mono few (Nat.le_refl _)
  · exact written.yields.mono (by omega) e.level_le

theorem Written.whole (written : e.Written) : Yields 0 e.tokens e :=
  written.yields.mono (Nat.zero_le _) e.level_le

theorem Written.leading (written : e.Written) {level : Nat} (few : level < 9) (apart : level ≠ 2) :
    Leads level (Expr.within (level + 1) e.level e.tokens) e := by
  by_cases same : e.level = level + 1
  · rw [Expr.within, if_neg (by omega)]
    exact written.leads level few apart same
  · have next : Expr.within (level + 1) e.level e.tokens = Expr.within (level + 2) e.level
      e.tokens := by
      rw [Expr.within, Expr.within]
      exact if_congr (by omega) rfl rfl
    rw [next]
    exact (written.within (by omega)).leads few apart

theorem Written.join (first : a.Written) (second : b.Written) {token : Token}
    {join : Expr → Expr → Expr} {level : Nat} (few : level < 9) (apart : level ≠ 2)
    (found : Level.operator? level token = some join) (bound : (join a b).level = level + 1)
    (tokens : (join a b).tokens = Expr.within (level + 1) a.level a.tokens ++ token ::
      Expr.within (level + 2) b.level b.tokens) : (join a b).Written := by
  have leads : Leads level (join a b).tokens (join a b) :=
    tokens ▸ (first.leading few apart).join found (second.within (by omega)) few
  refine ⟨bound ▸ leads.yields few, fun other _ _ same => ?_⟩
  obtain rfl : other = level := by omega
  exact leads

theorem written_of_yields (level : Nat) (bound : e.level = level)
    (single : level = 0 ∨ level = 3 ∨ 9 < level) (yields : Yields level e.tokens e) : e.Written :=
  ⟨bound ▸ yields, fun other few apart same => by omega⟩

theorem listed_cons (e next : Expr) (rest : List Expr) :
    listed (e :: next :: rest) = e.tokens ++ .mark .comma :: listed (next :: rest) := by
  rw [listed]
  simp

theorem arguments_listed (closes : close = .closeParen ∨ close = .closeBracket) (some : es ≠ [])
    (each : ∀ e ∈ es, e.Written) (rest : List Token) :
    Finally fun fuel => arguments fuel close (listed es ++ .mark close :: rest) = .ok
      (es, rest) := by
  induction es with
  | nil => exact absurd rfl some
  | cons e others ih =>
    have whole := (each e mem_cons_self).whole
    cases others with
    | nil =>
      have stops : Stops 0 (.mark close :: rest) := by
        refine stops_cons ?_ rest
        rcases closes with rfl | rfl <;> rintro _ ⟨⟩
      refine (whole.reads _ stops).succ fun fuel read => ?_
      change expression fuel _ = _ at read
      rw [listed, arguments, read, parse_ok]
      rcases closes with rfl | rfl <;> rfl
    | cons next others =>
      have later := ih (by simp) fun e member => each e (mem_cons_of_mem _ member)
      refine ((whole.reads (.mark .comma :: (listed (next :: others) ++ .mark close :: rest))
        (stops_cons (by rintro _ ⟨⟩) _)).and later).succ
        fun fuel both => ?_
      obtain ⟨read, read'⟩ := both
      change expression fuel _ = _ at read
      rw [listed_cons, append_assoc, cons_append, arguments, read, parse_ok]
      dsimp only
      rw [read']
      rfl

theorem head_listed (some : es ≠ []) (each : ∀ e ∈ es, e.Written)
    (closes : close = .closeParen ∨ close = .closeBracket)
    (rest others : List Token) : listed es ++ rest ≠ .mark close :: others := by
  obtain ⟨e, es, rfl⟩ := exists_cons_of_ne_nil some
  obtain ⟨first, behind, same, begins⟩ := (each e mem_cons_self).yields.begins
  have head : ∃ more, listed (e :: es) ++ rest = first :: more := by
    cases es with
    | nil => exact ⟨_, by rw [listed, same, cons_append]⟩
    | cons next es => exact ⟨_, by rw [listed_cons, same, cons_append, cons_append]⟩
  obtain ⟨more, head⟩ := head
  rw [head]
  rintro ⟨⟩
  rcases closes with rfl | rfl
  · exact begins.paren rfl
  · exact begins.bracket rfl

theorem isVariable_ne {n word : String} (free : isVariable n = true)
    (reserved : word ∈ reservedWords) : n ≠ word := by
  rintro rfl
  simp [isVariable, reserved] at free

section

variable {n : String} (free : isVariable n = true) {args : List Expr}

include free

theorem not_constant : n ≠ "True" ∧ n ≠ "False" ∧ n ≠ "nan" ∧ n ≠ "inf" :=
  ⟨isVariable_ne free (by decide), isVariable_ne free (by decide), isVariable_ne free (by decide),
    isVariable_ne free (by decide)⟩

theorem begins_name (level : Nat) : (Token.name n).Begins level :=
  ⟨fun _ same => isVariable_ne free (by decide : "not" ∈ reservedWords) (Token.name.inj same),
    fun _ => rfl, by simp, by simp⟩

theorem written_name : (Expr.name n).Written := by
  refine written_of_yields 12 rfl (by decide) ⟨⟨_, _, by rw [tokens], begins_name free 12⟩,
    fun rest stops => .always fun fuel => ?_⟩
  obtain ⟨yes, no, nan, inf⟩ := not_constant free
  have paren (others : List Token) : rest ≠ .mark .openParen :: others := by
    rintro rfl
    exact absurd (stops _ _ rfl 12 rfl) (Nat.lt_irrefl _)
  have bracket (others : List Token) : rest ≠ .mark .openBracket :: others := by
    rintro rfl
    exact absurd (stops _ _ rfl 12 rfl) (Nat.lt_irrefl _)
  change operand (fuel + 1) _ = _
  rw [tokens, singleton_append, operand] <;> simp_all

theorem written_applied {opening : Mark} {build : List Expr → Expr}
    (closes : close = .closeParen ∨ close = .closeBracket) (bound : (build args).level = 12)
    (tokens : (build args).tokens = .name n :: .mark opening :: (listed args ++ [.mark close]))
    (empty : ∀ fuel rest, operand (fuel + 1) (.name n :: .mark opening :: .mark close :: rest) =
      .ok (build [], rest)) (full : ∀ fuel inside rest, (∀ others, inside ≠ .mark close :: others) →
      arguments fuel close inside = .ok (args, rest) →
      operand (fuel + 1) (.name n :: .mark opening :: inside) = .ok (build args, rest)) (each :
      ∀ e ∈ args, e.Written) : (build args).Written := by
  refine written_of_yields 12 bound (by decide) ⟨⟨_, _, tokens, begins_name free 12⟩,
    fun rest stops => ?_⟩
  have cut : (build args).tokens ++ rest = .name n :: .mark opening ::
    (listed args ++ .mark close :: rest) := by
    simp [tokens]
  rw [cut]
  by_cases none : args = []
  · subst none
    rw [listed]
    exact .always fun fuel => empty fuel rest
  · exact (arguments_listed closes none each rest).succ fun fuel read => full fuel _ rest
      (head_listed none each closes _) read

theorem written_call (each : ∀ e ∈ args, e.Written) : (Expr.call n args).Written := by
  obtain ⟨yes, no, nan, inf⟩ := not_constant free
  refine written_applied free (.inl rfl) rfl (by rw [tokens]) (fun fuel rest => ?_)
    (fun fuel inside rest open_ read => ?_) each
  · rw [operand] <;> simp_all
  · rw [operand, read]
    · rfl
    all_goals simp_all

theorem written_subscript {indices : List Expr} (each : ∀ e ∈ indices, e.Written) :
    (Expr.subscript n indices).Written := by
  obtain ⟨yes, no, nan, inf⟩ := not_constant free
  refine written_applied free (.inr rfl) rfl (by rw [tokens]) (fun fuel rest => ?_)
    (fun fuel inside rest open_ read => ?_) each
  · rw [operand] <;> simp_all
  · rw [operand, read]
    · rfl
    all_goals simp_all

end

theorem written_const {value : Datum} (printable : (Expr.const value).isPrintable = true) :
    (Expr.const value).Written := by
  have single {token : Token} (same : (Expr.const value).tokens = [token])
    (begins : token.Begins 12)
      (read : ∀ fuel rest, operand (fuel + 1) (token :: rest) = .ok (.const value, rest)) :
      (Expr.const value).Written :=
    written_of_yields 12 rfl (by decide) ⟨⟨token, [], same, begins⟩,
      fun rest _ => .always fun fuel => by rw [same]; exact read fuel rest⟩
  cases value with
  | int v => exact single (by rw [tokens]) ⟨by simp, fun _ => rfl, by simp, by simp⟩ fun _ _ => rfl
  | bool v =>
    cases v
    · exact single (by rw [tokens]) ⟨by simp, fun _ => rfl, by simp, by simp⟩ fun _ _ => rfl
    · exact single (by rw [tokens]) ⟨by simp, fun _ => rfl, by simp, by simp⟩ fun _ _ => rfl
  | uint v | float v => simp [isPrintable] at printable

theorem written_not (written : e.Written) : (Expr.unary .not e).Written := by
  have inner : Yields 3 (Expr.within 3 e.level e.tokens) e := written.within (by decide)
  have whole : (Expr.unary .not e).tokens = .name "not" :: Expr.within 3 e.level e.tokens := by
    rw [tokens]
    rfl
  refine written_of_yields 3 rfl (by decide) ⟨⟨_, _, whole, nofun, nofun, by simp, by simp⟩,
    fun rest stops => ?_⟩
  refine (inner.reads rest stops).succ fun fuel read => ?_
  change binary fuel Level.negation _ = _ at read
  rw [whole, cons_append, parserAt_succ (by decide), binary.eq_def]
  simp only [show 2 = Level.negation from rfl, if_true, read, parse_ok]
  rfl

theorem written_sign {op : UnaryOp} (signs : op ≠ .not) (written : e.Written) :
    (Expr.unary op e).Written := by
  have inner : Yields 11 (Expr.within 11 e.level e.tokens) e := written.within (by decide)
  have bound : op.level = 11 := by cases op <;> first | rfl | exact absurd rfl signs
  have whole : (Expr.unary op e).tokens = op.token :: Expr.within 11 e.level e.tokens := by
    rw [tokens, bound]
  have sign : sign? op.token = some op := by cases op <;> first | rfl | exact absurd rfl signs
  have begins : op.token.Begins 11 := by
    cases op with
    | not => exact absurd rfl signs
    | _ => exact ⟨by simp [UnaryOp.token], nofun, by simp [UnaryOp.token], by simp [UnaryOp.token]⟩
  refine written_of_yields 11 bound (by decide) ⟨⟨_, _, whole, begins⟩,
    fun rest stops => (inner.reads rest stops).succ fun fuel read => ?_⟩
  change signed fuel _ = _ at read
  change signed (fuel + 1) _ = _
  rw [whole, cons_append, signed, sign]
  dsimp only
  rw [read]
  rfl

theorem written_pow (first : a.Written) (second : b.Written) : (Expr.arith .pow a b).Written := by
  have base : Yields 12 (Expr.within 12 a.level a.tokens) a := first.within (by decide)
  have exponent : Yields 11 (Expr.within 11 b.level b.tokens) b := second.within (by decide)
  obtain ⟨head, others, same, begins⟩ := base.begins
  have whole : (Expr.arith .pow a b).tokens = head ::
    (others ++ .mark .power :: Expr.within 11 b.level b.tokens) := by
    rw [← cons_append, ← same, tokens]
    rfl
  refine written_of_yields 11 rfl (by decide) ⟨⟨_, _, whole, begins.mono (by decide)⟩,
    fun rest stops => ?_⟩
  have power : Stops 12 (.mark .power :: (Expr.within 11 b.level b.tokens ++ rest)) :=
    stops_cons (by rintro _ ⟨⟩; decide) _
  refine ((base.reads _ power).and (exponent.reads rest stops)).succ fun fuel both => ?_
  obtain ⟨read, read'⟩ := both
  change operand fuel _ = _ at read
  change signed fuel _ = _ at read'
  change signed (fuel + 1) _ = _
  rw [same, cons_append] at read
  rw [whole, cons_append, append_assoc, cons_append, signed, begins.unsigned (by decide)]
  dsimp only
  rw [read, parse_ok]
  dsimp only
  rw [read']
  rfl

theorem written_ifElse {cond yes no : Expr} (first : cond.Written) (second : yes.Written)
    (third : no.Written) : (Expr.ifElse cond yes no).Written := by
  have test : Yields 1 (Expr.within 1 cond.level cond.tokens) cond := first.within (by decide)
  have chosen : Yields 1 (Expr.within 1 yes.level yes.tokens) yes := second.within (by decide)
  obtain ⟨head, others, same, begins⟩ := chosen.begins
  refine written_of_yields 0 rfl (by decide)
    ⟨⟨head, _, by rw [tokens, same, cons_append], begins.mono (by decide)⟩, fun rest stops => ?_⟩
  have choice : Stops 1 (.name "if" :: (Expr.within 1 cond.level cond.tokens ++ .name "else" ::
    (no.tokens ++ rest))) :=
    stops_cons (by rintro _ ⟨⟩; decide) _
  have otherwise : Stops 1 (.name "else" :: (no.tokens ++ rest)) := stops_cons (by rintro _ ⟨⟩) _
  refine (((chosen.reads _ choice).and (test.reads _ otherwise)).and
    (third.whole.reads rest stops)).succ fun fuel all => ?_
  obtain ⟨⟨read, read'⟩, read''⟩ := all
  change binary fuel Level.disjunction _ = _ at read read'
  change expression fuel _ = _ at read''
  change expression (fuel + 1) _ = _
  rw [tokens, append_assoc, cons_append, append_assoc, cons_append, expression, read]
  simp only [parse_ok, read', read'']
  rfl

mutual

theorem written : (e : Expr) → e.isPrintable = true → e.Written
  | .const value, printable => written_const printable
  | .name n, printable => written_name (by rwa [isPrintable] at printable)
  | .subscript array indices, printable => by
    rw [isPrintable, Bool.and_eq_true] at printable
    exact written_subscript printable.1 (writtenAll indices printable.2)
  | .call function args, printable => by
    rw [isPrintable, Bool.and_eq_true] at printable
    exact written_call printable.1 (writtenAll args printable.2)
  | .unary op x, printable => by
    rw [isPrintable] at printable
    by_cases negation : op = .not
    · subst negation
      exact written_not (written x printable)
    · exact written_sign negation (written x printable)
  | .arith op a b, printable => by
    rw [isPrintable, Bool.and_eq_true] at printable
    have first := written a printable.1
    have second := written b printable.2
    have chained (k : Nat) (few : k < 9) (apart : k ≠ 2)
      (found : Level.operator? k (.mark op.mark) = some (.arith op)) (left : op.left = k + 1)
        (right : op.right = k + 2) (bound : op.level = k + 1) : (Expr.arith op a b).Written :=
      first.join second few apart found bound (by rw [tokens, left, right])
    cases op with
    | pow => exact written_pow first second
    | bitOr => exact chained 4 (by decide) (by decide) rfl rfl rfl rfl
    | bitXor => exact chained 5 (by decide) (by decide) rfl rfl rfl rfl
    | bitAnd => exact chained 6 (by decide) (by decide) rfl rfl rfl rfl
    | add | sub => exact chained 7 (by decide) (by decide) rfl rfl rfl rfl
    | mul | div | rem => exact chained 8 (by decide) (by decide) rfl rfl rfl rfl
  | .compare op a b, printable => by
    rw [isPrintable, Bool.and_eq_true] at printable
    have found : Level.operator? 3 (.mark op.mark) = some (.compare op) := by cases op <;> rfl
    exact (written a printable.1).join (written b printable.2) (by decide) (by decide) found rfl
      (by rw [tokens])
  | .and a b, printable => by
    rw [isPrintable, Bool.and_eq_true] at printable
    have found : Level.operator? 1 (.name "and") = some .and := rfl
    exact (written a printable.1).join (written b printable.2) (by decide) (by decide) found rfl
      (by rw [tokens])
  | .or a b, printable => by
    rw [isPrintable, Bool.and_eq_true] at printable
    have found : Level.operator? 0 (.name "or") = some .or := rfl
    exact (written a printable.1).join (written b printable.2) (by decide) (by decide) found rfl
      (by rw [tokens])
  | .ifElse cond yes no, printable => by
    rw [isPrintable, Bool.and_eq_true, Bool.and_eq_true] at printable
    exact written_ifElse (written cond printable.1.1) (written yes printable.1.2)
      (written no printable.2)

theorem writtenAll : (es : List Expr) → allPrintable es = true → ∀ e ∈ es, e.Written
  | [], _ => by simp
  | e :: rest, printable => by
    rw [allPrintable, Bool.and_eq_true] at printable
    exact forall_mem_cons.mpr ⟨written e printable.1, writtenAll rest printable.2⟩

end

end Expr

theorem Assignment.ofTokens_tokens {e : Expr} (printable : e.isPrintable = true) (target : String) :
    ofTokens (.name target :: .mark .becomes :: e.tokens) = .ok ⟨target, e⟩ := by
  obtain ⟨enough, read⟩ := (e.written printable).whole.reads [] (stops_nil 0)
  have parsed := read enough (Nat.le_refl _)
  rw [append_nil] at parsed
  exact Assignment.ofTokens_of_expression parsed

def Token.Spelled (token : Token) : Prop :=
  scanAll token.text.toList = .ok [token]

theorem Mark.spelled (m : Mark) : (Token.mark m).Spelled := by
  cases m <;> rfl

theorem spelled_name {n : String} (free : isVariable n = true) : (Token.name n).Spelled :=
  Token.scanAll_identifier (Bool.and_eq_true_iff.mp free).1

theorem spelled_int {v : Int64} (unsigned : 0 ≤ v) : (Token.int v).Spelled := by
  obtain ⟨n, same⟩ := Int.eq_ofNat_of_zero_le (Int64.le_iff_toInt_le.mp unsigned)
  have few : n < 0x8000000000000000 := by
    have := v.toInt_lt
    omega
  have back : Int64.ofNat n = v := by
    rw [← Int64.ofInt_toInt v, same, Int64.ofInt_eq_ofNat]
  rw [Token.Spelled, Token.text, same]
  change scanAll n.repr.toList = _
  rw [Nat.toList_repr, (unsigned_toDigits n).scanAll, ofNumber_toDigits, if_pos few, back]
  rfl

namespace Expr

theorem forall_mem_within {p : Token → Prop} (opening : p (.mark .openParen))
    (closing : p (.mark .closeParen)) {tokens : List Token}
    (each : ∀ t ∈ tokens, p t) (place level : Nat) : ∀ t ∈ within place level tokens, p t := by
  unfold within
  split
  · simpa [or_imp, forall_and, opening, closing] using each
  · exact each

mutual

theorem spelled : (e : Expr) → e.isPrintable = true → ∀ t ∈ e.tokens, t.Spelled
  | .const (.int v), printable => by
    rw [isPrintable, decide_eq_true_eq] at printable
    simpa [tokens] using spelled_int printable
  | .const (.bool v), _ => by
    have yes : (Token.name "True").Spelled := rfl
    have no : (Token.name "False").Spelled := rfl
    cases v <;> simpa [tokens]
  | .const (.uint _), printable | .const (.float _), printable => by simp [isPrintable] at printable
  | .name n, printable => by
    rw [isPrintable] at printable
    simpa [tokens] using spelled_name printable
  | .subscript array indices, printable | .call array indices, printable => by
    rw [isPrintable, Bool.and_eq_true] at printable
    have each := spelledAll indices printable.2
    simpa [tokens, or_imp, forall_and, spelled_name printable.1, Mark.spelled] using each
  | .unary op x, printable => by
    rw [isPrintable] at printable
    have sign : op.token.Spelled := by cases op <;> rfl
    have inner := forall_mem_within (Mark.spelled _) (Mark.spelled _) (spelled x printable)
    simpa [tokens, sign] using inner _ _
  | .arith op a b, printable | .compare op a b, printable => by
    rw [isPrintable, Bool.and_eq_true] at printable
    have first := forall_mem_within (Mark.spelled _) (Mark.spelled _) (spelled a printable.1)
    have second := forall_mem_within (Mark.spelled _) (Mark.spelled _) (spelled b printable.2)
    simpa [tokens, or_imp, forall_and, Mark.spelled] using ⟨first _ _, second _ _⟩
  | .and a b, printable | .or a b, printable => by
    rw [isPrintable, Bool.and_eq_true] at printable
    have both : (Token.name "and").Spelled := rfl
    have either : (Token.name "or").Spelled := rfl
    have first := forall_mem_within (Mark.spelled _) (Mark.spelled _) (spelled a printable.1)
    have second := forall_mem_within (Mark.spelled _) (Mark.spelled _) (spelled b printable.2)
    simpa [tokens, or_imp, forall_and, both, either] using ⟨first _ _, second _ _⟩
  | .ifElse cond yes no, printable => by
    rw [isPrintable, Bool.and_eq_true, Bool.and_eq_true] at printable
    have choice : (Token.name "if").Spelled := rfl
    have otherwise : (Token.name "else").Spelled := rfl
    have test := forall_mem_within (Mark.spelled _) (Mark.spelled _) (spelled cond printable.1.1)
    have chosen := forall_mem_within (Mark.spelled _) (Mark.spelled _) (spelled yes printable.1.2)
    simpa [tokens, or_imp, forall_and, choice, otherwise] using ⟨chosen _ _, test _ _,
      spelled no printable.2⟩

theorem spelledAll : (es : List Expr) → allPrintable es = true → ∀ t ∈ listed es, t.Spelled
  | [], _ => by simp [listed]
  | [e], printable => by
    rw [allPrintable, Bool.and_eq_true] at printable
    simpa [listed] using spelled e printable.1
  | e :: next :: rest, printable => by
    rw [allPrintable, Bool.and_eq_true] at printable
    simpa [listed_cons, or_imp, forall_and, Mark.spelled] using ⟨spelled e printable.1,
      spelledAll (next :: rest) printable.2⟩

end

end Expr

theorem scanAll_intercalate {tokens : List Token} (each : ∀ t ∈ tokens, t.Spelled) :
    scanAll (" ".intercalate (tokens.map Token.text)).toList = .ok tokens := by
  induction tokens with
  | nil => rfl
  | cons token rest ih =>
    have first : token.Spelled := each token mem_cons_self
    cases rest with
    | nil => exact first
    | cons next rest =>
      have later := ih fun t member => each t (mem_cons_of_mem _ member)
      rw [map_cons, String.intercalate_cons_of_ne_nil (by simp), String.toList_append,
        String.toList_append, append_assoc]
      change scanAll (token.text.toList ++ ' ' ::
        (" ".intercalate ((next :: rest).map Token.text)).toList) = _
      rw [Token.scanAll_append rfl, Token.scanAll_blank, later, first]
      rfl

-- Reading inverts printing.
theorem Assignment.parse_print (e : Expr) (printable : e.isPrintable = true) :
    parse ("__out = " ++ e.print) = .ok ⟨"__out", e⟩ := by
  have scanned : Token.scan ("__out = " ++ e.print) = .ok (.name "__out" :: .mark .becomes ::
    e.tokens) := by
    rw [Token.scan_eq, String.toList_append, Token.scanAll_assigned, Expr.print,
      scanAll_intercalate (e.spelled printable)]
    rfl
  rw [parse, parse?, scanned, parse_ok, ofTokens_tokens printable]

theorem Assignment.parse_print_nested : parse ("__out = " ++ (Expr.ifElse (.unary .not (.name "c"))
        (.arith .pow (.unary .neg (.name "x")) (.const (.int 2)))
        (.call "f" [.subscript "x" [.const (.int 0)], .const (.bool true)])).print) =
      .ok ⟨"__out", .ifElse (.unary .not (.name "c"))
        (.arith .pow (.unary .neg (.name "x")) (.const (.int 2)))
        (.call "f" [.subscript "x" [.const (.int 0)], .const (.bool true)])⟩ :=
  parse_print _ (by decide)

example : (Expr.arith .sub (.arith .pow (.unary .neg (.name "x")) (.const (.int 2)))
  (.arith .sub (.name "a") (.name "b"))).print =
    "( - x ) ** 2 - ( a - b )" := by
  decide

end TraceFlow.Kernel
