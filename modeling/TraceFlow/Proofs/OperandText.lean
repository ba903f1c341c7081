import Mathlib.Tactic.IntervalCases
import TraceFlow.Proofs.Scanning

set_option autoImplicit false

namespace TraceFlow.Kernel

open List

variable {tokens : List Token} {fuel : Nat} {e : Expr} {target : String}

-- Tokens that are read as an expression of their own in front of a closing parenthesis.
def Reads (tokens : List Token) (x : Expr) : Prop :=
  ∀ fuel ≥ 13 * tokens.length, ∀ rest, expression fuel (tokens ++ .mark .closeParen :: rest) =
    .ok (x, .mark .closeParen :: rest)

theorem Reads.exists_head {x : Expr} (reads : Reads tokens x) :
    ∃ token rest, tokens = token :: rest ∧ token ≠ .mark .closeParen := by
  cases tokens with
  | nil => cases reads 0 (Nat.le_refl _) []
  | cons token rest =>
    refine ⟨token, rest, rfl, ?_⟩
    rintro rfl
    cases reads (13 * rest.length + 13) (Nat.le_refl _) []

def slotNames : List String := ["in0", "in1", "in2", "y"]

theorem expression_slot {n : String} (slot : n ∈ slotNames) {rest : List Token}
    (parsed : expression fuel (.name n :: .mark .closeParen :: tokens) = .ok (e, rest)) :
    e = .name n ∧ rest = .mark .closeParen :: tokens := by
  simp only [slotNames, mem_cons, not_mem_nil, or_false] at slot
  have named (more : Nat) : expression (more + 13) (.name n :: .mark .closeParen :: tokens) =
    .ok (.name n, .mark .closeParen :: tokens) := by
    rcases slot with rfl | rfl | rfl | rfl <;> rfl
  have short (few : Nat) (bound : few < 13) :
    ∃ reason, expression few (.name n :: .mark .closeParen :: tokens) = .error reason := by
    rcases slot with rfl | rfl | rfl | rfl <;> interval_cases few <;> exact ⟨_, rfl⟩
  by_cases enough : 13 ≤ fuel
  · obtain ⟨more, rfl⟩ := Nat.exists_eq_add_of_le' enough
    rw [named more] at parsed
    cases parsed
    exact ⟨rfl, rfl⟩
  · obtain ⟨reason, failed⟩ := short fuel (by omega)
    rw [failed] at parsed
    cases parsed

structure Filling where
  at? : String → Option (List Token × Expr)
  slots : ∀ n tokens x, at? n = some (tokens, x) → n ∈ slotNames
  reads : ∀ n tokens x, at? n = some (tokens, x) → Reads tokens x

def Filling.leaf (filling : Filling) (n : String) : Expr :=
  match filling.at? n with
  | some (_, x) => x
  | none => .name n

-- Tokens with every slot filled, in front of others. A slot stands alone between parentheses.
inductive Filled (filling : Filling) (tail : List Token) : List Token → List Token → Prop
  | nil : Filled filling tail [] tail
  | keep {token : Token} {tokens filled : List Token} :
    (∀ n, token = .name n → filling.at? n = none) → Filled filling tail tokens filled →
    Filled filling tail (token :: tokens) (token :: filled)
  | slot {n : String} {inside : List Token} {x : Expr} {tokens filled : List Token} :
    filling.at? n = some (inside, x) →
    Filled filling tail tokens filled →
    Filled filling tail (.mark .openParen :: .name n :: .mark .closeParen :: tokens)
      (.mark .openParen :: (inside ++ .mark .closeParen :: filled))

namespace Expr

mutual

def fill (leaf : String → Expr) : Expr → Expr
  | .const value => .const value
  | .name n => leaf n
  | .subscript array indices => .subscript array (fillAll leaf indices)
  | .call function args => .call function (fillAll leaf args)
  | .unary op operand => .unary op (operand.fill leaf)
  | .arith op lhs rhs => .arith op (lhs.fill leaf) (rhs.fill leaf)
  | .compare op lhs rhs => .compare op (lhs.fill leaf) (rhs.fill leaf)
  | .and lhs rhs => .and (lhs.fill leaf) (rhs.fill leaf)
  | .or lhs rhs => .or (lhs.fill leaf) (rhs.fill leaf)
  | .ifElse cond yes no => .ifElse (cond.fill leaf) (yes.fill leaf) (no.fill leaf)

def fillAll (leaf : String → Expr) : List Expr → List Expr
  | [] => []
  | e :: rest => e.fill leaf :: fillAll leaf rest

end

mutual

theorem fill_fill (leaf outer : String → Expr) :
    (e : Expr) → (e.fill leaf).fill outer = e.fill fun n => (leaf n).fill outer
  | .const _ => by simp only [fill]
  | .name _ => by simp only [fill]
  | .subscript _ indices => by simp only [fill, fillAll_fillAll leaf outer indices]
  | .call _ args => by simp only [fill, fillAll_fillAll leaf outer args]
  | .unary _ operand => by simp only [fill, fill_fill leaf outer operand]
  | .arith _ lhs rhs => by simp only [fill, fill_fill leaf outer lhs, fill_fill leaf outer rhs]
  | .compare _ lhs rhs => by simp only [fill, fill_fill leaf outer lhs, fill_fill leaf outer rhs]
  | .and lhs rhs => by simp only [fill, fill_fill leaf outer lhs, fill_fill leaf outer rhs]
  | .or lhs rhs => by simp only [fill, fill_fill leaf outer lhs, fill_fill leaf outer rhs]
  | .ifElse cond yes no => by
    simp only [fill, fill_fill leaf outer cond, fill_fill leaf outer yes, fill_fill leaf outer no]

theorem fillAll_fillAll (leaf outer : String → Expr) : (es : List Expr) →
    fillAll outer (fillAll leaf es) = fillAll (fun n => (leaf n).fill outer) es
  | [] => by simp only [fillAll]
  | e :: rest => by simp only [fillAll, fill_fill leaf outer e, fillAll_fillAll leaf outer rest]

end

mutual

theorem fill_name : (e : Expr) → e.fill .name = e
  | .const _ => by rw [fill]
  | .name _ => by rw [fill]
  | .subscript _ indices => by rw [fill, fillAll_name indices]
  | .call _ args => by rw [fill, fillAll_name args]
  | .unary _ operand => by rw [fill, fill_name operand]
  | .arith _ lhs rhs => by rw [fill, fill_name lhs, fill_name rhs]
  | .compare _ lhs rhs => by rw [fill, fill_name lhs, fill_name rhs]
  | .and lhs rhs => by rw [fill, fill_name lhs, fill_name rhs]
  | .or lhs rhs => by rw [fill, fill_name lhs, fill_name rhs]
  | .ifElse cond yes no => by rw [fill, fill_name cond, fill_name yes, fill_name no]

theorem fillAll_name : (es : List Expr) → fillAll .name es = es
  | [] => by rw [fillAll]
  | e :: rest => by rw [fillAll, fill_name e, fillAll_name rest]

end

end Expr

section

variable {filling : Filling} {tail : List Token} {level : Nat} {es : List Expr}

theorem parse_ok {α β : Type} (a : α) (next : α → Except String β) :
    ((.ok a : Except String α) >>= next) = next a := rfl

def Closes (tail : List Token) : Prop :=
  ∀ token rest, tail = token :: rest → token = .mark .closeParen

theorem closes_nil : Closes [] := by
  rintro token rest ⟨⟩

namespace Filled

variable {tokens filled : List Token}

variable {token : Token}

theorem nil_left (same : Filled filling tail [] filled) : filled = tail := by
  cases same
  rfl

theorem cons_left (same : Filled filling tail (token :: tokens) filled)
    (apart : token ≠ .mark .openParen) :
    ∃ later, filled = token :: later ∧ (∀ n, token = .name n → filling.at? n = none) ∧
    Filled filling tail tokens later := by
  cases same with
  | keep kept later => exact ⟨_, rfl, kept, later⟩
  | slot => exact absurd rfl apart

theorem cons_head (same : Filled filling tail (token :: tokens) filled) :
    ∃ later, filled = token :: later := by
  cases same with
  | keep => exact ⟨_, rfl⟩
  | slot => exact ⟨_, rfl⟩

theorem cons_right (closes : Closes tail) (same : Filled filling tail tokens (token :: filled))
    (apart : token ≠ .mark .closeParen) : ∃ later, tokens = token :: later := by
  generalize whole : token :: filled = result at same
  cases same with
  | nil => exact absurd (closes _ _ whole.symm) apart
  | keep =>
    cases whole
    exact ⟨_, rfl⟩
  | slot =>
    cases whole
    exact ⟨_, rfl⟩

theorem expect {m : Mark} (apart : m ≠ .openParen) (same : Filled filling tail tokens filled)
    {rest : List Token}
    (expected : Kernel.expect m tokens = .ok rest) : ∃ rest', filled = .mark m :: rest' ∧
    Filled filling tail rest rest' := by
  unfold Kernel.expect at expected
  split at expected
  next found rest' =>
    split at expected
    next here =>
      subst here
      cases expected
      obtain ⟨later, rfl, -, same⟩ := same.cons_left (by simpa using apart)
      exact ⟨later, rfl, same⟩
    · cases expected
  · cases expected

theorem append (same : Filled filling [] tokens filled) (tail : List Token) :
    Filled filling tail tokens (filled ++ tail) := by
  induction same with
  | nil => exact .nil
  | keep kept _ ih => exact .keep kept ih
  | slot known _ ih => simpa using Filled.slot known ih

end Filled

theorem expect_self (m : Mark) (rest : List Token) : expect m (.mark m :: rest) = .ok rest := by
  simp [expect]

theorem fill_operator {token : Token} {join : Expr → Expr → Expr}
    (found : Level.operator? level token = some join)
    (leaf : String → Expr) (lhs rhs : Expr) : (join lhs rhs).fill leaf = join (lhs.fill leaf)
      (rhs.fill leaf) := by
  unfold Level.operator? at found
  split at found <;> first | (cases found; rw [Expr.fill]) | cases found

-- What a parser makes of filled tokens, given 13 calls for each token it takes, less a few.
def Carried {α : Type} (filling : Filling) (tail : List Token) (few : Nat)
    (parser : Nat → List Token → Except String (α × List Token))
    (filled : List Token) (result : α) (rest : List Token) : Prop :=
  ∃ rest', Filled filling tail rest rest' ∧ rest'.length < filled.length ∧
    ∀ more, 13 * filled.length ≤ 13 * rest'.length + more + few →
    parser more filled = .ok (result, rest')

-- The parsers read filled tokens as they read the slots, whatever calls these took.
structure ParsersFill (filling : Filling) (tail : List Token) (fuel : Nat) : Prop where
  expression {tokens rest filled : List Token} {e : Expr} : expression fuel tokens = .ok (e, rest) →
    Filled filling tail tokens filled →
    Carried filling tail 0 expression filled (e.fill filling.leaf) rest
  binary {level : Nat} {tokens rest filled : List Token} {e : Expr} :
    level ≤ Level.signs → binary fuel level tokens = .ok (e, rest) →
    Filled filling tail tokens filled →
    Carried filling tail (level + 1) (fun more => binary more level) filled (e.fill filling.leaf)
      rest
  chain {level : Nat} {lhs e : Expr} {tokens rest filled : List Token} :
    level < Level.signs → chain fuel level lhs tokens = .ok (e, rest) →
    Filled filling tail tokens filled → ∃ rest', Filled filling tail rest rest' ∧
    rest'.length ≤ filled.length ∧
      ∀ more, 13 * filled.length < 13 * rest'.length + more →
      chain more level (lhs.fill filling.leaf) filled = .ok (e.fill filling.leaf, rest')
  signed {tokens rest filled : List Token} {e : Expr} : signed fuel tokens = .ok (e, rest) →
    Filled filling tail tokens filled →
    Carried filling tail 11 signed filled (e.fill filling.leaf) rest
  operand {tokens rest filled : List Token} {e : Expr} : operand fuel tokens = .ok (e, rest) →
    Filled filling tail tokens filled →
    Carried filling tail 12 operand filled (e.fill filling.leaf) rest
  arguments {close : Mark} {tokens rest filled : List Token} {es : List Expr} :
    close ≠ .openParen → arguments fuel close tokens = .ok (es, rest) →
    Filled filling tail tokens filled →
    Carried filling tail 0 (fun more => arguments more close) filled (Expr.fillAll filling.leaf es)
      rest

theorem arguments_slot {n : String} (slot : n ∈ slotNames) {rest : List Token}
    (parsed : arguments fuel .closeParen (.name n :: .mark .closeParen :: tokens) =
      .ok (es, rest)) : es = [.name n] ∧ rest = tokens := by
  cases fuel with
  | zero => cases parsed
  | succ fuel =>
    rw [arguments] at parsed
    obtain ⟨⟨first, after⟩, head, parsed⟩ := parse_bind.mp parsed
    obtain ⟨rfl, rfl⟩ := expression_slot slot head
    cases parsed
    exact ⟨rfl, rfl⟩

theorem Reads.arguments {inside : List Token} {x : Expr} (reads : Reads inside x) {fuel : Nat}
    (enough : 13 * inside.length < fuel) (rest : List Token) :
    Kernel.arguments fuel .closeParen (inside ++ .mark .closeParen :: rest) = .ok ([x], rest) := by
  obtain ⟨fuel, rfl⟩ := Nat.exists_eq_add_one_of_ne_zero (Nat.ne_zero_of_lt enough)
  rw [Kernel.arguments, reads fuel (by omega) rest]
  rfl

namespace ParsersFill

variable {fuel : Nat} (closes : Closes tail) (ih : ParsersFill filling tail fuel)
  {tokens rest filled : List Token} {e : Expr}

include ih closes

theorem expression_succ (parsed : Kernel.expression (fuel + 1) tokens = .ok (e, rest))
    (same : Filled filling tail tokens filled) :
    Carried filling tail 0 Kernel.expression filled (e.fill filling.leaf) rest := by
  rw [Kernel.expression] at parsed
  obtain ⟨⟨yes, after⟩, first, parsed⟩ := parse_bind.mp parsed
  obtain ⟨after', same, less, first'⟩ := ih.binary (by decide) first same
  dsimp only at parsed first'
  split at parsed
  next after =>
    obtain ⟨⟨cond, after⟩, second, parsed⟩ := parse_bind.mp parsed
    obtain ⟨later, rfl, -, same⟩ := same.cons_left (by simp)
    obtain ⟨after', same, less', second'⟩ := ih.binary (by decide) second same
    dsimp only at parsed second'
    split at parsed
    next after =>
      obtain ⟨⟨no, after⟩, third, parsed⟩ := parse_bind.mp parsed
      cases parsed
      obtain ⟨later', rfl, -, same⟩ := same.cons_left (by simp)
      obtain ⟨after', same, less'', third'⟩ := ih.expression third same
      simp only [length_cons] at less less' first' second'
      refine ⟨after', same, by omega, ?_⟩
      rintro (_ | more) enough
      · omega
      rw [Kernel.expression, first' more (by omega), Expr.fill]
      simp only [parse_ok, second' more (by omega), third' more (by omega)]
      rfl
    · cases parsed
  next unconditional =>
    cases parsed
    refine ⟨after', same, less, ?_⟩
    rintro (_ | more) enough
    · omega
    rw [Kernel.expression, first' more (by omega), parse_ok]
    dsimp only
    split
    next later =>
      obtain ⟨before, rfl⟩ := same.cons_right closes (by simp)
      exact absurd rfl (unconditional before)
    · rfl

theorem binary_succ (bound : level ≤ Level.signs)
    (parsed : Kernel.binary (fuel + 1) level tokens = .ok (e, rest))
    (same : Filled filling tail tokens filled) :
    Carried filling tail (level + 1) (fun more => Kernel.binary more level) filled
      (e.fill filling.leaf) rest := by
  unfold Kernel.binary at parsed
  dsimp only at parsed
  split at parsed
  next negation =>
    subst negation
    split at parsed
    next after =>
      obtain ⟨⟨operand, after⟩, first, parsed⟩ := parse_bind.mp parsed
      cases parsed
      obtain ⟨later, rfl, -, same⟩ := same.cons_left (by simp)
      obtain ⟨after', same, less, first'⟩ := ih.binary (by decide) first same
      dsimp only at first'
      simp only [Carried, length_cons]
      refine ⟨after', same, by omega, fun more enough => ?_⟩
      obtain ⟨more, rfl⟩ := Nat.exists_eq_add_one_of_ne_zero
        (by simp only [Level.negation] at enough; omega : more ≠ 0)
      simp only [Kernel.binary, if_true, first' more (by omega), Expr.fill]
      rfl
    next plain =>
      obtain ⟨after', same', less, first'⟩ := ih.binary (by decide) parsed same
      dsimp only at first'
      refine ⟨after', same', less, fun more enough => ?_⟩
      simp only [Level.negation, Level.comparison] at enough first'
      obtain ⟨more, rfl⟩ := Nat.exists_eq_add_one_of_ne_zero (by omega : more ≠ 0)
      simp only [Kernel.binary, if_true]
      split
      next later =>
        obtain ⟨before, rfl⟩ := same.cons_right closes (by simp)
        exact absurd rfl (plain before)
      · exact first' more (by omega)
  next apart =>
    split at parsed
    next low =>
      obtain ⟨⟨lhs, after⟩, first, parsed⟩ := parse_bind.mp parsed
      obtain ⟨after', same, less, first'⟩ := ih.binary low first same
      obtain ⟨rest', same, less', chained⟩ := ih.chain low parsed same
      have bound : level < 9 := low
      dsimp only at first'
      refine ⟨rest', same, by omega, ?_⟩
      rintro (_ | more) enough
      · omega
      simp only [Kernel.binary, if_neg apart, if_pos low]
      rw [first' more (by omega)]
      exact chained more (by omega)
    next high =>
      obtain ⟨rest', same, less, first'⟩ := ih.signed parsed same
      have bound : level ≤ 9 := bound
      refine ⟨rest', same, less, ?_⟩
      rintro (_ | more) enough
      · omega
      simp only [Kernel.binary, if_neg apart, if_neg high]
      exact first' more (by omega)

theorem chain_succ {lhs : Expr} (low : level < Level.signs)
    (parsed : Kernel.chain (fuel + 1) level lhs tokens = .ok (e, rest))
    (same : Filled filling tail tokens filled) : ∃ rest', Filled filling tail rest rest' ∧
    rest'.length ≤ filled.length ∧
      ∀ more, 13 * filled.length < 13 * rest'.length + more → Kernel.chain more level
        (lhs.fill filling.leaf) filled = .ok (e.fill filling.leaf, rest') := by
  cases tokens with
  | nil =>
    cases parsed
    obtain rfl := same.nil_left
    refine ⟨filled, .nil, Nat.le_refl _, ?_⟩
    rintro (_ | more) enough
    · omega
    cases filled with
    | nil => rfl
    | cons token others =>
      obtain rfl := closes _ _ rfl
      have none : Level.operator? level (.mark .closeParen) = none := by
        unfold Level.operator?
        split <;> simp_all
      rw [Kernel.chain, none]
  | cons token tokens =>
    rw [Kernel.chain] at parsed
    cases found : Level.operator? level token with
    | none =>
      rw [found] at parsed
      cases parsed
      obtain ⟨later, rfl⟩ := same.cons_head
      refine ⟨token :: later, same, Nat.le_refl _, ?_⟩
      rintro (_ | more) enough
      · omega
      rw [Kernel.chain, found]
    | some join =>
      rw [found] at parsed
      obtain ⟨⟨rhs, after⟩, first, parsed⟩ := parse_bind.mp parsed
      have apart : token ≠ .mark .openParen := by
        rintro rfl
        unfold Level.operator? at found
        split at found <;> simp_all
      obtain ⟨later, rfl, -, same⟩ := same.cons_left apart
      obtain ⟨after', same, less, first'⟩ := ih.binary low first same
      obtain ⟨rest', same, less', chained⟩ := ih.chain low parsed same
      simp only [fill_operator found] at chained
      simp only [length_cons]
      refine ⟨rest', same, by omega, ?_⟩
      rintro (_ | more) enough
      · omega
      rw [Kernel.chain, found]
      dsimp only at first' ⊢
      rw [first' more (by omega)]
      exact chained more (by omega)

theorem signed_succ (parsed : Kernel.signed (fuel + 1) tokens = .ok (e, rest))
    (same : Filled filling tail tokens filled) :
    Carried filling tail 11 Kernel.signed filled (e.fill filling.leaf) rest := by
  cases tokens with
  | nil => cases parsed
  | cons token tokens =>
    rw [Kernel.signed] at parsed
    cases found : sign? token with
    | some op =>
      rw [found] at parsed
      obtain ⟨⟨operand, after⟩, first, parsed⟩ := parse_bind.mp parsed
      cases parsed
      have apart : token ≠ .mark .openParen := by
        rintro rfl
        cases found
      obtain ⟨later, rfl, -, same⟩ := same.cons_left apart
      obtain ⟨after', same, less, first'⟩ := ih.signed first same
      simp only [Carried, length_cons]
      refine ⟨after', same, by omega, ?_⟩
      rintro (_ | more) enough
      · omega
      rw [Kernel.signed, found]
      dsimp only
      rw [first' more (by omega), Expr.fill]
      rfl
    | none =>
      rw [found] at parsed
      obtain ⟨⟨base, after⟩, first, parsed⟩ := parse_bind.mp parsed
      obtain ⟨later, rfl⟩ := same.cons_head
      obtain ⟨after', same, less, first'⟩ := ih.operand first same
      dsimp only at parsed
      split at parsed
      next after =>
        obtain ⟨⟨exponent, after⟩, second, parsed⟩ := parse_bind.mp parsed
        cases parsed
        obtain ⟨behind, rfl, -, same⟩ := same.cons_left (by simp)
        obtain ⟨after', same, less', second'⟩ := ih.signed second same
        simp only [Carried, length_cons] at less first' ⊢
        refine ⟨after', same, by omega, ?_⟩
        rintro (_ | more) enough
        · omega
        rw [Kernel.signed, found, Expr.fill]
        dsimp only
        rw [first' more (by omega), parse_ok]
        dsimp only
        rw [second' more (by omega)]
        rfl
      next powerless =>
        cases parsed
        refine ⟨after', same, less, ?_⟩
        rintro (_ | more) enough
        · omega
        rw [Kernel.signed, found]
        dsimp only
        rw [first' more (by omega), parse_ok]
        dsimp only
        split
        next later =>
          obtain ⟨before, rfl⟩ := same.cons_right closes (by simp)
          exact absurd rfl (powerless before)
        · rfl

theorem operand_succ (parsed : Kernel.operand (fuel + 1) tokens = .ok (e, rest))
    (same : Filled filling tail tokens filled) :
    Carried filling tail 12 Kernel.operand filled (e.fill filling.leaf) rest := by
  -- Every form takes a token, so that there is a call to make.
  have positive {more : Nat} {first : Token} {others rest' : List Token}
    (less : rest'.length < (first :: others).length)
      (enough : 13 * (first :: others).length ≤ 13 * rest'.length + more + 12) :
      ∃ fewer, more = fewer + 1 :=
    Nat.exists_eq_add_one_of_ne_zero (by omega)
  unfold Kernel.operand at parsed
  split at parsed
  case h_3 tokens given =>
    cases given
    obtain ⟨⟨inner, after⟩, first, parsed⟩ := parse_bind.mp parsed
    obtain ⟨after', closed, parsed⟩ := parse_bind.mp parsed
    cases parsed
    cases same with
    | keep _ later =>
      obtain ⟨between, same, less, first'⟩ := ih.expression first later
      obtain ⟨rest', rfl, last⟩ := same.expect (by decide) closed
      simp only [Carried, length_cons] at less first' ⊢
      refine ⟨rest', last, by omega, ?_⟩
      rintro (_ | more) enough
      · omega
      rw [Kernel.operand, first' more (by omega), parse_ok]
      dsimp only
      rw [expect_self]
      rfl
    | @slot n inside x _ filled known later =>
      obtain ⟨rfl, rfl⟩ := expression_slot (filling.slots _ _ _ known) first
      cases closed
      simp only [Carried, length_cons, length_append]
      refine ⟨filled, later, by omega, ?_⟩
      rintro (_ | more) enough
      · omega
      rw [Kernel.operand, filling.reads _ _ _ known more (by omega), Expr.fill, Filling.leaf, known]
      rfl
  case h_8 f tokens true_ false_ nan_ inf_ given =>
    cases given
    cases parsed
    obtain ⟨behind, rfl, -, opened⟩ := same.cons_left (by simp)
    cases opened with
    | keep _ closed =>
      obtain ⟨later, rfl, -, last⟩ := closed.cons_left (by simp)
      refine ⟨later, last, by simp only [length_cons]; omega, fun more enough => ?_⟩
      obtain ⟨more, rfl⟩ := positive (by simp only [length_cons]; omega) enough
      rw [Expr.fill, Expr.fillAll]
      rw [Kernel.operand] <;> grind
  case h_9 f tokens true_ false_ nan_ inf_ some_ given =>
    cases given
    obtain ⟨⟨args, after⟩, first, parsed⟩ := parse_bind.mp parsed
    cases parsed
    obtain ⟨behind, rfl, -, opened⟩ := same.cons_left (by simp)
    cases opened with
    | @keep _ _ inside _ later =>
      obtain ⟨rest', last, less, first'⟩ := ih.arguments (by decide) first later
      simp only [Carried, length_cons] at less first' ⊢
      refine ⟨rest', last, by omega, ?_⟩
      rintro (_ | more) enough
      · omega
      rw [Expr.fill]
      have open_ : ∀ others, inside = .mark .closeParen :: others → False := by
        rintro others rfl
        cases first' (13 * others.length + 14) (by simp only [length_cons]; omega)
      rw [Kernel.operand, first' more (by omega)]
      · rfl
      all_goals grind
    | @slot n inside x _ filled known later =>
      obtain ⟨rfl, rfl⟩ := arguments_slot (filling.slots _ _ _ known) first
      have reads := filling.reads _ _ _ known
      obtain ⟨token, others, rfl, apart⟩ := reads.exists_head
      refine ⟨filled, later, by simp only [length_cons, length_append]; omega, fun more enough =>
        ?_⟩
      simp only [length_cons, length_append] at enough
      obtain ⟨more, rfl⟩ := Nat.exists_eq_add_one_of_ne_zero (by omega : more ≠ 0)
      rw [Expr.fill, Expr.fillAll, Expr.fillAll, Expr.fill, Filling.leaf, known]
      have first' := @Reads.arguments _ _ reads more (by simp only [length_cons]; omega) filled
      rw [cons_append] at first' ⊢
      rw [Kernel.operand, first']
      · rfl
      all_goals grind
  case h_10 a tokens true_ false_ nan_ inf_ call given =>
    cases given
    cases parsed
    obtain ⟨behind, rfl, -, opened⟩ := same.cons_left (by simp)
    obtain ⟨behind, rfl, -, closed⟩ := opened.cons_left (by simp)
    obtain ⟨later, rfl, -, last⟩ := closed.cons_left (by simp)
    refine ⟨later, last, by simp only [length_cons]; omega, fun more enough => ?_⟩
    obtain ⟨more, rfl⟩ := positive (by simp only [length_cons]; omega) enough
    rw [Expr.fill, Expr.fillAll]
    rw [Kernel.operand] <;> grind
  case h_11 a tokens true_ false_ nan_ inf_ some_ given =>
    cases given
    obtain ⟨⟨indices, after⟩, first, parsed⟩ := parse_bind.mp parsed
    cases parsed
    obtain ⟨behind, rfl, -, opened⟩ := same.cons_left (by simp)
    obtain ⟨behind, rfl, -, later⟩ := opened.cons_left (by simp)
    obtain ⟨rest', last, less, first'⟩ := ih.arguments (by decide) first later
    simp only [Carried, length_cons] at less first' ⊢
    refine ⟨rest', last, by omega, ?_⟩
    rintro (_ | more) enough
    · omega
    rw [Expr.fill]
    have open_ : ∀ others, behind = .mark .closeBracket :: others → False := by
      rintro others rfl
      obtain ⟨before, rfl⟩ := later.cons_right closes (by simp)
      exact some_ before rfl
    rw [Kernel.operand, first' more (by omega)]
    · rfl
    all_goals grind
  case h_12 n tokens true_ false_ nan_ inf_ _ call _ subscript _ =>
    cases parsed
    obtain ⟨later, rfl, kept, last⟩ := same.cons_left (by simp)
    refine ⟨later, last, by simp, fun more enough => ?_⟩
    obtain ⟨more, rfl⟩ := positive (by simp) enough
    rw [Expr.fill, Filling.leaf, kept n rfl]
    have call' : ∀ others, later = .mark .openParen :: others → False := by
      rintro others rfl
      obtain ⟨before, rfl⟩ := last.cons_right closes (by simp)
      exact call before rfl
    have subscript' : ∀ others, later = .mark .openBracket :: others → False := by
      rintro others rfl
      obtain ⟨before, rfl⟩ := last.cons_right closes (by simp)
      exact subscript before rfl
    rw [Kernel.operand] <;> grind
  case h_13 => cases parsed
  all_goals
    cases parsed
    obtain ⟨later, rfl, -, same⟩ := same.cons_left (by simp)
    refine ⟨later, same, by simp, fun more enough => ?_⟩
    obtain ⟨more, rfl⟩ := positive (by simp) enough
    rw [Expr.fill]
    rfl

theorem arguments_succ {close : Mark} (apart : close ≠ .openParen)
    (parsed : Kernel.arguments (fuel + 1) close tokens = .ok (es, rest))
    (same : Filled filling tail tokens filled) :
    Carried filling tail 0 (fun more => Kernel.arguments more close) filled
      (Expr.fillAll filling.leaf es) rest := by
  rw [Kernel.arguments] at parsed
  obtain ⟨⟨first, after⟩, head, parsed⟩ := parse_bind.mp parsed
  obtain ⟨after', same, less, head'⟩ := ih.expression head same
  dsimp only at parsed
  split at parsed
  next after =>
    obtain ⟨⟨others, after⟩, last, parsed⟩ := parse_bind.mp parsed
    cases parsed
    obtain ⟨later, rfl, -, same⟩ := same.cons_left (by simp)
    obtain ⟨after', same, less', last'⟩ := ih.arguments apart last same
    simp only [length_cons] at less head'
    refine ⟨after', same, by omega, ?_⟩
    rintro (_ | more) enough
    · omega
    simp only [Kernel.arguments, head' more (by omega), parse_ok, last' more (by omega),
      Expr.fillAll]
    rfl
  next single =>
    obtain ⟨after₁, closed, parsed⟩ := parse_bind.mp parsed
    cases parsed
    obtain ⟨rest', rfl, last⟩ := same.expect apart closed
    have other : close ≠ .comma := by
      rintro rfl
      obtain ⟨before, rfl⟩ := same.cons_right closes (by simp)
      exact single before rfl
    simp only [length_cons] at less head'
    refine ⟨rest', last, by omega, ?_⟩
    rintro (_ | more) enough
    · omega
    simp only [Kernel.arguments, head' more (by omega), parse_ok]
    split
    next comma =>
      cases comma
      exact absurd rfl other
    · rw [expect_self, Expr.fillAll, Expr.fillAll]
      rfl

end ParsersFill

-- A slot is met only behind an opening parenthesis, which `operand` takes; everywhere else both
-- sides have the same first token.
theorem parsersFill (filling : Filling) (closes : Closes tail) (fuel : Nat) :
    ParsersFill filling tail fuel := by
  induction fuel with
  | zero => exact ⟨nofun, nofun, nofun, nofun, nofun, nofun⟩
  | succ fuel ih =>
    exact ⟨ih.expression_succ closes, ih.binary_succ closes, ih.chain_succ closes,
      ih.signed_succ closes, ih.operand_succ closes, ih.arguments_succ closes⟩

theorem expression_filled {filled : List Token} (closes : Closes tail)
    (parsed : expression fuel tokens = .ok (e, []))
    (same : Filled filling tail tokens filled) {more : Nat}
    (enough : 13 * filled.length ≤ 13 * tail.length + more) :
    expression more filled = .ok (e.fill filling.leaf, tail) := by
  obtain ⟨rest, last, -, parses⟩ := (parsersFill filling closes fuel).expression parsed same
  obtain rfl := last.nil_left
  exact parses more (by omega)

theorem reads_filled {filled : List Token} (parsed : expression fuel tokens = .ok (e, []))
    (same : Filled filling [] tokens filled) : Reads filled (e.fill filling.leaf) := by
  intro more enough rest
  refine expression_filled ?_ parsed (same.append _) (by rw [length_append]; omega)
  rintro token others ⟨⟩
  rfl

theorem Assignment.ofTokens_filled {filled : List Token}
    (parsed : expression fuel tokens = .ok (e, [])) (same : Filled filling [] tokens filled) :
    ofTokens (.name target :: .mark .becomes :: filled) = .ok ⟨target, e.fill filling.leaf⟩ := by
  have parsed' : expression (parseFuel filled.length) filled = .ok (e.fill filling.leaf, []) :=
    expression_filled closes_nil parsed same (by simp only [parseFuel]; omega)
  change (do
    let parsed ← expression (parseFuel filled.length) filled
    if parsed.2.isEmpty then return (⟨target, parsed.1⟩ : Assignment) else
      .error "trailing tokens") = _
  rw [parsed']
  rfl

end

def Filling.nothing : Filling :=
  ⟨fun _ => none, nofun, nofun⟩

theorem Filled.unfilled (tokens : List Token) : Filled .nothing [] tokens tokens := by
  induction tokens with
  | nil => exact .nil
  | cons token rest ih => exact .keep (fun _ _ => rfl) ih

theorem Expr.fill_nothing (e : Expr) : e.fill Filling.nothing.leaf = e :=
  e.fill_name

theorem reads_of_expression (fuel : Nat) (parsed : expression fuel tokens = .ok (e, [])) :
    Reads tokens e :=
  e.fill_nothing ▸ reads_filled parsed (.unfilled tokens)

theorem Assignment.ofTokens_of_expression (parsed : expression fuel tokens = .ok (e, [])) :
    ofTokens (.name target :: .mark .becomes :: tokens) = .ok ⟨target, e⟩ :=
  e.fill_nothing ▸ ofTokens_filled parsed (.unfilled tokens)

end TraceFlow.Kernel
