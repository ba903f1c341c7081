import TraceFlow.Proofs.OperandText
import TraceFlow.Proofs.WordOperands

set_option autoImplicit false

namespace TraceFlow.Kernel

open Token List

variable {digits : List Char} {c : Char} {used : List String} {text : List Char} {d : Datum}

structure Numeric (used : List String) (x : Expr) : Prop where
  names : x.names ⊆ used
  plain : x.subscripts = []
  signed : ∀ scope : Scope, (∀ d, scope.value? "NaN" = some d → d.Signed) → ∀ d,
    x.eval scope = .ok d → d.Signed

def Denotes (text : List Char) (x : Expr) : Prop :=
  ∃ tokens fuel, scanAll text = .ok tokens ∧ expression fuel tokens = .ok (x, [])

-- Text that stands for a number, if it has tokens at all.
def Legible (used : List String) (text : List Char) : Prop :=
  ∀ tokens, scanAll text = .ok tokens → ∃ x fuel, expression fuel tokens = .ok (x, []) ∧
    Numeric used x

structure Unsigned (text : List Char) : Prop where
  starts : ∃ c rest, text = c :: rest ∧ c.isDigit = true
  whole : numberSpan text = (text, [])

def spansOn (c : Char) : Bool :=
  c.isDigit || c = '.'

theorem numberSpan_append_of_spansOn (each : ∀ c ∈ digits, spansOn c = true) (behind : List Char) :
    numberSpan (digits ++ behind) = (digits ++ (numberSpan behind).1, (numberSpan behind).2) := by
  induction digits with
  | nil => rfl
  | cons c rest ih =>
    have here : (c.isDigit || c = '.') = true := each c mem_cons_self
    have later := ih fun c member => each c (mem_cons_of_mem _ member)
    rw [cons_append]
    cases more : rest ++ behind with
    | nil =>
      obtain ⟨rfl, rfl⟩ := append_eq_nil_iff.mp more
      simp only [Bool.or_eq_true, decide_eq_true_eq] at here
      simp only [numberSpan, here, Bool.or_eq_true, decide_eq_true_eq, true_or, if_true, append_nil]
    | cons next others =>
      rw [numberSpan, ← more, later]
      simp [here]

theorem numberSpan_of_spansOn (each : ∀ c ∈ digits, spansOn c = true) :
    numberSpan digits = (digits, []) := by
  have whole := numberSpan_append_of_spansOn each []
  simpa [numberSpan] using whole

theorem spansOn_of_isDigit (digit : c.isDigit = true) : spansOn c = true := by
  simp [spansOn, digit]

theorem isDigit_toDigits {n : Nat} (member : c ∈ Nat.toDigits 10 n) : c.isDigit = true :=
  Nat.isDigit_of_mem_toDigits (by decide) (by decide) member

theorem step_digit (digit : c.isDigit = true) (rest : List Char) :
    step c rest = (do return (some (← ofNumber (numberSpan (c :: rest)).1),
      (numberSpan (c :: rest)).2)) := by
  have blank : isBlank c = false := by
    cases same : isBlank c with
    | false => rfl
    | true =>
      simp only [isBlank, Bool.or_eq_true, decide_eq_true_eq] at same
      rcases same with (((rfl | rfl) | rfl) | rfl) | code
      · cases digit
      · cases digit
      · cases digit
      · cases digit
      · simp only [Char.isDigit, Bool.and_eq_true, decide_eq_true_eq, UInt32.le_iff_toNat_le,
          Char.toNat_val, code] at digit
        exact absurd digit.1 (by decide)
  have starts : startsNumber (c :: rest) = true := by
    cases rest <;> simp [startsNumber, digit]
  rw [step, blank, starts]
  rfl

namespace Unsigned

variable {text : List Char}

theorem of_spansOn {rest : List Char} (digit : c.isDigit = true)
    (each : ∀ c ∈ rest, spansOn c = true) : Unsigned (c :: rest) := by
  refine ⟨⟨c, rest, rfl, digit⟩, numberSpan_of_spansOn ?_⟩
  simpa [spansOn_of_isDigit digit] using each

theorem scanAll (unsigned : Unsigned text) : scanAll text = (do return [← ofNumber text]) := by
  obtain ⟨c, rest, rfl, digit⟩ := unsigned.starts
  rw [scanAll_cons, step_digit digit, unsigned.whole]
  cases ofNumber (c :: rest) <;> rfl

theorem scanAll_minus (unsigned : Unsigned text) :
    Token.scanAll ('-' :: text) = (do return [.mark .minus, ← ofNumber text]) := by
  have read : step '-' text = .ok (some (.mark .minus), text) := by
    obtain ⟨c, rest, rfl, -⟩ := unsigned.starts
    rfl
  rw [scanAll_cons, read, parse_ok]
  dsimp only
  rw [unsigned.scanAll]
  cases ofNumber text <;> rfl

end Unsigned

theorem ofNumber_cases {token : Token} (read : ofNumber text = .ok token) :
    (∃ v, token = .int v) ∨ ∃ v, token = .float v := by
  unfold ofNumber at read
  split at read
  · dsimp only at read
    split at read
    · cases read
      exact .inl ⟨_, rfl⟩
    · cases read
  · split at read
    · cases read
      exact .inr ⟨_, rfl⟩
    · cases read

theorem numeric_const (value : Datum) (signed : value.Signed) : Numeric used (.const value) where
  names := by simp [Expr.names]
  plain := by rw [Expr.subscripts]
  signed scope _ d same := by
    rw [Expr.eval] at same
    cases same
    exact signed

theorem Numeric.neg {x : Expr} (numeric : Numeric used x) : Numeric used (.unary .neg x) where
  names := by simpa [Expr.names] using numeric.names
  plain := by rw [Expr.subscripts, numeric.plain]
  signed scope known d same := by
    rw [Expr.eval] at same
    obtain ⟨value, read, same⟩ := bind_eq_ok.mp same
    have signed := numeric.signed scope known value read
    cases value with
    | bool v => exact signed.elim
    | uint v => exact signed.elim
    | int v | float v =>
      cases same
      exact trivial

theorem numeric_nan : Numeric ["NaN"] (.name "NaN") where
  names := by simp [Expr.names]
  plain := by rw [Expr.subscripts]
  signed scope known d same := by
    rw [Expr.eval] at same
    split at same
    next found =>
      cases same
      exact known _ found
    · cases same

theorem Unsigned.legible (unsigned : Unsigned text) : Legible used text := by
  intro tokens scanned
  rw [unsigned.scanAll] at scanned
  obtain ⟨token, read, scanned⟩ := parse_bind.mp scanned
  cases scanned
  rcases ofNumber_cases read with ⟨v, rfl⟩ | ⟨v, rfl⟩
  · exact ⟨.const (.int v), 14, rfl, numeric_const (.int v) trivial⟩
  · exact ⟨.const (.float v), 14, rfl, numeric_const (.float v) trivial⟩

theorem Unsigned.legible_minus (unsigned : Unsigned text) : Legible used ('-' :: text) := by
  intro tokens scanned
  rw [unsigned.scanAll_minus] at scanned
  obtain ⟨token, read, scanned⟩ := parse_bind.mp scanned
  cases scanned
  rcases ofNumber_cases read with ⟨v, rfl⟩ | ⟨v, rfl⟩
  · exact ⟨.unary .neg (.const (.int v)), 14, rfl, (numeric_const (.int v) trivial).neg⟩
  · exact ⟨.unary .neg (.const (.float v)), 14, rfl, (numeric_const (.float v) trivial).neg⟩

theorem unsigned_toDigits (n : Nat) : Unsigned (Nat.toDigits 10 n) := by
  cases digits : Nat.toDigits 10 n with
  | nil => exact absurd digits Nat.toDigits_ne_nil
  | cons c rest =>
    have each (d : Char) (member : d ∈ c :: rest) : d.isDigit = true :=
      isDigit_toDigits (digits ▸ member)
    exact .of_spansOn (each c mem_cons_self) fun d member => spansOn_of_isDigit
      (each d (mem_cons_of_mem _ member))

theorem ofNumber_toDigits (n : Nat) :
    ofNumber (Nat.toDigits 10 n) = if n < 0x8000000000000000 then .ok (.int (Int64.ofNat n)) else
    .error "bad integer literal" := by
  have all : (Nat.toDigits 10 n).all Char.isDigit = true :=
    all_eq_true.mpr fun c member => isDigit_toDigits member
  have value : Decimal.ofDigits (Nat.toDigits 10 n) = n :=
    Nat.ofDigitChars_toDigits (by decide) (by decide)
  rw [ofNumber, if_pos all]
  simp only [value]

theorem legible_integer (i : Int) : Legible used (Text.integer i).toList := by
  cases i with
  | ofNat n =>
    rw [Text.integer, Nat.toList_repr]
    exact (unsigned_toDigits n).legible
  | negSucc n =>
    rw [Text.integer, String.toList_append, Nat.toList_repr]
    exact (unsigned_toDigits (n + 1)).legible_minus

theorem spansOn_zeros {n : Nat} (member : c ∈ (Decimal.zeros n).toList) : spansOn c = true := by
  rw [Decimal.zeros, String.toList_ofList] at member
  rw [eq_of_mem_replicate member]
  rfl

theorem Unsigned.exponent (starts : ∃ c rest, text = c :: rest ∧ c.isDigit = true)
    (each : ∀ c ∈ text, spansOn c = true)
    (i : Int) : Unsigned (text ++ 'e' :: (Text.integer i).toList) := by
  have digits (n : Nat) : numberSpan (Nat.toDigits 10 n) = (Nat.toDigits 10 n, []) :=
    (unsigned_toDigits n).whole
  constructor
  · obtain ⟨c, rest, rfl, digit⟩ := starts
    exact ⟨c, _, rfl, digit⟩
  · have behind : numberSpan ('e' :: (Text.integer i).toList) = ('e' :: (Text.integer i).toList,
      []) := by
      cases i with
      | ofNat n =>
        rw [Text.integer, Nat.toList_repr]
        have whole := digits n
        obtain ⟨c, rest, first, digit⟩ := (unsigned_toDigits n).starts
        rw [first] at whole ⊢
        have unsigned : (c = '+' || c = '-') = false := by
          cases same : (c = '+' || c = '-' : Bool) with
          | false => rfl
          | true =>
            simp only [Bool.or_eq_true, decide_eq_true_eq] at same
            rcases same with rfl | rfl <;> cases digit
        rw [numberSpan]
        simp only [unsigned, whole]
        rfl
      | negSucc n =>
        rw [Text.integer, String.toList_append, Nat.toList_repr]
        change numberSpan ('e' :: '-' :: Nat.toDigits 10 (n + 1)) = _
        rw [numberSpan]
        simp only [digits]
        rfl
    rw [numberSpan_append_of_spansOn each, behind]

theorem unsigned_numeral (layout : Decimal.Layout) (n : Decimal.Numeral) :
    Unsigned (n.text layout).toList := by
  have each (c : Char) (member : c ∈ Nat.toDigits 10 n.digits) : spansOn c = true :=
    spansOn_of_isDigit (isDigit_toDigits member)
  have some : Nat.toDigits 10 n.digits ≠ [] := Nat.toDigits_ne_nil
  unfold Decimal.Numeral.text
  dsimp only
  split
  · unfold Decimal.positional
    split
    · obtain ⟨c, rest, digits⟩ := exists_cons_of_ne_nil some
      have first : c.isDigit = true := isDigit_toDigits (digits ▸ mem_cons_self)
      rw [digits] at each ⊢
      simp only [String.toList_append, String.toList_ofList, cons_append]
      refine .of_spansOn first fun d member => ?_
      rcases mem_append.mp member with front | last
      · rcases mem_append.mp front with digit | zero
        · exact each d (mem_cons_of_mem _ digit)
        · exact spansOn_zeros zero
      · have both : d ∈ ['.', '0'] := last
        rcases mem_pair.mp both with rfl | rfl <;> rfl
    · dsimp only
      split
      next fewer =>
        have kept : (Nat.toDigits 10 n.digits).take
          ((Nat.toDigits 10 n.digits).length - (-n.exponent).toNat) ≠ [] := by
          rw [ne_eq, take_eq_nil_iff, not_or]
          exact ⟨by omega, some⟩
        obtain ⟨c, rest, front⟩ := exists_cons_of_ne_nil kept
        have member (d : Char) (inside : d ∈ c :: rest) : d ∈ Nat.toDigits 10 n.digits :=
          mem_of_mem_take (front ▸ inside)
        simp only [String.toList_append, String.toList_ofList, front, cons_append]
        refine .of_spansOn (isDigit_toDigits (member c mem_cons_self)) fun d inside => ?_
        rcases mem_append.mp inside with before | after
        · rcases mem_append.mp before with digit | point
          · exact each d (member d (mem_cons_of_mem _ digit))
          · obtain rfl : d = '.' := mem_singleton.mp point
            rfl
        · exact each d (mem_of_mem_drop after)
      · simp only [String.toList_append, String.toList_ofList, append_assoc]
        change Unsigned ('0' :: '.' :: ((Decimal.zeros _).toList ++ Nat.toDigits 10 n.digits))
        refine .of_spansOn rfl fun d inside => ?_
        rcases mem_cons.mp inside with rfl | later
        · rfl
        · rcases mem_append.mp later with zero | digit
          · exact spansOn_zeros zero
          · exact each d digit
  · unfold Decimal.scientific
    obtain ⟨c, rest, digits⟩ := exists_cons_of_ne_nil some
    have first : c.isDigit = true := isDigit_toDigits (digits ▸ mem_cons_self)
    rw [digits] at each ⊢
    simp only [String.toList_append, String.toList_ofList, append_assoc]
    have text (point : String) (pointed : ∀ d ∈ point.toList, spansOn d = true) (i : Int) :
        Unsigned ((c :: rest).take 1 ++
          (point.toList ++ ((c :: rest).drop 1 ++ ("e".toList ++ (Text.integer i).toList)))) := by
      have parts := @Unsigned.exponent (c :: (point.toList ++ rest)) ⟨c, _, rfl, first⟩
        (fun d member => by
        rcases mem_cons.mp member with rfl | later
        · exact spansOn_of_isDigit first
        · rcases mem_append.mp later with dot | digit
          · exact pointed d dot
          · exact each d (mem_cons_of_mem _ digit)) i
      simpa [append_assoc] using parts
    split
    · exact text "" (by simp) _
    · exact text "." (all_eq_true.mp (by decide)) _

theorem legible_finite (bits : Nat) : Legible used (Decimal.finiteText bits).toList := by
  have unsigned : Unsigned "0.0".toList := .of_spansOn (c := '0') rfl (all_eq_true.mp (by decide))
  unfold Decimal.finiteText
  dsimp only
  split <;> split <;> rw [String.toList_append]
  · exact unsigned.legible_minus
  · exact unsigned.legible
  · exact (unsigned_numeral _ _).legible_minus
  · exact (unsigned_numeral _ _).legible

theorem legible_decimal (v : Float) : Legible ["NaN"] (Decimal.text v).toList := by
  unfold Decimal.text
  split
  · exact fun tokens scanned => ⟨.name "NaN", 14, by cases scanned; rfl, numeric_nan⟩
  split
  · split
    · exact fun tokens scanned => ⟨.const (.float Binary64.infinity),
        14, by cases scanned; rfl, numeric_const (.float _) trivial⟩
    · exact fun tokens scanned => ⟨.unary .neg (.const (.float Binary64.infinity)),
        14, by cases scanned; rfl, (numeric_const (.float _) trivial).neg⟩
  · exact legible_finite _

-- The value of a datum that is read from kernel code: there are no unsigned numbers in it.
def asRead : Datum → Datum
  | .uint v => .int v.toInt64
  | d => d

theorem small_asRead (d : Datum) : (asRead d).Small := by
  cases d <;> exact trivial

-- A datum of a whole type that has a token.
def Written : Datum → Prop
  | .bool _ => True
  | .int v => v.toInt ≠ -0x8000000000000000
  | .uint v => v.toNat < 0x8000000000000000
  | .float _ => False

theorem sameNumber_asRead (written : Written d) : Datum.SameNumber d (asRead d) := by
  cases d with
  | uint v => exact .word written
  | bool v | int v | float v => exact .same _

theorem denotes_datum (written : Written d) : ∃ x, Denotes d.code.toList x ∧ ∀ scope,
    x.eval scope = .ok (asRead d) := by
  have natural {n : Nat} (small : n < 0x8000000000000000) :
      scanAll n.repr.toList = .ok [.int (Int64.ofNat n)] ∧
      scanAll ('-' :: n.repr.toList) = .ok [.mark .minus, .int (Int64.ofNat n)] := by
    rw [Nat.toList_repr, (unsigned_toDigits n).scanAll, (unsigned_toDigits n).scanAll_minus,
      ofNumber_toDigits, if_pos small]
    exact ⟨rfl, rfl⟩
  cases d with
  | bool v =>
    cases v <;> exact ⟨.const (.bool _), ⟨_, 14, rfl, rfl⟩, fun scope => by rw [Expr.eval]; rfl⟩
  | int v =>
    have low : -0x8000000000000000 ≤ v.toInt := v.le_toInt
    have high : v.toInt < 0x8000000000000000 := v.toInt_lt
    rcases value : v.toInt with n | n
    · have small : n < 0x8000000000000000 := by
        rw [value] at high
        exact Int.ofNat_lt.mp high
      refine ⟨.const (.int (Int64.ofNat n)), ⟨[.int (Int64.ofNat n)], 14, ?_, rfl⟩, fun scope => ?_⟩
      · rw [Datum.code, value]
        exact (natural small).1
      · have same : Int64.ofNat n = v := by
          rw [← Int64.ofInt_toInt v, value]
          rfl
        rw [Expr.eval, same]
        rfl
    · have small : n + 1 < 0x8000000000000000 := by
        have apart : v.toInt ≠ -0x8000000000000000 := written
        omega
      refine ⟨.unary .neg (.const (.int (Int64.ofNat (n + 1)))),
        ⟨[.mark .minus, .int (Int64.ofNat (n + 1))], 14, ?_, rfl⟩, fun scope => ?_⟩
      · rw [Datum.code, value, Text.integer, String.toList_append]
        exact (natural small).2
      · have same : -Int64.ofNat (n + 1) = v := by
          rw [← Int64.ofInt_toInt v, value, Int.negSucc_eq, Int64.ofInt_neg]
          rfl
        rw [Expr.eval, Expr.eval, ok_bind]
        change Except.ok (Datum.int (-Int64.ofNat (n + 1))) = _
        rw [same]
        rfl
  | uint v =>
    have small : v.toNat < 0x8000000000000000 := written
    refine ⟨.const (.int (Int64.ofNat v.toNat)), ⟨_, 14, (natural small).1, rfl⟩, fun scope => ?_⟩
    have same : Int64.ofNat v.toNat = v.toInt64 := by
      rw [← UInt64.toInt64_ofNat', UInt64.ofNat_toNat]
    rw [Expr.eval, same, asRead]
  | float v => exact written.elim

theorem written_of_scanAll (whole : Whole d) {tokens : List Token}
    (scanned : scanAll d.code.toList = .ok tokens) : Written d := by
  cases d with
  | bool v => exact trivial
  | float v => exact whole.elim
  | uint v =>
    have unsigned := unsigned_toDigits v.toNat
    rw [Datum.code, Nat.toList_repr, unsigned.scanAll, ofNumber_toDigits] at scanned
    split at scanned
    next small => exact small
    · cases scanned
  | int v =>
    intro least
    rw [Datum.code, least] at scanned
    cases scanned

end TraceFlow.Kernel
