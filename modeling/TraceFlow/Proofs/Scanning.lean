import TraceFlow.Proofs.KernelNames

set_option autoImplicit false

namespace TraceFlow.Kernel

namespace Token

variable {c : Char} {rest : List Char} {name : String}

-- The first token of a text, if its first character begins one, and what follows.
def step (c : Char) (rest : List Char) : Except String (Option Token × List Char) :=
  if isBlank c then .ok (none, rest)
  else if startsNumber (c :: rest) then do
    return (some (← ofNumber (numberSpan (c :: rest)).1), (numberSpan (c :: rest)).2)
  else if startsName c then
    .ok (some (.name (String.ofList (c :: rest.takeWhile continuesName))),
      rest.dropWhile continuesName)
  else
    match mark? (c :: rest) with
    | some (m, after) => .ok (some (.mark m), after)
    | none => .error s!"unexpected character '{leadByte c}'"

theorem scanFrom_succ (steps : Nat) (c : Char) (rest : List Char) :
    scanFrom (steps + 1) (c :: rest) = (do
      let (token?, after) ← step c rest
      return token?.toList ++ (← scanFrom steps after)) := by
  rw [scanFrom, step]
  split
  · change scanFrom steps rest = (do return [] ++ (← scanFrom steps rest))
    cases scanFrom steps rest <;> rfl
  split
  · rcases numberSpan (c :: rest) with ⟨span, after⟩
    dsimp only
    cases ofNumber span <;> rfl
  split
  · rfl
  · cases mark? (c :: rest) <;> rfl

theorem length_numberSpan (text : List Char) : (numberSpan text).2.length +
    (numberSpan text).1.length = text.length := by
  rw [Nat.add_comm, ← List.length_append, numberSpan_append]

theorem numberSpan_ne_nil (starts : startsNumber (c :: rest) = true) :
    (numberSpan (c :: rest)).1 ≠ [] := by
  cases rest with
  | nil =>
    rw [startsNumber] at starts
    simp [numberSpan, starts]
  | cons next rest =>
    have first : (c.isDigit || c = '.') = true := by
      simp only [startsNumber, Bool.or_eq_true, Bool.and_eq_true] at starts ⊢
      exact starts.imp_right And.left
    simp only [numberSpan, first, if_true, ne_eq, reduceCtorEq, not_false_eq_true]

theorem length_step {token? : Option Token} {after : List Char}
    (read : step c rest = .ok (token?, after)) : after.length ≤ rest.length := by
  unfold step at read
  split at read
  · cases read
    exact Nat.le_refl _
  split at read
  next starts =>
    obtain ⟨token, -, read⟩ := parse_bind.mp read
    cases read
    have whole := length_numberSpan (c :: rest)
    have some := List.length_pos_iff.mpr (numberSpan_ne_nil starts)
    rw [List.length_cons] at whole
    omega
  split at read
  · cases read
    exact (List.dropWhile_suffix _).length_le
  · split at read
    next m after' found =>
      cases read
      obtain ⟨mark, -, here⟩ := List.exists_of_findSome?_eq_some found
      split at here
      · cases here
        have some : 0 < m.spelling.length := by cases m <;> decide
        rw [List.length_drop, List.length_cons]
        omega
      · cases here
    · cases read

def scanAll (text : List Char) : Except String (List Token) :=
  scanFrom text.length text

theorem scan_eq (text : String) : scan text = scanAll text.toList := rfl

theorem scanFrom_eq {steps : Nat} {text : List Char} (enough : text.length ≤ steps) :
    scanFrom steps text = scanAll text := by
  induction steps using Nat.strongRecOn generalizing text with
  | ind steps ih =>
    cases text with
    | nil => cases steps <;> rfl
    | cons c rest =>
      obtain ⟨steps, rfl⟩ := Nat.exists_eq_add_one_of_ne_zero (Nat.ne_zero_of_lt enough)
      rw [List.length_cons] at enough
      rw [scanAll, List.length_cons, scanFrom_succ, scanFrom_succ]
      cases read : step c rest with
      | error reason => rfl
      | ok found =>
        obtain ⟨token?, after⟩ := found
        have shorter := length_step read
        have first : scanFrom steps after = scanAll after := ih steps (by omega) (by omega)
        have second : scanFrom rest.length after = scanAll after :=
          ih rest.length (by omega) shorter
        change (do return token?.toList ++ (← scanFrom steps after)) = (do return token?.toList ++
          (← scanFrom rest.length after))
        rw [first, second]

theorem scanAll_cons (c : Char) (rest : List Char) : scanAll (c :: rest) = (do
      let (token?, after) ← step c rest
      return token?.toList ++ (← scanAll after)) := by
  rw [scanAll, List.length_cons, scanFrom_succ]
  cases read : step c rest with
  | error reason => rfl
  | ok found =>
    obtain ⟨token?, after⟩ := found
    change (do return token?.toList ++ (← scanFrom rest.length after)) = _
    rw [scanFrom_eq (length_step read)]
    rfl

-- A parenthesis or a blank. It ends every token before it.
def isWall (c : Char) : Bool :=
  c = '(' || c = ')' || c = ' '

section

variable {wall : Char} (isWall : isWall wall = true) (behind : List Char)

include isWall

theorem wall_cases : wall = '(' ∨ wall = ')' ∨ wall = ' ' := by
  simpa [Token.isWall, or_assoc] using isWall

theorem numberSpan_wall (text : List Char) :
    numberSpan (text ++ wall :: behind) = ((numberSpan text).1, (numberSpan text).2 ++ wall ::
      behind) := by
  have here : numberSpan (wall :: behind) = ([], wall :: behind) := by
    rcases wall_cases isWall with rfl | rfl | rfl <;> cases behind <;> rfl
  have unsigned : (wall = '+' || wall = '-') = false := by
    rcases wall_cases isWall with rfl | rfl | rfl <;> rfl
  fun_induction numberSpan text with
  | case1 => exact here
  | case2 c counts => grind [numberSpan]
  | case3 c counts => grind [numberSpan]
  | case4 c next rest counts span after spans ih => grind [numberSpan]
  | case5 c next rest counts exponent sign span after spans ih => grind [numberSpan]
  | case6 c next rest counts exponent sign span after spans ih => grind [numberSpan]
  | case7 c next rest counts exponent => grind [numberSpan]

theorem startsNumber_wall (c : Char) (rest : List Char) :
    startsNumber (c :: rest ++ wall :: behind) = startsNumber (c :: rest) := by
  have digit : wall.isDigit = false := by
    rcases wall_cases isWall with rfl | rfl | rfl <;> rfl
  cases rest <;> simp [startsNumber, digit]

theorem mark?_wall (c : Char) (rest : List Char) :
    mark? (c :: rest ++ wall :: behind) = (mark? (c :: rest)).map fun found =>
    (found.1, found.2 ++ wall :: behind) := by
  have other : wall ≠ '*' ∧ wall ≠ '=' := by
    rcases wall_cases isWall with rfl | rfl | rfl <;> decide
  have first (m : Mark) : (m.spelling.isPrefixOf (c :: rest ++ wall :: behind)) =
    m.spelling.isPrefixOf (c :: rest) := by
    cases rest <;> cases m <;> simp [Mark.spelling, List.isPrefixOf, other.1.symm, other.2.symm]
  unfold mark?
  generalize Mark.all = marks
  induction marks with
  | nil => rfl
  | cons m others ih =>
    rw [List.findSome?_cons, List.findSome?_cons, first m]
    by_cases found : m.spelling.isPrefixOf (c :: rest) = true
    · simp only [found, if_true, Option.map_some]
      rw [List.drop_append_of_le_length (List.isPrefixOf_iff_prefix.mp found).length_le]
    · simp only [found, Bool.false_eq_true, if_false]
      exact ih

theorem step_wall (c : Char) (rest : List Char) : step c (rest ++ wall :: behind) = (do
      let (token?, after) ← step c rest
      return (token?, after ++ wall :: behind)) := by
  have name : continuesName wall = false := by
    rcases wall_cases isWall with rfl | rfl | rfl <;> rfl
  have starts := startsNumber_wall isWall behind c rest
  have span := numberSpan_wall isWall behind (c :: rest)
  have marks := mark?_wall isWall behind c rest
  rw [List.cons_append] at starts span marks
  rw [step, step, starts, span, marks]
  split
  · rfl
  split
  · cases ofNumber (numberSpan (c :: rest)).1 <;> rfl
  split
  · rw [List.takeWhile_append, List.dropWhile_append, List.takeWhile_cons_of_neg (by simp [name]),
      List.dropWhile_cons_of_neg (by simp [name])]
    have whole : (rest.takeWhile continuesName).length = rest.length →
      rest.takeWhile continuesName = rest :=
      (List.takeWhile_prefix continuesName).eq_of_length
    by_cases all : (rest.dropWhile continuesName).isEmpty = true
    · rw [List.isEmpty_iff] at all
      have same : rest.takeWhile continuesName = rest := by
        have both := List.takeWhile_append_dropWhile (p := continuesName) (l := rest)
        rwa [all, List.append_nil] at both
      simp [all, same]
    · have fewer : (rest.takeWhile continuesName).length ≠ rest.length := by
        intro length
        have both := List.takeWhile_append_dropWhile (p := continuesName) (l := rest)
        rw [whole length] at both
        exact all (by simpa using both)
      simp only [fewer, all, if_false]
      rfl
  · cases mark? (c :: rest) <;> rfl

theorem scanAll_append (text : List Char) : scanAll (text ++ wall :: behind) =
    (do return (← scanAll text) ++ (← scanAll (wall :: behind))) := by
  induction length : text.length using Nat.strongRecOn generalizing text with
  | ind size ih =>
    subst length
    cases text with
    | nil =>
      change scanAll (wall :: behind) = (scanAll (wall :: behind) >>=
        fun tokens => .ok ([] ++ tokens))
      cases scanAll (wall :: behind) <;> rfl
    | cons c rest =>
      rw [List.cons_append, scanAll_cons, scanAll_cons, step_wall isWall]
      cases read : step c rest with
      | error reason => rfl
      | ok found =>
        obtain ⟨token?, after⟩ := found
        have shorter := length_step read
        change (do return token?.toList ++ (← scanAll (after ++ wall :: behind))) =
          (do
            let first ← (do return token?.toList ++ (← scanAll after))
            return first ++ (← scanAll (wall :: behind)))
        rw [ih after.length (by rw [List.length_cons]; omega) after rfl]
        cases scanAll after with
        | error reason => rfl
        | ok tokens =>
          cases scanAll (wall :: behind) with
          | error reason => rfl
          | ok others =>
            change Except.ok (token?.toList ++ (tokens ++ others)) = Except.ok (token?.toList ++
              tokens ++ others)
            rw [List.append_assoc]

end

theorem scanAll_open (text : List Char) :
    scanAll ('(' :: text) = (do return .mark .openParen :: (← scanAll text)) := by
  rw [scanAll_cons]
  have read : step '(' text = .ok (some (.mark .openParen), text) := by
    cases text <;> rfl
  rw [read]
  rfl

theorem scanAll_close (rest : List Char) :
    scanAll (')' :: rest) = (do return .mark .closeParen :: (← scanAll rest)) := by
  rw [scanAll_cons]
  have read : step ')' rest = .ok (some (.mark .closeParen), rest) := by
    cases rest <;> rfl
  rw [read]
  rfl

theorem scanAll_blank (rest : List Char) : scanAll (' ' :: rest) = scanAll rest := by
  rw [scanAll_cons]
  change (do return [] ++ (← scanAll rest)) = scanAll rest
  cases scanAll rest <;> rfl

-- A letter or an underscore, and then letters, digits and underscores.
def isIdentifier (name : String) : Bool :=
  match name.toList with
  | [] => false
  | c :: rest => startsName c && rest.all continuesName

theorem step_name (starts : startsName c = true) (rest : List Char) :
    step c rest = .ok (some (.name (String.ofList (c :: rest.takeWhile continuesName))),
      rest.dropWhile continuesName) := by
  have letter : (65 ≤ c.toNat ∧ c.toNat ≤ 90) ∨ (97 ≤ c.toNat ∧ c.toNat ≤ 122) ∨ c = '_' := by
    delta startsName Char.isAlpha Char.isUpper Char.isLower at starts
    simpa [UInt32.le_iff_toNat_le, or_assoc] using starts
  have high : 65 ≤ c.toNat := by
    rcases letter with bounds | bounds | rfl
    · exact bounds.1
    · exact Nat.le_trans (by decide) bounds.1
    · decide
  have other (d : Char) (low : d.toNat < 65) : c ≠ d := by
    rintro rfl
    omega
  have digit : c.isDigit = false := by
    simp only [Char.isDigit, UInt32.le_iff_toNat_le, Bool.and_eq_false_iff, decide_eq_false_iff_not]
    exact .inr (Nat.not_le_of_lt (Nat.lt_of_lt_of_le (by decide) high))
  have blank : isBlank c = false := by
    have feed : c.toNat ≠ 0x0c := by omega
    simp [isBlank, other ' ' (by decide), other '\t' (by decide), other '\n' (by decide),
      other '\r' (by decide), feed]
  have number : startsNumber (c :: rest) = false := by
    cases rest <;> simp [startsNumber, digit, other '.' (by decide)]
  rw [step, blank, number, starts]
  rfl

theorem scanAll_identifier_append (word : isIdentifier name = true) {behind : List Char}
    (stops : ∀ c, behind.head? = some c → continuesName c = false) :
    scanAll (name.toList ++ behind) = (do return .name name :: (← scanAll behind)) := by
  unfold isIdentifier at word
  split at word
  · cases word
  next c rest text =>
    obtain ⟨starts, within⟩ := Bool.and_eq_true_iff.mp word
    rw [List.all_eq_true] at within
    have taken : (rest ++ behind).takeWhile continuesName = rest ∧
      (rest ++ behind).dropWhile continuesName = behind := by
      rw [List.takeWhile_append_of_pos within, List.dropWhile_append_of_pos within]
      cases behind with
      | nil => simp
      | cons c more =>
        have stop := stops c rfl
        rw [List.takeWhile_cons_of_neg (by simp [stop]),
          List.dropWhile_cons_of_neg (by simp [stop]), List.append_nil]
        exact ⟨rfl, rfl⟩
    rw [text, List.cons_append, scanAll_cons, step_name starts, taken.1, taken.2, ← text,
      String.ofList_toList]
    rfl

theorem scanAll_identifier (word : isIdentifier name = true) : scanAll name.toList = .ok
    [.name name] := by
  have alone := @scanAll_identifier_append name word [] (by simp)
  rw [List.append_nil] at alone
  rw [alone]
  rfl

theorem scanAll_assigned (text : List Char) : scanAll ("__out = ".toList ++ text) =
    (do return .name "__out" :: .mark .becomes :: (← scanAll text)) := by
  have cut : "__out = ".toList ++ text = "__out".toList ++ ' ' :: '=' :: ' ' :: text := rfl
  have becomes : scanAll ('=' :: ' ' :: text) = (do return .mark .becomes ::
    (← scanAll (' ' :: text))) := by
    rw [scanAll_cons]
    rfl
  rw [cut, scanAll_identifier_append (by decide) (by rintro c ⟨⟩; rfl), scanAll_blank, becomes,
    scanAll_blank]
  cases scanAll text <;> rfl

end Token

end TraceFlow.Kernel
