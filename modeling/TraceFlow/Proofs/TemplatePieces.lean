import TraceFlow.Proofs.Outcome
import TraceFlow.Template

set_option autoImplicit false

namespace TraceFlow.Template

open List

variable {t : Template} {pieces : List Piece} {name before chars rest text : List Char}

def Piece.Formed : Piece → Prop
  | .text _ => True
  | .slot name => name ≠ [] ∧ ∀ c ∈ name, isSlotChar c = true

instance : DecidablePred Piece.Formed
  | .text _ => .isTrue trivial
  | .slot name => inferInstanceAs (Decidable (name ≠ [] ∧ ∀ c ∈ name, isSlotChar c = true))

theorem write_text (chars : List Char) (rest : List Piece) :
    write (.text chars :: rest) = escape chars ++ write rest := rfl

theorem write_slot (name : List Char) (rest : List Piece) :
    write (.slot name :: rest) = openBrace :: (name ++ closeBrace :: write rest) := by
  simp [write]

-- The pieces that pieces are read as, after the characters `before` of a text.
def joined : List Char → List Piece → List Piece
  | before, [] => Piece.textBefore before []
  | before, .text chars :: rest => joined (before ++ chars) rest
  | before, .slot name :: rest => Piece.textBefore before (.slot name :: joined [] rest)

theorem textPieces_plain {c : Char} (opens : c ≠ openBrace) (closes : c ≠ closeBrace) :
    textPieces before (c :: rest) = textPieces (before ++ [c]) rest := by
  cases rest with
  | nil => simp [textPieces, opens, closes, Piece.textBefore]
  | cons next rest => simp [textPieces, opens, closes]

theorem textPieces_escape : textPieces before (escape chars ++ rest) = textPieces
    (before ++ chars) rest := by
  induction chars generalizing before with
  | nil => simp [escape]
  | cons c chars ih =>
    have tail : textPieces (before ++ [c]) (escape chars ++ rest) = textPieces (before ++
      c :: chars) rest := by
      rw [ih, append_assoc, singleton_append]
    by_cases opens : c = openBrace
    · rw [← tail, opens, escape, flatMap_cons]
      simp [textPieces, escape]
    by_cases closes : c = closeBrace
    · rw [← tail, closes, escape, flatMap_cons]
      simp [textPieces, escape, openBrace, closeBrace]
    · rw [← tail, ← textPieces_plain opens closes, escape, flatMap_cons,
        if_neg (by simp [opens, closes])]
      rfl

theorem slotPieces_append (named : ∀ c ∈ name, isSlotChar c = true) (some : before ++ name ≠ []) :
    slotPieces before (name ++ closeBrace :: rest) =
    (do return .slot (before ++ name) :: (← textPieces [] rest)) := by
  induction name generalizing before with
  | nil =>
    rw [append_nil] at some
    rw [nil_append, slotPieces, if_pos rfl, if_neg (by simpa using some), append_nil]
  | cons c name ih =>
    have here := named c mem_cons_self
    have apart : c ≠ closeBrace := by
      rintro rfl
      revert here
      decide
    rw [cons_append, slotPieces, if_neg apart, if_pos here,
      ih (fun c member => named c (mem_cons_of_mem _ member)) (by simp),
      append_assoc, singleton_append]

theorem textPieces_slot (formed : (Piece.slot name).Formed) :
    textPieces before (openBrace :: (name ++ closeBrace :: rest)) =
    (do return Piece.textBefore before (.slot name :: (← textPieces [] rest))) := by
  obtain ⟨some, named⟩ := formed
  obtain ⟨c, more, rfl⟩ := exists_cons_of_ne_nil some
  have apart : c ≠ openBrace := by
    rintro rfl
    have here := named openBrace mem_cons_self
    revert here
    decide
  rw [cons_append, textPieces, if_neg fun both => apart both.2, if_neg fun both => absurd both.1
    (by decide), if_pos rfl,
    ← cons_append, slotPieces_append named (by simp), nil_append]
  cases textPieces [] rest <;> rfl

theorem textPieces_write (formed : ∀ piece ∈ pieces, piece.Formed) : textPieces before
    (write pieces) = .ok (joined before pieces) := by
  induction pieces generalizing before with
  | nil => rfl
  | cons piece rest ih =>
    obtain ⟨here, later⟩ := forall_mem_cons.mp formed
    cases piece with
    | text chars => rw [write_text, textPieces_escape, ih later, joined]
    | slot name =>
      rw [write_slot, textPieces_slot here, ih later, joined]
      rfl

theorem write_textBefore : write (Piece.textBefore before pieces) = escape before ++
    write pieces := by
  unfold Piece.textBefore
  split
  next empty => rw [List.isEmpty_iff.mp empty, escape, flatMap_nil, nil_append]
  · rw [write_text]

theorem formed_textBefore (formed : ∀ piece ∈ pieces, piece.Formed) :
    ∀ piece ∈ Piece.textBefore before pieces, piece.Formed := by
  unfold Piece.textBefore
  split
  · exact formed
  · exact forall_mem_cons.mpr ⟨trivial, formed⟩

theorem escape_append : escape (before ++ chars) = escape before ++ escape chars :=
  flatMap_append

-- By induction along the reading: what was read so far stands before the rest of the template.
theorem write_of_textPieces (cut : textPieces before text = .ok pieces) :
    (∀ piece ∈ pieces, piece.Formed) ∧ write pieces = escape before ++ text := by
  revert pieces
  refine textPieces.induct
    (fun before text => ∀ {pieces}, textPieces before text = .ok pieces →
      (∀ piece ∈ pieces, piece.Formed) ∧ write pieces = escape before ++ text)
    (fun name text => (∀ c ∈ name, isSlotChar c = true) → ∀ {pieces},
      slotPieces name text = .ok pieces →
      (∀ piece ∈ pieces, piece.Formed) ∧ write pieces = openBrace :: (name ++ text)) ?_ ?_ ?_ ?_ ?_
        ?_ ?_ ?_ ?_ ?_ ?_ ?_ ?_ ?_ before text
  case refine_1 =>
    intro before pieces cut
    cases cut
    exact ⟨formed_textBefore (by simp), write_textBefore⟩
  case refine_4 =>
    intro before c opens closes pieces cut
    rw [textPieces_plain opens closes] at cut
    cases cut
    refine ⟨formed_textBefore (by simp), ?_⟩
    rw [write_textBefore, escape_append]
    simp [escape, write, opens, closes]
  case refine_5 =>
    rintro before _ _ rest ⟨rfl, rfl⟩ ih pieces cut
    rw [textPieces, if_pos ⟨rfl, rfl⟩] at cut
    refine ⟨(ih cut).1, ?_⟩
    rw [(ih cut).2, escape_append, append_assoc]
    rfl
  case refine_6 =>
    rintro before _ _ rest apart ⟨rfl, rfl⟩ ih pieces cut
    rw [textPieces, if_neg apart, if_pos ⟨rfl, rfl⟩] at cut
    refine ⟨(ih cut).1, ?_⟩
    rw [(ih cut).2, escape_append, append_assoc]
    rfl
  case refine_7 =>
    intro before next rest apart apart' ih pieces cut
    rw [textPieces, if_neg apart, if_neg apart', if_pos rfl] at cut
    cases inside : slotPieces [] (next :: rest) with
    | error reason => rw [inside] at cut; cases cut
    | ok found =>
      rw [inside] at cut
      cases cut
      obtain ⟨formed, same⟩ := ih (by simp) inside
      exact ⟨formed_textBefore formed, by rw [write_textBefore, same]; rfl⟩
  case refine_9 =>
    intro before c next rest _ _ opens closes ih pieces cut
    rw [textPieces_plain opens closes] at cut
    refine ⟨(ih cut).1, ?_⟩
    rw [(ih cut).2, escape_append, append_assoc]
    simp [escape, opens, closes]
  case refine_12 =>
    intro name rest some ih named pieces cut
    rw [slotPieces, if_pos rfl, if_neg some] at cut
    cases later : textPieces [] rest with
    | error reason => rw [later] at cut; cases cut
    | ok found =>
      rw [later] at cut
      cases cut
      obtain ⟨formed, same⟩ := ih later
      refine ⟨forall_mem_cons.mpr ⟨⟨by simpa using some, named⟩, formed⟩, ?_⟩
      rw [write_slot, same]
      rfl
  case refine_13 =>
    intro name c rest apart here ih named pieces cut
    rw [slotPieces, if_neg apart, if_pos here] at cut
    have longer : ∀ c' ∈ name ++ [c], isSlotChar c' = true := by
      intro c' member
      rcases mem_append.mp member with old | single
      · exact named c' old
      · rwa [mem_singleton.mp single]
    refine ⟨(ih longer cut).1, ?_⟩
    rw [(ih longer cut).2, append_assoc, singleton_append]
  -- The other ways are refused.
  all_goals intros
  all_goals simp_all [textPieces, slotPieces]

def fillText (texts : String → List Char) (pieces : List Piece) : List Char :=
  pieces.flatMap fun
    | .text chars => chars
    | .slot name => texts (String.ofList name)

def texts (t : Template) (slot : String) : List Char :=
  ((t.bindings.get? slot).getD "").toList

theorem fillPieces_eq_ok {parts : List String} : pieces.mapM t.fillPiece = .ok parts ↔
      (∀ name, .slot name ∈ pieces → (t.bindings.get? (String.ofList name)).isSome = true) ∧
        parts = pieces.map fun
          | .text chars => String.ofList chars
          | .slot name => String.ofList (t.texts (String.ofList name)) := by
  induction pieces generalizing parts with
  | nil =>
    simp only [mapM_nil, Outcome.pure_eq, Except.ok.injEq, not_mem_nil, false_implies, implies_true,
      map_nil, true_and]
    exact eq_comm
  | cons piece rest ih =>
    rw [mapM_cons, bind_eq_ok]
    simp only [bind_eq_ok, ih, Outcome.pure_eq, Except.ok.injEq, mem_cons, map_cons]
    cases piece with
    | text chars =>
      simp only [fillPiece, Except.ok.injEq, reduceCtorEq, false_or]
      constructor
      · rintro ⟨_, rfl, _, ⟨bound, rfl⟩, rfl⟩
        exact ⟨bound, rfl⟩
      · rintro ⟨bound, rfl⟩
        exact ⟨_, rfl, _, ⟨bound, rfl⟩, rfl⟩
    | slot name =>
      simp only [fillPiece, Piece.slot.injEq]
      cases found : t.bindings.get? (String.ofList name) with
      | none =>
        constructor
        · rintro ⟨_, impossible, -⟩
          cases impossible
        · rintro ⟨bound, -⟩
          simpa [found] using bound name (.inl rfl)
      | some value =>
        have here : value = String.ofList (t.texts (String.ofList name)) := by simp [texts, found]
        constructor
        · rintro ⟨_, same, _, ⟨bound, rfl⟩, rfl⟩
          cases same
          refine ⟨?_, congrArg (· :: _) here⟩
          rintro other (rfl | there)
          · simp [found]
          · exact bound other there
        · rintro ⟨bound, rfl⟩
          exact ⟨_, rfl, _, ⟨fun other there => bound other (.inr there), rfl⟩,
            congrArg (· :: _) here⟩

theorem render_eq_ok (cut : textPieces [] t.text.toList = .ok pieces) {code : String} :
    t.render = .ok code ↔
      (∀ name, .slot name ∈ pieces → (t.bindings.get? (String.ofList name)).isSome = true) ∧
      code = String.ofList (fillText t.texts pieces) := by
  have known : t.pieces = .ok pieces := by rw [Template.pieces, cut]
  have joined (pieces : List Piece) : String.join (pieces.map fun
      | .text chars => String.ofList chars
      | .slot name =>
        String.ofList (t.texts (String.ofList name))) = String.ofList (fillText t.texts
          pieces) := by
    rw [← String.toList_inj, String.toList_join, String.toList_ofList, fillText, flatMap_map]
    congr 1
    funext piece
    cases piece <;> simp
  rw [render, known, ok_bind, bind_eq_ok]
  simp only [fillPieces_eq_ok, Outcome.pure_eq, Except.ok.injEq]
  constructor
  · rintro ⟨_, ⟨bound, rfl⟩, rfl⟩
    exact ⟨bound, joined pieces⟩
  · rintro ⟨bound, rfl⟩
    exact ⟨_, ⟨bound, rfl⟩, joined pieces⟩

theorem fillText_joined (texts : String → List Char) : fillText texts
    (joined before pieces) = before ++ fillText texts pieces := by
  have textBefore (before : List Char) (pieces : List Piece) :
    fillText texts (Piece.textBefore before pieces) = before ++ fillText texts pieces := by
    unfold Piece.textBefore
    split
    next empty => rw [List.isEmpty_iff.mp empty, nil_append]
    · rfl
  induction pieces generalizing before with
  | nil => exact textBefore before []
  | cons piece rest ih =>
    cases piece with
    | text chars =>
      rw [joined, ih, append_assoc]
      rfl
    | slot name =>
      rw [joined, textBefore]
      simp only [fillText, flatMap_cons] at ih ⊢
      rw [ih, nil_append]

theorem slots_joined : (joined before pieces).filterMap slotName? = pieces.filterMap slotName? := by
  have textBefore (before : List Char) (pieces : List Piece) :
    (Piece.textBefore before pieces).filterMap slotName? = pieces.filterMap slotName? := by
    unfold Piece.textBefore
    split <;> rfl
  induction pieces generalizing before with
  | nil => exact textBefore before []
  | cons piece rest ih =>
    cases piece with
    | text chars => exact ih
    | slot name =>
      rw [joined, textBefore]
      simp only [filterMap_cons, slotName?, ih]

theorem mem_slots {slot : String} : slot ∈ pieces.filterMap slotName? ↔
    .slot slot.toList ∈ pieces := by
  rw [mem_filterMap]
  constructor
  · rintro ⟨piece, member, same⟩
    cases piece with
    | text chars => cases same
    | slot name =>
      cases same
      rwa [String.toList_ofList]
  · intro member
    exact ⟨_, member, by rw [slotName?, String.ofList_toList]⟩

theorem fillText_congr {texts texts' : String → List Char}
    (same : ∀ slot ∈ pieces.filterMap slotName?, texts slot = texts' slot) :
    fillText texts pieces = fillText texts' pieces := by
  refine flatMap_congr fun piece member => ?_
  cases piece with
  | text chars => rfl
  | slot name => exact same _ (mem_slots.mpr (by rwa [String.toList_ofList]))

theorem failsBy_render (t : Template) : t.render.FailsBy fun failure => ∃ reason, failure = .error
    (.invariant reason) := by
  refine Outcome.FailsBy.andThen ?_ fun pieces => Outcome.FailsBy.andThen (.mapM fun piece _ => ?_)
    fun parts => .ok _
  · unfold Template.pieces
    split
    · exact .ok _
    · exact .error ⟨_, rfl⟩
  · cases piece with
    | text chars => exact .ok _
    | slot name =>
      unfold fillPiece
      dsimp only
      split
      · exact .ok _
      · exact .error ⟨_, rfl⟩

structure WrittenFrom (t : Template) (pieces : List Piece) : Prop where
  formed : ∀ piece ∈ pieces, piece.Formed
  text : t.text = String.ofList (write pieces)

theorem WrittenFrom.cut (written : t.WrittenFrom pieces) : textPieces [] t.text.toList = .ok
    (joined [] pieces) := by
  rw [written.text, String.toList_ofList, textPieces_write written.formed]

-- A template can be read exactly if it was written from pieces.
theorem render_written (t : Template) : (t.slots.Succeeds ↔ ∃ pieces, t.WrittenFrom pieces) ∧
      ∀ pieces, t.WrittenFrom pieces → t.slots = .ok (pieces.filterMap slotName?) ∧
        (∀ value : String → String,
          (∀ slot ∈ pieces.filterMap slotName?, t.bindings.get? slot = some (value slot)) →
          t.render = .ok (String.ofList (fillText (fun slot => (value slot).toList) pieces))) ∧
        ((∃ cause, t.render = .error (.error cause) ∧ cause.isInvariant = true) ↔
          ∃ slot ∈ pieces.filterMap slotName?, t.bindings.get? slot = none) := by
  have slots_eq {pieces : List Piece} (written : t.WrittenFrom pieces) :
    t.slots = .ok (pieces.filterMap slotName?) := by
    rw [slots, Template.pieces, written.cut, ok_bind, slots_joined]
    rfl
  refine ⟨⟨?_, fun ⟨pieces, written⟩ => ⟨_, slots_eq written⟩⟩,
    fun pieces written => ⟨slots_eq written, ?_, ?_⟩⟩
  · rintro ⟨found, known⟩
    cases cut : textPieces [] t.text.toList with
    | error reason =>
      rw [slots, Template.pieces, cut] at known
      cases known
    | ok pieces =>
      obtain ⟨formed, same⟩ := write_of_textPieces cut
      exact ⟨pieces, formed, by rw [same, escape, flatMap_nil, nil_append, String.ofList_toList]⟩
  · intro value bound
    refine (render_eq_ok written.cut).mpr ⟨fun name member => ?_, ?_⟩
    · rw [bound _ (slots_joined ▸ mem_slots.mpr (by rwa [String.toList_ofList]))]
      rfl
    · rw [fillText_joined, nil_append]
      refine congrArg String.ofList (fillText_congr fun slot member => ?_)
      rw [texts, bound slot member]
      rfl
  · constructor
    · rintro ⟨cause, failed, -⟩
      by_contra! bound
      have rendered := (render_eq_ok written.cut).mpr ⟨fun name member => ?_, rfl⟩
      · rw [failed] at rendered
        cases rendered
      · exact Option.isSome_iff_ne_none.mpr
          (bound _ (slots_joined ▸ mem_slots.mpr (by rwa [String.toList_ofList])))
    · rintro ⟨slot, member, none⟩
      cases rendered : t.render with
      | ok code =>
        have bound := ((render_eq_ok written.cut).mp rendered).1 slot.toList
          (by rwa [← mem_slots, slots_joined])
        rw [String.ofList_toList, none] at bound
        cases bound
      | error failure =>
        obtain ⟨reason, rfl⟩ := t.failsBy_render failure rendered
        exact ⟨_, rfl, rfl⟩

end TraceFlow.Template
