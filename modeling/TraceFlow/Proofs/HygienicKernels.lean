import TraceFlow.Proofs.KernelCodes

set_option autoImplicit false

namespace TraceFlow

open Kernel List
open Kernel.Token (scanAll scanAll_blank)

variable {text : String} {t : Template}

namespace Kernel

def choice (case : Nat) (yes test no : List Char) : List Char :=
  '(' :: (yes ++ ") if (".toList ++ test ++ ") == ".toList ++ case.repr.toList ++
    " else (".toList ++ no ++ [')'])

theorem scanAll_choice (case : Nat) (yes test no : List Char) :
    scanAll (choice case yes test no) = (do
    let first ← scanAll yes
    let second ← scanAll test
    let number ← Token.ofNumber case.repr.toList
    let third ← scanAll no
    return .mark .openParen :: (first ++ .mark .closeParen :: .name "if" :: .mark .openParen ::
      (second ++ .mark .closeParen :: .mark .equal :: number ::
      .name "else" :: .mark .openParen :: (third ++ [.mark .closeParen])))) := by
  have equal (rest : List Char) :
    scanAll ('=' :: '=' :: ' ' :: rest) = (do return .mark .equal ::
      (← scanAll (' ' :: rest))) := by
    rw [Token.scanAll_cons]
    rfl
  have word (rest : List Char) {n : String} (named : Token.isIdentifier n = true) :
      scanAll (n.toList ++ ' ' :: rest) = (do return .name n :: (← scanAll (' ' :: rest))) :=
    Token.scanAll_identifier_append named (by rintro c ⟨⟩; rfl)
  have cut : choice case yes test no =
      '(' :: (yes ++ ')' :: ' ' ::
        ("if".toList ++ ' ' :: '(' :: (test ++ ')' :: ' ' :: '=' :: '=' :: ' ' ::
          (case.repr.toList ++ ' ' ::
        ("else".toList ++ ' ' :: '(' :: (no ++ ')' :: [])))))) := by
    simp [choice]
  rw [cut, scanAll_enclosed, scanAll_blank, word _ (by decide), scanAll_blank, scanAll_enclosed,
    scanAll_blank, equal, scanAll_blank,
    Token.scanAll_digits, word _ (by decide), scanAll_blank, scanAll_enclosed]
  cases scanAll yes <;> cases scanAll test <;> cases Token.ofNumber case.repr.toList <;>
    cases scanAll no <;> rfl

theorem ofNumber_repr (n : Nat) : Token.ofNumber n.repr.toList = if n < 0x8000000000000000 then .ok
    (.int (Int64.ofNat n)) else .error "bad integer literal" := by
  rw [Nat.toList_repr, ofNumber_toDigits]

theorem scans_choice {case : Nat} {yes test no : List Char}
    (scans : Scans (choice case yes test no)) :
    case < 0x8000000000000000 ∧ Scans yes ∧ Scans test ∧ Scans no := by
  obtain ⟨tokens, scanned⟩ := scans
  rw [scanAll_choice] at scanned
  obtain ⟨first, scanned₁, scanned⟩ := parse_bind.mp scanned
  obtain ⟨second, scanned₂, scanned⟩ := parse_bind.mp scanned
  obtain ⟨number, read, scanned⟩ := parse_bind.mp scanned
  obtain ⟨third, scanned₃, -⟩ := parse_bind.mp scanned
  rw [ofNumber_repr] at read
  split at read
  next few => exact ⟨few, ⟨first, scanned₁⟩, ⟨second, scanned₂⟩, ⟨third, scanned₃⟩⟩
  · cases read

theorem denotes_choice {case : Nat} (few : case < 0x8000000000000000) {yes test no : List Char}
    {x y z : Expr} (first : Denotes yes x) (second : Denotes test y) (third : Denotes no z) :
    Denotes (choice case yes test no)
      (.ifElse (.compare .eq y (.const (.int (Int64.ofNat case)))) x z) := by
  obtain ⟨tokens, fuel, scanned, read⟩ := first
  obtain ⟨tokens', fuel', scanned', read'⟩ := second
  obtain ⟨tokens'', fuel'', scanned'', read''⟩ := third
  let filling : Filling := .ofTexts fun n => if n = "in0" then yes else if n = "in1" then test else
    no
  have known : filling.at? "in0" = some (tokens, x) :=
    Filling.ofTexts_eq (by decide) scanned (reads_of_expression fuel read)
  have known' : filling.at? "in1" = some (tokens', y) :=
    Filling.ofTexts_eq (by decide) scanned' (reads_of_expression fuel' read')
  have known'' : filling.at? "in2" = some (tokens'', z) :=
    Filling.ofTexts_eq (by decide) scanned'' (reads_of_expression fuel'' read'')
  -- The choice over plain names, and its tokens with the operands filled in from the last to the
  -- first.
  have parsed : expression 40 [.mark .openParen, .name "in0", .mark .closeParen, .name "if",
    .mark .openParen, .name "in1", .mark .closeParen, .mark .equal,
      .int (Int64.ofNat case), .name "else", .mark .openParen, .name "in2", .mark .closeParen] =
      .ok (.ifElse (.compare .eq (.name "in1") (.const (.int (Int64.ofNat case)))) (.name "in0")
        (.name "in2"), []) := rfl
  have middle := @Template.filled_append filling [.mark .equal, .int (Int64.ofNat case),
    .name "else"] _ _ (by simp [slotNames]) (.slot known'' .nil)
  have filled := Filled.slot known (@Template.filled_append filling [.name "if"] _ _
    (by simp [slotNames]) (.slot known' middle))
  have whole := expression_filled closes_nil parsed filled (Nat.le_add_left _ _)
  refine ⟨_, _, ?_, whole.trans (by simp [Expr.fill, Filling.leaf, known, known', known''])⟩
  rw [scanAll_choice, scanned, scanned', scanned'', ofNumber_repr, if_pos few]
  rfl

-- A text that is put together from those of the slots of a tree.
structure Composition (total : Prop) (tree : Expr) (texts : String → List Char)
    (result : List Char) : Prop where
  parts : Scans result → total ∧ ∀ slot ∈ tree.names, Scans (texts slot)
  denotes : total → ∀ trees : String → Expr,
    (∀ slot ∈ tree.names, Denotes (texts slot) (trees slot)) → Denotes result (tree.fill trees)

namespace Composition

variable {total : Prop} {tree : Expr} {texts : String → List Char} {result : List Char}

theorem tells (composition : Composition total tree texts result) (plain : tree.subscripts = [])
    {allowed : String → Prop}
    (each : total → ∀ slot ∈ tree.names, Tells allowed (texts slot)) : Tells allowed result := by
  intro scans
  obtain ⟨holds, parts⟩ := composition.parts scans
  have : Nonempty Expr := ⟨.const (.int 0)⟩
  choose! trees denotes minds using fun slot (member : slot ∈ tree.names) => each holds slot member
    (parts slot member)
  exact ⟨_, composition.denotes holds trees denotes, tree.minds_fill plain minds⟩

theorem name (slot : String) (texts : String → List Char) : Composition True (.name slot) texts
    (texts slot) where
  parts scans := ⟨trivial, by simpa [Expr.names] using scans⟩
  denotes _ trees each := by
    rw [Expr.fill]
    exact each slot (by simp [Expr.names])

theorem enclosed (composition : Composition total tree texts result) : Composition total tree texts
    ('(' :: (result ++ [')'])) where
  parts scans := composition.parts (scans_enclosed scans)
  denotes holds trees each := (composition.denotes holds trees each).enclosed

theorem choose (composition : Composition total tree texts result) (case : Nat)
    (yes test : String) : Composition (total ∧ case < 0x8000000000000000)
      (.ifElse (.compare .eq (.name test) (.const (.int (Int64.ofNat case)))) (.name yes) tree)
        texts (choice case (texts yes) (texts test) result) where
  parts scans := by
    obtain ⟨few, first, second, third⟩ := scans_choice scans
    obtain ⟨holds, others⟩ := composition.parts third
    refine ⟨⟨holds, few⟩, ?_⟩
    simpa [Expr.names, second, first, or_imp, forall_and] using others
  denotes holds trees each := by
    simp only [Expr.names, append_nil, forall_mem_append, forall_mem_singleton] at each
    rw [Expr.fill, Expr.fill, Expr.fill, Expr.fill, Expr.fill]
    exact denotes_choice holds.2 each.1.2 each.1.1 (composition.denotes holds.1 trees each.2)

end Composition

end Kernel

namespace Template

variable {texts : String → List Char} {pieces : List Piece} {total : Prop} {tree : Expr}
  {slot : String}

def operands (t : Template) : Outcome (List String) := do
  return (← t.slots).filter fun slot => (t.bindings.get? slot).isNone

def bindAll (t : Template) (texts : String → String) (slots : List String) : Template :=
  slots.foldl (fun t slot => t.bind slot (texts slot)) t

theorem text_bindAll (t : Template) (texts : String → String) (slots : List String) :
    (t.bindAll texts slots).text = t.text := by
  induction slots generalizing t with
  | nil => rfl
  | cons slot rest ih => exact ih (t.bind slot (texts slot))

theorem get?_bindAll (t : Template) (texts : String → String) (slots : List String)
    (slot : String) : (t.bindAll texts slots).bindings.get? slot = if slot ∈ slots then some
      (texts slot) else t.bindings.get? slot := by
  induction slots generalizing t with
  | nil => rfl
  | cons first rest ih =>
    change ((t.bind first (texts first)).bindAll texts rest).bindings.get? slot = _
    rw [ih, bind, Dict.get?_insert]
    grind

-- The expression of a template, in terms of slots without a text.
structure Composes (total : Prop) (t : Template) (tree : Expr) : Prop where
  plain : tree.subscripts = []
  free : ∀ slot ∈ tree.names, t.bindings.get? slot = none
  filled : ∀ texts : String → List Char, (∀ slot value, t.bindings.get? slot = some value →
    texts slot = value.toList) →
    ∃ result, filled texts t.text.toList = .ok result ∧ Composition total tree texts result

-- Some text for each slot.
def stock (t : Template) (slot : String) : List Char :=
  ((t.bindings.get? slot).getD "0").toList

theorem stock_bound (slot value : String) (found : t.bindings.get? slot = some value) :
    t.stock slot = value.toList := by
  rw [stock, found]
  rfl

namespace Composes

variable {t t' : Template} (composes : t.Composes total tree) {slots : List String}

include composes

theorem exists_pieces : ∃ pieces, textPieces [] t.text.toList = .ok pieces := by
  obtain ⟨result, filled, -⟩ := composes.filled t.stock stock_bound
  cases cut : textPieces [] t.text.toList with
  | ok pieces => exact ⟨pieces, rfl⟩
  | error reason =>
    rw [Template.filled, cut] at filled
    cases filled

theorem of_pieces (cut : textPieces [] t.text.toList = .ok pieces)
    (agree : ∀ slot value, t.bindings.get? slot = some value → texts slot = value.toList) :
    Composition total tree texts (fillText texts pieces) := by
  obtain ⟨result, filled, composition⟩ := composes.filled texts agree
  rw [Template.filled, cut] at filled
  cases filled
  exact composition

theorem scans_stock (holds : total) (cut : textPieces [] t.text.toList = .ok pieces)
    (agree : ∀ slot, slot ∈ tree.names ∨ t.bindings.get? slot ≠ none →
    texts slot = t.stock slot) : Kernel.Scans (fillText texts pieces) := by
  have composition := @of_pieces texts _ _ _ _ composes cut fun slot value found =>
    (agree slot (.inr (by simp [found]))).trans (stock_bound slot value found)
  refine (composition.denotes holds (fun _ => .const (.int 0)) fun slot named => ?_).scans
  rw [agree slot (.inl named), stock, composes.free slot named]
  exact ⟨[.int 0], 14, rfl, rfl⟩

-- If a slot did not occur, the code would be read with any text for it.
theorem occurs (holds : total) (cut : textPieces [] t.text.toList = .ok pieces)
    (member : slot ∈ tree.names) : .slot slot.toList ∈ pieces := by
  by_contra absent
  let texts (other : String) : List Char := if other = slot then ['$'] else t.stock other
  have same : fillText t.stock pieces = fillText texts pieces :=
    fillText_congr fun other listed => by
    refine (if_neg ?_).symm
    rintro rfl
    exact absent (mem_slots.mp listed)
  have composition := @of_pieces texts _ _ _ _ composes cut fun other value found => by
    refine (if_neg ?_).trans (stock_bound other value found)
    rintro rfl
    simp [composes.free _ member] at found
  obtain ⟨tokens, scanned⟩ :=
    (composition.parts (same ▸ composes.scans_stock holds cut fun _ _ => rfl)).2 slot member
  simp only [texts, if_true] at scanned
  cases scanned

-- If another slot occurred, a text that can not be read would show in the code.
theorem named (holds : total) (cut : textPieces [] t.text.toList = .ok pieces) {name : List Char}
    (member : .slot name ∈ pieces) :
    String.ofList name ∈ tree.names ∨ t.bindings.get? (String.ofList name) ≠ none := by
  by_contra other
  let texts (slot : String) : List Char := if slot = String.ofList name then [' ', '$', ' '] else
    t.stock slot
  obtain ⟨tokens, scanned⟩ := @scans_stock texts _ _ _ _ composes holds cut fun slot known => if_neg
    (by rintro rfl; exact other known)
  obtain ⟨before, after, rfl⟩ := append_of_mem member
  have shown : fillText texts (before ++ .slot name :: after) = fillText texts before ++ ' ' ::
    (['$'] ++ ' ' :: fillText texts after) := by
    simp [fillText, texts]
  rw [shown, Token.scanAll_append rfl, scanAll_blank, Token.scanAll_append rfl] at scanned
  obtain ⟨_, -, scanned⟩ := parse_bind.mp scanned
  obtain ⟨_, scanned, -⟩ := parse_bind.mp scanned
  cases scanned

theorem of_render (text : t'.text = t.text)
    (kept : ∀ slot value, t.bindings.get? slot = some value → t'.bindings.get? slot = some value)
    {code : String}
    (rendered : t'.render = .ok code) : Composition total tree t'.texts code.toList ∧
    (total → ∀ slot ∈ tree.names, (t'.bindings.get? slot).isSome = true) := by
  obtain ⟨pieces, cut⟩ := composes.exists_pieces
  obtain ⟨all, rfl⟩ := (render_eq_ok (text ▸ cut)).mp rendered
  rw [String.toList_ofList]
  refine ⟨composes.of_pieces cut
    fun slot value found => by
      rw [texts, kept slot value found, Option.getD_some], fun holds slot member => ?_⟩
  simpa using all _ (composes.occurs holds cut member)

theorem exists_operands : ∃ slots, t.operands = .ok slots := by
  obtain ⟨pieces, cut⟩ := composes.exists_pieces
  exact ⟨_, by rw [operands, slots, Template.pieces, cut]; rfl⟩

omit composes in
theorem mem_operands (cut : textPieces [] t.text.toList = .ok pieces)
    (known : t.operands = .ok slots) :
    slot ∈ slots ↔ .slot slot.toList ∈ pieces ∧ t.bindings.get? slot = none := by
  rw [operands, Template.slots, Template.pieces, cut] at known
  cases known
  rw [mem_filter, mem_slots, Option.isNone_iff_eq_none]

theorem exists_render (holds : total) (known : t.operands = .ok slots) {texts : String → String}
    {trees : String → Expr} (each : ∀ slot ∈ slots, Denotes (texts slot).toList (trees slot)) :
    ∃ code, (t.bindAll texts slots).render = .ok code ∧ Denotes code.toList (tree.fill trees) := by
  obtain ⟨pieces, cut⟩ := composes.exists_pieces
  obtain ⟨code, rendered⟩ : ∃ code, (t.bindAll texts slots).render = .ok code := by
    refine ⟨_, (render_eq_ok (by rw [text_bindAll, cut])).mpr ⟨fun name member => ?_, rfl⟩⟩
    rw [get?_bindAll]
    split
    · rfl
    next absent =>
      rw [mem_operands cut known, String.toList_ofList] at absent
      exact Option.isSome_iff_ne_none.mpr fun none => absent ⟨member, none⟩
  have composition := (composes.of_render (text_bindAll t texts slots) (fun slot value found => by
    rw [get?_bindAll,
      if_neg fun member => by
        simp [((mem_operands cut known).mp member).2] at found, found]) rendered).1
  refine ⟨code, rendered, composition.denotes holds trees fun slot member => ?_⟩
  have operand : slot ∈ slots := (mem_operands cut known).mpr ⟨composes.occurs holds cut member,
    composes.free slot member⟩
  rw [Template.texts, get?_bindAll, if_pos operand]
  exact each slot operand

end Composes

theorem Formula.composition (formula : Formula text pieces tree) (texts : String → List Char) :
    Composition True tree texts (fillText texts pieces) := by
  obtain ⟨tokens, sound, parsed⟩ := formula.parses
  have mem_slots (slot : String) (member : slot ∈ tree.names) :
    .slot slot.toList ∈ assigned pieces := slot_mem_assigned.mpr (formula.names slot member)
  constructor
  · rintro ⟨inside, scanned⟩
    refine ⟨trivial, fun slot member => ?_⟩
    have whole := scanAll_fillText texts sound.walled
    rw [← formula.text, String.toList_append, Token.scanAll_assigned, String.toList_ofList,
      scanned] at whole
    simpa using scans_slot whole.symm (mem_slots slot member)
  · intro _ trees each
    have reads (slot : String) (named : slot ∈ tree.names) :
      ∃ inside, scanAll (texts slot) = .ok inside ∧ Reads inside (trees slot) := by
      obtain ⟨inside, fuel, scanned, read⟩ := each slot named
      exact ⟨inside, scanned, reads_of_expression fuel read⟩
    have code := (parse_filled sound parsed (fun name member inside scanned => by
      obtain ⟨inside', scanned', read⟩ := reads _ (formula.slots name (slot_mem_assigned.mp member))
      cases scanned.symm.trans scanned'
      exact ⟨_, read⟩) (formula.text texts)).1 fun name member => (each _ (formula.slots name
        (slot_mem_assigned.mp member))).scans
    have leaves : tree.fill (Filling.ofTexts texts).leaf = tree.fill trees :=
      tree.fill_congr fun n member => by
      have slot := sound.slots _ (mem_slots n member)
      rw [String.ofList_toList] at slot
      obtain ⟨inside, scanned, read⟩ := reads n member
      rw [Filling.leaf, Filling.ofTexts_eq slot scanned read]
    rw [leaves] at code
    exact (String.toList_ofList ▸ denotes_iff.mpr code :)

theorem Formula.composes (formula : Formula text pieces tree) :
    (ofText text).Composes True tree where
  plain := formula.plain
  free _ _ := rfl
  filled texts _ :=
    ⟨fillText texts pieces, by rw [filled, ofText, formula.cut]; rfl, formula.composition texts⟩

theorem exists_composes (known : (formula? text).isSome = true) :
    ∃ tree, (ofText text).Composes True tree := by
  obtain ⟨tree, known⟩ := Option.isSome_iff_exists.mp known
  obtain ⟨pieces, formula⟩ := exists_formula known
  exact ⟨tree, formula.composes⟩

theorem composes_slot (cut : text.toList = openBrace :: (slot.toList ++ [closeBrace]))
    (named : slot.toList.all isSlotChar = true)
    (some : slot.toList ≠ []) : (ofText text).Composes True (.name slot) where
  plain := by rw [Expr.subscripts]
  free _ _ := rfl
  filled texts _ := by
    have fills : FillsTo texts _ _ := fillsTo_slot (all_eq_true.mp named) some
    rw [String.ofList_toList, ← cut] at fills
    exact ⟨_, fills.filled_eq, .name slot texts⟩

end Template

namespace Movement

open Template (FillsTo fillsTo_plain fillsTo_text fillsTo_slot)

variable {names : List (Option String)} {axes : List Axis} {e : Equation}
  {texts : String → List Char} {tree : Expr}

theorem cast_formulas : ∀ elem ∈ ElemType.all, ∀ value ∈ [itself, "(1 if (\x7bin0\x7d) else 0)"],
    (Template.formula? (elem.name ++ ("(" ++ value ++ ")"))).isSome = true := by
  decide +kernel

theorem plain_names : ∀ elem ∈ ElemType.all, elem.name.toList.all
    (fun c => c ≠ Template.openBrace ∧ c ≠ Template.closeBrace) = true := by
  decide

theorem composes_convert (made : convert.kernel axes names e = .ok t) :
    ∃ tree, t.Composes True tree ∧ ∀ slot value, t.bindings.get? slot = some value →
    slot = "cast" := by
  unfold convert at made
  dsimp only at made
  split at made
  next input _ output _ _ _ =>
    cases made
    generalize chosen : (if input.elem = .bool && output.elem.isInteger then
      "(1 if (\x7bin0\x7d) else 0)" else itself) = value
    have listed : value ∈ [itself, "(1 if (\x7bin0\x7d) else 0)"] := by
      rw [← chosen]
      split <;> simp
    obtain ⟨tree, known⟩ := Option.isSome_iff_exists.mp
      (cast_formulas _ (ElemType.all_complete output.elem) value listed)
    obtain ⟨pieces, formula⟩ := Template.exists_formula known
    have bound (slot : String) :
      ((Template.ofText ("\x7bcast\x7d(" ++ value ++ ")")).bind "cast"
        output.elem.name).bindings.get? slot =
        if slot = "cast" then some output.elem.name else none := by
      rw [Template.bind, Dict.get?_insert]
      rfl
    refine ⟨tree, ⟨formula.plain, fun slot member => ?_, fun texts agree => ?_⟩,
      fun slot value found => by_contra fun apart => by simp [bound, apart] at found⟩
    · rw [bound, if_neg]
      rintro rfl
      obtain ⟨tokens, sound, -⟩ := formula.parses
      have slot := sound.slots _ (Template.slot_mem_assigned.mpr (formula.names _ member))
      revert slot
      decide
    obtain ⟨result, filled', composition⟩ :=
      formula.composes.filled texts fun slot value found => by
      cases found
    refine ⟨result, ?_, composition⟩
    have cast : texts "cast" = output.elem.name.toList := agree "cast" _ (by rw [bound, if_pos rfl])
    have slot : FillsTo texts "\x7bcast\x7d".toList output.elem.name.toList :=
      cast ▸ fillsTo_slot (all_eq_true.mp
        (by decide : "cast".toList.all Template.isSlotChar = true)) (by decide)
    have plain : FillsTo texts output.elem.name.toList output.elem.name.toList :=
      fillsTo_text _ (plain_names _ (ElemType.all_complete output.elem))
    obtain ⟨inside, fills⟩ : ∃ inside, FillsTo texts ("(" ++ value ++ ")").toList inside := by
      simp only [mem_cons, not_mem_nil, or_false] at listed
      rcases listed with rfl | rfl
      · exact ⟨_, [.text ['('], .slot "in0".toList,
          .text [')']], by simp [Template.Piece.Formed, Template.isSlotChar], by decide, rfl⟩
      · exact ⟨_, [.text "((1 if (".toList, .slot "in0".toList,
          .text
            ") else 0))".toList],
            by simp [Template.Piece.Formed, Template.isSlotChar], by decide, rfl⟩
    have cut : ("\x7bcast\x7d(" ++ value ++ ")").toList = "\x7bcast\x7d".toList ++
      ("(" ++ value ++ ")").toList := by
      simp
    rw [Template.ofText, String.toList_append, (plain.append fills).filled_eq] at filled'
    rw [Template.bind, Template.ofText, cut, (slot.append fills).filled_eq, filled']
  · cases made

def chained (texts : String → List Char) : Nat → List Char → List Char
  | 0, text => text
  | case + 1, text =>
    chained texts case (choice case (texts ("in" ++ (case + 1).repr)) (texts "in0") text)

theorem fillsTo_input (texts : String → List Char) (k : Nat) :
    FillsTo texts ("\x7bin" ++ k.repr ++ "\x7d").toList (texts ("in" ++ k.repr)) := by
  have cut : ("\x7bin" ++ k.repr ++ "\x7d").toList = Template.openBrace ::
    (("in" ++ k.repr).toList ++ [Template.closeBrace]) := by
    simp only [String.toList_append]
    rfl
  have slot : ∀ c ∈ ("in" ++ k.repr).toList, Template.isSlotChar c = true := by
    intro c member
    rw [String.toList_append] at member
    rcases mem_append.mp member with letter | digit
    · exact all_eq_true.mp (by decide : "in".toList.all Template.isSlotChar = true) c letter
    · exact Token.continuesName_repr digit
  have fills : FillsTo texts _ _ := fillsTo_slot slot (by simp)
  rwa [String.ofList_toList, ← cut] at fills

theorem fillsTo_lastCase (texts : String → List Char) (k : Nat) :
    FillsTo texts ("(\x7bin" ++ k.repr ++ "\x7d)").toList
      ('(' :: (texts ("in" ++ k.repr) ++ [')'])) := by
  have plain := @fillsTo_text texts
  have whole := (plain "(" (by decide)).append
    ((fillsTo_input texts k).append (plain ")" (by decide)))
  simp only [String.toList_append, append_assoc] at whole ⊢
  exact whole

theorem fillsTo_caseChain (case : Nat) {result : List Char}
    (fills : FillsTo texts text.toList result) :
    FillsTo texts (caseChain case text).toList (chained texts case result) := by
  induction case generalizing text result with
  | zero => exact fills
  | succ case ih =>
    have plain := @fillsTo_text texts
    have number : FillsTo texts case.repr.toList case.repr.toList := by
      refine fillsTo_plain fun c member => ?_
      have digit := Token.continuesName_repr member
      constructor <;> (rintro rfl; revert digit; decide)
    refine ih ?_
    have whole := (plain "(" (by decide)).append ((fillsTo_input texts (case + 1)).append
      ((plain ") if (" (by decide)).append ((fillsTo_input texts 0).append
      ((plain ") == " (by decide)).append
        (number.append ((plain " else (" (by decide)).append
          (fills.append (plain ")" (by decide)))))))))
    have first : "(\x7bin".toList = "(".toList ++ "\x7bin".toList := by decide
    have second : "\x7d) if (\x7bin0\x7d) == ".toList =
      "\x7d".toList ++ (") if (".toList ++
        ("\x7bin".toList ++ ((0 : Nat).repr.toList ++ ("\x7d".toList ++ ") == ".toList)))) := by
        decide
    simp only [String.toList_append, append_assoc] at whole ⊢
    rw [first, second, choice]
    simp only [append_assoc]
    exact whole

-- The choice between the given expression and the cases before it.
def choices : Nat → Expr → Expr
  | 0, x => x
  | case + 1, x =>
    choices case (.ifElse (.compare .eq (.name "in0") (.const (.int (Int64.ofNat case))))
      (.name ("in" ++ (case + 1).repr)) x)

theorem composition_chained {total : Prop} {text : List Char}
    (composition : Composition total tree texts text)
    (case : Nat) : Composition (total ∧ case ≤ 0x8000000000000000) (choices case tree) texts
      (chained texts case text) := by
  induction case generalizing total text tree with
  | zero =>
    rw [chained, choices]
    exact ⟨fun scans => ⟨⟨(composition.parts scans).1, Nat.zero_le _⟩, (composition.parts scans).2⟩,
      fun holds => composition.denotes holds.1⟩
  | succ case ih =>
    have chain := ih (composition.choose case ("in" ++ (case + 1).repr) "in0")
    have few : (total ∧ case < 0x8000000000000000) ∧ case ≤ 0x8000000000000000 ↔ total ∧
      case + 1 ≤ 0x8000000000000000 :=
      ⟨fun holds => holds.1, fun holds => ⟨holds, Nat.le_of_lt holds.2⟩⟩
    exact propext few ▸ chain

theorem subscripts_choices (case : Nat) (plain : tree.subscripts = []) :
    (choices case tree).subscripts = [] := by
  induction case generalizing tree with
  | zero => exact plain
  | succ case ih => exact ih (by simp [Expr.subscripts, plain])

-- The expression of a selection, by the number of its cases.
def selection : Nat → Expr
  | 2 => .ifElse (.name "in0") (.name "in2") (.name "in1")
  | count => choices (count - 1) (.name ("in" ++ count.repr))

theorem select_two_formula :
    ∃ pieces, Template.Formula "(\x7bin2\x7d) if (\x7bin0\x7d) else (\x7bin1\x7d)" pieces
      (selection 2) :=
  Template.exists_formula_of_isSame (by decide +kernel)

theorem composes_select (made : select.kernel axes names e = .ok t) :
    ∃ total, t.Composes total (selection (names.length - 1)) ∧ t.bindings = {} ∧
    (names.length ≤ 0x8000000000000000 → total) := by
  unfold select at made
  dsimp only at made
  split at made
  · cases made
  next two =>
    cases made
    obtain ⟨pieces, formula⟩ := select_two_formula
    exact ⟨True, two ▸ formula.composes, rfl, fun _ => trivial⟩
  next case other count =>
    cases made
    rw [count, selection.eq_2 _ fun two => other (Nat.succ.inj two)]
    refine ⟨True ∧ case ≤ 0x8000000000000000, ⟨subscripts_choices case (by rw [Expr.subscripts]),
      fun _ _ => rfl, fun texts _ => ?_⟩, rfl,
      fun few => ⟨trivial, by omega⟩⟩
    exact ⟨_, (fillsTo_caseChain case (fillsTo_lastCase texts (case + 1))).filled_eq,
      composition_chained (.enclosed (.name _ texts)) case⟩

end Movement

inductive OperandKernel : Template → Prop
  | arithmetic {primitive text : String} : (primitive, text) ∈ Arithmetic.kernels →
    OperandKernel (.ofText text)
  | bitwise {primitive bitwise truth : String} :
    (primitive, bitwise, truth) ∈ Arithmetic.logicalKernels → OperandKernel (.ofText bitwise)
  | truth {primitive bitwise truth : String} :
    (primitive, bitwise, truth) ∈ Arithmetic.logicalKernels → OperandKernel (.ofText truth)
  | convert {axes : List Axis} {names : List (Option String)} {e : Equation} {t : Template} :
    Movement.convert.kernel axes names e = .ok t → OperandKernel t
  | select {axes : List Axis} {names : List (Option String)} {e : Equation} {t : Template} :
    names.length ≤ 0x8000000000000000 →
    Movement.select.kernel axes names e = .ok t → OperandKernel t

theorem OperandKernel.exists_composes (kernel : OperandKernel t) :
    ∃ total tree, total ∧ t.Composes total tree := by
  have listed {text : String} (known : (Template.formula? text).isSome = true) :
    ∃ total tree, total ∧ (Template.ofText text).Composes total tree := by
    obtain ⟨tree, composes⟩ := Template.exists_composes known
    exact ⟨True, tree, trivial, composes⟩
  cases kernel with
  | arithmetic member =>
    exact listed (Arithmetic.isSome_of_isClassified (Arithmetic.tables_classified.1 _ member))
  | bitwise member =>
    exact listed (Arithmetic.isSome_of_isClassified (Arithmetic.tables_classified.2 _ member).1)
  | truth member => exact listed (Arithmetic.tables_classified.2 _ member).2
  | convert made =>
    obtain ⟨tree, composes, -⟩ := Movement.composes_convert made
    exact ⟨True, tree, trivial, composes⟩
  | select few made =>
    obtain ⟨total, composes, -, holds⟩ := Movement.composes_select made
    exact ⟨total, _, holds few, composes⟩

theorem OperandKernel.hygienic {t : Template} (kernel : OperandKernel t) :
    ∃ slots, t.operands = .ok slots ∧ ∀ (fresh texts : String → String) (leaf : String → Expr),
      (∀ slot ∈ slots, isVariable (fresh slot) = true ∧
        Assignment.parse ("__out = " ++ texts slot) = .ok ⟨"__out", leaf (fresh slot)⟩) →
      ∃ own code tree, (t.bindAll fresh slots).render = .ok own ∧ Assignment.parse
        ("__out = " ++ own) = .ok ⟨"__out", tree⟩ ∧
        (t.bindAll texts slots).render = .ok code ∧ Assignment.parse
          ("__out = " ++ code) = .ok ⟨"__out", tree.fill leaf⟩ := by
  obtain ⟨total, tree, holds, composes⟩ := kernel.exists_composes
  obtain ⟨slots, known⟩ := composes.exists_operands
  refine ⟨slots, known, fun fresh texts leaf each => ?_⟩
  obtain ⟨own, rendered, read⟩ := composes.exists_render holds known fun slot member => denotes_name
    (each slot member).1
  obtain ⟨code, rendered', read'⟩ := composes.exists_render holds known fun slot member =>
    denotes_iff.mpr (each slot member).2
  refine ⟨own, code, _, rendered, denotes_iff.mp read, rendered', ?_⟩
  simp only [Expr.fill_fill, Expr.fill, denotes_iff.mp read']

theorem OperandKernel.hygienic_choice :
    ∃ own code tree, ((Template.ofText (Movement.caseChain 2 "(\x7bin3\x7d)")).bindAll ("_" ++ ·)
      ["in1", "in0", "in2", "in0", "in3"]).render = .ok own ∧
      Assignment.parse ("__out = " ++ own) = .ok ⟨"__out", tree⟩ ∧
      ((Template.ofText (Movement.caseChain 2 "(\x7bin3\x7d)")).bindAll (fun _ => "1 if a else -b")
        ["in1", "in0", "in2", "in0", "in3"]).render = .ok code ∧
      Assignment.parse ("__out = " ++ code) =
        .ok ⟨"__out", tree.fill fun _ => .ifElse (.name "a") (.const (.int 1))
          (.unary .neg (.name "b"))⟩ := by
  have kernel : OperandKernel (.ofText (Movement.caseChain 2 "(\x7bin3\x7d)")) :=
    @OperandKernel.select [] [none, none, none, none] ⟨"select_n", [], [], {}, false⟩ _ (by decide)
      rfl
  obtain ⟨slots, known, filled⟩ := kernel.hygienic
  have operands : (Template.ofText (Movement.caseChain 2 "(\x7bin3\x7d)")).operands = .ok ["in1",
    "in0", "in2", "in0", "in3"] := by
    decide +kernel
  obtain rfl := Except.ok.inj (operands.symm.trans known)
  have fresh : ∀ slot ∈ ["in1", "in0", "in2", "in0", "in3"], isVariable ("_" ++ slot) = true := by
    decide
  have read : Denotes "1 if a else -b".toList (.ifElse (.name "a") (.const (.int 1))
    (.unary .neg (.name "b"))) :=
    ⟨[.int 1, .name "if", .name "a", .name "else", .mark .minus, .name "b"], 40, rfl, rfl⟩
  exact filled _ _ _ fun slot member => ⟨fresh slot member, denotes_iff.mp read⟩

end TraceFlow
