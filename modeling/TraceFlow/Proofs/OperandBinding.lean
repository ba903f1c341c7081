import TraceFlow.Proofs.FlatRules
import TraceFlow.Proofs.PrimitiveKernels

set_option autoImplicit false

namespace TraceFlow

open Builder Kernel List
open Kernel.Token (scanAll)

variable {t : Template} {n : String}

namespace Elementwise

def operandText (connector : Nat → String) (i : Nat) : Atom → String
  | .var _ => connector i
  | .literal s => s.code

def bindAtoms (connector : Nat → String) : Nat → List Atom → Template → Template
  | _, [], t => t
  | i, atom :: rest, t =>
    bindAtoms connector (i + 1) rest (t.bind ("in" ++ i.repr) (operandText connector i atom))

theorem bindInputs_eq {d : Draft} {atoms : List Atom} {names : List (Option String)}
    (resolved : List.Forall₂ (Resolved d true) atoms names)
    (connector : Nat → String) (i : Nat) (t : Template) : bindInputs connector i
      (names.zip atoms) t = .ok (bindAtoms connector i atoms t) := by
  induction resolved generalizing i t with
  | nil => rfl
  | @cons atom name? atoms names here _ ih =>
    cases atom with
    | var v =>
      cases name? with
      | none => exact here.elim
      | some name => exact ih (i + 1) _
    | literal s =>
      cases name? with
      | none => exact ih (i + 1) _
      | some name => exact here.elim

theorem text_bindAtoms (connector : Nat → String) (i : Nat) (atoms : List Atom) (t : Template) :
    (bindAtoms connector i atoms t).text = t.text := by
  induction atoms generalizing i t with
  | nil => rfl
  | cons atom rest ih => exact ih (i + 1) _

theorem slot_inj {i j : Nat} : "in" ++ i.repr = "in" ++ j.repr ↔ i = j :=
  (String.append_right_inj "in").trans Text.repr_inj

theorem get?_bindAtoms_other (connector : Nat → String) (i : Nat) (atoms : List Atom) (t : Template)
    {slot : String} (apart : ∀ j, i ≤ j → slot ≠ "in" ++ j.repr) :
    (bindAtoms connector i atoms t).bindings.get? slot = t.bindings.get? slot := by
  induction atoms generalizing i t with
  | nil => rfl
  | cons atom rest ih =>
    rw [bindAtoms, ih (i + 1) _ fun j more => apart j (by omega), Template.bind, Dict.get?_insert,
      if_neg (apart i (Nat.le_refl i))]

theorem get?_bindAtoms (connector : Nat → String) (i j : Nat) (atoms : List Atom) (t : Template) :
    (bindAtoms connector i atoms t).bindings.get? ("in" ++ (i + j).repr) =
      ((atoms[j]?).map (operandText connector (i + j))).or
        (t.bindings.get? ("in" ++ (i + j).repr)) := by
  induction atoms generalizing i j t with
  | nil => rfl
  | cons atom rest ih =>
    rw [bindAtoms]
    cases j with
    | zero =>
      rw [get?_bindAtoms_other _ _ _ _ fun j more => mt slot_inj.mp (by omega), Template.bind,
        Dict.get?_insert, Nat.add_zero, if_pos rfl]
      rfl
    | succ j =>
      have later := ih (i + 1) j (t.bind ("in" ++ i.repr) (operandText connector i atom))
      rw [Nat.add_assoc, Nat.add_comm 1 j] at later
      rw [later, Template.bind, Dict.get?_insert, if_neg (mt slot_inj.mp (by omega)),
        getElem?_cons_succ]

end Elementwise

namespace Kernel

open Elementwise (slot_inj)

variable {k : Nat} {tokens : List Token}

inductive SlotText : String → List Char → Prop
  | connector (k : Nat) : SlotText ("in" ++ k.repr) ("__in" ++ k.repr).toList
  | literal (k : Nat) {d : Datum} : Whole d → SlotText ("in" ++ k.repr) d.code.toList
  | exponent {text : List Char} : Legible ["NaN"] text → SlotText Expr.exponentName text

theorem slot_ne_exponent (k : Nat) : "in" ++ k.repr ≠ Expr.exponentName := by
  intro same
  have lists := congrArg String.toList same
  rw [String.toList_append] at lists
  cases lists

theorem few_slots (slot : "in" ++ k.repr ∈ slotNames) : k < 3 := by
  have zero : "in0" = "in" ++ (0 : Nat).repr := rfl
  have one : "in1" = "in" ++ (1 : Nat).repr := rfl
  have two : "in2" = "in" ++ (2 : Nat).repr := rfl
  simp only [slotNames, mem_cons, not_mem_nil, or_false] at slot
  rw [zero, one, two, slot_inj, slot_inj, slot_inj] at slot
  rcases slot with rfl | rfl | rfl | impossible
  · decide
  · decide
  · decide
  · exact absurd impossible (slot_ne_exponent k)

theorem scanAll_connector (few : k < 3) :
    scanAll ("__in" ++ k.repr).toList = .ok [.name ("__in" ++ k.repr)] ∧ Reads
      [.name ("__in" ++ k.repr)] (.name ("__in" ++ k.repr)) := by
  obtain rfl | rfl | rfl : k = 0 ∨ k = 1 ∨ k = 2 := by omega
  · exact ⟨rfl, reads_of_expression 13 rfl⟩
  · exact ⟨rfl, reads_of_expression 13 rfl⟩
  · exact ⟨rfl, reads_of_expression 13 rfl⟩

theorem SlotText.reads {text : List Char} (known : SlotText n text) (slot : n ∈ slotNames)
    (scanned : scanAll text = .ok tokens) : ∃ x, Reads tokens x := by
  cases known with
  | connector k =>
    obtain ⟨scanned', reads⟩ := scanAll_connector (few_slots slot)
    cases scanned.symm.trans scanned'
    exact ⟨_, reads⟩
  | literal k whole =>
    obtain ⟨x, ⟨tokens', fuel, scanned', read⟩, -⟩ :=
      denotes_datum (written_of_scanAll whole scanned)
    cases scanned.symm.trans scanned'
    exact ⟨x, reads_of_expression fuel read⟩
  | exponent legible =>
    obtain ⟨x, fuel, read, -⟩ := legible tokens scanned
    exact ⟨x, reads_of_expression fuel read⟩

structure Scope.Lacks (connector : String) (value : Datum) (scope scope' : Scope) : Prop where
  known : scope.value? connector = some value
  others : ∀ n, n ≠ connector → scope'.value? n = scope.value? n
  elements : ∀ array index, Outcome.Both Eq (scope.element array index) (scope'.element array index)

section

variable {texts : String → List Char} {n : String} (scope : Scope)

theorem Scope.fill_value {x : Expr} (slot : n ∈ slotNames)
    (scanned : scanAll (texts n) = .ok tokens) (reads : Reads tokens x) :
    (scope.fill (.ofTexts texts)).value? n = (x.eval scope).toOption := by
  simp only [Scope.fill, Filling.ofTexts_eq slot scanned reads]

theorem Scope.fill_connector (slot : "in" ++ k.repr ∈ slotNames)
    (text : texts ("in" ++ k.repr) = ("__in" ++ k.repr).toList) :
    (scope.fill (.ofTexts texts)).value? ("in" ++ k.repr) = scope.value? ("__in" ++ k.repr) := by
  obtain ⟨scanned, reads⟩ := scanAll_connector (few_slots slot)
  rw [scope.fill_value slot (text ▸ scanned) reads, Expr.eval]
  cases scope.value? ("__in" ++ k.repr) <;> rfl

theorem Scope.fill_literal {d : Datum} (slot : n ∈ slotNames) (written : Written d)
    (text : texts n = d.code.toList) :
    (scope.fill (.ofTexts texts)).value? n = some (asRead d) := by
  obtain ⟨x, ⟨tokens, fuel, scanned, read⟩, value⟩ := denotes_datum written
  rw [scope.fill_value slot (text ▸ scanned) (reads_of_expression fuel read), value scope]
  rfl

end

end Kernel

namespace Template

variable {pieces : List Piece}

-- A template whose slots have texts that are put into kernels.
def Suited (t : Template) (pieces : List Piece) : Prop :=
  ∀ name, .slot name ∈ pieces → SlotText (String.ofList name) (t.texts (String.ofList name))

structure Swaps (i : Nat) (v : Datum) (t t' : Template) : Prop where
  text : t'.text = t.text
  others : ∀ other, other ≠ "in" ++ i.repr → t'.bindings.get? other = t.bindings.get? other
  connector : t.bindings.get? ("in" ++ i.repr) = some ("__in" ++ i.repr)
  literal : t'.bindings.get? ("in" ++ i.repr) = some v.code
  texts : ∀ slot value, t.bindings.get? slot = some value → SlotText slot value.toList

namespace Swaps

variable {i : Nat} {v : Datum} {t t' : Template} {pieces : List Piece} {e : Expr}

theorem texts_eq (swaps : Swaps i v t t') (apart : n ≠ "in" ++ i.repr) :
    t'.texts n = t.texts n := by
  rw [Template.texts, Template.texts, swaps.others n apart]

theorem texts_connector (swaps : Swaps i v t t') :
    t.texts ("in" ++ i.repr) = ("__in" ++ i.repr).toList := by
  rw [Template.texts, swaps.connector]
  rfl

theorem texts_literal (swaps : Swaps i v t t') : t'.texts ("in" ++ i.repr) = v.code.toList := by
  rw [Template.texts, swaps.literal]
  rfl

theorem both_render (swaps : Swaps i v t t') (formula : Formula t.text pieces e) :
    Outcome.Both (fun code code' => t.Suited pieces ∧
      code = String.ofList (fillText t.texts pieces) ∧ code' = String.ofList
        (fillText t'.texts pieces)) t.render t'.render := by
  have cut' : textPieces [] t'.text.toList = .ok pieces := swaps.text ▸ formula.cut
  have bound (n : String) : (t'.bindings.get? n).isSome = (t.bindings.get? n).isSome := by
    by_cases same : n = "in" ++ i.repr
    · rw [same, swaps.connector, swaps.literal]
      rfl
    · rw [swaps.others n same]
  refine .of_iff ?_ ?_
  · constructor
    · rintro ⟨code, rendered⟩
      have all := ((render_eq_ok formula.cut).mp rendered).1
      exact ⟨_, (render_eq_ok cut').mpr ⟨fun name member => (bound _).trans (all name member), rfl⟩⟩
    · rintro ⟨code, rendered⟩
      have all := ((render_eq_ok cut').mp rendered).1
      exact ⟨_, (render_eq_ok formula.cut).mpr ⟨fun name member => (bound _).symm.trans
        (all name member), rfl⟩⟩
  · intro code code' rendered rendered'
    obtain ⟨all, rfl⟩ := (render_eq_ok formula.cut).mp rendered
    obtain ⟨-, rfl⟩ := (render_eq_ok cut').mp rendered'
    refine ⟨fun name member => ?_, rfl, rfl⟩
    obtain ⟨value, found⟩ := Option.isSome_iff_exists.mp (all name member)
    have known := swaps.texts _ _ found
    rwa [Template.texts, found]

end Swaps

def Scans (t : Template) (pieces : List Piece) : Prop :=
  ∀ name, .slot name ∈ pieces → Kernel.Scans (t.texts (String.ofList name))

theorem slot_mem_assigned {name : List Char} : .slot name ∈ assigned pieces ↔
    .slot name ∈ pieces := by
  unfold assigned
  split
  · simp
  · rfl

theorem Formula.text {text : String} {e : Expr} (formula : Formula text pieces e)
    (texts : String → List Char) :
    ("__out = " ++ String.ofList (fillText texts pieces)).toList = fillText texts
      (assigned pieces) := by
  obtain ⟨tokens, sound, -⟩ := formula.parses
  have walled := sound.walled
  rw [String.toList_append, String.toList_ofList]
  unfold assigned at walled ⊢
  split
  · simp [fillText]
  next other =>
    -- A kernel that begins with a slot would not be walled.
    split at walled
    · exact absurd rfl (other _ _)
    · cases walled with
      | last chars => exact absurd rfl (other _ _)
      | slot _ => exact absurd rfl (other _ _)

theorem Formula.parse {e : Expr} (formula : Formula t.text pieces e) (texts : t.Suited pieces) :
    (t.Scans pieces → Assignment.parse ("__out = " ++ String.ofList (fillText t.texts pieces)) =
      .ok ⟨"__out", e.fill (Filling.ofTexts t.texts).leaf⟩) ∧ (¬ t.Scans pieces →
        ¬ (Assignment.parse ("__out = " ++ String.ofList (fillText t.texts pieces))).Succeeds) := by
  obtain ⟨tokens, sound, parsed⟩ := formula.parses
  have filled := parse_filled sound parsed (fun name member inside scanned =>
    (texts name (slot_mem_assigned.mp member)).reads (sound.slots name member) scanned)
      (formula.text t.texts)
  constructor
  · intro scans
    exact filled.1 fun name member => scans name (slot_mem_assigned.mp member)
  · intro unread
    simp only [Scans, not_forall] at unread
    obtain ⟨name, member, unread⟩ := unread
    exact filled.2 name (slot_mem_assigned.mpr member) unread

namespace Swaps

variable {i : Nat} {v : Datum} {t t' : Template} {pieces : List Piece} {e : Expr}

theorem slotTexts (swaps : Swaps i v t t') (whole : Whole v)
    (texts : t.Suited pieces) : t'.Suited pieces := by
  intro name member
  by_cases same : String.ofList name = "in" ++ i.repr
  · rw [same, swaps.texts_literal]
    exact .literal i whole
  · rw [swaps.texts_eq same]
    exact texts name member

theorem scans_iff (swaps : Swaps i v t t') (written : Written v)
    (slots : ∀ name, .slot name ∈ pieces → String.ofList name ∈ slotNames) :
    t.Scans pieces ↔ t'.Scans pieces := by
  refine forall_congr' fun name => forall_congr' fun member => ?_
  by_cases same : String.ofList name = "in" ++ i.repr
  · have slot := slots name member
    rw [same] at slot ⊢
    rw [swaps.texts_literal, swaps.texts_connector]
    obtain ⟨x, ⟨tokens, fuel, scanned, -⟩, -⟩ := denotes_datum written
    exact ⟨fun _ => ⟨tokens, scanned⟩, fun _ => ⟨_, (scanAll_connector (few_slots slot)).1⟩⟩
  · rw [swaps.texts_eq same]

theorem both_parse (swaps : Swaps i v t t') (whole : Whole v) (written : Written v)
    (formula : Formula t.text pieces e) (texts : t.Suited pieces) :
    Outcome.Both (fun a a' => t.Scans pieces ∧
      a = ⟨"__out", e.fill (Filling.ofTexts t.texts).leaf⟩ ∧
      a' = ⟨"__out", e.fill (Filling.ofTexts t'.texts).leaf⟩)
      (Assignment.parse ("__out = " ++ String.ofList (fillText t.texts pieces)))
      (Assignment.parse ("__out = " ++ String.ofList (fillText t'.texts pieces))) := by
  obtain ⟨reads, fails⟩ := formula.parse texts
  obtain ⟨reads', fails'⟩ := (swaps.text.symm ▸ formula : Formula t'.text pieces e).parse
    (swaps.slotTexts whole texts)
  have either : t.Scans pieces ↔ t'.Scans pieces := swaps.scans_iff written fun name member => by
    obtain ⟨tokens, sound, -⟩ := formula.parses
    exact sound.slots name (slot_mem_assigned.mpr member)
  by_cases scans : t.Scans pieces
  · rw [reads scans, reads' (either.mp scans)]
    exact .gives ⟨scans, rfl, rfl⟩
  · exact .of_not (fails scans) (fails' (mt either.mpr scans))

section

variable {scope scope' : Scope}

theorem value_cases (swaps : Swaps i v t t') (written : Written v)
    (lacks : Scope.Lacks ("__in" ++ i.repr) v scope scope') (scans : t.Scans pieces)
    (nan : ∀ d, scope.value? "NaN" = some d → d.Signed) {n : List Char} (member : .slot n ∈ pieces)
    (slot : String.ofList n ∈ slotNames)
    (known : SlotText (String.ofList n) (t.texts (String.ofList n))) :
    (String.ofList n = "in" ++ i.repr ∧ (scope.fill (.ofTexts t.texts)).value? (String.ofList n) =
      some v ∧ (scope'.fill (.ofTexts t'.texts)).value? (String.ofList n) = some (asRead v)) ∨
      ((scope'.fill (.ofTexts t'.texts)).value? (String.ofList n) =
        (scope.fill (.ofTexts t.texts)).value? (String.ofList n) ∧
        ∀ d, (scope.fill (.ofTexts t.texts)).value? (String.ofList n) = some d →
          (String.ofList n = Expr.exponentName → d.Signed) ∧
          (d.Small ∨ ∃ k, scope.value? ("__in" ++ Nat.repr k) = some d)) := by
  obtain ⟨inside, scanned⟩ := scans n member
  generalize String.ofList n = n at *
  by_cases same : n = "in" ++ i.repr
  · subst same
    refine .inl ⟨rfl, ?_, scope'.fill_literal slot written swaps.texts_literal⟩
    rw [scope.fill_connector slot swaps.texts_connector, lacks.known]
  refine .inr ?_
  have texts' := swaps.texts_eq same
  generalize text : t.texts n = chars at *
  cases known with
  | connector k =>
    have other : "__in" ++ k.repr ≠ "__in" ++ i.repr := by
      intro alike
      exact same (by rw [(String.append_right_inj "__in").mp alike])
    rw [scope.fill_connector slot text, scope'.fill_connector slot texts', lacks.others _ other]
    exact ⟨rfl, fun d found => ⟨fun impossible => absurd impossible (slot_ne_exponent k),
      .inr ⟨k, found⟩⟩⟩
  | literal k whole =>
    have readable := written_of_scanAll whole scanned
    rw [scope.fill_literal slot readable text, scope'.fill_literal slot readable texts']
    refine ⟨rfl, fun d found => ⟨fun impossible => absurd impossible (slot_ne_exponent k), .inl ?_⟩⟩
    cases found
    exact small_asRead _
  | exponent legible =>
    obtain ⟨x, fuel, read, numeric⟩ := legible inside scanned
    have reads := reads_of_expression fuel read
    rw [scope.fill_value slot (text ▸ scanned) reads, scope'.fill_value slot (texts' ▸ scanned)
      reads]
    have agree : ∀ name ∈ x.names, scope'.value? name = scope.value? name := by
      refine fun name named => lacks.others name ?_
      obtain rfl := mem_singleton.mp (numeric.names named)
      intro alike
      have lists := congrArg String.toList alike
      rw [String.toList_append] at lists
      cases lists
    have values := x.eval_agree agree lacks.elements
    generalize read : x.eval scope = o at values
    generalize x.eval scope' = o' at values
    cases values with
    | fails => exact ⟨rfl, nofun⟩
    | gives alike =>
      refine ⟨by rw [alike], ?_⟩
      rintro d ⟨⟩
      have signed := numeric.signed scope nan _ read
      exact ⟨fun _ => signed, .inl signed.small⟩

theorem value_of_name (formula : Formula t.text pieces e) (swaps : Swaps i v t t')
    (written : Written v)
    (lacks : Scope.Lacks ("__in" ++ i.repr) v scope scope') (scans : t.Scans pieces)
    (nan : ∀ d, scope.value? "NaN" = some d → d.Signed)
    (texts : t.Suited pieces) (member : n ∈ e.names) :
    (n = "in" ++ i.repr ∧ (scope.fill (.ofTexts t.texts)).value? n = some v ∧
        (scope'.fill (.ofTexts t'.texts)).value? n = some (asRead v)) ∨
      ((scope'.fill (.ofTexts t'.texts)).value? n = (scope.fill (.ofTexts t.texts)).value? n ∧
        ∀ d, (scope.fill (.ofTexts t.texts)).value? n = some d →
          (n = Expr.exponentName → d.Signed) ∧
          (d.Small ∨ ∃ k, scope.value? ("__in" ++ Nat.repr k) = some d)) := by
  have listed := formula.names n member
  obtain ⟨tokens, sound, -⟩ := formula.parses
  have cases_ := swaps.value_cases written lacks scans nan listed
    (sound.slots _ (slot_mem_assigned.mpr listed)) (texts _ listed)
  rwa [String.ofList_toList] at cases_

theorem both_eval (swaps : Swaps i v t t') (formula : Formula t.text pieces e) (written : Written v)
    (alike : asRead v = v)
    (lacks : Scope.Lacks ("__in" ++ i.repr) v scope scope') (scans : t.Scans pieces)
    (nan : ∀ d, scope.value? "NaN" = some d → d.Signed) (texts : t.Suited pieces) :
    Outcome.Both Eq ((e.fill (Filling.ofTexts t.texts).leaf).eval scope)
      ((e.fill (Filling.ofTexts t'.texts).leaf).eval scope') := by
  refine Outcome.Both.congr (e.eval_agree (fun n member => ?_) ?_) (e.eval_fill _ scope)
    (e.eval_fill _ scope')
  · rcases value_of_name formula swaps written lacks scans nan texts member with
      ⟨-, here, there⟩ | ⟨same, -⟩
    · rw [here, there, alike]
    · exact same
  · exact lacks.elements

theorem both_eval_close (swaps : Swaps i v t t') (formula : Formula t.text pieces e)
    (written : Written v) (shallow : e.Shallow)
    (lacks : Scope.Lacks ("__in" ++ i.repr) v scope scope') (scans : t.Scans pieces)
    (nan : ∀ d, scope.value? "NaN" = some d → d.Signed) (texts : t.Suited pieces)
    (small : e.ordered = true → ∀ k d, scope.value? ("__in" ++ Nat.repr k) = some d → d.Small) :
    Outcome.Both (Close e.wraps) ((e.fill (Filling.ofTexts t.texts).leaf).eval scope)
      ((e.fill (Filling.ofTexts t'.texts).leaf).eval scope') := by
  refine Outcome.Both.congr (Expr.eval_close shallow fun n member => ?_) (e.eval_fill _ scope)
    (e.eval_fill _ scope')
  rcases value_of_name formula swaps written lacks scans nan texts member with
    ⟨rfl, here, there⟩ | ⟨same, known⟩
  · rw [here, there]
    refine .some ⟨sameNumber_asRead written, fun ordered => small ordered i v lacks.known, ?_⟩
    exact fun impossible => absurd impossible (slot_ne_exponent i)
  · rw [same]
    generalize (scope.fill (.ofTexts t.texts)).value? n = found at known
    cases found with
    | none => exact .none
    | some d =>
      obtain ⟨exponent, bounded⟩ := known d rfl
      refine .some ⟨.same d, fun ordered => ?_, exponent⟩
      rcases bounded with bounded | ⟨k, read⟩
      · exact bounded
      · exact small ordered k d read

end

end Swaps

end Template

namespace Arithmetic

theorem bindParams_bound {params : Params} {slots : List String} {t' : Template}
    (bound : bindParams params slots t = .ok t') :
    t'.text = t.text ∧ ∀ slot value, t'.bindings.get? slot = some value →
      t.bindings.get? slot = some value ∨
      (slot ∈ slots ∧ isInputSlot slot = false ∧ paramText params slot = .ok value) := by
  induction slots generalizing t with
  | nil =>
    cases bound
    exact ⟨rfl, fun slot value found => .inl found⟩
  | cons first rest ih =>
    rw [bindParams] at bound
    split at bound
    · obtain ⟨text, later⟩ := ih bound
      exact ⟨text, fun slot value found => (later slot value found).imp_right fun known =>
        ⟨mem_cons_of_mem _ known.1, known.2⟩⟩
    next other =>
      obtain ⟨value, read, bound⟩ := bind_eq_ok.mp bound
      obtain ⟨text, later⟩ := ih bound
      refine ⟨text, fun slot found known => ?_⟩
      rcases later slot found known with earlier | ⟨member, rest⟩
      · rw [Template.bind, Dict.get?_insert] at earlier
        split at earlier
        next same =>
          cases earlier
          subst same
          exact .inr ⟨mem_cons_self, by simpa using other, read⟩
        · exact .inl earlier
      · exact .inr ⟨mem_cons_of_mem _ member, rest⟩

end Arithmetic

end TraceFlow
