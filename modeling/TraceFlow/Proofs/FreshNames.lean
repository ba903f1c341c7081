import TraceFlow.Proofs.NewArrays

set_option autoImplicit false

namespace TraceFlow

open List

variable {vs : List Var}

namespace Naming

-- The number that letters stand for behind a number written before them.
def numeral (total : Nat) (letters : List Char) : Nat :=
  letters.foldl (fun total c => total * 26 + (c.toNat - 'a'.toNat)) total

theorem letter_mod (n : Nat) : letter (n % 26) = letter n := by
  rw [letter, letter, Nat.mod_mod]

theorem forall_letter {P : Char → Prop} (each : ∀ k < 26, P (letter k)) (n : Nat) : P (letter n) :=
  letter_mod n ▸ each (n % 26) (Nat.mod_lt _ (by decide))

theorem toNat_letter (n : Nat) : (letter n).toNat - 'a'.toNat = n % 26 := by
  have alphabet : ∀ k < 26, (letter k).toNat - 'a'.toNat = k := by decide
  rw [← letter_mod, alphabet _ (Nat.mod_lt _ (by decide))]

theorem numeral_lettersFrom {fuel n : Nat} (enough : n < 26 ^ fuel) (tail : List Char) :
    numeral 0 (lettersFrom fuel n tail) = numeral n tail := by
  induction fuel generalizing n tail with
  | zero =>
    obtain rfl : n = 0 := by simpa using enough
    rfl
  | succ fuel ih =>
    rw [lettersFrom]
    split
    next single =>
      rw [numeral, foldl_cons, toNat_letter, Nat.zero_mul, Nat.zero_add, Nat.mod_eq_of_lt single]
      rfl
    · rw [ih (by rw [Nat.pow_succ] at enough; omega), numeral, foldl_cons, toNat_letter,
        Nat.div_add_mod']
      rfl

theorem proposed_injective : Function.Injective proposed := by
  intro m n same
  have enough (n : Nat) : n < 26 ^ (n + 1) :=
    (Nat.lt_succ_self n).trans (Nat.lt_pow_self (by decide))
  have letters := congrArg (fun name => numeral 0 name.toList) same
  simp only [proposed, String.toList_ofList, numeral_lettersFrom (enough _)] at letters
  exact letters

theorem mem_lettersFrom {fuel n : Nat} {tail : List Char} {c : Char}
    (member : c ∈ lettersFrom fuel n tail) : c ∈ tail ∨ ∃ k, c = letter k := by
  induction fuel generalizing n tail with
  | zero => exact .inl member
  | succ fuel ih =>
    have cons (listed : c ∈ letter n :: tail) : c ∈ tail ∨ ∃ k, c = letter k := by
      rcases mem_cons.mp listed with rfl | later
      · exact .inr ⟨n, rfl⟩
      · exact .inl later
    rw [lettersFrom] at member
    split at member
    · exact cons member
    · rcases ih member with listed | known
      · exact cons listed
      · exact .inr known

theorem lettersFrom_ne_nil (fuel n : Nat) (tail : List Char) :
    lettersFrom (fuel + 1) n tail ≠ [] := by
  induction fuel generalizing n tail with
  | zero => rw [lettersFrom]; split <;> exact cons_ne_nil _ _
  | succ fuel ih =>
    rw [lettersFrom]
    split
    · exact cons_ne_nil _ _
    · exact ih _ _

theorem letters_proposed (n : Nat) : ∃ k rest, (proposed n).toList = letter k :: rest ∧ ∀ c ∈ rest,
    ∃ k, c = letter k := by
  have all (c : Char) (member : c ∈ (proposed n).toList) : ∃ k, c = letter k := by
    rw [proposed, String.toList_ofList] at member
    exact (mem_lettersFrom member).resolve_left not_mem_nil
  cases written : (proposed n).toList with
  | nil =>
    rw [proposed, String.toList_ofList] at written
    exact absurd written (lettersFrom_ne_nil n n [])
  | cons c rest =>
    rw [written] at all
    obtain ⟨k, rfl⟩ := all c mem_cons_self
    exact ⟨k, rest, rfl, fun c member => all c (mem_cons_of_mem _ member)⟩

theorem fresh_cases (n : Nat) : (fresh n = proposed n ∧ isReserved (proposed n) = false) ∨
    fresh n = reservedMark ++ proposed n := by
  rw [fresh]
  cases reserved : isReserved (proposed n) with
  | false => exact .inl ⟨rfl, rfl⟩
  | true => exact .inr rfl

theorem proposed_ne_marked (m n : Nat) : proposed m ≠ reservedMark ++ proposed n := by
  intro same
  obtain ⟨k, rest, written, -⟩ := letters_proposed m
  have first := congrArg (fun name => name.toList.head?) same
  rw [String.toList_append, written] at first
  exact forall_letter (P := fun c => c ≠ '_') (by decide) k (Option.some.inj first)

theorem fresh_injective : Function.Injective fresh := by
  intro m n same
  rcases fresh_cases m with ⟨left, -⟩ | left <;> rcases fresh_cases n with ⟨right, -⟩ | right <;>
    rw [left, right] at same
  · exact proposed_injective same
  · exact absurd same (proposed_ne_marked m n)
  · exact absurd same.symm (proposed_ne_marked n m)
  · exact proposed_injective (String.append_right_inj _ |>.mp same)

theorem isIdentifier_append {mark name : String} (marked : isIdentifier mark = true)
    (named : isIdentifier name = true) : isIdentifier (mark ++ name) = true := by
  rw [isIdentifier] at marked named ⊢
  rw [String.toList_append]
  rcases first : mark.toList with _ | ⟨c, rest⟩ <;> rw [first] at marked
  · cases marked
  rcases second : name.toList with _ | ⟨c', rest'⟩ <;> rw [second] at named
  · cases named
  simp only [cons_append, Bool.and_eq_true, all_append, all_cons] at marked named ⊢
  have inner : isNameChar c' = true := by
    rw [isNameChar, Char.isAlphanum, Bool.or_right_comm, named.1, Bool.true_or]
  exact ⟨marked.1, marked.2, inner, named.2⟩

theorem isReserved_append {mark : String} (marked : mark.toList.head? = some '_') (name : String) :
    isReserved (mark ++ name) = false := by
  have plain : ∀ name ∈ reserved, name.toList.head? ≠ some '_' := by decide
  rw [isReserved, contains_eq_mem, decide_eq_false_iff_not]
  intro member
  refine plain _ member ?_
  rw [String.toList_append, head?_append, marked]
  rfl

theorem isIdentifier_fresh (n : Nat) : isIdentifier (fresh n) = true := by
  have plain : isIdentifier (proposed n) = true := by
    obtain ⟨k, rest, written, letters⟩ := letters_proposed n
    rw [isIdentifier, written]
    simp only [Bool.and_eq_true, all_eq_true]
    refine ⟨forall_letter (P := fun c => (c.isAlpha || decide (c = '_')) = true) (by decide) k,
      fun c member => ?_⟩
    obtain ⟨k, rfl⟩ := letters c member
    exact forall_letter (P := fun c => isNameChar c = true) (by decide) k
  rcases fresh_cases n with ⟨same, -⟩ | same
  · rw [same, plain]
  · rw [same, isIdentifier_append (by decide) plain]

theorem isReserved_fresh (n : Nat) : isReserved (fresh n) = false := by
  rcases fresh_cases n with ⟨same, free⟩ | same
  · rw [same, free]
  · rw [same, isReserved_append (by decide)]

end Naming

-- Variables that can all have arrays: they are used and differ, and those that ask for a name ask
-- for one of their own that is neither reserved nor begins like the names that are made here.
structure Var.Nameable (vs : List Var) : Prop where
  ids : (vs.map Var.id).Nodup
  used : ∀ v ∈ vs, v.isDropped = false
  asked : (vs.filterMap Var.explicitName?).Nodup
  proper : ∀ v ∈ vs, ∀ name, v.explicitName? = some name → Naming.isIdentifier name = true ∧
    Naming.isReserved name = false ∧
    ¬ ['_', '_'] <+: name.toList ∧ ∀ k, name ≠ Naming.fresh k

theorem Var.Nameable.tail {v : Var} (nameable : Nameable (v :: vs)) : Nameable vs where
  ids := (nodup_cons.mp nameable.ids).2
  used w member := nameable.used w (mem_cons_of_mem _ member)
  asked := nameable.asked.sublist (List.Sublist.filterMap _ (sublist_cons_self v vs))
  proper w member := nameable.proper w (mem_cons_of_mem _ member)

theorem Var.Nameable.append_right {later : List Var} (nameable : Nameable (vs ++ later)) :
    Nameable later := by
  induction vs with
  | nil => exact nameable
  | cons v rest ih => exact ih nameable.tail

theorem Var.Nameable.traced (ids : (vs.map Var.id).Nodup) (traced : ∀ v ∈ vs, v.kind = .traced) :
    Nameable vs := by
  have unasked (v : Var) (member : v ∈ vs) : v.explicitName? = none := by
    rw [Var.explicitName?, traced v member]
  refine ⟨ids, fun v member => by rw [Var.isDropped, traced v member]; rfl, ?_,
    fun v member name asks => ?_⟩
  · rw [filterMap_eq_nil_iff.mpr unasked]
    exact nodup_nil
  · rw [unasked v member] at asks
    cases asks

namespace Builder

theorem freshFrom_cases (taken : String → Bool) (fuel n : Nat) :
    ∃ k ≤ fuel, freshFrom taken fuel n = Naming.fresh (n + k) ∧
    (∀ j < k, taken (Naming.fresh (n + j)) = true) ∧
    (k < fuel → taken (Naming.fresh (n + k)) = false) := by
  induction fuel generalizing n with
  | zero => exact ⟨0, Nat.le_refl 0, rfl, by simp, by simp⟩
  | succ fuel ih =>
    rw [freshFrom]
    split
    next used =>
      obtain ⟨k, few, found, before, free⟩ := ih (n + 1)
      simp only [Nat.add_right_comm n 1] at found before free
      refine ⟨k + 1, by omega, found, fun j earlier => ?_, fun fewer => free (by omega)⟩
      cases j with
      | zero => exact used
      | succ j => exact before j (by omega)
    next free => exact ⟨0, Nat.zero_le _, rfl, by simp, fun _ => by simpa using free⟩

-- A draft in which none of the variables has an array yet, nor a name that one of them will get.
structure Awaits (d : Draft) (mapped : Nat) (vs : List Var) : Prop where
  unmapped : ∀ v ∈ vs, d.nameOf? v = none
  taken : ∀ name, d.graph.arrays.contains name = true → (∃ k < mapped, name = Naming.fresh k) ∨
    (∀ k, name ≠ Naming.fresh k) ∧ ∀ v ∈ vs, v.explicitName? ≠ some name

theorem Awaits.new (title : String) (mapped : Nat) (vs : List Var) :
    Awaits (Draft.new title) mapped vs :=
  ⟨fun _ _ => rfl, fun _ present => by cases present⟩

variable {d d' : Draft} {mapped : Nat} {v : Var} {vs : List Var}

theorem Awaits.free (awaits : Awaits d mapped (v :: vs)) (nameable : Var.Nameable (v :: vs)) :
    d.graph.arrays.contains (d.proposed mapped v "") = false ∧
      (v.explicitName? = some (d.proposed mapped v "") ∨ v.explicitName? = none ∧
        d.proposed mapped v "" = Naming.fresh mapped) := by
  have first : v ∈ v :: vs := mem_cons_self
  rw [Draft.proposed, awaits.unmapped v first]
  cases asks : v.explicitName? with
  | some name =>
    refine ⟨?_, .inl rfl⟩
    dsimp only
    by_contra present
    rw [Bool.not_eq_false] at present
    rcases awaits.taken name present with ⟨k, -, same⟩ | ⟨-, others⟩
    · exact (nameable.proper v first name asks).2.2.2 k same
    · exact others v first asks
  | none =>
    dsimp only
    have free : d.graph.arrays.contains (Naming.fresh mapped) = false := by
      by_contra present
      rw [Bool.not_eq_false] at present
      rcases awaits.taken _ present with ⟨k, before, same⟩ | ⟨others, -⟩
      · exact absurd (Naming.fresh_injective same) (by omega)
      · exact others mapped rfl
    have found : freshFrom (fun name => d.graph.arrays.contains ("" ++ name)) d.graph.arrays.size
      mapped = Naming.fresh mapped := by
      cases d.graph.arrays.size with
      | zero => rfl
      | succ fuel => rw [freshFrom]; simp [free]
    rw [found]
    exact ⟨free, .inr ⟨rfl, rfl⟩⟩

theorem Awaits.newArray (awaits : Awaits d mapped (v :: vs)) (nameable : Var.Nameable (v :: vs))
    {array : Descriptor} (dense : Descriptor.dense (arrayShape v) v.elem = .ok array) :
    ∃ name, NewArray d mapped v "" name array ∧ Awaits ((d.withArray name array).naming v name)
      (mapped + 1) vs := by
  have first : v ∈ v :: vs := mem_cons_self
  obtain ⟨free, source⟩ := awaits.free nameable
  have new (w : Var) (member : w ∈ vs) : w.id ≠ v.id :=
    fun same => (nodup_cons.mp nameable.ids).1 (same ▸ mem_map_of_mem member)
  refine ⟨d.proposed mapped v "", ?_, ⟨fun w member => ?_, fun name present => ?_⟩⟩
  · rcases source with asks | ⟨-, fresh⟩
    · obtain ⟨identifier, allowed, -⟩ := nameable.proper v first _ asks
      exact ⟨nameable.used v first, (String.empty_append).symm, free, identifier, allowed, dense⟩
    · refine ⟨nameable.used v first, (String.empty_append).symm, free, ?_, ?_, dense⟩
      · rw [fresh]
        exact Naming.isIdentifier_fresh mapped
      · rw [fresh]
        exact Naming.isReserved_fresh mapped
  · rw [nameOf?_naming, if_neg (new w member)]
    exact awaits.unmapped w (mem_cons_of_mem _ member)
  · change (d.graph.arrays.insert _ array).contains name = true at present
    rw [Dict.contains, Dict.get?_insert] at present
    split at present
    next same =>
      subst same
      rcases source with asks | ⟨-, fresh⟩
      · refine .inr ⟨(nameable.proper v first _ asks).2.2.2, fun w member also => ?_⟩
        have asked := nameable.asked
        rw [filterMap_cons, asks] at asked
        exact (nodup_cons.mp asked).1 (mem_filterMap.mpr ⟨w, member, also⟩)
      · exact .inl ⟨mapped, Nat.lt_succ_self _, fresh⟩
    · rcases awaits.taken name present with ⟨k, before, same⟩ | ⟨unfresh, others⟩
      · exact .inl ⟨k, Nat.lt_succ_of_lt before, same⟩
      · exact .inr ⟨unfresh, fun w member => others w (mem_cons_of_mem _ member)⟩

theorem Awaits.exists_creates {later : List Var} (awaits : Awaits d mapped (vs ++ later))
    (nameable : Var.Nameable (vs ++ later))
    (dense : ∀ v ∈ vs, ∃ array, Descriptor.dense (arrayShape v) v.elem = .ok array) :
    ∃ names d', Creates "" d mapped vs names d' ∧ Awaits d' (mapped + vs.length) later := by
  induction vs generalizing d mapped with
  | nil => exact ⟨[], d, .nil d mapped, awaits⟩
  | cons v vs ih =>
    obtain ⟨⟨array, first⟩, dense⟩ := forall_mem_cons.mp dense
    obtain ⟨name, made, awaits'⟩ := Awaits.newArray awaits nameable first
    obtain ⟨names, d', creates, awaits''⟩ := ih awaits' nameable.tail dense
    refine ⟨name :: names, d', .cons (awaits.unmapped v mem_cons_self) made creates, ?_⟩
    rwa [length_cons, Nat.add_comm vs.length, ← Nat.add_assoc]

theorem Creates.name_cases {names : List String} (creates : Creates "" d mapped vs names d')
    {name : String} (member : name ∈ names) :
    (∃ k, name = Naming.fresh k) ∨ ∃ v ∈ vs, v.explicitName? = some name := by
  induction creates with
  | nil => cases member
  | @cons d d' mapped v vs first names array unmapped made _ ih =>
    rcases mem_cons.mp member with rfl | later
    · rw [made.proposed, String.empty_append, Draft.proposed, unmapped]
      cases asks : v.explicitName? with
      | some asked => exact .inr ⟨v, mem_cons_self, asks⟩
      | none =>
        obtain ⟨k, -, found, -⟩ :=
          freshFrom_cases (fun name => d.graph.arrays.contains ("" ++ name)) d.graph.arrays.size
            mapped
        exact .inl ⟨_, found⟩
    · rcases ih later with fresh | ⟨w, listed, asks⟩
      · exact .inl fresh
      · exact .inr ⟨w, mem_cons_of_mem _ listed, asks⟩

end Builder

end TraceFlow
