import Mathlib.Data.List.Forall2
import Mathlib.Data.String.Basic
import Mathlib.Tactic.SplitIfs
import TraceFlow.Dict

set_option autoImplicit false

namespace TraceFlow

open List

theorem Text.repr_inj {m n : Nat} : m.repr = n.repr ↔ m = n := by
  refine ⟨fun same => ?_, congrArg Nat.repr⟩
  have digits : Nat.toDigits 10 m = Nat.toDigits 10 n := by
    rw [← Nat.toList_repr, ← Nat.toList_repr, same]
  rw [← @Nat.ofDigitChars_toDigits 10 m (by decide) (by decide), digits,
    Nat.ofDigitChars_toDigits (by decide) (by decide)]

namespace Dict

variable {α : Type}

variable {key other : String} {value : α} {entries pairs : List (String × α)} {d : Dict α}

theorem mem_keys_insertEntry : other ∈ (insertEntry key value entries).map Prod.fst ↔ other = key ∨
    other ∈ entries.map Prod.fst := by
  induction entries with
  | nil => simp [insertEntry]
  | cons entry rest ih =>
    obtain ⟨k, v⟩ := entry
    rw [insertEntry]
    split
    next same => simp [same]
    · split
      · simp
      · simp only [map_cons, mem_cons, ih]
        grind

theorem mem_keys_insert : other ∈ (d.insert key value).keys ↔ other = key ∨ other ∈ d.keys :=
  mem_keys_insertEntry

theorem lookup_adjustEntry (key other : String) (f : α → α) (entries : List (String × α)) :
    lookup other (adjustEntry key f entries) = if other = key then (lookup other entries).map f else
    lookup other entries := by
  induction entries with
  | nil => simp [adjustEntry, lookup]
  | cons entry rest ih => grind [adjustEntry, lookup]

theorem get?_adjust (d : Dict α) (key other : String) (f : α → α) :
    (d.adjust key f).get? other = if other = key then (d.get? other).map f else d.get? other :=
  lookup_adjustEntry key other f d.entries

theorem mem_insertEntry {k : String} {v : α} (member : (k, v) ∈ insertEntry key value entries) :
    (k, v) = (key, value) ∨ (k, v) ∈ entries := by
  induction entries with
  | nil => exact .inl (mem_singleton.mp member)
  | cons entry rest ih => grind [insertEntry]

theorem mem_of_lookup (found : lookup key entries = some value) : (key, value) ∈ entries := by
  induction entries with
  | nil => cases found
  | cons entry rest ih => grind [lookup]

theorem mem_of_mem_ofList {entry : String × α} (member : entry ∈ (ofList pairs).entries) :
    entry ∈ pairs := by
  have all : ∀ (pairs : List (String × α)) (d : Dict α),
      ∀ entry ∈ (pairs.foldl (fun d pair => d.insert pair.1 pair.2) d).entries, entry ∈ d.entries ∨
      entry ∈ pairs := by
    intro pairs
    induction pairs with
    | nil => exact fun d entry member => .inl member
    | cons pair rest ih =>
      intro d entry member
      rcases ih _ entry member with inserted | later
      · rcases mem_insertEntry inserted with same | known
        · exact .inr (mem_cons.mpr (.inl same))
        · exact .inl known
      · exact .inr (mem_cons_of_mem _ later)
  rcases all pairs empty entry member with none | listed
  · cases none
  · exact listed

theorem mem_of_get?_ofList (found : (ofList pairs).get? key = some value) : (key, value) ∈ pairs :=
  mem_of_mem_ofList (mem_of_lookup found)

theorem mem_keys_ofList : key ∈ (ofList pairs).keys ↔ key ∈ pairs.map Prod.fst := by
  have all (d : Dict α) : key ∈ (pairs.foldl (fun d pair => d.insert pair.1 pair.2) d).keys ↔
    key ∈ d.keys ∨ key ∈ pairs.map Prod.fst := by
    induction pairs generalizing d with
    | nil => simp
    | cons pair rest ih =>
      rw [foldl_cons, ih, mem_keys_insert, map_cons, mem_cons]
      tauto
  rw [ofList, all]
  simp [keys, empty]

def Sorted (d : Dict α) : Prop :=
  d.entries.Pairwise fun entry later => entry.1 < later.1

theorem sorted_empty : Sorted (empty : Dict α) := .nil

theorem sorted_insert (sorted : d.Sorted) (key : String) (value : α) :
    (d.insert key value).Sorted := by
  have general (entries : List (String × α)) (sorted : entries.Pairwise fun entry later =>
    entry.1 < later.1) :
      (insertEntry key value entries).Pairwise fun entry later => entry.1 < later.1 := by
    induction sorted with
    | nil => exact pairwise_singleton _ _
    | @cons entry rest before _ ih =>
      rw [insertEntry]
      split
      next same => exact .cons (fun later member => same ▸ before later member) ‹_›
      next apart =>
        split
        next less =>
          refine .cons (fun later member => ?_) (.cons before ‹_›)
          rcases mem_cons.mp member with rfl | there
          · exact less
          · exact less.trans (before later there)
        next notLess =>
          refine .cons (fun later member => ?_) ih
          rcases mem_insertEntry member with same | there
          · obtain rfl : later = (key, value) := same
            exact lt_of_le_of_ne (not_lt.mp notLess) apart
          · exact before later there
  exact general d.entries sorted

theorem sorted_adjust (sorted : d.Sorted) (key : String) (f : α → α) : (d.adjust key f).Sorted := by
  have keys (entries : List (String × α)) :
    (adjustEntry key f entries).map Prod.fst = entries.map Prod.fst := by
    induction entries with
    | nil => rfl
    | cons entry rest ih => grind [adjustEntry]
  rw [Sorted, adjust, ← pairwise_map (f := Prod.fst) (R := (· < ·)), keys, pairwise_map]
  exact sorted

theorem sorted_ofList (pairs : List (String × α)) : (ofList pairs).Sorted := by
  have general (d : Dict α) (sorted : d.Sorted) :
    (pairs.foldl (fun d pair => d.insert pair.1 pair.2) d).Sorted := by
    induction pairs generalizing d with
    | nil => exact sorted
    | cons pair rest ih => exact ih _ (sorted_insert sorted pair.1 pair.2)
  exact general empty sorted_empty

theorem Sorted.nodup_keys (sorted : d.Sorted) : d.keys.Nodup := by
  rw [keys, List.Nodup, pairwise_map]
  exact sorted.imp fun less same => absurd (same ▸ less) (lt_irrefl _)

theorem lookup_eq_some (distinct : (entries.map Prod.fst).Nodup) : lookup key entries = some value ↔
    (key, value) ∈ entries := by
  refine ⟨mem_of_lookup, fun member => ?_⟩
  induction entries with
  | nil => cases member
  | cons entry rest ih =>
    rw [map_cons, nodup_cons] at distinct
    rw [lookup]
    rcases mem_cons.mp member with rfl | there
    · rw [if_pos rfl]
    · have apart : entry.1 ≠ key := fun same => distinct.1 (mem_map.mpr ⟨_, there, same.symm⟩)
      rw [if_neg apart, ih distinct.2 there]

theorem Sorted.mem_entries (sorted : d.Sorted) : (key, value) ∈ d.entries ↔
    d.get? key = some value :=
  (lookup_eq_some sorted.nodup_keys).symm

theorem lookup_eq_none : lookup key entries = none ↔ key ∉ entries.map Prod.fst := by
  induction entries with
  | nil => simp [lookup]
  | cons entry rest ih => grind [lookup]

theorem get?_eq_none_of_absent {β : Type} {d : Dict α} {d' : Dict β}
    (comes : d.contains key = true → d'.contains key = true)
    (absent : d'.contains key = false) : d.get? key = none := by
  cases found : d.get? key with
  | none => rfl
  | some value =>
    rw [comes (by rw [contains, found]; rfl)] at absent
    cases absent

-- The same keys in both, and related values at each of them.
def Forall₂ {β : Type} (related : String → α → β → Prop) (d : Dict α) (d' : Dict β) : Prop :=
  List.Forall₂ (fun entry entry' => entry'.1 = entry.1 ∧ related entry.1 entry.2 entry'.2) d.entries
    d'.entries

theorem forall₂_same {related : String → α → α → Prop} (each : ∀ key value, related key value value)
    (d : Dict α) : d.Forall₂ related d :=
  List.forall₂_same.mpr fun entry _ => ⟨rfl, each entry.1 entry.2⟩

namespace Forall₂

variable {β : Type} {related : String → α → β → Prop} {d' : Dict β}

theorem get? (all : d.Forall₂ related d') (key : String) : Option.Rel (related key) (d.get? key)
    (d'.get? key) := by
  unfold Forall₂ at all
  unfold Dict.get?
  generalize d.entries = entries, d'.entries = entries' at all
  induction all with
  | nil => exact .none
  | @cons entry entry' _ _ head _ ih =>
    rw [lookup, lookup, head.1]
    by_cases here : entry.1 = key
    · rw [if_pos here, if_pos here]
      exact .some (here ▸ head.2)
    · rwa [if_neg here, if_neg here]

theorem contains (all : d.Forall₂ related d') (key : String) :
    d'.contains key = d.contains key := by
  unfold Dict.contains
  exact match d.get? key, d'.get? key, all.get? key with
    | _, _, .none => rfl
    | _, _, .some _ => rfl

end Forall₂

end Dict

end TraceFlow
