import Mathlib.Algebra.Group.Nat.Defs
import Mathlib.Data.List.Infix
import TraceFlow.Fingerprint

set_option autoImplicit false

namespace TraceFlow

open List

variable {α β : Type}

namespace Encoding

-- The bytes of a value in the domain show where they end, whatever follows them.
def Framed (domain : α → Prop) (encode : α → List UInt8) : Prop :=
  ∀ ⦃a b⦄, domain a → domain b → ∀ {rest rest'}, encode a ++ rest = encode b ++ rest' → a = b ∧
    rest = rest'

-- A list in the domain, of a length that is a word.
def Listed (domain : α → Prop) (xs : List α) : Prop :=
  xs.length < sizeBound ∧ ∀ x ∈ xs, domain x

variable {domain : α → Prop} {encode : α → List UInt8}

theorem framed_word (count : Nat) : Framed (· < 256 ^ count) (word count) := by
  induction count with
  | zero =>
    intro m n small small' rest rest' same
    rw [Nat.pow_zero, Nat.lt_one_iff] at small small'
    exact ⟨small.trans small'.symm, same⟩
  | succ count ih =>
    intro m n small small' rest rest' same
    rw [Nat.pow_succ] at small small'
    obtain ⟨first, others⟩ := List.cons.inj same
    obtain ⟨high, rest⟩ := ih (show m / 256 < _ by omega) (show n / 256 < _ by omega) others
    have low := congrArg UInt8.toNat first
    simp at low
    exact ⟨by omega, rest⟩

theorem framed_size : Framed (· < sizeBound) size :=
  framed_word 8

theorem framed_choice {f : β → Nat} (injective : f.Injective) (few : ∀ b, f b < 256 ^ 4) :
    Framed (fun _ => True) fun b => choice (f b) := by
  intro a b _ _ rest rest' same
  exact (framed_word 4 (few a) (few b) same).imp_left fun equal => injective equal

theorem flatMap_inj {xs ys : List α} (length : xs.length = ys.length)
    (each : ∀ x ∈ xs, ∀ y ∈ ys, ∀ {rest rest'}, encode x ++ rest = encode y ++ rest' → x = y ∧
      rest = rest') {rest rest' : List UInt8}
    (same : xs.flatMap encode ++ rest = ys.flatMap encode ++ rest') : xs = ys ∧ rest = rest' := by
  induction xs generalizing ys with
  | nil =>
    obtain rfl := length_eq_zero_iff.mp length.symm
    exact ⟨rfl, same⟩
  | cons x xs ih =>
    obtain ⟨y, ys, rfl⟩ := exists_cons_of_length_eq_add_one length.symm
    rw [flatMap_cons, flatMap_cons, append_assoc, append_assoc] at same
    obtain ⟨rfl, others⟩ := each x mem_cons_self y mem_cons_self same
    obtain ⟨rfl, rest⟩ := ih (Nat.succ.inj length) (fun x here y there => each x (.tail _ here) y
      (.tail _ there)) others
    exact ⟨rfl, rest⟩

theorem framed_list (framed : Framed domain encode) : Framed (Listed domain) (list encode) := by
  intro xs ys inside inside' rest rest' same
  rw [list, list, append_assoc, append_assoc] at same
  obtain ⟨length, others⟩ := framed_size inside.1 inside'.1 same
  exact flatMap_inj length (fun x here y there => framed (inside.2 x here) (inside'.2 y there))
    others

theorem framed_option (framed : Framed domain encode) : Framed (fun x? => ∀ x ∈ x?, domain x)
    (option encode) := by
  intro x? y? inside inside' rest rest' same
  match x?, y? with
  | none, none => exact ⟨rfl, (List.cons.inj same).2⟩
  | none, some y => cases (List.cons.inj same).1
  | some x, none => cases (List.cons.inj same).1
  | some x, some y =>
    obtain ⟨rfl, others⟩ := framed (inside x rfl) (inside' y rfl) (List.cons.inj same).2
    exact ⟨rfl, others⟩

theorem framed_bool : Framed (fun _ => True) bool := by
  intro a b _ _ rest rest' same
  cases a <;> cases b <;> simp_all [bool]

theorem framed_int : Framed (fun i : Int => -indexBound ≤ i ∧ i < indexBound) int := by
  intro i j inside inside' rest rest' same
  have small (i : Int) : (i % sizeBound).toNat < sizeBound := by simp only [sizeBound]; omega
  obtain ⟨equal, others⟩ := framed_size (small i) (small j) same
  simp only [sizeBound, indexBound] at equal inside inside'
  exact ⟨by omega, others⟩

theorem framed_text : Framed (fun s => s.utf8ByteSize < sizeBound) text := by
  intro s s' inside inside' rest rest' same
  rw [text, text, append_assoc, append_assoc] at same
  obtain ⟨size, others⟩ := framed_size inside inside' same
  obtain ⟨bytes, others⟩ := append_inj others size
  exact ⟨String.toByteArray_inj.mp (ByteArray.ext (Array.toList_inj.mp bytes)), others⟩

-- A framed encoding is injective, and none of its words begins another.
theorem Framed.eq_of_isPrefix (framed : Framed domain encode) {a b : α} (inside : domain a)
    (inside' : domain b) (begins : encode a <+: encode b) : a = b := by
  obtain ⟨rest, same⟩ := begins
  exact (framed inside inside' (same.trans (append_nil _).symm)).1

end Encoding

open Encoding

-- Lengths, extents and strides are words.
def ArgSpec.Words (a : ArgSpec) : Prop :=
  Listed (· < sizeBound) a.shape ∧ ∀ strides ∈ a.strides?, Listed (· < sizeBound) strides

theorem ArgSpec.framed_encode : Framed Words encode := by
  have elem : Framed (fun _ => True) fun t : ElemType => choice t.rank :=
    framed_choice (by intro t t'; cases t <;> cases t' <;> simp [ElemType.rank])
      (by intro t; cases t <;> decide)
  have storage : Framed (fun _ => True) fun s : Storage => choice s.position :=
    framed_choice (by intro s s'; cases s <;> cases s' <;> simp [Storage.position])
      (by intro s; cases s <;> decide)
  intro a b inside inside' rest rest' same
  simp only [encode, append_assoc] at same
  obtain ⟨shape, same⟩ := framed_list framed_size inside.1 inside'.1 same
  obtain ⟨elem, same⟩ := elem trivial trivial same
  obtain ⟨strides, same⟩ := framed_option (framed_list framed_size) inside.2 inside'.2 same
  obtain ⟨storage, same⟩ := storage trivial trivial same
  cases a
  cases b
  simp_all

theorem CallKey.encode_args_framed {specs specs' : List ArgSpec}
    (words : Listed ArgSpec.Words specs) (words' : Listed ArgSpec.Words specs') :
    ((args specs).encode = (args specs').encode → specs = specs') ∧
    ¬ ((args specs).encode <+: (args specs').encode ∧
      (args specs).encode ≠ (args specs').encode) := by
  have determined := (framed_list ArgSpec.framed_encode).eq_of_isPrefix words words'
  refine ⟨fun same => determined ⟨[], (append_nil _).trans same⟩, ?_⟩
  rintro ⟨begins, differ⟩
  exact differ (determined begins ▸ rfl)

-- The strides of one list could be the next argument of the other.
theorem CallKey.encode_args_framed_strided : ¬ (args [⟨[2], .int64, none, .cpuHeap⟩]).encode <+:
    (args [⟨[2], .int64, some [1], .cpuHeap⟩]).encode := by
  obtain ⟨determined, none⟩ :=
    @encode_args_framed [⟨[2], .int64, none, .cpuHeap⟩] [⟨[2], .int64, some [1], .cpuHeap⟩]
    (by simp [Listed, ArgSpec.Words, sizeBound]) (by simp [Listed, ArgSpec.Words, sizeBound])
  exact fun begins => none ⟨begins, fun same => absurd (determined same) (by decide)⟩

def OptionValue.Words : OptionValue → Prop
  | .bool _ => True
  | .int v => -indexBound ≤ v ∧ v < indexBound
  | .str v => v.utf8ByteSize < sizeBound

-- Values of one kind.
inductive OptionValue.Alike : OptionValue → OptionValue → Prop
  | bool (v w : Bool) : Alike (.bool v) (.bool w)
  | int (v w : Int) : Alike (.int v) (.int w)
  | str (v w : String) : Alike (.str v) (.str w)

theorem OptionValue.Alike.framed {v w : OptionValue} (alike : Alike v w) (words : v.Words)
    (words' : w.Words) {rest rest' : List UInt8}
    (same : v.encode ++ rest = w.encode ++ rest') : v = w ∧ rest = rest' := by
  cases alike with
  | bool v w => exact (framed_bool trivial trivial same).imp_left (congrArg _)
  | int v w => exact (framed_int words words' same).imp_left (congrArg _)
  | str v w => exact (framed_text words words' same).imp_left (congrArg _)

namespace Options

def Words (o : Options) : Prop :=
  Listed (fun entry => entry.1.utf8ByteSize < sizeBound ∧ entry.2.Words) o.extra.entries

-- The same flags are set, and a name that both sets of options know has values of one kind.
structure Comparable (o o' : Options) : Prop where
  flags : o.flags.map (·.2.isSome) = o'.flags.map (·.2.isSome)
  extra : ∀ name v v', (name, v) ∈ o.extra.entries → (name, v') ∈ o'.extra.entries → v.Alike v'

theorem flag_inj {x y : Option Bool} {rest rest' : List UInt8}
    (same : (match x with | none => [] | some value => 1 :: bool value) ++
      rest = (match y with | none => [] | some value => 1 :: bool value) ++ rest')
    (set : x.isSome = y.isSome) : x = y ∧ rest = rest' := by
  match x, y with
  | none, none => exact ⟨rfl, same⟩
  | none, some _ | some _, none => cases set
  | some _, some _ =>
    exact (framed_bool trivial trivial (List.cons.inj same).2).imp_left (congrArg _)

section

variable {o o' : Options} (words : o.Words) (words' : o'.Words) (comparable : Comparable o o')

include words words' comparable

theorem extra_inj (same : (if o.extra.isEmpty then [] else
      list (fun entry => Encoding.text entry.1 ++ entry.2.encode) o.extra.entries) =
      if o'.extra.isEmpty then [] else list (fun entry => Encoding.text entry.1 ++ entry.2.encode)
        o'.extra.entries) : o.extra = o'.extra := by
  refine congrArg Dict.mk (?_ : o.extra.entries = o'.extra.entries)
  split at same <;> split at same
  next none none' => exact (List.isEmpty_iff.mp none).trans (List.isEmpty_iff.mp none').symm
  · cases same
  · cases same
  · obtain ⟨length, same⟩ := framed_size words.1 words'.1 same
    refine (flatMap_inj length ?_ (congrArg (· ++ []) same)).1
    rintro ⟨name, v⟩ here ⟨name', v'⟩ there rest rest' same
    rw [append_assoc, append_assoc] at same
    obtain ⟨rfl, same⟩ := framed_text (words.2 _ here).1 (words'.2 _ there).1 same
    obtain ⟨value, same⟩ := (comparable.extra name v v' here there).framed (words.2 _ here).2
      (words'.2 _ there).2 same
    exact ⟨congrArg _ value, same⟩

theorem encode_ne_of_comparable (differ : o ≠ o') : o.encode ≠ o'.encode := by
  intro same
  have set := comparable.flags
  simp only [flags, encode, map_cons, map_nil, List.cons.injEq, flatMap_cons, flatMap_nil,
    append_nil, append_assoc] at set same
  obtain ⟨first, same⟩ := flag_inj same set.1
  obtain ⟨second, same⟩ := flag_inj same set.2.1
  obtain ⟨third, same⟩ := flag_inj same set.2.2.1
  have extra := extra_inj words words' comparable same
  cases o
  cases o'
  simp_all

end

theorem encode_ne_of_comparable_levels :
    encode { simplify := some true, extra := ⟨[("level", .int 3)]⟩ } ≠ encode
    { simplify := some true, extra := ⟨[("level", .int (-3))]⟩ } := by
  refine encode_ne_of_comparable ?_ ?_ ⟨rfl, ?_⟩ (by decide)
  · simp [Words, Listed, OptionValue.Words]
    decide
  · simp [Words, Listed, OptionValue.Words]
    decide
  · intro name v v' here there
    obtain ⟨-, rfl⟩ := Prod.mk.inj (mem_singleton.mp here)
    obtain ⟨-, rfl⟩ := Prod.mk.inj (mem_singleton.mp there)
    exact .int 3 (-3)

-- Neither the name of a flag nor the kind of a value is written.
theorem encode_conflated :
    (∃ o o' : Options, o ≠ o' ∧ o.extra = {} ∧ o'.extra = {} ∧ o.encode = o'.encode) ∧
    ∃ o o' : Options, o ≠ o' ∧ o.flags = o'.flags ∧ o.encode = o'.encode :=
  ⟨⟨{ autoOptimize := some true }, { simplify := some true }, by decide⟩,
    { extra := ⟨[("level", .int 0)]⟩ }, { extra := ⟨[("level", .str "")]⟩ }, by decide⟩

end Options

end TraceFlow
