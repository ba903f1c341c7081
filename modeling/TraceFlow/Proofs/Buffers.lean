import Mathlib.Algebra.BigOperators.Group.List.Basic
import Mathlib.Tactic.Ring
import TraceFlow.Machine.Effect
import TraceFlow.Proofs.Outcome

set_option autoImplicit false

namespace TraceFlow

open List

variable {start count n : Nat}

theorem Memory.array_eq_ok {memory : Memory} {name : String} {t : Tensor} :
    memory.array name = .ok t ↔ memory.get? name = some t := by
  unfold Memory.array
  cases memory.get? name <;> simp [halt]

theorem getD_writeWord {bytes : Array UInt8} {i : Nat} (outside : i < start ∨ start + count ≤ i) :
    (writeWord bytes start count n).getD i 0 = bytes.getD i 0 := by
  induction count generalizing bytes start n with
  | zero => rfl
  | succ count ih =>
    rw [writeWord, ih (by omega)]
    simp [Array.getD_eq_getD_getElem?, show start ≠ i by omega]

theorem wordAt_congr {bytes bytes' : Array UInt8}
    (same : ∀ i, start ≤ i → i < start + count → bytes'.getD i 0 = bytes.getD i 0) :
    wordAt bytes' start count = wordAt bytes start count := by
  induction count generalizing start with
  | zero => rfl
  | succ count ih =>
    rw [wordAt, wordAt, same start (by omega) (by omega), ih fun i low high => same i (by omega)
      (by omega)]

theorem wordAt_writeWord {bytes : Array UInt8} (inside : start + count ≤ bytes.size) :
    wordAt (writeWord bytes start count n) start count = n % 256 ^ count := by
  induction count generalizing bytes start n with
  | zero => simp [wordAt, Nat.mod_one]
  | succ count ih =>
    have first : (writeWord (bytes.setIfInBounds start (n % 256).toUInt8) (start + 1) count
      (n / 256)).getD start 0 = (n % 256).toUInt8 := by
      rw [getD_writeWord (by omega)]
      simp [Array.getD_eq_getD_getElem?, show start < bytes.size by omega]
    rw [wordAt, writeWord, first, ih (by simpa using by omega), Nat.pow_succ', Nat.mod_mul]
    simp

-- What a datum is read back as from an array of the type.
def ElemType.recode (t : ElemType) (d : Datum) : Datum :=
  t.decode (t.encode d % 256 ^ t.width)

namespace Tensor

variable {t u : Tensor} {offset : Nat} {d : Datum} {pairs : List (Nat × Datum)}

def Reaches (t : Tensor) (offset : Nat) : Prop :=
  (offset + 1) * t.elem.width ≤ t.bytes.size

structure LaidOutAs (t u : Tensor) : Prop where
  elem : u.elem = t.elem
  shape : u.shape = t.shape
  strides : u.strides = t.strides
  storage : u.storage = t.storage
  size : u.bytes.size = t.bytes.size

theorem LaidOutAs.refl (t : Tensor) : t.LaidOutAs t := ⟨rfl, rfl, rfl, rfl, rfl⟩

theorem LaidOutAs.trans {v : Tensor} (first : t.LaidOutAs u) (second : u.LaidOutAs v) :
    t.LaidOutAs v :=
  ⟨second.elem.trans first.elem, second.shape.trans first.shape, second.strides.trans first.strides,
    second.storage.trans first.storage,
    second.size.trans first.size⟩

theorem LaidOutAs.reaches (same : t.LaidOutAs u) (offset : Nat) : u.Reaches offset ↔
    t.Reaches offset := by
  rw [Reaches, Reaches, same.elem, same.size]

theorem get_eq_ok : t.get offset = .ok d ↔ t.Reaches offset ∧ t.elem.decode
    (wordAt t.bytes (offset * t.elem.width) t.elem.width) = d := by
  rw [Tensor.get, Reaches]
  by_cases inside : (offset + 1) * t.elem.width ≤ t.bytes.size <;> simp [inside]

def datum (t : Tensor) (offset : Nat) : Datum :=
  t.elem.decode (wordAt t.bytes (offset * t.elem.width) t.elem.width)

theorem Reaches.get (reaches : t.Reaches offset) : t.get offset = .ok (t.datum offset) :=
  get_eq_ok.mpr ⟨reaches, rfl⟩

theorem set_eq_ok : t.set offset d = .ok u ↔ t.Reaches offset ∧
      u = { t with bytes := writeWord t.bytes (offset * t.elem.width) t.elem.width (t.elem.encode d)
        } := by
  rw [Tensor.set, Reaches]
  by_cases inside : (offset + 1) * t.elem.width ≤ t.bytes.size <;> simp [inside, eq_comm]

theorem succeeds_set : (t.set offset d).Succeeds ↔ t.Reaches offset := by
  constructor
  · rintro ⟨u, written⟩
    exact (set_eq_ok.mp written).1
  · intro reaches
    exact ⟨_, set_eq_ok.mpr ⟨reaches, rfl⟩⟩

theorem laidOutAs_set (written : t.set offset d = .ok u) : t.LaidOutAs u := by
  obtain ⟨-, rfl⟩ := set_eq_ok.mp written
  exact ⟨rfl, rfl, rfl, rfl, size_writeWord _ _ _ _⟩

theorem get_set (written : t.set offset d = .ok u) (other : Nat) :
    u.get other = if other = offset then .ok (t.elem.recode d) else t.get other := by
  obtain ⟨reaches, rfl⟩ := set_eq_ok.mp written
  rw [Reaches, Nat.add_mul, Nat.one_mul] at reaches
  split
  next same =>
    subst same
    rw [get_eq_ok, Reaches, size_writeWord, wordAt_writeWord reaches]
    exact ⟨by rw [Nat.add_mul, Nat.one_mul]; exact reaches, rfl⟩
  next apart =>
    -- Two elements of one width lie at different offsets, so that their bytes do not overlap.
    have disjoint : (other + 1) * t.elem.width ≤ offset * t.elem.width ∨
      (offset + 1) * t.elem.width ≤ other * t.elem.width := by
      rcases Nat.lt_or_gt_of_ne apart with below | above
      · exact .inl (Nat.mul_le_mul_right _ below)
      · exact .inr (Nat.mul_le_mul_right _ above)
    rw [Nat.add_mul, Nat.one_mul, Nat.add_mul, Nat.one_mul] at disjoint
    simp only [Tensor.get, size_writeWord]
    rw [wordAt_congr fun i low high => getD_writeWord (by omega)]

theorem laidOutAs_store (stored : t.store pairs = .ok u) : t.LaidOutAs u := by
  induction pairs generalizing t with
  | nil =>
    cases stored
    exact .refl _
  | cons pair rest ih =>
    obtain ⟨next, first, others⟩ := bind_eq_ok.mp stored
    exact (laidOutAs_set first).trans (ih others)

theorem succeeds_store (reaches : ∀ pair ∈ pairs, t.Reaches pair.1) : (t.store pairs).Succeeds := by
  induction pairs generalizing t with
  | nil => simp [store]
  | cons pair rest ih =>
    obtain ⟨here, others⟩ := forall_mem_cons.mp reaches
    obtain ⟨next, first⟩ := succeeds_set.mpr here
    obtain ⟨u, stored⟩ := ih fun pair member => ((laidOutAs_set first).reaches _).mpr
      (others pair member)
    exact ⟨u, bind_eq_ok.mpr ⟨_, first, stored⟩⟩

theorem get_store_other (stored : t.store pairs = .ok u) (elsewhere : offset ∉ pairs.map Prod.fst) :
    u.get offset = t.get offset := by
  induction pairs generalizing t with
  | nil =>
    cases stored
    rfl
  | cons pair rest ih =>
    obtain ⟨next, first, others⟩ := bind_eq_ok.mp stored
    rw [map_cons, mem_cons, not_or] at elsewhere
    rw [ih others elsewhere.2, get_set first, if_neg elsewhere.1]

theorem get_store_last {earlier later : List (Nat × Datum)}
    (stored : t.store (earlier ++ (offset, d) :: later) = .ok u)
    (last : offset ∉ later.map Prod.fst) : u.get offset = .ok (t.elem.recode d) := by
  induction earlier generalizing t with
  | nil =>
    obtain ⟨next, first, others⟩ := bind_eq_ok.mp stored
    rw [get_store_other others last, get_set first, if_pos rfl]
  | cons pair rest ih =>
    obtain ⟨next, first, others⟩ := bind_eq_ok.mp stored
    rw [ih others, (laidOutAs_set first).elem]

theorem get_store (stored : t.store pairs = .ok u) (distinct : (pairs.map Prod.fst).Nodup)
    (member : (offset, d) ∈ pairs) : u.get offset = .ok (t.elem.recode d) := by
  obtain ⟨earlier, later, rfl⟩ := append_of_mem member
  rw [map_append, map_cons] at distinct
  exact get_store_last stored (nodup_cons.mp (nodup_append.mp distinct).2.1).1

end Tensor

end TraceFlow
