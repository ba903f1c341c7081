set_option autoImplicit false

namespace TraceFlow

structure Lru (κ α : Type) where
  capacity : Nat
  entries : List (κ × α)

namespace Lru

variable {κ α : Type} [DecidableEq κ]

def new (capacity : Nat) : Lru κ α :=
  ⟨max capacity 1, []⟩

def find? (s : Lru κ α) (key : κ) : Option α :=
  (s.entries.find? fun entry => entry.1 = key).map Prod.snd

def contains (s : Lru κ α) (key : κ) : Bool :=
  (s.find? key).isSome

def size (s : Lru κ α) : Nat :=
  s.entries.length

def without (s : Lru κ α) (key : κ) : List (κ × α) :=
  s.entries.filter fun entry => entry.1 ≠ key

def use (s : Lru κ α) (key : κ) : Option α × Lru κ α :=
  match s.find? key with
  | some value => (some value, { s with entries := (key, value) :: s.without key })
  | none => (none, s)

def push (s : Lru κ α) (key : κ) (value : α) : Lru κ α :=
  { s with entries := ((key, value) :: s.without key).take s.capacity }

def pushEvicts (s : Lru κ α) (key : κ) : Bool :=
  s.capacity ≤ (s.without key).length

def clear (s : Lru κ α) : Lru κ α :=
  { s with entries := [] }

end Lru

end TraceFlow
