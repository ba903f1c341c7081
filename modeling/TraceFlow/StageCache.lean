import TraceFlow.Fingerprint
import TraceFlow.Lru

set_option autoImplicit false

namespace TraceFlow

structure StageKey where
  stage : Nat
  call : CallKey
  deriving DecidableEq

abbrev Events := Dict Nat

namespace Events

def count (events : Events) (name : String) : Events :=
  events.insert name ((events.get? name).getD 0 + 1)

def plus (events others : Events) : Events :=
  others.entries.foldl
    (fun events (name, n) => events.insert name ((events.get? name).getD 0 + n)) events

end Events

structure StageCache (α : Type) where
  name : String
  hitEvent : String
  missEvent : String
  memory : Lru StageKey α
  events : Events

namespace StageCache

variable {α : Type}

def lowering (name : String) (capacity : Nat) : StageCache α :=
  ⟨name, "lowering_cache_hit", "lowering_cache_miss", .new capacity, {}⟩

def compilation (name : String) (capacity : Nat) : StageCache α :=
  ⟨name, "compile_cache_hit", "compile_cache_miss", .new capacity, {}⟩

def evictEvent : String := "cache_evict"

def size (c : StageCache α) : Nat :=
  c.memory.size

def contains (c : StageCache α) (key : StageKey) : Bool :=
  c.memory.contains key

def clear (c : StageCache α) : StageCache α :=
  { c with memory := c.memory.clear }

def find (c : StageCache α) (key : StageKey) : Option α × StageCache α :=
  match c.memory.use key with
  | (some value, memory) => (some value, { c with memory, events := c.events.count c.hitEvent })
  | (none, memory) => (none, { c with memory, events := c.events.count c.missEvent })

def insert (c : StageCache α) (key : StageKey) (value : α) : StageCache α :=
  { c with
    memory := c.memory.push key value
    events := if c.memory.pushEvicts key then c.events.count evictEvent else c.events }

def text (c : StageCache α) : String :=
  s!"StageCache({c.name}: {c.size} / {c.memory.capacity})"

structure Slot (σ α : Type) where
  view : σ → StageCache α
  put : StageCache α → σ → σ

-- The stored result, or else the one that `make` gives, which is stored.
def Slot.getOrMake {σ : Type} (slot : Slot σ α) (key : StageKey)
    (make : ExceptT Failure (StateM σ) α) : ExceptT Failure (StateM σ) α := do
  let s ← get
  let (found?, cache) := (slot.view s).find key
  set (slot.put cache s)
  match found? with
  | some value => return value
  | none =>
    let value ← make
    modify fun s => slot.put ((slot.view s).insert key value) s
    return value

def Slot.self : Slot (StageCache α) α :=
  ⟨id, fun cache _ => cache⟩

end StageCache

end TraceFlow
