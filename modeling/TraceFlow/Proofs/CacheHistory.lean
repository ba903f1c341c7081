import Mathlib.Data.List.Basic
import Mathlib.Data.List.Nodup
import TraceFlow.Proofs.Dict
import TraceFlow.Proofs.LowerSteps
import TraceFlow.StageCache

set_option autoImplicit false

namespace TraceFlow

open List

namespace Lru

variable {κ α : Type} [DecidableEq κ]

variable {s : Lru κ α} {key : κ} {value : α}

def keys (s : Lru κ α) : List κ :=
  s.entries.map Prod.fst

theorem keys_without (s : Lru κ α) (key : κ) : (s.without key).map Prod.fst = s.keys.filter
    (· ≠ key) := by
  simp only [without, keys, filter_map]
  rfl

theorem keys_push (s : Lru κ α) (key : κ) (value : α) :
    (s.push key value).keys = (key :: s.keys.filter (· ≠ key)).take s.capacity := by
  rw [← keys_without]
  simp [push, keys, map_take]

theorem contains_iff : s.contains key ↔ key ∈ s.keys := by
  simp [contains, find?, keys, find?_isSome]

theorem mem_of_find? (found : s.find? key = some value) : (key, value) ∈ s.entries := by
  obtain ⟨entry, hit, rfl⟩ := Option.map_eq_some_iff.1 found
  have same : entry.1 = key := by simpa using find?_some hit
  exact same ▸ mem_of_find?_eq_some hit

theorem find?_of_mem (distinct : s.keys.Nodup) (member : (key, value) ∈ s.entries) :
    s.find? key = some value := by
  have present : (s.find? key).isSome := contains_iff.2 (mem_map_of_mem member)
  obtain ⟨other, found⟩ := Option.isSome_iff_exists.1 present
  have same := inj_on_of_nodup_map distinct (mem_of_find? found) member rfl
  rw [found, (Prod.mk.inj same).2]

theorem length_without (distinct : s.keys.Nodup) (present : key ∈ s.keys) :
    (s.without key).length + 1 = s.size := by
  have erased : (s.without key).length = (s.keys.erase key).length := by
    rw [distinct.erase_eq_filter, ← length_map Prod.fst, keys_without]
    exact congrArg (fun test => (s.keys.filter test).length)
      (funext fun other => by by_cases same : other = key <;> simp [same])
  have counted := length_erase_add_one present
  simp only [keys, length_map] at counted
  rw [erased]
  exact counted

theorem without_eq (absent : key ∉ s.keys) : s.without key = s.entries := by
  refine filter_eq_self.2 fun entry member => ?_
  have other : entry.1 ≠ key := fun same => absent (same ▸ mem_map_of_mem member)
  simpa using other

-- A hit moves its entry to the front, which is storing the value again.
theorem use_eq_push (distinct : s.keys.Nodup) (fits : s.size ≤ s.capacity)
    (found : s.find? key = some value) : s.use key = (some value, s.push key value) := by
  have present : key ∈ s.keys := mem_map_of_mem (mem_of_find? found)
  have short : ((key, value) :: s.without key).length ≤ s.capacity := by
    rw [length_cons, length_without distinct present]
    exact fits
  simp [use, push, found, take_of_length_le short]

theorem size_push (distinct : s.keys.Nodup) (fits : s.size ≤ s.capacity) (key : κ) (value : α) :
    (s.push key value).size + (if s.pushEvicts key then 1 else 0) = s.size +
      (if s.contains key then 0 else 1) := by
  by_cases present : key ∈ s.keys
  next =>
    have shorter := length_without distinct present
    have kept : ¬s.capacity ≤ (s.without key).length := by omega
    simp [push, size, pushEvicts, contains_iff.2 present, kept]
    simp only [size] at shorter fits
    omega
  next =>
    have absent : s.contains key = false := by simpa using mt contains_iff.1 present
    simp only [push, size, pushEvicts, absent, without_eq present, length_take, length_cons,
      decide_eq_true_eq]
    simp only [size] at fits
    split <;> simp <;> omega

theorem use_of_absent (missing : s.find? key = none) : s.use key = (none, s) := by
  simp [use, missing]

end Lru

namespace StageCache

variable {σ α : Type} {key : StageKey} {value : α}

theorem Slot.getOrMake_hit (slot : Slot σ α) {make : StepM σ α} {s : σ} {found : StageCache α}
    (hit : (slot.view s).find key = (some value, found)) :
    slot.getOrMake key make s = (.ok value, slot.put found s) := by
  unfold Slot.getOrMake
  rw [bind_run, get_run]
  simp only [hit]
  rfl

theorem Slot.getOrMake_miss (slot : Slot σ α) {make : StepM σ α} {s : σ} {missed : StageCache α}
    (miss : (slot.view s).find key = (none, missed)) : slot.getOrMake key make s =
      match make (slot.put missed s) with
      | (.ok value, s) => (.ok value, slot.put ((slot.view s).insert key value) s)
      | (.error failure, s) => (.error failure, s) := by
  unfold Slot.getOrMake
  rw [bind_run, get_run]
  simp only [miss]
  rw [bind_run]
  have stored : (MonadStateOf.set (slot.put missed s) : StepM σ PUnit) s = (.ok ⟨⟩,
    slot.put missed s) := rfl
  rw [stored]
  simp only [bind_run]
  rcases make (slot.put missed s) with ⟨failure | value, after⟩ <;> rfl

-- What a client does with a cache.
inductive Client (α : Type) where
  | done (outcome : Outcome α)
  | insert (key : StageKey) (value : α) (next : Client α)
  | getOrMake (key : StageKey) (make : Client α) (next : Outcome α → Client α)
  | contains (key : StageKey) (next : Bool → Client α)
  | clear (next : Client α)

inductive Act (α : Type) where
  | looked (key : StageKey) (found? : Option α)
  | stored (key : StageKey) (value : α)
  | asked (key : StageKey) (held : Bool)
  | cleared
  deriving DecidableEq

structure Moment (α : Type) where
  act : Act α
  before : StageCache α
  after : StageCache α

abbrev History (α : Type) := List (Moment α)

namespace Client

def run : Client α → StepM (StageCache α) α
  | .done outcome => fun c => (outcome, c)
  | .insert key value next => fun c => next.run (c.insert key value)
  | .getOrMake key make next => fun c =>
    let (outcome, c) := Slot.self.getOrMake key make.run c
    (next outcome).run c
  | .contains key next => fun c => (next (c.contains key)).run c
  | .clear next => fun c => next.run c.clear

def perform : Client α → StageCache α → History α → Outcome α × StageCache α × History α
  | .done outcome, c, past => (outcome, c, past)
  | .insert key value next, c, past =>
    next.perform (c.insert key value) (⟨.stored key value, c, c.insert key value⟩ :: past)
  | .getOrMake key make next, c, past =>
    match c.find key with
    | (some value, found) =>
      (next (.ok value)).perform found (⟨.looked key (some value), c, found⟩ :: past)
    | (none, missed) =>
      match make.perform missed (⟨.looked key none, c, missed⟩ :: past) with
      | (.ok value, made, past) =>
        (next (.ok value)).perform (made.insert key value)
          (⟨.stored key value, made, made.insert key value⟩ :: past)
      | (.error failure, made, past) => (next (.error failure)).perform made past
  | .contains key next, c, past =>
    (next (c.contains key)).perform c (⟨.asked key (c.contains key), c, c⟩ :: past)
  | .clear next, c, past => next.perform c.clear (⟨.cleared, c, c.clear⟩ :: past)

theorem run_eq_perform (client : Client α) (c : StageCache α) (past : History α) :
    client.run c = ((client.perform c past).1, (client.perform c past).2.1) := by
  induction client generalizing c past with
  | done outcome => rfl
  | insert key value next ih => exact ih _ _
  | contains key next ih => exact ih _ _ _
  | clear next ih => exact ih _ _
  | getOrMake key make next making ih =>
    rcases looked : c.find key with ⟨_ | value, after⟩
    next =>
      have made := making after (⟨.looked key none, c, after⟩ :: past)
      rcases performed : make.perform after (⟨.looked key none, c, after⟩ :: past) with
        ⟨failure | value, rest, later⟩
      · simp only [run, perform, Slot.self.getOrMake_miss looked, looked, performed]
        simp only [Slot.self, made, performed]
        exact ih _ _ _
      · simp only [run, perform, Slot.self.getOrMake_miss looked, looked, performed]
        simp only [Slot.self, made, performed]
        exact ih _ _ _
    next =>
      simp only [run, perform, Slot.self.getOrMake_hit looked, looked]
      exact ih _ _ _

end Client

namespace Act

def clears : Act α → Bool
  | .cleared => true
  | _ => false

def looks : Act α → Bool
  | .looked _ _ => true
  | _ => false

end Act

def Moment.storesNew (moment : Moment α) : Bool :=
  match moment.act with
  | .stored key _ => !moment.before.contains key
  | _ => false

namespace History

-- The keys touched since the last clearing, the latest first. A hit and a store touch a key.
def recency : History α → List StageKey
  | [] => []
  | moment :: earlier =>
    match moment.act with
    | .cleared => []
    | .looked key (some _) | .stored key _ => key :: (recency earlier).filter (· ≠ key)
    | .looked _ none | .asked _ _ => recency earlier

-- The value stored last under a key since the last clearing.
def lastStored (key : StageKey) : History α → Option α
  | [] => none
  | moment :: earlier =>
    match moment.act with
    | .cleared => none
    | .stored other value => if other = key then some value else lastStored key earlier
    | .looked _ _ | .asked _ _ => lastStored key earlier

def sinceCleared (past : History α) : History α :=
  past.takeWhile fun moment => !moment.act.clears

-- The cache right after the last clearing, or as it was made.
def lastCleared (made : StageCache α) (past : History α) : StageCache α :=
  ((past.find? fun moment => moment.act.clears).map Moment.after).getD made

theorem nodup_recency (past : History α) : (recency past).Nodup := by
  induction past with
  | nil => exact nodup_nil
  | cons moment earlier ih =>
    have touched (key : StageKey) : (key :: (recency earlier).filter (· ≠ key)).Nodup :=
      nodup_cons.2 ⟨by simp, ih.filter _⟩
    rcases moment with ⟨⟨key, _ | _⟩ | ⟨key, value⟩ | ⟨key, held⟩ | _, before, after⟩
    · exact ih
    · exact touched key
    · exact touched key
    · exact ih
    · exact nodup_nil

end History

def tally (c : StageCache α) (event : String) : Nat :=
  (c.events.get? event).getD 0

open History

structure Exact (capacity : Nat) (made : StageCache α) (past : History α) (c : StageCache α) :
    Prop where
  distinct : (recency past).Nodup
  stored : ∀ key, key ∈ recency past ↔ (lastStored key past).isSome
  size : c.size = min capacity (recency past).length
  finds : ∀ key, c.memory.find? key = if key ∈ (recency past).take capacity then
    lastStored key past else none
  evictions : c.tally evictEvent + c.size = (lastCleared made past).tally evictEvent +
    (sinceCleared past).countP Moment.storesNew
  lookups : c.tally c.hitEvent + c.tally c.missEvent = past.countP fun moment => moment.act.looks

-- What a lookup finds and a question is answered follows from what happened before.
def Moment.Answers (capacity : Nat) (earlier : History α) (moment : Moment α) : Prop :=
  match moment.act with
  | .looked key found? =>
    found? = if key ∈ (recency earlier).take capacity then lastStored key earlier else none
  | .asked key held => held = decide (key ∈ (recency earlier).take capacity)
  | .stored _ _ | .cleared => True

inductive Moment.Happens : Moment α → Prop where
  | found {c after : StageCache α} {key : StageKey} {value : α}
    (hit : c.find key = (some value, after)) :
      Happens ⟨.looked key (some value), c, after⟩
  | missed {c after : StageCache α} {key : StageKey} (miss : c.find key = (none, after)) :
      Happens ⟨.looked key none, c, after⟩
  | stored (c : StageCache α) (key : StageKey) (value : α) :
    Happens ⟨.stored key value, c, c.insert key value⟩
  | asked (c : StageCache α) (key : StageKey) : Happens ⟨.asked key (c.contains key), c, c⟩
  | cleared (c : StageCache α) : Happens ⟨.cleared, c, c.clear⟩

inductive Unfolds (made : StageCache α) : History α → StageCache α → Prop where
  | start : Unfolds made [] made
  | step {past : History α} {moment : Moment α} (before : Unfolds made past moment.before)
    (happens : moment.Happens) :
      Unfolds made (moment :: past) moment.after

variable {made c after : StageCache α} {past : History α} {moment : Moment α}

theorem Client.perform_unfolds (client : Client α) (before : Unfolds made past c) :
    Unfolds made (client.perform c past).2.2 (client.perform c past).2.1 := by
  induction client generalizing c past with
  | done outcome => exact before
  | insert key value next ih => exact ih (.step before (.stored c key value))
  | contains key next ih => exact ih _ (.step before (.asked c key))
  | clear next ih => exact ih (.step before (.cleared c))
  | getOrMake key make next making ih =>
    rcases looked : c.find key with ⟨_ | value, after⟩
    next =>
      have meanwhile := making (.step before (.missed looked))
      dsimp only at meanwhile
      rcases performed : make.perform after (⟨.looked key none, c, after⟩ :: past) with
        ⟨failure | value, rest, later⟩
      -- A maker that fails leaves what it did itself and nothing else.
      · simp only [perform, looked, performed] at meanwhile ⊢
        exact ih _ meanwhile
      · simp only [perform, looked, performed] at meanwhile ⊢
        exact ih _ (.step meanwhile (.stored rest key value))
    next =>
      simp only [perform, looked]
      exact ih _ (.step before (.found looked))

theorem Unfolds.of_suffix {earlier : History α} (unfolds : Unfolds made past c)
    (suffix : moment :: earlier <:+ past) :
    Unfolds made earlier moment.before ∧ moment.Happens := by
  induction unfolds with
  | start => simp at suffix
  | step before happens ih =>
    rcases suffix_cons_iff.1 suffix with same | shorter
    · cases same
      exact ⟨before, happens⟩
    · exact ih shorter

-- A cache as it is made, with room for one entry at least and a name for each event.
structure New (c : StageCache α) : Prop where
  empty : c.memory.entries = []
  room : 0 < c.memory.capacity
  silent : c.events = {}
  named : c.hitEvent ≠ c.missEvent ∧ c.hitEvent ≠ evictEvent ∧ c.missEvent ≠ evictEvent

-- What every step keeps: the entries themselves stand in the order of recency.
structure Mirrors (made : StageCache α) (past : History α) (c : StageCache α) : Prop where
  hitEvent : c.hitEvent = made.hitEvent
  missEvent : c.missEvent = made.missEvent
  capacity : c.memory.capacity = made.memory.capacity
  keys : c.memory.keys = (recency past).take made.memory.capacity
  values : ∀ key value, (key, value) ∈ c.memory.entries → lastStored key past = some value
  stored : ∀ key, key ∈ recency past ↔ (lastStored key past).isSome
  evictions : c.tally evictEvent + c.size = (lastCleared made past).tally evictEvent +
    (sinceCleared past).countP Moment.storesNew
  lookups : c.tally c.hitEvent + c.tally c.missEvent = past.countP fun moment => moment.act.looks

-- Only the first `room + 1` keys matter to the first `room` others.
theorem take_filter_take {keys : List StageKey} (distinct : keys.Nodup) (room : Nat) :
    ((keys.take (room + 1)).filter (· ≠ key)).take room = (keys.filter (· ≠ key)).take room := by
  induction keys generalizing room with
  | nil => simp
  | cons head rest ih =>
    obtain ⟨apart, distinct⟩ := nodup_cons.1 distinct
    by_cases same : head = key
    next =>
      have others {part : List StageKey} (within : part ⊆ rest) : part.filter (· ≠ key) = part := by
        refine filter_eq_self.2 fun other member => ?_
        have different : other ≠ key := fun equal => apart (same ▸ equal ▸ within member)
        simpa using different
      rw [take_succ_cons, filter_cons_of_neg (by simpa using same),
        filter_cons_of_neg (by simpa using same),
        others (take_subset room rest), others (List.Subset.refl rest), take_take, Nat.min_self]
    next =>
      cases room with
      | zero => simp
      | succ room =>
        rw [take_succ_cons, filter_cons_of_pos (by simpa using same),
          filter_cons_of_pos (by simpa using same),
          take_succ_cons, take_succ_cons, ih distinct room]

theorem take_touched {keys : List StageKey} (distinct : keys.Nodup) {capacity : Nat}
    (room : 0 < capacity) : (key :: (keys.take capacity).filter (· ≠ key)).take capacity =
    (key :: keys.filter (· ≠ key)).take capacity := by
  obtain ⟨less, rfl⟩ : ∃ less, capacity = less + 1 := ⟨capacity - 1, by omega⟩
  rw [take_succ_cons, take_succ_cons, take_filter_take distinct]

theorem find_eq_some (distinct : c.memory.keys.Nodup) (fits : c.size ≤ c.memory.capacity)
    (hit : c.find key = (some value, after)) : c.memory.find? key = some value ∧
      after = { c with memory := c.memory.push key value, events := c.events.count c.hitEvent
        } := by
  cases known : c.memory.find? key with
  | none => simp [find, Lru.use_of_absent known] at hit
  | some other =>
    simp only [find, Lru.use_eq_push distinct fits known, Prod.mk.injEq, Option.some.injEq] at hit
    obtain ⟨rfl, rfl⟩ := hit
    exact ⟨rfl, rfl⟩

theorem find_eq_none (miss : c.find key = (none, after)) :
    c.memory.find? key = none ∧ after = { c with events := c.events.count c.missEvent } := by
  cases known : c.memory.find? key with
  | some value => simp [find, Lru.use, known] at miss
  | none =>
    simp only [find, Lru.use_of_absent known, Prod.mk.injEq, true_and] at miss
    exact ⟨rfl, miss.symm⟩

theorem size_eq (c : StageCache α) : c.size = c.memory.keys.length := by
  simp [size, Lru.size, Lru.keys]

theorem Mirrors.fits (mirrors : Mirrors made past c) : c.size ≤ c.memory.capacity := by
  rw [size_eq, mirrors.keys, mirrors.capacity]
  exact length_take_le _ _

theorem Mirrors.keys_push (new : New made) (mirrors : Mirrors made past c) (key : StageKey)
    (value : α) : (c.memory.push key value).keys = (key :: (recency past).filter (· ≠ key)).take
      made.memory.capacity := by
  rw [Lru.keys_push, mirrors.keys, mirrors.capacity, take_touched (nodup_recency past) new.room]

theorem mem_push {memory : Lru StageKey α} {other : StageKey} {stored : α}
    (member : (other, stored) ∈ (memory.push key value).entries) :
    other = key ∧ stored = value ∨ other ≠ key ∧ (other, stored) ∈ memory.entries := by
  rcases mem_cons.1 (mem_of_mem_take member) with same | kept
  · exact .inl (Prod.mk.inj same)
  · obtain ⟨member, different⟩ := mem_filter.1 kept
    exact .inr ⟨by simpa using different, member⟩

theorem Mirrors.nodup_keys (mirrors : Mirrors made past c) : c.memory.keys.Nodup := by
  rw [mirrors.keys]
  exact (nodup_recency past).sublist (take_sublist _ _)

theorem tally_of_count {name : String} (counted : after.events = c.events.count name)
    (event : String) : after.tally event = c.tally event + if event = name then 1 else 0 := by
  by_cases same : event = name <;> simp [tally, counted, Events.count, same]

theorem sinceCleared_cons (running : moment.act.clears = false) :
    sinceCleared (moment :: past) = moment :: sinceCleared past := by
  simp [sinceCleared, running]

theorem lastCleared_cons (running : moment.act.clears = false) :
    lastCleared made (moment :: past) = lastCleared made past := by
  simp [lastCleared, running]

theorem New.mirrors (new : New made) : Mirrors made [] made where
  hitEvent := rfl
  missEvent := rfl
  capacity := rfl
  keys := by simp [Lru.keys, new.empty, recency]
  values := by simp [new.empty]
  stored := by simp [recency, lastStored]
  evictions := by simp [lastCleared, sinceCleared, size, Lru.size, new.empty]
  lookups := by simp [tally, new.silent, EmptyCollection.emptyCollection]

theorem Mirrors.counters_looked (new : New made) (mirrors : Mirrors made past c) (key : StageKey)
    (found? : Option α) (after : StageCache α)
    (counted : after.events = c.events.count (if found?.isSome then c.hitEvent else c.missEvent))
    (hitEvent : after.hitEvent = c.hitEvent)
    (missEvent : after.missEvent = c.missEvent) (size : after.size = c.size) :
    after.tally evictEvent + after.size =
    (lastCleared made (⟨.looked key found?, c, after⟩ :: past)).tally evictEvent +
        (sinceCleared (⟨.looked key found?, c, after⟩ :: past)).countP Moment.storesNew ∧
      after.tally after.hitEvent + after.tally after.missEvent =
        List.countP (fun moment : Moment α => moment.act.looks)
          (⟨.looked key found?, c, after⟩ :: past) := by
  obtain ⟨differ, hitApart, missApart⟩ := new.named
  rw [← mirrors.hitEvent] at differ hitApart
  rw [← mirrors.missEvent] at differ missApart
  have evictions := mirrors.evictions
  have lookups := mirrors.lookups
  constructor
  next =>
    rw [lastCleared_cons rfl, sinceCleared_cons rfl,
      countP_cons_of_neg (by simp [Moment.storesNew]), ← evictions, size,
      tally_of_count counted]
    cases found? <;> simp [hitApart.symm, missApart.symm]
  next =>
    rw [countP_cons_of_pos (by rfl), ← lookups, hitEvent, missEvent, tally_of_count counted,
      tally_of_count counted]
    cases found? <;> simp [differ, differ.symm] <;> omega

theorem Mirrors.found (new : New made) (mirrors : Mirrors made past c)
    (hit : c.find key = (some value, after)) :
    Mirrors made (⟨.looked key (some value), c, after⟩ :: past) after := by
  obtain ⟨known, rfl⟩ := find_eq_some mirrors.nodup_keys mirrors.fits hit
  have held := Lru.mem_of_find? known
  have last := mirrors.values key value held
  have present : c.memory.contains key := by simp [Lru.contains, known]
  have size := Lru.size_push mirrors.nodup_keys mirrors.fits key value
  have kept : c.memory.pushEvicts key = false := by
    have shorter := Lru.length_without mirrors.nodup_keys (Lru.contains_iff.1 present)
    have fits : c.memory.size ≤ c.memory.capacity := mirrors.fits
    simp only [Lru.pushEvicts, decide_eq_false_iff_not]
    omega
  rw [present, kept] at size
  obtain ⟨evictions, lookups⟩ := mirrors.counters_looked new key (some value)
    { c with memory := c.memory.push key value, events := c.events.count c.hitEvent } rfl rfl rfl
      size
  exact
    { mirrors with
      keys := mirrors.keys_push new key value
      values := by
        intro other stored member
        rcases mem_push member with ⟨rfl, rfl⟩ | ⟨_, member⟩
        · exact last
        · exact mirrors.values other stored member
      stored := by
        intro other
        by_cases same : other = key
        · simp [recency, lastStored, same, last]
        · simpa [recency, lastStored, same] using mirrors.stored other
      evictions
      lookups }

theorem Mirrors.missed (new : New made) (mirrors : Mirrors made past c)
    (miss : c.find key = (none, after)) :
    Mirrors made (⟨.looked key none, c, after⟩ :: past) after := by
  obtain ⟨-, rfl⟩ := find_eq_none miss
  obtain ⟨evictions, lookups⟩ :=
    mirrors.counters_looked new key none { c with events := c.events.count c.missEvent } rfl rfl rfl
      rfl
  exact { mirrors with evictions, lookups }

theorem tally_insert (c : StageCache α) (key : StageKey) (value : α) (event : String) :
    (c.insert key value).tally event = c.tally event + if event = evictEvent ∧
    c.memory.pushEvicts key then 1 else 0 := by
  by_cases evicts : c.memory.pushEvicts key
  · rw [tally_of_count
      (by simp [insert, evicts] : (c.insert key value).events = c.events.count evictEvent)]
    simp [evicts]
  · simp [tally, insert, evicts]

theorem Mirrors.stores (new : New made) (mirrors : Mirrors made past c) (key : StageKey)
    (value : α) :
    Mirrors made (⟨.stored key value, c, c.insert key value⟩ :: past) (c.insert key value) where
  hitEvent := mirrors.hitEvent
  missEvent := mirrors.missEvent
  capacity := mirrors.capacity
  keys := mirrors.keys_push new key value
  values := by
    intro other stored member
    rcases mem_push member with ⟨rfl, rfl⟩ | ⟨different, member⟩
    · simp [lastStored]
    · simpa [lastStored, different.symm] using mirrors.values other stored member
  stored := by
    intro other
    by_cases same : other = key
    · simp [recency, lastStored, same]
    · simpa [recency, lastStored, same, Ne.symm same] using mirrors.stored other
  evictions := by
    -- A key that is new either takes free room or pushes an entry out; one that is there does
    -- neither.
    have size : (c.insert key value).size + (if c.memory.pushEvicts key then 1 else 0) =
      c.size + (if c.contains key then 0 else 1) :=
      Lru.size_push mirrors.nodup_keys mirrors.fits key value
    have before := mirrors.evictions
    rw [lastCleared_cons rfl, sinceCleared_cons rfl, countP_cons, tally_insert]
    cases present : c.contains key <;> cases evicts :
      c.memory.pushEvicts key <;> simp [Moment.storesNew, present, evicts] at size ⊢ <;> omega
  lookups := by
    obtain ⟨_, hitApart, missApart⟩ := new.named
    rw [← mirrors.hitEvent] at hitApart
    rw [← mirrors.missEvent] at missApart
    have before := mirrors.lookups
    rw [countP_cons_of_neg (by simp [Act.looks]), tally_insert, tally_insert]
    simpa [insert, hitApart, missApart] using before

theorem Mirrors.clears (mirrors : Mirrors made past c) :
    Mirrors made (⟨.cleared, c, c.clear⟩ :: past) c.clear where
  hitEvent := mirrors.hitEvent
  missEvent := mirrors.missEvent
  capacity := mirrors.capacity
  keys := by simp [clear, Lru.clear, Lru.keys, recency]
  values := by simp [clear, Lru.clear]
  stored := by simp [recency, lastStored]
  evictions := by simp [lastCleared, sinceCleared, Act.clears, size, Lru.size, clear, Lru.clear]
  lookups := by
    rw [countP_cons_of_neg (by simp [Act.looks]), ← mirrors.lookups]
    rfl

theorem Mirrors.asks (mirrors : Mirrors made past c) (key : StageKey) :
    Mirrors made (⟨.asked key (c.contains key), c, c⟩ :: past) c :=
  { mirrors with
    evictions := by
      rw [lastCleared_cons rfl, sinceCleared_cons rfl,
        countP_cons_of_neg (by simp [Moment.storesNew])]
      exact mirrors.evictions
    lookups := by
      rw [countP_cons_of_neg (by simp [Act.looks])]
      exact mirrors.lookups }

theorem Mirrors.step (new : New made) (mirrors : Mirrors made past moment.before)
    (happens : moment.Happens) : Mirrors made (moment :: past) moment.after := by
  cases happens with
  | found hit => exact mirrors.found new hit
  | missed miss => exact mirrors.missed new miss
  | stored _ key value => exact mirrors.stores new key value
  | asked _ key => exact mirrors.asks key
  | cleared => exact mirrors.clears

theorem Unfolds.mirrors (new : New made) (unfolds : Unfolds made past c) : Mirrors made past c := by
  induction unfolds with
  | start => exact new.mirrors
  | step before happens ih => exact ih.step new happens

theorem Mirrors.exact (mirrors : Mirrors made past c) : Exact made.memory.capacity made past c where
  distinct := nodup_recency past
  stored := mirrors.stored
  size := by rw [size_eq, mirrors.keys, length_take]
  finds := by
    intro key
    rw [← mirrors.keys]
    split
    next held =>
      obtain ⟨⟨_, value⟩, member, rfl⟩ := mem_map.1 held
      rw [Lru.find?_of_mem mirrors.nodup_keys member, mirrors.values _ value member]
    next absent =>
      have missing := mt Lru.contains_iff.1 absent
      simpa [Lru.contains] using missing
  evictions := mirrors.evictions
  lookups := mirrors.lookups

theorem Mirrors.answers (mirrors : Mirrors made past moment.before) (happens : moment.Happens) :
    moment.Answers made.memory.capacity past := by
  have finds := mirrors.exact.finds
  cases happens with
  | found hit =>
    obtain ⟨known, -⟩ := find_eq_some mirrors.nodup_keys mirrors.fits hit
    exact known.symm.trans (finds _)
  | missed miss =>
    obtain ⟨unknown, -⟩ := find_eq_none miss
    exact unknown.symm.trans (finds _)
  | asked c key =>
    have stored := mirrors.stored key
    simp only [Moment.Answers, contains, Lru.contains, finds]
    split
    next held => simp [stored.mp (mem_of_mem_take held), held]
    next absent => simp [absent]
  | stored => trivial
  | cleared => trivial

theorem new_lowering (name : String) (capacity : Nat) :
    New (lowering name capacity : StageCache α) where
  empty := rfl
  room := lt_max_of_lt_right Nat.one_pos
  silent := rfl
  named := by simp [lowering, evictEvent]

theorem new_compilation (name : String) (capacity : Nat) :
    New (compilation name capacity : StageCache α) where
  empty := rfl
  room := lt_max_of_lt_right Nat.one_pos
  silent := rfl
  named := by simp [compilation, evictEvent]

-- Whatever a client does, each lookup and each question is answered from the keys touched last and
-- the values stored last, the cache is exact after each step, and the steps are those of the
-- client's run.
theorem Client.perform_exact (client : Client α) (name : String) (capacity : Nat)
    (made : StageCache α) (new : made = lowering name capacity ∨ made = compilation name capacity) :
    client.run made = ((client.perform made []).1, (client.perform made []).2.1) ∧
      Exact (max capacity 1) made (client.perform made []).2.2 (client.perform made []).2.1 ∧
      ∀ moment earlier, moment :: earlier <:+ (client.perform made []).2.2 →
        moment.Answers (max capacity 1) earlier ∧ Exact (max capacity 1) made
        (moment :: earlier) moment.after := by
  have fresh : New made ∧ made.memory.capacity = max capacity 1 := by
    rcases new with rfl | rfl
    · exact ⟨new_lowering name capacity, rfl⟩
    · exact ⟨new_compilation name capacity, rfl⟩
  obtain ⟨new, room⟩ := fresh
  have unfolds := client.perform_unfolds (@Unfolds.start _ made)
  rw [← room]
  refine ⟨client.run_eq_perform made [], (unfolds.mirrors new).exact, fun moment earlier suffix =>
    ?_⟩
  obtain ⟨before, happens⟩ := unfolds.of_suffix suffix
  have mirrors := before.mirrors new
  exact ⟨mirrors.answers happens, (mirrors.step new happens).exact⟩

-- Looks the first stage up, and stores under it and under the second while its value is made. The
-- second is then found, so that no value is made for it, and the third pushes the first out.
def Client.reentrant : Client Nat :=
  .getOrMake ⟨0, .args []⟩ (.insert ⟨0, .args []⟩ 1 (.insert ⟨1, .args []⟩ 2 (.done (.ok 3))))
    fun _ =>
    .getOrMake ⟨1, .args []⟩ (.done (refuse (.unsupported "no"))) fun found => .insert ⟨2, .args []⟩
      4 (.contains ⟨0, .args []⟩ fun _ => .done found)

theorem Client.perform_exact_reentrant :
    let made := lowering "stage" 2
    Exact 2 made (reentrant.perform made []).2.2 (reentrant.perform made []).2.1 ∧
      (∀ moment earlier, moment :: earlier <:+ (reentrant.perform made []).2.2 →
        moment.Answers 2 earlier ∧ Exact 2 made (moment :: earlier) moment.after) ∧
      (reentrant.perform made []).2.2.map (fun moment => moment.act) = [.asked ⟨0, .args []⟩ false,
        .stored ⟨2, .args []⟩ 4,
        .looked ⟨1, .args []⟩ (some 2), .stored ⟨0, .args []⟩ 3, .stored ⟨1, .args []⟩ 2,
        .stored ⟨0, .args []⟩ 1, .looked ⟨0, .args []⟩ none] ∧
      (reentrant.run made).1 = .ok 2 ∧ (reentrant.run made).2.tally evictEvent = 1 := by
  intro made
  obtain ⟨-, exact, each⟩ := reentrant.perform_exact "stage" 2 made (.inl rfl)
  exact ⟨exact, each, by decide, by decide, by decide⟩

end StageCache

end TraceFlow
