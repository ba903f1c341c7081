import TraceFlow.Proofs.ViewedMemory

set_option autoImplicit false

namespace TraceFlow

open Program Machine List

variable {name : String} {g : Graph} {p : Program}

theorem Machine.get?_walk {effects : List Effect} {written : List String}
    (each : ∀ effect ∈ effects, effect.Respects written) {remaining id : Nat}
    {memory after : Memory} {symbols : Symbols}
    (ran : walk g effects remaining id memory symbols = .ok after) (away : name ∉ written) :
    after.get? name = memory.get? name := by
  -- The run is compared with itself, by a relation that fixes what the name holds.
  have views : Views (fun other o o' => o' = o ∧ (other = name → o = memory.get? name))
    written := by
    refine ⟨fun _ o _ holds => holds.1 ▸ Tensor.looks_option o, fun other member _ _ =>
      ⟨And.left, fun same => ⟨same, ?_⟩⟩⟩
    rintro rfl
    exact absurd member away
  have both := @both_walk g g _ _ _ rfl each views memory memory
    (fun other => ⟨rfl, fun here => here ▸ rfl⟩) remaining id symbols
  rw [ran] at both
  cases both with
  | gives rel => exact (rel name).2 rfl

-- The arguments are named as the arrays that are not transient.
structure Graph.Takes (g : Graph) (args : Memory) : Prop where
  given : ∀ entry ∈ g.arrays.entries, args.contains entry.1 = true ↔ entry.2.transient = false
  known : ∀ name ∈ args.keys, name ∈ g.arrays.keys

variable {args : Memory}

theorem Graph.Takes.initial_eq (takes : g.Takes args) (valid : g.Valid) {value t : Tensor}
    (found : args.get? name = some value) {d : Descriptor} (member : (name, d) ∈ g.arrays.entries)
    (made : initial g args name d = .ok t) : t = value := by
  have present : args.contains name = true := by rw [Dict.contains, found]; rfl
  have variable_ : g.constants.get? name = none := by
    by_contra constant
    obtain ⟨fixed, constant⟩ := Option.ne_none_iff_exists'.mp constant
    have passes := valid.constants name (mem_map_of_mem (f :=
      Prod.fst) (Dict.mem_of_lookup constant))
    rw [checkConstant] at passes
    split at passes
    next d' declared =>
      have own := (takes.given _ (Dict.mem_of_lookup declared)).mp present
      rw [if_neg (by simpa using own)] at passes
      cases passes
    · cases passes
  rw [initial, variable_] at made
  dsimp only at made
  rw [if_neg (by simpa using (takes.given _ member).mp present), found] at made
  dsimp only at made
  split at made
  · obtain ⟨_, _, ⟨⟩⟩ := bind_eq_ok.mp made
  · cases made
    rfl

theorem Graph.Takes.get?_allocate (takes : g.Takes args) (valid : g.Valid) {memory : Memory}
    (ran : allocate g args g.arrays.entries {} = .ok memory)
    {value : Tensor} (found : args.get? name = some value) : memory.get? name = some value := by
  have general (entries : List (String × Descriptor)) (within : entries ⊆ g.arrays.entries)
    (before : Memory)
      (ran : allocate g args entries before = .ok memory) (either : name ∈ entries.map Prod.fst ∨
        before.get? name = some value) :
      memory.get? name = some value := by
    induction entries generalizing before with
    | nil =>
      cases ran
      simpa using either
    | cons entry rest ih =>
      obtain ⟨first, d⟩ := entry
      rw [allocate] at ran
      obtain ⟨t, made, ran⟩ := bind_eq_ok.mp ran
      refine ih (fun _ member => within (mem_cons_of_mem _ member)) _ ran ?_
      rw [Dict.get?_insert]
      by_cases same : name = first
      · subst same
        exact .inr (by rw [if_pos rfl, takes.initial_eq valid found (within mem_cons_self) made])
      · rw [if_neg same]
        simpa [same] using either
  exact general _ (fun _ member => member) {} ran
    (.inl (takes.known name (mem_map_of_mem (f := Prod.fst) (Dict.mem_of_lookup found))))

namespace Program

theorem update_eq (p : Program) (args : Memory) (symbols : Symbols) :
    p.update symbols args = match p.run args symbols with
      | .ok after => (.ok (), after)
      | .error failure => (.error failure, args) := by
  have step {α : Type} (a : α) (next : α → ExceptT Failure (StateM Memory) Unit) :
      ((liftM (.ok a : Outcome α) : ExceptT Failure (StateM Memory) α) >>= next) args =
      next a args := rfl
  change (liftM (allocate p.graph args p.graph.arrays.entries {}) >>= fun memory =>
    liftM (walk p.graph p.effects (transitionLimit p.effects.length) p.graph.start memory
      symbols) >>= fun memory =>
      set (results args memory) : ExceptT Failure (StateM Memory) Unit) args = _
  rw [run]
  cases allocate p.graph args p.graph.arrays.entries {} with
  | error failure => rfl
  | ok memory =>
    dsimp only [ok_bind]
    rw [step]
    cases walk p.graph p.effects (transitionLimit p.effects.length) p.graph.start memory symbols <;>
      rfl

-- A failed run leaves the arguments alone.
theorem update_frame (valid : g.check = .ok ()) (compiled : compile g = .ok p)
    (takes : g.Takes args) (symbols : Symbols) :
    (∀ failure after, p.update symbols args = (.error failure, after) → after = args) ∧
      ∀ after, p.update symbols args = (.ok (), after) →
        after.keys = args.keys ∧ ∀ name, (∀ node ∈ g.nodes, name ∉ node.writes) →
        after.get? name = args.get? name := by
  have valid := Graph.check_eq_ok.mp valid
  obtain ⟨rfl, effects⟩ := compile_eq_ok.mp compiled
  rw [update_eq]
  cases ran : p.run args symbols with
  | error failure =>
    refine ⟨fun failure' after same => ?_, fun after same => ?_⟩
    · cases same
      rfl
    · cases same
  | ok after =>
    refine ⟨fun failure' after same => ?_, fun after' same => ?_⟩
    · cases same
    · cases same
      rw [run] at ran
      obtain ⟨memory, allocated, ran⟩ := bind_eq_ok.mp ran
      obtain ⟨memory', walked, ran⟩ := bind_eq_ok.mp ran
      cases ran
      refine ⟨by simp [results, Dict.keys], fun name untouched => ?_⟩
      rw [get?_results]
      cases found : args.get? name with
      | none => rfl
      | some value =>
        have away : name ∉ p.graph.nodes.flatMap Node.writes := by
          simpa [mem_flatMap] using untouched
        rw [get?_walk (respects_effects effects) walked away, takes.get?_allocate valid allocated
          found]
        rfl

def spoiling : Graph :=
  { Graph.new "spoiling" with
    arrays := Dict.ofList [("a", Graph.word), ("b", Graph.word),
      ("c", { Graph.word with transient := true })]
    states := [⟨"all", [Graph.copyWord "a" "b", Graph.copyWord "c" "a"]⟩]
    args := ["a", "b"] }

def callingSpoiling : Graph :=
  { Graph.new "calling" with
    arrays := Dict.ofList [("u", Graph.word), ("v", Graph.word)]
    states :=
      [⟨"all", [.call ⟨"inner", Dict.ofList [("a", "u")], Dict.ofList [("b", "v")], {}⟩ spoiling]⟩]
    args := ["u", "v"] }

theorem update_frame_calling :
    let args : Memory := Dict.ofList [("u", Graph.wordTensor 7), ("v", Graph.wordTensor 0)]
    callingSpoiling.check = .ok () ∧ callingSpoiling.Takes args ∧ ∃ p,
    compile callingSpoiling = .ok p ∧
      ∃ after, p.update {} args = (.ok (), after) ∧ after.keys = ["u", "v"] ∧
      after.get? "u" = some (Graph.wordTensor 7) := by
  intro args
  have checked : callingSpoiling.check = .ok () := by decide +kernel
  have takes : callingSpoiling.Takes args := ⟨by decide +kernel, by decide +kernel⟩
  have ran : (do (← compile callingSpoiling).run args {}) =
    .ok (Dict.ofList [("u", Graph.wordTensor 7), ("v", Graph.wordTensor 7)]) := by
    decide +kernel
  obtain ⟨p, compiled, ran⟩ := bind_eq_ok.mp ran
  have updated : p.update {} args = (.ok (), Dict.ofList [("u", Graph.wordTensor 7),
    ("v", Graph.wordTensor 7)]) := by
    rw [update_eq, ran]
  obtain ⟨keys, untouched⟩ := (update_frame checked compiled takes {}).2 _ updated
  exact ⟨checked, takes, p, compiled, _, updated, keys, untouched "u" (by decide)⟩

end Program

end TraceFlow
