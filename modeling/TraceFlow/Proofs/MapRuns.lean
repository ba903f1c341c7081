import TraceFlow.Proofs.DenseLayout

set_option autoImplicit false

namespace TraceFlow.Effect.MapBody

open List

variable {body : MapBody} {memory : Memory} {t : Tensor}

-- The value of the kernel at a point, before it is written.
def kernelAt (body : MapBody) (memory : Memory) (symbols : Symbols) : Outcome Datum := do
  let scalars ← readScalars memory symbols body.elements {}
  body.value.eval (body.scope memory scalars symbols)

theorem runPoint_eq (symbols : Symbols) (point : List Int) :
    body.runPoint symbols memory point = (do
    let value ← body.kernelAt memory (bindPoint body.node.axes point symbols)
    let index ← body.output.elementIndex (bindPoint body.node.axes point symbols).get?
    let t ← memory.array body.output.array
    return memory.insert body.output.array
      (← t.set (← t.locate body.output.array index) value)) := by
  simp only [runPoint, kernelAt, bind_assoc]

-- What a map does, said without memory: a value for each point, and the element of the output that
-- it is written to.
structure Computes (body : MapBody) (memory : Memory) (symbols : Symbols) (t : Tensor)
    (points : List (List Int)) (target : List Int → List Nat)
    (value : List Int → Outcome Datum) : Prop where
  fetched : dynamicSymbols memory body.node.dynamic.entries {} = .ok symbols
  runs : body.points = .ok points
  kernel : ∀ between : Memory, (∀ name, name ≠ body.output.array →
    between.get? name = memory.get? name) →
    ∀ point ∈ points, body.kernelAt between (bindPoint body.node.axes point symbols) = value point
  writes : ∀ point ∈ points,
    body.output.elementIndex (bindPoint body.node.axes point symbols).get? =
    .ok ((target point).map Nat.cast)
  inside : ∀ point ∈ points, target point ∈ Shape.indices t.shape

namespace Computes

variable {symbols : Symbols} {points : List (List Int)} {target : List Int → List Nat}
  {value : List Int → Outcome Datum} {count : Nat}

variable (computes : body.Computes memory symbols t points target value) (dense : t.Dense count)

include computes dense

theorem runPoints {rest : List (List Int)} (listed : ∀ point ∈ rest, point ∈ points)
    {between : Memory} {u : Tensor}
    (others : ∀ name, name ≠ body.output.array → between.get? name = memory.get? name)
    (found : between.get? body.output.array = some u) (same : t.LaidOutAs u) :
    (∃ failure, rest.mapM value = .error failure ∧ body.runPoints symbols between rest =
      .error failure) ∨
      ∃ values done v, rest.mapM value = .ok values ∧ body.runPoints symbols between rest =
      .ok done ∧ (∀ name, name ≠ body.output.array → done.get? name = memory.get? name) ∧
        done.get? body.output.array = some v ∧
        u.store ((rest.map fun point => Shape.place (target point) t.strides).zip values) =
        .ok v := by
  induction rest generalizing between u with
  | nil => exact .inr ⟨[], between, u, rfl, rfl, others, found, rfl⟩
  | cons point rest ih =>
    obtain ⟨here, listed⟩ := forall_mem_cons.mp listed
    have sound := dense.sound.laidOutAs same
    have member : target point ∈ Shape.indices u.shape := same.shape ▸ computes.inside point here
    have array : between.array body.output.array = .ok u := Memory.array_eq_ok.mpr found
    have step : body.runPoint symbols between point = (do
        let d ← value point
        return between.insert body.output.array (← u.set (Shape.place (target point) t.strides)
          d)) := by
      rw [runPoint_eq, computes.kernel between others point here, computes.writes point here]
      simp only [ok_bind, array, sound.locate member, same.strides]
    rw [MapBody.runPoints, step, mapM_cons]
    cases value point with
    | error failure => exact .inl ⟨failure, rfl, rfl⟩
    | ok d =>
      obtain ⟨v, written⟩ : (u.set (Shape.place (target point) t.strides) d).Succeeds :=
        Tensor.succeeds_set.mpr (same.strides ▸ sound.reaches _ member)
      have kept (name : String) (other : name ≠ body.output.array) :
        (between.insert body.output.array v).get? name = memory.get? name := by
        rw [Dict.get?_insert, if_neg other, others name other]
      have here : (between.insert body.output.array v).get? body.output.array = some v := by
        rw [Dict.get?_insert, if_pos rfl]
      simp only [ok_bind, written, Outcome.pure_eq]
      rcases ih listed kept here (same.trans (Tensor.laidOutAs_set written)) with
        ⟨failure, fails, ends⟩ | ⟨values, done, w, evaluated, ends, others, found, stored⟩
      · exact .inl ⟨failure, by rw [fails]; rfl, ends⟩
      · refine .inr ⟨d :: values, done, w, by rw [evaluated]; rfl, ends, others, found, ?_⟩
        rw [map_cons, zip_cons_cons, Tensor.store, written]
        exact stored

theorem fails (found : memory.get? body.output.array = some t) {failure : Failure}
    (fails : points.mapM value = .error failure) : Effect.map body memory {} = .error failure := by
  rw [Effect.map, computes.fetched, ok_bind, computes.runs, ok_bind]
  rcases computes.runPoints dense (fun _ => id) (fun _ _ => rfl) found (.refl t) with
    ⟨_, fails', ends⟩ | ⟨_, _, _, evaluated, -⟩
  · cases fails.symm.trans fails'
    exact ends
  · cases fails.symm.trans evaluated

theorem succeeds (found : memory.get? body.output.array = some t)
    (apart : (points.map target).Nodup) (datum : List Nat → Datum)
    (gives : ∀ point ∈ points, value point = .ok (datum (target point))) :
    ∃ done u, Effect.map body memory {} = .ok done ∧
    (∀ name, name ≠ body.output.array → done.get? name = memory.get? name) ∧
      done.get? body.output.array = some u ∧ t.LaidOutAs u ∧ u.values = .ok
        ((Shape.indices t.shape).map fun index =>
        if index ∈ points.map target then t.elem.recode (datum index) else t.datum
          (Shape.place index t.strides)) := by
  have evaluated : points.mapM value = .ok (points.map fun point => datum (target point)) :=
    mapM_eq_ok.mpr (forall₂_map_right_iff.mpr (forall₂_same.mpr gives))
  rw [Effect.map, computes.fetched, ok_bind, computes.runs, ok_bind]
  rcases computes.runPoints dense (fun _ => id) (fun _ _ => rfl) found (.refl t) with
    ⟨_, fails, -⟩ | ⟨_, done, u, evaluated', ends, others, found', stored⟩
  · cases evaluated.symm.trans fails
  cases evaluated.symm.trans evaluated'
  have same := Tensor.laidOutAs_store stored
  have dense' := dense.laidOutAs same
  refine ⟨done, u, ends, others, found', same, ?_⟩
  rw [dense'.sound.values dense'.counted dense'.listed, same.shape, same.strides]
  refine congrArg _ (map_congr_left fun index member => ?_)
  have reads {d : Datum} (read : u.get (Shape.place index t.strides) = .ok d) :
    u.datum (Shape.place index t.strides) = d := (Tensor.get_eq_ok.mp read).2
  -- Indices and elements correspond, so that no element is written twice.
  have injective := inj_on_of_nodup_map
    (dense.places ▸ nodup_range : ((Shape.indices t.shape).map fun index => Shape.place index
      t.strides).Nodup)
  have inside (index : List Nat) (written : index ∈ points.map target) :
    index ∈ Shape.indices t.shape := by
    obtain ⟨point, listed, rfl⟩ := mem_map.mp written
    exact computes.inside point listed
  have offsets : ((points.map fun point => Shape.place (target point) t.strides).zip
    (points.map fun point => datum (target point))).map Prod.fst =
      (points.map target).map fun index => Shape.place index t.strides := by
    rw [map_fst_zip (by simp), map_map]
    rfl
  split
  next written =>
    obtain ⟨point, listed, rfl⟩ := mem_map.mp written
    refine reads (Tensor.get_store stored (offsets ▸ apart.map_on fun a one b two same => injective
      (inside a one) (inside b two) same) ?_)
    rw [zip_map']
    exact mem_map_of_mem listed
  next unwritten =>
    refine reads ((Tensor.get_store_other stored fun clash => ?_).trans
      (dense.sound.reaches index member).get)
    rw [offsets] at clash
    obtain ⟨other, written, same⟩ := mem_map.mp clash
    exact unwritten (injective (inside other written) member same ▸ written)

end Computes

end TraceFlow.Effect.MapBody
