import TraceFlow.Proofs.DenseLayout
import TraceFlow.Proofs.KernelNames

set_option autoImplicit false

namespace TraceFlow

open List

variable {bounds : List (Int × Int)} {lookup : String → Option Int} {access : Access}

-- Causes that lie in the graph: something is missing or does not fit, or the run has no end.
def RunError.isStructural : RunError → Bool
  | missingArgument _ _ | argumentMismatch _ _ _ => true
  | unsetSymbol _ | unboundSymbol _ | unboundName _ => true
  | unknownArray _ | notArrayConnector _ | subscriptCount _ _ _ => true
  | notSingleElement _ | copyMismatch _ _ _ _ => true
  | unassignable _ _ | calleeWithoutArgument _ _ | calleeLostOutput _ _ => true
  | noTermination _ _ => true
  | _ => false

def Failure.isBenign : Failure → Bool
  | .fault _ => true
  | .error (.execution cause) => !cause.isStructural
  | .error _ => false

namespace Outcome

-- An outcome whose result satisfies a condition and whose failure, if it fails, is caused by data.
inductive Safe {α : Type} (holds : α → Prop) : Outcome α → Prop
  | fails {failure : Failure} : failure.isBenign = true → Safe holds (.error failure)
  | gives {a : α} : holds a → Safe holds (.ok a)

abbrev Mild {α : Type} (o : Outcome α) : Prop :=
  Safe (fun _ => True) o

namespace Safe

variable {α β : Type} {holds : α → Prop} {holds' : β → Prop}

variable {o : Outcome α} {next : α → Outcome β}

theorem bind (safe : Safe holds o) (each : ∀ a, holds a → Safe holds' (next a)) :
    Safe holds' (o >>= next) := by
  cases safe with
  | fails benign => exact .fails benign
  | gives known => exact each _ known

theorem imp {weaker : α → Prop} (safe : Safe holds o) (implies : ∀ a, holds a → weaker a) :
    Safe weaker o := by
  cases safe with
  | fails benign => exact .fails benign
  | gives known => exact .gives (implies _ known)

theorem with_ok {known : α → Prop} (safe : Safe holds o) (each : ∀ a, o = .ok a → known a) :
    Safe (fun a => holds a ∧ known a) o := by
  cases safe with
  | fails benign => exact .fails benign
  | gives here => exact .gives ⟨here, each _ rfl⟩

theorem ite {c : Prop} [Decidable c] {o' : Outcome α} (yes : c → Safe holds o)
    (no : ¬ c → Safe holds o') : Safe holds (if c then o else o') := by
  by_cases holds : c
  · simpa [holds] using yes holds
  · simpa [holds] using no holds

theorem andThen (safe : Mild o) (each : ∀ a, Safe holds' (next a)) : Safe holds' (o >>= next) :=
  safe.bind fun a _ => each a

theorem mapM {xs : List α} {f : α → Outcome β} (each : ∀ x ∈ xs, Mild (f x)) :
    Mild (xs.mapM f) := by
  induction xs with
  | nil => exact .gives trivial
  | cons x rest ih =>
    rw [mapM_cons]
    refine (each x mem_cons_self).andThen fun y => ?_
    exact (ih fun other member => each other (mem_cons_of_mem x member)).andThen fun ys =>
      .gives trivial

theorem foldlM {f : β → α → Outcome β} (step : ∀ b a, Mild (f b a)) (b : β) (xs : List α) :
    Mild (xs.foldlM f b) := by
  induction xs generalizing b with
  | nil => exact .gives trivial
  | cons x rest ih => exact (step b x).bind fun next _ => ih next

theorem benign (safe : Safe holds o) {failure : Failure} (failed : o = .error failure) :
    failure.isBenign = true := by
  subst failed
  cases safe with
  | fails benign => exact benign

end Safe

-- Safe but for the loose names, which code may use and find no value for.
def Tame {α : Type} (loose : String → Prop) (holds : α → Prop) (o : Outcome α) : Prop :=
  Safe holds o ∨ ∃ n, loose n ∧ o = .error (.error (.execution (.unboundName n)))

namespace Tame

variable {α β : Type} {loose : String → Prop} {holds : α → Prop} {holds' : β → Prop}

variable {o : Outcome α} {next : α → Outcome β}

theorem gives {a : α} (known : holds a) : Tame loose holds (.ok a) :=
  .inl (.gives known)

theorem bind (tame : Tame loose holds o) (each : ∀ a, holds a → Tame loose holds' (next a)) :
    Tame loose holds' (o >>= next) := by
  rcases tame with (benign | known) | ⟨n, free, rfl⟩
  · exact .inl (.fails benign)
  · exact each _ known
  · exact .inr ⟨n, free, rfl⟩

theorem ite {c : Prop} [Decidable c] {o' : Outcome α} (yes : Tame loose holds o)
    (no : Tame loose holds o') : Tame loose holds (if c then o else o') := by
  split
  · exact yes
  · exact no

theorem holds_ok {a : α} (tame : Tame loose holds (.ok a)) : holds a := by
  rcases tame with (_ | known) | ⟨n, free, impossible⟩
  · exact known
  · cases impossible

theorem error {failure : Failure} (tame : Tame loose holds (.error failure)) : Tame loose holds'
    (.error failure) := by
  rcases tame with (benign | _) | ⟨n, free, same⟩
  · exact .inl (.fails benign)
  · exact .inr ⟨n, free, by cases same; rfl⟩

end Tame

end Outcome

open Outcome (Safe Mild Tame)

theorem safe_checkSize (n : Nat) : Mild (checkSize n) :=
  .ite (fun _ => .gives trivial) fun _ => .fails rfl

theorem safe_checkIndex (i : Int) : Mild (checkIndex i) :=
  .ite (fun _ => .gives trivial) fun _ => .fails rfl

theorem safe_checkCapacity (count width : Nat) : Mild (checkCapacity count width) :=
  .ite (fun _ => .gives trivial) fun _ => .fails rfl

theorem safe_sizeProduct (sizes : List Nat) : Mild (sizeProduct sizes) :=
  .foldlM (fun _ _ => safe_checkSize _) 1 sizes

theorem safe_sizeSum (sizes : List Nat) : Mild (sizeSum sizes) :=
  .foldlM (fun _ _ => safe_checkSize _) 0 sizes

namespace Tensor

theorem safe_get (t : Tensor) (offset : Nat) : Mild (t.get offset) :=
  .ite (fun _ => .gives trivial) fun _ => .fails rfl

theorem safe_set (t : Tensor) (offset : Nat) (d : Datum) : Safe t.LaidOutAs (t.set offset d) := by
  have safe : Mild (t.set offset d) := .ite (fun _ => .gives trivial) fun _ => .fails rfl
  exact (safe.with_ok fun _ written => laidOutAs_set written).imp fun _ known => known.2

theorem safe_store (t : Tensor) (pairs : List (Nat × Datum)) : Safe t.LaidOutAs
    (t.store pairs) := by
  induction pairs generalizing t with
  | nil => exact .gives (.refl t)
  | cons pair rest ih =>
    exact (t.safe_set pair.1 pair.2).bind fun u same => (ih u).imp fun _ later => same.trans later

theorem safe_offsets (t : Tensor) : Mild t.offsets := by
  refine (safe_sizeProduct t.shape).bind fun count _ => (safe_checkCapacity count 8).bind fun _ _ =>
    ?_
  have dot (index : List Nat) : Mild (Shape.dot index t.strides) := by
    refine .andThen ?_ safe_sizeSum
    exact .mapM fun pair _ => safe_checkSize _
  exact .mapM fun index _ => dot index

theorem safe_values (t : Tensor) : Mild t.values :=
  t.safe_offsets.andThen fun _ => .mapM fun offset _ => t.safe_get offset

theorem safe_offsetFrom (total : Nat) (index shape strides : List Nat) :
    Mild (Shape.offsetFrom total index shape strides) := by
  fun_induction Shape.offsetFrom total index shape strides with
  | case1 total i index extent shape stride strides inside ih =>
    exact (safe_checkSize _).bind fun step _ => (safe_checkSize _).bind fun total' _ => ih total'
  | case2 => exact .gives trivial
  | case3 => exact .gives trivial

theorem safe_locate (t : Tensor) (name : String) (index : List Int) :
    Mild (t.locate name index) := by
  unfold locate
  split
  · refine Safe.bind (.ite (fun _ => safe_offsetFrom _ _ _ _) fun _ => .gives trivial)
      fun found _ => ?_
    cases found with
    | none => exact .fails rfl
    | some offset => exact .gives trivial
  · exact .fails rfl

theorem safe_ofDescriptor (d : Descriptor) : Safe (fun t => t.elem = d.elem ∧ t.shape = d.shape)
    (ofDescriptor d) := by
  have length : Mild d.bufferLength := by
    refine .ite (fun _ => .gives trivial) fun _ => ?_
    refine (Safe.mapM fun pair _ => safe_checkSize _).andThen fun steps => ?_
    exact (safe_sizeSum steps).bind fun _ _ => safe_checkSize _
  refine length.bind fun count _ => ?_
  refine .andThen ?_ fun bytes => .gives ⟨rfl, rfl⟩
  exact (safe_checkSize _).bind fun size _ => (safe_checkCapacity size 1).bind fun _ _ =>
    .gives trivial

end Tensor

namespace Access

def Element (names : List String) (access : Access) : Prop :=
  ∀ part ∈ access.subset, ∃ index : Index, part = .at index ∧ index.symbols ⊆ names

theorem element_element {names : List String} (array : String) {indices : List Index}
    (bound : ∀ index ∈ indices, index.symbols ⊆ names) :
    Element names (.element array indices) := by
  intro part member
  obtain ⟨index, listed, rfl⟩ := mem_map.mp member
  exact ⟨index, rfl, bound index listed⟩

end Access

theorem safe_sumFrom {symbols : List String} (bound : ∀ s ∈ symbols, (lookup s).isSome = true)
    (total : Int) :
    Safe (fun found => found.isSome = true) (Index.sumFrom lookup total symbols) := by
  induction symbols generalizing total with
  | nil => exact .gives rfl
  | cons symbol rest ih =>
    rw [Index.sumFrom]
    obtain ⟨value, known⟩ := Option.isSome_iff_exists.mp (bound symbol mem_cons_self)
    rw [known]
    exact (safe_checkIndex _).bind fun total' _ => ih
      (fun s member => bound s (mem_cons_of_mem symbol member)) total'

namespace Access

variable {lookup : String → Option Int} {names : List String} {access : Access} {memory : Memory}

theorem safe_elementIndex (element : access.Element names)
    (bound : ∀ s ∈ names, (lookup s).isSome = true) : Mild (access.elementIndex lookup) := by
  refine .mapM fun part member => ?_
  obtain ⟨index, rfl, within⟩ := element part member
  refine (safe_sumFrom (fun s used => bound s (within used)) index.offset).bind fun found some => ?_
  obtain ⟨i, rfl⟩ := Option.isSome_iff_exists.mp some
  exact .gives trivial

theorem safe_readElement {t : Tensor} (element : access.Element names)
    (bound : ∀ s ∈ names, (lookup s).isSome = true)
    (known : memory.get? access.array = some t) : Mild (access.readElement memory lookup) := by
  refine (safe_elementIndex element bound).bind fun index _ => ?_
  rw [Memory.array, known]
  exact (t.safe_locate access.array index).bind fun offset _ => t.safe_get offset

theorem safe_readElement_fixed (lookup : String → Option Int) {t : Tensor}
    (element : access.Element [])
    (known : memory.get? access.array = some t) : Mild (access.readElement memory lookup) :=
  safe_readElement element (by simp) known

theorem safe_volume (access : Access) : Mild access.volume := by
  refine (Safe.mapM fun part _ => ?_).andThen safe_sizeProduct
  rcases part with index | ⟨low, high⟩
  · exact .gives trivial
  · exact (safe_checkIndex _).bind fun _ _ => .gives trivial

theorem safe_points (closed : access.symbols = []) (lookup : String → Option Int) :
    Safe (fun points => access.points lookup = .ok points) (access.points lookup) := by
  have safe : Mild (access.points lookup) := by
    refine .andThen ?_ fun bounds =>
      access.safe_volume.bind fun count _ => (safe_checkCapacity count 24).bind fun _ _ =>
        .gives trivial
    refine .mapM fun part member => ?_
    have none : part.symbols = [] := by
      rw [symbols, flatMap_eq_nil_iff] at closed
      exact closed part member
    rcases part with index | ⟨low, high⟩
    · have bound : ∀ s ∈ index.symbols, (lookup s).isSome = true := by
        rw [show index.symbols = [] from none]
        simp
      refine (safe_sumFrom bound index.offset).bind fun found some => ?_
      obtain ⟨i, rfl⟩ := Option.isSome_iff_exists.mp some
      exact (safe_checkIndex _).bind fun _ _ => .gives trivial
    · exact .gives trivial
  exact (safe.with_ok fun _ listed => listed).imp fun _ known => known.2

end Access

theorem eq_of_checkIndex {i j : Int} (checked : checkIndex i = .ok j) : j = i :=
  (ite_eq_ok.mp checked).2.symm

theorem Access.extents_of_bounds {extents : List Nat} (bounded : access.bounds lookup = .ok bounds)
    (measured : access.subset.mapM Subscript.extent = .ok extents) :
    extents = bounds.map fun bound => (bound.2 - bound.1).toNat := by
  rw [Access.bounds, mapM_eq_ok] at bounded
  rw [mapM_eq_ok] at measured
  generalize access.subset = subset at bounded measured
  induction bounded generalizing extents with
  | nil =>
    cases measured
    rfl
  | @cons part bound parts rest here _ ih =>
    cases measured with
    | cons extent others =>
      rw [map_cons, ← ih others]
      congr 1
      rcases part with index | ⟨low, high⟩
      · obtain ⟨found, -, here⟩ := bind_eq_ok.mp here
        cases found with
        | none =>
          obtain ⟨_, -, impossible⟩ := bind_eq_ok.mp here
          cases impossible
        | some i =>
          obtain ⟨next, checked, here⟩ := bind_eq_ok.mp here
          cases here
          cases extent
          obtain rfl := eq_of_checkIndex checked
          simp
      · cases here
        obtain ⟨width, checked, extent⟩ := bind_eq_ok.mp extent
        cases extent
        rw [eq_of_checkIndex checked]

theorem Access.volume_of_points {points : List (List Int)}
    (listed : access.points lookup = .ok points) : access.volume = .ok points.length := by
  obtain ⟨bounds, bounded, listed⟩ := bind_eq_ok.mp listed
  obtain ⟨count, volume, listed⟩ := bind_eq_ok.mp listed
  obtain ⟨_, -, listed⟩ := bind_eq_ok.mp listed
  cases listed
  obtain ⟨extents, measured, product⟩ := bind_eq_ok.mp volume
  rw [volume, Box.length_points, eq_prod_of_sizeProduct product, extents_of_bounds bounded measured]

namespace Kernel

theorem safe_onInts (op : ArithOp) (a b : Int64) : Mild (op.onInts a b) := by
  cases op with
  | div => exact .ite (fun _ => .fails rfl) fun _ => .gives trivial
  | rem => exact .ite (fun _ => .fails rfl) fun _ => .gives trivial
  | pow => exact .ite (fun _ => .gives trivial) fun _ => .gives trivial
  | _ => exact .gives trivial

theorem safe_onWords (op : ArithOp) (a b : UInt64) : Mild (op.onWords a b) := by
  cases op with
  | div => exact .ite (fun _ => .fails rfl) fun _ => .gives trivial
  | rem => exact .ite (fun _ => .fails rfl) fun _ => .gives trivial
  | _ => exact .gives trivial

theorem safe_onFloats (op : ArithOp) (a b : Float) : Mild (op.onFloats a b) := by
  cases op with
  | bitOr => exact .fails rfl
  | bitAnd => exact .fails rfl
  | bitXor => exact .fails rfl
  | _ => exact .gives trivial

theorem safe_onBools (op : ArithOp) (a b : Bool) : Mild (op.onBools a b) := by
  unfold ArithOp.onBools
  split
  · exact .gives trivial
  · exact .gives trivial
  · exact .gives trivial
  · exact safe_onInts op _ _

theorem safe_arith (op : ArithOp) (a b : Datum) : Mild (op.apply a b) := by
  rw [ArithOp.apply]
  cases promote a b with
  | bools a b => exact safe_onBools op a b
  | ints a b => exact safe_onInts op a b
  | uints a b => exact safe_onWords op a b
  | floats a b => exact safe_onFloats op a b

theorem safe_unary (op : UnaryOp) (d : Datum) : Mild (op.apply d) := by
  cases op <;> cases d <;> first | exact .gives trivial | exact .fails rfl

theorem safe_callFunction (name : String) (args : List Datum) : Mild (callFunction name args) := by
  unfold callFunction
  split
  · exact .gives trivial
  · exact .fails rfl
  · exact .gives trivial
  · exact .fails rfl
  · split
    · exact .gives trivial
    · exact .fails rfl
  · exact .fails rfl

-- A scope that has a value for some names, the loose ones apart, and elements for some array
-- connectors.
structure Scope.Binds (loose : String → Prop) (scope : Scope) (names : List String)
    (arrays : List (String × Nat)) : Prop where
  value : ∀ n ∈ names, loose n ∨ (scope.value? n).isSome = true
  element : ∀ array count, (array, count) ∈ arrays → ∀ index, index.length = count →
    Mild (scope.element array index)

variable {loose : String → Prop}

theorem Scope.Binds.mono {scope : Scope} {names fewer : List String}
    {arrays less : List (String × Nat)} (binds : scope.Binds loose names arrays)
    (sub : fewer ⊆ names := by simp [Expr.names, Expr.namesAll])
    (sub' : less ⊆ arrays := by simp [Expr.subscripts, Expr.subscriptsAll]) :
    scope.Binds loose fewer less :=
  ⟨fun n member => binds.value n (sub member), fun array count member => binds.element array count
    (sub' member)⟩

namespace Expr

variable {scope : Scope}

mutual

theorem tame_eval : (e : Expr) → scope.Binds loose e.names e.subscripts → Tame loose (fun _ => True)
    (e.eval scope)
  | .const value, _ => by
    rw [eval]
    exact .gives trivial
  | .name n, binds => by
    rw [eval]
    cases known : scope.value? n with
    | some value => exact .gives trivial
    | none =>
      rcases binds.value n (by simp [names]) with free | bound
      · exact .inr ⟨n, free, rfl⟩
      · simp [known] at bound
  | .subscript array indices, binds => by
    rw [eval]
    refine (tame_evalAll indices binds.mono).bind fun values length => .inl ?_
    exact binds.element array indices.length (by simp [subscripts]) _ (by rw [length_map, length])
  | .call function args, binds => by
    rw [eval]
    exact (tame_evalAll args binds.mono).bind fun values _ => .inl
      (safe_callFunction function values)
  | .unary op operand, binds => by
    rw [eval]
    exact (tame_eval operand binds.mono).bind fun value _ => .inl (safe_unary op value)
  | .arith op lhs rhs, binds => by
    rw [eval]
    refine (tame_eval lhs binds.mono).bind fun a _ => ?_
    exact (tame_eval rhs binds.mono).bind fun b _ => .inl (safe_arith op a b)
  | .compare op lhs rhs, binds => by
    rw [eval]
    refine (tame_eval lhs binds.mono).bind fun a _ => ?_
    exact (tame_eval rhs binds.mono).bind fun b _ => .gives trivial
  | .and lhs rhs, binds => by
    rw [eval]
    refine (tame_eval lhs binds.mono).bind fun a _ => .ite ?_ (.gives trivial)
    exact (tame_eval rhs binds.mono).bind fun b _ => .gives trivial
  | .or lhs rhs, binds => by
    rw [eval]
    refine (tame_eval lhs binds.mono).bind fun a _ => .ite (.gives trivial) ?_
    exact (tame_eval rhs binds.mono).bind fun b _ => .gives trivial
  | .ifElse cond yes no, binds => by
    rw [eval]
    refine (tame_eval cond binds.mono).bind fun a _ => .ite ?_ ?_
    · exact tame_eval yes binds.mono
    · exact tame_eval no binds.mono

theorem tame_evalAll : (es : List Expr) → scope.Binds loose (namesAll es) (subscriptsAll es) →
    Tame loose (fun values => values.length = es.length) (evalAll scope es)
  | [], _ => by
    rw [evalAll]
    exact .gives rfl
  | e :: rest, binds => by
    rw [evalAll]
    refine (tame_eval e binds.mono).bind fun value _ => ?_
    refine (tame_evalAll rest binds.mono).bind fun values length => ?_
    exact .gives (by simp [length])

end

end Expr

end Kernel

end TraceFlow
