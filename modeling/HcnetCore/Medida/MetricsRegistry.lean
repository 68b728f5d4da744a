import Mathlib.Data.List.AList
import Mathlib.Data.Finset.Basic
import Mathlib.Data.Rat.Defs

/-! `medida::MetricsRegistry` (`metrics_registry.cc`), the map from metric names to the metrics
that components report through, such as the overlay's meters. `NewMetric` builds a metric only
for a name not yet in `metrics_` and hands back the one the map holds, so the first request for a
name fixes its metric for good; a request for that name as another class fails in `dynamic_cast`
with `std::bad_cast`. The metric classes' own code is not part of the model: a metric is its class
with the arguments its constructor received, and `SamplingInterface::SampleType` is a parameter. -/

namespace Medida

/-- A metric as `NewMetric` builds it; durations are integer ticks. -/
inductive Metric (SampleType : Type)
  | counter (init_value : ℤ)
  | histogram (sample_type : SampleType) (ckms_window_size : ℕ)
  | meter (event_type : String) (rate_unit : ℕ)
  | timer (duration_unit rate_unit ckms_window_size : ℕ)
  | buckets (boundaries : Finset ℚ) (duration_unit rate_unit : ℕ)
deriving DecidableEq

/-- The classes that `dynamic_cast` tells apart. -/
inductive MetricType
  | counter
  | histogram
  | meter
  | timer
  | buckets
deriving DecidableEq, Repr

def Metric.type {σ : Type} : Metric σ → MetricType
  | .counter .. => .counter
  | .histogram .. => .histogram
  | .meter .. => .meter
  | .timer .. => .timer
  | .buckets .. => .buckets

/-- `MetricsRegistry::Impl`, with `metrics_` a finite map, whose keys are distinct. -/
structure MetricsRegistry (Name SampleType : Type) where
  metrics_ : AList fun _ : Name => Metric SampleType
  ckms_window_size_ : ℕ

namespace MetricsRegistry
variable {Name σ : Type} [DecidableEq Name]

/-- `Impl(ckms_window_size)`. -/
def new (ckms_window_size : ℕ) : MetricsRegistry Name σ := ⟨∅, ckms_window_size⟩

/-- `NewMetric<MetricType>(name, args...)`, where `metric` is what `make_shared` builds from the
arguments: the state the call leaves, and the metric it returns or `none` for `std::bad_cast`. -/
def newMetric (r : MetricsRegistry Name σ) (name : Name) (metric : Metric σ) :
    Option (Metric σ) × MetricsRegistry Name σ :=
  let r := if name ∈ r.metrics_ then r else { r with metrics_ := r.metrics_.insert name metric }
  match r.metrics_.lookup name with
  | some found => (if found.type = metric.type then some found else none, r)
  | none => (none, r)

def newCounter (r : MetricsRegistry Name σ) (name : Name) (init_value : ℤ) :
    Option (Metric σ) × MetricsRegistry Name σ :=
  r.newMetric name (.counter init_value)

def newHistogram (r : MetricsRegistry Name σ) (name : Name) (sample_type : σ) :
    Option (Metric σ) × MetricsRegistry Name σ :=
  r.newMetric name (.histogram sample_type r.ckms_window_size_)

def newMeter (r : MetricsRegistry Name σ) (name : Name) (event_type : String) (rate_unit : ℕ) :
    Option (Metric σ) × MetricsRegistry Name σ :=
  r.newMetric name (.meter event_type rate_unit)

def newTimer (r : MetricsRegistry Name σ) (name : Name) (duration_unit rate_unit : ℕ) :
    Option (Metric σ) × MetricsRegistry Name σ :=
  r.newMetric name (.timer duration_unit rate_unit r.ckms_window_size_)

def newBuckets (r : MetricsRegistry Name σ) (name : Name) (boundaries : Finset ℚ)
    (duration_unit rate_unit : ℕ) : Option (Metric σ) × MetricsRegistry Name σ :=
  r.newMetric name (.buckets boundaries duration_unit rate_unit)

/-- `GetAllMetrics()`, a copy of the map. -/
def getAllMetrics (r : MetricsRegistry Name σ) : AList fun _ : Name => Metric σ := r.metrics_

/-- A call on the registry; each runs whole under `mutex_`. -/
inductive Call (Name SampleType : Type)
  | newCounter (name : Name) (init_value : ℤ)
  | newHistogram (name : Name) (sample_type : SampleType)
  | newMeter (name : Name) (event_type : String) (rate_unit : ℕ)
  | newTimer (name : Name) (duration_unit rate_unit : ℕ)
  | newBuckets (name : Name) (boundaries : Finset ℚ) (duration_unit rate_unit : ℕ)

def step (r : MetricsRegistry Name σ) :
    Call Name σ → Option (Metric σ) × MetricsRegistry Name σ
  | .newCounter name v => r.newCounter name v
  | .newHistogram name t => r.newHistogram name t
  | .newMeter name e u => r.newMeter name e u
  | .newTimer name d u => r.newTimer name d u
  | .newBuckets name b d u => r.newBuckets name b d u

/-- The calls in order, with what each returned. -/
def run (r : MetricsRegistry Name σ) :
    List (Call Name σ) → List (Option (Metric σ)) × MetricsRegistry Name σ
  | [] => ([], r)
  | c :: cs =>
    let p := r.step c
    let q := p.2.run cs
    (p.1 :: q.1, q.2)

namespace Call

def name : Call Name σ → Name
  | newCounter name .. | newHistogram name .. | newMeter name .. | newTimer name ..
  | newBuckets name .. => name

/-- The metric a call builds in a registry whose window size is `w`. -/
def metric (w : ℕ) : Call Name σ → Metric σ
  | newCounter _ v => .counter v
  | newHistogram _ t => .histogram t w
  | newMeter _ e u => .meter e u
  | newTimer _ d u => .timer d u w
  | newBuckets _ b d u => .buckets b d u

end Call

/-- Each call's name with the metric it would build, in order. -/
def requests (w : ℕ) (cs : List (Call Name σ)) : List (Name × Metric σ) :=
  cs.map fun c => (c.name, c.metric w)

theorem step_eq (r : MetricsRegistry Name σ) (c : Call Name σ) :
    r.step c = r.newMetric c.name (c.metric r.ckms_window_size_) := by
  cases c <;> rfl

/-- What `NewMetric` does: a new name gets the metric built for it; a known name leaves the state
as it is and gets its metric back when that is of the class asked for. -/
theorem newMetric_eq (r : MetricsRegistry Name σ) (name : Name) (metric : Metric σ) :
    r.newMetric name metric = match r.metrics_.lookup name with
      | some found => (if found.type = metric.type then some found else none, r)
      | none => (some metric, { r with metrics_ := r.metrics_.insert name metric }) := by
  cases h : r.metrics_.lookup name with
  | none => simp [newMetric, AList.lookup_eq_none.1 h]
  | some found =>
    have hmem : name ∈ r.metrics_ := AList.lookup_isSome.1 (by rw [h]; rfl)
    simp [newMetric, hmem, h]

@[simp]
theorem newMetric_ckms_window_size (r : MetricsRegistry Name σ) (name : Name)
    (metric : Metric σ) :
    (r.newMetric name metric).2.ckms_window_size_ = r.ckms_window_size_ := by
  rw [newMetric_eq]
  split <;> rfl

theorem lookup_cons_eq_or {β : Type} (k a : Name) (m : β) (es : List (Name × β)) :
    ((k, m) :: es).lookup a = ([(k, m)].lookup a).or (es.lookup a) := by
  by_cases h : a = k
  · simp [List.lookup_cons, List.lookup_nil, h]
  · simp [List.lookup_cons, List.lookup_nil, beq_eq_false_iff_ne.2 h]

theorem lookup_newMetric (r : MetricsRegistry Name σ) (n : Name) (metric : Metric σ)
    (name : Name) :
    (r.newMetric n metric).2.metrics_.lookup name =
      (r.metrics_.lookup name).or ([(n, metric)].lookup name) := by
  rw [newMetric_eq]
  by_cases h : name = n
  · subst h
    cases hl : r.metrics_.lookup name <;> simp [hl, List.lookup_cons, List.lookup_nil]
  · cases r.metrics_.lookup n <;>
      simp [AList.lookup_insert_ne h, List.lookup_cons, List.lookup_nil, beq_eq_false_iff_ne.2 h]

@[simp]
theorem run_ckms_window_size (r : MetricsRegistry Name σ) (cs : List (Call Name σ)) :
    (r.run cs).2.ckms_window_size_ = r.ckms_window_size_ := by
  induction cs generalizing r with
  | nil => rfl
  | cons c cs ih => simp [run, ih, step_eq]

theorem length_run (r : MetricsRegistry Name σ) (cs : List (Call Name σ)) :
    (r.run cs).1.length = cs.length := by
  induction cs generalizing r with
  | nil => rfl
  | cons c cs ih => simp [run, ih]

theorem run_append (r : MetricsRegistry Name σ) (cs ds : List (Call Name σ)) :
    r.run (cs ++ ds) = ((r.run cs).1 ++ ((r.run cs).2.run ds).1, ((r.run cs).2.run ds).2) := by
  induction cs generalizing r with
  | nil => rfl
  | cons c cs ih => simp [run, ih]

/-- Entries are only ever added: after any run each name keeps the metric it had, and a name that
had none holds the metric of the first request for it. -/
theorem lookup_run (r : MetricsRegistry Name σ) (cs : List (Call Name σ)) (name : Name) :
    (r.run cs).2.metrics_.lookup name =
      (r.metrics_.lookup name).or ((requests r.ckms_window_size_ cs).lookup name) := by
  induction cs generalizing r with
  | nil => simp [run, requests]
  | cons c cs ih =>
    simp only [run, ih, step_eq, lookup_newMetric, newMetric_ckms_window_size, requests,
      List.map_cons, Option.or_assoc]
    rw [← lookup_cons_eq_or]

/-- From construction, `GetAllMetrics()` maps each name to the metric of the first request for
it, and holds no other name. -/
theorem lookup_run_new (w : ℕ) (cs : List (Call Name σ)) (name : Name) :
    ((new w).run cs).2.getAllMetrics.lookup name = (requests w cs).lookup name := by
  simpa [new] using lookup_run (new w : MetricsRegistry Name σ) cs name

/-- From construction, a request is answered with the metric of the first request for its name
when that metric is of the class asked for, and with `std::bad_cast` otherwise. -/
theorem run_answer (w : ℕ) (pre : List (Call Name σ)) (c : Call Name σ)
    (post : List (Call Name σ)) :
    let first := ((requests w pre).lookup c.name).getD (c.metric w)
    ((new w).run (pre ++ c :: post)).1[pre.length]? =
      some (if first.type = (c.metric w).type then some first else none) := by
  have hw := run_ckms_window_size (new w : MetricsRegistry Name σ) pre
  have hl : ((new w).run pre).2.metrics_.lookup c.name = (requests w pre).lookup c.name := by
    simpa [new] using lookup_run (new w : MetricsRegistry Name σ) pre c.name
  rw [run_append, List.getElem?_append_right (by rw [length_run]), length_run, Nat.sub_self]
  simp only [run, step_eq, List.getElem?_cons_zero, newMetric_eq, hw, hl]
  cases (requests w pre).lookup c.name <;> simp [new]

example : ((new 30 : MetricsRegistry String Unit).run
    [.newMeter "overlay.timeout.idle" "timeout" 1, .newMeter "overlay.timeout.idle" "timeout" 2,
      .newCounter "overlay.timeout.idle" 0]).1 =
    [some (.meter "timeout" 1), some (.meter "timeout" 1), none] := by
  decide

end MetricsRegistry
end Medida
