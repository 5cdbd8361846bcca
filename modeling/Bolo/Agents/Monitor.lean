import Bolo.Config.Reference
import Bolo.Kernel.Conservation
import Bolo.Library.Ledger
import Bolo.Library.MergeSort

/-!
# The monitor of the subscribers

`bolo_subscriber.c`: every subscriber counts and samples what it does, by messages to its
monitor thread. At each TOCK the monitor submits what it has collected to the aggregator, a
COUNTER for each count and a SAMPLE with the median for each sample set, and starts over.

The count has 64 bits, the parameter of `bolo_counter_pdu` has 32.
-/
namespace Bolo.Subscriber

open Library

variable {R : Type}

/-- Where `strtod` stops, and the format `%lf`. -/
class DoubleText (R : Type) [Double R] where
  strtodEnd : CString → List UInt8
  fmtLf : R → CString

inductive MetricType where
  | count | sample
  deriving DecidableEq, Repr

def MAX_SAMPLES : Nat := 256

/-- `metric_t`. -/
structure Metric (R : Type) where
  type : MetricType
  count : UInt64
  nsamples : UInt64
  samples : Vector R MAX_SAMPLES

/-- `monitor_t`. It runs until it is told to terminate. -/
structure Monitor (R : Type) where
  name : CString
  metrics : Table CString (Metric R)
  running : Bool

/-- What wakes the monitor up: its control socket, the scheduler, or another thread. `time i`
is the clock while the `i`-th metric is submitted, `top` whether `rand()` is `RAND_MAX`. -/
inductive Message where
  | control (p : Pdu)
  | tock (time : Nat → Int32)
  | input (p : Pdu) (top : Bool)

section Model

variable [Double R]

def reset (metric : Metric R) : Metric R :=
  { metric with count := 0, nsamples := 0, samples := Vector.replicate MAX_SAMPLES Double.zero }

def fresh (type : MetricType) : Metric R :=
  reset { type := type, count := 0, nsamples := 0,
          samples := Vector.replicate MAX_SAMPLES Double.zero }

/-- `_median`. The number of samples is cut to an `int`, and `qsort` takes it as a size. -/
def median (metric : Metric R) : Except Fault R :=
  let n := metric.nsamples.toUInt32.toInt32
  if metric.type ≠ .sample then .ok Double.zero
  else if n = 0 then .ok Double.zero
  else if n < 0 then .error .outOfBounds
  else
    let n := min n.toInt.toNat MAX_SAMPLES
    let sorted := msort (fun a b => !Double.lt b a) (metric.samples.toList.take n)
    if n % 2 = 0 then do
      let a ← inBounds sorted[n / 2 - 1]?
      let b ← inBounds sorted[n / 2]?
      return Double.div (Double.add a b) (Double.ofInt 2)
    else inBounds sorted[n / 2]?

/-- `bolo_counter_pdu`, called with a 64-bit value. -/
def boloCounterPdu (time : Int32) (name : CString) (value : UInt64) : Pdu :=
  { type := Tag.counter.text
    frames := [decimalInt time.toInt, name, decimal value.toUInt32.toNat] }

/-- `_metric`: the metric of that name, unless it has another type. A new one is entered. -/
def Monitor.metric [HashOrder] (m : Monitor R) (name : CString) (type : MetricType) :
    Option (Metric R) × Monitor R :=
  match m.metrics.get? name with
  | some x => (if x.type = type then some x else none, m)
  | none => (some (fresh type), { m with metrics := hashSet m.metrics name (fresh type) })

/-- Another sample. Once the array is full a new one replaces the first or none: the division
is one of integers. -/
def addSample (metric : Metric R) (value : R) (top : Bool) : Except Fault (Metric R) :=
  if h : metric.nsamples.toNat < MAX_SAMPLES then
    .ok { metric with
      nsamples := metric.nsamples + 1
      samples := metric.samples.set metric.nsamples.toNat value }
  else
    let nsamples := metric.nsamples + 1
    let i : Int32 := if top then nsamples.toUInt32.toInt32 else 0
    if i < 0 then .error .outOfBounds
    else .ok { metric with
      nsamples := nsamples
      samples := if i < 256 then metric.samples.setIfInBounds i.toInt.toNat value
        else metric.samples }

variable [DoubleText R]

def boloSamplePdu (time : Int32) (name : CString) (value : R) : Pdu :=
  { type := Tag.sample.text
    frames := [decimalInt time.toInt, name, DoubleText.fmtLf value] }

/-- What is submitted for one metric. -/
def submission (monitor name : CString) (time : Int32) (metric : Metric R) : Except Fault Pdu :=
  let submit := monitor ++ .lit ":" ++ name
  match metric.type with
  | .count => .ok (boloCounterPdu time submit metric.count)
  | .sample => do
    let x ← median metric
    return boloSamplePdu time submit x

def submissions (monitor : CString) (time : Nat → Int32) :
    Nat → List (CString × Metric R) → Except Fault (List Pdu)
  | _, [] => .ok []
  | i, (name, metric) :: l => do
    let p ← submission monitor name (time i) metric
    let ps ← submissions monitor time (i + 1) l
    return p :: ps

variable [HashOrder]

/-- `COUNT`: the name, and the value if the whole frame is a number; without one it is 1. -/
def countOf (p : Pdu) : Option (CString × UInt64) :=
  match p.frames with
  | [name] => some (name, 1)
  | name :: value :: _ => if strtoulEnd value = [] then some (name, strtoul value) else none
  | [] => none

/-- INIT: a metric is declared before it is used. -/
def receiveInit (m : Monitor R) (p : Pdu) : Monitor R :=
  match p.frames with
  | [type, name] =>
    if type = .lit "SAMPLE" then (m.metric name .sample).2
    else if type = .lit "COUNT" then (m.metric name .count).2
    else m
  | _ => m

def receiveSample (m : Monitor R) (p : Pdu) (top : Bool) : Except Fault (Monitor R) :=
  match p.frames with
  | [name, value] =>
    if DoubleText.strtodEnd R value ≠ [] then .ok m
    else
      match m.metric name .sample with
      | (none, m) => .ok m
      | (some x, m) => do
        let x ← addSample x (Double.strtod value) top
        return { m with metrics := hashSet m.metrics name x }
  | _ => .ok m

def receiveCount (m : Monitor R) (p : Pdu) : Monitor R :=
  match countOf p with
  | none => m
  | some (name, value) =>
    match m.metric name .count with
    | (none, m) => m
    | (some x, m) =>
      { m with metrics := hashSet m.metrics name { x with count := x.count + value } }

/-- `_monitor_reactor` on `monitor->input`. -/
def receive (m : Monitor R) (p : Pdu) (top : Bool) : Except Fault (Monitor R) :=
  if p.type = .lit "INIT" && p.size = 3 then .ok (receiveInit m p)
  else if p.type = .lit "SAMPLE" && p.size = 3 then receiveSample m p top
  else if p.type = .lit "COUNT" && 2 ≤ p.size then .ok (receiveCount m p)
  else .ok m

/-- `_monitor_reactor`. -/
def reactor (m : Monitor R) (msg : Message) : Except Fault (Monitor R × List Pdu) :=
  if !m.running then .ok (m, [])
  else
    match msg with
    | .control p => .ok ({ m with running := p.type ≠ .lit "TERMINATE" }, [])
    | .tock time => do
      let out ← submissions m.name time 0 m.metrics.entries
      return ({ m with metrics := m.metrics.mapValues fun _ x => reset x }, out)
    | .input p top => do
      let m ← receive m p top
      return (m, [])

def start (name : CString) : Monitor R := { name := name, metrics := .empty, running := true }

end Model

/-! ## The ledger of a count -/

/-- The COUNT value that a message carries for `name`. -/
def received (name : CString) (p : Pdu) : Option UInt64 :=
  if p.type = .lit "COUNT" && 2 ≤ p.size then
    ((countOf p).filter (·.1 = name)).map Prod.snd
  else none

/-- The value that a COUNTER PDU of the monitor shows for `name`. -/
def shown (monitor name : CString) (p : Pdu) : Option CString :=
  if p.type = Tag.counter.text && p.string 2 = some (monitor ++ .lit ":" ++ name) then p.string 3
  else none

/-- What a message that is still read means for the count `name`. At a TOCK, the values in the
COUNTER PDUs about it are flushed. -/
def entries (name : CString) (m : Monitor R) (msg : Message) (out : List Pdu) :
    List (Entry UInt64 (List CString)) :=
  if !m.running then []
  else
    match msg with
    | .control _ => []
    | .tock _ => [.flush (out.filterMap (shown m.name name))]
    | .input p _ => ((received name p).map .accept).toList

def total (vs : List UInt64) : Nat := (vs.map UInt64.toNat).sum

/-- The name and the state of the monitor are as before. -/
def Monitor.Kept (m m' : Monitor R) : Prop := m'.name = m.name ∧ m'.running = m.running

section Counts

variable [Double R] [HashOrder]

theorem metric_get? (m : Monitor R) (name : CString) (type : MetricType) (k : CString) :
    (m.metric name type).2.metrics.get? k =
      if k = name then some ((m.metrics.get? name).getD (fresh type)) else m.metrics.get? k := by
  unfold Monitor.metric
  cases hg : m.metrics.get? name with
  | none => simp
  | some x => by_cases hk : k = name <;> simp [hk, hg]

theorem metric_fst (m : Monitor R) (name : CString) (type : MetricType) :
    (m.metric name type).1 =
      if ((m.metrics.get? name).getD (fresh type)).type = type then
        some ((m.metrics.get? name).getD (fresh type))
      else none := by
  unfold Monitor.metric
  cases hg : m.metrics.get? name with
  | none => simp [fresh, reset]
  | some x => simp

theorem metric_kept (m : Monitor R) (name : CString) (type : MetricType) :
    m.Kept (m.metric name type).2 := by
  unfold Monitor.metric
  cases m.metrics.get? name <;> exact ⟨rfl, rfl⟩

omit [HashOrder] in
@[simp] theorem count_fresh (type : MetricType) : (fresh type : Metric R).count = 0 := rfl

omit [HashOrder] in
@[simp] theorem type_fresh (type : MetricType) : (fresh type : Metric R).type = type := rfl

omit [Double R] [HashOrder] in
/-- Type and count of what a table holds under a name. -/
def brief (x : Option (Metric R)) : Option (MetricType × UInt64) := x.map fun x => (x.type, x.count)

/-- The count is as before, or the metric is new. -/
def Steady (x y : Option (Metric R)) : Prop :=
  brief y = brief x ∨ x = none ∧ ∃ type, brief y = some (type, 0)

theorem metric_steady (m : Monitor R) (name : CString) (type : MetricType) (k : CString) :
    Steady (m.metrics.get? k) ((m.metric name type).2.metrics.get? k) := by
  rw [metric_get?]
  by_cases hk : k = name
  · subst hk
    cases hg : m.metrics.get? k with
    | none => exact .inr ⟨rfl, type, by simp [brief]⟩
    | some x => exact .inl (by simp [brief])
  · exact .inl (by simp [hk])

omit [Double R] [HashOrder] in
/-- Adding a sample leaves type and count alone. -/
theorem addSample_brief {x y : Metric R} {value : R} {top : Bool}
    (h : addSample x value top = .ok y) : y.type = x.type ∧ y.count = x.count := by
  unfold addSample at h
  split at h
  · cases h
    exact ⟨rfl, rfl⟩
  · simp only at h
    generalize (if top then (x.nsamples + 1).toUInt32.toInt32 else 0) = i at h
    split at h
    · cases h
    · cases h
      exact ⟨rfl, rfl⟩

/-- What a COUNT message makes of a metric. -/
def counted (value : UInt64) : Option (MetricType × UInt64) → Option (MetricType × UInt64)
  | none => some (.count, value)
  | some (.count, n) => some (.count, n + value)
  | some (.sample, n) => some (.sample, n)

variable {m m' : Monitor R} {p : Pdu} {top : Bool} {name : CString}

theorem receiveInit_spec (m : Monitor R) (p : Pdu) (name : CString) :
    m.Kept (receiveInit m p) ∧
      Steady (m.metrics.get? name) ((receiveInit m p).metrics.get? name) := by
  unfold receiveInit
  split
  · split
    · exact ⟨metric_kept .., metric_steady ..⟩
    · split
      · exact ⟨metric_kept .., metric_steady ..⟩
      · exact ⟨⟨rfl, rfl⟩, .inl rfl⟩
  · exact ⟨⟨rfl, rfl⟩, .inl rfl⟩

/-- A COUNT message is counted by the metric it names, and by no other. -/
theorem receiveCount_spec (m : Monitor R) (p : Pdu) (name : CString) :
    m.Kept (receiveCount m p) ∧ brief ((receiveCount m p).metrics.get? name) =
      (((countOf p).filter (·.1 = name)).map Prod.snd).elim (brief (m.metrics.get? name))
        (fun v => counted v (brief (m.metrics.get? name))) := by
  unfold receiveCount
  cases countOf p with
  | none => exact ⟨⟨rfl, rfl⟩, rfl⟩
  | some c =>
    obtain ⟨name', v⟩ := c
    dsimp only
    have hkept := metric_kept m name' .count
    have hfst := metric_fst m name' .count
    have hget := metric_get? m name' .count
    generalize m.metric name' .count = r at hkept hfst hget
    obtain ⟨x, m'⟩ := r
    simp only at hkept hfst hget
    by_cases hname : name' = name
    · subst hname
      cases hx : m.metrics.get? name' with
      | none =>
        obtain rfl : x = some (fresh .count) := by simpa [hx] using hfst
        exact ⟨hkept, by simp [brief, counted, Option.filter]⟩
      | some y =>
        cases htype : y.type with
        | count =>
          obtain rfl : x = some y := by simpa [hx, htype] using hfst
          exact ⟨hkept, by simp [brief, counted, htype, Option.filter]⟩
        | sample =>
          obtain rfl : x = none := by simpa [hx, htype] using hfst
          exact ⟨hkept, by simp [hget, hx, brief, counted, htype, Option.filter]⟩
    · have hother : name ≠ name' := fun h => hname h.symm
      cases x with
      | none => exact ⟨hkept, by simp [hget, hname, hother, Option.filter]⟩
      | some y => exact ⟨hkept, by simp [hget, hname, hother, Option.filter]⟩

variable [DoubleText R]

theorem receiveSample_spec (h : receiveSample m p top = .ok m') (name : CString) :
    m.Kept m' ∧ Steady (m.metrics.get? name) (m'.metrics.get? name) := by
  unfold receiveSample at h
  split at h
  case h_2 =>
    obtain rfl : m = m' := Except.ok.inj h
    exact ⟨⟨rfl, rfl⟩, .inl rfl⟩
  case h_1 name' value _ =>
    split at h
    · obtain rfl : m = m' := Except.ok.inj h
      exact ⟨⟨rfl, rfl⟩, .inl rfl⟩
    · have hkept := metric_kept m name' .sample
      have hsteady := metric_steady m name' .sample name
      have hfst := metric_fst m name' .sample
      have hget := metric_get? m name' .sample name'
      generalize m.metric name' .sample = r at h hkept hfst hsteady hget
      obtain ⟨x, m₁⟩ := r
      cases x with
      | none =>
        obtain rfl : m₁ = m' := Except.ok.inj h
        exact ⟨hkept, hsteady⟩
      | some x =>
        obtain ⟨y, hy, rfl⟩ : ∃ y, addSample x (Double.strtod value) top = .ok y ∧
            { m₁ with metrics := hashSet m₁.metrics name' y } = m' := by
          simpa only [bind_eq_ok, pure_eq_ok] using h
        refine ⟨hkept, ?_⟩
        by_cases hname : name = name'
        · subst hname
          obtain ⟨htype, hcount⟩ := addSample_brief hy
          obtain rfl : x = (m.metrics.get? name).getD (fresh .sample) := by
            simp only at hfst
            split at hfst
            · exact Option.some.inj hfst
            · cases hfst
          have hsame : brief (m₁.metrics.get? name) =
              brief ((hashSet m₁.metrics name y).get? name) := by
            simp [brief, hget, htype, hcount]
          simpa only [Steady, hsame] using hsteady
        · simpa [hname] using hsteady

theorem receive_spec (h : receive m p top = .ok m') (name : CString) :
    m.Kept m' ∧ (received name p = none → Steady (m.metrics.get? name) (m'.metrics.get? name)) ∧
      ∀ v, received name p = some v →
        brief (m'.metrics.get? name) = counted v (brief (m.metrics.get? name)) := by
  unfold receive at h
  by_cases hcount : p.type = .lit "COUNT"
  · have hinit : p.type ≠ .lit "INIT" := by rw [hcount]; decide
    have hsample : p.type ≠ .lit "SAMPLE" := by rw [hcount]; decide
    simp only [hinit, hsample, decide_false, Bool.false_and, Bool.false_eq_true, if_false] at h
    split at h
    · obtain rfl : receiveCount m p = m' := Except.ok.inj h
      obtain ⟨hkept, hbrief⟩ := receiveCount_spec m p name
      rename_i hsize
      rw [received, if_pos hsize]
      refine ⟨hkept, fun hnone => .inl ?_, fun v hv => ?_⟩
      · rw [hbrief, hnone, Option.elim_none]
      · rw [hbrief, hv, Option.elim_some]
    · obtain rfl : m = m' := Except.ok.inj h
      rename_i hsize
      rw [received, if_neg hsize]
      exact ⟨⟨rfl, rfl⟩, fun _ => .inl rfl, fun v hv => by cases hv⟩
  · have hnone : received name p = none := by simp [received, hcount]
    have hsteady : m.Kept m' ∧ Steady (m.metrics.get? name) (m'.metrics.get? name) := by
      simp only [hcount, decide_false, Bool.false_and, Bool.false_eq_true, if_false] at h
      split at h
      · exact Except.ok.inj h ▸ receiveInit_spec m p name
      · split at h
        · exact receiveSample_spec h name
        · exact Except.ok.inj h ▸ ⟨⟨rfl, rfl⟩, .inl rfl⟩
    refine ⟨hsteady.1, fun _ => hsteady.2, fun v hv => ?_⟩
    rw [hnone] at hv
    cases hv

/-! ## TOCK -/

omit [HashOrder] [DoubleText R] in
/-- The value that is submitted for a metric, if it is a count. -/
def submitted (x : Metric R) : Option CString :=
  if x.type = .count then some (decimal x.count.toUInt32.toNat) else none

omit [Double R] [HashOrder] [DoubleText R] in
/-- Metrics of two names are submitted under two names. -/
theorem submit_inj {monitor name name' : CString} :
    monitor ++ .lit ":" ++ name' = monitor ++ .lit ":" ++ name ↔ name' = name := by
  simp [CString.ext_iff]

omit [HashOrder] in
/-- Only a count shows up in the COUNTER PDUs about its own name. -/
theorem shown_submission {monitor name' : CString} {time : Int32} {x : Metric R}
    (h : submission monitor name' time x = .ok p) (name : CString) :
    shown monitor name p = if name' = name then submitted x else none := by
  unfold submission at h
  cases htype : x.type with
  | count =>
    simp only [htype, Except.ok.injEq] at h
    subst h
    simp [shown, boloCounterPdu, submitted, Pdu.string, htype, submit_inj]
  | sample =>
    simp only [htype, bind_eq_ok, pure_eq_ok] at h
    obtain ⟨v, -, rfl⟩ := h
    simp [shown, boloSamplePdu, submitted, htype]

omit [HashOrder] in
/-- What is seen of the submissions of a TOCK, metric by metric. -/
theorem filterMap_submissions {W : Type} {f : Pdu → Option W} {g : CString → Metric R → Option W}
    {monitor : CString}
    (hf : ∀ name time x p, submission monitor name time x = .ok p → f p = g name x)
    {time : Nat → Int32} {i : Nat} {l : List (CString × Metric R)} {out : List Pdu}
    (h : submissions monitor time i l = .ok out) :
    out.filterMap f = l.filterMap fun e => g e.1 e.2 := by
  induction l generalizing i out with
  | nil =>
    obtain rfl : [] = out := Except.ok.inj h
    rfl
  | cons e l ih =>
    simp only [submissions, bind_eq_ok, pure_eq_ok] at h
    obtain ⟨p, hp, ps, hps, rfl⟩ := h
    simp only [List.filterMap_cons, hf _ _ _ _ hp, ih hps]

omit [HashOrder] in
theorem shown_submissions {monitor : CString} {time : Nat → Int32} {i : Nat}
    {l : List (CString × Metric R)} {out : List Pdu}
    (h : submissions monitor time i l = .ok out) (name : CString) :
    out.filterMap (shown monitor name) =
      l.filterMap fun e => if e.1 = name then submitted e.2 else none :=
  filterMap_submissions (fun _ _ _ _ hp => shown_submission hp name) h

/-! ## Runs -/

/-- What a TOCK shows for the values `vs` that came since the TOCK before it. -/
def Wrapped (vs : List UInt64) (texts : List CString) : Prop :=
  texts = [decimal (total vs % 2 ^ 64 % 2 ^ 32)] ∨ vs = [] ∧ texts = []

/-- The ledger `l` explains the count of `name`, unless that is a sample set. -/
def Explains (name : CString) (m : Monitor R) (l : List (Entry UInt64 (List CString))) : Prop :=
  match brief (m.metrics.get? name) with
  | none => Ledger.pending l = [] ∧ Ledger.Flushes Wrapped l
  | some (.count, n) =>
    n.toNat = total (Ledger.pending l) % 2 ^ 64 ∧ Ledger.Flushes Wrapped l
  | some (.sample, _) => True

omit [Double R] [HashOrder] [DoubleText R] in
theorem Explains.steady {name : CString} {m m' : Monitor R}
    {l : List (Entry UInt64 (List CString))} (h : Explains name m l)
    (hs : Steady (m.metrics.get? name) (m'.metrics.get? name)) : Explains name m' l := by
  rcases hs with hs | ⟨hnone, type, hs⟩
  · rwa [Explains, hs]
  · rw [Explains, hnone] at h
    rw [Explains, hs]
    cases type with
    | count => exact ⟨by simp [h.1, total], h.2⟩
    | sample => trivial

omit [Double R] [HashOrder] [DoubleText R] in
theorem Explains.accept {name : CString} {m m' : Monitor R}
    {l : List (Entry UInt64 (List CString))} (h : Explains name m l) {v : UInt64}
    (hc : brief (m'.metrics.get? name) = counted v (brief (m.metrics.get? name))) :
    Explains name m' (l ++ [.accept v]) := by
  unfold Explains at h ⊢
  rw [hc]
  cases hb : brief (m.metrics.get? name) with
  | none =>
    simp only [hb, counted] at h ⊢
    have hlt := v.toNat_lt
    exact ⟨by simp [h.1, total, Nat.mod_eq_of_lt hlt], h.2.accept v⟩
  | some c =>
    obtain ⟨type, n⟩ := c
    cases type with
    | count =>
      simp only [hb, counted] at h ⊢
      refine ⟨?_, h.2.accept v⟩
      simp [UInt64.toNat_add, h.1, total]
    | sample => simp [counted]

/-- Each message keeps the ledger up to date. -/
theorem explains_step {name : CString} {m m' : Monitor R} {msg : Message} {out : List Pdu}
    {l : List (Entry UInt64 (List CString))} (h : Explains name m l)
    (hstep : reactor m msg = .ok (m', out)) :
    Explains name m' (l ++ entries name m msg out) := by
  unfold reactor at hstep
  split at hstep
  case isTrue hrun =>
    obtain ⟨rfl, rfl⟩ : m = m' ∧ ([] : List Pdu) = out := by simpa using hstep
    simpa [entries, hrun] using h
  case isFalse hrun =>
    cases msg with
    | control p =>
      obtain ⟨rfl, rfl⟩ := Prod.mk.inj (Except.ok.inj hstep)
      simpa [entries, hrun, Explains] using h
    | input p top =>
      simp only [bind_eq_ok, pure_eq_ok, Prod.mk.injEq] at hstep
      obtain ⟨m₁, hreceive, rfl, rfl⟩ := hstep
      obtain ⟨-, hnone, hsome⟩ := receive_spec hreceive name
      cases hr : received name p with
      | none => simpa [entries, hrun, hr] using h.steady (hnone hr)
      | some v => simpa [entries, hrun, hr] using h.accept (hsome v hr)
    | tock time =>
      simp only [bind_eq_ok, pure_eq_ok, Prod.mk.injEq] at hstep
      obtain ⟨out', hout, rfl, rfl⟩ := hstep
      have hshown := shown_submissions hout name
      rw [Table.filterMap_entries] at hshown
      simp only [entries, hrun, hshown]
      unfold Explains at h ⊢
      simp only [Table.get?_mapValues]
      cases hx : m.metrics.get? name with
      | none =>
        simp only [hx, brief, Option.map_none] at h ⊢
        exact ⟨by simp, h.2.flush (.inr ⟨h.1, by simp⟩)⟩
      | some x =>
        cases htype : x.type with
        | count =>
          simp only [hx, brief, Option.map_some, htype, reset] at h ⊢
          refine ⟨by simp [total], h.2.flush (.inl ?_)⟩
          simp [submitted, htype, h.1]
        | sample => simp [brief, reset, htype]

variable (R) in
/-- What the messages `msgs` meant for the count `name`, from the start of the monitor. -/
def ledger (name monitor : CString) (msgs : List Message) : List (Entry UInt64 (List CString)) :=
  Machine.log reactor (entries name) (start monitor : Monitor R) msgs

theorem explains_run {monitor : CString} {m : Monitor R} {msgs : List Message} {out : List Pdu}
    (hrun : Machine.run reactor (start monitor) msgs = .ok (m, out)) (name : CString) :
    Explains name m (ledger R name monitor msgs) := by
  have hstart : Explains name (start monitor : Monitor R) [] := ⟨rfl, .nil⟩
  have hstep : ∀ (s : Monitor R) i t out l, Explains name s l → True →
      reactor s i = .ok (t, out) → Explains name t (l ++ entries name s i out) :=
    fun _ _ _ _ _ h _ hstep => explains_step h hstep
  simpa [ledger] using Machine.log_invariant hstep hstart (fun _ _ => trivial) hrun

/-- A TOCK shows the exact sum of the values `vs`, if 64 bits can hold it. -/
def Exact (vs : List UInt64) (texts : List CString) : Prop :=
  total vs < 2 ^ 64 → (∀ t ∈ texts, t = decimal (total vs)) ∧ (vs ≠ [] → texts.length = 1)

omit [Double R] [HashOrder] [DoubleText R] in
theorem Wrapped.exact_iff {vs : List UInt64} {texts : List CString} (h : Wrapped vs texts) :
    Exact vs texts ↔ (total vs < 2 ^ 64 → total vs < 2 ^ 32) := by
  unfold Exact
  rcases h with rfl | ⟨rfl, rfl⟩
  · refine forall_congr' fun hlt => ?_
    simp [decimal_inj]
  · simp [total]

/-- No sum of COUNT values is lost: every TOCK shows it, and what was shown and what is still
pending add up to what was received. -/
structure Kept (x : Metric R) (l : List (Entry UInt64 (List CString))) : Prop where
  exact : Ledger.Flushes Exact l
  conserved : Ledger.Flushes (fun vs _ => total vs < 2 ^ 64) l →
    total (Ledger.pending l) < 2 ^ 64 →
    ((Ledger.flushed l).map fun texts => (texts.map fun t => (strtoul t).toNat).sum).sum +
      x.count.toNat = total (Ledger.accepted l)

/-- The counts of a run are kept exactly if no sum between two TOCKs that 64 bits can hold
needs more than 32. -/
theorem counts_kept_iff {name monitor : CString} {m : Monitor R} {msgs : List Message}
    {out : List Pdu} {x : Metric R}
    (hrun : Machine.run reactor (start monitor) msgs = .ok (m, out))
    (hx : m.metrics.get? name = some x) (htype : x.type = .count) :
    Kept x (ledger R name monitor msgs) ↔
      Ledger.Flushes (fun vs _ => total vs < 2 ^ 64 → total vs < 2 ^ 32)
        (ledger R name monitor msgs) := by
  have hexplains := explains_run hrun name
  generalize ledger R name monitor msgs = l at *
  simp only [Explains, hx, brief, Option.map_some, htype] at hexplains
  obtain ⟨hcount, hwrapped⟩ := hexplains
  constructor
  · intro hkept before texts after heq
    exact (hwrapped before texts after heq).exact_iff.mp (hkept.exact before texts after heq)
  · intro hfits
    have hexact : Ledger.Flushes Exact l := fun before texts after heq =>
      (hwrapped before texts after heq).exact_iff.mpr (hfits before texts after heq)
    refine ⟨hexact, fun hsmall hpending => ?_⟩
    have hflush : Ledger.Flushes (fun vs texts =>
        (texts.map fun t => (strtoul t).toNat).sum = (vs.map UInt64.toNat).sum) l := by
      intro before texts after heq
      have hlt := hsmall before texts after heq
      rcases hwrapped before texts after heq with rfl | ⟨hnil, rfl⟩
      · have hlt' := hfits before _ after heq hlt
        simp only [List.map_cons, List.map_nil, List.sum_cons, List.sum_nil, Nat.add_zero]
        rw [strtoul_decimal (by omega)]
        change _ = total (Ledger.pending before)
        omega
      · simp [hnil]
    rw [hcount, Nat.mod_eq_of_lt hpending]
    exact hflush.conservation

end Counts

/-! ## On the reference platform -/

section Reference

open Bolo.Reference

scoped instance : DoubleText Int where
  strtodEnd := strtoulEnd
  fmtLf := decimalInt

def count (frames : List String) : Message :=
  .input { type := .lit "COUNT", frames := frames.map .lit } false

/-- Two counts between TOCKs, then one, and one that is pending. -/
def smallCounts : List Message :=
  [count ["msgs", "5"], count ["msgs"], .tock fun _ => 60, count ["msgs", "7"],
   .tock fun _ => 120, count ["msgs", "2"]]

theorem counts_kept_small : ∃ (m : Monitor Int) (out : List Pdu) (x : Metric Int),
    Machine.run reactor (start (.lit "host:bolo")) smallCounts = .ok (m, out) ∧
      m.metrics.get? (.lit "msgs") = some x ∧ x.count = 2 ∧
      Kept x (ledger Int (.lit "msgs") (.lit "host:bolo") smallCounts) := by
  have hall : (Machine.run reactor (start (.lit "host:bolo") : Monitor Int) smallCounts).map
      (fun r => brief (r.1.metrics.get? (.lit "msgs"))) = .ok (some (.count, 2)) := by
    decide +kernel
  obtain ⟨⟨m, out⟩, hrun⟩ := exists_ok
    (x := Machine.run reactor (start (.lit "host:bolo") : Monitor Int) smallCounts)
    (by decide +kernel)
  rw [hrun] at hall
  obtain ⟨x, hx, hbrief⟩ := Option.map_eq_some_iff.mp (Except.ok.inj hall)
  obtain ⟨htype, hcount⟩ := Prod.mk.inj hbrief
  refine ⟨m, out, x, hrun, hx, hcount, (counts_kept_iff hrun hx htype).mpr ?_⟩
  have hledger : ledger Int (.lit "msgs") (.lit "host:bolo") smallCounts =
      [.accept 5, .accept 1, .flush [.lit "6"], .accept 7, .flush [.lit "7"], .accept 2] := by
    rfl
  rw [hledger]
  exact ((((Ledger.Flushes.nil.accept 5).accept 1).flush (by decide)).accept 7).flush (by decide)
    |>.accept 2

def largeCount : List Message := [count ["bytes", "4294967296"], .tock fun _ => 60]

/-- A sum of `2 ^ 32` is submitted as 0. -/
theorem count_lost : ∃ (m : Monitor Int) (x : Metric Int),
    Machine.run reactor (start (.lit "host:bolo")) largeCount =
        .ok (m, [pdu .counter ["60", "host:bolo:bytes", "0"]]) ∧
      m.metrics.get? (.lit "bytes") = some x ∧ x.type = .count ∧ x.count = 0 ∧
      ledger Int (.lit "bytes") (.lit "host:bolo") largeCount =
        [.accept 4294967296, .flush [.lit "0"]] ∧
      ¬Kept x (ledger Int (.lit "bytes") (.lit "host:bolo") largeCount) := by
  have hall : (Machine.run reactor (start (.lit "host:bolo") : Monitor Int) largeCount).map
      (fun r => (brief (r.1.metrics.get? (.lit "bytes")), r.2)) =
        .ok (some (.count, 0), [pdu .counter ["60", "host:bolo:bytes", "0"]]) := by
    decide +kernel
  obtain ⟨⟨m, out⟩, hrun⟩ := exists_ok
    (x := Machine.run reactor (start (.lit "host:bolo") : Monitor Int) largeCount)
    (by decide +kernel)
  rw [hrun] at hall
  obtain ⟨hmetric, rfl⟩ := Prod.mk.inj (Except.ok.inj hall)
  obtain ⟨x, hx, hbrief⟩ := Option.map_eq_some_iff.mp hmetric
  obtain ⟨htype, hcount⟩ := Prod.mk.inj hbrief
  have hledger : ledger Int (.lit "bytes") (.lit "host:bolo") largeCount =
      [.accept 4294967296, .flush [.lit "0"]] := rfl
  refine ⟨m, x, hrun, hx, htype, hcount, hledger, fun hkept => ?_⟩
  have hexact := (hkept.exact [.accept 4294967296] [.lit "0"] [] hledger (by decide)).1
  exact absurd (hexact (.lit "0") (by simp)) (by decide +kernel)

end Reference

end Bolo.Subscriber
