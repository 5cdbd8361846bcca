import Bolo.Agents.Monitor
import Bolo.Aggregator.Statistics

/-!
# The samples of the monitor

Between two TOCKs a sample set collects the values that the SAMPLE messages carry for it. What
else the monitor receives does not matter to it. The first 256 values fill the array in their
order; what happens to a later one depends on `rand()`.
-/
namespace Bolo.Subscriber

open Library

variable {R : Type}

/-! ## What a message means for a sample set -/

section Collect

variable [Double R] [DoubleText R]

/-- The value that a message carries for the sample set `name`, and whether `rand()` is
`RAND_MAX`. -/
def sampleOf (name : CString) : Message → Option (R × Bool)
  | .input p top =>
    match p.frames with
    | [name', value] =>
      if p.type = .lit "SAMPLE" ∧ name' = name ∧ DoubleText.strtodEnd R value = [] then
        some (Double.strtod value, top)
      else none
    | _ => none
  | _ => none

/-- `name` is a sample set, or nothing yet. -/
def Sampling (name : CString) (m : Monitor R) : Prop :=
  ∀ x, m.metrics.get? name = some x → x.type = .sample

/-- The sample set `name`, or what it would be entered as. -/
def sampleSet (name : CString) (m : Monitor R) : Metric R :=
  (m.metrics.get? name).getD (fresh .sample)

/-- What a value makes of a sample set. -/
def collect (x : Metric R) (v : R × Bool) : Except Fault (Metric R) := addSample x v.1 v.2

omit [DoubleText R] in
theorem Sampling.of_eq {name : CString} {m m' : Monitor R} (h : Sampling name m')
    (heq : m'.metrics.get? name = m.metrics.get? name) :
    Sampling name m ∧ sampleSet name m' = sampleSet name m :=
  ⟨fun x hx => h x (heq.trans hx), by rw [sampleSet, sampleSet, heq]⟩

variable [HashOrder]

omit [DoubleText R] in
/-- `_metric` leaves a sample set as it is, or enters it. -/
theorem Sampling.metric {name name' : CString} {type : MetricType} {m : Monitor R}
    (h : Sampling name (m.metric name' type).2) :
    Sampling name m ∧ sampleSet name (m.metric name' type).2 = sampleSet name m := by
  by_cases hname : name = name'
  · subst hname
    have hget := metric_get? m name type name
    rw [if_pos rfl] at hget
    have htype := h _ hget
    cases hx : m.metrics.get? name with
    | none =>
      rw [hx, Option.getD_none, type_fresh] at htype
      subst htype
      exact ⟨fun x hx' => by simp [hx] at hx', by rw [sampleSet, sampleSet, hget, hx]; rfl⟩
    | some x =>
      rw [hx, Option.getD_some] at htype hget
      exact h.of_eq (hget.trans hx.symm)
  · exact h.of_eq (by rw [metric_get?, if_neg hname])

omit [DoubleText R] in
theorem metric_some {name : CString} {type : MetricType} {m : Monitor R} {x : Metric R}
    (h : (m.metric name type).1 = some x) :
    x = (m.metrics.get? name).getD (fresh type) ∧ x.type = type := by
  rw [metric_fst] at h
  split at h
  · case isTrue htype =>
    obtain rfl := Option.some.inj h
    exact ⟨rfl, htype⟩
  · cases h

omit [DoubleText R] in
theorem metric_none {name : CString} {type : MetricType} {m : Monitor R}
    (h : (m.metric name type).1 = none) : ∃ x, m.metrics.get? name = some x ∧ x.type ≠ type := by
  rw [metric_fst] at h
  split at h
  · cases h
  · case isFalse htype =>
    cases hx : m.metrics.get? name with
    | none => simp [hx] at htype
    | some x => exact ⟨x, rfl, by simpa [hx] using htype⟩

omit [DoubleText R] in
/-- A metric that is changed after `_metric` returned it. -/
theorem Sampling.set {name name' : CString} {type : MetricType} {m m' : Monitor R}
    {x y : Metric R} (h : Sampling name m') (hx : (m.metric name' type).1 = some x)
    (hy : y.type = x.type)
    (hm' : m'.metrics = hashSet (m.metric name' type).2.metrics name' y) : Sampling name m ∧
      if name' = name then type = .sample ∧ sampleSet name m = x ∧ sampleSet name m' = y
      else sampleSet name m' = sampleSet name m := by
  obtain ⟨heq, htype⟩ := metric_some hx
  by_cases hname : name' = name
  · subst hname
    have hget : m'.metrics.get? name' = some y := by simp [hm']
    have hsample : type = .sample := by rw [← htype, ← hy]; exact h y hget
    subst hsample
    refine ⟨fun z hz => ?_, ?_⟩
    · rw [hz, Option.getD_some] at heq
      rw [← heq, htype]
    · rw [if_pos rfl]
      exact ⟨rfl, heq.symm, by rw [sampleSet, hget, Option.getD_some]⟩
  · rw [if_neg hname]
    refine h.of_eq ?_
    rw [hm', get?_hashSet, if_neg (Ne.symm hname), metric_get?, if_neg (Ne.symm hname)]

omit [DoubleText R] in
theorem Sampling.receiveInit {name : CString} {m : Monitor R} {p : Pdu}
    (h : Sampling name (receiveInit m p)) :
    Sampling name m ∧ sampleSet name (Subscriber.receiveInit m p) = sampleSet name m := by
  have hcases : Subscriber.receiveInit m p = m ∨
      ∃ name' type, Subscriber.receiveInit m p = (m.metric name' type).2 := by
    unfold Subscriber.receiveInit
    split
    · split
      · exact .inr ⟨_, _, rfl⟩
      · split
        · exact .inr ⟨_, _, rfl⟩
        · exact .inl rfl
    · exact .inl rfl
  rcases hcases with heq | ⟨name', type, heq⟩ <;> rw [heq] at h ⊢
  · exact ⟨h, rfl⟩
  · exact h.metric

omit [DoubleText R] in
theorem Sampling.receiveCount {name : CString} {m : Monitor R} {p : Pdu}
    (h : Sampling name (receiveCount m p)) :
    Sampling name m ∧ sampleSet name (Subscriber.receiveCount m p) = sampleSet name m := by
  unfold Subscriber.receiveCount at h ⊢
  cases hcount : countOf p with
  | none =>
    simp only [hcount] at h ⊢
    exact ⟨h, trivial⟩
  | some c =>
    obtain ⟨name', v⟩ := c
    simp only [hcount] at h ⊢
    generalize hr : m.metric name' .count = r at h ⊢
    obtain ⟨x, m₁⟩ := r
    have hsnd : (m.metric name' .count).2 = m₁ := by rw [hr]
    cases x with
    | none =>
      subst hsnd
      exact h.metric
    | some x =>
      have hx : (m.metric name' .count).1 = some x := by rw [hr]
      subst hsnd
      obtain ⟨hsampling, hset⟩ := h.set hx (y := { x with count := x.count + v }) rfl rfl
      refine ⟨hsampling, ?_⟩
      split at hset
      · cases hset.1
      · exact hset

variable {m m' : Monitor R} {p : Pdu} {top : Bool} {name : CString}

/-- What becomes of a sample set when a message carries a value for it, or does not. -/
def Collects (name : CString) (m m' : Monitor R) : Option (R × Bool) → Prop
  | none => sampleSet name m' = sampleSet name m
  | some v => collect (sampleSet name m) v = .ok (sampleSet name m')

/-- A value is collected by the sample set that it names, and by no other. -/
theorem Sampling.receiveSample (h : Sampling name m') {name' value : CString}
    (hframes : p.frames = [name', value]) (hm' : receiveSample m p top = .ok m') :
    Sampling name m ∧ Collects name m m'
      (if name' = name ∧ DoubleText.strtodEnd R value = [] then some (Double.strtod value, top)
        else none) := by
  simp only [Subscriber.receiveSample, hframes] at hm'
  by_cases hend : DoubleText.strtodEnd R value = []
  · rw [if_neg (not_not.mpr hend)] at hm'
    simp only [hend, and_true]
    generalize hr : m.metric name' .sample = r at hm'
    obtain ⟨x, m₁⟩ := r
    have hsnd : (m.metric name' .sample).2 = m₁ := by rw [hr]
    subst hsnd
    cases x with
    | none =>
      obtain rfl : (m.metric name' .sample).2 = m' := Except.ok.inj hm'
      obtain ⟨hsampling, hset⟩ := h.metric
      obtain ⟨y, hy, htype⟩ := metric_none (m := m) (by rw [hr])
      have hname : name' ≠ name := by
        rintro rfl
        exact htype (hsampling y hy)
      rw [if_neg hname]
      exact ⟨hsampling, hset⟩
    | some x =>
      have hx : (m.metric name' .sample).1 = some x := by rw [hr]
      simp only [bind_eq_ok, pure_eq_ok] at hm'
      obtain ⟨y, hy, rfl⟩ := hm'
      obtain ⟨hsampling, hset⟩ := h.set hx (addSample_brief hy).1 rfl
      refine ⟨hsampling, ?_⟩
      split at hset
      · case isTrue hname =>
        rw [if_pos hname, Collects, hset.2.1, hset.2.2]
        exact hy
      · case isFalse hname =>
        rw [if_neg hname]
        exact hset
  · rw [if_pos hend] at hm'
    obtain rfl : m = m' := Except.ok.inj hm'
    simp only [hend, and_false, if_false]
    exact ⟨h, rfl⟩

omit [HashOrder] in
theorem sampleOf_of_ne (h : p.type ≠ .lit "SAMPLE") :
    sampleOf (R := R) name (.input p top) = none := by
  simp only [sampleOf, h, false_and, if_false]
  split <;> rfl

theorem Sampling.receive (h : Sampling name m') (hm' : receive m p top = .ok m') :
    Sampling name m ∧ Collects name m m' (sampleOf name (.input p top)) := by
  unfold Subscriber.receive at hm'
  by_cases hsample : p.type = .lit "SAMPLE"
  · have hinit : CString.lit "SAMPLE" ≠ .lit "INIT" := by decide
    have hcount : CString.lit "SAMPLE" ≠ .lit "COUNT" := by decide
    simp only [hsample, hinit, hcount, decide_false, Bool.false_and, Bool.false_eq_true, if_false,
      decide_true, Bool.true_and, decide_eq_true_eq] at hm'
    split at hm'
    · case isTrue hsize =>
      obtain ⟨name', value, hframes⟩ := List.length_eq_two.mp (Nat.succ.inj hsize)
      have hspec := h.receiveSample hframes hm'
      simpa only [sampleOf, hframes, hsample, true_and] using hspec
    · case isFalse hsize =>
      obtain rfl : m = m' := Except.ok.inj hm'
      have hnone : sampleOf (R := R) name (.input p top) = none := by
        simp only [sampleOf]
        split
        · case h_1 hframes => simp [Pdu.size, hframes] at hsize
        · rfl
      rw [hnone]
      exact ⟨h, rfl⟩
  · rw [sampleOf_of_ne hsample]
    simp only [hsample, decide_false, Bool.false_and, Bool.false_eq_true, if_false] at hm'
    split at hm'
    · obtain rfl := Except.ok.inj hm'
      exact h.receiveInit
    · split at hm'
      · obtain rfl := Except.ok.inj hm'
        exact h.receiveCount
      · obtain rfl : m = m' := Except.ok.inj hm'
        exact ⟨h, rfl⟩

/-- A message is not a TOCK. -/
def Message.quiet : Message → Bool
  | .tock _ => false
  | _ => true

/-- What a message that is not a TOCK does, if the monitor runs after it. -/
theorem Sampling.reactor {msg : Message} {out : List Pdu} (hquiet : msg.quiet)
    (hstep : reactor m msg = .ok (m', out)) (hrun : m'.running = true) (h : Sampling name m') :
    m.running = true ∧ m'.name = m.name ∧ out = [] ∧ Sampling name m ∧
      Collects name m m' (sampleOf name msg) := by
  unfold Subscriber.reactor at hstep
  split at hstep
  · case isTrue hstopped =>
    obtain ⟨rfl, rfl⟩ := Prod.mk.inj (Except.ok.inj hstep)
    simp [hrun] at hstopped
  · case isFalse hstopped =>
    have hrunning : m.running = true := by simpa using hstopped
    cases msg with
    | tock time => cases hquiet
    | control p =>
      obtain ⟨rfl, rfl⟩ := Prod.mk.inj (Except.ok.inj hstep)
      exact ⟨hrunning, rfl, rfl, h, rfl⟩
    | input p top =>
      simp only [bind_eq_ok, pure_eq_ok, Prod.mk.injEq] at hstep
      obtain ⟨m₁, hreceive, rfl, rfl⟩ := hstep
      obtain ⟨hsampling, hcollects⟩ := h.receive hreceive
      exact ⟨hrunning, (receive_spec hreceive name).1.1, rfl, hsampling, hcollects⟩

/-- Between two TOCKs a sample set collects the values that the messages carry for it. -/
theorem Sampling.run {msgs : List Message} {out : List Pdu} (hquiet : ∀ msg ∈ msgs, msg.quiet)
    (hstep : Machine.run Subscriber.reactor m msgs = .ok (m', out)) (hrun : m'.running = true)
    (h : Sampling name m') : m.running = true ∧ m'.name = m.name ∧ out = [] ∧ Sampling name m ∧
      (msgs.filterMap (sampleOf name)).foldlM collect (sampleSet name m) =
        .ok (sampleSet name m') := by
  induction msgs generalizing m out with
  | nil =>
    obtain ⟨rfl, rfl⟩ : m = m' ∧ ([] : List Pdu) = out := by simpa using hstep
    exact ⟨hrun, rfl, rfl, h, rfl⟩
  | cons msg msgs ih =>
    obtain ⟨hmsg, hmsgs⟩ := List.forall_mem_cons.mp hquiet
    obtain ⟨m₁, out₁, outs, hfirst, hrest, rfl⟩ := Machine.run_cons.mp hstep
    obtain ⟨hrun₁, hname₁, rfl, hsampling₁, hfold⟩ := ih hmsgs hrest
    obtain ⟨hrun₀, hname₀, rfl, hsampling₀, hcollects⟩ := hsampling₁.reactor hmsg hfirst hrun₁
    refine ⟨hrun₀, hname₁.trans hname₀, rfl, hsampling₀, ?_⟩
    cases hv : sampleOf (R := R) name msg with
    | none =>
      rw [hv] at hcollects
      rw [List.filterMap_cons_none hv, ← hfold,
        show sampleSet name m₁ = sampleSet name m from hcollects]
    | some v =>
      rw [List.filterMap_cons_some hv, List.foldlM_cons]
      rw [hv] at hcollects
      rw [show collect (sampleSet name m) v = .ok (sampleSet name m₁) from hcollects]
      exact hfold

end Collect

/-! ## The array -/

/-- The first `vs.length` slots hold the values `vs`, of which there are at most 256. -/
structure Metric.Holds (x : Metric R) (vs : List R) : Prop where
  type : x.type = .sample
  nsamples : x.nsamples.toNat = vs.length
  le : vs.length ≤ MAX_SAMPLES
  samples : x.samples.toList.take vs.length = vs

theorem Metric.Holds.collect {x : Metric R} {vs : List R} (h : x.Holds vs) (v : R × Bool)
    (hlt : vs.length < MAX_SAMPLES) : ∃ y, collect x v = .ok y ∧ y.Holds (vs ++ [v.1]) := by
  have hlt' : x.nsamples.toNat < MAX_SAMPLES := by rw [h.nsamples]; exact hlt
  have hlen : x.samples.toList.length = MAX_SAMPLES := by simp
  have hadd : Subscriber.collect x v = .ok { x with
      nsamples := x.nsamples + 1
      samples := x.samples.set x.nsamples.toNat v.1 } := dif_pos hlt'
  refine ⟨_, hadd, h.type, ?_, ?_, ?_⟩
  · have hone : (1 : UInt64).toNat = 1 := rfl
    have hmax : MAX_SAMPLES = 256 := rfl
    rw [List.length_append, List.length_singleton, UInt64.toNat_add, h.nsamples, hone]
    omega
  · rw [List.length_append, List.length_singleton]
    exact hlt
  · have htake : (x.samples.toList.take vs.length).length = vs.length := by
      rw [List.length_take, hlen]
      omega
    rw [Vector.toList_set, h.nsamples, List.set_eq_take_append_cons_drop, if_pos (by omega),
      List.length_append, List.length_singleton, List.take_append, htake, h.samples]
    simp

theorem Metric.Holds.foldlM {x : Metric R} {vs : List R} (h : x.Holds vs) (es : List (R × Bool))
    (hle : vs.length + es.length ≤ MAX_SAMPLES) :
    ∃ y, es.foldlM Subscriber.collect x = .ok y ∧ y.Holds (vs ++ es.map Prod.fst) := by
  induction es generalizing x vs with
  | nil => exact ⟨x, rfl, by simpa using h⟩
  | cons e es ih =>
    rw [List.length_cons] at hle
    obtain ⟨y, hy, hholds⟩ := h.collect e (by omega)
    obtain ⟨z, hz, hholds'⟩ := ih hholds (by
      rw [List.length_append, List.length_singleton]
      omega)
    refine ⟨z, ?_, by simpa using hholds'⟩
    rw [List.foldlM_cons, hy]
    exact hz

/-! ## The median -/

section Median

open ExactDouble ExactArithmetic

variable [Double R] [ExactArithmetic R]

/-- The array is sorted by value. -/
theorem msort_value (vs : List R) : ∃ l, msort (fun a b => !Double.lt b a) vs = l ∧ l.Perm vs ∧
    (l.map value).Pairwise (· ≤ ·) := by
  have hle (a b : R) : (!Double.lt b a) = true ↔ value a ≤ value b := by
    rw [Bool.not_eq_true', ← not_lt, ← lt_iff, Bool.not_eq_true]
  obtain ⟨l, hsort, hperm, hpairs⟩ :=
    @msort_append R (fun a b => !Double.lt b a) (fun a b => !Double.lt b a) (fun _ => False)
      (fun _ _ h => h.elim) (fun _ _ _ _ => rfl)
      (fun a b c hab hbc => by rw [hle] at *; exact hab.trans hbc)
      (fun a b => by rw [Bool.or_eq_true, hle, hle]; exact le_total _ _)
      vs [] (fun _ _ h => h) (by simp)
  rw [List.append_nil, List.append_nil] at hsort
  exact ⟨l, hsort, hperm, List.pairwise_map.mpr (hpairs.imp fun h => (hle _ _).mp h)⟩

omit [ExactArithmetic R] in
/-- The median is read off the sorted samples, as long as their number is not negative as an
`int`. -/
theorem median_eq {x : Metric R} (htype : x.type = .sample) (h : x.nsamples.toNat < 2 ^ 31)
    {l : List R} (hsort : msort (fun a b => !Double.lt b a)
      (x.samples.toList.take (min x.nsamples.toNat MAX_SAMPLES)) = l)
    (hlen : l.length = min x.nsamples.toNat MAX_SAMPLES) :
    median x = .ok (if l.length = 0 then Double.zero
      else if l.length % 2 = 0 then
        Double.div (Double.add (l.getD (l.length / 2 - 1) Double.zero)
          (l.getD (l.length / 2) Double.zero)) (Double.ofInt 2)
      else l.getD (l.length / 2) Double.zero) := by
  have hmax : MAX_SAMPLES = 256 := rfl
  have hnat : x.nsamples.toUInt32.toNat = x.nsamples.toNat := by
    rw [UInt64.toNat_toUInt32, Nat.mod_eq_of_lt (by omega)]
  have hint : x.nsamples.toUInt32.toInt32.toInt = x.nsamples.toNat := by
    rw [toInt_toInt32_of_lt (by omega), hnat]
  have hzero : x.nsamples.toUInt32.toInt32 = 0 ↔ l.length = 0 := by
    rw [← Int32.toInt_inj, hint, Int32.toInt_zero]
    omega
  have hneg : ¬x.nsamples.toUInt32.toInt32 < 0 := by
    rw [Int32.lt_iff_toInt_lt, hint, Int32.toInt_zero]
    omega
  rw [← hlen] at hsort
  simp only [median, htype, ne_eq, not_true_eq_false, if_false, hzero, hneg, hint,
    Int.toNat_natCast, ← hlen, hsort]
  by_cases hnil : l.length = 0
  · rw [if_pos hnil, if_pos hnil]
  · rw [if_neg hnil, if_neg hnil]
    have hget (i : Nat) (hi : i < l.length) : inBounds l[i]? = .ok (l.getD i Double.zero) := by
      rw [List.getD_eq_getElem?_getD, List.getElem?_eq_getElem hi, Option.getD_some]
      rfl
    have hmid : l.length / 2 < l.length := by omega
    have hbelow : l.length / 2 - 1 < l.length := by omega
    rw [hget _ hmid, hget _ hbelow]
    split <;> rfl

/-- There is a median as long as the number of samples is not negative as an `int`. -/
theorem median_total {x : Metric R} (h : x.nsamples.toNat < 2 ^ 31) : ∃ r, median x = .ok r := by
  cases htype : x.type with
  | count => exact ⟨Double.zero, by simp [median, htype]⟩
  | sample =>
    obtain ⟨l, hsort, hperm, -⟩ :=
      msort_value (x.samples.toList.take (min x.nsamples.toNat MAX_SAMPLES))
    have hlen : l.length = min x.nsamples.toNat MAX_SAMPLES := by
      rw [hperm.length_eq, List.length_take, Vector.length_toList]
      omega
    exact ⟨_, median_eq htype h hsort hlen⟩

theorem Metric.Holds.median {x : Metric R} {vs : List R} (h : x.Holds vs) :
    ∃ r, median x = .ok r ∧ value r = medianOf (vs.map value) := by
  obtain ⟨l, hsort, hperm, hsorted⟩ := msort_value vs
  have hmin : min x.nsamples.toNat MAX_SAMPLES = vs.length := by
    rw [h.nsamples, min_eq_left h.le]
  have hsmall : x.nsamples.toNat < 2 ^ 31 := by
    have hmax : MAX_SAMPLES = 256 := rfl
    have hle := h.le
    rw [h.nsamples]
    omega
  have hmedian := median_eq (l := l) h.type hsmall (by rw [hmin, h.samples, hsort])
    (by rw [hmin, hperm.length_eq])
  refine ⟨_, hmedian, ?_⟩
  rw [medianOf_eq_of_sorted (hperm.map value) hsorted, List.length_map, ← hperm.length_eq]
  have hget (i : Nat) : (l.map value).getD i 0 = value (l.getD i Double.zero) := by
    rw [← value_zero (R := R), List.getD_eq_getElem?_getD, List.getElem?_map, Option.getD_map,
      List.getD_eq_getElem?_getD]
  by_cases hnil : l.length = 0
  · rw [if_pos hnil, value_zero, List.length_eq_zero_iff.mp hnil]
    simp
  · rw [if_neg hnil, hget, hget]
    split
    · rw [value_div, value_add, value_ofInt]
      rfl
    · rfl

end Median

/-! ## TOCK -/

section Tock

variable [Double R] [DoubleText R]

/-- The value that a SAMPLE PDU of the monitor shows for `name`. -/
def sampled (monitor name : CString) (p : Pdu) : Option CString :=
  if p.type = Tag.sample.text && p.string 2 = some (monitor ++ .lit ":" ++ name) then p.string 3
  else none

/-- The text of the median, if the metric is a sample set. -/
def medianText (x : Metric R) : Option CString :=
  if x.type = .sample then (median x).toOption.map DoubleText.fmtLf else none

/-- Only a sample set shows up in the SAMPLE PDUs about its own name. -/
theorem sampled_submission {monitor name' : CString} {time : Int32} {x : Metric R} {p : Pdu}
    (h : submission monitor name' time x = .ok p) (name : CString) :
    sampled monitor name p = if name' = name then medianText x else none := by
  unfold submission at h
  cases htype : x.type with
  | count =>
    simp only [htype, Except.ok.injEq] at h
    subst h
    simp [sampled, boloCounterPdu, medianText, htype]
  | sample =>
    simp only [htype, bind_eq_ok, pure_eq_ok] at h
    obtain ⟨v, hv, rfl⟩ := h
    simp [sampled, boloSamplePdu, medianText, Pdu.string, htype, submit_inj, hv, Except.toOption]

variable [HashOrder]

/-- What a TOCK submits for a metric. -/
theorem sampled_tock {m m' : Monitor R} {time : Nat → Int32} {out : List Pdu}
    (hrun : m.running = true) (h : reactor m (.tock time) = .ok (m', out)) (name : CString) :
    out.filterMap (sampled m.name name) = ((m.metrics.get? name).bind medianText).toList ∧
      m'.metrics.get? name = (m.metrics.get? name).map reset := by
  simp only [reactor, hrun, Bool.not_true, Bool.false_eq_true, if_false, bind_eq_ok, pure_eq_ok,
    Prod.mk.injEq] at h
  obtain ⟨out', hout, rfl, rfl⟩ := h
  refine ⟨?_, Table.get?_mapValues _ _ _⟩
  rw [filterMap_submissions (fun _ _ _ _ hp => sampled_submission hp name) hout,
    Table.filterMap_entries]

/-- The name of the monitor stays. -/
theorem reactor_name {m m' : Monitor R} {msg : Message} {out : List Pdu}
    (h : reactor m msg = .ok (m', out)) : m'.name = m.name := by
  unfold reactor at h
  split at h
  · obtain ⟨rfl, -⟩ := Prod.mk.inj (Except.ok.inj h)
    rfl
  · cases msg with
    | control p =>
      obtain ⟨rfl, -⟩ := Prod.mk.inj (Except.ok.inj h)
      rfl
    | tock time =>
      simp only [bind_eq_ok, pure_eq_ok, Prod.mk.injEq] at h
      obtain ⟨-, -, rfl, -⟩ := h
      rfl
    | input p top =>
      simp only [bind_eq_ok, pure_eq_ok, Prod.mk.injEq] at h
      obtain ⟨m₁, hreceive, rfl, -⟩ := h
      exact (receive_spec hreceive m.name).1.1

omit [DoubleText R] [HashOrder] in
theorem holds_fresh : (fresh .sample : Metric R).Holds [] := ⟨rfl, rfl, by simp, rfl⟩

/-- A TOCK leaves a sample set empty, if the monitor runs after it. -/
theorem Sampling.tock {m m' : Monitor R} {time : Nat → Int32} {out : List Pdu} {name : CString}
    (h : Sampling name m') (hrun : m'.running = true)
    (hstep : Subscriber.reactor m (.tock time) = .ok (m', out)) :
    sampleSet name m' = fresh .sample := by
  have hrunning : m.running = true := by
    by_contra hstopped
    rw [Subscriber.reactor, if_pos (by simpa using hstopped)] at hstep
    obtain ⟨rfl, -⟩ := Prod.mk.inj (Except.ok.inj hstep)
    exact hstopped hrun
  have hget := (sampled_tock hrunning hstep name).2
  cases hx : m.metrics.get? name with
  | none =>
    rw [hx, Option.map_none] at hget
    rw [sampleSet, hget, Option.getD_none]
  | some x =>
    rw [hx, Option.map_some] at hget
    have htype : x.type = .sample := h (reset x) hget
    rw [sampleSet, hget, Option.getD_some, reset, htype]
    rfl

/-- The monitor has just been started, or the last message was a TOCK. -/
def AfterTock (before : List Message) : Prop := before = [] ∨ ∃ l time, before = l ++ [.tock time]

theorem sampleSet_afterTock {monitor name : CString} {before : List Message} {m : Monitor R}
    {out : List Pdu} (hrun : Machine.run reactor (start monitor) before = .ok (m, out))
    (hbefore : AfterTock before) (hrunning : m.running = true) (h : Sampling name m) :
    sampleSet name m = fresh .sample := by
  rcases hbefore with rfl | ⟨l, time, rfl⟩
  · obtain ⟨rfl, -⟩ : start monitor = m ∧ ([] : List Pdu) = out := by simpa using hrun
    rfl
  · obtain ⟨m₁, _, _, _, hlast, _⟩ := Machine.run_append.mp hrun
    exact h.tock hrunning (Machine.run_singleton.mp hlast)

section Exact

open ExactDouble

variable [ExactArithmetic R]

omit [HashOrder] in
theorem submissions_total (monitor : CString) (time : Nat → Int32) (i : Nat)
    {l : List (CString × Metric R)} (h : ∀ e ∈ l, e.2.nsamples.toNat < 2 ^ 31) :
    ∃ out, submissions monitor time i l = .ok out := by
  induction l generalizing i with
  | nil => exact ⟨[], rfl⟩
  | cons e l ih =>
    obtain ⟨hfirst, hrest⟩ := List.forall_mem_cons.mp h
    obtain ⟨ps, hps⟩ := ih (i + 1) hrest
    obtain ⟨r, hr⟩ := median_total hfirst
    cases htype : e.2.type <;>
      simp only [submissions, submission, htype, hr, hps, ok_bind] <;> exact ⟨_, rfl⟩

/-- A TOCK comes to its end if the number of samples fits into an `int` everywhere. -/
theorem reactor_tock_total {m : Monitor R} (hrun : m.running = true) (time : Nat → Int32)
    (h : ∀ name x, m.metrics.get? name = some x → x.nsamples.toNat < 2 ^ 31) :
    ∃ m' out, reactor m (.tock time) = .ok (m', out) := by
  obtain ⟨out, hout⟩ := submissions_total m.name time 0
    fun e he => h e.1 e.2 (Table.mem_iff_get?.mp he)
  simp only [reactor, hrun, Bool.not_true, Bool.false_eq_true, if_false, hout, ok_bind]
  exact ⟨_, _, rfl⟩

/-- What a TOCK submits for a sample set that was sent at most 256 values since the TOCK before it
is the median of these values. The TOCK comes to its end if no other set has `2 ^ 31` values. -/
theorem median_submitted {monitor name : CString} {before mid : List Message} {m : Monitor R}
    {out : List Pdu} {x : Metric R}
    (hrun : Machine.run reactor (start monitor) (before ++ mid) = .ok (m, out))
    (hbefore : AfterTock before) (hmid : ∀ msg ∈ mid, msg.quiet) (hrunning : m.running = true)
    (hx : m.metrics.get? name = some x) (htype : x.type = .sample)
    (hle : (mid.filterMap (sampleOf (R := R) name)).length ≤ 256) :
    ∃ r, median x = .ok r ∧
      value r = medianOf ((mid.filterMap (sampleOf name)).map fun v : R × Bool => value v.1) ∧
      ∀ time, (∀ m' out', reactor m (.tock time) = .ok (m', out') →
          out'.filterMap (sampled monitor name) = [DoubleText.fmtLf r]) ∧
        ((∀ name' y, name' ≠ name → m.metrics.get? name' = some y → y.nsamples.toNat < 2 ^ 31) →
          ∃ m' out', reactor m (.tock time) = .ok (m', out')) := by
  obtain ⟨m₀, out₀, outs, hfirst, hsecond, rfl⟩ := Machine.run_append.mp hrun
  have hsampling : Sampling name m := fun y hy => by
    rw [hx, Option.some.injEq] at hy
    rw [← hy, htype]
  obtain ⟨hrunning₀, -, -, hsampling₀, hfold⟩ := hsampling.run hmid hsecond hrunning
  have hempty := sampleSet_afterTock hfirst hbefore hrunning₀ hsampling₀
  obtain ⟨y, hy, hholds⟩ := holds_fresh.foldlM (mid.filterMap (sampleOf name))
    (by simpa [MAX_SAMPLES] using hle)
  have hset : sampleSet name m = x := by rw [sampleSet, hx, Option.getD_some]
  rw [hset, hempty, hy] at hfold
  obtain rfl : y = x := Except.ok.inj hfold
  obtain ⟨r, hr, hvalue⟩ := hholds.median
  refine ⟨r, hr, by rwa [List.nil_append, List.map_map] at hvalue, fun time =>
    ⟨?_, fun hothers => ?_⟩⟩
  · intro m' out' htock
    have hname : m.name = monitor :=
      Machine.run_invariant (P := fun m => m.name = monitor) (Q := fun _ => True)
        (fun _ _ _ _ h _ hstep => (reactor_name hstep).trans h) rfl (fun _ _ => trivial) hrun
    have hshown := (sampled_tock hrunning htock name).1
    rw [hname, hx] at hshown
    rw [hshown]
    simp [medianText, htype, hr, Except.toOption]
  · refine reactor_tock_total hrunning time fun name' z hz => ?_
    by_cases hname : name' = name
    · subst hname
      obtain rfl : y = z := Option.some.inj (hx.symm.trans hz)
      have hmax : MAX_SAMPLES = 256 := rfl
      have hnsamples := hholds.nsamples
      have hfits := hholds.le
      omega
    · exact hothers name' z hname hz

end Exact

end Tock

section Rationals

open Bolo.Reference

scoped instance : DoubleText ℚ where
  strtodEnd := strtoulEnd
  fmtLf x := decimalInt x.num ++ .lit "/" ++ decimal x.den

def sample (frames : List String) (top : Bool) : Message :=
  .input { type := .lit "SAMPLE", frames := frames.map .lit } top

/-- Three values for one sample set, among other messages. -/
def threeValues : List Message :=
  [sample ["load", "3"] false, count ["msgs"], sample ["load", "1"] false,
   sample ["time", "9"] false, sample ["load", "2"] true]

theorem median_submitted_load : ∃ (m m' : Monitor ℚ) (out out' : List Pdu) (x : Metric ℚ) (r : ℚ),
    Machine.run reactor (start (.lit "host:bolo")) ([.tock fun _ => 60] ++ threeValues) =
      .ok (m, out) ∧
    m.metrics.get? (.lit "load") = some x ∧ median x = .ok r ∧ r = medianOf [3, 1, 2] ∧
    reactor m (.tock fun _ => 120) = .ok (m', out') ∧
    out'.filterMap (sampled (.lit "host:bolo") (.lit "load")) = [DoubleText.fmtLf r] := by
  have hall : (Machine.run reactor (start (.lit "host:bolo") : Monitor ℚ)
      ([.tock fun _ => 60] ++ threeValues)).map
      (fun r => (r.1.running, brief (r.1.metrics.get? (.lit "load")),
        r.1.metrics.entries.all fun e => e.2.nsamples.toNat < 2 ^ 31)) =
        .ok (true, some (.sample, 0), true) := by decide +kernel
  obtain ⟨⟨m, out⟩, hrun⟩ := exists_ok (x := Machine.run reactor
    (start (.lit "host:bolo") : Monitor ℚ) ([.tock fun _ => 60] ++ threeValues))
    (by decide +kernel)
  rw [hrun] at hall
  obtain ⟨hrunning, hrest⟩ := Prod.mk.inj (Except.ok.inj hall)
  obtain ⟨hbrief, hfit⟩ := Prod.mk.inj hrest
  obtain ⟨x, hx, htype⟩ := Option.map_eq_some_iff.mp hbrief
  obtain ⟨r, hr, hvalue, htock⟩ := median_submitted hrun (.inr ⟨[], _, rfl⟩) (by decide) hrunning hx
    (Prod.mk.inj htype).1 (by decide +kernel)
  have hvalues : (threeValues.filterMap (sampleOf (.lit "load"))).map
      (fun v : ℚ × Bool => ExactDouble.value v.1) = [3, 1, 2] := by decide +kernel
  rw [hvalues] at hvalue
  obtain ⟨hshown, hends⟩ := htock fun _ => 120
  obtain ⟨m', out', hstep⟩ := hends fun name' y _ hy =>
    of_decide_eq_true (List.all_eq_true.mp hfit _ (Table.mem_iff_get?.mpr hy))
  exact ⟨m, m', out, out', x, r, hrun, hx, hr, hvalue, hstep, hshown m' out' hstep⟩

end Rationals

end Bolo.Subscriber
