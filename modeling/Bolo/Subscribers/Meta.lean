import Bolo.Agents.Monitor
import Bolo.Subscribers.Broadcasts

/-!
# Counting the broadcasts

`bolo2meta` counts what the aggregator broadcasts. Its dispatcher sends two messages for
each broadcast, one for its kind and one for the total, to the monitor of the subscriber;
the monitor submits what it has counted at every TOCK. The threads are connected by queues,
so that messages may be on their way when the monitor submits.
-/
namespace Bolo.Meta

open Library Postgres

variable {R : Type}

/-- The metric that `_dispatcher_reactor` counts a broadcast under. -/
def metric (p : Pdu) : CString :=
  if p.type = Tag.counter.text then
    if p.size = 4 then .lit "counter" else .lit "bogon.counter"
  else if p.type = Tag.sample.text then
    if p.size = 9 then .lit "sample" else .lit "bogon.sample"
  else if p.type = Tag.rate.text then
    if p.size = 5 then .lit "rate" else .lit "bogon.rate"
  else if p.type = Tag.state.text then
    if p.size = 6 then .lit "state" else .lit "bogon.state"
  else if p.type = Tag.transition.text then
    if p.size = 6 then .lit "transition" else .lit "bogon.transition"
  else if p.type = Tag.event.text then
    if p.size = 4 then .lit "event" else .lit "bogon.event"
  else if p.type = Tag.setKeys.text then
    if p.size % 2 = 1 ∧ 3 ≤ p.size then .lit "setkeys" else .lit "bogon.setkeys"
  else .lit "bogon.unknown"

def countPdu (metric : CString) : Pdu := { type := .lit "COUNT", frames := [metric] }

/-- What the dispatcher sends to the monitor for one broadcast. -/
def dispatch (p : Pdu) : List Pdu := [countPdu (metric p), countPdu (.lit "total")]

/-- What `main` declares by `bolo_subscriber_metrics`. -/
def declared : List CString :=
  [.lit "counter", .lit "bogon.counter", .lit "sample", .lit "bogon.sample", .lit "rate",
   .lit "bogon.rate", .lit "state", .lit "bogon.state", .lit "transition",
   .lit "bogon.transition", .lit "event", .lit "bogon.event", .lit "bogon.unknown"]

def initPdu (metric : CString) : Pdu := { type := .lit "INIT", frames := [.lit "COUNT", metric] }

/-- The monitor and the messages on their way to it, those of `main` and those of the
dispatcher. -/
structure Pipeline (R : Type) where
  inits : List Pdu
  counts : List Pdu
  monitor : Subscriber.Monitor R

/-- What happens: the dispatcher reads a broadcast, the monitor reads a message from one of its
two senders, or the scheduler wakes it up. A thread that is told to terminate has no more
events. -/
inductive Event where
  | subscriber (p : Pdu)
  | init (top : Bool)
  | count (top : Bool)
  | tock (time : Nat → Int32)

section Model

variable [Double R] [Subscriber.DoubleText R] [HashOrder]

def start (name : CString) : Pipeline R where
  inits := declared.map initPdu
  counts := []
  monitor := Subscriber.start name

def step (s : Pipeline R) : Event → Except Fault (Pipeline R × List Pdu)
  | .subscriber p => .ok ({ s with counts := s.counts ++ dispatch p }, [])
  | .init top =>
    match s.inits with
    | [] => .ok (s, [])
    | p :: ps => do
      let (m, out) ← Subscriber.reactor s.monitor (.input p top)
      return ({ s with inits := ps, monitor := m }, out)
  | .count top =>
    match s.counts with
    | [] => .ok (s, [])
    | p :: ps => do
      let (m, out) ← Subscriber.reactor s.monitor (.input p top)
      return ({ s with counts := ps, monitor := m }, out)
  | .tock time => do
    let (m, out) ← Subscriber.reactor s.monitor (.tock time)
    return ({ s with monitor := m }, out)

end Model

/-! ## Accounts -/

/-- The broadcasts that the dispatcher has read. -/
def received (events : List Event) : List Pdu :=
  events.filterMap fun e => match e with
    | .subscriber p => some p
    | _ => none

/-- What the aggregator was told about a metric. -/
def reported (monitor name : CString) (out : List Pdu) : Nat :=
  ((out.filterMap (Subscriber.shown monitor name)).map fun t => (strtoul t).toNat).sum

/-- What the monitor has counted since the last TOCK. -/
def held (name : CString) (m : Subscriber.Monitor R) : Nat :=
  (m.metrics.get? name).elim 0 fun x => x.count.toNat

/-- The messages about a metric. -/
def mentions (name : CString) (ps : List Pdu) : Nat := ps.count (countPdu name)

/-- How many of the broadcasts belong to a metric. -/
def tally (name : CString) (ps : List Pdu) : Nat :=
  ps.countP (fun p => metric p = name) + if name = .lit "total" then ps.length else 0

theorem metric_ne_total (p : Pdu) : metric p ≠ .lit "total" := by
  unfold metric
  split_ifs <;> decide

theorem received_append (es fs : List Event) : received (es ++ fs) = received es ++ received fs :=
  List.filterMap_append

theorem reported_append (monitor name : CString) (a b : List Pdu) :
    reported monitor name (a ++ b) = reported monitor name a + reported monitor name b := by
  simp [reported]

theorem mentions_append (name : CString) (ps qs : List Pdu) :
    mentions name (ps ++ qs) = mentions name ps + mentions name qs := List.count_append

theorem mentions_cons (name name' : CString) (ps : List Pdu) :
    mentions name (countPdu name' :: ps) = mentions name ps + if name' = name then 1 else 0 := by
  rw [mentions, List.count_cons, mentions]
  by_cases h : name' = name <;> simp [countPdu, h]

theorem mentions_dispatch (name : CString) (ps : List Pdu) :
    mentions name (ps.flatMap dispatch) = tally name ps := by
  induction ps with
  | nil => simp [mentions, tally]
  | cons p ps ih =>
    rw [List.flatMap_cons, dispatch, List.cons_append, List.cons_append, List.nil_append,
      mentions_cons, mentions_cons, ih, tally, tally, List.countP_cons, List.length_cons]
    by_cases htotal : name = .lit "total"
    · simp [htotal, metric_ne_total]
    · simp [htotal, Ne.symm htotal]

theorem tally_le (name : CString) (ps : List Pdu) : tally name ps ≤ ps.length := by
  unfold tally
  split
  · case isTrue h =>
      have hnone : ps.countP (fun p => metric p = name) = 0 := by
        simp [h, metric_ne_total]
      omega
  · exact List.countP_le_length

/-! ## The monitor, counting -/

/-- A monitor that runs and has only counts. -/
structure Counting (m : Subscriber.Monitor R) : Prop where
  running : m.running = true
  counts : m.metrics.All fun _ x => x.type = .count

/-- A message that declares a count or adds one to it. -/
def Plain (p : Pdu) : Prop := ∃ name, p = initPdu name ∨ p = countPdu name

theorem received_countPdu (name name' : CString) :
    Subscriber.received name (countPdu name') = if name' = name then some 1 else none := by
  by_cases h : name' = name
  · simp [Subscriber.received, countPdu, Pdu.size, Subscriber.countOf, h]
  · simp [Subscriber.received, countPdu, Pdu.size, Subscriber.countOf, h]

theorem received_initPdu (name name' : CString) :
    Subscriber.received name (initPdu name') = none := by
  have hne : CString.lit "INIT" ≠ .lit "COUNT" := by decide
  simp [Subscriber.received, initPdu, hne]

theorem held_brief (name : CString) (m : Subscriber.Monitor R) :
    held name m = (Subscriber.brief (m.metrics.get? name)).elim 0 fun b => b.2.toNat := by
  unfold held Subscriber.brief
  cases m.metrics.get? name <;> rfl

section Proofs

variable [Double R] [HashOrder] {m m' : Subscriber.Monitor R}

theorem Counting.metric (hm : Counting m) (name : CString) :
    Counting (m.metric name .count).2 ∧
      ∃ x, (m.metric name .count).1 = some x ∧ x.type = .count := by
  have hkept := Subscriber.metric_kept m name .count
  have htype : ((m.metrics.get? name).getD (Subscriber.fresh .count)).type = .count := by
    cases hx : m.metrics.get? name with
    | none => rfl
    | some x => exact hm.counts name x hx
  refine ⟨⟨hkept.2.trans hm.running, fun k x hk => ?_⟩, _, ?_, htype⟩
  · rw [Subscriber.metric_get?] at hk
    split at hk
    · exact Option.some.inj hk ▸ htype
    · exact hm.counts k x hk
  · rw [Subscriber.metric_fst, if_pos htype]

variable [Subscriber.DoubleText R]

/-- Such a message is read without a fault, and leaves only counts. -/
theorem Counting.receive (hm : Counting m) {p : Pdu} (hp : Plain p) (top : Bool) :
    ∃ m', Subscriber.receive m p top = .ok m' ∧ Counting m' := by
  obtain ⟨name, rfl | rfl⟩ := hp
  · refine ⟨(m.metric name .count).2, ?_, (hm.metric name).1⟩
    have hsample : CString.lit "COUNT" ≠ .lit "SAMPLE" := by decide
    simp [Subscriber.receive, initPdu, Pdu.size, Subscriber.receiveInit, hsample]
  · obtain ⟨hcounting, x, hx, htype⟩ := hm.metric name
    have hinit : CString.lit "COUNT" ≠ .lit "INIT" := by decide
    have hsample : CString.lit "COUNT" ≠ .lit "SAMPLE" := by decide
    refine ⟨Subscriber.receiveCount m (countPdu name),
      by simp [Subscriber.receive, countPdu, Pdu.size, hinit, hsample], ?_⟩
    generalize hr : m.metric name .count = r at hcounting hx
    obtain ⟨y, m₁⟩ := r
    obtain rfl : y = some x := hx
    simp only [Subscriber.receiveCount, countPdu, Subscriber.countOf, hr]
    exact ⟨hcounting.running, All.hashSet hcounting.counts htype⟩

/-- Reading a message counts it, if the count has room. -/
theorem held_receive {p : Pdu} {top : Bool} (h : Subscriber.receive m p top = .ok m')
    (hm : Counting m) (hp : Plain p) {name : CString} (hroom : held name m + 1 < 2 ^ 64) :
    held name m' = held name m + mentions name [p] := by
  obtain ⟨-, hnone, hsome⟩ := Subscriber.receive_spec h name
  have hsteady (hr : Subscriber.received name p = none) : held name m' = held name m := by
    rw [held_brief, held_brief]
    rcases hnone hr with hb | ⟨hx, type, hb⟩
    · rw [hb]
    · rw [hb, hx]
      rfl
  obtain ⟨name', rfl | rfl⟩ := hp
  · have hne : initPdu name' ≠ countPdu name := by simp [initPdu, countPdu]
    simpa [mentions, hne] using hsteady (received_initPdu name name')
  · by_cases hname : name' = name
    · have hb := hsome 1 (by rw [received_countPdu, if_pos hname])
      rw [held_brief] at hroom
      rw [held_brief, held_brief, hb]
      cases hx : m.metrics.get? name with
      | none => simp [Subscriber.brief, Subscriber.counted, mentions, hname]
      | some x =>
        have htype := hm.counts name x hx
        simp only [hx, Subscriber.brief, Option.map_some, Option.elim_some] at hroom
        simp only [Subscriber.brief, Subscriber.counted, Option.map_some, htype, Option.elim_some,
          UInt64.toNat_add, mentions, hname, List.count_singleton_self]
        exact Nat.mod_eq_of_lt hroom
    · have hne : countPdu name' ≠ countPdu name := by simpa [countPdu] using hname
      simpa [mentions, hne] using hsteady (by rw [received_countPdu, if_neg hname])

omit [HashOrder] in
theorem submissions_counts (monitor : CString) (time : Nat → Int32) (i : Nat)
    {l : List (CString × Subscriber.Metric R)} (h : ∀ e ∈ l, e.2.type = .count) :
    ∃ out, Subscriber.submissions monitor time i l = .ok out := by
  induction l generalizing i with
  | nil => exact ⟨[], rfl⟩
  | cons e l ih =>
    obtain ⟨out, hout⟩ := ih (i + 1) fun e' he' => h e' (List.mem_cons_of_mem _ he')
    have htype := h e List.mem_cons_self
    simp only [Subscriber.submissions, Subscriber.submission, htype, ok_bind, hout]
    exact ⟨_, rfl⟩

/-- A TOCK reports what was held. -/
theorem Counting.tock (hm : Counting m) (time : Nat → Int32) :
    ∃ m' out, Subscriber.reactor m (.tock time) = .ok (m', out) ∧ Counting m' ∧
      m'.name = m.name ∧ ∀ name, held name m < 2 ^ 32 →
        held name m' = 0 ∧ reported m.name name out = held name m := by
  obtain ⟨out, hout⟩ := submissions_counts m.name time 0 (l := m.metrics.entries) fun e he =>
    hm.counts e.1 e.2 (Table.get?_of_mem he)
  refine ⟨{ m with metrics := m.metrics.mapValues fun _ x => Subscriber.reset x }, out, ?_,
    ⟨hm.running, hm.counts.mapValues fun _ _ h => h⟩, rfl, fun name hlt => ⟨?_, ?_⟩⟩
  · simp only [Subscriber.reactor, hm.running, hout, ok_bind]
    rfl
  · unfold held
    rw [Table.get?_mapValues]
    cases m.metrics.get? name <;> rfl
  · have hshown := Subscriber.shown_submissions hout name
    rw [Table.filterMap_entries] at hshown
    rw [reported, hshown]
    unfold held at hlt ⊢
    cases hx : m.metrics.get? name with
    | none => rfl
    | some x =>
      simp only [hx, Option.elim_some] at hlt
      have hcount : x.count.toUInt32.toNat = x.count.toNat := by
        simpa using Nat.mod_eq_of_lt hlt
      simp [Subscriber.submitted, hm.counts name x hx, hcount,
        strtoul_decimal (show x.count.toNat < 2 ^ 64 by omega)]

/-! ## Whole runs -/

/-- The pipeline after the broadcasts `ps`, when `out` was submitted: the messages `read` have come
through, those in the queue are still to come, and what was read was reported or is held. -/
structure Accounted (monitor : CString) (s : Pipeline R) (ps out read : List Pdu) : Prop where
  counting : Counting s.monitor
  name_eq : s.monitor.name = monitor
  inits : ∀ p ∈ s.inits, ∃ name, p = initPdu name
  sent : read ++ s.counts = ps.flatMap dispatch
  kept : ps.length < 2 ^ 32 → ∀ name,
    reported monitor name out + held name s.monitor = mentions name read

namespace Accounted

variable {monitor : CString} {s : Pipeline R} {ps out read : List Pdu}

omit [Double R] [HashOrder] [Subscriber.DoubleText R] in
theorem mentions_le (h : Accounted monitor s ps out read) (name : CString) :
    mentions name read ≤ ps.length := by
  have hsum := congrArg (mentions name) h.sent
  rw [mentions_append, mentions_dispatch] at hsum
  have := tally_le name ps
  omega

omit [Double R] [HashOrder] [Subscriber.DoubleText R] in
theorem plain (h : Accounted monitor s ps out read) {p : Pdu} (hp : p ∈ s.counts) : Plain p := by
  have hmem : p ∈ ps.flatMap dispatch := h.sent ▸ List.mem_append_right _ hp
  obtain ⟨q, -, hq⟩ := List.mem_flatMap.mp hmem
  simp only [dispatch, List.mem_cons, List.not_mem_nil, or_false] at hq
  exact hq.elim (fun hq => ⟨_, .inr hq⟩) fun hq => ⟨_, .inr hq⟩

/-- A message from either queue. -/
theorem input (h : Accounted monitor s ps out read) {p : Pdu} (hp : Plain p) (top : Bool) :
    ∃ m', Subscriber.reactor s.monitor (.input p top) = .ok (m', []) ∧ Counting m' ∧
      m'.name = monitor ∧ (ps.length < 2 ^ 32 → ∀ name,
        reported monitor name out + held name m' = mentions name (read ++ [p])) := by
  obtain ⟨m', hreceive, hcounting⟩ := h.counting.receive hp top
  refine ⟨m', ?_, hcounting, ?_, fun hsmall name => ?_⟩
  · simp only [Subscriber.reactor, h.counting.running, hreceive, ok_bind]
    rfl
  · exact (Subscriber.receive_spec hreceive (.lit "total")).1.1.trans h.name_eq
  · have hkept := h.kept hsmall name
    have hle := h.mentions_le name
    rw [held_receive hreceive h.counting hp (by omega), mentions_append]
    omega

theorem step (h : Accounted monitor s ps out read) (e : Event) :
    ∃ s' out' read', Meta.step s e = .ok (s', out') ∧
      Accounted monitor s' (ps ++ received [e]) (out ++ out') read' := by
  cases e with
  | subscriber p =>
    refine ⟨_, [], read, rfl, h.counting, h.name_eq, h.inits, ?_, fun hsmall name => ?_⟩
    · rw [List.flatMap_append, ← h.sent]
      simp [received]
    · rw [List.length_append] at hsmall
      simpa using h.kept (by omega) name
  | init top =>
    cases hi : s.inits with
    | nil => exact ⟨s, [], read, by simp [Meta.step, hi], by simpa [received] using h⟩
    | cons p rest =>
      obtain ⟨name, rfl⟩ := h.inits p (by simp [hi])
      obtain ⟨m', hm', hcounting, hname, hkept⟩ := h.input ⟨name, .inl rfl⟩ top
      refine ⟨{ s with inits := rest, monitor := m' }, [], read, ?_, hcounting, hname,
        fun q hq => h.inits q (by simp [hi, hq]), ?_, ?_⟩
      · simp only [Meta.step, hi, hm', ok_bind]
        rfl
      · simpa [received] using h.sent
      · intro hsmall name'
        have hne : initPdu name ≠ countPdu name' := by simp [initPdu, countPdu]
        have hk := hkept (by simpa [received] using hsmall) name'
        rw [mentions_append] at hk
        simpa [mentions, hne] using hk
  | count top =>
    cases hc : s.counts with
    | nil => exact ⟨s, [], read, by simp [Meta.step, hc], by simpa [received] using h⟩
    | cons p rest =>
      obtain ⟨m', hm', hcounting, hname, hkept⟩ := h.input (h.plain (p := p) (by simp [hc])) top
      refine ⟨{ s with counts := rest, monitor := m' }, [], read ++ [p], ?_, hcounting, hname,
        h.inits, ?_, ?_⟩
      · simp only [Meta.step, hc, hm', ok_bind]
        rfl
      · simpa [received, hc] using h.sent
      · simpa [received] using hkept
  | tock time =>
    obtain ⟨m', out', htock, hcounting, hname, hreport⟩ := h.counting.tock time
    refine ⟨{ s with monitor := m' }, out', read, ?_, hcounting, hname.trans h.name_eq, h.inits, ?_,
      fun hsmall name => ?_⟩
    · simp only [Meta.step, htock, ok_bind]
      rfl
    · simpa [received] using h.sent
    · have hps : ps.length < 2 ^ 32 := by simpa [received] using hsmall
      have hkept := h.kept hps name
      have hle := h.mentions_le name
      obtain ⟨hzero, hrep⟩ := hreport name (by omega)
      rw [h.name_eq] at hrep
      change reported monitor name (out ++ out') + held name m' = _
      rw [reported_append, hrep, hzero]
      omega

end Accounted

omit [Double R] [HashOrder] [Subscriber.DoubleText R] in
theorem accounted_start (monitor : CString) :
    Accounted monitor (start monitor : Pipeline R) [] [] [] where
  counting := ⟨rfl, .empty⟩
  name_eq := rfl
  inits p hp := by
    obtain ⟨name, -, rfl⟩ := List.mem_map.mp hp
    exact ⟨name, rfl⟩
  sent := rfl
  kept _ name := rfl

theorem run_accounted (monitor : CString) (events : List Event) :
    ∃ s out read, Machine.run step (start monitor : Pipeline R) events = .ok (s, out) ∧
      Accounted monitor s (received events) out read := by
  have hstep (s : Pipeline R) (e : Event) (es : List Event) (out : List Pdu)
      (h : ∃ read, Accounted monitor s (received es) out read) (_ : True) :
      ∃ s' out', step s e = .ok (s', out') ∧
        ∃ read, Accounted monitor s' (received (es ++ [e])) (out ++ out') read := by
    obtain ⟨read, h⟩ := h
    obtain ⟨s', out', read', hs, h'⟩ := h.step e
    exact ⟨s', out', hs, read', by rwa [received_append]⟩
  have halong : Machine.Along step (fun (_ : Pipeline R) _ => True) (start monitor) events :=
    fun _ _ _ _ _ _ _ => trivial
  obtain ⟨s, out, hrun, read, h⟩ := Machine.run_complete hstep (l := []) (o := [])
    ⟨[], accounted_start monitor⟩ halong
  exact ⟨s, out, read, hrun, h⟩

end Proofs

/-! ## The kernel behind it -/

/-- The metrics of broadcasts with the frames that their type should have. -/
def kinds : List CString :=
  [.lit "counter", .lit "sample", .lit "rate", .lit "state", .lit "transition", .lit "event",
   .lit "setkeys"]

/-- The metrics of all other broadcasts. -/
def bogons : List CString :=
  [.lit "bogon.counter", .lit "bogon.sample", .lit "bogon.rate", .lit "bogon.state",
   .lit "bogon.transition", .lit "bogon.event", .lit "bogon.setkeys", .lit "bogon.unknown"]

theorem metric_bulletin [Double R] {p : Pdu} (h : Bulletin R p) : metric p ∈ kinds := by
  cases h with
  | state h =>
    obtain ⟨name, summary, -, -, rfl⟩ := stateFrames_spec h
    simp [metric, Pdu.size, kinds]
  | transition h =>
    obtain ⟨name, summary, -, -, rfl⟩ := stateFrames_spec h
    simp [metric, Pdu.size, kinds]
  | counter ts name c => simp [metric, Pdu.size, kinds, counterPayload]
  | sample ts name s => simp [metric, Pdu.size, kinds, samplePayload]
  | rate ts name w r => simp [metric, Pdu.size, kinds, ratePayload]
  | event ts name extra => simp [metric, Pdu.size, kinds]
  | @keys pairs hpos hle =>
    have hodd : (2 * pairs.length + 1) % 2 = 1 ∧ 3 ≤ 2 * pairs.length + 1 := by omega
    simp [metric, Pdu.size, kinds, length_pairFrames, hodd]

theorem sum_mentions_cons (name : CString) (ps : List Pdu) (l : List CString) :
    (l.map fun n => mentions n (countPdu name :: ps)).sum =
      (l.map fun n => mentions n ps).sum + l.count name := by
  induction l with
  | nil => rfl
  | cons n l ih =>
    rw [List.map_cons, List.sum_cons, ih, mentions_cons, List.map_cons, List.sum_cons,
      List.count_cons]
    by_cases h : name = n
    · simp only [h, if_true, beq_self_eq_true]
      omega
    · simp only [h, Ne.symm h, if_false, beq_iff_eq]
      omega

/-- Of the messages read so far, as many are about a kind as about the total, or one more. -/
theorem mentions_total {ps read : List Pdu} (hps : ∀ p ∈ ps, metric p ∈ kinds)
    (hread : read <+: ps.flatMap dispatch) :
    mentions (.lit "total") read ≤ (kinds.map fun n => mentions n read).sum ∧
      (kinds.map fun n => mentions n read).sum ≤ mentions (.lit "total") read + 1 := by
  have hcount : ∀ n ∈ kinds, kinds.count n = 1 := by decide
  have htotal : kinds.count (.lit "total") = 0 := by decide
  induction ps generalizing read with
  | nil =>
    obtain rfl : read = [] := by simpa using hread
    decide
  | cons p ps ih =>
    have hp := hcount _ (hps p List.mem_cons_self)
    have hne := metric_ne_total p
    rw [List.flatMap_cons, dispatch, List.cons_append, List.cons_append, List.nil_append] at hread
    match read with
    | [] => decide
    | [q] =>
      obtain ⟨rfl, -⟩ := List.cons_prefix_cons.mp hread
      rw [sum_mentions_cons, mentions_cons, hp, if_neg hne]
      decide
    | q :: q' :: read =>
      simp only [List.cons_prefix_cons] at hread
      obtain ⟨rfl, rfl, hread⟩ := hread
      have hrest := ih (fun p' hp' => hps p' (List.mem_cons_of_mem _ hp')) hread
      rw [sum_mentions_cons, sum_mentions_cons, hp, htotal, mentions_cons, mentions_cons,
        if_neg hne, if_pos rfl]
      omega

section Kernel

variable {Re : Type} [Double R] [Subscriber.DoubleText R] [HashOrder] [Pcre Re]

/-- What the monitor was told about a metric: what it reported and what it holds. -/
def taken (monitor name : CString) (s : Pipeline R) (out : List Pdu) : Nat :=
  reported monitor name out + held name s.monitor

/-- Whatever the kernel does and however the threads of `bolo2meta` are interleaved, each
broadcast that was read is counted once under its kind and once in the total: it is reported,
held, or on its way. No broadcast of the kernel is a bogon, and the total is never more than
one broadcast behind the kinds. -/
theorem broadcasts_accounted {k k' : Kernel R Re} {is : List Input} {es : List Effect}
    (hkernel : Machine.run Bolo.reactor k is = .ok (k', es)) (monitor : CString)
    {events : List Event} (hread : received events <+: broadcasts es)
    (hsmall : (received events).length < 2 ^ 32) :
    ∃ s out, Machine.run step (start monitor : Pipeline R) events = .ok (s, out) ∧
      (∀ name, taken monitor name s out + mentions name s.counts = tally name (received events)) ∧
      (∀ name ∈ bogons, taken monitor name s out + mentions name s.counts = 0) ∧
      taken monitor (.lit "total") s out ≤ (kinds.map fun n => taken monitor n s out).sum ∧
      (kinds.map fun n => taken monitor n s out).sum ≤ taken monitor (.lit "total") s out + 1 := by
  obtain ⟨s, out, read, hrun, h⟩ := run_accounted (R := R) monitor events
  have hkinds (p : Pdu) (hp : p ∈ received events) : metric p ∈ kinds :=
    metric_bulletin (run_bulletins hkernel p (hread.subset hp))
  have htaken (name : CString) : taken monitor name s out = mentions name read :=
    h.kept hsmall name
  have hsum (name : CString) :
      taken monitor name s out + mentions name s.counts = tally name (received events) := by
    rw [htaken, ← mentions_append, h.sent, mentions_dispatch]
  refine ⟨s, out, hrun, hsum, fun name hname => ?_, ?_⟩
  · have hbogon : ∀ n ∈ bogons, n ∉ kinds ∧ n ≠ .lit "total" := by decide
    obtain ⟨hnotMem, hne⟩ := hbogon name hname
    rw [hsum, tally, if_neg hne, Nat.add_zero, List.countP_eq_zero]
    intro p hp heq
    exact hnotMem (by simpa using of_decide_eq_true heq ▸ hkinds p hp)
  · simp only [htaken]
    exact mentions_total hkinds (h.sent ▸ List.prefix_append _ _)

end Kernel

section Hosts

open Reference
open scoped Subscriber

/-- A report of a WARNING. -/
def warning : List Input := [.listener 10 (pdu .state ["10", "web", "1", "slow"])]

/-- The TRANSITION is read, and one of its two messages before a TOCK. -/
def watching : List Event :=
  [.init false, .subscriber (pdu .transition ["web", "10", "fresh", "WARNING", "slow"]),
   .count false, .tock fun _ => 60]

theorem broadcasts_accounted_hosts : ∃ (k : Kernel Int CString) (es : List Effect)
    (s : Pipeline Int) (out : List Pdu),
    Machine.run Bolo.reactor (boot hosts) warning = .ok (k, es) ∧
      Machine.run step (start (.lit "m")) watching = .ok (s, out) ∧
      taken (.lit "m") (.lit "transition") s out + mentions (.lit "transition") s.counts = 1 ∧
      taken (.lit "m") (.lit "bogon.transition") s out = 0 := by
  obtain ⟨⟨k, es⟩, hkernel⟩ := exists_ok (x := Machine.run Bolo.reactor (boot hosts) warning)
    (by decide +kernel)
  have hread : received watching <+: broadcasts es := by
    have hsent : (Machine.run Bolo.reactor (boot hosts) warning).map
        (fun r => decide (received watching <+: broadcasts r.2)) = .ok true := by decide +kernel
    rw [hkernel] at hsent
    exact of_decide_eq_true (Except.ok.inj hsent)
  obtain ⟨s, out, hrun, hsum, hbogons, -⟩ :=
    broadcasts_accounted hkernel (.lit "m") hread (by decide)
  have hbogon := hbogons (.lit "bogon.transition") (by decide)
  exact ⟨k, es, s, out, hkernel, hrun, (hsum _).trans (by decide), by omega⟩

end Hosts

end Bolo.Meta
