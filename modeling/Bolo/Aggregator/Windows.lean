import Bolo.Config.Loaded
import Bolo.Config.Reference
import Bolo.Kernel.Order

/-!
# Windowed datapoints of a configured kernel

From the configuration file to the broadcasts: every COUNTER and SAMPLE broadcast is about
one window, and under conditions on the timestamps no window of a counter, sample set or
rate is broadcast twice. The end of a window is computed in 32 bits, where it can wrap; a
window that wraps looks over as soon as it is open.
-/
namespace Bolo

open Library

variable {R Re : Type}

/-! ## One window for each broadcast -/

section Pure

variable [Double R] [Pcre Re]

/-- A window of `name` starts at `start`, and all the submissions `vs` fall into it. -/
def Kind.Covers (κ : Kind) (name : CString) (db : Db R Re) (start : Nat)
    (vs : List (UInt32 × κ.Value R)) : Prop :=
  ∃ w, κ.windowOf name db = some w ∧ w.time.toInt.toNat ∣ start ∧
    ∀ e ∈ vs, start ≤ e.1.toNat ∧ e.1.toNat < start + w.time.toInt.toNat

variable [HashOrder] {clock : Nat → Int32} {file : List UInt8} {s : Server R Re}
  {k : Kernel R Re} {is : List Input} {es : List Effect}

/-- The ledgers of a counter and of a sample set list the broadcasts of the run. Each one
covers exactly what was accepted since the one before it, all of one window, and shows its
sum modulo the width of the value, or its aggregate. -/
structure PureReports (s : Server R Re) (is : List Input) (es : List Effect) (name : CString) :
    Prop where
  counters : Ledger.flushed (Kind.counter.ledger name (boot s) is) =
    es.filterMap (Effect.select (Kind.counter.about name))
  counter : Ledger.Flushes (fun vs p => ∃ start value : Nat,
      Kind.counter.Covers name s.db start vs ∧
      p = { type := Tag.counter.text, frames := [decimal start, name, decimal value] } ∧
      value < 2 ^ 64 ∧
      (value : Int) ≡ (vs.map fun e => Int32.toInt e.2).sum [ZMOD (2 ^ 64 : Nat)])
    (Kind.counter.ledger name (boot s) is)
  samples : Ledger.flushed (Kind.sample.ledger name (boot s) is) =
    es.filterMap (Effect.select (Kind.sample.about name))
  sample : Ledger.Flushes (fun vs p => ∃ start, Kind.sample.Covers name s.db start vs ∧
      let x := (sampleValues vs).foldl sampleData
        (Sample.blank name (Kind.sample.windowOf name s.db))
      p = { type := Tag.sample.text, frames := [decimal start, name, decimal (x.n.toNat % 2 ^ 32),
        Double.fmtE x.min, Double.fmtE x.max, Double.fmtE x.sum, Double.fmtE x.mean,
        Double.fmtE x.var] })
    (Kind.sample.ledger name (boot s) is)

/-- With positive windows and timestamps in the signed range, every COUNTER and SAMPLE
broadcast is about one window. -/
theorem broadcasts_pure (hs : Configured clock file s)
    (hrun : Machine.run reactor (boot s) is = .ok (k, es))
    (hforget : ∀ p, .management p ∈ is → ¬p.is .forget 4 4)
    (hT : ∀ (κ : Kind) name w, κ.windowOf name s.db = some w → 0 < w.time.toInt)
    (hts : ∀ (κ : Kind) name, ∀ i ∈ is, ∀ now ts v,
      κ.view R Re name i = some (.submit now ts v) → 0 < ts.toNat ∧ ts.toNat < 2 ^ 31)
    (name : CString) : PureReports s is es name := by
  have hfresh := hs.loaded.fresh
  have hwf : (boot s).db.Wf := hfresh.wf
  have hpure (κ : Kind) := κ.ledger_pure name hfresh hrun hforget (hT κ name) (hts κ name)
  refine ⟨Kind.counter.flushed_ledger name hwf hrun, (hpure .counter).mono ?_,
    Kind.sample.flushed_ledger name hwf hrun, (hpure .sample).mono ?_⟩
  · rintro vs p ⟨w, start, hw, hdvd, hin, -, -, rfl⟩
    refine ⟨start, _, ⟨w, hw, hdvd, hin⟩, rfl, UInt64.toNat_lt _, ?_⟩
    have hvalue : (((counterSeries : Series R Re _ _).feed (Counter.blank name (some w))
        vs).value.toNat : ZMod (2 ^ 64)) = _ := counter_feed_value _ vs
    change ((((counterSeries : Series R Re _ _).feed (Counter.blank name (some w))
      vs).value.toNat : Nat) : Int) ≡ _ [ZMOD _]
    rw [← ZMod.intCast_eq_intCast_iff]
    simpa [Counter.blank, Int.cast_list_sum, List.map_map, Function.comp_def] using hvalue
  · rintro vs p ⟨w, start, hw, hdvd, hin, -, -, rfl⟩
    refine ⟨start, ⟨w, hw, hdvd, hin⟩, ?_⟩
    have hpayload : samplePayload ((sampleSeries : Series R Re _ _).feed
        (Sample.blank name (some w)) vs) = _ := sample_feed_payload name (some w) vs
    rw [hw]
    exact congrArg (fun payload => Pdu.mk Tag.sample.text (decimal start :: name :: payload))
      hpayload

end Pure

section Minutes

open Reference

theorem minutes_positive (κ : Kind) (name : CString) (w : Window)
    (h : κ.windowOf name minutes.db = some w) : 0 < w.time.toInt := by
  rcases Kind.windowOf_mem h with ⟨e, he, hw⟩ | ⟨r, hr, ht⟩
  · have hall : ∀ e ∈ (κ.series.table minutes.db).entries,
        ((κ.series : Series Int CString _ _).window e.2).all fun w => 0 < w.time.toInt := by
      cases κ <;> decide +kernel
    have hpos := hall e he
    rw [hw] at hpos
    simpa using hpos
  · have hnone : κ.series.rules minutes.db = [] := by cases κ <;> decide +kernel
    simp [hnone] at hr

/-- Two minutes of submissions, and a tick after them. -/
def twoMinutes : List Input :=
  [.listener 61 (pdu .counter ["61", "hits", "5"]),
   .listener 65 (pdu .sample ["65", "load", "3", "5"]),
   .listener 130 (pdu .counter ["130", "hits", "-2"]),
   .tock ⟨200, 200, 0⟩]

theorem twoMinutes_stamps {κ : Kind} {name : CString} {i : Input} (hi : i ∈ twoMinutes)
    {now : Int32} {ts : UInt32} {v : κ.Value Int}
    (hv : κ.view Int CString name i = some (.submit now ts v)) :
    0 < ts.toNat ∧ ts.toNat < 2 ^ 31 := by
  have hall : ∀ d ∈ twoMinutes.filterMap Input.arrival, 0 < d.2.2.toNat ∧ d.2.2.toNat < 2 ^ 31 := by
    decide +kernel
  exact hall (now, name, ts) (List.mem_filterMap.mpr ⟨i, hi, κ.view_submit name hv⟩)

theorem broadcasts_pure_minutes : ∃ k es,
    Machine.run reactor (boot minutes) twoMinutes = .ok (k, es) ∧
      PureReports minutes twoMinutes es (.lit "hits") ∧
      (Ledger.flushed (Kind.counter.ledger (.lit "hits") (boot minutes) twoMinutes)).length =
        2 := by
  obtain ⟨⟨k, es⟩, hrun⟩ := exists_ok (x := Machine.run reactor (boot minutes) twoMinutes)
    (by decide +kernel)
  exact ⟨k, es, hrun, broadcasts_pure minutes_configured hrun (by simp [twoMinutes])
    minutes_positive (fun _ _ _ hi _ _ _ => twoMinutes_stamps hi) _, by decide +kernel⟩

end Minutes

/-! ## Each window once -/

section Once

variable [Double R] [Pcre Re]

/-- Submissions to `name` that come in order and at most a grace period late, with a clock
that does not run backwards. -/
structure Kind.Punctual (κ : Kind) (name : CString) (s : Server R Re) (is : List Input) : Prop where
  clock : (is.filterMap Input.clock).Pairwise (·.toInt ≤ ·.toInt)
  stamps : (is.filterMap (κ.stamp R Re name)).Pairwise (· ≤ ·)
  arrivals : ∀ i ∈ is, ∀ now ts v, κ.view R Re name i = some (.submit now ts v) →
    0 < ts.toNat ∧ ts.toNat < 2 ^ 31 ∧ now.toInt ≤ ts.toNat + s.config.gracePeriod.toInt

theorem Kind.Punctual.of_arrivals {κ : Kind} {name : CString} {s : Server R Re} {is : List Input}
    (hclock : (is.filterMap Input.clock).Pairwise (·.toInt ≤ ·.toInt))
    (hstamps : (is.filterMap (κ.stamp R Re name)).Pairwise (· ≤ ·))
    (h : ∀ d ∈ is.filterMap Input.arrival, 0 < d.2.2.toNat ∧ d.2.2.toNat < 2 ^ 31 ∧
      d.1.toInt ≤ d.2.2.toNat + s.config.gracePeriod.toInt) : κ.Punctual name s is :=
  ⟨hclock, hstamps, fun i hi now ts _ hv =>
    h (now, name, ts) (List.mem_filterMap.mpr ⟨i, hi, κ.view_submit name hv⟩)⟩

variable [HashOrder] {clock : Nat → Int32} {file : List UInt8} {s : Server R Re}
  {k : Kernel R Re} {is : List Input} {es : List Effect}

/-- If every window is positive and ends in range, punctual submissions are reported window
by window. -/
theorem windows_once (hs : Configured clock file s)
    (hrun : Machine.run reactor (boot s) is = .ok (k, es))
    (hforget : ∀ p, .management p ∈ is → ¬p.is .forget 4 4) (κ : Kind) (name : CString)
    (hpunctual : κ.Punctual name s is)
    (hend : ∀ w, κ.windowOf name s.db = some w → 0 < w.time.toInt ∧
      ∀ i ∈ is, ∀ now ts v, κ.view R Re name i = some (.submit now ts v) →
        windowStart w.time.toInt.toNat ts.toNat + w.time.toInt.toNat < 2 ^ 31) :
    ((es.filterMap (Effect.select (κ.about name))).map (Pdu.number 1)).Pairwise (· < ·) := by
  refine κ.broadcasts_ordered name hs.loaded.fresh hrun hforget hpunctual.clock hpunctual.stamps
    (fun w hw => (hend w hw).1) fun w hw i hi m hm now ts v hsub => ?_
  subst hsub
  obtain ⟨hpos, -, hlate⟩ := hpunctual.arrivals i hi now ts v hm
  exact ⟨hpos, (hend w hw).2 i hi now ts v hm, hlate⟩

end Once

section LastMinute

open Reference

theorem windows_once_minutes : ∃ k es,
    Machine.run reactor (boot minutes) twoMinutes = .ok (k, es) ∧
      ((es.filterMap (Effect.select (Kind.counter.about (.lit "hits")))).map
        (Pdu.number 1)).Pairwise (· < ·) := by
  obtain ⟨⟨k, es⟩, hrun⟩ := exists_ok (x := Machine.run reactor (boot minutes) twoMinutes)
    (by decide +kernel)
  refine ⟨k, es, hrun, windows_once minutes_configured hrun (by simp [twoMinutes]) .counter _
    (.of_arrivals (by decide +kernel) (by decide +kernel) (by decide +kernel)) fun w hw => ?_⟩
  obtain rfl : minute = w := by
    have hwindow : Kind.counter.windowOf (.lit "hits") minutes.db = some minute := by
      decide +kernel
    simpa [hwindow] using hw
  refine ⟨by decide, fun i hi now ts v hv => ?_⟩
  have hall : ∀ d ∈ twoMinutes.filterMap Input.arrival,
      windowStart minute.time.toInt.toNat d.2.2.toNat + minute.time.toInt.toNat < 2 ^ 31 := by
    decide +kernel
  exact hall _ (List.mem_filterMap.mpr ⟨i, hi, Kind.view_submit _ _ hv⟩)

/-- Two submissions in the last minute of the clock, with a tick after each. -/
def lastMinute : List Input :=
  [.listener 2147483645 (pdu .counter ["2147483645", "hits", "1"]),
   .tock ⟨2147483646, 2147483646, 0⟩,
   .listener 2147483646 (pdu .counter ["2147483646", "hits", "1"]),
   .tock ⟨2147483647, 2147483647, 0⟩]

/-- The end of that minute wraps, so each tick closes and reports it again. -/
theorem lastMinute_twice :
    Kind.counter.Punctual (.lit "hits") minutes lastMinute ∧ ∃ k es,
      Machine.run reactor (boot minutes) lastMinute = .ok (k, es) ∧
        ¬((es.filterMap (Effect.select (Kind.counter.about (.lit "hits")))).map
          (Pdu.number 1)).Pairwise (· < ·) := by
  refine ⟨.of_arrivals (by decide +kernel) (by decide +kernel) (by decide +kernel), ?_⟩
  have hstarts : (Machine.run reactor (boot minutes) lastMinute).map (fun r =>
      (r.2.filterMap (Effect.select (Kind.counter.about (.lit "hits")))).map (Pdu.number 1)) =
      .ok [2147483640, 2147483640] := by decide +kernel
  obtain ⟨⟨k, es⟩, hrun⟩ := exists_ok (x := Machine.run reactor (boot minutes) lastMinute)
    (by decide +kernel)
  rw [hrun] at hstarts
  have hes : (es.filterMap (Effect.select (Kind.counter.about (.lit "hits")))).map
      (Pdu.number 1) = [2147483640, 2147483640] := Except.ok.inj hstarts
  exact ⟨k, es, hrun, by rw [hes]; decide⟩

end LastMinute

end Bolo
