import Bolo.Aggregator.Windows

/-!
# Reports in time

A datapoint that falls silent is reported by the tick. The first due tick that comes more than
a grace period after the end of a window leaves nothing of that window behind: every submission
in it has gone out by then, in one broadcast about its own window.
-/
namespace Bolo

open Library

variable {R Re : Type}

theorem windowStart_eq {T start t : Nat} (hdvd : T ∣ start) (hle : start ≤ t)
    (hlt : t < start + T) : windowStart T t = start := by
  obtain ⟨q, rfl⟩ := hdvd
  obtain ⟨r, rfl⟩ := Nat.exists_eq_add_of_le hle
  have hr : r % T = r := Nat.mod_eq_of_lt (by omega)
  rw [windowStart, Nat.mul_add_mod, hr]
  omega

/-! ## One datapoint -/

namespace Series

variable {α V : Type} (S : Series R Re α V)

/-- A sweep does not pass over a record whose window has ended. -/
theorem close_over {x y : α} {w : Window} {ts e : Int32} {out : List Pdu} (hi : S.ignore x = 0)
    (hs : S.lastSeen x ≠ 0) (hw : S.window x = some w)
    (he : winend w.time (S.lastSeen x) = .ok e) (hover : e < ts)
    (h : S.close ts x = .ok (y, out)) : out ≠ [] := by
  simp only [close, hi, hs, hw, he, ne_eq, not_true_eq_false, or_self, if_false, deref_some,
    Int32.not_le.mpr hover, bind_eq_ok, Except.ok.injEq, exists_eq_left', pure_eq_ok,
    Prod.mk.injEq] at h
  obtain ⟨p, -, -, rfl⟩ := h
  simp

/-- The end of a window, where it is in range. -/
theorem winend_spec {time t : Int32} {T n : Nat} (hT : time.toInt = T) (hpos : 0 < T)
    (ht : t.toInt = n) (hend : windowStart T n + T < 2 ^ 31) :
    ∃ e, winend time t = .ok e ∧ e.toInt = windowStart T n + T := by
  obtain ⟨start, hstart, hval⟩ := winstart_spec hT hpos ht
  refine ⟨start + time, by simp [winend, hstart, bind, Except.bind, pure, Except.pure], ?_⟩
  rw [toInt_add_of_bounds (by omega) (by omega), hval, hT]

theorem pending_map_flush (l : List (Entry (UInt32 × V) Pdu)) {out : List Pdu} (h : out ≠ []) :
    Ledger.pending (l ++ out.map .flush) = [] := by
  obtain ⟨out', p, rfl⟩ := (List.eq_nil_or_concat out).resolve_left h
  rw [List.concat_eq_append, List.map_append, ← List.append_assoc]
  exact Ledger.pending_flush _ p

/-- After a due tick nothing is pending whose window ended before the clock less the grace
period. -/
theorem pending_tick [Pcre Re] {name : CString} {b : α} {w : Window} {T : Nat} {c c' : Cell Re α}
    {now : Int32} {out : List Pdu} {l : List (Entry (UInt32 × V) Pdu)} (hi : S.ignore b = 0)
    (hw : S.window b = some w) (hT : w.time.toInt = T) (hpos : 0 < T)
    (hheld : S.Held name (some b) c l) (hone : OneWindow T (Ledger.pending l))
    (hdue : c.timer.due now) (h : S.cell name c (.tick now) = .ok (c', out)) :
    ∀ e ∈ Ledger.pending (l ++ S.entries name c (.tick now) out),
      windowStart T e.1.toNat + T < 2 ^ 31 →
        (now - c.grace).toInt ≤ windowStart T e.1.toNat + T := by
  intro e he hend
  simp only [entries, List.append_nil] at he
  by_cases hout : out = []
  · subst hout
    rw [List.map_nil, List.append_nil] at he
    by_contra hover
    -- the record was last seen in the window of `e`
    obtain ⟨vs, ⟨t, u⟩, heq⟩ :=
      (List.eq_nil_or_concat _).resolve_left (List.ne_nil_of_mem he)
    rw [List.concat_eq_append] at heq
    have hrange : 0 < t.toNat ∧ t.toNat < 2 ^ 31 := (hone (t, u) (by simp [heq])).1
    have hsame := (hone e he).2 (t, u) (by simp [heq])
    have hseen : (S.lastSeen (S.feed b (Ledger.pending l))).toInt = t.toNat := by
      rw [heq, lastSeen_feed_append, toInt_toInt32_of_lt hrange.2]
    have hne : S.lastSeen (S.feed b (Ledger.pending l)) ≠ 0 := by
      intro hzero
      rw [hzero, Int32.toInt_zero] at hseen
      omega
    obtain ⟨stop, hstop, hval⟩ := winend_spec hT hpos hseen (hsame ▸ hend)
    obtain ⟨-, -, -, hvisit⟩ := S.cell_tick h
    cases hf : c.found with
    | none =>
      -- a record that was only just made has seen nothing
      have hrecord := hheld.record
      simp only [hf, lookup, Option.map_some, Option.map_eq_some_iff] at hrecord
      obtain ⟨target, -, hblank⟩ := hrecord
      rw [← hblank, ← S.reset_blank, S.lastSeen_reset] at hne
      exact hne rfl
    | some x =>
      obtain rfl : x = S.feed b (Ledger.pending l) := by
        simpa [hf, lookup_some] using hheld.record
      simp only [hf, hdue, Table.visit, Table.gate, if_true, bind_eq_ok, pure_eq_ok, Prod.exists,
        Prod.mk.injEq] at hvisit
      obtain ⟨y, out, hclose, -, hnil⟩ := hvisit
      refine S.close_over (by simpa using hi) hne (by simpa using hw) hstop ?_ hclose hnil
      rw [Int32.lt_iff_toInt_lt, hval, ← hsame]
      omega
  · rw [pending_map_flush l hout] at he
    cases he

/-- The tick timer of a datapoint after ticks before `N`. -/
structure Early (N : Int) (grace : Int32) (c : Cell Re α) : Prop where
  interval : c.timer.interval = 0
  last : c.timer.last.toInt < N
  grace : c.grace = grace

theorem Early.step [Pcre Re] {name : CString} {N : Int} {grace : Int32} {c c' : Cell Re α}
    {m : Msg V} {out : List Pdu} (h : Early N grace c)
    (hm : ∀ now, m = .tick now → now.toInt < N) (hstep : S.cell name c m = .ok (c', out)) :
    Early N grace c' := by
  cases m with
  | tick now =>
    obtain ⟨-, hgrace, htimer, -⟩ := S.cell_tick hstep
    refine ⟨?_, ?_, hgrace.trans h.grace⟩
    · rw [htimer, Timer.fire]
      split <;> exact h.interval
    · rw [htimer, Timer.fire]
      split
      · exact hm now rfl
      · exact h.last
  | submit now ts v =>
    obtain ⟨-, hgrace, htimer, -⟩ := S.cell_submit hstep
    exact ⟨htimer ▸ h.interval, htimer ▸ h.last, hgrace.trans h.grace⟩
  | forget keep =>
    simp only [cell, Except.ok.injEq, Prod.mk.injEq] at hstep
    obtain ⟨rfl, -⟩ := hstep
    exact ⟨h.interval, h.last, h.grace⟩

theorem Early.due {grace : Int32} {c : Cell Re α} {now : Int32} (h : Early now.toInt grace c) :
    c.timer.due now := by
  have hzero : c.timer.last + c.timer.interval.toInt32 = c.timer.last := by
    rw [h.interval]
    exact Int32.add_zero _
  simp only [Timer.due, hzero, decide_eq_true_eq, Int32.lt_iff_toInt_lt]
  exact h.last

end Series

/-! ## Runs of the kernel -/

namespace Kind

variable [Double R] [Pcre Re] [HashOrder] {κ : Kind} {name : CString} {s : Server R Re}

omit [HashOrder] in
theorem view_tick {i : Input} {now : Int32} (h : κ.view R Re name i = some (.tick now)) :
    ∃ c, i = .tock c ∧ c.now = now := by
  cases i with
  | tock c => exact ⟨c, rfl, by simpa [view] using h⟩
  | listener now' p =>
    simp only [view] at h
    split at h
    · split at h
      · split at h <;> simp at h
      · cases h
    · cases h
  | management p =>
    simp only [view] at h
    split at h
    · split at h <;> simp at h
    · cases h

omit [HashOrder] in
/-- What was pending and is no longer has been flushed. -/
theorem flush_of_lost {k : Kernel R Re} {l : List (Entry (UInt32 × κ.Value R) Pdu)} {i : Input}
    {out : List Effect} {e : UInt32 × κ.Value R} (he : e ∈ Ledger.pending l)
    (hlost : e ∉ Ledger.pending (l ++ κ.entries name k i out)) :
    ∃ p es, κ.entries name k i out = .flush p :: es ∧ .broadcast p ∈ out := by
  cases hview : κ.view R Re name i with
  | none => simp [entries, hview, he] at hlost
  | some m =>
    simp only [entries, hview, Series.entries] at hlost ⊢
    cases hout : out.filterMap (Effect.select (κ.about name)) with
    | nil =>
      rw [hout, List.map_nil, List.nil_append] at hlost
      refine absurd ?_ hlost
      cases m with
      | submit now ts v =>
        simp only
        split
        · simp [he]
        · simpa using he
      | tick now => simpa using he
      | forget keep => simpa using he
    | cons p ps =>
      refine ⟨p, _, rfl, ?_⟩
      have hp : p ∈ out.filterMap (Effect.select (κ.about name)) := by simp [hout]
      obtain ⟨q, hq, hsel⟩ := List.mem_filterMap.mp hp
      cases q with
      | broadcast q =>
        obtain ⟨-, rfl⟩ : κ.about name q ∧ q = p := by simpa [Effect.select] using hsel
        exact hq
      | _ => cases hsel

/-- A submission to a known datapoint is pending as soon as it is read. -/
theorem pending_submit (hfresh : s.db.Fresh) {k k' : Kernel R Re} {is : List Input} {i : Input}
    {es out : List Effect} (hrun : Machine.run reactor (boot s) is = .ok (k, es))
    (hforget : ∀ p, .management p ∈ is → ¬p.is .forget 4 4) {w : Window}
    (hbase : κ.base name s.db = some ((κ.series : Series R Re _ _).blank name (some w)))
    {now : Int32} {ts : UInt32} {v : κ.Value R}
    (hsub : κ.view R Re name i = some (.submit now ts v)) (hstep : reactor k i = .ok (k', out)) :
    (ts, v) ∈ Ledger.pending (κ.ledger name (boot s) (is ++ [i])) := by
  have hheld := κ.ledger_held name hfresh hrun hforget
  have hrecord := hheld.record
  rw [hbase, Option.map_some] at hrecord
  have haccepts : κ.series.accepts (κ.cell name k).rules name (κ.cell name k).found := by
    simp [Series.accepts, hrecord, κ.series.ignore_blank]
  rw [κ.ledger_snoc name hrun hstep, entries, hsub]
  simp only [Series.entries, haccepts, if_true, ← List.append_assoc, Ledger.pending_accept]
  simp

/-- A step that takes a submission out of what is pending broadcasts its window. -/
theorem report_of_lost (hfresh : s.db.Fresh) {k k' : Kernel R Re} {is : List Input} {j : Input}
    {es out : List Effect} (hrun : Machine.run reactor (boot s) is = .ok (k, es))
    (hstep : reactor k j = .ok (k', out))
    (hforget : ∀ p, .management p ∈ is ++ [j] → ¬p.is .forget 4 4) {w : Window} {T : Nat}
    (hw : κ.windowOf name s.db = some w) (hT : w.time.toInt = T) (hpos : 0 < T)
    (hts : ∀ i ∈ is ++ [j], ∀ now ts v, κ.view R Re name i = some (.submit now ts v) →
      0 < ts.toNat ∧ ts.toNat < 2 ^ 31)
    {e : UInt32 × κ.Value R} (he : e ∈ Ledger.pending (κ.ledger name (boot s) is))
    (hlost : e ∉ Ledger.pending (κ.ledger name (boot s) (is ++ [j]))) :
    .broadcast (κ.report Re name w (windowStart T e.1.toNat)
      (Ledger.pending (κ.ledger name (boot s) is))) ∈ out := by
  have hrun' := Machine.run_append.mpr ⟨k, es, out, hrun, Machine.run_singleton.mpr hstep, rfl⟩
  have hpure := ledger_pure κ name hfresh hrun' hforget
    (fun w' hw' => by
      obtain rfl : w = w' := by simpa [hw] using hw'
      omega) hts
  rw [κ.ledger_snoc name hrun hstep] at hlost hpure
  obtain ⟨p, es', hentries, hp⟩ := flush_of_lost he hlost
  rw [hentries] at hpure
  obtain ⟨w', start, hw', hdvd, hcovers, -, -, rfl⟩ := hpure _ p es' rfl
  obtain rfl : w = w' := by simpa [hw] using hw'
  obtain ⟨hle, hlt⟩ := hcovers e he
  rw [hT, Int.toNat_natCast] at hdvd hlt
  rwa [windowStart_eq hdvd hle hlt]

variable (κ name) in
/-- After a tick later than all before it, nothing is pending that is overdue. -/
theorem pending_tock (hfresh : s.db.Fresh) {k : Kernel R Re} {is : List Input} {tick : Clock}
    {es : List Effect} (hrun : Machine.run reactor (boot s) (is ++ [.tock tick]) = .ok (k, es))
    (hforget : ∀ p, .management p ∈ is → ¬p.is .forget 4 4) {w : Window} {T : Nat}
    (hbase : κ.base name s.db = some ((κ.series : Series R Re _ _).blank name (some w)))
    (hT : w.time.toInt = T) (hpos : 0 < T)
    (hts : ∀ i ∈ is, ∀ now ts v, κ.view R Re name i = some (.submit now ts v) →
      0 < ts.toNat ∧ ts.toNat < 2 ^ 31)
    (hnow : 0 < tick.now.toInt) (hlast : ∀ c, .tock c ∈ is → c.now.toInt < tick.now.toInt)
    (hgrace : 0 ≤ s.config.gracePeriod.toInt) :
    ∀ e ∈ Ledger.pending (κ.ledger name (boot s) (is ++ [.tock tick])),
      windowStart T e.1.toNat + T < 2 ^ 31 →
        tick.now.toInt - s.config.gracePeriod.toInt ≤ windowStart T e.1.toNat + T := by
  have hwf : (boot s).db.Wf := hfresh.wf
  obtain ⟨k₁, es₁, out, hrun₁, hrun₂, rfl⟩ := Machine.run_append.mp hrun
  have hstep := Machine.run_singleton.mp hrun₂
  have hheld := κ.ledger_held name hfresh hrun₁ hforget
  rw [hbase] at hheld
  have hpure := ledger_windowed κ name hfresh hrun₁ hforget hbase hT hpos hts
  have hearly : Series.Early tick.now.toInt s.config.gracePeriod (κ.cell name k₁) := by
    have hboot : Series.Early tick.now.toInt s.config.gracePeriod (κ.cell name (boot s)) :=
      ⟨rfl, hnow, rfl⟩
    refine Machine.run_invariant (Q := fun m => ∀ now, m = .tick now → now.toInt < tick.now.toInt)
      (fun c m c' out hc hm h => hc.step κ.series hm h) hboot ?_
      ((κ.component name).run_proj hwf hrun₁)
    rintro m hm now rfl
    obtain ⟨i, hi, hview⟩ := List.mem_filterMap.mp hm
    obtain ⟨c, rfl, rfl⟩ := view_tick hview
    exact hlast c hi
  have hcell := κ.cell_tock name ((run_meets hwf is).result hrun₁) hstep
  have hsub : (tick.now - s.config.gracePeriod).toInt =
      tick.now.toInt - s.config.gracePeriod.toInt := by
    have := tick.now.toInt_lt
    have := s.config.gracePeriod.toInt_lt
    exact toInt_sub_of_bounds (by omega) (by omega)
  rw [← hsub, ← hearly.grace, κ.ledger_snoc name hrun₁ hstep]
  exact κ.series.pending_tick (κ.series.ignore_blank name _) (by simp) hT hpos hheld hpure.pending
    hearly.due hcell

end Kind

/-! ## Every submission -/

section InTime

variable [Double R] [Pcre Re] [HashOrder] {clock : Nat → Int32} {file : List UInt8}
  {s : Server R Re} {k : Kernel R Re} {before rest : List Input} {i : Input} {tick : Clock}
  {es : List Effect}

/-- A submission to a known datapoint whose window ends more than a grace period before a tick
has been reported by then. Some step after the submission, at the latest that tick, broadcasts
its window, with the submission among what the broadcast covers. -/
theorem reported_in_time (hs : Configured clock file s)
    (hrun : Machine.run reactor (boot s) (before ++ i :: rest ++ [.tock tick]) = .ok (k, es))
    (hforget : ∀ p, .management p ∈ before ++ i :: rest → ¬p.is .forget 4 4)
    (hnow : 0 < tick.now.toInt)
    (hlast : ∀ c, .tock c ∈ before ++ i :: rest → c.now.toInt < tick.now.toInt)
    (hgrace : 0 ≤ s.config.gracePeriod.toInt) (κ : Kind) (name : CString) {w : Window} {T : Nat}
    (hw : κ.windowOf name s.db = some w) (hT : w.time.toInt = T) (hpos : 0 < T)
    (hts : ∀ j ∈ before ++ i :: rest, ∀ now ts v,
      κ.view R Re name j = some (.submit now ts v) → 0 < ts.toNat ∧ ts.toNat < 2 ^ 31)
    {now : Int32} {ts : UInt32} {v : κ.Value R}
    (hsub : κ.view R Re name i = some (.submit now ts v))
    (hend : windowStart T ts.toNat + T < 2 ^ 31)
    (hover : windowStart T ts.toNat + T < tick.now.toInt - s.config.gracePeriod.toInt) :
    ∃ mid j after, rest ++ [.tock tick] = mid ++ j :: after ∧
      ∃ k₁ es₁ k₂ out, Machine.run reactor (boot s) (before ++ i :: mid) = .ok (k₁, es₁) ∧
        reactor k₁ j = .ok (k₂, out) ∧
        (ts, v) ∈ Ledger.pending (κ.ledger name (boot s) (before ++ i :: mid)) ∧
        .broadcast (κ.report Re name w (windowStart T ts.toNat)
          (Ledger.pending (κ.ledger name (boot s) (before ++ i :: mid)))) ∈ out := by
  have hfresh := hs.loaded.fresh
  obtain ⟨b, hbase⟩ : ∃ b, κ.base name s.db = some b :=
    Option.isSome_iff_exists.mp (by
      by_contra hnone
      simp [Kind.windowOf, Option.not_isSome_iff_eq_none.mp hnone] at hw)
  obtain ⟨w', hw', rfl⟩ := Kind.base_eq_blank hfresh hbase
  obtain rfl : w = w' := by simpa [hw] using hw'
  -- the submission is pending once it is read, and not after the tick
  obtain ⟨k₀, es₀, out₀, hrun₀, hrest, rfl⟩ :=
    Machine.run_append.mp (show Machine.run reactor (boot s)
      (before ++ (i :: (rest ++ [.tock tick]))) = _ by simpa using hrun)
  obtain ⟨k', out', outs, hstep, hrest, rfl⟩ := Machine.run_cons.mp hrest
  have hpending := Kind.pending_submit hfresh hrun₀ (fun p hp => hforget p (by simp [hp])) hbase
    hsub hstep
  have hgone : (ts, v) ∉ Ledger.pending (κ.ledger name (boot s)
      (before ++ [i] ++ (rest ++ [.tock tick]))) := by
    intro hmem
    have hopen := Kind.pending_tock κ name hfresh hrun hforget hbase hT hpos hts hnow hlast hgrace
      (ts, v) (by simpa using hmem) hend
    exact absurd hover (by simpa using hopen)
  -- so some step in between takes it out
  obtain ⟨mid, j, after, hsplit, hheld, hlost⟩ := Machine.exists_lost
    (P := fun is => (ts, v) ∈ Ledger.pending (κ.ledger name (boot s) is)) hpending hgone
  rw [show before ++ [i] ++ mid = before ++ i :: mid by simp] at hheld hlost
  have hinputs : before ++ i :: rest ++ [.tock tick] = before ++ i :: mid ++ [j] ++ after := by
    simp [hsplit]
  have hmem : ∀ m ∈ before ++ i :: mid ++ [j], m ∈ before ++ i :: rest ∨ m = .tock tick := by
    intro m hm
    have hm' : m ∈ before ++ i :: rest ++ [.tock tick] := hinputs ▸ List.mem_append_left after hm
    simpa [or_assoc] using hm'
  rw [hinputs] at hrun
  obtain ⟨k₂, es₂, -, hrun₂, -, -⟩ := Machine.run_append.mp hrun
  obtain ⟨k₁, es₁, out, hrun₁, hstep₁, rfl⟩ := Machine.run_append.mp hrun₂
  rw [Machine.run_singleton] at hstep₁
  refine ⟨mid, j, after, hsplit, k₁, es₁, k₂, out, hrun₁, hstep₁, hheld,
    Kind.report_of_lost hfresh hrun₁ hstep₁ (fun p hp => (hmem _ hp).elim (hforget p) (by simp)) hw
      hT hpos ?_ hheld hlost⟩
  intro m hm now' ts' v' hv
  rcases hmem m hm with hm | rfl
  · exact hts m hm now' ts' v' hv
  · simp [Kind.view] at hv

end InTime

section Minutes

open Reference

/-- The second minute is over and its grace period too, so the tick at 200 reports what was
submitted at 130. -/
theorem reported_in_time_minutes : ∃ mid j after,
    [.tock ⟨200, 200, 0⟩] = mid ++ j :: after ∧ ∃ k₁ es₁ k₂ out,
      Machine.run reactor (boot minutes) (twoMinutes.take 3 ++ mid) = .ok (k₁, es₁) ∧
      reactor k₁ j = .ok (k₂, out) ∧ ∃ vs : List (UInt32 × Int32), (130, -2) ∈ vs ∧
        .broadcast (Kind.counter.report (R := Int) CString (.lit "hits") minute 120 vs) ∈ out := by
  obtain ⟨⟨k, es⟩, hrun⟩ := exists_ok (x := Machine.run reactor (boot minutes)
    (twoMinutes.take 2 ++ .listener 130 (pdu .counter ["130", "hits", "-2"]) :: [] ++
      [.tock ⟨200, 200, 0⟩])) (by decide +kernel)
  have hwindow : Kind.counter.windowOf (.lit "hits") minutes.db = some minute := by decide +kernel
  have hminute : minute.time.toInt = (60 : Nat) := by decide
  have hview : Kind.counter.view Int CString (.lit "hits")
      (.listener 130 (pdu .counter ["130", "hits", "-2"])) = some (.submit 130 130 (-2)) := rfl
  obtain ⟨mid, j, after, hsplit, k₁, es₁, k₂, out, hrun₁, hstep, hmem, hout⟩ :=
    reported_in_time minutes_configured hrun (by simp [twoMinutes]) (by decide)
      (by simp [twoMinutes]) (by decide +kernel) .counter (.lit "hits") hwindow hminute (by decide)
      (fun j hj now ts v => twoMinutes_stamps (List.mem_of_mem_take (i := 3) hj)) hview
      (by decide) (by decide +kernel)
  exact ⟨mid, j, after, hsplit, k₁, es₁, k₂, out, hrun₁, hstep, _, hmem, hout⟩

end Minutes

end Bolo
