import Bolo.Kernel.Conservation

/-!
# Windows are reported in order

If the submissions to a datapoint come with increasing timestamps, no later than a grace
period, and no window reaches past the largest timestamp, then its broadcasts carry
strictly increasing window starts. The invariant relates the last window reported to
everything that can still arrive: later windows only, either because a later timestamp has
been seen or because the clock has moved on by more than the grace period.
-/
namespace Bolo

open Library

variable {R Re : Type}

/-! ## Window starts -/

theorem windowStart_mono {T m n : Nat} (h : m ≤ n) : windowStart T m ≤ windowStart T n := by
  unfold windowStart
  rw [← Nat.mul_div_self_eq_mod_sub_self, ← Nat.mul_div_self_eq_mod_sub_self]
  exact Nat.mul_le_mul_left T (Nat.div_le_div_right h)

namespace Series

variable {α V : Type} (S : Series R Re α V)

/-- The first frame of a broadcast is the start of the window last seen. -/
theorem broadcast_start {x : α} {w : Window} {T n : Nat} {p : Pdu} (hw : S.window x = some w)
    (hT : w.time.toInt = T) (hpos : 0 < T) (hseen : (S.lastSeen x).toInt = n)
    (hp : S.broadcast x = .ok p) : p.number 1 = windowStart T n := by
  obtain ⟨w', ts, name, hw', hts, -, rfl⟩ := S.broadcast_spec hp
  obtain rfl : w = w' := by simpa [hw] using hw'
  obtain ⟨s, hs, hsval⟩ := winstart_spec hT hpos hseen
  obtain rfl : ts = s := Except.ok.inj (hts.symm.trans hs)
  have hnat := toNat_toUInt32_of_nonneg (x := ts) (by omega)
  have hlt := ts.toUInt32.toNat_lt
  change (strtoul (decimal ts.toUInt32.toNat)).toNat = _
  rw [strtoul_decimal (by omega)]
  omega

/-- Messages in time: clocks do not run backwards from `C`, timestamps not from `L`, and a
submission is at most a grace period late and in a window that ends in range. -/
def Timely (T : Nat) (grace : Int) : Int → Nat → List (Msg V) → Prop
  | _, _, [] => True
  | C, L, .tick now :: ms => C ≤ now.toInt ∧ Timely T grace now.toInt L ms
  | C, L, .submit now ts _ :: ms =>
    C ≤ now.toInt ∧ L ≤ ts.toNat ∧ 0 < ts.toNat ∧ windowStart T ts.toNat + T < 2 ^ 31 ∧
      now.toInt ≤ ts.toNat + grace ∧ Timely T grace now.toInt ts.toNat ms
  | _, _, .forget _ :: _ => False

/-- The state of a datapoint whose last broadcast was about the window at `B`, after clock
reading `C` and timestamp `L`. -/
structure Ordered (T : Nat) (w : Window) (c : Cell Re α) (C : Int) (L : Nat) (B : Int) (x : α) :
    Prop where
  window : S.window x = some w
  interval : c.timer.interval = 0
  last : 0 ≤ c.timer.last.toInt
  seen : S.lastSeen x = 0 ∨ ∃ n : Nat, (S.lastSeen x).toInt = n ∧ 0 < n ∧ n ≤ L ∧
    windowStart T n + T < 2 ^ 31 ∧ B < windowStart T n
  future : B < windowStart T L ∨ B + T < C - c.grace.toInt

theorem Ordered.seen_of_ne {T : Nat} {w : Window} {c : Cell Re α} {C : Int} {L : Nat} {B : Int}
    {x : α} (h : S.Ordered T w c C L B x) (hne : S.lastSeen x ≠ 0) :
    ∃ n : Nat, (S.lastSeen x).toInt = n ∧ 0 < n ∧ n ≤ L ∧ windowStart T n + T < 2 ^ 31 ∧
      B < windowStart T n := h.seen.resolve_left hne

/-- A due timer of interval zero means a positive clock. -/
theorem due_pos {t : Timer} {now : Int32} (hi : t.interval = 0) (hl : 0 ≤ t.last.toInt)
    (h : t.due now) : 0 < now.toInt := by
  have hzero : t.last + t.interval.toInt32 = t.last := by rw [hi]; exact Int32.add_zero _
  simp only [Timer.due, hzero, decide_eq_true_eq, Int32.lt_iff_toInt_lt] at h
  omega

/-- Subtracting the grace period from a positive clock can only wrap downwards. -/
theorem sub_grace_exact {now grace : Int32} (hnow : 0 < now.toInt) {e : Int}
    (h : e < (now - grace).toInt) : e < now.toInt - grace.toInt := by
  have hgrace := grace.toInt_lt
  have hdiff := (now - grace).toInt_lt
  by_cases hr : now.toInt - grace.toInt < 2 ^ 31
  · rwa [toInt_sub_of_bounds (by omega) hr] at h
  · omega

theorem Ordered.tick [Pcre Re] {name : CString} {T : Nat} {w : Window} (hT : w.time.toInt = T)
    (hpos : 0 < T) {c c' : Cell Re α} {C : Int} {L : Nat} {B : Int} {x y : α} {now : Int32}
    {out : List Pdu} {es : List (Entry (UInt32 × V) Pdu)} (h : S.Ordered T w c C L B x)
    (hclock : C ≤ now.toInt) (hcell : S.cell name c (.tick now) = .ok (c', out))
    (hmove : S.Moves c (.tick now) x y out es) :
    ∃ B', S.Ordered T w c' now.toInt L B' y ∧
      ((out = [] ∧ B' = B) ∨ ∃ p, out = [p] ∧ (p.number 1 : Int) = B' ∧ B < B') := by
  obtain ⟨-, hgrace, htimer, -⟩ := S.cell_tick hcell
  have hlast : 0 ≤ c'.timer.last.toInt := by
    rw [htimer, Timer.fire]
    split
    · exact (due_pos h.interval h.last ‹_›).le
    · exact h.last
  have hinterval : c'.timer.interval = 0 := by
    rw [htimer, Timer.fire]
    split <;> exact h.interval
  cases hmove with
  | stay =>
    refine ⟨B, ⟨h.window, hinterval, hlast, h.seen, ?_⟩, .inl ⟨rfl, rfl⟩⟩
    rw [hgrace]
    rcases h.future with hf | hf
    · exact .inl hf
    · exact .inr (by omega)
  | @close _ _ w' e p hdue hi hs hw he hlt hp =>
    obtain ⟨n, hn, hnpos, hnL, hend, hB⟩ := h.seen_of_ne S hs
    obtain rfl : w = w' := by simpa [h.window] using hw
    refine ⟨windowStart T n, ⟨by simpa using h.window, hinterval, hlast, .inl (by simp), .inr ?_⟩,
      .inr ⟨p, rfl, ?_, hB⟩⟩
    · -- the window ended before the clock less the grace period
      obtain ⟨start, hstart, hsval⟩ := winstart_spec hT hpos hn
      have hwinend : winend w.time (S.lastSeen x) = .ok (start + w.time) := by
        simp [winend, hstart, bind, Except.bind, pure, Except.pure]
      obtain rfl : start + w.time = e := Except.ok.inj (hwinend.symm.trans he)
      have hsum : (start + w.time).toInt = windowStart T n + T := by
        rw [toInt_add_of_bounds (by omega) (by omega), hsval, hT]
      rw [Int32.lt_iff_toInt_lt, hsum] at hlt
      rw [hgrace]
      exact sub_grace_exact (due_pos h.interval h.last hdue) hlt
    · exact_mod_cast S.broadcast_start h.window hT hpos hn hp

theorem Ordered.submit [Pcre Re] {name : CString} {T : Nat} {w : Window} (hT : w.time.toInt = T)
    (hpos : 0 < T) {c c' : Cell Re α} {C : Int} {L : Nat} {B : Int} {x y : α} {now : Int32}
    {ts : UInt32} {v : V} {out : List Pdu} {es : List (Entry (UInt32 × V) Pdu)}
    (h : S.Ordered T w c C L B x) (hclock : C ≤ now.toInt) (hL : L ≤ ts.toNat)
    (hts : 0 < ts.toNat) (hend : windowStart T ts.toNat + T < 2 ^ 31)
    (hlate : now.toInt ≤ ts.toNat + c.grace.toInt)
    (hcell : S.cell name c (.submit now ts v) = .ok (c', out))
    (hmove : S.Moves c (.submit now ts v) x y out es) :
    ∃ B', S.Ordered T w c' now.toInt ts.toNat B' y ∧
      ((out = [] ∧ B' = B) ∨ ∃ p, out = [p] ∧ (p.number 1 : Int) = B' ∧ B < B') := by
  obtain ⟨-, hgrace, htimer, -⟩ := S.cell_submit hcell
  have hlt31 : ts.toNat < 2 ^ 31 := by
    have := lt_windowStart_add hpos ts.toNat
    omega
  have hnew : B < windowStart T ts.toNat := by
    rcases h.future with hf | hf
    · have := windowStart_mono (T := T) hL
      omega
    · have := lt_windowStart_add hpos ts.toNat
      omega
  have hinterval : c'.timer.interval = 0 := htimer ▸ h.interval
  have hlast : 0 ≤ c'.timer.last.toInt := htimer ▸ h.last
  have hstamp : ts.toInt32.toInt = ts.toNat := toInt_toInt32_of_lt hlt31
  cases hmove with
  | stay =>
    refine ⟨B, ⟨h.window, hinterval, hlast, ?_, .inl hnew⟩, .inl ⟨rfl, rfl⟩⟩
    rcases h.seen with hz | ⟨n, hn, hnpos, hnL, hrest⟩
    · exact .inl hz
    · exact .inr ⟨n, hn, hnpos, hnL.trans hL, hrest⟩
  | take =>
    refine ⟨B, ⟨by simpa using h.window, hinterval, hlast, .inr ⟨ts.toNat, ?_⟩, .inl hnew⟩,
      .inl ⟨rfl, rfl⟩⟩
    exact ⟨by simpa using hstamp, hts, le_rfl, hend, hnew⟩
  | @roll _ _ _ _ p hi hr hp =>
    obtain ⟨n, hn, hnpos, hnL, -, hB⟩ := h.seen_of_ne S (S.rollover_true_seen hr)
    -- a rollover leaves the window for a later one
    have hne := (S.rollover_iff h.window hT hpos hn hnpos hr).mp rfl
    have hle := windowStart_mono (T := T) (hnL.trans hL)
    have hnext : (windowStart T n : Int) < windowStart T ts.toNat := by omega
    refine ⟨windowStart T n, ⟨by simpa using h.window, hinterval, hlast, .inr ⟨ts.toNat, ?_⟩,
      .inl hnext⟩, .inr ⟨p, rfl, ?_, hB⟩⟩
    · exact ⟨by simpa using hstamp, hts, le_rfl, hend, hnext⟩
    · exact_mod_cast S.broadcast_start h.window hT hpos hn hp

/-- Whole runs in time report windows in strictly increasing order. -/
theorem run_ordered [Pcre Re] {name : CString} {T : Nat} {w : Window} (hT : w.time.toInt = T)
    (hpos : 0 < T) {c c' : Cell Re α} {C : Int} {L : Nat} {B : Int} {x : α} {ms : List (Msg V)}
    {outs : List Pdu} (hx : lookup S.blank c.rules name c.found = some x)
    (h : S.Ordered T w c C L B x) (hms : Timely T c.grace.toInt C L ms)
    (hrun : Machine.run (S.cell name) c ms = .ok (c', outs)) :
    (outs.map (Pdu.number 1)).Pairwise (· < ·) ∧ ∀ p ∈ outs, B < (p.number 1 : Int) := by
  induction ms generalizing c C L B x outs with
  | nil =>
    obtain ⟨-, rfl⟩ : c = c' ∧ ([] : List Pdu) = outs := by simpa using hrun
    simp
  | cons m ms ih =>
    obtain ⟨c₁, out, rest, hcell, hrest, rfl⟩ := Machine.run_cons.mp hrun
    -- after one message: the next invariant, and at most one broadcast, beyond `B`
    obtain ⟨C', L', B', y, hy, hord, htimely, hout⟩ : ∃ C' L' B' y,
        lookup S.blank c₁.rules name c₁.found = some y ∧ S.Ordered T w c₁ C' L' B' y ∧
        Timely T c₁.grace.toInt C' L' ms ∧
        ((out = [] ∧ B' = B) ∨ ∃ p, out = [p] ∧ (p.number 1 : Int) = B' ∧ B < B') := by
      cases m with
      | forget keep => exact hms.elim
      | tick now =>
        obtain ⟨hclock, hms⟩ := hms
        obtain ⟨y, hy, hmove⟩ := S.cell_moves (by simp) hcell hx
        obtain ⟨B', hord, hout⟩ := Ordered.tick S hT hpos h hclock hcell hmove
        have hgrace := (S.cell_tick hcell).2.1
        exact ⟨_, _, B', y, hy, hord, hgrace ▸ hms, hout⟩
      | submit now ts v =>
        obtain ⟨hclock, hL, hts, hend, hlate, hms⟩ := hms
        obtain ⟨y, hy, hmove⟩ := S.cell_moves (by simp) hcell hx
        obtain ⟨B', hord, hout⟩ := Ordered.submit S hT hpos h hclock hL hts hend hlate hcell hmove
        have hgrace := (S.cell_submit hcell).2.1
        exact ⟨_, _, B', y, hy, hord, hgrace ▸ hms, hout⟩
    obtain ⟨hsorted, hbeyond⟩ := ih hy hord htimely hrest
    rcases hout with ⟨rfl, rfl⟩ | ⟨p, rfl, hp, hBB⟩
    · exact ⟨hsorted, hbeyond⟩
    · refine ⟨?_, fun q hq => ?_⟩
      · simp only [List.singleton_append, List.map_cons, List.pairwise_cons, List.mem_map]
        refine ⟨?_, hsorted⟩
        rintro _ ⟨q, hq, rfl⟩
        have := hbeyond q hq
        omega
      · rcases List.mem_cons.mp hq with rfl | hq
        · omega
        · have := hbeyond q hq
          omega

end Series

/-! ## Runs of the kernel -/

/-- The clock reading an input comes with. -/
def Input.clock : Input → Option Int32
  | .tock clock => some clock.now
  | .listener now _ => some now
  | .management _ => none

/-- Clock reading, name and timestamp of a PDU that may be a submission. -/
def Input.arrival : Input → Option (Int32 × CString × UInt32)
  | .listener now p => (decodeHead p).map fun d => (now, d)
  | _ => none

namespace Kind

variable [Double R] [Pcre Re] (κ : Kind) (name : CString)

variable (R Re) in
/-- The timestamp of a submission to the datapoint. -/
def stamp (i : Input) : Option Nat :=
  match κ.view R Re name i with
  | some (.submit _ ts _) => some ts.toNat
  | _ => none

omit [Pcre Re] in
/-- A submission that is at most a grace period late, in a window that ends in range. -/
def InTime (T : Nat) (grace : Int) (m : Msg (κ.Value R)) : Prop :=
  ∀ now ts v, m = .submit now ts v →
    0 < ts.toNat ∧ windowStart T ts.toNat + T < 2 ^ 31 ∧ now.toInt ≤ ts.toNat + grace

theorem view_clock {i : Input} {now : Int32} {m : Msg (κ.Value R)}
    (hm : m = .tick now ∨ ∃ ts v, m = .submit now ts v) (h : κ.view R Re name i = some m) :
    i.clock = some now := by
  cases i with
  | tock clock =>
    obtain rfl : Msg.tick clock.now = m := by simpa [view] using h
    rcases hm with hm | ⟨ts, v, hm⟩
    · simpa [Input.clock] using hm
    · cases hm
  | listener now' p =>
    simp only [view] at h
    split at h
    · split at h
      · split at h
        · simp only [Option.some.injEq] at h
          subst h
          rcases hm with hm | ⟨ts, v, hm⟩
          · cases hm
          · simp only [Msg.submit.injEq] at hm
            simp [Input.clock, hm.1]
        · cases h
      · cases h
    · cases h
  | management p =>
    simp only [view] at h
    split at h
    · split at h
      · simp only [Option.some.injEq] at h
        subst h
        rcases hm with hm | ⟨ts, v, hm⟩ <;> cases hm
      · cases h
    · cases h

theorem view_submit {i : Input} {now : Int32} {ts : UInt32} {v : κ.Value R}
    (h : κ.view R Re name i = some (.submit now ts v)) : i.arrival = some (now, name, ts) := by
  cases i with
  | tock clock => simp [view] at h
  | listener now' p =>
    simp only [view] at h
    split at h
    · split at h
      · case h_1 n ts' v' hd =>
          split at h
          · case isTrue hn =>
              simp only [Option.some.injEq, Msg.submit.injEq] at h
              obtain ⟨rfl, rfl, -⟩ := h
              have hhead := (κ.series : Series R Re _ _).decode_head p _ hd
              simp [Input.arrival, hhead, hn]
          · cases h
      · cases h
    · cases h
  | management p =>
    simp only [view] at h
    split at h
    · split at h <;> simp at h
    · cases h

theorem timely_of_run {T : Nat} {grace : Int} {is : List Input} {C : Int} {L : Nat}
    (hC : ∀ c ∈ is.filterMap Input.clock, C ≤ c.toInt)
    (hclock : (is.filterMap Input.clock).Pairwise (·.toInt ≤ ·.toInt))
    (hL : ∀ t ∈ is.filterMap (κ.stamp R Re name), L ≤ t)
    (hstamp : (is.filterMap (κ.stamp R Re name)).Pairwise (· ≤ ·))
    (hforget : ∀ i ∈ is, ∀ keep, κ.view R Re name i ≠ some (.forget keep))
    (hin : ∀ i ∈ is, ∀ m, κ.view R Re name i = some m → κ.InTime T grace m) :
    Series.Timely T grace C L (is.filterMap (κ.view R Re name)) := by
  induction is generalizing C L with
  | nil => trivial
  | cons i is ih =>
    have hforget' := fun j hj => hforget j (List.mem_cons_of_mem i hj)
    have hin' := fun j hj => hin j (List.mem_cons_of_mem i hj)
    have hsub := List.sublist_cons_self i is
    have hclock' := hclock.sublist (hsub.filterMap Input.clock)
    have hstamp' := hstamp.sublist (hsub.filterMap (κ.stamp R Re name))
    have hL' := fun t ht => hL t ((hsub.filterMap (κ.stamp R Re name)).mem ht)
    -- a message carries the clock of its input, which bounds the clocks after it
    have hnext : ∀ now, i.clock = some now →
        C ≤ now.toInt ∧ ∀ c ∈ is.filterMap Input.clock, now.toInt ≤ c.toInt := by
      intro now hnow
      rw [List.filterMap_cons_some hnow] at hC hclock
      exact ⟨hC now (by simp), (List.pairwise_cons.mp hclock).1⟩
    cases hv : κ.view R Re name i with
    | none =>
      rw [List.filterMap_cons_none hv]
      exact ih (fun c hc => hC c ((hsub.filterMap Input.clock).mem hc)) hclock' hL' hstamp'
        hforget' hin'
    | some m =>
      rw [List.filterMap_cons_some hv]
      cases m with
      | forget keep => exact absurd hv (hforget i (by simp) keep)
      | tick now =>
        obtain ⟨hnow, hafter⟩ := hnext now (κ.view_clock name (.inl rfl) hv)
        exact ⟨hnow, ih hafter hclock' hL' hstamp' hforget' hin'⟩
      | submit now ts v =>
        obtain ⟨hnow, hafter⟩ := hnext now (κ.view_clock name (.inr ⟨ts, v, rfl⟩) hv)
        obtain ⟨hts, hend, hlate⟩ := hin i (by simp) _ hv now ts v rfl
        have hst : κ.stamp R Re name i = some ts.toNat := by simp [stamp, hv]
        rw [List.filterMap_cons_some hst] at hL hstamp
        exact ⟨hnow, hL _ (by simp), hts, hend, hlate,
          ih hafter hclock' (List.pairwise_cons.mp hstamp).1 hstamp' hforget' hin'⟩

/-- Submissions in time are reported window by window, in strictly increasing order. -/
theorem broadcasts_ordered [HashOrder] {s : Server R Re} {k : Kernel R Re} {is : List Input}
    {es : List Effect} (hfresh : s.db.Fresh)
    (hrun : Machine.run reactor (boot s) is = .ok (k, es))
    (hforget : ∀ p, .management p ∈ is → ¬p.is .forget 4 4)
    (hclock : (is.filterMap Input.clock).Pairwise (·.toInt ≤ ·.toInt))
    (hstamp : (is.filterMap (κ.stamp R Re name)).Pairwise (· ≤ ·))
    (hT : ∀ w, κ.windowOf name s.db = some w → 0 < w.time.toInt)
    (hin : ∀ w, κ.windowOf name s.db = some w → ∀ i ∈ is, ∀ m, κ.view R Re name i = some m →
      κ.InTime w.time.toInt.toNat s.config.gracePeriod.toInt m) :
    ((es.filterMap (Effect.select (κ.about name))).map (Pdu.number 1)).Pairwise (· < ·) := by
  have hwf : (boot s).db.Wf := hfresh.wf
  cases hb : κ.base name s.db with
  | none =>
    obtain ⟨-, hnil⟩ := Kind.held_none hfresh hrun hforget name κ hb
    rw [← κ.flushed_ledger name hwf hrun, hnil]
    exact List.Pairwise.nil
  | some b =>
    obtain ⟨w, hw, rfl⟩ := base_eq_blank hfresh hb
    obtain ⟨T, hTeq⟩ := Int.eq_ofNat_of_zero_le (hT w hw).le
    have hpos : 0 < T := by have := hT w hw; omega
    have htimely : Series.Timely T (κ.cell name (boot s)).grace.toInt (-2 ^ 31) 0
        (is.filterMap (κ.view R Re name)) := by
      refine κ.timely_of_run name (fun c _ => c.le_toInt) hclock (fun _ _ => Nat.zero_le _) hstamp
        (fun i hi keep => view_ne_forget (fun p hp => hforget p (hp ▸ hi)) keep) fun i hi m hm => ?_
      have := hin w hw i hi m hm
      rwa [hTeq, Int.toNat_natCast] at this
    have hord : κ.series.Ordered T w (κ.cell name (boot s)) (-2 ^ 31) 0 (-1)
        ((κ.series : Series R Re _ _).blank name (some w)) :=
      ⟨by simp, rfl, le_refl (0 : Int), .inl (lastSeen_blank κ name _),
        .inl (by simp [windowStart])⟩
    have hcell := (κ.component name).run_proj hwf hrun
    exact (Series.run_ordered (c := κ.cell name (boot s)) κ.series hTeq hpos hb hord htimely
      hcell).1

end Kind

end Bolo
