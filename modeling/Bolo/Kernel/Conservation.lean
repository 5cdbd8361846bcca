import Bolo.Kernel.Reports
import Mathlib.Algebra.BigOperators.Ring.Finset

/-!
# Nothing lost, nothing counted twice

What was broadcast about a datapoint and what it still holds add up to what was accepted
for it. For counters this holds modulo the width of the value. For sample sets the number
of values is printed with `%u`, so it holds as long as no window collects 2^32 values.
-/
namespace Bolo

open Library

variable {R Re : Type} [Double R] [Pcre Re] [HashOrder]

/-- A frame read as a number. -/
def Pdu.number (i : Nat) (p : Pdu) : Nat := ((p.string i).map fun s => (strtoul s).toNat).getD 0

namespace Kind

variable (κ : Kind) (name : CString) {s : Server R Re}

/-- The flushes of the ledger are the broadcasts of the run. -/
theorem flushed_ledger {k k' : Kernel R Re} {is : List Input} {es : List Effect} (hwf : k.db.Wf)
    (hrun : Machine.run reactor k is = .ok (k', es)) :
    Ledger.flushed (κ.ledger name k is) = es.filterMap (Effect.select (κ.about name)) := by
  induction is generalizing k es with
  | nil =>
    obtain ⟨-, rfl⟩ : k = k' ∧ ([] : List Effect) = es := by simpa using hrun
    rfl
  | cons i is ih =>
    obtain ⟨k₁, out, outs, hstep, hrest, rfl⟩ := Machine.run_cons.mp hrun
    have hwf₁ : k₁.db.Wf := (reactor_meets hwf i).result hstep
    have hentries : Ledger.flushed (κ.entries name k i out) =
        out.filterMap (Effect.select (κ.about name)) := by
      unfold entries
      cases hv : κ.view R Re name i with
      | none => exact ((κ.component name).skip hwf hv hstep).2.symm
      | some m =>
        have hmap (l : List Pdu) :
            Ledger.flushed (l.map (Entry.flush : Pdu → Entry (UInt32 × κ.Value R) Pdu)) = l := by
          induction l with
          | nil => rfl
          | cons p l ih => exact congrArg (p :: ·) ih
        simp only [Series.entries, Ledger.flushed_append, hmap]
        cases m with
        | submit now ts v =>
          simp only
          split <;> simp [Ledger.flushed]
        | _ => simp [Ledger.flushed]
    unfold ledger
    rw [Machine.log_cons hstep, Ledger.flushed_append, hentries, List.filterMap_append]
    exact congrArg _ (ih hwf₁ hrest)

/-- One more step enters its entries at the end of the ledger. -/
theorem ledger_snoc {k k₁ k₂ : Kernel R Re} {is : List Input} {i : Input} {es out : List Effect}
    (hrun : Machine.run reactor k is = .ok (k₁, es)) (hstep : reactor k₁ i = .ok (k₂, out)) :
    κ.ledger name k (is ++ [i]) = κ.ledger name k is ++ κ.entries name k₁ i out := by
  unfold ledger
  rw [Machine.log_append hrun, Machine.log_cons hstep]
  simp [Machine.log]

end Kind

section Frames

omit [Pcre Re] [HashOrder]

omit [Double R] in
theorem broadcastCounter_number {c : Counter} {p : Pdu}
    (h : (counterSeries : Series R Re _ _).broadcast c = .ok p) :
    p.number 3 = c.value.toNat := by
  obtain ⟨w, ts, name, -, -, -, rfl⟩ := counterSeries.broadcast_spec h
  change (strtoul (decimal c.value.toNat)).toNat = _
  exact strtoul_decimal c.value.toNat_lt

/-- The frame shows the low 32 bits of the number of values. -/
theorem broadcastSample_number {x : Sample R} {p : Pdu}
    (h : (sampleSeries : Series R Re _ _).broadcast x = .ok p) :
    p.number 3 = x.n.toNat % 2 ^ 32 := by
  obtain ⟨w, ts, name, -, -, -, rfl⟩ := sampleSeries.broadcast_spec h
  have hlt : x.n.toUInt32.toNat < 2 ^ 64 := by
    have := x.n.toUInt32.toNat_lt
    omega
  change (strtoul (decimal x.n.toUInt32.toNat)).toNat = _
  rw [strtoul_decimal hlt, UInt64.toNat_toUInt32]

omit [Double R] in
/-- The value a counter holds, 0 when there is no record of it. -/
def counterValue (db : Db R Re) (name : CString) : UInt64 :=
  ((db.counters.get? name).map Counter.value).getD 0

omit [Double R] in
/-- The number of values a sample set holds, 0 when there is no record of it. -/
def sampleCount (db : Db R Re) (name : CString) : UInt64 :=
  ((db.samples.get? name).map Sample.n).getD 0

end Frames

section Run

variable {s : Server R Re} {k : Kernel R Re} {is : List Input} {es : List Effect}
  (hfresh : s.db.Fresh) (hrun : Machine.run reactor (boot s) is = .ok (k, es))
  (hforget : ∀ p, .management p ∈ is → ¬p.is .forget 4 4) (name : CString)

include hfresh hrun hforget

/-- A quantity of a record that is zero to begin with, read off the kernel, is that of the
blank record fed with what is pending. -/
theorem Kind.held_value {A : Type} (κ : Kind) {b : κ.Record R}
    (hb : κ.base name s.db = some b) (f : κ.Record R → A) {zero : A}
    (hzero : ∀ w, f ((κ.series : Series R Re _ _).blank name w) = zero) :
    (((κ.series.table k.db).get? name).map f).getD zero =
      f ((κ.series : Series R Re _ _).feed b (Ledger.pending (κ.ledger name (boot s) is))) := by
  have hrecord := (κ.ledger_held name hfresh hrun hforget).record
  simp only [hb, Option.map_some] at hrecord
  change lookup _ _ _ ((κ.series.table k.db).get? name) = _ at hrecord
  cases hg : (κ.series.table k.db).get? name with
  | some x =>
    obtain rfl : x = _ := by simpa [hg, Series.lookup_some] using hrecord
    rfl
  | none =>
    simp only [hg, lookup, Option.map_eq_some_iff] at hrecord
    obtain ⟨target, -, heq⟩ := hrecord
    simp [← heq, hzero]

theorem Kind.held_none (κ : Kind) (hb : κ.base name s.db = none) :
    (κ.series.table k.db).get? name = none ∧ κ.ledger name (boot s) is = [] := by
  have hheld := κ.ledger_held name hfresh hrun hforget
  have hrecord := hheld.record
  rw [hb] at hrecord
  exact ⟨Series.lookup_eq_none hrecord, hheld.empty hb⟩

/-- For each counter, broadcasts and holdings add up to what was accepted. -/
theorem counter_conservation :
    ((((es.filterMap (Effect.select (Kind.counter.about name))).map (Pdu.number 3)).sum +
        (counterValue k.db name).toNat : Nat) : Int) ≡
      ((Ledger.accepted (Kind.counter.ledger name (boot s) is)).map
        fun e => Int32.toInt e.2).sum [ZMOD (2 ^ 64 : Nat)] := by
  have hwf : (boot s).db.Wf := hfresh.wf
  rw [← Kind.flushed_ledger .counter name hwf hrun, ← ZMod.intCast_eq_intCast_iff]
  cases hb : Kind.counter.base name s.db with
  | none =>
    obtain ⟨hnone, hnil⟩ := Kind.held_none hfresh hrun hforget name .counter hb
    have hzero : counterValue k.db name = 0 := by
      unfold counterValue
      rw [show k.db.counters.get? name = none from hnone]
      rfl
    simp [hnil, hzero, Ledger.flushed, Ledger.accepted]
  | some b =>
    obtain ⟨w, -, rfl⟩ := Kind.base_eq_blank hfresh hb
    have hflush : Ledger.Flushes (fun vs p => ((Pdu.number 3 p : Nat) : ZMod (2 ^ 64)) =
        (vs.map fun e => ((Int32.toInt e.2 : Int) : ZMod (2 ^ 64))).sum)
        (Kind.counter.ledger name (boot s) is) := by
      refine ((Kind.counter.ledger_held name hfresh hrun hforget).flushes _ hb).mono ?_
      intro vs p hp
      rw [broadcastCounter_number (R := R) hp]
      refine (counter_feed_value _ vs).trans ?_
      simp [Kind.series, counterSeries, Counter.blank]
    have hvalue : ((counterValue k.db name).toNat : ZMod (2 ^ 64)) =
        ((Ledger.pending (Kind.counter.ledger name (boot s) is)).map
          fun e => ((Int32.toInt e.2 : Int) : ZMod (2 ^ 64))).sum := by
      have hheld := Kind.held_value hfresh hrun hforget name .counter hb Counter.value
        fun w => (rfl : Counter.value _ = 0)
      have hcount : counterValue k.db name = _ := hheld
      rw [hcount]
      refine (counter_feed_value _ _).trans ?_
      simp [Kind.series, counterSeries, Counter.blank]
    have hsum := hflush.conservation
    rw [← hvalue] at hsum
    push_cast
    simpa [Nat.cast_list_sum, Int.cast_list_sum, List.map_map, Function.comp_def] using hsum

end Run

/-! ## Sample sets -/

/-- Before each step of the run, the sample set `name` holds fewer than 2^32 values. -/
def SmallWindows (s : Server R Re) (is : List Input) (name : CString) : Prop :=
  Machine.Along reactor (fun k _ => (sampleCount k.db name).toNat < 2 ^ 32) (boot s) is

omit [Pcre Re] [HashOrder] in
/-- What one message adds to the pending values. -/
theorem pending_length_le {c : Cell Re (Sample R)} {m : Msg (R × List R)} {x y : Sample R}
    {out : List Pdu} {l es : List (Entry (UInt32 × (R × List R)) Pdu)}
    (h : (sampleSeries : Series R Re _ _).Moves c m x y out es) {n : Nat}
    (hm : ∀ now ts v, m = .submit now ts v → v.2.length < n) :
    (sampleValues (Ledger.pending (l ++ es))).length ≤
      (sampleValues (Ledger.pending l)).length + n := by
  cases h with
  | stay => simp
  | @take now ts v =>
    have := hm now ts v rfl
    simp [sampleValues]
    omega
  | @roll now ts v =>
    have := hm now ts v rfl
    simp [sampleValues]
    omega
  | close => simp [sampleValues]

omit [Pcre Re] [HashOrder] in
/-- A SAMPLE submission carries fewer values than its PDU has frames. -/
theorem decode_sample_length {p : Pdu} {name : CString} {ts : UInt32} {v : R × List R}
    (h : (sampleSeries : Series R Re _ _).decode p = some (name, ts, v)) :
    v.2.length < p.frames.length := by
  simp only [sampleSeries, bind, Option.bind_eq_some_iff, pure] at h
  obtain ⟨d, -, h⟩ := h
  split at h
  · cases h
  · case h_2 u us hdrop =>
      simp only [Option.some.injEq, Prod.mk.injEq] at h
      obtain ⟨-, -, rfl⟩ := h
      have hlen := congrArg List.length hdrop
      simp only [List.length_drop, List.length_cons] at hlen
      simp only [List.length_map]
      omega

omit [HashOrder] in
theorem view_sample_length {name : CString} {i : Input}
    (hsize : ∀ now p, i = .listener now p → p.frames.length < 2 ^ 31) {now : Int32} {ts : UInt32}
    {v : R × List R} (h : Kind.sample.view R Re name i = some (.submit now ts v)) :
    v.2.length < 2 ^ 31 := by
  cases i with
  | tock clock => simp [Kind.view] at h
  | management p =>
    simp only [Kind.view] at h
    split at h
    · split at h <;> simp at h
    · cases h
  | listener now' p =>
    simp only [Kind.view] at h
    split at h
    · split at h
      · case h_1 n ts' v' hd =>
          split at h
          · simp only [Option.some.injEq, Msg.submit.injEq] at h
            obtain ⟨-, -, rfl⟩ := h
            have := decode_sample_length hd
            have := hsize now' p rfl
            omega
          · cases h
      · cases h
    · cases h

omit [Pcre Re] [HashOrder] in
theorem sample_count_exact (name : CString) (w : Option Window)
    (vs : List (UInt32 × (R × List R))) (h : (sampleValues vs).length < 2 ^ 64) :
    ((sampleSeries : Series R Re _ _).feed (Sample.blank name w) vs).n.toNat =
      (sampleValues vs).length := by
  refine (congrArg UInt64.toNat (sample_feed_n _ _)).trans ?_
  change (0 + UInt64.ofNat _).toNat = _
  rw [UInt64.zero_add, UInt64.toNat_ofNat', Nat.mod_eq_of_lt h]

/-- While no window collects 2^32 values, the broadcast counts are exact. -/
theorem sample_ledger_exact {s : Server R Re} {k : Kernel R Re} {is : List Input}
    {es : List Effect} (hfresh : s.db.Fresh)
    (hrun : Machine.run reactor (boot s) is = .ok (k, es))
    (hforget : ∀ p, .management p ∈ is → ¬p.is .forget 4 4) {name : CString}
    (hsize : ∀ now p, .listener now p ∈ is → p.frames.length < 2 ^ 31)
    (hsmall : SmallWindows s is name) :
    Ledger.Flushes (fun vs p => Pdu.number 3 p = (sampleValues vs).length)
        (Kind.sample.ledger name (boot s) is) ∧
      (sampleValues (Ledger.pending (Kind.sample.ledger name (boot s) is))).length <
        2 ^ 32 + 2 ^ 31 := by
  induction is using List.reverseRecOn generalizing k es with
  | nil => exact ⟨Ledger.Flushes.nil, by simp [Kind.ledger, Machine.log, sampleValues]⟩
  | append_singleton is i ih =>
    obtain ⟨k₁, es₁, out, hrun₁, hlast, rfl⟩ := Machine.run_append.mp hrun
    have hstep := Machine.run_singleton.mp hlast
    have hforget₁ : ∀ p, .management p ∈ is → ¬p.is .forget 4 4 :=
      fun p hp => hforget p (by simp [hp])
    obtain ⟨hflush, hlen⟩ := ih hrun₁ hforget₁ (fun now p hp => hsize now p (by simp [hp]))
      (fun before j after k' es' heq => hsmall before j (after ++ [i]) k' es' (by simp [heq]))
    rw [Kind.ledger_snoc .sample name hrun₁ hstep]
    cases hb : Kind.sample.base name s.db with
    | none =>
      obtain ⟨-, hnil⟩ := Kind.held_none hfresh hrun hforget name .sample hb
      rw [Kind.ledger_snoc .sample name hrun₁ hstep] at hnil
      rw [hnil]
      exact ⟨Ledger.Flushes.nil, by simp [sampleValues]⟩
    | some b =>
      obtain ⟨w, -, rfl⟩ := Kind.base_eq_blank hfresh hb
      have hwf₁ : k₁.db.Wf := (run_meets (show (boot s).db.Wf from hfresh.wf) is).result hrun₁
      have hheld := Kind.sample.ledger_held name hfresh hrun₁ hforget₁
      have hcount : sampleCount k₁.db name = _ :=
        Kind.held_value hfresh hrun₁ hforget₁ name .sample hb Sample.n (fun w => rfl)
      generalize Kind.sample.ledger name (boot s) is = l at *
      have hn : (sampleCount k₁.db name).toNat = (sampleValues (Ledger.pending l)).length := by
        rw [hcount]
        exact sample_count_exact name _ _ (by omega)
      have hlt : (sampleValues (Ledger.pending l)).length < 2 ^ 32 :=
        hn ▸ hsmall is i [] k₁ es₁ rfl hrun₁
      have hrecord := hheld.record
      rw [hb] at hrecord
      unfold Kind.entries
      cases hv : Kind.sample.view R Re name i with
      | none => simpa using ⟨hflush, hlen⟩
      | some m =>
        have hact := (Kind.sample.component name).act hwf₁ hv hstep
        have hm : ∀ keep, m ≠ .forget keep := by
          rintro keep rfl
          exact Kind.view_ne_forget (fun p hp => hforget p (by simp [hp])) keep hv
        obtain ⟨y, -, hmove⟩ := Series.cell_moves _ hm hact hrecord
        refine ⟨hmove.flushes _ hflush fun p _ hp => ?_, ?_⟩
        · rw [broadcastSample_number (R := R) hp, ← hn, hcount]
          exact Nat.mod_eq_of_lt (by rw [← hcount, hn]; exact hlt)
        · have := pending_length_le (l := l) hmove (n := 2 ^ 31) fun now ts v hsub => by
            subst hsub
            exact view_sample_length (fun now' p hp => hsize now' p (by simp [hp])) hv
          exact lt_of_le_of_lt this (by omega)

/-- For each sample set whose windows stay small, broadcasts and holdings add up to what
was accepted. -/
theorem sample_conservation {s : Server R Re} {k : Kernel R Re} {is : List Input}
    {es : List Effect} (hfresh : s.db.Fresh)
    (hrun : Machine.run reactor (boot s) is = .ok (k, es))
    (hforget : ∀ p, .management p ∈ is → ¬p.is .forget 4 4) (name : CString)
    (hsize : ∀ now p, .listener now p ∈ is → p.frames.length < 2 ^ 31)
    (hsmall : SmallWindows s is name) :
    ((es.filterMap (Effect.select (Kind.sample.about name))).map (Pdu.number 3)).sum +
        (sampleCount k.db name).toNat =
      (sampleValues (Ledger.accepted (Kind.sample.ledger name (boot s) is))).length := by
  obtain ⟨hflush, hlen⟩ := sample_ledger_exact hfresh hrun hforget hsize hsmall
  rw [← Kind.flushed_ledger .sample name (show (boot s).db.Wf from hfresh.wf) hrun]
  cases hb : Kind.sample.base name s.db with
  | none =>
    obtain ⟨hnone, hnil⟩ := Kind.held_none hfresh hrun hforget name .sample hb
    have hzero : sampleCount k.db name = 0 := by
      unfold sampleCount
      rw [show k.db.samples.get? name = none from hnone]
      rfl
    simp [hnil, hzero, Ledger.flushed, Ledger.accepted, sampleValues]
  | some b =>
    obtain ⟨w, -, rfl⟩ := Kind.base_eq_blank hfresh hb
    have hcount : (sampleCount k.db name).toNat =
        (sampleValues (Ledger.pending (Kind.sample.ledger name (boot s) is))).length := by
      have hheld : sampleCount k.db name = _ :=
        Kind.held_value hfresh hrun hforget name .sample hb Sample.n (fun w => rfl)
      rw [hheld]
      exact sample_count_exact name _ _ (by omega)
    have hlength (vs : List (UInt32 × Kind.sample.Value R)) :
        (sampleValues vs).length = (vs.map fun e => e.2.2.length + 1).sum := by
      simp [sampleValues, List.length_flatMap]
    simp only [hlength] at hflush hcount ⊢
    rw [hcount]
    exact hflush.conservation

end Bolo
