import Bolo.Kernel.Windows
import Mathlib.Data.ZMod.Basic

/-!
# What the kernel reports about windowed datapoints

The ledger of a datapoint over a run of the kernel, and what its broadcasts say: each one
covers exactly the submissions accepted since the one before it, all of one window, and
shows their sum or their aggregate.
-/
namespace Bolo

open Library

variable {R Re : Type} [Double R]

/-- A database as the configuration leaves it: nothing has been submitted yet. -/
structure Db.Fresh (db : Db R Re) : Prop where
  wf : db.Wf
  series : ∀ (κ : Kind) name x, (κ.series.table db).get? name = some x →
    x = (κ.series : Series R Re _ _).blank name ((κ.series : Series R Re _ _).window x)
  states : ∀ name s, db.states.get? name = some s → ∃ now type, s = State.blank now name type
  events : db.events = []
  eventsCount : db.eventsCount = 0

namespace Kind

variable [Pcre Re] (κ : Kind) (name : CString)

/-- The record that the first submission to `name` would find or make. -/
def base (db : Db R Re) : Option (κ.Record R) :=
  lookup (κ.series : Series R Re _ _).blank (κ.series.rules db) name
    ((κ.series.table db).get? name)

/-- The window of `name`, by declaration or by rule. -/
def windowOf (db : Db R Re) : Option Window :=
  (κ.base name db).bind (κ.series : Series R Re _ _).window

/-- Ledger entries of one step of the kernel. -/
def entries (k : Kernel R Re) (i : Input) (es : List Effect) :
    List (Entry (UInt32 × κ.Value R) Pdu) :=
  match κ.view R Re name i with
  | none => []
  | some m => κ.series.entries name (κ.cell name k) m (es.filterMap (Effect.select (κ.about name)))

/-- What was accepted for and broadcast about `name` in a run, in order. -/
def ledger [HashOrder] (k : Kernel R Re) (is : List Input) :
    List (Entry (UInt32 × κ.Value R) Pdu) :=
  Machine.log reactor (κ.entries name) k is

variable (Re) in
omit [Pcre Re] in
/-- The broadcast about the window at `start` in which `vs` was accepted. -/
def report (w : Window) (start : Nat) (vs : List (UInt32 × κ.Value R)) : Pdu :=
  let S : Series R Re (κ.Record R) (κ.Value R) := κ.series
  { type := κ.tag.text,
    frames := decimal start :: name :: S.payload w (S.feed (S.blank name (some w)) vs) }

variable {κ name} {s : Server R Re}

omit [Pcre Re] in
variable (κ name) in
theorem lastSeen_blank (w : Option Window) :
    (κ.series : Series R Re _ _).lastSeen ((κ.series : Series R Re _ _).blank name w) = 0 := by
  rw [← κ.series.reset_blank, κ.series.lastSeen_reset]

theorem base_eq_blank (hfresh : s.db.Fresh) {b : κ.Record R} (hb : κ.base name s.db = some b) :
    ∃ w, κ.windowOf name s.db = some w ∧
      b = (κ.series : Series R Re _ _).blank name (some w) := by
  have hwf := κ.series.lookup_wf (hfresh.wf.rules κ) (hfresh.wf.series κ name) hb
  obtain ⟨w, hw⟩ := hwf.window
  refine ⟨w, by simp [windowOf, hb, hw], ?_⟩
  rw [← hw]
  unfold base at hb
  cases hg : (κ.series.table s.db).get? name with
  | some x =>
    obtain rfl : x = b := by simpa [hg, Series.lookup_some] using hb
    exact hfresh.series κ name x hg
  | none =>
    simp only [hg, lookup, Option.map_eq_some_iff] at hb
    obtain ⟨target, -, rfl⟩ := hb
    simp

/-- A window is that of a declared datapoint or of a rule. -/
theorem windowOf_mem {db : Db R Re} {w : Window}
    (h : κ.windowOf name db = some w) :
    (∃ e ∈ (κ.series.table db).entries, (κ.series : Series R Re _ _).window e.2 = some w) ∨
      ∃ r ∈ κ.series.rules db, r.target = some w := by
  simp only [windowOf, Option.bind_eq_some_iff, base] at h
  obtain ⟨x, hx, hw⟩ := h
  cases hg : (κ.series.table db).get? name with
  | some y =>
    obtain rfl : y = x := by simpa [hg, Series.lookup_some] using hx
    exact .inl ⟨(name, y), Table.mem_of_get? hg, hw⟩
  | none =>
    simp only [hg, lookup, Option.map_eq_some_iff] at hx
    obtain ⟨target, ht, rfl⟩ := hx
    obtain ⟨r, hr, rfl⟩ := firstMatch_mem ht
    exact .inr ⟨r, hr, by simpa using hw⟩

variable [HashOrder]

omit [HashOrder] in
/-- A run without FORGET, seen as messages to one datapoint. -/
theorem view_ne_forget {i : Input} (hi : ∀ p, i = .management p → ¬p.is .forget 4 4) (keep : Bool) :
    κ.view R Re name i ≠ some (.forget keep) := by
  cases i with
  | tock clock => simp [view]
  | listener now p =>
    simp only [view]
    split
    · split
      · split <;> simp
      · simp
    · simp
  | management p => simp [view, decodeForget, hi p rfl]

theorem ledger_eq_log {k k' : Kernel R Re} {is : List Input} {es : List Effect} (hwf : k.db.Wf)
    (hrun : Machine.run reactor k is = .ok (k', es)) :
    κ.ledger name k is = Machine.log (κ.series.cell name) (κ.series.entries name) (κ.cell name k)
      (is.filterMap (κ.view R Re name)) := by
  refine (κ.component name).log_proj ?_ ?_ hwf hrun
  · intro k i es _ hv _
    have hv' : κ.view R Re name i = none := hv
    simp [entries, hv']
  · intro k i m es _ hv
    have hv' : κ.view R Re name i = some m := hv
    simp only [entries, hv']
    rfl

omit [HashOrder] in
theorem reset_base (hfresh : s.db.Fresh) :
    ∀ b, κ.base name s.db = some b → (κ.series : Series R Re _ _).reset b = b := by
  intro b hb
  obtain ⟨w, -, rfl⟩ := base_eq_blank hfresh hb
  simp

variable (κ name)

omit [HashOrder] in
theorem held_boot (s : Server R Re) :
    κ.series.Held name (κ.base name s.db) (κ.cell name (boot s)) [] := by
  refine ⟨?_, fun _ _ => Ledger.Flushes.nil, fun _ => rfl⟩
  change κ.base name s.db = _
  cases κ.base name s.db <;> rfl

/-- In a run without FORGET a datapoint holds what is pending in its ledger. -/
theorem ledger_held (hfresh : s.db.Fresh) {k : Kernel R Re} {is : List Input} {es : List Effect}
    (hrun : Machine.run reactor (boot s) is = .ok (k, es))
    (hforget : ∀ p, .management p ∈ is → ¬p.is .forget 4 4) :
    κ.series.Held name (κ.base name s.db) (κ.cell name k) (κ.ledger name (boot s) is) := by
  have hwf : (boot s).db.Wf := hfresh.wf
  rw [ledger_eq_log hwf hrun]
  have hcell := (κ.component name).run_proj hwf hrun
  refine Machine.log_invariant (Q := fun m => ∀ keep, m ≠ .forget keep)
    (P := fun c l => κ.series.Held name (κ.base name s.db) c l) ?_ (held_boot κ name s) ?_ hcell
  · intro c m c' out l hheld hm h
    exact Series.Held.step _ (reset_base hfresh) hheld hm h
  · intro m hm keep
    obtain ⟨i, hi, hv⟩ := List.mem_filterMap.mp hm
    rintro rfl
    exact view_ne_forget (fun p hp => hforget p (hp ▸ hi)) keep hv

/-- With a positive window and timestamps in the signed range, what is pending and what was
pending at each broadcast lies in one window. -/
theorem ledger_windowed (hfresh : s.db.Fresh) {k : Kernel R Re} {is : List Input}
    {es : List Effect} (hrun : Machine.run reactor (boot s) is = .ok (k, es))
    (hforget : ∀ p, .management p ∈ is → ¬p.is .forget 4 4) {w : Window} {T : Nat}
    (hbase : κ.base name s.db = some ((κ.series : Series R Re _ _).blank name (some w)))
    (hT : w.time.toInt = T) (hpos : 0 < T)
    (hts : ∀ i ∈ is, ∀ now ts v, κ.view R Re name i = some (.submit now ts v) →
      0 < ts.toNat ∧ ts.toNat < 2 ^ 31) :
    Series.Pure T (κ.ledger name (boot s) is) := by
  have hwf : (boot s).db.Wf := hfresh.wf
  have hcell := (κ.component name).run_proj hwf hrun
  rw [ledger_eq_log hwf hrun]
  have hinit : κ.series.Held name (κ.base name s.db) (κ.cell name (boot s)) [] ∧
      Series.Pure T ([] : List (Entry (UInt32 × κ.Value R) Pdu)) :=
    ⟨held_boot κ name s, Series.OneWindow.nil T, Ledger.Flushes.nil⟩
  refine (Machine.log_invariant (Q := fun m => (∀ keep, m ≠ .forget keep) ∧
      ∀ now ts v, m = .submit now ts v → 0 < ts.toNat ∧ ts.toNat < 2 ^ 31)
    (P := fun c l => κ.series.Held name (κ.base name s.db) c l ∧ Series.Pure T l)
    ?_ hinit ?_ hcell).2
  · intro c m c' out l hP hQ h
    refine ⟨Series.Held.step _ (reset_base hfresh) hP.1 hQ.1 h, ?_⟩
    rw [hbase] at hP
    exact Series.Pure.step _ (lastSeen_blank κ name _) (by simp) hT hpos hP.1 hP.2 hQ.1 hQ.2 h
  · intro m hm
    obtain ⟨i, hi, hv⟩ := List.mem_filterMap.mp hm
    refine ⟨fun keep hkeep => ?_, fun now ts v hsub => ?_⟩
    · exact view_ne_forget (fun p hp => hforget p (hp ▸ hi)) keep (hkeep ▸ hv)
    · exact hts i hi now ts v (hsub ▸ hv)

/-- With a positive window and timestamps in the signed range, each broadcast covers one
window in which something was accepted, and shows the blank record fed with that. -/
theorem ledger_pure (hfresh : s.db.Fresh) {k : Kernel R Re} {is : List Input} {es : List Effect}
    (hrun : Machine.run reactor (boot s) is = .ok (k, es))
    (hforget : ∀ p, .management p ∈ is → ¬p.is .forget 4 4)
    (hT : ∀ w, κ.windowOf name s.db = some w → 0 < w.time.toInt)
    (hts : ∀ i ∈ is, ∀ now ts v, κ.view R Re name i = some (.submit now ts v) →
      0 < ts.toNat ∧ ts.toNat < 2 ^ 31) :
    Ledger.Flushes (fun vs p => ∃ w start, κ.windowOf name s.db = some w ∧
        w.time.toInt.toNat ∣ start ∧
        (∀ e ∈ vs, start ≤ e.1.toNat ∧ e.1.toNat < start + w.time.toInt.toNat) ∧
        vs ≠ [] ∧ (∀ e ∈ vs, 0 < e.1.toNat ∧ e.1.toNat < 2 ^ 31) ∧
        p = κ.report Re name w start vs)
      (κ.ledger name (boot s) is) := by
  have hheld := ledger_held κ name hfresh hrun hforget
  cases hbase : κ.base name s.db with
  | none =>
    rw [hheld.empty hbase]
    exact Ledger.Flushes.nil
  | some b =>
    obtain ⟨w, hw, rfl⟩ := base_eq_blank hfresh hbase
    obtain ⟨T, hTeq⟩ := Int.eq_ofNat_of_zero_le (hT w hw).le
    have hpos : 0 < T := by have := hT w hw; omega
    have hpure := ledger_windowed κ name hfresh hrun hforget hbase hTeq hpos hts
    intro before p after heq
    obtain ⟨hne, hone⟩ := hpure.flushes before p after heq
    have hp := hheld.flushes _ hbase before p after heq
    obtain ⟨start, hdvd, hin, rfl⟩ := κ.series.broadcast_pure (by simp)
      (κ.series.name_blank name (some w)) hTeq hpos hne hone hp
    refine ⟨w, start, hw, by simpa [hTeq] using hdvd, by simpa [hTeq] using hin, hne,
      fun e he => (hone e he).1, ?_⟩
    simp [report]

end Kind

/-! ## What the payloads show -/

private theorem natCast_toNat_add (a b : UInt64) :
    ((a + b).toNat : ZMod (2 ^ 64)) = a.toNat + b.toNat := by
  rw [UInt64.toNat_add, ZMod.natCast_mod, Nat.cast_add]

/-- Sign extension into an unsigned word keeps the value modulo its width. -/
private theorem natCast_toUInt64 (v : Int32) :
    ((v.toInt64.toUInt64.toNat : Nat) : ZMod (2 ^ 64)) = (v.toInt : ZMod (2 ^ 64)) := by
  have hmod : (v.toInt64.toUInt64.toNat : Int) ≡ v.toInt [ZMOD (2 ^ 64 : Nat)] := by
    have hx : v.toInt64.toInt = v.toInt64.toUInt64.toBitVec.toInt := rfl
    have hn : v.toInt64.toUInt64.toNat = v.toInt64.toUInt64.toBitVec.toNat := rfl
    rw [← Int32.toInt_toInt64, hx, hn, BitVec.toInt_eq_toNat_bmod]
    exact Int.bmod_emod.symm
  simpa using (ZMod.intCast_eq_intCast_iff _ _ (2 ^ 64)).mpr hmod

omit [Double R] in
/-- A counter accumulates the sum of its increments, modulo the width of its value. -/
theorem counter_feed_value (b : Counter) (vs : List (UInt32 × Int32)) :
    (((counterSeries : Series R Re _ _).feed b vs).value.toNat : ZMod (2 ^ 64)) =
      b.value.toNat + (vs.map fun e => (e.2.toInt : ZMod (2 ^ 64))).sum := by
  induction vs generalizing b with
  | nil => simp
  | cons e vs ih =>
    refine (ih _).trans ?_
    have hstep : (((counterSeries : Series R Re _ _).update e.1 e.2 b).value.toNat :
        ZMod (2 ^ 64)) = b.value.toNat + e.2.toInt := by
      rw [← natCast_toUInt64]
      exact natCast_toNat_add _ _
    rw [hstep]
    simp [add_assoc]

/-- The values that submissions to a sample set carry, in order. -/
def sampleValues (vs : List (UInt32 × (R × List R))) : List R :=
  vs.flatMap fun e => e.2.1 :: e.2.2

private def Sample.unseen (s : Sample R) : Sample R := { s with lastSeen := 0 }

private theorem sampleUpdate_unseen (ts : UInt32) (vs : List R) (s : Sample R) :
    (sampleUpdate ts vs s).unseen = vs.foldl sampleData s.unseen := by
  induction vs generalizing s with
  | nil => rfl
  | cons v vs ih => exact ih _

private theorem sample_feed_unseen (b : Sample R) (vs : List (UInt32 × (R × List R))) :
    ((sampleSeries : Series R Re _ _).feed b vs).unseen =
      (sampleValues vs).foldl sampleData b.unseen := by
  induction vs generalizing b with
  | nil => rfl
  | cons e vs ih =>
    refine (ih _).trans ?_
    have hstep : ((sampleSeries : Series R Re _ _).update e.1 e.2 b).unseen =
        (e.2.1 :: e.2.2).foldl sampleData b.unseen := sampleUpdate_unseen ..
    rw [hstep, ← List.foldl_append]
    rfl

/-- A sample set shows its values folded from a reset record; when it was last seen does
not enter. -/
theorem sample_feed_payload (name : CString) (w : Option Window)
    (vs : List (UInt32 × (R × List R))) :
    samplePayload ((sampleSeries : Series R Re _ _).feed (Sample.blank name w) vs) =
      samplePayload ((sampleValues vs).foldl sampleData (Sample.blank name w)) := by
  have hfeed : ((sampleSeries : Series R Re _ _).feed (Sample.blank name w) vs).unseen = _ :=
    sample_feed_unseen _ vs
  exact (rfl : samplePayload _ = samplePayload (Sample.unseen _)).trans
    (congrArg samplePayload hfeed)

theorem foldl_sampleData_n (s : Sample R) (vs : List R) :
    (vs.foldl sampleData s).n = s.n + UInt64.ofNat vs.length := by
  induction vs generalizing s with
  | nil => simp
  | cons v vs ih =>
    refine (ih _).trans ?_
    have hstep : (sampleData s v).n = s.n + 1 := rfl
    rw [hstep, List.length_cons, UInt64.ofNat_add, UInt64.add_assoc]
    congr 1
    exact UInt64.add_comm _ _

theorem sample_feed_n (b : Sample R) (vs : List (UInt32 × (R × List R))) :
    ((sampleSeries : Series R Re _ _).feed b vs).n =
      b.n + UInt64.ofNat (sampleValues vs).length := by
  have hfeed : ((sampleSeries : Series R Re _ _).feed b vs).unseen = _ := sample_feed_unseen b vs
  exact (congrArg Sample.n hfeed).trans (foldl_sampleData_n _ _)

end Bolo
