import Bolo.Postgres.Reconcile
import Mathlib.Data.Set.Lattice
import Mathlib.Order.CompletePartialOrder

/-!
# The shape of the history

Whatever is staged and whenever `reconcile()` is called, every row starts with a record, every
record lies in or behind a row, and every name has an open row. A record before the first row
of its name opens another one that is never closed: so the history of a name is well formed
exactly as long as no record is processed that is older than the first.
-/
namespace Bolo.Postgres

open Library

variable {N S M T : Type} [LinearOrder T]

/-! ## Well-formed histories -/

/-- The time a row stands for. -/
def HistoryRow.interval (r : HistoryRow N S M T) : Set T :=
  {t | r.startedAt ≤ t ∧ ∀ e, r.endedAt = some e → t < e}

/-- Two rows of one name are not both open, and stand for different times. -/
def Apart (a b : HistoryRow N S M T) : Prop :=
  a.name = b.name → ¬(a.endedAt = none ∧ b.endedAt = none) ∧ Disjoint a.interval b.interval

def WellFormed (h : List (HistoryRow N S M T)) : Prop := h.Pairwise Apart

/-- The first row ends before the second starts. -/
def HistoryRow.Before (a b : HistoryRow N S M T) : Prop :=
  ∃ e, a.endedAt = some e ∧ e ≤ b.startedAt

/-- Rows of one name follow each other. -/
def Ordered (a b : HistoryRow N S M T) : Prop := a.name = b.name → a.Before b ∨ b.Before a

theorem HistoryRow.Before.disjoint {a b : HistoryRow N S M T} (h : a.Before b) :
    Disjoint a.interval b.interval := by
  obtain ⟨e, he, hle⟩ := h
  refine Set.disjoint_left.mpr fun t ha hb => ?_
  exact absurd (hle.trans hb.1) (not_le.mpr (ha.2 e he))

theorem Ordered.apart {a b : HistoryRow N S M T} (h : Ordered a b) : Apart a b := by
  intro hname
  rcases h hname with hab | hba
  · obtain ⟨e, he, hle⟩ := hab
    exact ⟨fun hopen => (nomatch he.symm.trans hopen.1), HistoryRow.Before.disjoint ⟨e, he, hle⟩⟩
  · obtain ⟨e, he, hle⟩ := hba
    exact ⟨fun hopen => (nomatch he.symm.trans hopen.2),
      (HistoryRow.Before.disjoint ⟨e, he, hle⟩).symm⟩

theorem Ordered.symm {a b : HistoryRow N S M T} (h : Ordered a b) : Ordered b a :=
  fun hname => (h hname.symm).symm

theorem ordered_perm {h h' : List (HistoryRow N S M T)} (hperm : h.Perm h') :
    h.Pairwise Ordered ↔ h'.Pairwise Ordered := hperm.pairwise_iff Ordered.symm

section Open

variable [DecidableEq N]

def openCount (name : N) (h : List (HistoryRow N S M T)) : Nat :=
  h.countP fun r => r.name = name && r.endedAt.isNone

omit [LinearOrder T] in
theorem openCount_perm {name : N} {h h' : List (HistoryRow N S M T)} (hperm : h.Perm h') :
    openCount name h = openCount name h' := hperm.countP_eq _

omit [LinearOrder T] in
theorem openCount_cons (name : N) (r : HistoryRow N S M T) (h : List (HistoryRow N S M T)) :
    openCount name (r :: h) =
      openCount name h + if r.name = name ∧ r.endedAt = none then 1 else 0 := by
  simp [openCount, List.countP_cons]

/-- A well-formed history has one open row for each name at most. -/
theorem WellFormed.openCount_le {h : List (HistoryRow N S M T)} (hwf : WellFormed h) (name : N) :
    openCount name h ≤ 1 := by
  rw [openCount, List.countP_eq_length_filter]
  have hpair := hwf.filter fun r => r.name = name && r.endedAt.isNone
  have hall : ∀ r ∈ h.filter (fun r => r.name = name && r.endedAt.isNone),
      r.name = name ∧ r.endedAt = none := by simp
  generalize h.filter (fun r => r.name = name && r.endedAt.isNone) = l at hpair hall
  match l with
  | [] => simp
  | [_] => simp
  | a :: b :: l =>
    have ha := hall a (by simp)
    have hb := hall b (by simp)
    have hapart := (List.pairwise_cons.mp hpair).1 b (by simp) (ha.1.trans hb.1.symm)
    exact absurd ⟨ha.2, hb.2⟩ hapart.1

/-- No step closes a row without opening another, and the first branch opens one more. -/
theorem HistoryStep.openCount {h h' : List (HistoryRow N S M T)} {st : Staged N S M T} {b : Bool}
    (hstep : HistoryStep h st h' b) (name : N) :
    openCount name h ≤ openCount name h' ∧
      ((∀ r ∈ h, r.name = st.name → st.occurredAt < r.startedAt) →
        openCount st.name h' = openCount st.name h + 1) := by
  cases hstep with
  | opens hnone hperm =>
    simp only [openCount_perm hperm, openCount_cons, opened]
    exact ⟨Nat.le_add_right _ _, fun _ => by simp⟩
  | continues hlatest hopen hafter hrest hperm =>
    refine ⟨?_, fun hnone => absurd hlatest.start_le (not_le.mpr (hnone _ hlatest.mem
      hlatest.name_eq))⟩
    simp [openCount_perm hperm, openCount_perm hrest, openCount_cons, HistoryRow.extend]
  | changes hlatest hopen hafter hrest hperm =>
    refine ⟨?_, fun hnone => absurd hlatest.start_le (not_le.mpr (hnone _ hlatest.mem
      hlatest.name_eq))⟩
    simp [openCount_perm hperm, openCount_perm hrest, openCount_cons, HistoryRow.close, opened,
      hlatest.name_eq, hopen]
  | anomaly hlatest hodd =>
    exact ⟨le_rfl, fun hnone => absurd hlatest.start_le (not_le.mpr (hnone _ hlatest.mem
      hlatest.name_eq))⟩

end Open

/-! ## Records and rows -/

variable {h h' : List (HistoryRow N S M T)} {st : Staged N S M T} {b : Bool}

/-- Two rows with one name and one start. -/
def SameKey (a b : HistoryRow N S M T) : Prop := a.name = b.name ∧ a.startedAt = b.startedAt

/-- A step moves no row; it may add one that starts with the record. -/
theorem HistoryStep.rows (hstep : HistoryStep h st h' b) :
    (∀ r' ∈ h', r' = opened st ∨ ∃ r ∈ h, SameKey r r') ∧ (∀ r ∈ h, ∃ r' ∈ h', SameKey r r') := by
  have hself : ∀ r : HistoryRow N S M T, SameKey r r := fun _ => ⟨rfl, rfl⟩
  cases hstep with
  | opens hnone hperm =>
    simp only [hperm.mem_iff, List.mem_cons]
    refine ⟨fun r' hr' => ?_, fun r hr => ⟨r, .inr hr, hself r⟩⟩
    rcases hr' with rfl | hr'
    · exact .inl rfl
    · exact .inr ⟨r', hr', hself r'⟩
  | @continues _ prev rest hlatest hopen hafter hrest hperm =>
    have hprev : SameKey prev (prev.extend st.occurredAt) := ⟨rfl, rfl⟩
    simp only [hperm.mem_iff, hrest.mem_iff, List.mem_cons]
    grind
  | @changes _ prev rest hlatest hopen hafter hrest hperm =>
    have hprev : SameKey prev (prev.close st.occurredAt) := ⟨rfl, rfl⟩
    simp only [hperm.mem_iff, hrest.mem_iff, List.mem_cons]
    grind
  | anomaly hlatest hodd => exact ⟨fun r hr => .inr ⟨r, hr, hself r⟩, fun r hr => ⟨r, hr, hself r⟩⟩

/-- After the step there is a row for the record. -/
theorem HistoryStep.covers (hstep : HistoryStep h st h' b) :
    ∃ r ∈ h', r.name = st.name ∧ r.startedAt ≤ st.occurredAt := by
  have hold (prev) (hlatest : Latest h st prev) :
      ∃ r ∈ h', r.name = st.name ∧ r.startedAt ≤ st.occurredAt := by
    obtain ⟨r', hr', hname, hstart⟩ := hstep.rows.2 prev hlatest.mem
    exact ⟨r', hr', hname ▸ hlatest.name_eq, hstart ▸ hlatest.start_le⟩
  cases hstep with
  | opens hnone hperm => exact ⟨opened st, hperm.mem_iff.mpr (by simp), rfl, le_rfl⟩
  | continues hlatest => exact hold _ hlatest
  | changes hlatest => exact hold _ hlatest
  | anomaly hlatest => exact hold _ hlatest

/-- Where a record does not open a row out of turn, the rows of a name keep following each
other. -/
theorem HistoryStep.ordered (hstep : HistoryStep h st h' b) (hok : HistoryOk h)
    (hord : h.Pairwise Ordered)
    (hturn : (∀ r ∈ h, r.name = st.name → st.occurredAt < r.startedAt) →
      ∀ r ∈ h, r.name ≠ st.name) : h'.Pairwise Ordered := by
  cases hstep with
  | opens hnone hperm =>
    rw [ordered_perm hperm, List.pairwise_cons]
    exact ⟨fun r hr hname => absurd hname.symm (hturn hnone r hr), hord⟩
  | @continues _ prev rest hlatest hopen hafter hrest hperm =>
    rw [ordered_perm hrest, List.pairwise_cons] at hord
    rw [ordered_perm hperm, List.pairwise_cons]
    exact hord
  | @changes _ prev rest hlatest hopen hafter hrest hperm =>
    have hstart := prev.start_le_of_check (hok.checks prev hlatest.mem)
    rw [ordered_perm hrest, List.pairwise_cons] at hord
    obtain ⟨hprev, hrestord⟩ := hord
    -- an open row is the last of its name
    have hbefore : ∀ r ∈ rest, r.name = prev.name → r.Before prev := by
      intro r hr hname
      rcases hprev r hr hname.symm with hlate | hearly
      · obtain ⟨e, he, -⟩ := hlate
        exact nomatch he.symm.trans hopen
      · exact hearly
    have hlast : prev.startedAt ≤ st.occurredAt := hstart.trans hafter.le
    rw [ordered_perm hperm, List.pairwise_cons, List.pairwise_cons]
    refine ⟨?_, fun r hr hname => .inr (hbefore r hr hname.symm), hrestord⟩
    intro r hr hname
    rcases List.mem_cons.mp hr with rfl | hr
    · exact .inr ⟨st.occurredAt, rfl, le_rfl⟩
    · obtain ⟨e, he, hle⟩ := hbefore r hr (hname.symm.trans hlatest.name_eq.symm)
      exact .inr ⟨e, he, hle.trans hlast⟩
  | anomaly hlatest hodd => exact hord

section Facts

variable [DecidableEq N]

/-- No record of the name is older than the first one. -/
def FirstFirst (name : N) (ps : List (Staged N S M T)) : Prop :=
  ∀ p₀, ps.find? (·.name = name) = some p₀ → ∀ p ∈ ps, p.name = name → p₀.occurredAt ≤ p.occurredAt

/-- What the history says about the records processed so far. -/
structure Facts (ps : List (Staged N S M T)) (h : List (HistoryRow N S M T)) : Prop where
  starts : ∀ r ∈ h, ∃ p ∈ ps, p.name = r.name ∧ p.occurredAt = r.startedAt
  covered : ∀ p ∈ ps, ∃ r ∈ h, r.name = p.name ∧ r.startedAt ≤ p.occurredAt
  someOpen : ∀ p ∈ ps, 1 ≤ openCount p.name h
  ordered : (∀ name, FirstFirst name ps) → h.Pairwise Ordered
  broken : ∀ name, ¬FirstFirst name ps → 2 ≤ openCount name h

variable {ps : List (Staged N S M T)}

theorem FirstFirst.left {name : N} (hfirst : FirstFirst name (ps ++ [st])) :
    FirstFirst name ps := by
  intro p₀ hp₀ p hp hname
  exact hfirst p₀ (by simp [List.find?_append, hp₀]) p (by simp [hp]) hname

theorem firstFirst_concat {name : N} (hfirst : FirstFirst name ps)
    (hst : ∀ p₀, ps.find? (·.name = name) = some p₀ → st.name = name →
      p₀.occurredAt ≤ st.occurredAt) : FirstFirst name (ps ++ [st]) := by
  intro p₀ hp₀ p hp hname
  cases hfind : ps.find? (·.name = name) with
  | none =>
    have hnone : ∀ q ∈ ps, q.name ≠ name := by simpa using hfind
    have hp' : p = st := by
      rcases List.mem_append.mp hp with hp | hp
      · exact absurd hname (hnone p hp)
      · simpa using hp
    subst hp'
    obtain rfl : p = p₀ := by simpa [List.find?_append, hfind, hname] using hp₀
    exact le_rfl
  | some q =>
    obtain rfl : q = p₀ := by simpa [List.find?_append, hfind] using hp₀
    rcases List.mem_append.mp hp with hp | hp
    · exact hfirst q hfind p hp hname
    · obtain rfl : p = st := by simpa using hp
      exact hst q hfind hname

/-- Every name with a record has an open row. -/
theorem Facts.someOpen_step (hfacts : Facts ps h) (hstep : HistoryStep h st h' b)
    {p : Staged N S M T} (hp : p ∈ ps ++ [st]) : 1 ≤ openCount p.name h' := by
  by_cases hseen : ∃ q ∈ ps, q.name = p.name
  · obtain ⟨q, hq, hname⟩ := hseen
    exact hname ▸ (hfacts.someOpen q hq).trans (hstep.openCount q.name).1
  · have hpst : p = st := by
      rcases List.mem_append.mp hp with hp | hp
      · exact absurd ⟨p, hp, rfl⟩ hseen
      · simpa using hp
    subst hpst
    have hnone : ∀ r ∈ h, r.name = p.name → p.occurredAt < r.startedAt := by
      intro r hr hname
      obtain ⟨q, hq, hqname, -⟩ := hfacts.starts r hr
      exact absurd ⟨q, hq, hqname.trans hname⟩ hseen
    rw [(hstep.openCount p.name).2 hnone]
    omega

/-- A record that is not older than the first of its name does not precede all of its rows. -/
theorem Facts.in_turn (hfacts : Facts ps h) (hfirst : FirstFirst st.name (ps ++ [st]))
    (hnone : ∀ r ∈ h, r.name = st.name → st.occurredAt < r.startedAt) :
    ∀ r ∈ h, r.name ≠ st.name := by
  intro r hr hname
  obtain ⟨p, hp, hpname, -⟩ := hfacts.starts r hr
  obtain ⟨p₀, hp₀⟩ : ∃ p₀, ps.find? (·.name = st.name) = some p₀ := by
    rw [← Option.isSome_iff_exists, List.find?_isSome]
    exact ⟨p, hp, by simpa using hpname.trans hname⟩
  have hname₀ : p₀.name = st.name := by simpa using List.find?_some hp₀
  have hle : p₀.occurredAt ≤ st.occurredAt :=
    hfirst p₀ (by simp [List.find?_append, hp₀]) st (by simp) rfl
  obtain ⟨r₀, hr₀, hrname, hrle⟩ := hfacts.covered p₀ (List.mem_of_find?_eq_some hp₀)
  exact absurd (hrle.trans hle) (not_le.mpr (hnone r₀ hr₀ (hrname.trans hname₀)))

/-- The first record that comes too early opens a second row. -/
theorem Facts.breaks (hfacts : Facts ps h) (hstep : HistoryStep h st h' b) {name : N}
    (hfirst : FirstFirst name ps) (hbroken : ¬FirstFirst name (ps ++ [st])) :
    2 ≤ openCount name h' := by
  obtain ⟨p₀, hp₀, rfl, hlt⟩ : ∃ p₀, ps.find? (·.name = name) = some p₀ ∧ st.name = name ∧
      st.occurredAt < p₀.occurredAt := by
    by_contra hall
    refine hbroken (firstFirst_concat hfirst fun p₀ hp₀ hname => ?_)
    exact not_lt.mp fun hlt => hall ⟨p₀, hp₀, hname, hlt⟩
  have hname₀ : p₀.name = st.name := by simpa using List.find?_some hp₀
  have hnone : ∀ r ∈ h, r.name = st.name → st.occurredAt < r.startedAt := by
    intro r hr hname
    obtain ⟨p, hp, hpname, hstart⟩ := hfacts.starts r hr
    exact hstart ▸ hlt.trans_le (hfirst p₀ hp₀ p hp (hpname.trans hname))
  have hone := hfacts.someOpen p₀ (List.mem_of_find?_eq_some hp₀)
  rw [hname₀] at hone
  rw [(hstep.openCount st.name).2 hnone]
  omega

/-- The facts are kept by every record. -/
theorem Facts.step (hfacts : Facts ps h) (hok : HistoryOk h) (hstep : HistoryStep h st h' b) :
    Facts (ps ++ [st]) h' := by
  obtain ⟨hnew, hold⟩ := hstep.rows
  refine ⟨?_, ?_, fun p hp => hfacts.someOpen_step hstep hp, ?_, ?_⟩
  · intro r' hr'
    rcases hnew r' hr' with rfl | ⟨r, hr, hname, hstart⟩
    · exact ⟨st, by simp, rfl, rfl⟩
    · obtain ⟨p, hp, hpname, hpstart⟩ := hfacts.starts r hr
      exact ⟨p, by simp [hp], hpname.trans hname, hpstart.trans hstart⟩
  · intro p hp
    rcases List.mem_append.mp hp with hp | hp
    · obtain ⟨r, hr, hname, hle⟩ := hfacts.covered p hp
      obtain ⟨r', hr', hname', hstart⟩ := hold r hr
      exact ⟨r', hr', hname' ▸ hname, hstart ▸ hle⟩
    · obtain rfl : p = st := by simpa using hp
      exact hstep.covers
  · intro hfirst
    exact hstep.ordered hok (hfacts.ordered fun name => (hfirst name).left)
      (hfacts.in_turn (hfirst st.name))
  · intro name hbroken
    by_cases hfirst : FirstFirst name ps
    · exact hfacts.breaks hstep hfirst hbroken
    · exact (hfacts.broken name hfirst).trans (hstep.openCount name).1

end Facts

/-! ## Runs -/

section Runs

variable [DecidableEq N] [DecidableEq S] [DecidableEq M] {collate : N → N → Bool}
  {cs : List (Call N S M T)} {t : Tables N S M T} {ps : List (Staged N S M T)}

theorem run_facts (hrun : Machine.run (call collate) (Tables.empty N S M T) cs = .ok (t, ps)) :
    Facts ps t.history := by
  refine run_processed (P := fun t ps => Facts ps t.history) (fun _ _ _ hfacts => hfacts) ?_ ?_ hrun
  · intro t ps st t' b hok hfacts hstep _
    exact hfacts.step hok.history hstep
  · constructor <;> simp [Tables.empty, FirstFirst]

/-- The history is well formed exactly if no name has a record that was processed after a
younger first one. -/
theorem history_well_formed_iff
    (hrun : Machine.run (call collate) (Tables.empty N S M T) cs = .ok (t, ps)) :
    WellFormed t.history ↔ ∀ name, FirstFirst name ps := by
  have hfacts := run_facts hrun
  constructor
  · intro hwf name
    by_contra hbroken
    have htwo := hfacts.broken name hbroken
    have hone := hwf.openCount_le name
    omega
  · intro hfirst
    exact (hfacts.ordered hfirst).imp Ordered.apart

end Runs

section Examples

/-- A record of the state 0, staged when it occurred. -/
def record (status : Nat) (t : Int) : Staged Nat Nat Nat Int :=
  { name := 0, status := status, message := 0, insertedAt := t, occurredAt := t }

def inTime : List (Call Nat Nat Nat Int) :=
  [.stage (record 0 10), .reconcile [record 0 10], .stage (record 2 30), .stage (record 0 20),
   .reconcile [record 0 20, record 2 30]]

theorem history_well_formed_inTime : ∃ t ps,
    Machine.run (call (· ≤ ·)) (Tables.empty Nat Nat Nat Int) inTime = .ok (t, ps) ∧
      t.history.length = 2 ∧ WellFormed t.history := by
  obtain ⟨⟨t, ps⟩, hrun⟩ := exists_ok
    (x := Machine.run (call (· ≤ ·)) (Tables.empty Nat Nat Nat Int) inTime) (by decide +kernel)
  have hall : (Machine.run (call (· ≤ ·)) (Tables.empty Nat Nat Nat Int) inTime).map
      (fun r => (r.1.history.length, r.2)) =
        .ok (2, [record 0 10, record 0 20, record 2 30]) := by decide +kernel
  rw [hrun] at hall
  obtain ⟨hlength, rfl⟩ := Prod.mk.inj (Except.ok.inj hall)
  refine ⟨t, _, hrun, hlength, (history_well_formed_iff hrun).mpr fun name p₀ hp₀ p hp hname => ?_⟩
  have hall : ∀ p ∈ [record 0 10, record 0 20, record 2 30],
      p.name = 0 ∧ 10 ≤ p.occurredAt := by decide
  obtain rfl : 0 = name := (hall p hp).1.symm.trans hname
  obtain rfl : record 0 10 = p₀ := Option.some.inj hp₀
  exact (hall p hp).2

/-- A late record, and `reconcile()` was called before it came. -/
def tooLate : List (Call Nat Nat Nat Int) :=
  [.stage (record 0 10), .reconcile [record 0 10], .stage (record 0 5), .reconcile [record 0 5]]

/-- Both records leave an open row. -/
theorem late_record_opens_another : ∃ t ps,
    Machine.run (call (· ≤ ·)) (Tables.empty Nat Nat Nat Int) tooLate = .ok (t, ps) ∧
      t.history = [opened (record 0 10), opened (record 0 5)] ∧ ¬WellFormed t.history := by
  have hall : (Machine.run (call (· ≤ ·)) (Tables.empty Nat Nat Nat Int) tooLate).map
      (fun r => r.1.history) = .ok [opened (record 0 10), opened (record 0 5)] := by decide +kernel
  obtain ⟨⟨t, ps⟩, hrun⟩ := exists_ok
    (x := Machine.run (call (· ≤ ·)) (Tables.empty Nat Nat Nat Int) tooLate) (by decide +kernel)
  rw [hrun] at hall
  have hhistory : t.history = [opened (record 0 10), opened (record 0 5)] := Except.ok.inj hall
  refine ⟨t, ps, hrun, hhistory, fun hwf => ?_⟩
  have hle := hwf.openCount_le 0
  rw [hhistory] at hle
  exact absurd hle (by decide)

end Examples

end Bolo.Postgres
