import Bolo.Postgres.History

/-!
# Anomalies of records in order

As long as the records of a name are processed in the order of their times, the open row of
the name is its last, and it is known to last until the last record. The next record extends
or changes it if it is younger, and is an anomaly if it is not: so there are none exactly if
no two records of a name occurred at the same time.
-/
namespace Bolo.Postgres

open Library

variable {N S M T : Type} [LinearOrder T]

/-- The records of each name come in the order of their times. -/
def InOrder (ps : List (Staged N S M T)) : Prop :=
  ps.Pairwise fun a b => a.name = b.name → a.occurredAt ≤ b.occurredAt

/-- No two records of a name occurred at the same time. -/
def Distinct (ps : List (Staged N S M T)) : Prop :=
  ps.Pairwise fun a b => a.name = b.name → a.occurredAt ≠ b.occurredAt

/-- The open row of a name, in a history that has taken in `ps`. -/
structure Current (ps : List (Staged N S M T)) (h : List (HistoryRow N S M T)) (name : N)
    (r : HistoryRow N S M T) : Prop where
  mem : r ∈ h
  name_eq : r.name = name
  open_eq : r.endedAt = none
  latest : ∀ r' ∈ h, r'.name = name → r'.startedAt ≤ r.startedAt
  upper : ∀ p ∈ ps, p.name = name → p.occurredAt ≤ r.tentativeEndedAt
  reached : ∃ p ∈ ps, p.name = name ∧ p.occurredAt = r.tentativeEndedAt

variable {ps : List (Staged N S M T)} {h h' : List (HistoryRow N S M T)} {st : Staged N S M T}
  {r : HistoryRow N S M T} {b : Bool}

/-- The current row is the one that the next record in order is compared with. -/
theorem Current.eq_of_latest (hr : Current ps h st.name r) (hok : HistoryOk h)
    (hle : r.tentativeEndedAt ≤ st.occurredAt) {prev : HistoryRow N S M T}
    (hprev : Latest h st prev) : prev = r := by
  have hstart := (r.start_le_of_check (hok.checks r hr.mem)).trans hle
  have hge := hprev.latest r hr.mem hr.name_eq hstart
  exact hok.eq_of_key hprev.mem hr.mem (hprev.name_eq.trans hr.name_eq.symm)
    (le_antisymm (hr.latest prev hprev.mem hprev.name_eq) hge)

/-- The next record in order: younger than the last one it makes the current row, otherwise it
is an anomaly. -/
theorem HistoryStep.current (hstep : HistoryStep h st h' b) (hok : HistoryOk h)
    (hr : Current ps h st.name r) (hle : r.tentativeEndedAt ≤ st.occurredAt) :
    (∃ r', Current (ps ++ [st]) h' st.name r') ∧
      (b = false ↔ r.tentativeEndedAt < st.occurredAt) := by
  have hstart := r.start_le_of_check (hok.checks r hr.mem)
  have hupper : ∀ p ∈ ps ++ [st], p.name = st.name → p.occurredAt ≤ st.occurredAt := by
    intro p hp hname
    rcases List.mem_append.mp hp with hp | hp
    · exact (hr.upper p hp hname).trans hle
    · obtain rfl : p = st := by simpa using hp
      exact le_rfl
  have hreached : ∃ p ∈ ps ++ [st], p.name = st.name ∧ p.occurredAt = st.occurredAt :=
    ⟨st, by simp, rfl, rfl⟩
  cases hstep with
  | opens hnone hperm =>
    exact absurd (hnone r hr.mem hr.name_eq) (not_lt.mpr (hstart.trans hle))
  | @continues _ prev rest hlatest hopen hafter hrest hperm =>
    obtain rfl := hr.eq_of_latest hok hle hlatest
    refine ⟨⟨prev.extend st.occurredAt, hperm.mem_iff.mpr (by simp), hr.name_eq, hopen, ?_,
      hupper, hreached⟩, by simpa⟩
    have hbefore := hr.latest
    simp only [hperm.mem_iff, hrest.mem_iff, List.forall_mem_cons] at hbefore ⊢
    exact hbefore
  | changes hlatest hopen hafter hrest hperm =>
    obtain rfl := hr.eq_of_latest hok hle hlatest
    refine ⟨⟨opened st, hperm.mem_iff.mpr (by simp), rfl, rfl, ?_, hupper, hreached⟩, by simpa⟩
    have hbefore := hr.latest
    simp only [hperm.mem_iff, hrest.mem_iff, List.forall_mem_cons] at hbefore ⊢
    have hlast := hstart.trans hle
    exact ⟨fun _ => le_rfl, fun _ => hlast,
      fun r' hr' hname => (hbefore.2 r' hr' hname).trans hlast⟩
  | anomaly hlatest hodd =>
    obtain rfl := hr.eq_of_latest hok hle hlatest
    have hge := hodd hr.open_eq
    refine ⟨⟨_, hr.mem, hr.name_eq, hr.open_eq, hr.latest, fun p hp hname => ?_, ?_⟩, ?_⟩
    · exact (hupper p hp hname).trans hge
    · obtain ⟨p, hp, hname, heq⟩ := hr.reached
      exact ⟨p, by simp [hp], hname, heq⟩
    · simpa using hge

/-- A record leaves the rows of other names alone. -/
theorem HistoryStep.mem_of_ne (hstep : HistoryStep h st h' b) (hr : r ∈ h)
    (hname : r.name ≠ st.name) : r ∈ h' := by
  have hrest : ∀ {prev rest}, Latest h st prev → h.Perm (prev :: rest) → r ∈ rest := by
    intro prev rest hlatest hperm
    rcases List.mem_cons.mp (hperm.mem_iff.mp hr) with rfl | hr
    · exact absurd hlatest.name_eq hname
    · exact hr
  cases hstep with
  | opens hnone hperm => exact hperm.mem_iff.mpr (by simp [hr])
  | continues hlatest hopen hafter hrest' hperm =>
    exact hperm.mem_iff.mpr (by simp [hrest hlatest hrest'])
  | changes hlatest hopen hafter hrest' hperm =>
    exact hperm.mem_iff.mpr (by simp [hrest hlatest hrest'])
  | anomaly hlatest hodd => exact hr

theorem Current.other {name : N} (hr : Current ps h name r) (hstep : HistoryStep h st h' b)
    (hname : name ≠ st.name) : Current (ps ++ [st]) h' name r := by
  refine ⟨hstep.mem_of_ne hr.mem (hr.name_eq ▸ hname), hr.name_eq, hr.open_eq, ?_, ?_, ?_⟩
  · intro r' hr' hname'
    rcases hstep.rows.1 r' hr' with rfl | ⟨r₀, hr₀, hkey, hstart⟩
    · exact absurd hname'.symm hname
    · exact hstart ▸ hr.latest r₀ hr₀ (hkey.trans hname')
  · intro p hp hpname
    rcases List.mem_append.mp hp with hp | hp
    · exact hr.upper p hp hpname
    · obtain rfl : p = st := by simpa using hp
      exact absurd hpname.symm hname
  · obtain ⟨p, hp, hpname, heq⟩ := hr.reached
    exact ⟨p, by simp [hp], hpname, heq⟩

/-- The first record of a name opens its first row. -/
theorem HistoryStep.opens_of_unseen (hstep : HistoryStep h st h' b)
    (hnone : ∀ r ∈ h, r.name ≠ st.name) : b = false ∧ h'.Perm (opened st :: h) := by
  cases hstep with
  | opens _ hperm => exact ⟨rfl, hperm⟩
  | continues hlatest => exact absurd hlatest.name_eq (hnone _ hlatest.mem)
  | changes hlatest => exact absurd hlatest.name_eq (hnone _ hlatest.mem)
  | anomaly hlatest => exact absurd hlatest.name_eq (hnone _ hlatest.mem)

/-! ## Runs -/

/-- What records in order leave: a current row for each name, and anomalies only for records
that share name and time. -/
structure Orderly (ps : List (Staged N S M T)) (t : Tables N S M T) : Prop where
  current : ∀ p ∈ ps, ∃ r, Current ps t.history p.name r
  anomalies : t.anomalies = [] ↔ Distinct ps

/-- The record itself has a current row, and is an anomaly if it shares its time. -/
theorem Orderly.self [DecidableEq N] {t : Tables N S M T} (hord : Orderly ps t)
    (hfacts : Facts ps t.history) (hok : HistoryOk t.history)
    (hstep : HistoryStep t.history st h' b)
    (hbefore : ∀ p ∈ ps, p.name = st.name → p.occurredAt ≤ st.occurredAt) :
    (∃ r', Current (ps ++ [st]) h' st.name r') ∧
      (b = false ↔ ∀ p ∈ ps, p.name = st.name → p.occurredAt ≠ st.occurredAt) := by
  by_cases hseen : ∃ p ∈ ps, p.name = st.name
  · obtain ⟨p, hp, hname⟩ := hseen
    obtain ⟨r, hr⟩ := hord.current p hp
    rw [hname] at hr
    obtain ⟨p₁, hp₁, hname₁, hlast⟩ := hr.reached
    have hle : r.tentativeEndedAt ≤ st.occurredAt := hlast ▸ hbefore p₁ hp₁ hname₁
    obtain ⟨hcurrent, hb⟩ := hstep.current hok hr hle
    refine ⟨hcurrent, hb.trans ⟨fun hlt q hq hqname => ?_, fun hne => ?_⟩⟩
    · exact ((hr.upper q hq hqname).trans_lt hlt).ne
    · exact lt_of_le_of_ne hle (hlast ▸ hne p₁ hp₁ hname₁)
  · have hnone : ∀ r ∈ t.history, r.name ≠ st.name := by
      intro r hr hname
      obtain ⟨p, hp, hpname, -⟩ := hfacts.starts r hr
      exact hseen ⟨p, hp, hpname.trans hname⟩
    have hunseen : ∀ p ∈ ps, p.name ≠ st.name := fun p hp hname => hseen ⟨p, hp, hname⟩
    obtain ⟨rfl, hperm⟩ := hstep.opens_of_unseen hnone
    refine ⟨⟨opened st, hperm.mem_iff.mpr (by simp), rfl, rfl, ?_, ?_, st, by simp, rfl, rfl⟩, ?_⟩
    · simp only [hperm.mem_iff, List.forall_mem_cons]
      exact ⟨fun _ => le_rfl, fun r hr hname => absurd hname (hnone r hr)⟩
    · intro p hp hname
      rcases List.mem_append.mp hp with hp | hp
      · exact absurd hname (hunseen p hp)
      · obtain rfl : p = st := by simpa using hp
        exact le_rfl
    · exact ⟨fun _ p hp hname => absurd hname (hunseen p hp), fun _ => rfl⟩

theorem Orderly.step [DecidableEq N] {t t' : Tables N S M T} (hord : Orderly ps t)
    (hfacts : Facts ps t.history) (hok : HistoryOk t.history)
    (hstep : HistoryStep t.history st t'.history b)
    (hanomalies : t'.anomalies = if b then t.anomalies ++ [st] else t.anomalies)
    (hin : InOrder (ps ++ [st])) : Orderly (ps ++ [st]) t' := by
  have hdistinct : Distinct (ps ++ [st]) ↔
      Distinct ps ∧ ∀ p ∈ ps, p.name = st.name → p.occurredAt ≠ st.occurredAt := by
    simp [Distinct, List.pairwise_append]
  obtain ⟨hcurrent, hb⟩ := hord.self hfacts hok hstep
    fun p hp hname => (List.pairwise_append.mp hin).2.2 p hp st (by simp) hname
  refine ⟨fun p hp => ?_, ?_⟩
  · by_cases hname : p.name = st.name
    · exact hname ▸ hcurrent
    · have hp : p ∈ ps := by
        rcases List.mem_append.mp hp with hp | hp
        · exact hp
        · exact absurd (by simpa using congrArg Staged.name (List.mem_singleton.mp hp)) hname
      obtain ⟨r, hr⟩ := hord.current p hp
      exact ⟨r, hr.other hstep hname⟩
  · rw [hanomalies, hdistinct, ← hb, ← hord.anomalies]
    cases b <;> simp

section Runs

variable [DecidableEq N] [DecidableEq S] [DecidableEq M] {collate : N → N → Bool}
  {cs : List (Call N S M T)} {t : Tables N S M T}

/-- Records that are processed in order leave an anomaly exactly if two of them share name and
time. -/
theorem anomalies_nil_iff
    (hrun : Machine.run (call collate) (Tables.empty N S M T) cs = .ok (t, ps))
    (hin : InOrder ps) : t.anomalies = [] ↔ Distinct ps := by
  have hall : Facts ps t.history ∧ (InOrder ps → Orderly ps t) := by
    refine run_processed (P := fun t ps => Facts ps t.history ∧ (InOrder ps → Orderly ps t))
      (fun t ps r ht => ⟨ht.1, fun hin => ⟨(ht.2 hin).current, (ht.2 hin).anomalies⟩⟩) ?_ ?_ hrun
    · rintro t ps st t' b hok ⟨hfacts, hord⟩ hstep hanomalies
      refine ⟨hfacts.step hok.history hstep, fun hin => ?_⟩
      exact (hord (List.pairwise_append.mp hin).1).step hfacts hok.history hstep hanomalies hin
    · have hempty : Machine.run (call collate) (Tables.empty N S M T) [] = .ok (_, []) := rfl
      exact ⟨run_facts hempty, fun _ => ⟨by simp, by simp [Tables.empty, Distinct]⟩⟩
  exact (hall.2 hin).anomalies

end Runs

end Bolo.Postgres
