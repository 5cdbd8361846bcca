import Bolo.Library.Machine
import Mathlib.Data.List.Nodup
import Mathlib.Data.List.MinMax
import Mathlib.Order.Lattice

/-!
# Reconciling staged states

`examples/schema/pg.sql`: subscribers stage state records, and `reconcile()` moves up to 500
of them, ordered by time and name, into the current states and the history. A history row is
a half-open interval, the last one of a name being open. A record that neither opens, extends
nor changes the row it falls into is logged as an anomaly.

Names, statuses, messages and times are of any type; times are ordered, and names have a
collation. Rows that compare equal in every column are the same row to `UPDATE` and `DELETE`,
whose comparison of whole rows takes NULLs for equal.
-/
namespace Bolo.Postgres

open Library

/-- A row of `states_staging`, and of `history_anomalies`. -/
structure Staged (N S M T : Type) where
  name : N
  status : S
  message : M
  insertedAt : T
  occurredAt : T
  deriving DecidableEq

/-- A row of `states`. -/
structure StateRow (N S M T : Type) where
  name : N
  status : S
  message : M
  firstSeen : T
  lastSeen : T
  deriving DecidableEq

/-- A row of `history`. -/
structure HistoryRow (N S M T : Type) where
  name : N
  status : S
  message : M
  startedAt : T
  tentativeEndedAt : T
  endedAt : Option T
  deriving DecidableEq

structure Tables (N S M T : Type) where
  staging : List (Staged N S M T)
  states : List (StateRow N S M T)
  history : List (HistoryRow N S M T)
  anomalies : List (Staged N S M T)
  deriving DecidableEq

def Tables.empty (N S M T : Type) : Tables N S M T := ⟨[], [], [], []⟩

/-- Why a statement is not carried out: a constraint of a table, or a batch that `reconcile`
cannot have selected. -/
inductive Abort where
  | violation
  | notSelected
  deriving DecidableEq, Repr

variable {N S M T : Type}

section Model

variable [DecidableEq N] [DecidableEq S] [DecidableEq M] [LinearOrder T]

/-! ## The current states -/

/-- `CHECK` of `states`. -/
def StateRow.check (r : StateRow N S M T) : Bool := r.firstSeen ≤ r.lastSeen

/-- `INSERT INTO states`, under `UNIQUE (name)`. -/
def insertState (row : StateRow N S M T) (states : List (StateRow N S M T)) :
    Except Abort (List (StateRow N S M T)) :=
  if row.check && states.all (·.name ≠ row.name) then .ok (states ++ [row])
  else .error .violation

/-- `UPDATE states SET ... WHERE name = ...`. -/
def updateStates (name : N) (f : StateRow N S M T → StateRow N S M T)
    (states : List (StateRow N S M T)) : Except Abort (List (StateRow N S M T)) :=
  let states := states.map fun r => if r.name = name then f r else r
  if states.all StateRow.check then .ok states else .error .violation

def reconcileState (states : List (StateRow N S M T)) (st : Staged N S M T) :
    Except Abort (List (StateRow N S M T)) :=
  match states.find? (·.name = st.name) with
  | none => insertState
      { name := st.name, status := st.status, message := st.message,
        firstSeen := st.occurredAt, lastSeen := st.occurredAt } states
  | some cur =>
    if cur.lastSeen < st.occurredAt then
      if cur.status ≠ st.status then
        updateStates st.name (fun r => { r with
          status := st.status, message := st.message,
          firstSeen := st.occurredAt, lastSeen := st.occurredAt }) states
      else
        updateStates st.name (fun r => { r with
          lastSeen := st.occurredAt, message := st.message }) states
    else .ok states

/-! ## The history -/

/-- The `CHECK`s of `history`. -/
def HistoryRow.check (r : HistoryRow N S M T) : Bool :=
  r.startedAt ≤ r.tentativeEndedAt && r.endedAt.all fun e => r.startedAt ≤ e

/-- `INSERT INTO history`, under `UNIQUE (name, started_at)`. -/
def insertHistory (row : HistoryRow N S M T) (history : List (HistoryRow N S M T)) :
    Except Abort (List (HistoryRow N S M T)) :=
  if row.check && history.all (fun r => r.name ≠ row.name || r.startedAt ≠ row.startedAt) then
    .ok (history ++ [row])
  else .error .violation

/-- `UPDATE history SET ... WHERE history = prev`. -/
def updateHistory (prev row : HistoryRow N S M T) (history : List (HistoryRow N S M T)) :
    Except Abort (List (HistoryRow N S M T)) :=
  if row.check then .ok (history.map fun r => if r = prev then row else r)
  else .error .violation

/-- The latest row of the name that starts at the time or before. -/
def previous (history : List (HistoryRow N S M T)) (name : N) (t : T) :
    Option (HistoryRow N S M T) :=
  (history.filter fun r => r.name = name && r.startedAt ≤ t).argmax HistoryRow.startedAt

def opened (st : Staged N S M T) : HistoryRow N S M T :=
  { name := st.name, status := st.status, message := st.message,
    startedAt := st.occurredAt, tentativeEndedAt := st.occurredAt, endedAt := none }

/-- The row, known to last until `t`. -/
def HistoryRow.extend (r : HistoryRow N S M T) (t : T) : HistoryRow N S M T :=
  { r with tentativeEndedAt := t }

def HistoryRow.close (r : HistoryRow N S M T) (t : T) : HistoryRow N S M T :=
  { r with endedAt := some t, tentativeEndedAt := t }

/-- The history part of the loop: the history, and whether the record is an anomaly. -/
def reconcileHistory (history : List (HistoryRow N S M T)) (st : Staged N S M T) :
    Except Abort (List (HistoryRow N S M T) × Bool) :=
  match previous history st.name st.occurredAt with
  | none => do
    let history ← insertHistory (opened st) history
    return (history, false)
  | some prev =>
    if prev.endedAt = none ∧ prev.tentativeEndedAt < st.occurredAt ∧ prev.status = st.status then
      do
        let history ← updateHistory prev (prev.extend st.occurredAt) history
        return (history, false)
    else if prev.endedAt = none ∧ prev.tentativeEndedAt < st.occurredAt ∧
        prev.status ≠ st.status then
      do
        let history ← updateHistory prev (prev.close st.occurredAt) history
        let history ← insertHistory (opened st) history
        return (history, false)
    else .ok (history, true)

/-! ## The loop -/

/-- One pass of the loop. -/
def process (t : Tables N S M T) (st : Staged N S M T) : Except Abort (Tables N S M T) := do
  let states ← reconcileState t.states st
  let (history, anomaly) ← reconcileHistory t.history st
  return { staging := t.staging.filter (· ≠ st), states := states, history := history
           anomalies := if anomaly then t.anomalies ++ [st] else t.anomalies }

/-- `ORDER BY occurred_at, name`. -/
def precedes (collate : N → N → Bool) (a b : Staged N S M T) : Bool :=
  a.occurredAt < b.occurredAt || (a.occurredAt = b.occurredAt && collate a.name b.name)

/-- The batch is one that `SELECT ... ORDER BY occurred_at, name LIMIT 500` may return: ties
may come in any order. -/
def selectable (collate : N → N → Bool) (staging batch : List (Staged N S M T)) : Bool :=
  batch.length = min 500 staging.length && (batch ++ staging.diff batch).isPerm staging &&
    batch.Pairwise (precedes collate · ·) &&
    batch.all fun a => (staging.diff batch).all fun b => precedes collate a b

/-- What happens to the tables: a record is staged, or `reconcile()` is called and selects a
batch. -/
inductive Call (N S M T : Type) where
  | stage (r : Staged N S M T)
  | reconcile (batch : List (Staged N S M T))

/-- What a call does to the tables, and the records it processes. -/
def call (collate : N → N → Bool) (t : Tables N S M T) :
    Call N S M T → Except Abort (Tables N S M T × List (Staged N S M T))
  | .stage r => .ok ({ t with staging := t.staging ++ [r] }, [])
  | .reconcile batch =>
    if selectable collate t.staging batch then do
      let t ← batch.foldlM process t
      return (t, batch)
    else .error .notSelected

end Model

/-! ## What a record does to the history -/

section Steps

variable [LinearOrder T]

/-- The constraints of `history`. -/
structure HistoryOk (h : List (HistoryRow N S M T)) : Prop where
  keys : (h.map fun r => (r.name, r.startedAt)).Nodup
  checks : ∀ r ∈ h, r.check = true

/-- The row that `reconcile` compares a record with. -/
structure Latest (h : List (HistoryRow N S M T)) (st : Staged N S M T)
    (prev : HistoryRow N S M T) : Prop where
  mem : prev ∈ h
  name_eq : prev.name = st.name
  start_le : prev.startedAt ≤ st.occurredAt
  latest : ∀ r ∈ h, r.name = st.name → r.startedAt ≤ st.occurredAt → r.startedAt ≤ prev.startedAt

/-- The four branches, on the rows in any order. The flag tells an anomaly. -/
inductive HistoryStep (h : List (HistoryRow N S M T)) (st : Staged N S M T) :
    List (HistoryRow N S M T) → Bool → Prop
  | opens {h'} (hnone : ∀ r ∈ h, r.name = st.name → st.occurredAt < r.startedAt)
      (hperm : h'.Perm (opened st :: h)) : HistoryStep h st h' false
  | continues {h' prev rest} (hlatest : Latest h st prev) (hopen : prev.endedAt = none)
      (hafter : prev.tentativeEndedAt < st.occurredAt) (hrest : h.Perm (prev :: rest))
      (hperm : h'.Perm (prev.extend st.occurredAt :: rest)) :
      HistoryStep h st h' false
  | changes {h' prev rest} (hlatest : Latest h st prev) (hopen : prev.endedAt = none)
      (hafter : prev.tentativeEndedAt < st.occurredAt) (hrest : h.Perm (prev :: rest))
      (hperm : h'.Perm (opened st :: prev.close st.occurredAt :: rest)) :
      HistoryStep h st h' false
  | anomaly {prev} (hlatest : Latest h st prev)
      (hodd : prev.endedAt = none → st.occurredAt ≤ prev.tentativeEndedAt) :
      HistoryStep h st h true

variable {h h' : List (HistoryRow N S M T)} {st : Staged N S M T} {prev : HistoryRow N S M T}

theorem HistoryOk.perm (hok : HistoryOk h) (hperm : h'.Perm h) : HistoryOk h' :=
  ⟨(hperm.map _).nodup_iff.mpr hok.keys, fun r hr => hok.checks r (hperm.mem_iff.mp hr)⟩

/-- Two rows of one name do not start together. -/
theorem HistoryOk.eq_of_key (hok : HistoryOk h) {a b : HistoryRow N S M T} (ha : a ∈ h)
    (hb : b ∈ h) (hname : a.name = b.name) (hstart : a.startedAt = b.startedAt) : a = b :=
  List.inj_on_of_nodup_map hok.keys ha hb (by simp [hname, hstart])

theorem HistoryOk.cons_iff {r : HistoryRow N S M T} :
    HistoryOk (r :: h) ↔ HistoryOk h ∧ r.check = true ∧
      ∀ r' ∈ h, r'.name = r.name → r'.startedAt ≠ r.startedAt := by
  constructor
  · intro hok
    obtain ⟨hnotMem, hkeys⟩ := List.nodup_cons.mp hok.keys
    refine ⟨⟨hkeys, fun r' hr' => hok.checks r' (by simp [hr'])⟩, hok.checks r (by simp), ?_⟩
    intro r' hr' hname hstart
    exact hnotMem (List.mem_map.mpr ⟨r', hr', by simp [hname, hstart]⟩)
  · rintro ⟨hok, hcheck, hfresh⟩
    refine ⟨List.nodup_cons.mpr ⟨fun hmem => ?_, hok.keys⟩, ?_⟩
    · obtain ⟨r', hr', hkey⟩ := List.mem_map.mp hmem
      exact hfresh r' hr' (Prod.mk.inj hkey).1 (Prod.mk.inj hkey).2
    · simpa using ⟨hcheck, hok.checks⟩

theorem check_opened (st : Staged N S M T) : (opened st).check = true := by
  simp [HistoryRow.check, opened]

theorem HistoryRow.start_le_of_check {r : HistoryRow N S M T} (hr : r.check = true) :
    r.startedAt ≤ r.tentativeEndedAt := by
  simp only [HistoryRow.check, Bool.and_eq_true, decide_eq_true_eq] at hr
  exact hr.1

theorem HistoryOk.close (hok : HistoryOk (prev :: h)) {t : T} (ht : prev.startedAt ≤ t) :
    HistoryOk (prev.close t :: h) := by
  obtain ⟨hh, -, hkey⟩ := HistoryOk.cons_iff.mp hok
  exact HistoryOk.cons_iff.mpr ⟨hh, by simp [HistoryRow.check, HistoryRow.close, ht], hkey⟩

theorem HistoryOk.extend (hok : HistoryOk (prev :: h)) (hopen : prev.endedAt = none) {t : T}
    (ht : prev.startedAt ≤ t) : HistoryOk (prev.extend t :: h) := by
  obtain ⟨hh, -, hkey⟩ := HistoryOk.cons_iff.mp hok
  exact HistoryOk.cons_iff.mpr ⟨hh, by simp [HistoryRow.check, HistoryRow.extend, hopen, ht], hkey⟩

/-- A record after the end of the latest row starts after every row of its name that does not
start after the record. -/
theorem Latest.fresh (hlatest : Latest h st prev) (hok : HistoryOk h)
    (hafter : prev.tentativeEndedAt < st.occurredAt) :
    ∀ r ∈ h, r.name = st.name → r.startedAt ≠ st.occurredAt := by
  intro r hr hname heq
  have hstart := prev.start_le_of_check (hok.checks prev hlatest.mem)
  have hle := hlatest.latest r hr hname heq.le
  exact absurd (heq ▸ hle) (not_le.mpr (hstart.trans_lt hafter))

/-- A step keeps the constraints. -/
theorem HistoryStep.ok {b : Bool} (hstep : HistoryStep h st h' b) (hok : HistoryOk h) :
    HistoryOk h' := by
  cases hstep with
  | opens hnone hperm =>
    refine HistoryOk.perm ?_ hperm
    exact HistoryOk.cons_iff.mpr ⟨hok, check_opened st, fun r hr hname => (hnone r hr hname).ne'⟩
  | continues hlatest hopen hafter hrest hperm =>
    exact ((hok.perm hrest.symm).extend hopen hlatest.start_le).perm hperm
  | changes hlatest hopen hafter hrest hperm =>
    refine HistoryOk.perm ?_ hperm
    refine HistoryOk.cons_iff.mpr ⟨(hok.perm hrest.symm).close hlatest.start_le,
      check_opened st, ?_⟩
    have hfresh := hlatest.fresh hok hafter
    simp only [hrest.mem_iff, List.forall_mem_cons] at hfresh
    exact List.forall_mem_cons.mpr hfresh
  | anomaly hlatest hodd => exact hok

section Decidable

variable [DecidableEq N]

theorem previous_spec (h : List (HistoryRow N S M T)) (st : Staged N S M T) :
    match previous h st.name st.occurredAt with
    | none => ∀ r ∈ h, r.name = st.name → st.occurredAt < r.startedAt
    | some prev => Latest h st prev := by
  have hmem : ∀ r, r ∈ h.filter (fun r => r.name = st.name && r.startedAt ≤ st.occurredAt) ↔
      r ∈ h ∧ r.name = st.name ∧ r.startedAt ≤ st.occurredAt := by
    simp
  unfold previous
  cases hp : (h.filter fun r => r.name = st.name && r.startedAt ≤ st.occurredAt).argmax
      HistoryRow.startedAt with
  | none =>
    rw [List.argmax_eq_none] at hp
    intro r hr hname
    by_contra hle
    exact List.not_mem_nil (hp ▸ (hmem r).mpr ⟨hr, hname, not_lt.mp hle⟩)
  | some prev =>
    obtain ⟨hh, hname, hle⟩ := (hmem prev).mp (List.argmax_mem hp)
    exact ⟨hh, hname, hle, fun r hr hrname hrle =>
      List.le_of_mem_argmax ((hmem r).mpr ⟨hr, hrname, hrle⟩) hp⟩

/-- Replacing a row among rows that all differ. -/
theorem map_update_perm {α : Type} [DecidableEq α] {l : List α} (hl : l.Nodup) {a : α} (ha : a ∈ l)
    (b : α) : (l.map fun r => if r = a then b else r).Perm (b :: l.erase a) := by
  induction l with
  | nil => cases ha
  | cons c l ih =>
    obtain ⟨hc, hl⟩ := List.nodup_cons.mp hl
    by_cases hca : c = a
    · subst hca
      have hsame : (l.map fun r => if r = c then b else r) = l := by
        conv_rhs => rw [← List.map_id l]
        refine List.map_congr_left fun r hr => if_neg ?_
        rintro rfl
        exact hc hr
      simp [hsame]
    · have ha : a ∈ l := by simpa [Ne.symm hca] using ha
      rw [List.map_cons, if_neg hca, List.erase_cons_tail (by simpa using hca)]
      exact ((ih hl ha).cons c).trans (.swap b c _)

theorem insertHistory_of_fresh {row : HistoryRow N S M T} (hcheck : row.check = true)
    (hfresh : ∀ r ∈ h, r.name = row.name → r.startedAt ≠ row.startedAt) :
    insertHistory row h = .ok (h ++ [row]) := by
  rw [insertHistory, if_pos]
  simp only [Bool.and_eq_true, List.all_eq_true, Bool.or_eq_true, decide_eq_true_eq]
  exact ⟨hcheck, fun r hr => or_iff_not_imp_left.mpr fun hname => hfresh r hr (not_not.mp hname)⟩

variable [DecidableEq S] [DecidableEq M]

theorem updateHistory_of_check {row : HistoryRow N S M T} (hok : HistoryOk h) (hprev : prev ∈ h)
    (hcheck : row.check = true) :
    ∃ h', updateHistory prev row h = .ok h' ∧ h'.Perm (row :: h.erase prev) :=
  ⟨_, if_pos hcheck, map_update_perm (hok.keys.of_map _) hprev row⟩

/-- No constraint stops the history part of the loop, and it takes one of the four branches. -/
theorem reconcileHistory_spec (hok : HistoryOk h) (st : Staged N S M T) :
    ∃ h' b, reconcileHistory h st = .ok (h', b) ∧ HistoryStep h st h' b := by
  have hspec := previous_spec h st
  unfold reconcileHistory
  cases hp : previous h st.name st.occurredAt with
  | none =>
    simp only [hp] at hspec
    have hinsert := insertHistory_of_fresh (check_opened st)
      (fun r hr hname => (hspec r hr hname).ne')
    refine ⟨h ++ [opened st], false, by simp [hinsert, bind, Except.bind, pure, Except.pure], ?_⟩
    exact .opens hspec List.perm_append_comm
  | some prev =>
    simp only [hp] at hspec
    have hrest : h.Perm (prev :: h.erase prev) := List.perm_cons_erase hspec.mem
    by_cases hopen : prev.endedAt = none ∧ prev.tentativeEndedAt < st.occurredAt
    · obtain ⟨hopen, hafter⟩ := hopen
      have hcons := hok.perm hrest.symm
      by_cases hstatus : prev.status = st.status
      · obtain ⟨h', hupdate, hperm⟩ := updateHistory_of_check hok hspec.mem
          (HistoryOk.cons_iff.mp (hcons.extend hopen hspec.start_le)).2.1
        refine ⟨h', false, ?_, .continues hspec hopen hafter hrest hperm⟩
        simp [hopen, hafter, hstatus, hupdate, bind, Except.bind, pure, Except.pure]
      · have hclosed := hcons.close hspec.start_le
        obtain ⟨h₁, hupdate, hperm⟩ := updateHistory_of_check hok hspec.mem
          (HistoryOk.cons_iff.mp hclosed).2.1
        have hfresh : ∀ r ∈ h₁, r.name = st.name → r.startedAt ≠ st.occurredAt := by
          have hfresh := hspec.fresh hok hafter
          simp only [hrest.mem_iff, List.forall_mem_cons] at hfresh
          simp only [hperm.mem_iff, List.forall_mem_cons]
          exact hfresh
        have hinsert := insertHistory_of_fresh (check_opened st) hfresh
        refine ⟨h₁ ++ [opened st], false, ?_, .changes hspec hopen hafter hrest ?_⟩
        · simp [hopen, hafter, hstatus, hupdate, hinsert, bind, Except.bind, pure, Except.pure]
        · exact List.perm_append_comm.trans (hperm.cons _)
    · refine ⟨h, true, ?_, .anomaly hspec fun hnone => ?_⟩
      · have hfirst : ¬(prev.endedAt = none ∧ prev.tentativeEndedAt < st.occurredAt ∧
            prev.status = st.status) := fun hand => hopen ⟨hand.1, hand.2.1⟩
        have hsecond : ¬(prev.endedAt = none ∧ prev.tentativeEndedAt < st.occurredAt ∧
            prev.status ≠ st.status) := fun hand => hopen ⟨hand.1, hand.2.1⟩
        simp only [if_neg hfirst, if_neg hsecond]
      · exact not_lt.mp fun hafter => hopen ⟨hnone, hafter⟩

/-! ## No call fails -/

omit [DecidableEq S] [DecidableEq M] [DecidableEq N] in
/-- The constraints of `states`. -/
structure StatesOk (l : List (StateRow N S M T)) : Prop where
  keys : (l.map StateRow.name).Nodup
  checks : ∀ r ∈ l, r.check = true

omit [DecidableEq S] [DecidableEq M] in
theorem updateStates_ok {l : List (StateRow N S M T)} (hok : StatesOk l) {name : N}
    {f : StateRow N S M T → StateRow N S M T} (hname : ∀ r, (f r).name = r.name)
    (hcheck : ∀ r ∈ l, r.name = name → (f r).check = true) :
    ∃ l', updateStates name f l = .ok l' ∧ StatesOk l' := by
  have hkeys : (l.map fun r => if r.name = name then f r else r).map StateRow.name =
      l.map StateRow.name := by
    rw [List.map_map]
    refine List.map_congr_left fun r _ => ?_
    simp only [Function.comp_apply]
    split <;> simp [hname]
  have hall : ∀ r ∈ l.map (fun r => if r.name = name then f r else r), r.check = true := by
    intro r hr
    obtain ⟨r', hr', rfl⟩ := List.mem_map.mp hr
    split
    · exact hcheck r' hr' ‹_›
    · exact hok.checks r' hr'
  exact ⟨_, if_pos (List.all_eq_true.mpr hall), hkeys ▸ hok.keys, hall⟩

omit [DecidableEq M] in
theorem reconcileState_ok {l : List (StateRow N S M T)} (hok : StatesOk l) (st : Staged N S M T) :
    ∃ l', reconcileState l st = .ok l' ∧ StatesOk l' := by
  unfold reconcileState
  cases hfind : l.find? (·.name = st.name) with
  | none =>
    have hfresh : ∀ r ∈ l, r.name ≠ st.name := by simpa using hfind
    refine ⟨_, if_pos ?_, ?_, ?_⟩
    · simpa [StateRow.check] using hfresh
    · simp only [List.map_append, List.map_cons, List.map_nil]
      refine hok.keys.append (List.nodup_singleton _) ?_
      simpa using hfresh
    · simpa [StateRow.check, or_imp, forall_and] using hok.checks
  | some cur =>
    have hcur : cur.name = st.name := by simpa using List.find?_some hfind
    have hmem := List.mem_of_find?_eq_some hfind
    simp only
    split
    · rename_i hlt
      split
      · exact updateStates_ok hok (fun _ => rfl) fun _ _ _ => by simp [StateRow.check]
      · refine updateStates_ok hok (fun _ => rfl) fun r hr hname => ?_
        obtain rfl : r = cur := List.inj_on_of_nodup_map hok.keys hr hmem (hname.trans hcur.symm)
        have hle := hok.checks r hr
        simp only [StateRow.check, decide_eq_true_eq] at hle ⊢
        exact hle.trans hlt.le
    · exact ⟨l, rfl, hok⟩

omit [DecidableEq N] [DecidableEq S] [DecidableEq M] in
structure TablesOk (t : Tables N S M T) : Prop where
  states : StatesOk t.states
  history : HistoryOk t.history

/-- One record: the tables stay well kept, and the history takes one of the four steps. -/
theorem process_spec {t : Tables N S M T} (hok : TablesOk t) (st : Staged N S M T) :
    ∃ t' b, process t st = .ok t' ∧ TablesOk t' ∧ HistoryStep t.history st t'.history b ∧
      t'.anomalies = if b then t.anomalies ++ [st] else t.anomalies := by
  obtain ⟨states, hstates, hstatesOk⟩ := reconcileState_ok hok.states st
  obtain ⟨history, b, hhistory, hstep⟩ := reconcileHistory_spec hok.history st
  have hprocess : process t st = .ok ⟨t.staging.filter (· ≠ st), states, history,
      if b then t.anomalies ++ [st] else t.anomalies⟩ := by
    simp only [process, hstates, hhistory, bind, Except.bind, pure, Except.pure]
  exact ⟨_, b, hprocess, ⟨hstatesOk, hstep.ok hok.history⟩, hstep, rfl⟩

omit [DecidableEq N] [DecidableEq S] [DecidableEq M] in
theorem tablesOk_empty : TablesOk (Tables.empty N S M T) :=
  ⟨⟨.nil, by simp [Tables.empty]⟩, ⟨.nil, by simp [Tables.empty]⟩⟩

section Runs

variable {collate : N → N → Bool} {P : Tables N S M T → List (Staged N S M T) → Prop}

/-- The loop over a batch never fails, and keeps what each record keeps. -/
theorem foldlM_process_spec
    (hprocess : ∀ t ps st t' b, TablesOk t → P t ps → HistoryStep t.history st t'.history b →
      t'.anomalies = (if b then t.anomalies ++ [st] else t.anomalies) → P t' (ps ++ [st]))
    {t : Tables N S M T} (ps : List (Staged N S M T)) (hok : TablesOk t) (ht : P t ps)
    (batch : List (Staged N S M T)) :
    ∃ t', batch.foldlM process t = .ok t' ∧ TablesOk t' ∧ P t' (ps ++ batch) := by
  induction batch generalizing t ps with
  | nil => exact ⟨t, rfl, hok, by simpa using ht⟩
  | cons st batch ih =>
    obtain ⟨t₁, b, hst, hok₁, hstep, hanomalies⟩ := process_spec hok st
    obtain ⟨t', hrest, hok', ht'⟩ := ih _ hok₁ (hprocess t ps st t₁ b hok ht hstep hanomalies)
    refine ⟨t', ?_, hok', by simpa using ht'⟩
    rw [List.foldlM_cons, hst]
    exact hrest

/-- A relation between the tables and the records processed so far holds after every run if it
is kept when a record is staged and when one is processed. -/
theorem run_processed
    (hstage : ∀ t ps r, P t ps → P { t with staging := t.staging ++ [r] } ps)
    (hprocess : ∀ t ps st t' b, TablesOk t → P t ps → HistoryStep t.history st t'.history b →
      t'.anomalies = (if b then t.anomalies ++ [st] else t.anomalies) → P t' (ps ++ [st]))
    (hempty : P (Tables.empty N S M T) []) {cs : List (Call N S M T)} {t : Tables N S M T}
    {ps : List (Staged N S M T)}
    (hrun : Machine.run (call collate) (Tables.empty N S M T) cs = .ok (t, ps)) : P t ps := by
  have hstep : ∀ (t : Tables N S M T) c t' out ps, TablesOk t ∧ P t ps → True →
      call collate t c = .ok (t', out) → TablesOk t' ∧ P t' (ps ++ out) := by
    rintro t c t' out ps ⟨hok, ht⟩ - hcall
    cases c with
    | stage r =>
      obtain ⟨rfl, rfl⟩ := Prod.mk.inj (Except.ok.inj hcall)
      exact ⟨⟨hok.states, hok.history⟩, by simpa using hstage t ps r ht⟩
    | reconcile batch =>
      simp only [call] at hcall
      split at hcall
      · obtain ⟨t₁, hbatch, hok₁, ht₁⟩ := foldlM_process_spec hprocess _ hok ht batch
        simp only [hbatch, bind, Except.bind, pure, Except.pure, Except.ok.injEq,
          Prod.mk.injEq] at hcall
        obtain ⟨rfl, rfl⟩ := hcall
        exact ⟨hok₁, ht₁⟩
      · cases hcall
  exact (Machine.run_outputs hstep ⟨tablesOk_empty, hempty⟩ (fun _ _ => trivial) hrun).2

/-- No constraint is ever violated: the only calls that fail name a batch that cannot be
selected. -/
theorem run_never_violates (cs : List (Call N S M T)) :
    Machine.run (call collate) (Tables.empty N S M T) cs ≠ .error .violation := by
  have hstep : ∀ (t : Tables N S M T) c, TablesOk t →
      Meets .violation (fun r => TablesOk r.1) (call collate t c) := by
    intro t c hok
    cases c with
    | stage r => exact ⟨hok.states, hok.history⟩
    | reconcile batch =>
      simp only [call]
      split
      · obtain ⟨t₁, hbatch, hok₁, -⟩ := foldlM_process_spec (P := fun _ _ => True)
          (fun _ _ _ _ _ _ _ _ _ => trivial) [] hok trivial batch
        rw [hbatch]
        exact hok₁
      · simp
  exact (Machine.run_meets hstep tablesOk_empty cs).ne_bad

end Runs

end Decidable

end Steps

end Bolo.Postgres
