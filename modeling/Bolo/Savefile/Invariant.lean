import Bolo.Kernel.WellFormed
import Bolo.Savefile.Format

/-!
# The structural invariant and the save file

Whatever the mapped file holds, `binf_read` leaves a well-formed database well formed and
reads through no NULL pointer: a record that is accepted has all its strings, and a
datapoint that a record creates gets its type or window from a rule. It divides nothing, so
positive windows stay so. Saving a well-formed database meets no NULL pointer either.

`core_kernel_thread` restores once, before the first message. `Activity` allows a restore
at any point of a run, since the invariant does not depend on it.
-/
namespace Bolo

open Library

variable {R Re : Type}

/-! ## Reading records -/

/-- A record with all its strings. -/
def Payload.Complete (p : Payload R) : Prop := ∀ t ∈ p.texts, ∃ s, t = some s

variable {bad : Fault}

theorem inBounds_meets (hb : bad ≠ .outOfBounds) {α : Type} (q : Option α) :
    Meets bad (fun _ => True) (inBounds q) := by
  cases q with
  | none => exact hb.symm
  | some a => trivial

theorem readStrings_meets (hb : bad ≠ .outOfBounds) (len size : Nat) (m : Mapping) :
    Meets bad (fun _ => True) (readStrings len size m) := by
  unfold readStrings
  split
  · exact hb.symm
  · exact inBounds_meets hb _

theorem secondString_meets (hb : bad ≠ .outOfBounds) (buf : List UInt8) :
    Meets bad (fun _ => True) (secondString buf) := by
  unfold secondString
  split
  · trivial
  · split
    · trivial
    · exact hb.symm

variable [Double R]

theorem readFields_meets (hb : bad ≠ .outOfBounds) (type len : Nat) (m : Mapping) :
    Meets bad (fun r => ∀ p : Payload R, r.1 = some p → p.Complete)
      (readFields type len m) := by
  unfold readFields
  split
  · refine (inBounds_meets hb _).bind fun b _ => (readStrings_meets hb _ _ _).bind fun r _ => ?_
    refine (secondString_meets hb r.1).bind fun second _ => ?_
    cases second <;> simp [Payload.Complete, Payload.texts]
  · refine (inBounds_meets hb _).bind fun b _ => (readStrings_meets hb _ _ _).bind fun r _ => ?_
    simp [Payload.Complete, Payload.texts]
  · refine (inBounds_meets hb _).bind fun b _ => (readStrings_meets hb _ _ _).bind fun r _ => ?_
    simp [Payload.Complete, Payload.texts]
  · refine (inBounds_meets hb _).bind fun b _ => (readStrings_meets hb _ _ _).bind fun r _ => ?_
    refine (secondString_meets hb r.1).bind fun second _ => ?_
    cases second <;> simp [Payload.Complete, Payload.texts]
  · refine (inBounds_meets hb _).bind fun b _ => (readStrings_meets hb _ _ _).bind fun r _ => ?_
    simp only
    split <;> simp [Payload.Complete, Payload.texts]
  · simp

theorem sReadRecord_meets (hb : bad ≠ .outOfBounds) (m : Mapping) :
    Meets bad (fun r => ∀ p : Payload R, r.1 = some p → p.Complete) (sReadRecord m) :=
  (inBounds_meets hb _).bind fun _ _ => readFields_meets hb _ _ _

/-! ## Merging them -/

variable [Pcre Re] [HashOrder]

omit [Double R] in
theorem Series.restore_safe {α V : Type} (S : Series R Re α V) {db : Db R Re}
    (hr : ∀ r ∈ S.rules db, ∃ w, r.target = some w ∧ w.Sound bad)
    (ht : (S.table db).All (S.Safe bad)) (merge : α → α)
    (hmerge : ∀ name x, S.Safe bad name x → S.Safe bad name (merge x)) (name : CString) :
    ∃ t, S.restore merge db name = S.setTable db t ∧ t.All (S.Safe bad) := by
  unfold restore
  cases hf : S.find db name with
  | none => exact ⟨S.table db, by simp, ht⟩
  | some r =>
    obtain ⟨x, db'⟩ := r
    obtain ⟨t, rfl, hx, hentry⟩ := S.find_safe hr ht hf
    exact ⟨hashSet t name (merge x), by simp, All.hashSet hentry (hmerge _ _ hx)⟩

theorem restoreRecord_meets {db : Db R Re} (h : db.Safe bad) (now : Int32) {p : Payload R}
    (hp : p.Complete) : Meets bad (fun db' => db'.Safe bad) (restoreRecord now db p) := by
  cases p with
  | state s =>
    obtain ⟨name, hname⟩ := hp s.name (by simp [Payload.texts])
    obtain ⟨text, htext⟩ := hp s.summary (by simp [Payload.texts])
    refine (deref_meets hname).bind fun n _ => ?_
    refine (findState_meets h.stateMatches h.states now n).bind fun r hr => ?_
    cases r with
    | none => exact h
    | some r =>
      obtain ⟨hwf, t, hdb, ht⟩ := hr r.1 r.2 rfl
      have hx : (mergeState s r.1).Wf n := ⟨hwf.type, hwf.name, text, htext⟩
      have hdb' : r.2.Safe bad := hdb ▸ { h with states := ht }
      exact { hdb' with states := All.hashSet hdb'.states hx }
  | counter c =>
    obtain ⟨name, hname⟩ := hp c.name (by simp [Payload.texts])
    refine (deref_meets hname).bind fun n _ => ?_
    obtain ⟨t, hdb, ht⟩ := counterSeries.restore_safe h.counterMatches h.counters
      (mergeCounter c) (fun _ _ hx => ⟨hx.window, hx.name⟩) n
    exact Meets.pure_iff.mpr (hdb ▸ { h with counters := ht })
  | sample s =>
    obtain ⟨name, hname⟩ := hp s.name (by simp [Payload.texts])
    refine (deref_meets hname).bind fun n _ => ?_
    obtain ⟨t, hdb, ht⟩ := sampleSeries.restore_safe h.sampleMatches h.samples
      (mergeSample s) (fun _ _ hx => ⟨hx.window, hx.name⟩) n
    exact Meets.pure_iff.mpr (hdb ▸ { h with samples := ht })
  | event ev =>
    obtain ⟨name, hname⟩ := hp ev.name (by simp [Payload.texts])
    obtain ⟨extra, hextra⟩ := hp ev.extra (by simp [Payload.texts])
    refine { h with events := fun e he => ?_ }
    rcases List.mem_append.mp he with he | he
    · exact h.events e he
    · obtain rfl := List.mem_singleton.mp he
      exact ⟨⟨name, hname⟩, extra, hextra⟩
  | rate r =>
    obtain ⟨name, hname⟩ := hp r.name (by simp [Payload.texts])
    refine (deref_meets hname).bind fun n _ => ?_
    obtain ⟨t, hdb, ht⟩ := rateSeries.restore_safe h.rateMatches h.rates
      (mergeRate r) (fun _ _ hx => ⟨hx.window, hx.name⟩) n
    exact Meets.pure_iff.mpr (hdb ▸ { h with rates := ht })

theorem readRecords_meets (hb : bad ≠ .outOfBounds) (clock : Nat → Int32) (n i : Nat) (m : Mapping)
    {db : Db R Re} (h : db.Safe bad) :
    Meets bad (fun r => r.2.Safe bad) (readRecords clock n i m db) := by
  induction n generalizing i m db with
  | zero => exact h
  | succ n ih =>
    refine (sReadRecord_meets hb m).bind fun r hr => ?_
    obtain ⟨p, m'⟩ := r
    cases p with
    | none => exact h
    | some p => exact (restoreRecord_meets h (clock i) (hr p rfl)).bind fun db' hdb => ih _ _ hdb

/-- Reading any file keeps the invariant. -/
theorem binfRead_meets (hb : bad ≠ .outOfBounds) (clock : Nat → Int32) (m : Mapping) {db : Db R Re}
    (h : db.Safe bad) : Meets bad (fun r => r.2.Safe bad) (binfRead clock m db) := by
  refine (inBounds_meets hb (m.take 16)).bind fun r _ => ?_
  simp only
  split
  · exact h
  split
  · exact h
  refine (readRecords_meets hb clock _ 1 _ h).bind fun r hr => ?_
  obtain ⟨m', db'⟩ := r
  cases m' with
  | none => exact hr
  | some m' => exact (inBounds_meets hb (m'.take 2)).bind fun _ _ => hr

/-! ## Events -/

omit [Pcre Re] [HashOrder] in
/-- The first `n` records, as far as they can be read. -/
def readable : Nat → Mapping → List (Payload R)
  | 0, _ => []
  | n + 1, m =>
    match sReadRecord m with
    | .ok (some p, m') => p :: readable n m'
    | _ => []

omit [Pcre Re] [HashOrder] in
/-- The records that `binf_read` merges. -/
def mergedRecords (R : Type) [Double R] (m : Mapping) : List (Payload R) :=
  match m.take 16 with
  | none => []
  | some (head, m') =>
    if head.take 4 = CString.ascii "BOLO" ∧ (uint 2 (head.drop 4)).1 = 1 then
      readable (uint 4 (head.drop 12)).1 m'
    else []

omit [Double R] [Pcre Re] [HashOrder] in
def Payload.event? : Payload R → Option Event
  | .event ev => some ev
  | _ => none

omit [Double R] in
theorem Series.restore_setTable {α V : Type} (S : Series R Re α V) (merge : α → α)
    (db : Db R Re) (name : CString) : ∃ t, S.restore merge db name = S.setTable db t := by
  have hfind := S.find_spec db name
  unfold restore
  cases hf : S.find db name with
  | none => exact ⟨S.table db, by simp⟩
  | some r =>
    obtain ⟨x, db'⟩ := r
    rw [hf] at hfind
    obtain ⟨t, rfl, -⟩ := hfind
    exact ⟨_, S.setTable_setTable db t _⟩

/-- A record pushes the event it holds, and nothing counts it. -/
theorem restoreRecord_events {now : Int32} {db db' : Db R Re} {p : Payload R}
    (h : restoreRecord now db p = .ok db') :
    db'.events = db.events ++ p.event?.toList ∧ db'.eventsCount = db.eventsCount := by
  cases p with
  | state s =>
    simp only [restoreRecord, restoreState, bind_eq_ok] at h
    obtain ⟨name, -, r, hr, h⟩ := h
    cases r with
    | none =>
      obtain rfl := pure_eq_ok.mp h
      simp [Payload.event?]
    | some r =>
      obtain ⟨-, t, hdb, -⟩ := findState_spec hr
      obtain rfl := pure_eq_ok.mp h
      simp [Payload.event?, hdb]
  | counter c =>
    simp only [restoreRecord, restoreCounter, bind_eq_ok, pure_eq_ok] at h
    obtain ⟨name, -, rfl⟩ := h
    obtain ⟨t, ht⟩ := counterSeries.restore_setTable (mergeCounter c) db name
    exact ht ▸ ⟨(List.append_nil _).symm, rfl⟩
  | sample s =>
    simp only [restoreRecord, restoreSample, bind_eq_ok, pure_eq_ok] at h
    obtain ⟨name, -, rfl⟩ := h
    obtain ⟨t, ht⟩ := sampleSeries.restore_setTable (mergeSample s) db name
    exact ht ▸ ⟨(List.append_nil _).symm, rfl⟩
  | rate r =>
    simp only [restoreRecord, restoreRate, bind_eq_ok, pure_eq_ok] at h
    obtain ⟨name, -, rfl⟩ := h
    obtain ⟨t, ht⟩ := rateSeries.restore_setTable (mergeRate r) db name
    exact ht ▸ ⟨(List.append_nil _).symm, rfl⟩
  | event ev =>
    obtain rfl := Except.ok.inj h
    exact ⟨rfl, rfl⟩

theorem readRecords_events {clock : Nat → Int32} {n i : Nat} {m : Mapping} {db : Db R Re}
    {r : Option Mapping × Db R Re} (h : readRecords clock n i m db = .ok r) :
    r.2.events = db.events ++ (readable n m).filterMap (Payload.event? (R := R)) ∧
      r.2.eventsCount = db.eventsCount := by
  induction n generalizing i m db with
  | zero =>
    obtain rfl := Except.ok.inj h
    simp [readable]
  | succ n ih =>
    simp only [readRecords, bind_eq_ok] at h
    obtain ⟨⟨p, m'⟩, hread, h⟩ := h
    cases p with
    | none =>
      obtain rfl := pure_eq_ok.mp h
      simp [readable, hread]
    | some p =>
      simp only [bind_eq_ok] at h
      obtain ⟨db', hdb, h⟩ := h
      obtain ⟨hevents, hcount⟩ := restoreRecord_events hdb
      obtain ⟨hrest, hcount'⟩ := ih h
      refine ⟨?_, hcount'.trans hcount⟩
      rw [hrest, hevents, List.append_assoc, readable, hread]
      cases he : p.event? <;> simp [he]

/-- A restore appends the events of the file, and the count does not follow. -/
theorem binfRead_events {clock : Nat → Int32} {m : Mapping} {db : Db R Re}
    {r : Int32 × Db R Re} (h : binfRead clock m db = .ok r) :
    r.2.events = db.events ++ (mergedRecords R m).filterMap Payload.event? ∧
      r.2.eventsCount = db.eventsCount := by
  simp only [binfRead, bind_eq_ok, inBounds_eq_ok] at h
  obtain ⟨⟨head, m'⟩, hhead, h⟩ := h
  simp only [mergedRecords, hhead]
  split at h
  · case isTrue hmagic =>
      obtain rfl := pure_eq_ok.mp h
      simp [hmagic]
  split at h
  · case isTrue hversion =>
      obtain rfl := pure_eq_ok.mp h
      simp [hversion]
  case isFalse.isFalse hmagic hversion =>
    rw [if_pos ⟨not_not.mp hmagic, not_not.mp hversion⟩]
    simp only [bind_eq_ok] at h
    obtain ⟨⟨rest, db'⟩, hread, h⟩ := h
    have hevents := readRecords_events hread
    simp only [uint, List.drop_drop] at hevents
    cases rest with
    | none =>
      obtain rfl := pure_eq_ok.mp h
      exact hevents
    | some rest =>
      simp only [bind_eq_ok, pure_eq_ok] at h
      obtain ⟨_, -, rfl⟩ := h
      exact hevents

/-! ## Writing -/

omit [Pcre Re] [HashOrder] in
theorem Db.Wf.complete {db : Db R Re} (h : db.Wf) : ∀ p ∈ db.payloads, p.Complete := by
  intro p hp
  simp only [Db.payloads, List.mem_append, List.mem_map] at hp
  rcases hp with (((⟨e, he, rfl⟩ | ⟨e, he, rfl⟩) | ⟨e, he, rfl⟩) | ⟨ev, hev, rfl⟩) | ⟨e, he, rfl⟩
  · have hs := h.states e.1 e.2 (Table.get?_of_mem he)
    simpa [Payload.Complete, Payload.texts, hs.name] using hs.summary
  · simpa [Payload.Complete, Payload.texts] using
      ⟨e.1, (h.counters e.1 e.2 (Table.get?_of_mem he)).name⟩
  · simpa [Payload.Complete, Payload.texts] using
      ⟨e.1, (h.samples e.1 e.2 (Table.get?_of_mem he)).name⟩
  · simpa [Payload.Complete, Payload.texts] using ⟨(h.events ev hev).name, (h.events ev hev).extra⟩
  · simpa [Payload.Complete, Payload.texts] using
      ⟨e.1, (h.rates e.1 e.2 (Table.get?_of_mem he)).name⟩

omit [Pcre Re] [HashOrder] in
theorem binfWrite_meets {db : Db R Re} (h : db.Wf) (now dbSize : Int32) :
    Meets .nullDeref (fun _ => True) (binfWrite now dbSize db) := by
  unfold binfWrite
  split
  · trivial
  · refine (Meets.mapM fun p hp => ?_).bind fun records _ => ?_
    · refine (Meets.mapM fun t ht => ?_).bind fun texts _ => trivial
      obtain ⟨s, rfl⟩ := h.complete p hp t ht
      trivial
    · simp only
      split <;> simp

/-! ## Runs with restores -/

/-- A restore from a mapped file, or a message to the kernel. -/
inductive Activity where
  | restore (clock : Nat → Int32) (m : Mapping)
  | message (i : Input)

def activity (k : Kernel R Re) : Activity → Except Fault (Kernel R Re × List Effect)
  | .restore clock m => do
    let (_, db) ← binfRead clock m k.db
    return (k.setDb db, [])
  | .message i => reactor k i

theorem activity_meets (hb : bad ≠ .outOfBounds) {k : Kernel R Re} (h : k.db.Safe bad)
    (a : Activity) : Meets bad (fun r => r.1.db.Safe bad) (activity k a) := by
  cases a with
  | restore clock m => exact (binfRead_meets hb clock m h).bind fun r hr => hr
  | message i => exact reactor_avoids hb h i

/-- Any sequence of restores and messages keeps the invariant and avoids the fault. -/
theorem activities_meets (hb : bad ≠ .outOfBounds) {k : Kernel R Re} (h : k.db.Safe bad)
    (as : List Activity) : Meets bad (fun r => r.1.db.Safe bad) (Machine.run activity k as) :=
  Machine.run_meets (P := fun k : Kernel R Re => k.db.Safe bad)
    (fun _ a hk => activity_meets hb hk a) h as

end Bolo
