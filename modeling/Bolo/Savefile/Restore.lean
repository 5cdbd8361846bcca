import Bolo.Kernel.WellFormed
import Bolo.Savefile.RoundTrip

/-!
# What a restart restores

Merging the records of a database into one of the same configuration: every record finds
its datapoint, records of different datapoints do not disturb each other, and at the end
every saved field is back.
-/
namespace Bolo

open Library

variable {R Re : Type} [Double R] [Pcre Re]

/-- A name that is declared or matched by a rule. -/
def Known {α τ : Type} (t : Table CString α) (rules : List (Rule τ Re)) (name : CString) : Prop :=
  t.get? name ≠ none ∨ firstMatch rules name ≠ none

/-- Every saved name is declared or matched by a rule. -/
structure Recognises (db₀ db : Db R Re) : Prop where
  states : ∀ name s, db.states.get? name = some s → Known db₀.states db₀.stateMatches name
  series : ∀ (κ : Kind) name x, (κ.series.table db).get? name = some x →
    Known (κ.series.table db₀) (κ.series.rules db₀) name

/-- The fields that a save file keeps are back. -/
structure Restored (db db' : Db R Re) : Prop where
  states : ∀ name s, db.states.get? name = some s → ∃ x, db'.states.get? name = some x ∧
    x.lastSeen = s.lastSeen ∧ x.status = s.status ∧ x.stale = s.stale ∧ x.ignore = s.ignore ∧
    x.summary = s.summary
  counters : ∀ name c, db.counters.get? name = some c → ∃ x, db'.counters.get? name = some x ∧
    x.lastSeen = c.lastSeen ∧ x.value = c.value ∧ x.ignore = c.ignore
  samples : ∀ name s, db.samples.get? name = some s → ∃ x, db'.samples.get? name = some x ∧
    x.lastSeen = s.lastSeen ∧ x.n = s.n ∧ x.ignore = s.ignore
  rates : ∀ name r, db.rates.get? name = some r → ∃ x, db'.rates.get? name = some x ∧
    x.firstSeen = r.firstSeen ∧ x.lastSeen = r.lastSeen ∧ x.first = r.first ∧ x.last = r.last ∧
    x.ignore = r.ignore
  events : db'.events = db.events

variable [HashOrder] (clock : Nat → Int32)

theorem restoreAll_append (i : Nat) (db : Db R Re) (ps qs : List (Payload R)) :
    restoreAll clock i db (ps ++ qs) =
      (restoreAll clock i db ps).bind fun db => restoreAll clock (i + ps.length) db qs := by
  induction ps generalizing i db with
  | nil => rfl
  | cons p ps ih =>
    simp only [List.cons_append, restoreAll, bind, Except.bind, List.length_cons]
    cases restoreRecord (clock i) db p with
    | error e => rfl
    | ok db₁ =>
      have h := ih (i + 1) db₁
      rw [Nat.add_assoc, Nat.add_comm 1] at h
      exact h

/-! ## States -/

omit [Double R] [HashOrder] in
/-- Writing one entry keeps every name known. -/
theorem Known.write {α τ : Type} {t t' : Table CString α} {rules : List (Rule τ Re)}
    {name n : CString} {v : α} (h : Known t rules n)
    (ht : ∀ n, t'.get? n = if n = name then some v else t.get? n) : Known t' rules n := by
  refine h.imp_left fun hn => ?_
  rw [ht]
  split
  · simp
  · exact hn

omit [Double R] in
theorem restoreState_spec (now : Int32) {db : Db R Re} (s : State) {name : CString}
    (hname : s.name = some name) (hk : Known db.states db.stateMatches name)
    (htarget : ∀ r ∈ db.stateMatches, ∃ t, r.target = some t) :
    ∃ x t, restoreState now db s = .ok { db with states := t } ∧
      ∀ n, t.get? n = if n = name then some (mergeState s x) else db.states.get? n := by
  have hfound : ∃ x db', findState now db name = .ok (some (x, db')) := by
    unfold findState
    cases hg : db.states.get? name with
    | some x => exact ⟨x, db, rfl⟩
    | none =>
      cases hm : firstMatch db.stateMatches name with
      | none => exact absurd hk (by simp [Known, hg, hm])
      | some target =>
        obtain ⟨r, hr, rfl⟩ := firstMatch_mem hm
        obtain ⟨type, htype⟩ := htarget r hr
        exact ⟨_, _, by simp only [htype, deref_some, bind, Except.bind]; rfl⟩
  obtain ⟨x, db', hfind⟩ := hfound
  obtain ⟨-, t, rfl, ht⟩ := findState_spec hfind
  refine ⟨x, hashSet t name (mergeState s x), ?_, fun n => ?_⟩
  · simp only [restoreState, hname, deref_some, hfind, bind, Except.bind, pure, Except.pure]
  · rw [get?_hashSet, ht]
    split <;> rfl

theorem restoreAll_states (db : Db R Re) (htarget : ∀ r ∈ db.stateMatches, ∃ t, r.target = some t)
    {l : List (CString × State)} (hnodup : (l.map Prod.fst).Nodup)
    (hname : ∀ e ∈ l, e.2.name = some e.1)
    (hknown : ∀ e ∈ l, Known db.states db.stateMatches e.1) (i : Nat) :
    ∃ t, restoreAll clock i db (l.map fun e => (Payload.state e.2).stored) =
        .ok { db with states := t } ∧
      (∀ e ∈ l, ∃ x, t.get? e.1 = some (mergeState e.2 x)) ∧
      ∀ n ∉ l.map Prod.fst, t.get? n = db.states.get? n := by
  induction l generalizing db i with
  | nil => exact ⟨db.states, rfl, by simp, fun _ _ => rfl⟩
  | cons e l ih =>
    obtain ⟨name, s⟩ := e
    obtain ⟨hnew, hnodup⟩ := List.nodup_cons.mp hnodup
    obtain ⟨x, t₁, hstep, ht₁⟩ := restoreState_spec (clock i)
      { s with type := none, expiry := 0 } (hname (name, s) (by simp)) (hknown (name, s) (by simp))
      htarget
    have hknown₁ : ∀ e ∈ l, Known t₁ db.stateMatches e.1 :=
      fun e he => (hknown e (by simp [he])).write ht₁
    obtain ⟨t, hrest, hmem, hother⟩ := ih { db with states := t₁ } htarget hnodup
      (fun e he => hname e (by simp [he])) hknown₁ (i + 1)
    refine ⟨t, ?_, ?_, ?_⟩
    · simp only [List.map_cons, restoreAll, Payload.stored, restoreRecord, hstep, bind, Except.bind]
      exact hrest
    · intro e he
      rcases List.mem_cons.mp he with rfl | he
      · exact ⟨x, (hother name hnew).trans ((ht₁ name).trans (if_pos rfl))⟩
      · exact hmem e he
    · intro n hn
      simp only [List.map_cons, List.mem_cons, not_or] at hn
      exact (hother n hn.2).trans ((ht₁ n).trans (if_neg hn.1))

/-! ## Windowed datapoints -/

section Series

variable {α V : Type} (S : Series R Re α V)

omit [Double R] in
theorem Series.restore_spec {db : Db R Re} {name : CString}
    (hk : Known (S.table db) (S.rules db) name) (merge : α → α) :
    ∃ x t, S.restore merge db name = S.setTable db t ∧
      ∀ n, t.get? n = if n = name then some (merge x) else (S.table db).get? n := by
  have hfind := S.find_spec db name
  unfold Series.restore
  cases hf : S.find db name with
  | none =>
    rw [hf] at hfind
    cases hg : (S.table db).get? name with
    | some x => simp [hg, lookup] at hfind
    | none =>
      cases hm : firstMatch (S.rules db) name with
      | none => exact absurd hk (by simp [Known, hg, hm])
      | some target => simp [hg, hm, lookup] at hfind
  | some r =>
    obtain ⟨x, db'⟩ := r
    rw [hf] at hfind
    obtain ⟨t, rfl, -, ht⟩ := hfind
    refine ⟨x, hashSet t name (merge x), by simp, fun n => ?_⟩
    rw [get?_hashSet, ht]
    split <;> rfl

theorem restoreAll_series (wrap : α → Payload R) (merge : α → α → α)
    (hwrap : ∀ now (db : Db R Re) x name, S.name x = some name →
      restoreRecord now db (wrap x) = .ok (S.restore (merge x) db name))
    (db : Db R Re) {l : List (CString × α)} (hnodup : (l.map Prod.fst).Nodup)
    (hname : ∀ e ∈ l, S.name e.2 = some e.1)
    (hknown : ∀ e ∈ l, Known (S.table db) (S.rules db) e.1) (i : Nat) :
    ∃ t, restoreAll clock i db (l.map fun e => wrap e.2) = .ok (S.setTable db t) ∧
      (∀ e ∈ l, ∃ x, t.get? e.1 = some (merge e.2 x)) ∧
      ∀ n ∉ l.map Prod.fst, t.get? n = (S.table db).get? n := by
  induction l generalizing db i with
  | nil => exact ⟨S.table db, by simp [restoreAll], by simp, fun _ _ => rfl⟩
  | cons e l ih =>
    obtain ⟨name, v⟩ := e
    obtain ⟨hnew, hnodup⟩ := List.nodup_cons.mp hnodup
    obtain ⟨x, t₁, hstep, ht₁⟩ := S.restore_spec (hknown (name, v) (by simp)) (merge v)
    have hknown₁ : ∀ e ∈ l,
        Known (S.table (S.setTable db t₁)) (S.rules (S.setTable db t₁)) e.1 := by
      intro e he
      rw [S.table_setTable, S.rules_setTable]
      exact (hknown e (by simp [he])).write ht₁
    obtain ⟨t, hrest, hmem, hother⟩ :=
      ih (S.setTable db t₁) hnodup (fun e he => hname e (by simp [he])) hknown₁ (i + 1)
    rw [S.table_setTable] at hother
    refine ⟨t, ?_, ?_, ?_⟩
    · simp only [List.map_cons, restoreAll, hwrap _ _ _ _ (hname (name, v) (by simp)), hstep, bind,
        Except.bind, hrest, S.setTable_setTable]
    · intro e he
      rcases List.mem_cons.mp he with rfl | he
      · exact ⟨x, by simp [hother name hnew, ht₁]⟩
      · exact hmem e he
    · intro n hn
      simp only [List.map_cons, List.mem_cons, not_or] at hn
      rw [hother n hn.2, ht₁, if_neg hn.1]

end Series

/-! ## Events -/

theorem restoreAll_events (db : Db R Re) (evs : List Event) (i : Nat) :
    restoreAll clock i db (evs.map Payload.event) =
      .ok { db with events := db.events ++ evs } := by
  induction evs generalizing db i with
  | nil => simp [restoreAll]
  | cons ev evs ih =>
    simp only [List.map_cons, restoreAll, restoreRecord, bind, Except.bind]
    rw [ih]
    simp

/-! ## Databases -/

theorem restoreRecord_counter (now : Int32) (db : Db R Re) {c : Counter} {name : CString}
    (hc : c.name = some name) :
    restoreRecord now db (Payload.counter c : Payload R).stored =
      .ok (counterSeries.restore (mergeCounter c) db name) := by
  simp only [Payload.stored, restoreRecord, restoreCounter, hc]
  rfl

/-- A sample set with the fields that come back from the file. -/
def storedSample (s x : Sample R) : Sample R :=
  mergeSample { s with
    min := storedDouble s.min, max := storedDouble s.max, sum := storedDouble s.sum,
    mean := storedDouble s.mean, mean_ := storedDouble s.mean_, var := storedDouble s.var,
    var_ := storedDouble s.var_ } x

theorem restoreRecord_sample (now : Int32) (db : Db R Re) {s : Sample R} {name : CString}
    (hs : s.name = some name) :
    restoreRecord now db (Payload.sample s).stored =
      .ok (sampleSeries.restore (storedSample s) db name) := by
  simp only [Payload.stored, restoreRecord, restoreSample, hs]
  rfl

theorem restoreRecord_rate (now : Int32) (db : Db R Re) {r : Rate} {name : CString}
    (hr : r.name = some name) :
    restoreRecord now db (Payload.rate r : Payload R).stored =
      .ok (rateSeries.restore (mergeRate r) db name) := by
  simp only [Payload.stored, restoreRecord, restoreRate, hr]
  rfl

/-- A database whose records are complete, each under its own name, with texts that the
reader tells apart and lengths that fit. -/
structure Db.Savable (db : Db R Re) : Prop where
  states : db.states.All fun name s =>
    s.name = some name ∧ ∃ t, s.summary = some t ∧ t.bytes ≠ []
  series : ∀ κ : Kind, (κ.series.table db).All fun name x =>
    (κ.series : Series R Re _ _).name x = some name
  events : ∀ ev ∈ db.events, (∃ t, ev.name = some t) ∧ ∃ t, ev.extra = some t ∧ t.bytes ≠ []
  short : ∀ p ∈ db.payloads, p.size < 2 ^ 16

omit [Double R] [Pcre Re] [HashOrder] in
theorem mem_entries_of_all {α : Type} {t : Table CString α} {P : CString → α → Prop}
    (ht : t.All P) : ∀ e ∈ t.entries, P e.1 e.2 :=
  fun e he => ht e.1 e.2 (Table.get?_of_mem he)

omit [Pcre Re] [HashOrder] in
theorem Db.Savable.full {db : Db R Re} (h : db.Savable) : ∀ p ∈ db.payloads, p.Full := by
  intro p hp
  simp only [Db.payloads, List.mem_append, List.mem_map] at hp
  rcases hp with (((⟨e, he, rfl⟩ | ⟨e, he, rfl⟩) | ⟨e, he, rfl⟩) | ⟨ev, hev, rfl⟩) | ⟨e, he, rfl⟩
  · have hs := mem_entries_of_all h.states e he
    exact ⟨⟨e.1, hs.1⟩, hs.2⟩
  · exact ⟨e.1, mem_entries_of_all (h.series .counter) e he⟩
  · exact ⟨e.1, mem_entries_of_all (h.series .sample) e he⟩
  · exact h.events ev hev
  · exact ⟨e.1, mem_entries_of_all (h.series .rate) e he⟩

/-- Merging the records of one database into another merges them table by table, and leaves
alone the states that are not among them. -/
theorem restoreAll_payloads {db db₀ : Db R Re} (h : db.Savable) (hwf : db₀.Wf)
    (hevents : db₀.events = []) (hknown : Recognises db₀ db) (i : Nat) :
    ∃ db', restoreAll clock i db₀ (db.payloads.map Payload.stored) = .ok db' ∧
      Restored db db' ∧
      ∀ name, db.states.get? name = none → db'.states.get? name = db₀.states.get? name := by
  have hsplit : db.payloads.map Payload.stored =
      db.states.entries.map (fun e => (Payload.state e.2 : Payload R).stored) ++
        (db.counters.entries.map (fun e => (Payload.counter e.2 : Payload R).stored) ++
          (db.samples.entries.map (fun e => (Payload.sample e.2).stored) ++
            (db.events.map Payload.event ++
              db.rates.entries.map fun e => (Payload.rate e.2 : Payload R).stored))) := by
    simp [Db.payloads, Function.comp_def, Payload.stored]
  obtain ⟨states, hstates, hstate, hother⟩ := restoreAll_states clock db₀
    (fun r hr => (hwf.stateMatches r hr).imp fun t ht => ht.1) db.states.nodup
    (fun e he => (mem_entries_of_all h.states e he).1)
    (fun e he => hknown.states e.1 e.2 (Table.get?_of_mem he)) i
  rw [hsplit, restoreAll_append, hstates]
  simp only [Except.bind]
  generalize i + List.length _ = j
  obtain ⟨counters, hcounters, hcounter, -⟩ := restoreAll_series clock counterSeries
    (fun c => (Payload.counter c : Payload R).stored) mergeCounter
    (fun now db c name hc => restoreRecord_counter now db hc) { db₀ with states := states }
    db.counters.nodup (mem_entries_of_all (h.series .counter))
    (fun e he => hknown.series .counter e.1 e.2 (Table.get?_of_mem he)) j
  rw [restoreAll_append, hcounters]
  simp only [Except.bind]
  generalize j + List.length _ = j
  obtain ⟨samples, hsamples, hsample, -⟩ := restoreAll_series clock sampleSeries
    (fun s => (Payload.sample s : Payload R).stored) storedSample
    (fun now db s name hs => restoreRecord_sample now db hs)
    (counterSeries.setTable { db₀ with states := states } counters)
    db.samples.nodup (mem_entries_of_all (h.series .sample))
    (fun e he => hknown.series .sample e.1 e.2 (Table.get?_of_mem he)) j
  rw [restoreAll_append, hsamples]
  simp only [Except.bind]
  generalize j + List.length _ = j
  rw [restoreAll_append, restoreAll_events]
  simp only [Except.bind]
  generalize j + List.length _ = j
  obtain ⟨rates, hrates, hrate, -⟩ := restoreAll_series clock rateSeries
    (fun r => (Payload.rate r : Payload R).stored) mergeRate
    (fun now db r name hr => restoreRecord_rate now db hr)
    { db₀ with
      states := states, counters := counters, samples := samples,
      events := db₀.events ++ db.events }
    db.rates.nodup (mem_entries_of_all (h.series .rate))
    (fun e he => hknown.series .rate e.1 e.2 (Table.get?_of_mem he)) j
  refine ⟨_, hrates, ⟨?_, ?_, ?_, ?_, ?_⟩, ?_⟩
  · intro name s hs
    obtain ⟨x, hx⟩ := hstate (name, s) (Table.mem_of_get? hs)
    exact ⟨_, hx, rfl, rfl, rfl, rfl, rfl⟩
  · intro name c hc
    obtain ⟨x, hx⟩ := hcounter (name, c) (Table.mem_of_get? hc)
    exact ⟨_, hx, rfl, rfl, rfl⟩
  · intro name s hs
    obtain ⟨x, hx⟩ := hsample (name, s) (Table.mem_of_get? hs)
    exact ⟨_, hx, rfl, rfl, rfl⟩
  · intro name r hr
    obtain ⟨x, hx⟩ := hrate (name, r) (Table.mem_of_get? hr)
    exact ⟨_, hx, rfl, rfl, rfl, rfl, rfl⟩
  · change db₀.events ++ db.events = db.events
    rw [hevents, List.nil_append]
  · intro name hnone
    exact hother name (Table.get?_eq_none_iff.mp hnone)

/-- A database that fits is saved, and what is saved is restored. -/
theorem binf_round_trip (now : Int32) {dbSize : Int32} {db db₀ : Db R Re} (h : db.Savable)
    (hfit : (16 + (db.payloads.map Payload.size).sum + 2 : Nat) ≤ mapSize dbSize)
    (hwf : db₀.Wf) (hevents : db₀.events = []) (hknown : Recognises db₀ db) :
    ∃ m db', binfWrite now dbSize db = .ok (some m) ∧ FileOf now db m ∧
      binfRead clock m db₀ = .ok (0, db') ∧ Restored db db' := by
  obtain ⟨m, hwrite, hfile⟩ :=
    binfWrite_spec now (fun p hp => ⟨h.full p hp, h.short p hp⟩) hfit
  obtain ⟨db', hall, hrestored, -⟩ := restoreAll_payloads clock h hwf hevents hknown 1
  exact ⟨m, db', hwrite, hfile, by rw [hfile.binfRead, hall]; rfl, hrestored⟩

end Bolo
