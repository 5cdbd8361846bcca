import Bolo.Agents.Cache
import Bolo.Subscribers.Sqlite

/-!
# A subscriber that comes late

The aggregator, a `bolo cache` that relays its broadcasts, and a `bolo2sqlite` that subscribes
to the cache some time later. From then on it sees what the cache passes on and what the cache
repeats, for itself or for others. Requests and broadcasts reach the cache in any order. After
one repeat the rows of the states are as they should be, for every name that no counter, sample
set or rate shares: the cache keeps one broadcast for a name, whatever it is about.
-/
namespace Bolo.Late

open Library Postgres Sqlite

variable {R Re : Type}

/-- The broadcasts among what the cache receives. -/
def heard (ins : List (Cache.Socket × Pdu)) : List Pdu :=
  ins.filterMap fun i => if i.1 = .subscriber then some i.2 else none

theorem heard_append (ins ins' : List (Cache.Socket × Pdu)) :
    heard (ins ++ ins') = heard ins ++ heard ins' := List.filterMap_append

/-- The last that some broadcasts say about a state. -/
def lastReport (name : CString) (ps : List Pdu) : Option Report :=
  (ps.filterMap (reportOf name)).getLast?

theorem lastReport_append (name : CString) (ps qs : List Pdu) :
    lastReport name (ps ++ qs) = (lastReport name qs).or (lastReport name ps) := by
  simp [lastReport, List.filterMap_append, List.getLast?_append]

/-- Whatever the cache would keep under the name is a report of the state. -/
def Owned (name : CString) (ps : List Pdu) : Prop :=
  ∀ p ∈ ps, Cache.key p = some name → (reportOf name p).isSome

theorem key_of_report {name : CString} {p : Pdu} {r : Report} (h : reportOf name p = some r) :
    Cache.key p = some name := by
  unfold reportOf at h
  split at h
  · case isTrue hp =>
    simp only [Bool.and_eq_true, decide_eq_true_eq] at hp
    simp [Cache.key, hp.1.1, hp.2]
  · cases h

theorem report_eq_none {name : CString} {p : Pdu} (h : Cache.key p ≠ some name) :
    reportOf name p = none := by
  cases hr : reportOf name p with
  | none => rfl
  | some r => exact absurd (key_of_report hr) h

theorem lastReport_eq_none {name : CString} {ps qs : List Pdu} (h : lastReport name ps = none)
    (hqs : ∀ q ∈ qs, q ∈ ps) : lastReport name qs = none := by
  rw [lastReport, List.getLast?_eq_none_iff, List.filterMap_eq_nil_iff] at h ⊢
  exact fun q hq => h q (hqs q hq)

/-! ## The cache -/

/-- The cache after the broadcasts `ps`: everything is kept under its key, and what is kept under
the name of a state is its last report, unless something else took its place. -/
structure Recalls (name : CString) (pdus : Table CString Pdu) (ps : List Pdu) : Prop where
  keys : ∀ e ∈ pdus.entries, Cache.key e.2 = some e.1
  mem : ∀ e ∈ pdus.entries, e.2 ∈ ps
  last : Owned name ps → (pdus.get? name).bind (reportOf name) = lastReport name ps

theorem Owned.left {name : CString} {ps qs : List Pdu} (h : Owned name (ps ++ qs)) :
    Owned name ps := fun p hp => h p (List.mem_append_left qs hp)

theorem Recalls.empty (name : CString) : Recalls name .empty [] :=
  ⟨by simp [Table.empty], by simp [Table.empty], fun _ => rfl⟩

/-- The one entry about the state is the one under its name. -/
theorem Recalls.repeated {name : CString} {pdus : Table CString Pdu} {ps : List Pdu}
    (h : Recalls name pdus ps) (howned : Owned name ps) :
    lastReport name (pdus.entries.map Prod.snd) = lastReport name ps := by
  rw [← h.last howned]
  have hreports (p : Pdu) (r : Report) (hp : p ∈ pdus.entries.map Prod.snd)
      (hr : reportOf name p = some r) : pdus.get? name = some p := by
    obtain ⟨e, he, rfl⟩ := List.mem_map.mp hp
    have hname : e.1 = name := Option.some.inj ((h.keys e he).symm.trans (key_of_report hr))
    exact hname ▸ Table.get?_of_mem he
  unfold lastReport
  cases hget : pdus.get? name with
  | none =>
    have hnil : (pdus.entries.map Prod.snd).filterMap (reportOf name) = [] := by
      refine List.filterMap_eq_nil_iff.mpr fun p hp => ?_
      cases hr : reportOf name p with
      | none => rfl
      | some r =>
        rw [hreports p r hp hr] at hget
        cases hget
    rw [hnil]
    rfl
  | some p =>
    have hmem : p ∈ pdus.entries.map Prod.snd :=
      List.mem_map.mpr ⟨(name, p), Table.mem_of_get? hget, rfl⟩
    rw [Option.bind_some]
    refine Option.ext fun r => ⟨fun hlast => ?_, fun hr => ?_⟩
    · obtain ⟨q, hq, hr⟩ := List.mem_filterMap.mp (List.mem_of_getLast? hlast)
      obtain rfl : p = q := Option.some.inj (hget.symm.trans (hreports q r hq hr))
      exact hr
    · have hne : (pdus.entries.map Prod.snd).filterMap (reportOf name) ≠ [] :=
        List.ne_nil_of_mem (List.mem_filterMap.mpr ⟨p, hmem, hr⟩)
      obtain ⟨r', hr'⟩ := List.getLast?_isSome.mpr hne |> Option.isSome_iff_exists.mp
      obtain ⟨q, hq, hrq⟩ := List.mem_filterMap.mp (List.mem_of_getLast? hr')
      obtain rfl : p = q := Option.some.inj (hget.symm.trans (hreports q r' hq hrq))
      rw [hr', ← hrq, hr]

section Runs

variable [HashOrder]

theorem Recalls.subscriber {name : CString} {pdus : Table CString Pdu} {ps : List Pdu}
    (h : Recalls name pdus ps) {p : Pdu} {pdus' : Table CString Pdu} {out : List Pdu}
    (hstep : Cache.dispatcherReactor pdus (.subscriber, p) = .ok (pdus', out)) :
    out = [p] ∧ Recalls name pdus' (ps ++ [p]) := by
  have hsingle : lastReport name [p] = reportOf name p := by
    cases hr : reportOf name p <;> simp [lastReport, hr]
  have hlater (e) (he : e ∈ pdus.entries) : e.2 ∈ ps ++ [p] := by simp [h.mem e he]
  unfold Cache.dispatcherReactor at hstep
  cases hk : Cache.key p with
  | none =>
    simp only [hk, Except.ok.injEq, Prod.mk.injEq] at hstep
    obtain ⟨rfl, rfl⟩ := hstep
    have hnone : reportOf name p = none := report_eq_none (by simp [hk])
    refine ⟨rfl, h.keys, hlater, fun howned => ?_⟩
    rw [h.last howned.left, lastReport_append, hsingle, hnone, Option.none_or]
  | some k =>
    simp only [hk, Except.ok.injEq, Prod.mk.injEq] at hstep
    obtain ⟨rfl, rfl⟩ := hstep
    have hentries (e) (he : e ∈ (hashSet pdus k p).entries) :
        e = (k, p) ∨ e ∈ pdus.entries := by
      have hget := Table.get?_of_mem he
      rw [get?_hashSet] at hget
      split at hget
      · case isTrue hek => exact .inl (Prod.ext hek (Option.some.inj hget).symm)
      · exact .inr (Table.mem_of_get? hget)
    refine ⟨rfl, fun e he => ?_, fun e he => ?_, fun howned => ?_⟩
    · rcases hentries e he with rfl | he
      · exact hk
      · exact h.keys e he
    · rcases hentries e he with rfl | he
      · simp
      · exact hlater e he
    · rw [lastReport_append, hsingle, get?_hashSet]
      by_cases hname : name = k
      · obtain ⟨r, hr⟩ := Option.isSome_iff_exists.mp (howned p (by simp) (hname ▸ hk))
        simp [hname] at hr ⊢
        simp [hr]
      · have hnone : reportOf name p = none := report_eq_none (by simp [hk, Ne.symm hname])
        rw [if_neg hname, h.last howned.left, hnone, Option.none_or]

/-- A request to repeat. -/
def IsRepeat (i : Cache.Socket × Pdu) : Prop := i.1 = .listen ∧ i.2.type = .lit "REPEAT"

/-- The subscriber that came after `before` was received has seen `seen`, after a repeat also
the last report of the state. -/
structure View (name : CString) (before : List Pdu) (pdus : Table CString Pdu)
    (ins : List (Cache.Socket × Pdu)) (seen : List Pdu) : Prop where
  recalls : Recalls name pdus (before ++ heard ins)
  mem : ∀ p ∈ seen, p ∈ before ++ heard ins
  caught : Owned name (before ++ heard ins) → (∃ i ∈ ins, IsRepeat i) →
    lastReport name seen = lastReport name (before ++ heard ins)

theorem View.step {name : CString} {before : List Pdu} {pdus : Table CString Pdu}
    {ins : List (Cache.Socket × Pdu)} {seen : List Pdu} (h : View name before pdus ins seen)
    {i : Cache.Socket × Pdu} {pdus' : Table CString Pdu} {out : List Pdu}
    (hstep : Cache.dispatcherReactor pdus i = .ok (pdus', out)) :
    View name before pdus' (ins ++ [i]) (seen ++ out) := by
  obtain ⟨socket, p⟩ := i
  cases socket with
  | control => cases hstep
  | subscriber =>
    obtain ⟨rfl, hrecalls⟩ := h.recalls.subscriber hstep
    have hheard : before ++ heard (ins ++ [(.subscriber, p)]) =
        before ++ heard ins ++ [p] := by
      rw [heard_append, List.append_assoc]
      rfl
    refine ⟨hheard ▸ hrecalls, fun q hq => ?_, fun howned hrepeat => ?_⟩
    · rw [hheard, List.mem_append]
      exact (List.mem_append.mp hq).imp_left (h.mem q)
    · obtain ⟨j, hj, hrepeat⟩ := hrepeat
      have hold : j ∈ ins := by
        rcases List.mem_append.mp hj with hj | hj
        · exact hj
        · obtain rfl := List.mem_singleton.mp hj
          cases hrepeat.1
      rw [hheard] at howned ⊢
      rw [lastReport_append, h.caught howned.left ⟨j, hold, hrepeat⟩, ← lastReport_append]
  | listen =>
    have hheard : heard (ins ++ [(.listen, p)]) = heard ins := by
      rw [heard_append]
      exact List.append_nil _
    rw [Cache.dispatcherReactor] at hstep
    split at hstep
    · obtain ⟨rfl, rfl⟩ : pdus = pdus' ∧ pdus.entries.map Prod.snd = out := by simpa using hstep
      refine ⟨hheard ▸ h.recalls, fun q hq => ?_, fun howned _ => ?_⟩
      · rw [hheard]
        rcases List.mem_append.mp hq with hq | hq
        · exact h.mem q hq
        · obtain ⟨e, he, rfl⟩ := List.mem_map.mp hq
          exact h.recalls.mem e he
      · rw [hheard] at howned ⊢
        rw [lastReport_append, h.recalls.repeated howned]
        cases hlast : lastReport name (before ++ heard ins) with
        | none => exact lastReport_eq_none hlast h.mem
        | some r => rfl
    · case isFalse hother =>
      obtain ⟨rfl, rfl⟩ : pdus = pdus' ∧ [] = out := by simpa using hstep
      rw [List.append_nil]
      refine ⟨hheard ▸ h.recalls, hheard ▸ h.mem, fun howned hrepeat => ?_⟩
      obtain ⟨j, hj, hrepeat⟩ := hrepeat
      rw [hheard] at howned ⊢
      refine h.caught howned ⟨j, ?_, hrepeat⟩
      rcases List.mem_append.mp hj with hj | hj
      · exact hj
      · obtain rfl := List.mem_singleton.mp hj
        exact absurd hrepeat.2 hother

theorem View.run {name : CString} {before : List Pdu} {pdus pdus' : Table CString Pdu}
    (h : Recalls name pdus before) {ins : List (Cache.Socket × Pdu)} {seen : List Pdu}
    (hrun : Machine.run Cache.dispatcherReactor pdus ins = .ok (pdus', seen)) :
    View name before pdus' ins seen := by
  refine Machine.run_relates (P := View name before) (Q := fun _ _ => True) (l := []) (o := [])
    (fun pdus i pdus' l o out hP _ hstep => hP.step hstep) ⟨?_, by simp, by simp⟩
    (.of_forall fun _ _ => trivial) hrun
  rwa [show heard [] = [] from rfl, List.append_nil]

theorem cache_runs (pdus : Table CString Pdu) {ins : List (Cache.Socket × Pdu)}
    (hins : ∀ i ∈ ins, i.1 ≠ .control) :
    ∃ pdus' out, Machine.run Cache.dispatcherReactor pdus ins = .ok (pdus', out) := by
  have hstep (pdus : Table CString Pdu) (i : Cache.Socket × Pdu) (hi : i.1 ≠ .control) :
      ∃ pdus' out, Cache.dispatcherReactor pdus i = .ok (pdus', out) ∧ True := by
    obtain ⟨socket, p⟩ := i
    cases socket with
    | control => exact absurd rfl hi
    | subscriber | listen =>
      simp only [Cache.dispatcherReactor]
      split <;> exact ⟨_, _, rfl, trivial⟩
  obtain ⟨pdus', out, hrun, -⟩ := Machine.run_complete (P := fun _ _ _ => True)
    (fun pdus i (_ : List (Cache.Socket × Pdu)) (_ : List Pdu) _ hi => hstep pdus i hi)
    (s := pdus) (l := []) (o := []) trivial (.of_forall hins)
  exact ⟨pdus', out, hrun⟩

/-! ## All three -/

variable [Double R] [Pcre Re]

/-- Whatever the aggregator was sent before and after the subscriber came, and however requests
to the cache are interleaved with its broadcasts, once a repeat has been asked for the late
subscriber has a row for exactly the states that were ever reported. Each row has the status of the
aggregator's record, and its message and time too, unless the record is older than the start of the
row, which it is not unless the subscriber has refused a report of it. -/
theorem late_subscriber {clock : Nat → Int32} {file : List UInt8} {s : Server R Re}
    (hs : Configured clock file s) {k : Kernel R Re} {is : List Input} {es : List Effect}
    (hrun : Machine.run reactor (boot s) is = .ok (k, es))
    {before after : List (Cache.Socket × Pdu)} (hheard : heard (before ++ after) = broadcasts es)
    (hcontrol : ∀ i ∈ before ++ after, i.1 ≠ .control) (hrepeat : ∃ i ∈ after, IsRepeat i) :
    ∃ pdus out pdus' seen db,
      Machine.run Cache.dispatcherReactor .empty before = .ok (pdus, out) ∧
      Machine.run Cache.dispatcherReactor pdus after = .ok (pdus', seen) ∧
      seen.foldlM receive empty = .ok db ∧ ∀ name,
      (∀ p ∈ broadcasts es, Cache.key p = some name → p.type = Tag.state.text) →
      ((db.states.get? name).isSome ↔
        ∃ p ∈ broadcasts es, p.type = Tag.state.text ∧ p.string 1 = some name) ∧
      ∀ row, db.states.get? name = some row → row.Ordered ∧
        ∀ st, k.db.states.get? name = some st → Agrees st row ∧
          (¬Refused (seen.filterMap (reportOf name)) →
            some row.message = st.summary ∧ row.lastSeen = st.lastSeen) := by
  have hbulletins := run_bulletins hrun
  obtain ⟨pdus, out, hbefore⟩ := cache_runs .empty fun i hi =>
    hcontrol i (List.mem_append_left after hi)
  obtain ⟨pdus', seen, hafter⟩ := cache_runs pdus fun i hi =>
    hcontrol i (List.mem_append_right before hi)
  have hview (name : CString) : View name (heard before) pdus' after seen := by
    have hrecalls : Recalls name pdus (heard before) :=
      (View.run (Recalls.empty name) hbefore).recalls
    exact View.run hrecalls hafter
  rw [heard_append] at hheard
  obtain ⟨db, hdb⟩ := receive_bulletins empty fun p hp =>
    hbulletins p (hheard ▸ (hview (.lit "")).mem p hp)
  refine ⟨pdus, out, pdus', seen, db, hbefore, hafter, hdb, fun name hname => ?_⟩
  have howned : Owned name (broadcasts es) := by
    intro p hp hkey
    refine (report_bulletin (hbulletins p hp) name).mpr ⟨hname p hp hkey, ?_⟩
    simpa [Cache.key, hname p hp hkey] using hkey
  have hlast : lastReport name seen = lastReport name (broadcasts es) :=
    hheard ▸ (hview name).caught (hheard ▸ howned) hrepeat
  have hreported : seen.filterMap (reportOf name) ≠ [] ↔
      (broadcasts es).filterMap (reportOf name) ≠ [] := by
    simp only [← List.getLast?_isSome]
    exact iff_of_eq (congrArg (fun r => r.isSome = true) hlast)
  have hrow : db.states.get? name = rowAfter (seen.filterMap (reportOf name)) none :=
    get?_states hdb name
  rw [hrow]
  refine ⟨?_, fun row h => ⟨rowAfter_ordered _ (by simp) row h, fun st hst => ?_⟩⟩
  · rw [isSome_rowAfter, hreported]
    exact reports_bulletins hbulletins name
  · have htold : Told (k.db.states.get? name) (seen.filterMap (reportOf name)) := by
      intro st r hst hr
      exact told_run name (k := boot s) hs.loaded.wf hrun st r hst (hlast.symm.trans hr)
    have hne := (isSome_rowAfter _).mp (Option.isSome_of_eq_some h)
    exact ⟨htold.agrees hst hne h, htold.current hst hne h⟩

end Runs

section Hosts

open Reference

/-- What the two reports of a WARNING are broadcast as. -/
def warned : List Pdu :=
  [pdu .transition ["web", "100", "fresh", "WARNING", "slow"],
   pdu .state ["web", "100", "fresh", "WARNING", "slow"],
   pdu .state ["web", "90", "fresh", "WARNING", "slower"]]

theorem late_subscriber_hosts : ∃ (k : Kernel Int CString) (es : List Effect)
    (pdus pdus' : Table CString Pdu) (seen : List Pdu) (db : Database) (row : StateRow),
      Machine.run reactor (boot hosts) twoWarnings = .ok (k, es) ∧
      Machine.run Cache.dispatcherReactor .empty (warned.map fun p => (.subscriber, p)) =
        .ok (pdus, warned) ∧
      Machine.run Cache.dispatcherReactor pdus
        [(.listen, { type := .lit "REPEAT", frames := [] })] = .ok (pdus', seen) ∧
      seen.foldlM receive empty = .ok db ∧ db.states.get? (.lit "web") = some row ∧
      row.status = .lit "WARNING" := by
  have hkernel : (Machine.run reactor (boot hosts) twoWarnings).map (fun r => (broadcasts r.2,
      (r.1.db.states.get? (.lit "web")).map State.status)) = .ok (warned, some 1) := by
    decide +kernel
  obtain ⟨⟨k, es⟩, hrun, hes⟩ := map_eq_ok.mp hkernel
  obtain ⟨hsent, hweb⟩ := Prod.mk.inj hes
  obtain ⟨st, hst, hstatus⟩ := Option.map_eq_some_iff.mp hweb
  have hheard : heard (warned.map (fun p => (.subscriber, p)) ++
      [(.listen, { type := .lit "REPEAT", frames := [] })]) = broadcasts es := by
    rw [hsent]
    rfl
  obtain ⟨pdus, out, pdus', seen, db, hbefore, hafter, hdb, hrows⟩ := late_subscriber
    hosts_configured hrun hheard (by simp [warned]) ⟨_, List.mem_singleton_self _, rfl, rfl⟩
  rw [hsent] at hrows
  obtain ⟨hsome, hrow⟩ := hrows (.lit "web") (by decide)
  obtain ⟨row, hget⟩ := Option.isSome_iff_exists.mp (hsome.mpr ⟨_, .tail _ (.head _), rfl, rfl⟩)
  obtain ⟨-, hagrees⟩ := hrow row hget
  have hout : out = warned := by
    have hrelay := (Cache.run_subscriber warned).choose_spec.1
    exact (Prod.mk.inj (Except.ok.inj (hbefore.symm.trans hrelay))).2
  exact ⟨k, es, pdus, pdus', seen, db, row, hrun, hout ▸ hbefore, hafter, hdb, hget,
    (hagrees st hst).1.status.trans (by rw [hstatus]; decide)⟩

end Hosts

end Bolo.Late
