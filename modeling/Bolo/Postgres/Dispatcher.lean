import Bolo.Config.Loaded
import Bolo.Config.Reference
import Bolo.Kernel.Staleness
import Bolo.Postgres.Anomalies

/-!
# From the kernel to the history

`bolo2pg` listens to the broadcasts of the kernel. Its dispatcher passes every TRANSITION on
as a state to be inserted, and of the STATEs those that are not OK and the first of each name:
it expects to see an OK again and again. But each STATE that is not OK is passed on, also the
one that follows a TRANSITION with the same frames.
-/
namespace Bolo.Postgres

open Library

/-! ## The dispatcher -/

/-- `_dispatcher_reactor` on a broadcast: the names seen so far, and the INSERT requests. -/
def dispatch (seen : List CString) (p : Pdu) : List CString × List Pdu :=
  if p.type = Tag.state.text && p.size = 6 then
    match p.string 1, p.string 4 with
    | some state, some code =>
      if code ≠ .lit "OK" || state ∉ seen then (state :: seen, [p]) else (seen, [])
    | _, _ => (seen, [])
  else if p.type = Tag.transition.text && p.size = 6 then
    match p.string 1 with
    | some state => (state :: seen, [{ p with type := Tag.state.text }])
    | none => (seen, [])
  else if p.type = Tag.event.text && p.size = 4 then (seen, [p])
  else (seen, [])

def dispatchAll (seen : List CString) : List Pdu → List CString × List Pdu
  | [] => (seen, [])
  | p :: ps =>
    ((dispatchAll (dispatch seen p).1 ps).1,
      (dispatch seen p).2 ++ (dispatchAll (dispatch seen p).1 ps).2)

/-- What the inserter stages for a request: name, code, summary and time, and when. The time is
that of `to_timestamp`, in the time zone of the session. -/
def insertion {T : Type} (toTimestamp : Int → T) (insertedAt : T) (p : Pdu) :
    Option (Staged CString CString CString T) :=
  if p.type = Tag.state.text && p.size = 6 then do
    let name ← p.string 1
    let code ← p.string 4
    let summary ← p.string 5
    let ts ← p.string 2
    return { name := name, status := code, message := summary, insertedAt := insertedAt
             occurredAt := toTimestamp (strtol ts).toInt }
  else none

/-- Every request for a state is staged, at whatever time. -/
def Stages {T : Type} (toTimestamp : Int → T) (requests : List Pdu)
    (rs : List (Staged CString CString CString T)) : Prop :=
  List.Forall₂ (fun p r => insertion toTimestamp r.insertedAt p = some r)
    (requests.filter (·.type = Tag.state.text)) rs

/-- What a subscriber receives. -/
def broadcasts (es : List Effect) : List Pdu := es.filterMap (Effect.select fun _ => true)

/-! ## What one state sees of it -/

theorem filter_broadcasts (q : Pdu → Bool) (es : List Effect) :
    (broadcasts es).filter q = es.filterMap (Effect.select q) := by
  rw [broadcasts, List.filter_filterMap]
  refine List.filterMap_congr fun e _ => ?_
  cases e with
  | broadcast p => simp [Effect.select, Option.filter]
  | _ => rfl

/-- The times of the requests about a state. -/
def timesOf (name : CString) (requests : List Pdu) : List Int :=
  requests.filterMap fun p =>
    if p.type = Tag.state.text && p.string 1 = some name then
      (p.string 2).map fun ts => (strtol ts).toInt
    else none

@[simp] theorem timesOf_nil (name : CString) : timesOf name [] = [] := rfl

@[simp] theorem timesOf_append (name : CString) (ps qs : List Pdu) :
    timesOf name (ps ++ qs) = timesOf name ps ++ timesOf name qs := List.filterMap_append

theorem dispatchAll_append (seen : List CString) (ps qs : List Pdu) :
    dispatchAll seen (ps ++ qs) = ((dispatchAll (dispatchAll seen ps).1 qs).1,
      (dispatchAll seen ps).2 ++ (dispatchAll (dispatchAll seen ps).1 qs).2) := by
  induction ps generalizing seen with
  | nil => rfl
  | cons p ps ih => simp [dispatchAll, ih]

section Frames

variable (seen : List CString) (name ts fresh code summary : CString)

theorem dispatch_state :
    dispatch seen { type := Tag.state.text, frames := [name, ts, fresh, code, summary] } =
      if code ≠ .lit "OK" ∨ name ∉ seen then
        (name :: seen, [{ type := Tag.state.text, frames := [name, ts, fresh, code, summary] }])
      else (seen, []) := by
  simp [dispatch, Pdu.size, Pdu.string]

theorem dispatch_transition :
    dispatch seen { type := Tag.transition.text, frames := [name, ts, fresh, code, summary] } =
      (name :: seen,
        [{ type := Tag.state.text, frames := [name, ts, fresh, code, summary] }]) := by
  simp [dispatch, Pdu.size, Pdu.string]

theorem timesOf_request (ps : List Pdu) :
    timesOf name ({ type := Tag.state.text, frames := [name, ts, fresh, code, summary] } :: ps) =
      (strtol ts).toInt :: timesOf name ps := by
  simp [timesOf, Pdu.string]

end Frames

/-- A broadcast about something else. -/
theorem dispatch_other {name : CString} {p : Pdu} (h : stateAbout name p = false)
    (seen : List CString) :
    timesOf name (dispatch seen p).2 = [] ∧ (name ∈ (dispatch seen p).1 ↔ name ∈ seen) := by
  have hne {q : Pdu} (hq : p.string 1 = q.string 1)
      (htype : p.type = Tag.state.text ∨ p.type = Tag.transition.text) : timesOf name [q] = [] := by
    have hname : q.string 1 ≠ some name := by
      intro hname
      exact Bool.false_ne_true (h.symm.trans (stateAbout_iff.mpr ⟨htype, hq.trans hname⟩))
    simp [timesOf, hname]
  unfold dispatch
  split
  · case isTrue hs =>
      have hs : p.type = Tag.state.text := by simp at hs; exact hs.1
      split
      · case h_1 state code hstate hcode =>
          have hstate' : name ≠ state := by
            rintro rfl
            exact Bool.false_ne_true (h.symm.trans (stateAbout_iff.mpr ⟨.inl hs, hstate⟩))
          split
          · exact ⟨hne rfl (.inl hs), by simp [hstate']⟩
          · simp
      · simp
  · split
    · case isTrue ht =>
        have ht : p.type = Tag.transition.text := by simp at ht; exact ht.1
        split
        · case h_1 state hstate =>
            have hstate' : name ≠ state := by
              rintro rfl
              exact Bool.false_ne_true (h.symm.trans (stateAbout_iff.mpr ⟨.inr ht, hstate⟩))
            exact ⟨hne rfl (.inr ht), by simp [hstate']⟩
        · simp
    · split
      · case isTrue he =>
          have he : p.type = Tag.event.text := by simp at he; exact he.1
          simp [timesOf, he]
      · simp

/-- Of the names seen, a broadcast reads and adds its own. -/
theorem dispatch_own {name : CString} {p : Pdu} (h : stateAbout name p = true)
    {seen seen' : List CString} (hseen : name ∈ seen ↔ name ∈ seen') :
    (dispatch seen p).2 = (dispatch seen' p).2 ∧
      (name ∈ (dispatch seen p).1 ↔ name ∈ (dispatch seen' p).1) := by
  obtain ⟨-, hname⟩ := stateAbout_iff.mp h
  simp only [dispatch, hname]
  grind

/-- The requests about a state come from the broadcasts about it. -/
theorem timesOf_dispatchAll (name : CString) (ps : List Pdu) {seen seen' : List CString}
    (hseen : name ∈ seen ↔ name ∈ seen') :
    timesOf name (dispatchAll seen ps).2 =
      timesOf name (dispatchAll seen' (ps.filter (stateAbout name))).2 := by
  induction ps generalizing seen seen' with
  | nil => rfl
  | cons p ps ih =>
    cases h : stateAbout name p with
    | false =>
      obtain ⟨htimes, hmem⟩ := dispatch_other h seen
      simp only [dispatchAll, timesOf_append, htimes, List.nil_append, h, List.filter_cons,
        Bool.false_eq_true, if_false]
      exact ih (hmem.trans hseen)
    | true =>
      obtain ⟨hreq, hmem⟩ := dispatch_own h hseen
      simp only [dispatchAll, timesOf_append, h, List.filter_cons, if_true, hreq, ih hmem]

/-! ## Updates of one state -/

/-- An accepted update, and whether it changes the standing of the state. -/
structure Update where
  ts : UInt32
  code : UInt8
  changed : Bool
  deriving DecidableEq

/-- The requests that an update leads to: two if it is a change to another status than OK. -/
def Update.requests (u : Update) (n : Nat) : Prop := n ≤ 2 ∧ (n = 2 ↔ u.changed ∧ u.code ≠ 0)

def Update.time (u : Update) : Int := u.ts.toInt32.toInt

theorem Update.time_inj {u v : Update} : u.time = v.time ↔ u.ts = v.ts := by
  simp only [time, Int32.toInt_inj]
  exact ⟨fun h => by simpa using congrArg Int32.toUInt32 h, fun h => by rw [h]⟩

/-- The times of the requests, for each update its own. -/
inductive Times : List Update → List Int → Prop
  | nil : Times [] []
  | cons {u us n ts} (hn : u.requests n) (hrest : Times us ts) :
      Times (u :: us) (List.replicate n u.time ++ ts)

theorem Times.mem {us : List Update} {ts : List Int} (h : Times us ts) {t : Int} (ht : t ∈ ts) :
    ∃ u ∈ us, u.time = t := by
  induction h with
  | nil => cases ht
  | @cons u us n ts hn hrest ih =>
    rcases List.mem_append.mp ht with ht | ht
    · exact ⟨u, by simp, (List.eq_of_mem_replicate ht).symm⟩
    · obtain ⟨v, hv, heq⟩ := ih ht
      exact ⟨v, by simp [hv], heq⟩

theorem Times.nodup_iff {us : List Update} {ts : List Int} (h : Times us ts)
    (hinc : (us.map Update.ts).Pairwise (· < ·)) :
    ts.Nodup ↔ ∀ u ∈ us, u.changed → u.code = 0 := by
  induction h with
  | nil => simp
  | @cons u us n ts hn hrest ih =>
    obtain ⟨hlt, hinc⟩ := List.pairwise_cons.mp hinc
    have hapart : List.Disjoint (List.replicate n u.time) ts := by
      intro t ht ht'
      obtain ⟨v, hv, heq⟩ := hrest.mem ht'
      rw [List.eq_of_mem_replicate ht, Update.time_inj] at heq
      exact UInt32.ne_of_lt (hlt v.ts (List.mem_map_of_mem hv)) heq.symm
    obtain ⟨hle, htwo⟩ := hn
    have hone : n ≤ 1 ↔ (u.changed → u.code = 0) := by
      rw [← not_iff_not]
      simp only [not_le, Classical.not_imp]
      rw [← ne_eq u.code, ← htwo]
      omega
    rw [List.nodup_append', List.nodup_replicate, ih hinc, hone]
    simp [hapart]

/-! ## From the cell to the requests -/

variable {R Re : Type}

section Kernel

variable [Pcre Re] (name : CString)

def changes (c : StateCell Re) : StateMsg → List Update
  | .submit _ ts code _ =>
    if StateCell.accepts name c then
      [{ ts := ts, code := code, changed := standing c.found ≠ (code, 0) }]
    else []
  | _ => []

/-- The broadcasts of an accepted update lead to the requests of the update. -/
theorem timesOf_announce {s : State} {b : Bool} {out : List Pdu} {u : Update}
    (ha : announce b s = .ok out) (hname : s.name = some name) (hts : s.lastSeen = u.ts.toInt32)
    (hcode : s.status = u.code) (hb : b = u.changed) (seen : List CString) :
    ∃ n, u.requests n ∧ timesOf name (dispatchAll seen out).2 = List.replicate n u.time := by
  obtain ⟨frames, hf, rfl⟩ := announce_spec ha
  obtain ⟨name', summary, hname', -, rfl⟩ := stateFrames_spec hf
  obtain rfl : name = name' := by simpa [hname] using hname'
  have htime : (strtol (decimalInt s.lastSeen.toInt)).toInt = u.time := by
    rw [hts, Update.time]
    have := u.ts.toInt32.le_toInt
    have := u.ts.toInt32.toInt_lt
    exact strtol_decimalInt (by omega) (by omega)
  have hok : statstr s.status = .lit "OK" ↔ u.code = 0 := by
    rw [hcode, statstr]
    split
    · simp [*]
    · split
      · simp [*]; decide
      · split <;> simp [*] <;> decide
  subst hb
  cases hc : u.changed with
  | true =>
    -- the TRANSITION is passed on, and the STATE too unless it is OK: the name is seen now
    by_cases hz : u.code = 0
    · refine ⟨1, by simp [Update.requests, hz], ?_⟩
      simp [dispatchAll, dispatch_transition, dispatch_state, hok, hz, timesOf_request, htime]
    · refine ⟨2, by simp [Update.requests, hz, hc], ?_⟩
      simp [dispatchAll, dispatch_transition, dispatch_state, hok, hz, timesOf_request, htime,
        List.replicate]
  | false =>
    simp only [dispatchAll, dispatch_state, Bool.false_eq_true, if_false, List.nil_append]
    split
    · exact ⟨1, by simp [Update.requests, hc], by simp [timesOf_request, htime]⟩
    · exact ⟨0, by simp [Update.requests, hc], rfl⟩

/-- What a step of the state adds to its updates, it adds to the requests. -/
theorem changes_requests {c c' : StateCell Re} {m : StateMsg} {out : List Pdu}
    (hname : ∀ s, c.found = some s → s.name = some name)
    (hfresh : ∀ s, c'.found = some s → s.stale = 0)
    (hstep : StateCell.step name c m = .ok (c', out)) (seen : List CString) {us : List Update}
    {ts : List Int} (hrest : Times us ts) :
    Times (changes name c m ++ us) (timesOf name (dispatchAll seen out).2 ++ ts) := by
  by_cases hforget : ∃ keep, m = .forget keep
  · obtain ⟨keep, rfl⟩ := hforget
    obtain ⟨-, rfl⟩ : _ ∧ [] = out := by simpa [StateCell.step] using hstep
    exact hrest
  obtain ⟨-, hmoves⟩ := StateCell.step_moves name (by simpa using hforget) hstep
  generalize c'.found = x at hmoves hfresh
  cases hmoves with
  | stay htick hsubmit =>
    have hnone : changes name c m = [] := by
      cases m with
      | submit now ts code msg => simp [changes, hsubmit now ts code msg rfl]
      | _ => rfl
    rw [hnone]
    exact hrest
  | @update now ts code msg s type out hacc hl ht ha =>
    have hchanged : (s.stale ≠ 0 || s.status ≠ code) = decide (standing c.found ≠ (code, 0)) := by
      rw [← StateCell.standing_lookupState hl]
      simp only [standing, ne_eq, Prod.mk.injEq, decide_not, Bool.decide_and]
      grind
    have hs : s.name = some name := lookupState_name hname hl
    obtain ⟨n, hn, htimes⟩ := timesOf_announce name ha hs
      (u := { ts := ts, code := code, changed := standing c.found ≠ (code, 0) }) rfl rfl hchanged
      seen
    rw [htimes, changes, if_pos hacc]
    exact .cons hn hrest
  | expire => exact absurd (hfresh _ rfl) (by simp [StateCell.expired])

variable [Double R] [HashOrder]

/-- The updates of `name` that a run accepts, in order. -/
def stateUpdates (k : Kernel R Re) (is : List Input) : List Update :=
  Machine.log reactor (fun k i _ =>
    match StateCell.view Re name i with
    | none => []
    | some m => changes name (StateCell.of name k) m) k is

theorem map_ts_stateUpdates (k : Kernel R Re) (is : List Input) :
    (stateUpdates name k is).map Update.ts = acceptedUpdates name k is := by
  rw [stateUpdates, Machine.map_log, acceptedUpdates]
  congr 1
  funext k i _
  cases StateCell.view Re name i with
  | none => rfl
  | some m =>
    cases m with
    | submit now ts code msg =>
      simp only [changes, StateCell.updates]
      split <;> rfl
    | _ => rfl

/-- No state is stale at any point of a run. -/
def NeverStale (k : Kernel R Re) (is : List Input) : Prop :=
  ∀ before after k' es, is = before ++ after → Machine.run reactor k before = .ok (k', es) →
    k'.db.states.All fun _ r => r.stale = 0

variable {k k' : Kernel R Re} {is : List Input} {es : List Effect}

theorem NeverStale.tail {i : Input} (h : NeverStale k (i :: is))
    (hstep : reactor k i = .ok (k', es)) : NeverStale k' is := by
  intro before after k'' es' heq hrun
  exact h (i :: before) after k'' (es ++ es') (by simp [heq])
    (Machine.run_cons.mpr ⟨k', es, es', hstep, hrun, rfl⟩)

theorem NeverStale.of_check
    (h : ∀ before ∈ is.inits, (Machine.run reactor k before).toOption.all fun r =>
      r.1.db.states.entries.all fun e => e.2.stale = 0) : NeverStale k is := by
  rintro before after k' es rfl hrun name r hr
  have hbefore := h before (by simp)
  rw [hrun] at hbefore
  have hall := List.all_eq_true.mp hbefore (name, r) (Table.mem_iff_get?.mpr hr)
  simpa using hall

/-- The broadcasts of a run lead to the requests of its updates. -/
theorem run_times (hwf : k.db.Wf) (hfresh : NeverStale k is)
    (hrun : Machine.run reactor k is = .ok (k', es)) (seen : List CString) :
    Times (stateUpdates name k is)
      (timesOf name (dispatchAll seen (es.filterMap (Effect.select (stateAbout name)))).2) := by
  induction is generalizing k es seen with
  | nil =>
    obtain ⟨rfl, rfl⟩ : k = k' ∧ ([] : List Effect) = es := by simpa using hrun
    exact .nil
  | cons i is ih =>
    obtain ⟨t, out, outs, hstep, hrest, rfl⟩ := Machine.run_cons.mp hrun
    have hnext := ih (reactor_wf hwf hstep) (hfresh.tail hstep) hrest
    rw [stateUpdates, Machine.log_cons hstep, List.filterMap_append, dispatchAll_append,
      timesOf_append]
    cases hv : StateCell.view Re name i with
    | none =>
      obtain ⟨-, hnil⟩ := (StateCell.component name).skip hwf hv hstep
      have hnil : out.filterMap (Effect.select (stateAbout name)) = [] := hnil
      rw [hnil]
      exact hnext seen
    | some m =>
      have hcell := (StateCell.component name).act hwf hv hstep
      refine changes_requests name (fun s hs => (hwf.states name s hs).name) (fun s hs => ?_) hcell
        seen (hnext _)
      exact hfresh [i] is t out rfl (Machine.run_singleton.mpr hstep) name s hs

end Kernel

/-! ## Staging the requests -/

theorem distinct_perm {N S M T : Type} {ps rs : List (Staged N S M T)} (h : ps.Perm rs) :
    Distinct ps ↔ Distinct rs :=
  h.pairwise_iff fun hab heq => (hab heq.symm).symm

theorem distinct_iff_nodup {N S M T : Type} [DecidableEq N] (rs : List (Staged N S M T)) :
    Distinct rs ↔ ∀ name, ((rs.filter (·.name = name)).map Staged.occurredAt).Nodup := by
  simp only [Distinct, List.Nodup, List.pairwise_map, List.pairwise_filter]
  simp only [List.pairwise_iff_forall_sublist]
  constructor
  · intro h name a b hab ha hb
    refine h hab ?_
    simp_all
  · intro h a b hab heq
    exact h b.name hab (by simpa using heq) (by simp)

theorem insertion_spec {T : Type} {toTimestamp : Int → T} {insertedAt : T} {p : Pdu}
    {r : Staged CString CString CString T} (h : insertion toTimestamp insertedAt p = some r) :
    p.string 1 = some r.name ∧
      ∃ ts, p.string 2 = some ts ∧ toTimestamp (strtol ts).toInt = r.occurredAt := by
  unfold insertion at h
  split at h
  · simp only [Option.bind_eq_bind, Option.bind_eq_some_iff, Option.pure_def,
      Option.some.injEq] at h
    obtain ⟨name, hname, -, -, -, -, ts, hts, rfl⟩ := h
    exact ⟨hname, ts, hts, rfl⟩
  · cases h

/-- The records staged for a state carry the times of the requests about it. -/
theorem Stages.times {T : Type} {toTimestamp : Int → T} {requests : List Pdu}
    {rs : List (Staged CString CString CString T)} (h : Stages toTimestamp requests rs)
    (name : CString) :
    (rs.filter (·.name = name)).map Staged.occurredAt =
      (timesOf name requests).map toTimestamp := by
  unfold Stages at h
  induction requests generalizing rs with
  | nil =>
    obtain rfl : rs = [] := by simpa using h
    rfl
  | cons p requests ih =>
    by_cases hp : p.type = Tag.state.text
    · rw [List.filter_cons_of_pos (by simpa using hp)] at h
      cases h with
      | @cons _ r _ rs hr hrest =>
        obtain ⟨hname, ts, hts, htime⟩ := insertion_spec hr
        have ih := ih hrest
        by_cases hn : r.name = name
        · simp [timesOf, hp, hname, hn, hts, htime] at ih ⊢
          exact ih
        · simp [timesOf, hp, hname, hn] at ih ⊢
          exact ih
    · rw [List.filter_cons_of_neg (by simpa using hp)] at h
      have ih := ih h
      simp [timesOf, hp] at ih ⊢
      exact ih

section Runs

variable {T : Type} [LinearOrder T] [Pcre Re] [Double R] [HashOrder]

/-- Updates with increasing timestamps, of states that never go stale, leave no anomaly exactly
if every change is to OK. The time zone of the session must not repeat an hour. -/
theorem no_anomalies_iff {k k' : Kernel R Re} {is : List Input} {es : List Effect}
    (hwf : k.db.Wf) (hrun : Machine.run reactor k is = .ok (k', es)) (hfresh : NeverStale k is)
    (hinc : ∀ name, (acceptedUpdates name k is).Pairwise (· < ·))
    {toTimestamp : Int → T} (hzone : Function.Injective toTimestamp)
    {rs ps : List (Staged CString CString CString T)}
    (hstages : Stages toTimestamp (dispatchAll [] (broadcasts es)).2 rs)
    {collate : CString → CString → Bool} {cs : List (Call CString CString CString T)}
    {t : Tables CString CString CString T}
    (hcalls : Machine.run (call collate) (Tables.empty CString CString CString T) cs = .ok (t, ps))
    (hall : ps.Perm rs) (hin : InOrder ps) :
    t.anomalies = [] ↔ ∀ name, ∀ u ∈ stateUpdates name k is, u.changed → u.code = 0 := by
  rw [anomalies_nil_iff hcalls hin, distinct_perm hall, distinct_iff_nodup]
  refine forall_congr' fun name => ?_
  rw [hstages.times name, List.nodup_map_iff hzone, timesOf_dispatchAll name _ Iff.rfl,
    filter_broadcasts]
  refine (run_times name hwf hfresh hrun []).nodup_iff ?_
  rw [map_ts_stateUpdates]
  exact hinc name

end Runs

section Examples

open Reference

/-- The state is reported as OK, and again. -/
def steady : List Input :=
  [.listener 10 (pdu .state ["10", "web", "0", "up"]),
   .listener 20 (pdu .state ["20", "web", "0", "up"])]

def staged (status message : String) (t : Int) : Staged CString CString CString Int :=
  { name := .lit "web", status := .lit status, message := .lit message, insertedAt := t
    occurredAt := t }

def inserted : List (Call CString CString CString Int) :=
  [.stage (staged "OK" "up" 10), .reconcile [staged "OK" "up" 10]]

theorem view_steady {name : CString} (hname : .lit "web" ≠ name) :
    steady.filterMap (StateCell.view CString name) = [] := by
  have hfirst : decodeState (pdu .state ["10", "web", "0", "up"]) =
      some (.lit "web", 10, 0, .lit "up") := by decide +kernel
  have hsecond : decodeState (pdu .state ["20", "web", "0", "up"]) =
      some (.lit "web", 20, 0, .lit "up") := by decide +kernel
  simp [steady, StateCell.view, hfirst, hsecond, hname]

theorem hosts_wf : (boot hosts).db.Wf := hosts_configured.loaded.wf

theorem acceptedUpdates_steady (name : CString) :
    (acceptedUpdates name (boot hosts) steady).Pairwise (· < ·) ∧
      ∀ u ∈ stateUpdates name (boot hosts) steady, u.changed → u.code = 0 := by
  by_cases hname : .lit "web" = name
  · subst hname
    exact ⟨by decide +kernel, by decide +kernel⟩
  · obtain ⟨⟨k, es⟩, hrun⟩ := exists_ok
      (x := Machine.run reactor (boot hosts) steady) (by decide +kernel)
    have hnone : acceptedUpdates name (boot hosts) steady = [] := by
      rw [acceptedUpdates_eq hosts_wf hrun, view_steady hname]
      rfl
    have hupdates := map_ts_stateUpdates name (boot hosts) steady
    rw [hnone, List.map_eq_nil_iff] at hupdates
    rw [hnone, hupdates]
    simp

theorem no_anomalies_steady : ∃ k es t,
    Machine.run reactor (boot hosts) steady = .ok (k, es) ∧
      Machine.run (call fun _ _ => true) (Tables.empty CString CString CString Int) inserted =
        .ok (t, [staged "OK" "up" 10]) ∧ t.anomalies = [] := by
  obtain ⟨⟨k, es⟩, hrun⟩ := exists_ok
    (x := Machine.run reactor (boot hosts) steady) (by decide +kernel)
  obtain ⟨⟨t, ps⟩, hcalls⟩ := exists_ok
    (x := Machine.run (call fun _ _ => true) (Tables.empty CString CString CString Int) inserted)
    (by decide +kernel)
  have hrequests : (Machine.run reactor (boot hosts) steady).map
      (fun r => (dispatchAll [] (broadcasts r.2)).2) =
        .ok [pdu .state ["web", "10", "fresh", "OK", "up"]] := by decide +kernel
  have hprocessed : (Machine.run (call fun _ _ => true)
      (Tables.empty CString CString CString Int) inserted).map Prod.snd =
        .ok [staged "OK" "up" 10] := by decide +kernel
  rw [hrun] at hrequests
  rw [hcalls] at hprocessed
  obtain rfl : ps = [staged "OK" "up" 10] := Except.ok.inj hprocessed
  have hrequests : (dispatchAll [] (broadcasts es)).2 = _ := Except.ok.inj hrequests
  have hstages : Stages id (dispatchAll [] (broadcasts es)).2 [staged "OK" "up" 10] := by
    rw [hrequests]
    exact .cons (by decide +kernel) .nil
  refine ⟨k, es, t, hrun, hcalls, ?_⟩
  exact (no_anomalies_iff hosts_wf hrun (.of_check (by decide +kernel))
    (fun name => (acceptedUpdates_steady name).1) Function.injective_id hstages hcalls (.refl _)
    (by simp [InOrder])).mpr fun name => (acceptedUpdates_steady name).2

/-- The state is reported as critical, once. -/
def outage : List Input := [.listener 10 (pdu .state ["10", "web", "2", "down"])]

def insertedTwice : List (Call CString CString CString Int) :=
  [.stage (staged "CRITICAL" "down" 10), .stage (staged "CRITICAL" "down" 10),
   .reconcile [staged "CRITICAL" "down" 10, staged "CRITICAL" "down" 10]]

/-- The TRANSITION and the STATE are both staged, and the second is an anomaly. -/
theorem change_is_an_anomaly : ∃ k es t,
    Machine.run reactor (boot hosts) outage = .ok (k, es) ∧ NeverStale (boot hosts) outage ∧
      (∀ name, (acceptedUpdates name (boot hosts) outage).Pairwise (· < ·)) ∧
      Stages id (dispatchAll [] (broadcasts es)).2
        [staged "CRITICAL" "down" 10, staged "CRITICAL" "down" 10] ∧
      Machine.run (call fun _ _ => true) (Tables.empty CString CString CString Int)
        insertedTwice =
          .ok (t, [staged "CRITICAL" "down" 10, staged "CRITICAL" "down" 10]) ∧
      InOrder [staged "CRITICAL" "down" 10, staged "CRITICAL" "down" 10] ∧
      t.anomalies = [staged "CRITICAL" "down" 10] := by
  obtain ⟨⟨k, es⟩, hrun⟩ := exists_ok
    (x := Machine.run reactor (boot hosts) outage) (by decide +kernel)
  have hrequests : (Machine.run reactor (boot hosts) outage).map
      (fun r => (dispatchAll [] (broadcasts r.2)).2) =
        .ok (List.replicate 2 (pdu .state ["web", "10", "fresh", "CRITICAL", "down"])) := by
    decide +kernel
  have hprocessed : (Machine.run (call fun _ _ => true)
      (Tables.empty CString CString CString Int) insertedTwice).map
        (fun r => (r.1.anomalies, r.2)) = .ok ([staged "CRITICAL" "down" 10],
          [staged "CRITICAL" "down" 10, staged "CRITICAL" "down" 10]) := by decide +kernel
  obtain ⟨⟨t, ps⟩, hcalls⟩ := exists_ok
    (x := Machine.run (call fun _ _ => true) (Tables.empty CString CString CString Int)
      insertedTwice) (by decide +kernel)
  rw [hrun] at hrequests
  rw [hcalls] at hprocessed
  obtain ⟨hanomalies, rfl⟩ := Prod.mk.inj (Except.ok.inj hprocessed)
  have hrequests : (dispatchAll [] (broadcasts es)).2 = _ := Except.ok.inj hrequests
  refine ⟨k, es, t, hrun, .of_check (by decide +kernel), fun name => ?_, ?_, hcalls,
    by simp [InOrder], hanomalies⟩
  · rw [acceptedUpdates, outage, Machine.log_cons (Machine.run_singleton.mp hrun)]
    cases StateCell.view CString name (.listener 10 (pdu .state ["10", "web", "2", "down"])) with
    | none => simp [Machine.log]
    | some m =>
      cases m with
      | submit now ts code msg =>
        simp only [StateCell.updates]
        split <;> simp [Machine.log]
      | _ => simp [Machine.log, StateCell.updates]
  · rw [hrequests]
    exact .cons (by decide +kernel) (.cons (by decide +kernel) .nil)

end Examples

end Bolo.Postgres
