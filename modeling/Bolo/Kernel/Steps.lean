import Bolo.Kernel.Handlers

/-!
# What a step can do

One inversion lemma for each kind of input. A tick is four loops over four tables, each
behind its timer, and effects that concern no datapoint. A listener PDU is handled by one
handler. A management PDU leaves the database alone unless it is a FORGET, and sends nothing but
replies.
-/
namespace Bolo

open Library

variable {R Re : Type}

/-- An effect that says nothing about a datapoint. -/
def Effect.Quiet : Effect → Prop
  | .broadcast p => p.type = Tag.setKeys.text
  | _ => True

/-- An effect that only the requester or the disk sees. -/
def Effect.Private : Effect → Prop
  | .broadcast _ => False
  | .beacon _ => False
  | _ => True

theorem Effect.Private.quiet {e : Effect} (h : e.Private) : e.Quiet := by
  cases e <;> trivial

def Timer.fire (t : Timer) (now : Int32) : Timer := if t.due now then { t with last := now } else t

/-! ## Ticks -/

section Tick

variable [Double R]

/-- The table of windowed datapoints after a tick, and what the tick broadcast. -/
def Series.Swept {α V : Type} (S : Series R Re α V) (k : Kernel R Re) (now : Int32)
    (t : Table CString α) (out : List Pdu) : Prop :=
  (S.table k.db).sweep (Table.gate (S.close (now - k.server.config.gracePeriod))
    (k.tick.due now)) = .ok (t, out)

theorem closeWindows_spec {now : Int32} {k k' : Kernel R Re} {out : List Pdu}
    (h : closeWindows now k = .ok (k', out)) :
    ∃ tc ts tr a b c, counterSeries.Swept k now tc a ∧ sampleSeries.Swept k now ts b ∧
      rateSeries.Swept k now tr c ∧ out = a ++ b ++ c ∧
      k' = { k.setDb { k.db with counters := tc, samples := ts, rates := tr } with
        tick := k.tick.fire now } := by
  unfold closeWindows at h
  unfold Series.Swept
  simp only [Table.sweep_gate, Timer.fire]
  by_cases hd : k.tick.due now = true
  · simp only [hd, if_true, bind_eq_ok, pure_eq_ok, Prod.exists, Prod.mk.injEq] at h ⊢
    obtain ⟨_, a, ha, _, b, hb, _, c, hc, rfl, rfl⟩ := h
    obtain ⟨tc, hsa, rfl⟩ := counterSeries.tick_spec ha
    obtain ⟨ts, hsb, rfl⟩ := sampleSeries.tick_spec hb
    obtain ⟨tr, hsc, rfl⟩ := rateSeries.tick_spec hc
    exact ⟨tc, ts, tr, a, b, c, hsa, hsb, hsc, rfl, rfl⟩
  · simp only [hd, if_false, Except.ok.injEq, Prod.mk.injEq, Bool.false_eq_true] at h ⊢
    exact ⟨_, _, _, [], [], [], ⟨rfl, rfl⟩, ⟨rfl, rfl⟩, ⟨rfl, rfl⟩, h.2.symm, h.1.symm⟩

omit [Double R] in
theorem sweepFreshness_spec {clock : Clock} {k k' : Kernel R Re} {out : List Pdu}
    (h : sweepFreshness clock k = .ok (k', out)) :
    ∃ t, k.db.states.sweep (Table.gate (markStale clock.sweep) (k.freshness.due clock.now)) =
        .ok (t, out) ∧
      k' = { k.setDb { k.db with states := t } with freshness := k.freshness.fire clock.now } := by
  unfold sweepFreshness at h
  simp only [Table.sweep_gate, Timer.fire]
  by_cases hd : k.freshness.due clock.now = true
  · simp only [hd, if_true, bind_eq_ok, pure_eq_ok, Prod.exists, Prod.mk.injEq] at h ⊢
    obtain ⟨_, out', hc, rfl, rfl⟩ := h
    obtain ⟨t, hs, rfl⟩ := checkFreshness_spec hc
    exact ⟨t, hs, rfl⟩
  · simp only [hd, if_false, Except.ok.injEq, Prod.mk.injEq, Bool.false_eq_true] at h ⊢
    exact ⟨_, ⟨rfl, h.2⟩, h.1.symm⟩

omit [Double R] in
theorem beaconSweep_spec (clock : Clock) (k : Kernel R Re) :
    (∃ t, (beaconSweep clock k).1 = { k with sweep := t }) ∧
      ∀ e ∈ (beaconSweep clock k).2, e.Quiet := by
  unfold beaconSweep
  split
  · exact ⟨⟨_, rfl⟩, by simp [Effect.Quiet]⟩
  · exact ⟨⟨_, rfl⟩, by simp⟩

omit [Double R] in
theorem saveState_spec (now : Int32) (k : Kernel R Re) :
    (∃ t, (saveState now k).1 = { k with savestate := t }) ∧
      ∀ e ∈ (saveState now k).2, e.Quiet := by
  unfold saveState
  split
  · refine ⟨⟨_, rfl⟩, fun e he => ?_⟩
    rcases List.mem_append.mp he with he | he
    · obtain ⟨p, hp, rfl⟩ := List.mem_map.mp he
      obtain ⟨frames, -, rfl⟩ := List.mem_map.mp hp
      rfl
    · rcases List.mem_cons.mp he with rfl | he
      · trivial
      · obtain rfl := List.mem_singleton.mp he
        trivial
  · exact ⟨⟨_, rfl⟩, by simp⟩

/-- A completed tick, as four loops that do not read each other's tables. -/
structure Ticked (clock : Clock) (k k' : Kernel R Re) (es : List Effect) where
  outStates : List Pdu
  outSeries : Kind → List Pdu
  beacons : List Effect
  saved : List Effect
  sweptStates : k.db.states.sweep (Table.gate (markStale clock.sweep)
    (k.freshness.due clock.now)) = .ok (k'.db.states, outStates)
  sweptSeries : ∀ κ : Kind, κ.series.Swept k clock.now (κ.series.table k'.db) (outSeries κ)
  quietBeacons : ∀ e ∈ beacons, e.Quiet
  quietSaved : ∀ e ∈ saved, e.Quiet
  stateMatches_eq : k'.db.stateMatches = k.db.stateMatches
  rules_eq : ∀ κ : Kind, κ.series.rules k'.db = κ.series.rules k.db
  events_eq : k'.db.events = k.db.events
  eventsCount_eq : k'.db.eventsCount = k.db.eventsCount
  keys_eq : k'.server.keys = k.server.keys
  config_eq : k'.server.config = k.server.config
  tick_eq : k'.tick = k.tick.fire clock.now
  freshness_eq : k'.freshness = k.freshness.fire clock.now
  effects_eq : es = (outSeries .counter ++ outSeries .sample ++ outSeries .rate).map .broadcast ++
    beacons ++ outStates.map .broadcast ++ saved

theorem tock_spec {clock : Clock} {k k' : Kernel R Re} {es : List Effect}
    (h : tock clock k = .ok (k', es)) : Nonempty (Ticked clock k k' es) := by
  simp only [tock, bind_eq_ok, pure_eq_ok, Prod.exists, Prod.mk.injEq] at h
  obtain ⟨k₁, closed, hclose, k₃, swept, hfresh, hk, hes⟩ := h
  obtain ⟨tc, ts, tr, a, b, c, ha, hb, hc, rfl, hk₁⟩ := closeWindows_spec hclose
  obtain ⟨⟨t, hbeacon⟩, hbeacons⟩ := beaconSweep_spec clock k₁
  rw [hbeacon] at hfresh
  obtain ⟨u, hu, hk₃⟩ := sweepFreshness_spec hfresh
  obtain ⟨⟨t', hsave⟩, hsaved⟩ := saveState_spec clock.now k₃
  rw [hsave, hk₃, hk₁] at hk
  rw [hk₁] at hu
  subst hk
  exact ⟨{
    outStates := swept
    outSeries := fun κ => Kind.casesOn κ a b c
    beacons := _, saved := _
    sweptStates := hu
    sweptSeries := fun κ => by cases κ; exacts [ha, hb, hc]
    quietBeacons := hbeacons, quietSaved := hsaved
    stateMatches_eq := rfl
    rules_eq := fun κ => by cases κ <;> rfl
    events_eq := rfl, eventsCount_eq := rfl, keys_eq := rfl, config_eq := rfl
    tick_eq := rfl, freshness_eq := rfl
    effects_eq := hes.symm }⟩

end Tick

/-! ## Submissions and requests -/

variable [Double R] [Pcre Re] [HashOrder]

/-- What one listener PDU does: one handler takes it, or none. -/
inductive Listened (now : Int32) (p : Pdu) (k : Kernel R Re) :
    Kernel R Re → List Effect → Prop
  | state {db out} (hp : p.is .state 5 5) (h : receiveState now k.db p = .ok (db, out)) :
      Listened now p k (k.setDb db) (out.map .broadcast)
  | series {db out} (κ : Kind) (hp : p.is κ.tag 4 κ.maxFrames)
      (h : κ.series.receive k.db p = .ok (db, out)) :
      Listened now p k (k.setDb db) (out.map .broadcast)
  | event {db out} (hp : p.is .event 4 4)
      (h : receiveEvent k.server.config k.db p = .ok (db, out)) :
      Listened now p k (k.setDb db) (out.map .broadcast)
  | setKeys (hp : p.is .setKeys 3 0) :
      Listened now p k
        { k with server := { k.server with keys := setKeys k.server.keys p.frames } } []
  | other (hs : p.is .state 5 5 = false)
      (hκ : ∀ κ : Kind, p.is κ.tag 4 κ.maxFrames = false) :
      Listened now p k k []

theorem listen_spec {now : Int32} {p : Pdu} {k k' : Kernel R Re} {es : List Effect}
    (h : listen now p k = .ok (k', es)) : Listened now p k k' es := by
  have handled {r : Except Fault (Db R Re × List Pdu)}
      (hr : (do let x ← r; return (k.setDb x.1, x.2.map Effect.broadcast)) = .ok (k', es)) :
      ∃ db out, r = .ok (db, out) ∧ k' = k.setDb db ∧ es = out.map .broadcast := by
    simp only [bind_eq_ok, pure_eq_ok, Prod.exists, Prod.mk.injEq] at hr
    obtain ⟨db, out, hr, rfl, rfl⟩ := hr
    exact ⟨db, out, hr, rfl, rfl⟩
  simp only [listen] at h
  by_cases hs : p.is .state 5 5 = true
  · obtain ⟨db, out, hr, rfl, rfl⟩ := handled (by simpa [hs] using h)
    exact .state hs hr
  by_cases hc : p.is .counter 4 4 = true
  · obtain ⟨db, out, hr, rfl, rfl⟩ := handled (by simpa [hs, hc] using h)
    exact .series .counter hc hr
  by_cases hm : p.is .sample 4 0 = true
  · obtain ⟨db, out, hr, rfl, rfl⟩ := handled (by simpa [hs, hc, hm] using h)
    exact .series .sample hm hr
  by_cases hr : p.is .rate 4 4 = true
  · obtain ⟨db, out, hr', rfl, rfl⟩ := handled (by simpa [hs, hc, hm, hr] using h)
    exact .series .rate hr hr'
  by_cases he : p.is .event 4 4 = true
  · obtain ⟨db, out, hr', rfl, rfl⟩ := handled (by simpa [hs, hc, hm, hr, he] using h)
    exact .event he hr'
  simp only [hs, hc, hm, hr, he, if_false, Bool.false_eq_true] at h
  split at h
  · case isTrue hk =>
      simp only [Bool.and_eq_true] at hk
      simp only [Except.ok.injEq, Prod.mk.injEq] at h
      obtain ⟨rfl, rfl⟩ := h
      exact .setKeys hk.1
  · simp only [Except.ok.injEq, Prod.mk.injEq] at h
    obtain ⟨rfl, rfl⟩ := h
    refine .other (by simpa using hs) fun κ => ?_
    cases κ with
    | counter => exact eq_false_of_ne_true hc
    | sample => exact eq_false_of_ne_true hm
    | rate => exact eq_false_of_ne_true hr

omit [Double R] [Pcre Re] [HashOrder] in
private theorem replyState_private {db : Db R Re} {name : CString} {e : Effect}
    (h : replyState db name = .ok e) : e.Private := by
  unfold replyState at h
  split at h
  · cases h
    trivial
  · simp only [bind_eq_ok, pure_eq_ok] at h
    obtain ⟨summary, -, rfl⟩ := h
    trivial

omit [Double R] [HashOrder] in
/-- The request a FORGET makes, if its pattern compiles. -/
def decodeForget (p : Pdu) : Option (UInt16 × Re × UInt8) :=
  if p.is .forget 4 4 then do
    let payload ← p.string 1
    let ignore ← p.string 3
    let pattern ← p.string 2
    match (Pcre.compile pattern : Except CString Re) with
    | .error _ => none
    | .ok re => some ((strtoul payload).toUInt16, re, (strtoul ignore).toUInt8)
  else none

/-- The database after a management PDU. -/
def forgetBy (p : Pdu) (db : Db R Re) : Db R Re :=
  match decodeForget p with
  | none => db
  | some (payload, re, ignore) => forget payload re ignore db

omit [Double R] [HashOrder] in
theorem forgetBy_of_is {p : Pdu} {tag : Tag} {min max : Nat} (hp : p.is tag min max)
    (htag : tag ≠ .forget) (db : Db R Re) : forgetBy p db = db := by
  have hf : p.is .forget 4 4 = false := Pdu.is_of_ne hp htag
  simp [forgetBy, decodeForget, hf]

omit [Double R] in
/-- A request changes the database only as a FORGET, and never the settings. -/
theorem manage_spec {s s' : Server R Re} {p : Pdu} {es : List Effect}
    (h : manage s p = .ok (s', es)) :
    s'.config = s.config ∧ (∀ e ∈ es, e.Private) ∧ s'.db = forgetBy p s.db := by
  have replied {s₁ : Server R Re} {e : Effect} {tag : Tag} {min max : Nat}
      (hr : s₁ = s' ∧ [e] = es) (hp : p.is tag min max) (htag : tag ≠ .forget)
      (hdb : s₁.db = s.db) (hc : s₁.config = s.config) (he : e.Private) :
      s'.config = s.config ∧ (∀ e ∈ es, e.Private) ∧ s'.db = forgetBy p s.db := by
    obtain ⟨rfl, rfl⟩ := hr
    exact ⟨hc, by simpa using he, by rw [forgetBy_of_is hp htag, hdb]⟩
  unfold manage at h
  split at h
  · case isTrue hp =>
      simp only [bind_eq_ok, pure_eq_ok, Prod.mk.injEq] at h
      obtain ⟨name, -, e, he, hr⟩ := h
      exact replied hr hp (by simp) rfl rfl (replyState_private he)
  split at h
  · case isTrue hp =>
      simp only [bind_eq_ok, pure_eq_ok, Prod.mk.injEq, replyDump] at h
      obtain ⟨e, ⟨parts, -, text, -, rfl⟩, hr⟩ := h
      exact replied hr hp (by simp) rfl rfl trivial
  split at h
  · case isTrue hp =>
      simp only [Except.ok.injEq, Prod.mk.injEq] at h
      exact replied h hp (by simp) rfl rfl trivial
  split at h
  · case isTrue hp =>
      simp only [Except.ok.injEq, Prod.mk.injEq] at h
      exact replied h hp (by simp) rfl rfl trivial
  split at h
  · case isTrue hp =>
      simp only [bind_eq_ok] at h
      obtain ⟨pattern, -, h⟩ := h
      split at h
      · simp only [pure_eq_ok, Prod.mk.injEq] at h
        exact replied h hp (by simp) rfl rfl trivial
      · simp only [pure_eq_ok, Prod.mk.injEq] at h
        exact replied h hp (by simp) rfl rfl trivial
  split at h
  · case isTrue hp =>
      simp only [bind_eq_ok, pure_eq_ok, Prod.mk.injEq, replyEvents] at h
      obtain ⟨since, -, e, ⟨parts, -, text, -, rfl⟩, hr⟩ := h
      exact replied hr hp (by simp) rfl rfl trivial
  split at h
  · case isTrue hp =>
      simp only [Except.ok.injEq, Prod.mk.injEq] at h
      obtain ⟨rfl, rfl⟩ := h
      exact ⟨rfl, by simp [Effect.Private, reply], (forgetBy_of_is hp (by simp) _).symm⟩
  split at h
  · case isTrue hp =>
      simp only [bind_eq_ok, pure_eq_ok, Prod.mk.injEq, deref_eq_ok] at h
      obtain ⟨payload, hpay, ignore, hign, pattern, hpat, rfl, rfl⟩ := h
      simp only [forgetBy, decodeForget, hp, hpay, hign, hpat, receiveForget, if_true,
        Option.bind_eq_bind, Option.bind_some]
      cases (Pcre.compile pattern : Except CString Re) with
      | error e => exact ⟨trivial, by simp [Effect.Private, reply], rfl⟩
      | ok re => exact ⟨trivial, by simp [Effect.Private, reply], rfl⟩
  · case isFalse hp =>
      simp only [Except.ok.injEq, Prod.mk.injEq] at h
      obtain ⟨rfl, rfl⟩ := h
      exact ⟨rfl, by simp, by simp [forgetBy, decodeForget, hp]⟩

end Bolo
