import Bolo.Kernel.Steps
import Bolo.Kernel.WellFormed
import Bolo.Library.Word
import Mathlib.Data.List.DropRight

/-!
# The event buffer

The buffer is a part of the kernel of its own: EVENT submissions push onto it, and nothing
else of the reactor reads or writes it. A push trims the list from its head. By number, it
keeps the last events; by age, it drops the expired ones in front of the first that is not.
The count is a cached length, and right as long as it fits its type.
-/
namespace Bolo

open Library

variable {R Re : Type}

/-- The list and the cached length of a database. -/
structure EventBuffer where
  events : List Event
  count : Int32

def Db.buffer (db : Db R Re) : EventBuffer := ⟨db.events, db.eventsCount⟩

/-- `buffer_event`, on the part of the database that it works on. -/
def EventBuffer.push (max : Int32) (keep : EventsKeep) (b : EventBuffer) (ev : Event) :
    Except Fault EventBuffer :=
  if 0 < max then do
    let r ← match keep with
      | .number => trimNumber max (b.count + 1) (b.events ++ [ev])
      | .time => trimTime (ev.timestamp - max) (b.count + 1) (b.events ++ [ev])
    return ⟨r.2, r.1⟩
  else .ok b

/-- A push, as a step that emits nothing. -/
def EventBuffer.step (max : Int32) (keep : EventsKeep) (b : EventBuffer) (ev : Event) :
    Except Fault (EventBuffer × List Empty) := do
  return (← b.push max keep ev, [])

theorem EventBuffer.step_eq_ok {max : Int32} {keep : EventsKeep} {b b' : EventBuffer} {ev : Event}
    {out : List Empty} : b.step max keep ev = .ok (b', out) ↔ b.push max keep ev = .ok b' := by
  have hout : [] = out := Subsingleton.elim _ _
  simp only [step, bind_eq_ok, pure_eq_ok, Prod.mk.injEq, hout, and_true, exists_eq_right]

theorem bufferEvent_eq (db : Db R Re) (ev : Event) (max : Int32) (keep : EventsKeep) :
    bufferEvent db ev max keep = do
      let b ← db.buffer.push max keep ev
      return { db with events := b.events, eventsCount := b.count } := by
  unfold bufferEvent EventBuffer.push
  split
  · cases keep <;> simp only [bind_assoc, pure_bind] <;> rfl
  · rfl

/-- The event that an EVENT reports. -/
def decodeEvent (p : Pdu) : Option Event :=
  (p.string 1).map fun ts =>
    { timestamp := (strtol ts).toInt32, name := p.string 2, extra := p.string 3 }

def Input.event : Input → Option Event
  | .listener _ p => if p.is .event 4 4 then decodeEvent p else none
  | _ => none

theorem receiveEvent_eq {p : Pdu} (hp : p.is .event 4 4) (config : Config) (db : Db R Re) :
    ∃ ev out, decodeEvent p = some ev ∧ ev.Wf ∧ receiveEvent config db p = do
      let b ← db.buffer.push config.eventsMax config.eventsKeep ev
      return ({ db with events := b.events, eventsCount := b.count }, [out]) := by
  obtain ⟨ts, name, extra, hts, hname, hextra⟩ := strings_of_event hp
  refine ⟨⟨(strtol ts).toInt32, some name, some extra⟩,
    ⟨Tag.event.text, [decimalInt (strtol ts).toInt32.toInt, name, extra]⟩,
    by simp [decodeEvent, hts, hname, hextra], ⟨⟨name, rfl⟩, extra, rfl⟩, ?_⟩
  simp only [receiveEvent, broadcastEvent, bufferEvent_eq, hts, hname, hextra, deref_some,
    bind_assoc, pure_bind]
  rfl

/-! ## The buffer within the kernel -/

section Kernel

variable [Double R] [Pcre Re] [HashOrder]

theorem listen_event {p : Pdu} (hp : p.is .event 4 4) (now : Int32) (k : Kernel R Re) :
    listen now p k = do
      let r ← receiveEvent k.server.config k.db p
      return (k.setDb r.1, r.2.map .broadcast) := by
  simp only [listen, Pdu.is_of_ne hp (show Tag.event ≠ .state by simp),
    Pdu.is_of_ne hp (show Tag.event ≠ .counter by simp),
    Pdu.is_of_ne hp (show Tag.event ≠ .sample by simp),
    Pdu.is_of_ne hp (show Tag.event ≠ .rate by simp), hp]
  rfl

theorem listen_buffer {now : Int32} {p : Pdu} {k k' : Kernel R Re} {es : List Effect}
    (hp : p.is .event 4 4 = false) (h : listen now p k = .ok (k', es)) :
    k'.db.buffer = k.db.buffer ∧ k'.server.config = k.server.config := by
  cases listen_spec h with
  | @state db out _ hr =>
    rcases receiveState_spec hr with ⟨-, rfl, -⟩ | ⟨n, ts, code, msg, c, t, -, -, rfl, -⟩ <;>
      exact ⟨rfl, rfl⟩
  | @series db out κ _ hr =>
    rcases κ.series.receive_spec hr with ⟨-, rfl, -⟩ | ⟨n, ts, v, c, t, -, -, rfl, -⟩
    · exact ⟨rfl, rfl⟩
    · cases κ <;> exact ⟨rfl, rfl⟩
  | @event db out hp' hr => simp [hp] at hp'
  | setKeys _ => exact ⟨rfl, rfl⟩
  | other _ _ => exact ⟨rfl, rfl⟩

omit [Double R] [HashOrder] in
theorem forgetBy_buffer (p : Pdu) (db : Db R Re) : (forgetBy p db).buffer = db.buffer := by
  unfold forgetBy
  split <;> rfl

/-- A message pushes the event it reports, if any, and leaves the buffer alone otherwise. -/
theorem reactor_buffer {k k' : Kernel R Re} {i : Input} {es : List Effect}
    (h : reactor k i = .ok (k', es)) :
    k'.server.config = k.server.config ∧
      i.event.elim (k'.db.buffer = k.db.buffer) fun ev =>
        k.db.buffer.push k.server.config.eventsMax k.server.config.eventsKeep ev =
          .ok k'.db.buffer := by
  cases i with
  | tock clock =>
    obtain ⟨t⟩ := tock_spec h
    exact ⟨t.config_eq, by simp [Input.event, Db.buffer, t.events_eq, t.eventsCount_eq]⟩
  | management p =>
    simp only [reactor, bind_eq_ok, pure_eq_ok, Prod.mk.injEq] at h
    obtain ⟨⟨s, out⟩, hm, rfl, -⟩ := h
    obtain ⟨hconfig, -, hdb⟩ := manage_spec hm
    refine ⟨hconfig, ?_⟩
    change s.db.buffer = k.server.db.buffer
    rw [hdb, forgetBy_buffer]
  | listener now p =>
    cases hp : p.is .event 4 4 with
    | false =>
      obtain ⟨hbuffer, hconfig⟩ := listen_buffer hp h
      exact ⟨hconfig, by simpa [Input.event, hp] using hbuffer⟩
    | true =>
      obtain ⟨ev, out, hev, -, hr⟩ := receiveEvent_eq hp k.server.config k.db
      simp only [reactor, listen_event hp, hr, bind_eq_ok, pure_eq_ok, Prod.mk.injEq] at h
      obtain ⟨_, ⟨b, hb, rfl⟩, rfl, -⟩ := h
      refine ⟨rfl, ?_⟩
      simp only [Input.event, hp, hev, if_true, Option.elim_some]
      exact hb

/-- The event buffer of a kernel with the given settings. -/
def bufferComponent (max : Int32) (keep : EventsKeep) :
    Component (@reactor R Re _ _ _) EventBuffer Event Empty where
  inv k := k.server.config.eventsMax = max ∧ k.server.config.eventsKeep = keep
  proj k := k.db.buffer
  view := Input.event
  obs _ := none
  cell := EventBuffer.step max keep
  inv_step hk h := by rwa [(reactor_buffer h).1]
  skip hk hv h := ⟨by simpa [hv] using (reactor_buffer h).2, by simp⟩
  act {s i ev t out} hk hv h := by
    have hpush := (reactor_buffer h).2
    rw [hv, hk.1, hk.2] at hpush
    exact EventBuffer.step_eq_ok.mpr hpush

end Kernel

/-! ## Trimming by number -/

theorem trimNumber_spec {max count : Int32} {es : List Event} (hmax : 0 < max)
    (hcount : count.toInt = es.length) :
    ∃ c, trimNumber max count es = .ok (c, es.rtake max.toInt.toNat) ∧
      c.toInt = (es.rtake max.toInt.toNat).length := by
  have hpos : 0 < max.toInt := Int32.lt_iff_toInt_lt.mp hmax
  induction es generalizing count with
  | nil =>
    have hle : ¬max < count := by
      rw [Int32.lt_iff_toInt_lt, hcount]
      simp only [List.length_nil]
      omega
    exact ⟨count, by simp [trimNumber, hle], by simpa using hcount⟩
  | cons e es ih =>
    have hlen : (e :: es).length = es.length + 1 := rfl
    have htop := count.toInt_lt
    unfold trimNumber
    split
    · case isTrue hlt =>
        rw [Int32.lt_iff_toInt_lt] at hlt
        have hone : (1 : Int32).toInt = 1 := rfl
        have hpred : (count - 1).toInt = es.length := by
          rw [toInt_sub_of_bounds] <;> omega
        have hdrop : (e :: es).rtake max.toInt.toNat = es.rtake max.toInt.toNat := by
          unfold List.rtake
          rw [show (e :: es).length - max.toInt.toNat = es.length - max.toInt.toNat + 1 by omega]
          rfl
        rw [hdrop]
        exact ih hpred
    · case isFalse hge =>
        rw [Int32.lt_iff_toInt_lt] at hge
        have hall : (e :: es).rtake max.toInt.toNat = e :: es := by
          unfold List.rtake
          rw [show (e :: es).length - max.toInt.toNat = 0 by omega, List.drop_zero]
        exact ⟨count, by rw [hall], by rw [hall, hcount]⟩

theorem rtake_rtake_concat {α : Type} (l : List α) (a : α) (n : Nat) :
    (l.rtake n ++ [a]).rtake n = (l ++ [a]).rtake n := by
  cases n with
  | zero => simp
  | succ n =>
    rw [List.rtake_concat_succ, List.rtake_concat_succ]
    simp only [List.rtake, List.length_drop, List.drop_drop]
    congr 2
    omega

namespace EventBuffer

/-- The count is the length. -/
def Counted (b : EventBuffer) : Prop := b.count.toInt = b.events.length

theorem Counted.succ {b : EventBuffer} (h : b.Counted) (hroom : b.events.length + 1 < 2 ^ 31)
    (ev : Event) : (b.count + 1).toInt = (b.events ++ [ev]).length := by
  have hone : (1 : Int32).toInt = 1 := rfl
  have hlen : (b.events ++ [ev]).length = b.events.length + 1 := by simp
  unfold Counted at h
  rw [toInt_add_of_bounds] <;> omega

theorem push_number {max : Int32} (hmax : 0 < max) {b : EventBuffer} (hb : b.Counted)
    (hroom : b.events.length + 1 < 2 ^ 31) (ev : Event) :
    ∃ b', b.push max .number ev = .ok b' ∧ b'.Counted ∧
      b'.events = (b.events ++ [ev]).rtake max.toInt.toNat := by
  obtain ⟨c, htrim, hc⟩ := trimNumber_spec hmax (hb.succ hroom ev)
  refine ⟨⟨_, c⟩, ?_, hc, rfl⟩
  simp only [push, hmax, htrim, if_true]
  rfl

/-- No count exceeds the largest `int`, so the list is never trimmed. -/
theorem push_unlimited {max : Int32} (hmax : max.toInt = 2 ^ 31 - 1) (b : EventBuffer)
    (ev : Event) : b.push max .number ev = .ok ⟨b.events ++ [ev], b.count + 1⟩ := by
  have hpos : 0 < max := Int32.lt_iff_toInt_lt.mpr (by simp [hmax])
  have hle : ¬max < b.count + 1 := by
    rw [Int32.lt_iff_toInt_lt]
    have := (b.count + 1).toInt_lt
    omega
  have htrim : trimNumber max (b.count + 1) (b.events ++ [ev]) =
      .ok (b.count + 1, b.events ++ [ev]) := by
    cases h : b.events ++ [ev] with
    | nil => simp at h
    | cons e es => simp [trimNumber, hle]
  simp [push, hpos, htrim, bind, Except.bind, pure, Except.pure]

/-- What a buffer that keeps a number of events holds after the events `l`. -/
def HoldsLast (max : Int32) (b : EventBuffer) (l : List Event) : Prop :=
  if max.toInt < 2 ^ 31 - 1 then b.Counted ∧ b.events = l.rtake max.toInt.toNat else b.events = l

theorem HoldsLast.push {max : Int32} (hmax : 0 < max) {b : EventBuffer} {l : List Event}
    (h : b.HoldsLast max l) (ev : Event) :
    ∃ b', b.push max .number ev = .ok b' ∧ b'.HoldsLast max (l ++ [ev]) := by
  have hpos : 0 < max.toInt := Int32.lt_iff_toInt_lt.mp hmax
  unfold HoldsLast at h ⊢
  split at h
  · case isTrue hlt =>
      obtain ⟨hcount, hevents⟩ := h
      have hlen : b.events.length ≤ max.toInt.toNat := by
        rw [hevents, List.rtake, List.length_drop]
        omega
      obtain ⟨b', hpush, hcount', hevents'⟩ := push_number hmax hcount (by omega) ev
      rw [hevents, rtake_rtake_concat] at hevents'
      exact ⟨b', hpush, by rw [if_pos hlt]; exact ⟨hcount', hevents'⟩⟩
  · case isFalse hge =>
      have hbound := max.toInt_lt
      exact ⟨_, push_unlimited (by omega) b ev, by rw [if_neg hge, h]⟩

theorem HoldsLast.run {max : Int32} (hmax : 0 < max) {b b' : EventBuffer} {evs : List Event}
    {out : List Empty} (hcount : b.count = 0) (hevents : b.events = [])
    (h : Machine.run (step max .number) b evs = .ok (b', out)) : b'.HoldsLast max evs := by
  refine Machine.run_inputs (P := HoldsLast max) (Q := fun _ _ => True) (l := []) ?_ ?_
    (fun _ _ _ _ => trivial) h
  · intro b ev t out l hb _ hstep
    obtain ⟨t', hpush, ht'⟩ := hb.push hmax ev
    obtain rfl : t' = t := by simpa [hpush] using step_eq_ok.mp hstep
    exact ht'
  · unfold HoldsLast
    split <;> simp [Counted, hcount, hevents]

theorem HoldsLast.events_eq_iff {max : Int32} {b : EventBuffer} {l : List Event}
    (hmax : 0 < max) (h : b.HoldsLast max l) :
    b.events = l.rtake max.toInt.toNat ↔
      max.toInt < 2 ^ 31 - 1 ∨ l.length ≤ max.toInt.toNat := by
  have hpos : 0 < max.toInt := Int32.lt_iff_toInt_lt.mp hmax
  unfold HoldsLast at h
  split at h
  · case isTrue hlt => exact ⟨fun _ => .inl hlt, fun _ => h.2⟩
  · case isFalse hge =>
      rw [h]
      constructor
      · intro heq
        have hlen := congrArg List.length heq
        rw [List.rtake, List.length_drop] at hlen
        omega
      · intro hle
        have hall : l.length - max.toInt.toNat = 0 := by omega
        rw [List.rtake, hall, List.drop_zero]

end EventBuffer

/-! ## Trimming by age -/

theorem trimTime_spec {cut count c : Int32} {es kept : List Event}
    (h : trimTime cut count es = .ok (c, kept)) :
    kept = es.dropWhile (fun ev => !decide (cut < ev.timestamp)) ∧
      (count.toInt = es.length → c.toInt = kept.length) := by
  induction es generalizing count with
  | nil => simp [trimTime] at h
  | cons e es ih =>
    unfold trimTime at h
    split at h
    · case isTrue hlt =>
        obtain ⟨rfl, rfl⟩ : count = c ∧ e :: es = kept := by simpa using h
        exact ⟨by simp [hlt], id⟩
    · case isFalse hge =>
        obtain ⟨hkept, hcount⟩ := ih h
        refine ⟨by simpa [hge] using hkept, fun hlen => hcount ?_⟩
        have hone : (1 : Int32).toInt = 1 := rfl
        have htop := count.toInt_lt
        rw [List.length_cons] at hlen
        rw [toInt_sub_of_bounds] <;> omega

/-- The loop stops if and only if there is an event for it to stop at. -/
theorem trimTime_ok_iff {cut : Int32} {es : List Event} (count : Int32) :
    (∃ r, trimTime cut count es = .ok r) ↔ ∃ ev ∈ es, cut < ev.timestamp := by
  induction es generalizing count with
  | nil => simp [trimTime]
  | cons e es ih =>
    unfold trimTime
    split
    · case isTrue hlt => exact ⟨fun _ => ⟨e, by simp, hlt⟩, fun _ => ⟨_, rfl⟩⟩
    · case isFalse hge =>
        rw [ih]
        simp [hge]

/-- Events in order of time. -/
def Chronological (l : List Event) : Prop := l.Pairwise fun a b => a.timestamp ≤ b.timestamp

theorem dropWhile_eq_filter {cut : Int32} {l : List Event} (h : Chronological l) :
    l.dropWhile (fun ev => !decide (cut < ev.timestamp)) =
      l.filter fun ev => cut < ev.timestamp := by
  induction l with
  | nil => rfl
  | cons e l ih =>
    obtain ⟨hle, hl⟩ := List.pairwise_cons.mp h
    by_cases hlt : cut < e.timestamp
    · have hall : ∀ ev ∈ l, cut < ev.timestamp := fun ev hev =>
        Int32.lt_of_lt_of_le hlt (hle ev hev)
      rw [List.dropWhile_cons_of_neg (by simpa using hlt)]
      exact (List.filter_eq_self.mpr (by simpa [hlt] using hall)).symm
    · simpa [hlt] using ih hl

/-- The events newer than the last one less `max` seconds. -/
def unexpired (max : Int32) (l : List Event) : List Event :=
  l.filter fun ev => ∀ last ∈ l.getLast?, last.timestamp.toInt - max.toInt < ev.timestamp.toInt

namespace EventBuffer

theorem push_time {max : Int32} (hmax : 0 < max) {b : EventBuffer} {l : List Event} {ev : Event}
    (hb : b.events = unexpired max l) (hl : Chronological (l ++ [ev]))
    (hev : -2 ^ 31 ≤ ev.timestamp.toInt - max.toInt) :
    ∃ b', b.push max .time ev = .ok b' ∧ b'.events = unexpired max (l ++ [ev]) := by
  have hpos : 0 < max.toInt := Int32.lt_iff_toInt_lt.mp hmax
  have htop := ev.timestamp.toInt_lt
  have hcut : (ev.timestamp - max).toInt = ev.timestamp.toInt - max.toInt :=
    toInt_sub_of_bounds hev (by omega)
  -- the new event is never expired, so the loop stops at it at the latest
  have hnew : ev.timestamp - max < ev.timestamp := by
    rw [Int32.lt_iff_toInt_lt, hcut]
    omega
  have hexists : ∃ e ∈ b.events ++ [ev], ev.timestamp - max < e.timestamp := ⟨ev, by simp, hnew⟩
  obtain ⟨r, hr⟩ := (trimTime_ok_iff (b.count + 1)).mpr hexists
  refine ⟨⟨r.2, r.1⟩, by simp [push, hmax, hr, bind, Except.bind, pure, Except.pure], ?_⟩
  obtain ⟨hold, -, hlast⟩ := List.pairwise_append.mp hl
  have hchron : Chronological (b.events ++ [ev]) := by
    rw [hb]
    exact hl.sublist (List.filter_sublist.append_right _)
  rw [(trimTime_spec hr).1, dropWhile_eq_filter hchron, hb]
  simp only [unexpired, List.filter_append, List.filter_filter, List.getLast?_concat,
    Option.mem_some_iff, forall_eq', Int32.lt_iff_toInt_lt, hcut]
  congr 1
  refine List.filter_congr fun e he => ?_
  have hmono : ∀ last ∈ l.getLast?, last.timestamp.toInt ≤ ev.timestamp.toInt := fun last hm =>
    Int32.le_iff_toInt_le.mp (hlast last (List.mem_of_getLast? hm) ev (by simp))
  grind

/-- Where the loop stops, the event that was pushed is the last one of the list. -/
theorem push_time_last {max : Int32} (hmax : 0 < max) {b b' : EventBuffer} {ev : Event}
    (h : b.push max .time ev = .ok b') : b'.events.getLast? = some ev := by
  simp only [push, hmax, if_true, bind_eq_ok, pure_eq_ok] at h
  obtain ⟨r, hr, rfl⟩ := h
  obtain ⟨e, he, hlt⟩ := (trimTime_ok_iff _).mp ⟨r, hr⟩
  have hsuffix : r.2 <:+ b.events ++ [ev] := by
    rw [(trimTime_spec hr).1]
    exact List.dropWhile_suffix _
  have hne : r.2 ≠ [] := by
    rw [(trimTime_spec hr).1]
    intro hnil
    simpa [hlt] using List.dropWhile_eq_nil_iff.mp hnil e he
  rw [List.getLast?_eq_some_getLast hne, hsuffix.getLast hne, List.getLast_concat]

theorem push_time_ok_iff {max : Int32} (hmax : 0 < max) {b : EventBuffer} {ev : Event} :
    (∃ b', b.push max .time ev = .ok b') ↔
      -2 ^ 31 ≤ ev.timestamp.toInt - max.toInt ∨
        ∃ e ∈ b.events, ev.timestamp.toInt - max.toInt + 2 ^ 32 < e.timestamp.toInt := by
  have hpos : 0 < max.toInt := Int32.lt_iff_toInt_lt.mp hmax
  have hlo := ev.timestamp.le_toInt
  have hhi := ev.timestamp.toInt_lt
  have htrim : (∃ b', b.push max .time ev = .ok b') ↔
      ∃ e ∈ b.events ++ [ev], ev.timestamp - max < e.timestamp := by
    rw [← trimTime_ok_iff (b.count + 1)]
    simp only [push, hmax, if_true, bind_eq_ok, pure_eq_ok]
    exact ⟨fun ⟨_, r, hr, _⟩ => ⟨r, hr⟩, fun ⟨r, hr⟩ => ⟨_, r, hr, rfl⟩⟩
  rw [htrim]
  by_cases hbound : -2 ^ 31 ≤ ev.timestamp.toInt - max.toInt
  · refine ⟨fun _ => .inl hbound, fun _ => ⟨ev, by simp, ?_⟩⟩
    rw [Int32.lt_iff_toInt_lt, toInt_sub_of_bounds hbound (by omega)]
    omega
  · -- the difference wraps around, and the new event is older than it
    have hcut := toInt_sub_of_underflow (x := ev.timestamp) (y := max) (by omega)
    have hnew : ¬ev.timestamp.toInt - max.toInt + 2 ^ 32 < ev.timestamp.toInt := by
      have := max.toInt_lt
      omega
    simp only [List.mem_append, List.mem_singleton, or_and_right, exists_or, exists_eq_left,
      Int32.lt_iff_toInt_lt, hcut, hnew, or_false, hbound, false_or]

theorem run_time {max : Int32} (hmax : 0 < max) {b b' : EventBuffer} {evs : List Event}
    {out : List Empty} (hb : b.events = []) (hchron : Chronological evs)
    (hts : ∀ ev ∈ evs, -2 ^ 31 ≤ ev.timestamp.toInt - max.toInt)
    (h : Machine.run (step max .time) b evs = .ok (b', out)) : b'.events = unexpired max evs := by
  refine Machine.run_inputs (P := fun b l => b.events = unexpired max l)
    (Q := fun l ev => Chronological (l ++ [ev]) ∧ -2 ^ 31 ≤ ev.timestamp.toInt - max.toInt)
    (l := []) ?_ hb ?_ h
  · intro b ev t out l hb hev hstep
    obtain ⟨t', hpush, ht'⟩ := push_time hmax hb hev.1 hev.2
    obtain rfl : t' = t := by simpa [hpush] using step_eq_ok.mp hstep
    exact ht'
  · intro before ev after heq
    refine ⟨hchron.sublist ?_, hts ev (by simp [heq])⟩
    simp [heq]

/-- A push on a buffer with room keeps the count right and the number within its limit. -/
theorem Counted.push {max : Int32} {keep : EventsKeep} {b b' : EventBuffer} {ev : Event}
    (hb : b.Counted) (hroom : 0 < max → b.events.length + 1 < 2 ^ 31)
    (h : b.push max keep ev = .ok b') :
    b'.Counted ∧ (0 < max → keep = .number → (b'.events.length : Int) ≤ max.toInt) := by
  by_cases hmax : 0 < max
  · have hpos : 0 < max.toInt := Int32.lt_iff_toInt_lt.mp hmax
    cases keep with
    | number =>
      obtain ⟨t, hpush, hcount, hevents⟩ := push_number hmax hb (hroom hmax) ev
      obtain rfl : t = b' := by simpa [hpush] using h
      refine ⟨hcount, fun _ _ => ?_⟩
      rw [hevents, List.rtake, List.length_drop]
      omega
    | time =>
      simp only [EventBuffer.push, hmax, if_true, bind_eq_ok, pure_eq_ok] at h
      obtain ⟨r, hr, rfl⟩ := h
      exact ⟨(trimTime_spec hr).2 (hb.succ (hroom hmax) ev), by simp⟩
  · simp only [EventBuffer.push, hmax, if_false, Except.ok.injEq] at h
    exact ⟨h ▸ hb, fun h => absurd h hmax⟩

end EventBuffer

end Bolo
