import Bolo.Config.Loaded
import Bolo.Config.Settings
import Bolo.Kernel.Steps
import Bolo.Savefile.Restore

/-!
# Restarting the kernel

What a running kernel holds can be saved and restored, as long as every message brings in
texts that the file can hold: `s_read_record` takes a record with an empty second string
for a broken one, and a length has 16 bits. STATE submissions with an empty message are
dropped by the kernel itself; an event with an empty description is not, and neither is a
type with an empty summary.
-/
namespace Bolo

open Library

variable {R Re : Type}

/-! ## Sizes of records -/

def stateSize (name summary : CString) : Nat := 4 + 7 + (name.length + 1) + (summary.length + 1)

def eventSize (name extra : CString) : Nat := 4 + 4 + (name.length + 1) + (extra.length + 1)

def Kind.bodySize : Kind → Nat
  | .counter => 13
  | .sample => 69
  | .rate => 25

def Kind.recordSize (κ : Kind) (name : CString) : Nat := 4 + κ.bodySize + (name.length + 1)

/-! ## What a run stores -/

variable [Double R]

omit [Double R] in
/-- A message that stores nothing the file cannot hold. A tick gives a state that has expired
the summary of its type. -/
def Input.Storable (k : Kernel R Re) : Input → Prop
  | .tock clock => ∀ e ∈ k.db.states.entries, e.2.expiry ≤ clock.sweep →
      ∀ type ∈ e.2.type, ∀ text ∈ type.summary,
        text.bytes ≠ [] ∧ stateSize e.1 text < 2 ^ 16
  | .listener _ p =>
    (p.is .state 5 5 → ∀ d ∈ decodeState p, stateSize d.1 d.2.2.2 < 2 ^ 16) ∧
    (∀ κ : Kind, p.is κ.tag 4 κ.maxFrames → ∀ d ∈ decodeHead p, κ.recordSize d.1 < 2 ^ 16) ∧
    (p.is .event 4 4 → 0 < k.server.config.eventsMax → ∀ name ∈ p.string 2,
      ∀ extra ∈ p.string 3, extra.bytes ≠ [] ∧ eventSize name extra < 2 ^ 16)
  | .management _ => True

omit [Double R] in
instance (k : Kernel R Re) : (i : Input) → Decidable (i.Storable k)
  | .tock _ => inferInstanceAs (Decidable (∀ e ∈ _, _ ≤ _ → ∀ type ∈ _, ∀ text ∈ _, _ ∧ _ < _))
  | .listener _ p => inferInstanceAs (Decidable ((p.is .state 5 5 → ∀ d ∈ decodeState p, _ < _) ∧
      (∀ κ : Kind, p.is κ.tag 4 κ.maxFrames → ∀ d ∈ decodeHead p, _ < _) ∧
      (p.is .event 4 4 → 0 < _ → ∀ name ∈ _, ∀ extra ∈ _, _ ∧ _ < _)))
  | .management _ => inferInstanceAs (Decidable True)

/-- A database of a configuration that set up `db₀`, with texts that a file can hold. -/
structure Stored [Pcre Re] (db₀ db : Db R Re) : Prop where
  states : db.states.All fun name s => Known db₀.states db₀.stateMatches name ∧
    ∃ t, s.summary = some t ∧ t.bytes ≠ [] ∧ stateSize name t < 2 ^ 16
  series : ∀ κ : Kind, (κ.series.table db).All fun name _ =>
    Known (κ.series.table db₀) (κ.series.rules db₀) name ∧ κ.recordSize name < 2 ^ 16
  events : ∀ ev ∈ db.events, ∃ name extra, ev.name = some name ∧ ev.extra = some extra ∧
    extra.bytes ≠ [] ∧ eventSize name extra < 2 ^ 16
  stateMatches : db.stateMatches = db₀.stateMatches
  rules : ∀ κ : Kind, κ.series.rules db = κ.series.rules db₀

namespace Stored

variable [Pcre Re] {db₀ db : Db R Re}

theorem of_loaded {clock : Nat → Int32} (h : Loaded clock db) : Stored db db where
  states name s hs := by
    obtain ⟨hlen, n, type, -, rfl⟩ := h.states name s hs
    have hpending : pendingSummary.length = 26 := by decide
    refine ⟨.inl (by simp [hs]), _, rfl, by decide, ?_⟩
    simp only [stateSize, hpending, LINE_BUF_SIZE] at hlen ⊢
    omega
  series κ name x hx := by
    obtain ⟨hlen, -⟩ := h.series κ name x hx
    refine ⟨.inl (by simp [hx]), ?_⟩
    simp only [LINE_BUF_SIZE] at hlen
    cases κ <;> simp only [Kind.recordSize, Kind.bodySize] <;> omega
  events := by simp [h.events]
  stateMatches := rfl
  rules _ := rfl

theorem tock {clock : Clock} {k k' : Kernel R Re} {es : List Effect} (h : Stored db₀ k.db)
    (hi : (Input.tock clock).Storable k) (hstep : tock clock k = .ok (k', es)) :
    Stored db₀ k'.db := by
  obtain ⟨t⟩ := tock_spec hstep
  refine ⟨fun name s hs => ?_, fun κ name x hx => ?_, t.events_eq ▸ h.events,
    t.stateMatches_eq.trans h.stateMatches, fun κ => (t.rules_eq κ).trans (h.rules κ)⟩
  · obtain ⟨-, hnone⟩ | ⟨s₁, s₂, out, hs₁, hmark, hs₂⟩ := Table.get?_sweep _ t.sweptStates name
    · simp [hs] at hnone
    obtain rfl : s = s₂ := by simpa [hs] using hs₂
    obtain ⟨hknown, hold⟩ := h.states name s₁ hs₁
    refine ⟨hknown, ?_⟩
    unfold Table.gate at hmark
    split at hmark
    · obtain ⟨-, rfl, -⟩ | ⟨hlate, -, type, text, htype, htext, rfl, -⟩ :=
        markStale_spec hmark
      · exact hold
      · exact ⟨text, rfl, hi (name, s₁) (Table.mem_of_get? hs₁) hlate type htype text htext⟩
    · simp only [Except.ok.injEq, Prod.mk.injEq] at hmark
      exact hmark.1 ▸ hold
  · obtain ⟨-, hnone⟩ | ⟨y, -, -, hy, -, -⟩ := Table.get?_sweep _ (t.sweptSeries κ) name
    · simp [hx] at hnone
    · exact h.series κ name y hy

/-- A submission stores a name only if it is declared or matched by a rule. -/
theorem known_series (h : Stored db₀ db) (κ : Kind) {name : CString} {ts : UInt32}
    {v : κ.Value R} {y : κ.Record R} {out : List Pdu}
    (hc : κ.series.cellReceive (κ.series.rules db) name ts v ((κ.series.table db).get? name) =
      .ok (some y, out)) : Known (κ.series.table db₀) (κ.series.rules db₀) name := by
  cases hg : (κ.series.table db).get? name with
  | some x => exact (h.series κ name x hg).1
  | none =>
    rw [hg, h.rules κ] at hc
    cases hm : firstMatch (κ.series.rules db₀) name with
    | none => simp [Series.cellReceive, lookup, hm] at hc
    | some target => exact .inr (by simp [hm])

theorem known_state (h : Stored db₀ db) {now : Int32} {name : CString} {s : State}
    (hl : lookupState now db.stateMatches name (db.states.get? name) = .ok (some s)) :
    Known db₀.states db₀.stateMatches name := by
  cases hg : db.states.get? name with
  | some x => exact (h.states name x hg).1
  | none =>
    rw [hg, h.stateMatches] at hl
    cases hm : firstMatch db₀.stateMatches name with
    | none => simp [lookupState, hm] at hl
    | some target => exact .inr (by simp [hm])

variable [HashOrder]

theorem receive {κ : Kind} {db' : Db R Re} {p : Pdu} {out : List Pdu} (h : Stored db₀ db)
    (hsize : ∀ d ∈ decodeHead p, κ.recordSize d.1 < 2 ^ 16)
    (hstep : κ.series.receive db p = .ok (db', out)) : Stored db₀ db' := by
  obtain ⟨-, rfl, -⟩ | ⟨name, ts, v, c, t, hd, hc, rfl, ht⟩ := κ.series.receive_spec hstep
  · exact h
  have hnew : t.All fun name _ =>
      Known (κ.series.table db₀) (κ.series.rules db₀) name ∧ κ.recordSize name < 2 ^ 16 := by
    intro n x hx
    rw [ht] at hx
    split at hx
    · case isTrue hn =>
        subst hn hx
        exact ⟨h.known_series κ hc, hsize (n, ts) (κ.series.decode_head p _ hd)⟩
    · exact h.series κ n x hx
  refine ⟨?_, fun κ' => ?_, ?_, ?_, fun κ' => ?_⟩
  · cases κ <;> exact h.states
  · by_cases hκ : κ' = κ
    · subst hκ
      rwa [Series.table_setTable]
    · rw [Kind.table_setTable_ne hκ]
      exact h.series κ'
  · cases κ <;> exact h.events
  · cases κ <;> exact h.stateMatches
  · rw [Kind.rules_setTable_ne]
    exact h.rules κ'

omit [HashOrder] in
theorem setStates (h : Stored db₀ db) {t : Table CString State}
    (ht : t.All fun name s => Known db₀.states db₀.stateMatches name ∧
      ∃ t, s.summary = some t ∧ t.bytes ≠ [] ∧ stateSize name t < 2 ^ 16) :
    Stored db₀ { db with states := t } where
  states := ht
  series κ := by cases κ <;> exact h.series _
  events := h.events
  stateMatches := h.stateMatches
  rules κ := by
    have hrules := h.rules κ
    cases κ <;> exact hrules

theorem receiveState {now : Int32} {db' : Db R Re} {p : Pdu} {out : List Pdu} (h : Stored db₀ db)
    (hsize : ∀ d ∈ decodeState p, stateSize d.1 d.2.2.2 < 2 ^ 16)
    (hstep : receiveState now db p = .ok (db', out)) : Stored db₀ db' := by
  obtain ⟨-, rfl, -⟩ | ⟨name, ts, code, msg, c, t, hd, hc, rfl, ht⟩ := receiveState_spec hstep
  · exact h
  refine h.setStates fun n s hs => ?_
  rw [ht] at hs
  split at hs
  case isFalse => exact h.states n s hs
  case isTrue hn =>
    subst hn hs
    simp only [cellReceiveState, bind_eq_ok] at hc
    obtain ⟨found, hl, hc⟩ := hc
    cases found with
    | none => simp [pure_eq_ok] at hc
    | some s₁ =>
      refine ⟨h.known_state hl, ?_⟩
      by_cases hignore : s₁.ignore = 0
      · simp only [hignore, if_true, bind_eq_ok, pure_eq_ok, Prod.mk.injEq, Option.some.injEq] at hc
        obtain ⟨r, hupdate, rfl, -⟩ := hc
        obtain ⟨type, -, heq, -⟩ := updateState_spec hupdate
        exact ⟨msg, by rw [heq], decodeState_msg hd, hsize _ hd⟩
      · -- an ignored state is in the table already
        simp only [hignore, if_false, pure_eq_ok, Prod.mk.injEq, Option.some.injEq] at hc
        obtain rfl := hc.1
        unfold lookupState at hl
        split at hl
        · case h_1 s₂ hg =>
            obtain rfl : s₂ = s₁ := by simpa using hl
            exact (h.states n s₂ hg).2
        · split at hl
          · simp at hl
          · simp only [bind_eq_ok, pure_eq_ok, Option.some.injEq] at hl
            obtain ⟨type, -, rfl⟩ := hl
            exact absurd rfl hignore

omit [HashOrder] in
theorem receiveEvent {config : Config} {db' : Db R Re} {p : Pdu} {out : List Pdu}
    (h : Stored db₀ db)
    (hsize : 0 < config.eventsMax → ∀ name ∈ p.string 2, ∀ extra ∈ p.string 3,
      extra.bytes ≠ [] ∧ eventSize name extra < 2 ^ 16)
    (hstep : receiveEvent config db p = .ok (db', out)) : Stored db₀ db' := by
  simp only [Bolo.receiveEvent, bind_eq_ok, pure_eq_ok, Prod.mk.injEq] at hstep
  obtain ⟨ts, -, q, hq, db₁, hbuffer, rfl, -⟩ := hstep
  simp only [broadcastEvent, bind_eq_ok, deref_eq_ok] at hq
  obtain ⟨name, hname, extra, hextra, -⟩ := hq
  by_cases hmax : 0 < config.eventsMax
  · have hev := hsize hmax name hname extra hextra
    obtain ⟨events, count, rfl, hevents⟩ :=
      (bufferEvent_meets (show Fault.nullDeref ≠ .outOfBounds by decide) h.events
        ⟨name, extra, hname, hextra, hev⟩ config.eventsMax config.eventsKeep).result hbuffer
    refine ⟨h.states, fun κ => ?_, hevents, h.stateMatches, fun κ => ?_⟩
    · cases κ <;> exact h.series _
    · have hrules := h.rules κ
      cases κ <;> exact hrules
  · simp only [bufferEvent, hmax, if_false, Except.ok.injEq] at hbuffer
    exact hbuffer ▸ h

omit [HashOrder] in
theorem forget (h : Stored db₀ db) (payload : UInt16) (re : Re) (ignore : UInt8) :
    Stored db₀ (forget payload re ignore db) := by
  refine ⟨forgetTable_all_of _ re ignore h.states fun _ _ hx => hx, fun κ => ?_, h.events,
    h.stateMatches, fun κ => ?_⟩
  · cases κ with
    | counter => exact forgetTable_all_of _ re ignore (h.series .counter) fun _ _ hx => hx
    | sample => exact forgetTable_all_of _ re ignore (h.series .sample) fun _ _ hx => hx
    | rate => exact forgetTable_all_of _ re ignore (h.series .rate) fun _ _ hx => hx
  · have hrules := h.rules κ
    cases κ <;> exact hrules

/-- One message that stores nothing too large or empty. -/
theorem step {k k' : Kernel R Re} {i : Input} {es : List Effect} (h : Stored db₀ k.db)
    (hi : i.Storable k) (hstep : reactor k i = .ok (k', es)) : Stored db₀ k'.db := by
  cases i with
  | tock clock => exact h.tock hi hstep
  | listener now p =>
    obtain ⟨hstate, hseries, hevent⟩ := hi
    cases listen_spec hstep with
    | state hp hr => exact h.receiveState (hstate hp) hr
    | series κ hp hr => exact h.receive (hseries κ hp) hr
    | event hp hr => exact h.receiveEvent (hevent hp) hr
    | setKeys hp => exact h
    | other hs hκ => exact h
  | management p =>
    simp only [reactor, bind_eq_ok, pure_eq_ok, Prod.mk.injEq] at hstep
    obtain ⟨r, hm, rfl, -⟩ := hstep
    obtain ⟨-, -, hdb⟩ := manage_spec hm
    change Stored db₀ r.1.db
    rw [hdb]
    unfold forgetBy
    split
    · exact h
    · exact h.forget _ _ _

/-- Every run of such messages. -/
theorem run {k k' : Kernel R Re} {is : List Input} {es : List Effect} (h : Stored db₀ k.db)
    (hi : Machine.Along reactor (fun k i => i.Storable k) k is)
    (hrun : Machine.run reactor k is = .ok (k', es)) : Stored db₀ k'.db :=
  Machine.run_along (P := fun k : Kernel R Re => Stored db₀ k.db)
    (fun _ _ _ _ hk hi hstep => hk.step hi hstep) h hi hrun

/-! ## Saving and restoring -/

omit [HashOrder] in
theorem savable (h : Stored db₀ db) (hwf : db.Wf) : db.Savable where
  states name s hs := by
    obtain ⟨-, t, ht, hne, -⟩ := h.states name s hs
    exact ⟨(hwf.states name s hs).name, t, ht, hne⟩
  series κ name x hx := (hwf.series κ name x hx).name
  events ev hev := by
    obtain ⟨name, extra, hname, hextra, hne, -⟩ := h.events ev hev
    exact ⟨⟨name, hname⟩, extra, hextra, hne⟩
  short p hp := by
    simp only [Db.payloads, List.mem_append, List.mem_map] at hp
    rcases hp with (((⟨e, he, rfl⟩ | ⟨e, he, rfl⟩) | ⟨e, he, rfl⟩) | ⟨ev, hev, rfl⟩) | ⟨e, he, rfl⟩
    · obtain ⟨-, t, ht, -, hlen⟩ := h.states e.1 e.2 (Table.get?_of_mem he)
      have hname := (hwf.states e.1 e.2 (Table.get?_of_mem he)).name
      simpa [Payload.size, Payload.texts, Payload.body, hname, ht, stateSize, add_assoc] using hlen
    · have hlen := (h.series .counter e.1 e.2 (Table.get?_of_mem he)).2
      have hname := (hwf.counters e.1 e.2 (Table.get?_of_mem he)).name
      change e.2.name = some e.1 at hname
      simpa [Payload.size, Payload.texts, Payload.body, hname, Kind.recordSize, Kind.bodySize] using
        hlen
    · have hlen := (h.series .sample e.1 e.2 (Table.get?_of_mem he)).2
      have hname := (hwf.samples e.1 e.2 (Table.get?_of_mem he)).name
      change e.2.name = some e.1 at hname
      simpa [Payload.size, Payload.texts, Payload.body, hname, Kind.recordSize, Kind.bodySize] using
        hlen
    · obtain ⟨name, extra, hname, hextra, -, hlen⟩ := h.events ev hev
      simpa [Payload.size, Payload.texts, Payload.body, hname, hextra, eventSize, add_assoc] using
        hlen
    · have hlen := (h.series .rate e.1 e.2 (Table.get?_of_mem he)).2
      have hname := (hwf.rates e.1 e.2 (Table.get?_of_mem he)).name
      change e.2.name = some e.1 at hname
      simpa [Payload.size, Payload.texts, Payload.body, hname, Kind.recordSize, Kind.bodySize] using
        hlen

omit [HashOrder] in
/-- A server with the same declarations knows every stored name. -/
theorem recognises_peers {s s' : Server R Re} (h : Stored s.db db) (hs : s.Peers s') :
    Recognises s'.db db := by
  have hmatches : s'.db.stateMatches = s.db.stateMatches := by rw [hs.db]
  have htable (κ : Kind) : κ.series.table s'.db = κ.series.table s.db := by
    rw [hs.db]
    cases κ <;> rfl
  have hrules (κ : Kind) : κ.series.rules s'.db = κ.series.rules s.db := by
    rw [hs.db]
    cases κ <;> rfl
  constructor
  · intro name r hr
    refine (h.states name r hr).1.imp (mt (hs.names name).mp) fun hm => ?_
    rwa [hmatches]
  · intro κ name x hx
    rw [htable, hrules]
    exact (h.series κ name x hx).1

/-- Another reading of the same configuration knows every stored name. -/
theorem recognises {clock clock' : Nat → Int32} {file : List UInt8} {s s' : Server R Re}
    (h : Stored s.db db) (hs : Configured clock file s) (hs' : Configured clock' file s') :
    Recognises s'.db db :=
  h.recognises_peers (hs.peers hs')

end Stored

end Bolo
