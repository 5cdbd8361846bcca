import Bolo.Kernel.Keys
import Bolo.Postgres.Dispatcher

/-!
# What the subscribers are sent

Every program that follows the aggregator reads the broadcasts of its kernel and nothing
else. A `Bulletin` is a broadcast that the kernel can make: the frames of a state, of a
closed window, of an event, or some of the live keys. Subscribers that check the number of
frames check for what is true of every bulletin.

The keys are the one part of the broadcasts that does not follow a submission. They are
sent when the savestate timer is due, all live ones at a time.
-/
namespace Bolo

open Library Postgres

variable {R Re : Type}

@[simp] theorem broadcasts_append (es fs : List Effect) :
    broadcasts (es ++ fs) = broadcasts es ++ broadcasts fs := List.filterMap_append

@[simp] theorem broadcasts_map (out : List Pdu) : broadcasts (out.map .broadcast) = out := by
  rw [broadcasts, select_broadcasts, List.filter_true]

theorem mem_broadcasts {es : List Effect} {p : Pdu} : p ∈ broadcasts es ↔ .broadcast p ∈ es := by
  simp only [broadcasts, List.mem_filterMap]
  constructor
  · rintro ⟨e, he, hp⟩
    cases e with
    | broadcast q =>
      obtain rfl : q = p := by simpa [Effect.select] using hp
      exact he
    | _ => simp [Effect.select] at hp
  · exact fun hp => ⟨_, hp, rfl⟩

/-- A broadcast that the kernel can make. -/
inductive Bulletin (R : Type) [Double R] : Pdu → Prop
  | state {s : State} {frames : List CString} (h : stateFrames s = .ok frames) :
      Bulletin R { type := Tag.state.text, frames := frames }
  | transition {s : State} {frames : List CString} (h : stateFrames s = .ok frames) :
      Bulletin R { type := Tag.transition.text, frames := frames }
  | counter (ts : Int32) (name : CString) (c : Counter) :
      Bulletin R
        { type := Tag.counter.text
          frames := decimal ts.toUInt32.toNat :: name :: counterPayload c }
  | sample (ts : Int32) (name : CString) (s : Sample R) :
      Bulletin R
        { type := Tag.sample.text
          frames := decimal ts.toUInt32.toNat :: name :: samplePayload s }
  | rate (ts : Int32) (name : CString) (w : Window) (r : Rate) :
      Bulletin R
        { type := Tag.rate.text
          frames := decimal ts.toUInt32.toNat :: name :: ratePayload R w r }
  | event (ts : Int32) (name extra : CString) :
      Bulletin R { type := Tag.event.text, frames := [decimalInt ts.toInt, name, extra] }
  | keys {pairs : List (CString × CString)} (hpos : 0 < pairs.length) (hle : pairs.length ≤ 30) :
      Bulletin R { type := Tag.setKeys.text, frames := pairFrames pairs }

/-- A bulletin about anything but keys. -/
def News (R : Type) [Double R] (p : Pdu) : Prop := Bulletin R p ∧ p.type ≠ Tag.setKeys.text

/-! ## What one step broadcasts -/

section Step

variable [Double R]

theorem news_of_broadcast {κ : Kind} {x : κ.Record R} {p : Pdu}
    (h : (κ.series : Series R Re _ _).broadcast x = .ok p) : News R p := by
  obtain ⟨w, ts, name, -, -, -, rfl⟩ := κ.series.broadcast_spec h
  have hne : κ.tag.text ≠ Tag.setKeys.text := by
    rw [Ne, Tag.text_inj]
    cases κ <;> simp [Kind.tag]
  cases κ with
  | counter => exact ⟨.counter ts name x, hne⟩
  | sample => exact ⟨.sample ts name x, hne⟩
  | rate => exact ⟨.rate ts name w x, hne⟩

theorem news_of_announce {b : Bool} {s : State} {out : List Pdu} (h : announce b s = .ok out) :
    ∀ p ∈ out, News R p := by
  obtain ⟨frames, hframes, rfl⟩ := announce_spec h
  intro p hp
  rcases List.mem_append.mp hp with hp | hp
  · split at hp
    · obtain rfl := List.mem_singleton.mp hp
      exact ⟨.transition hframes, by simp⟩
    · simp at hp
  · obtain rfl := List.mem_singleton.mp hp
    exact ⟨.state hframes, by simp⟩

theorem news_of_close {κ : Kind} {b : Bool} {ts : Int32} {x y : κ.Record R} {out : List Pdu}
    (h : Table.gate ((κ.series : Series R Re _ _).close ts) b x = .ok (y, out)) :
    ∀ p ∈ out, News R p := by
  unfold Table.gate at h
  split at h
  · rcases κ.series.close_spec h with ⟨-, rfl⟩ | ⟨-, -, -, w, e, q, -, -, -, hq, rfl⟩
    · simp
    · simpa using news_of_broadcast hq
  · obtain ⟨-, rfl⟩ := Prod.mk.inj (Except.ok.inj h)
    simp

theorem news_of_markStale {b : Bool} {now : Int32} {s s' : State} {out : List Pdu}
    (h : Table.gate (markStale now) b s = .ok (s', out)) : ∀ p ∈ out, News R p := by
  unfold Table.gate at h
  split at h
  · rcases markStale_spec h with ⟨-, -, rfl⟩ | ⟨-, -, type, summary, -, -, -, ha⟩
    · simp
    · exact news_of_announce ha
  · obtain ⟨-, rfl⟩ := Prod.mk.inj (Except.ok.inj h)
    simp

theorem bulletin_of_keys {keys : Table CString (Option CString)} {p : Pdu}
    (hp : p ∈ broadcastSetkeys keys) : Bulletin R p := by
  obtain ⟨chunks, hchunks, hpairs⟩ := broadcastSetkeys_chunked keys
  rw [hchunks] at hp
  obtain ⟨c, hc, rfl⟩ := List.mem_map.mp hp
  exact .keys (hpairs.pos c hc) (hpairs.le c hc)

omit [Double R] in
/-- What a tick writes out: the keys are sent last, and only if the savestate timer is due. -/
def savedKeys (clock : Clock) (k : Kernel R Re) : List Pdu :=
  if k.savestate.due clock.now then broadcastSetkeys k.server.keys else []

omit [Double R] in
theorem broadcasts_saveState (clock : Clock) (k : Kernel R Re) :
    broadcasts (saveState clock.now k).2 = savedKeys clock k := by
  unfold saveState savedKeys
  split
  · rw [broadcasts_append, broadcasts_map]
    exact List.append_nil _
  · rfl

theorem tock_saves {clock : Clock} {k k' : Kernel R Re} {es : List Effect}
    (h : tock clock k = .ok (k', es)) :
    ∃ front, broadcasts es = front ++ savedKeys clock k ∧
      ∀ p ∈ front, News R p := by
  simp only [tock, bind_eq_ok, pure_eq_ok, Prod.exists, Prod.mk.injEq] at h
  obtain ⟨k₁, closed, hclose, k₃, swept, hfresh, hk, hes⟩ := h
  obtain ⟨tc, ts, tr, a, b, c, ha, hb, hc, rfl, hk₁⟩ := closeWindows_spec hclose
  obtain ⟨⟨t, hbeacon⟩, -⟩ := beaconSweep_spec clock k₁
  have hbeacons : broadcasts (beaconSweep clock k₁).2 = [] := by
    unfold beaconSweep
    split <;> rfl
  rw [hbeacon] at hfresh
  obtain ⟨u, hu, hk₃⟩ := sweepFreshness_spec hfresh
  have hsaved : broadcasts (saveState clock.now k₃).2 = savedKeys clock k := by
    have htimer : k₃.savestate = k.savestate := by rw [hk₃, hk₁]; rfl
    have hkeys : k₃.server.keys = k.server.keys := by rw [hk₃, hk₁]; rfl
    rw [broadcasts_saveState, savedKeys, savedKeys, htimer, hkeys]
  refine ⟨a ++ b ++ c ++ swept, ?_, fun p hp => ?_⟩
  · rw [← hes]
    simp only [broadcasts_append, broadcasts_map, hbeacons, hsaved, List.append_nil]
  · simp only [List.mem_append] at hp
    rcases hp with ((hp | hp) | hp) | hp
    · obtain ⟨-, x, y, out, -, hx, hp⟩ := Table.mem_sweep _ ha hp
      exact news_of_close (κ := .counter) hx p hp
    · obtain ⟨-, x, y, out, -, hx, hp⟩ := Table.mem_sweep _ hb hp
      exact news_of_close (κ := .sample) hx p hp
    · obtain ⟨-, x, y, out, -, hx, hp⟩ := Table.mem_sweep _ hc hp
      exact news_of_close (κ := .rate) hx p hp
    · obtain ⟨-, s, s', out, -, hs, hp⟩ := Table.mem_sweep _ hu hp
      exact news_of_markStale hs p hp

variable [Pcre Re] [HashOrder]

/-- A submission sends no keys. -/
theorem listen_news {now : Int32} {p : Pdu} {k k' : Kernel R Re} {es : List Effect}
    (h : listen now p k = .ok (k', es)) : ∀ q ∈ broadcasts es, News R q := by
  cases listen_spec h with
  | state hp hr =>
    rw [broadcasts_map]
    rcases receiveState_spec hr with ⟨-, -, rfl⟩ | ⟨name, ts, code, msg, c, t, -, hc, -, -⟩
    · simp
    · simp only [cellReceiveState, bind_eq_ok] at hc
      obtain ⟨r, -, hc⟩ := hc
      split at hc
      · obtain ⟨-, rfl⟩ := Prod.mk.inj (Except.ok.inj hc)
        simp
      · split at hc
        · simp only [bind_eq_ok, pure_eq_ok, Prod.exists, Prod.mk.injEq] at hc
          obtain ⟨s', out', hu, -, rfl⟩ := hc
          obtain ⟨type, -, -, ha⟩ := updateState_spec hu
          exact news_of_announce ha
        · obtain ⟨-, rfl⟩ := Prod.mk.inj (Except.ok.inj hc)
          simp
  | series κ hp hr =>
    rw [broadcasts_map]
    rcases κ.series.receive_spec hr with ⟨-, -, rfl⟩ | ⟨name, ts, v, c, t, -, hc, -, -⟩
    · simp
    · unfold Series.cellReceive at hc
      split at hc
      · obtain ⟨-, rfl⟩ := Prod.mk.inj (Except.ok.inj hc)
        simp
      · split at hc
        · simp only [bind_eq_ok, pure_eq_ok, Prod.exists, Prod.mk.injEq] at hc
          obtain ⟨y, out', hs, -, rfl⟩ := hc
          rcases κ.series.submit_spec hs with ⟨-, -, rfl⟩ | ⟨-, -, q, hq, rfl⟩
          · simp
          · simpa using news_of_broadcast hq
        · obtain ⟨-, rfl⟩ := Prod.mk.inj (Except.ok.inj hc)
          simp
  | event hp hr =>
    rw [broadcasts_map]
    simp only [receiveEvent, bind_eq_ok, pure_eq_ok, Prod.mk.injEq] at hr
    obtain ⟨ts, -, q, hq, db, -, -, rfl⟩ := hr
    simp only [broadcastEvent, bind_eq_ok, pure_eq_ok] at hq
    obtain ⟨name, -, extra, -, rfl⟩ := hq
    exact List.forall_mem_singleton.mpr ⟨.event _ name extra, by simp⟩
  | setKeys hp => simp [broadcasts]
  | other hs hκ => simp [broadcasts]

omit [Double R] in
/-- A request is answered, and nothing is broadcast. -/
theorem broadcasts_manage {p : Pdu} {s s' : Server R Re} {es : List Effect}
    (h : manage s p = .ok (s', es)) : broadcasts es = [] := by
  rw [List.eq_nil_iff_forall_not_mem]
  exact fun q hq => (manage_spec h).2.1 _ (mem_broadcasts.mp hq)

/-- The keys that a step sends. -/
def Input.savedKeys (k : Kernel R Re) : Input → List Pdu
  | .tock clock => Bolo.savedKeys clock k
  | _ => []

theorem reactor_news {k k' : Kernel R Re} {i : Input} {es : List Effect}
    (h : reactor k i = .ok (k', es)) :
    ∃ front, broadcasts es = front ++ i.savedKeys k ∧ ∀ p ∈ front, News R p := by
  cases i with
  | tock clock => exact tock_saves h
  | listener now p => exact ⟨_, (List.append_nil _).symm, listen_news h⟩
  | management p =>
    simp only [reactor, bind_eq_ok, pure_eq_ok, Prod.exists, Prod.mk.injEq] at h
    obtain ⟨s, out, hs, -, rfl⟩ := h
    exact ⟨[], broadcasts_manage hs, by simp⟩

theorem reactor_bulletins {k k' : Kernel R Re} {i : Input} {es : List Effect}
    (h : reactor k i = .ok (k', es)) : ∀ p ∈ broadcasts es, Bulletin R p := by
  obtain ⟨front, hes, hfront⟩ := reactor_news h
  intro p hp
  rw [hes] at hp
  rcases List.mem_append.mp hp with hp | hp
  · exact (hfront p hp).1
  · cases i with
    | tock clock =>
      simp only [Input.savedKeys, savedKeys] at hp
      split at hp
      · exact bulletin_of_keys hp
      · simp at hp
    | _ => simp [Input.savedKeys] at hp

/-- Whatever the kernel is sent, what it broadcasts is a bulletin. -/
theorem run_bulletins {k k' : Kernel R Re} {is : List Input} {es : List Effect}
    (hrun : Machine.run reactor k is = .ok (k', es)) : ∀ p ∈ broadcasts es, Bulletin R p := by
  refine Machine.run_outputs (P := fun _ es => ∀ p ∈ broadcasts es, Bulletin R p)
    (Q := fun _ => True) (fun k i k' out l hl _ h p hp => ?_) (l := []) (by simp [broadcasts])
    (by simp) hrun
  rcases List.mem_append.mp (broadcasts_append l out ▸ hp) with hp | hp
  · exact hl p hp
  · exact reactor_bulletins h p hp

end Step

end Bolo
