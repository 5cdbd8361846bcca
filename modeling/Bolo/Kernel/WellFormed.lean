import Bolo.Kernel.Handlers

/-!
# The structural invariant of the database

Every datapoint is stored under its own name and refers to a type or a window, every rule
has a target to hand on, and every text that the kernel prints is there. Each handler and
each loop keeps the invariant, and under it none of them reads through a NULL pointer. If
moreover every window is positive, none of them divides by zero. The two are shown together,
for one fault that is to be avoided.
-/
namespace Bolo

open Library

variable {R Re : Type}

/-- A type that a stale state can be reported with. -/
structure TypeDef.Wf (t : TypeDef) : Prop where
  summary : ∃ text, t.summary = some text
  status : t.status = WARNING ∨ t.status = CRITICAL ∨ t.status = UNKNOWN

structure State.Wf (name : CString) (s : State) : Prop where
  type : ∃ t, s.type = some t ∧ t.Wf
  name : s.name = some name
  summary : ∃ text, s.summary = some text

structure Series.Wf {α V : Type} (S : Series R Re α V) (name : CString) (x : α) : Prop where
  window : ∃ w, S.window x = some w
  name : S.name x = some name

structure Event.Wf (ev : Event) : Prop where
  name : ∃ text, ev.name = some text
  extra : ∃ text, ev.extra = some text

structure Db.Wf [Double R] (db : Db R Re) : Prop where
  states : db.states.All State.Wf
  counters : db.counters.All (counterSeries : Series R Re Counter Int32).Wf
  samples : db.samples.All (sampleSeries : Series R Re (Sample R) (R × List R)).Wf
  rates : db.rates.All (rateSeries : Series R Re Rate UInt64).Wf
  events : ∀ ev ∈ db.events, ev.Wf
  stateMatches : ∀ r ∈ db.stateMatches, ∃ t, r.target = some t ∧ t.Wf
  counterMatches : ∀ r ∈ db.counterMatches, ∃ w, r.target = some w
  sampleMatches : ∀ r ∈ db.sampleMatches, ∃ w, r.target = some w
  rateMatches : ∀ r ∈ db.rateMatches, ∃ w, r.target = some w

/-- A window that the fault cannot come from. -/
def Window.Sound (bad : Fault) (w : Window) : Prop := bad = .divByZero → 0 < w.time.toInt

structure Series.Safe {α V : Type} (S : Series R Re α V) (bad : Fault) (name : CString) (x : α) :
    Prop where
  window : ∃ w, S.window x = some w ∧ w.Sound bad
  name : S.name x = some name

/-- A well-formed database whose windows are sound. -/
structure Db.Safe [Double R] (bad : Fault) (db : Db R Re) : Prop where
  states : db.states.All State.Wf
  counters : db.counters.All ((counterSeries : Series R Re Counter Int32).Safe bad)
  samples : db.samples.All ((sampleSeries : Series R Re (Sample R) (R × List R)).Safe bad)
  rates : db.rates.All ((rateSeries : Series R Re Rate UInt64).Safe bad)
  events : ∀ ev ∈ db.events, ev.Wf
  stateMatches : ∀ r ∈ db.stateMatches, ∃ t, r.target = some t ∧ t.Wf
  counterMatches : ∀ r ∈ db.counterMatches, ∃ w, r.target = some w ∧ w.Sound bad
  sampleMatches : ∀ r ∈ db.sampleMatches, ∃ w, r.target = some w ∧ w.Sound bad
  rateMatches : ∀ r ∈ db.rateMatches, ∃ w, r.target = some w ∧ w.Sound bad

theorem Db.Wf.series [Double R] {db : Db R Re} (h : db.Wf) (κ : Kind) :
    (κ.series.table db).All (κ.series : Series R Re _ _).Wf := by
  cases κ with
  | counter => exact h.counters
  | sample => exact h.samples
  | rate => exact h.rates

theorem Db.Wf.rules [Double R] {db : Db R Re} (h : db.Wf) (κ : Kind) :
    ∀ r ∈ κ.series.rules db, ∃ w, r.target = some w := by
  cases κ with
  | counter => exact h.counterMatches
  | sample => exact h.sampleMatches
  | rate => exact h.rateMatches

theorem Db.Wf.safe [Double R] {bad : Fault} {db : Db R Re} (h : db.Wf)
    (hseries : ∀ κ : Kind, (κ.series.table db).All fun _ x =>
      ∀ w, (κ.series : Series R Re _ _).window x = some w → w.Sound bad)
    (hrules : ∀ κ : Kind, ∀ r ∈ κ.series.rules db, ∀ w, r.target = some w → w.Sound bad) :
    db.Safe bad := by
  have entry (κ : Kind) : (κ.series.table db).All ((κ.series : Series R Re _ _).Safe bad) := by
    intro name x hx
    obtain ⟨⟨w, hw⟩, hn⟩ := h.series κ name x hx
    exact ⟨⟨w, hw, hseries κ name x hx w hw⟩, hn⟩
  have rule (κ : Kind) : ∀ r ∈ κ.series.rules db, ∃ w, r.target = some w ∧ w.Sound bad := by
    intro r hr
    obtain ⟨w, hw⟩ := h.rules κ r hr
    exact ⟨w, hw, hrules κ r hr w hw⟩
  exact ⟨h.states, entry .counter, entry .sample, entry .rate, h.events, h.stateMatches,
    rule .counter, rule .sample, rule .rate⟩

theorem Db.Safe.wf [Double R] {bad : Fault} {db : Db R Re} (h : db.Safe bad) : db.Wf := by
  have entry {α V : Type} {S : Series R Re α V} {t : Table CString α} (ht : t.All (S.Safe bad)) :
      t.All S.Wf :=
    fun name x hx => ⟨(ht name x hx).window.imp fun _ hw => hw.1, (ht name x hx).name⟩
  have rule {rules : List (Rule Window Re)}
      (hr : ∀ r ∈ rules, ∃ w, r.target = some w ∧ w.Sound bad) :
      ∀ r ∈ rules, ∃ w, r.target = some w :=
    fun r hm => (hr r hm).imp fun _ hw => hw.1
  exact ⟨h.states, entry h.counters, entry h.samples, entry h.rates, h.events, h.stateMatches,
    rule h.counterMatches, rule h.sampleMatches, rule h.rateMatches⟩

theorem firstMatch_mem [Pcre Re] {τ : Type} {rules : List (Rule τ Re)} {name : CString}
    {target : Option τ} (h : firstMatch rules name = some target) :
    ∃ r ∈ rules, r.target = target := by
  obtain ⟨r, hr, rfl⟩ := Option.map_eq_some_iff.mp h
  exact ⟨r, List.mem_of_find?_eq_some hr, rfl⟩

variable {bad : Fault}

theorem deref_meets {α : Type} {q : Option α} {a : α} (h : q = some a) :
    Meets bad (fun b => b = a) (deref q) := by
  subst h
  rfl

/-! ## Windowed datapoints -/

theorem winstart_meets {w : Window} (hw : w.Sound bad) (t : Int32) :
    Meets bad (fun _ => True) (winstart w.time t) := by
  unfold winstart
  split
  · case isTrue hdiv =>
      rintro rfl
      rcases hdiv with h | ⟨h, -⟩ <;> exact absurd (hw rfl) (h ▸ by decide)
  · trivial

theorem winstartU_meets {w : Window} (hw : w.Sound bad) (t : UInt32) :
    Meets bad (fun _ => True) (winstartU w.time t) := by
  unfold winstartU
  split
  · case isTrue h =>
      rintro rfl
      exact absurd (hw rfl) (h ▸ by decide)
  · trivial

theorem winend_meets {w : Window} (hw : w.Sound bad) (t : Int32) :
    Meets bad (fun _ => True) (winend w.time t) :=
  (winstart_meets hw t).bind fun _ _ => trivial

namespace Series

variable {α V : Type} (S : Series R Re α V) {name : CString} {x : α}

theorem broadcast_meets (h : S.Safe bad name x) :
    Meets bad (fun _ => True) (S.broadcast x) := by
  obtain ⟨⟨w, hw, hsound⟩, hn⟩ := h
  refine (deref_meets hw).bind fun w' heq => ?_
  subst heq
  refine (winstart_meets hsound (S.lastSeen x)).bind fun ts _ => ?_
  exact (deref_meets hn).bind fun n _ => trivial

theorem rollover_meets (h : S.Safe bad name x) (ts : UInt32) :
    Meets bad (fun _ => True) (S.rollover x ts) := by
  obtain ⟨⟨w, hw, hsound⟩, -⟩ := h
  unfold rollover
  split
  · refine (deref_meets hw).bind fun w' heq => ?_
    subst heq
    refine (winstart_meets hsound (S.lastSeen x)).bind fun a _ => ?_
    exact (winstartU_meets hsound ts).bind fun b _ => trivial
  · trivial

theorem submit_meets (h : S.Safe bad name x) (ts : UInt32) (v : V) :
    Meets bad (fun r => S.Safe bad name r.1) (S.submit x ts v) := by
  refine (S.rollover_meets h ts).bind fun b _ => ?_
  cases b with
  | false => exact ⟨by simpa using h.window, by simpa using h.name⟩
  | true =>
    refine (S.broadcast_meets h).bind fun p _ => ?_
    exact ⟨by simpa using h.window, by simpa using h.name⟩

theorem close_meets (h : S.Safe bad name x) (ts : Int32) :
    Meets bad (fun r => S.Safe bad name r.1) (S.close ts x) := by
  unfold close
  split
  · exact h
  · obtain ⟨w, hw, hsound⟩ := h.window
    refine (deref_meets hw).bind fun w' heq => ?_
    subst heq
    refine (winend_meets hsound (S.lastSeen x)).bind fun e _ => ?_
    split
    · exact h
    · refine (S.broadcast_meets h).bind fun p _ => ?_
      exact ⟨by simpa using h.window, by simpa using h.name⟩

theorem lookup_safe [Pcre Re] {rules : List (Rule Window Re)} {found : Option α}
    (hr : ∀ r ∈ rules, ∃ w, r.target = some w ∧ w.Sound bad)
    (hf : ∀ y, found = some y → S.Safe bad name y)
    (h : lookup S.blank rules name found = some x) : S.Safe bad name x := by
  cases found with
  | some y =>
    obtain rfl : y = x := by simpa [lookup] using h
    exact hf y rfl
  | none =>
    obtain ⟨target, ht, rfl⟩ := Option.map_eq_some_iff.mp h
    obtain ⟨r, hm, rfl⟩ := firstMatch_mem ht
    obtain ⟨w, hw, hsound⟩ := hr r hm
    exact ⟨⟨w, by simp [hw], hsound⟩, by simp⟩

theorem safe_null (h : S.Wf name x) : S.Safe .nullDeref name x :=
  ⟨h.window.imp fun _ hw => ⟨hw, by simp [Window.Sound]⟩, h.name⟩

theorem lookup_wf [Pcre Re] {rules : List (Rule Window Re)} {found : Option α}
    (hr : ∀ r ∈ rules, ∃ w, r.target = some w) (hf : ∀ y, found = some y → S.Wf name y)
    (h : lookup S.blank rules name found = some x) : S.Wf name x := by
  have hsafe : S.Safe .nullDeref name x := S.lookup_safe
    (fun r hm => (hr r hm).imp fun _ hw => ⟨hw, by simp [Window.Sound]⟩)
    (fun y hy => S.safe_null (hf y hy)) h
  exact ⟨hsafe.window.imp fun _ hw => hw.1, hsafe.name⟩

/-- What is found under a name is safe, and so is the table that it is entered in. -/
theorem find_safe [Pcre Re] [HashOrder] {db db' : Db R Re}
    (hr : ∀ r ∈ S.rules db, ∃ w, r.target = some w ∧ w.Sound bad)
    (ht : (S.table db).All (S.Safe bad)) (h : S.find db name = some (x, db')) :
    ∃ t, db' = S.setTable db t ∧ S.Safe bad name x ∧ t.All (S.Safe bad) := by
  have hfind := S.find_spec db name
  rw [h] at hfind
  obtain ⟨t, rfl, hl, hget⟩ := hfind
  have hx : S.Safe bad name x := S.lookup_safe hr (ht name) hl
  exact ⟨t, rfl, hx, ht.write hx hget⟩

theorem receive_meets [Pcre Re] [HashOrder] {db : Db R Re}
    (hr : ∀ r ∈ S.rules db, ∃ w, r.target = some w ∧ w.Sound bad)
    (ht : (S.table db).All (S.Safe bad)) (p : Pdu) :
    Meets bad (fun r => ∃ t, r.1 = S.setTable db t ∧ t.All (S.Safe bad)) (S.receive db p) := by
  unfold receive
  split
  · exact ⟨S.table db, by simp, ht⟩
  · rename_i name ts v hd
    cases hf : S.find db name with
    | none => exact ⟨S.table db, by simp, ht⟩
    | some r =>
      obtain ⟨x, db'⟩ := r
      obtain ⟨t, rfl, hx, hentry⟩ := S.find_safe hr ht hf
      simp only
      split
      · refine (S.submit_meets hx ts v).bind fun r hy => ?_
        exact ⟨hashSet t name r.1, by simp, All.hashSet hentry hy⟩
      · exact ⟨t, rfl, hentry⟩

theorem tick_meets {db : Db R Re} (ht : (S.table db).All (S.Safe bad)) (ts : Int32) :
    Meets bad (fun r => ∃ t, r.1 = S.setTable db t ∧ t.All (S.Safe bad)) (S.tick ts db) := by
  refine (Table.sweep_meets (S.close ts) fun k x hx => S.close_meets (ht k x hx) ts).bind
    fun r hr => ?_
  exact ⟨r.1, rfl, hr⟩

end Series

/-! ## States -/

section State

variable {name : CString} {s : State}

theorem announce_meets (h : s.Wf name) (b : Bool) :
    Meets bad (fun _ => True) (announce b s) := by
  have hframes : Meets bad (fun _ => True) (stateFrames s) := by
    obtain ⟨text, ht⟩ := h.summary
    refine (deref_meets h.name).bind fun n _ => ?_
    exact (deref_meets ht).bind fun m _ => trivial
  have hstate : Meets bad (fun _ => True) (broadcastState s) :=
    hframes.bind fun f _ => trivial
  cases b with
  | false => exact hstate.bind fun p _ => trivial
  | true =>
    have htrans : Meets bad (fun _ => True) (broadcastTransition s) :=
      hframes.bind fun f _ => trivial
    exact htrans.bind fun t _ => hstate.bind fun p _ => trivial

theorem updateState_meets (h : s.Wf name) (ts : UInt32) (code : UInt8) (msg : CString) :
    Meets bad (fun r => r.1.Wf name) (updateState s ts code msg) := by
  obtain ⟨t, ht, hwf⟩ := h.type
  refine (deref_meets ht).bind fun type _ => ?_
  have hs : State.Wf name { s with
      status := code, summary := some msg, lastSeen := ts.toInt32, expiry := expiryAt ts type,
      stale := 0 } := ⟨⟨t, ht, hwf⟩, h.name, msg, rfl⟩
  exact (announce_meets hs _).bind fun out _ => hs

theorem markStale_meets (h : s.Wf name) (now : Int32) :
    Meets bad (fun r => r.1.Wf name) (markStale now s) := by
  obtain ⟨t, ht, hwf⟩ := h.type
  obtain ⟨text, htext⟩ := hwf.summary
  unfold markStale
  split
  · exact h
  · have hs : State.Wf name { s with
        stale := 1, expiry := now + Int32.ofNat t.freshness.toNat, status := t.status,
        summary := some text } := ⟨⟨t, ht, hwf⟩, h.name, text, rfl⟩
    refine (deref_meets ht).bind fun type htype => ?_
    subst htype
    refine (deref_meets htext).bind fun text' heq => ?_
    subst heq
    exact (announce_meets hs _).bind fun out _ => hs

theorem findState_meets [Pcre Re] [HashOrder] {db : Db R Re}
    (hr : ∀ r ∈ db.stateMatches, ∃ t, r.target = some t ∧ t.Wf) (hs : db.states.All State.Wf)
    (now : Int32) (name : CString) :
    Meets bad (fun r => ∀ s db', r = some (s, db') → s.Wf name ∧
      ∃ t, db' = { db with states := t } ∧ t.All State.Wf) (findState now db name) := by
  unfold findState
  split
  · case h_1 s hg =>
      intro s' db' heq
      cases heq
      exact ⟨hs name s hg, db.states, rfl, hs⟩
  · split
    · simp
    · case h_2 target hm =>
        obtain ⟨r, hmem, rfl⟩ := firstMatch_mem hm
        obtain ⟨t, ht, hwf⟩ := hr r hmem
        refine (deref_meets ht).bind fun type htype s' db' heq => ?_
        subst htype
        cases heq
        have hblank : (State.blank now name type).Wf name := ⟨⟨type, rfl, hwf⟩, rfl, _, rfl⟩
        exact ⟨hblank, _, rfl, All.hashSet hs hblank⟩

theorem receiveState_meets [Pcre Re] [HashOrder] {db : Db R Re}
    (hr : ∀ r ∈ db.stateMatches, ∃ t, r.target = some t ∧ t.Wf) (hs : db.states.All State.Wf)
    (now : Int32) (p : Pdu) :
    Meets bad (fun r => ∃ t, r.1 = { db with states := t } ∧ t.All State.Wf)
      (receiveState now db p) := by
  unfold receiveState
  split
  · exact ⟨db.states, rfl, hs⟩
  · case h_2 name ts code msg hd =>
      refine (findState_meets hr hs now name).bind fun r hfind => ?_
      split
      · exact ⟨db.states, rfl, hs⟩
      · case h_2 s db' =>
          obtain ⟨hwf, t, rfl, ht⟩ := hfind s db' rfl
          split
          · refine (updateState_meets hwf ts code msg).bind fun r hr' => ?_
            exact ⟨_, rfl, All.hashSet ht hr'⟩
          · exact ⟨t, rfl, ht⟩

theorem checkFreshness_meets {db : Db R Re} (hs : db.states.All State.Wf) (now : Int32) :
    Meets bad (fun r => ∃ t, r.1 = { db with states := t } ∧ t.All State.Wf)
      (checkFreshness now db) := by
  refine (Table.sweep_meets (markStale now) fun k s h => markStale_meets (hs k s h) now).bind
    fun r hr => ?_
  exact ⟨r.1, rfl, hr⟩

end State

/-! ## Events -/

theorem Pdu.string_of_size {p : Pdu} {i : Nat} (h₁ : 1 ≤ i) (h₂ : i < p.size) :
    ∃ text, p.string i = some text := by
  unfold Pdu.size at h₂
  exact ⟨_, List.getElem?_eq_getElem (by omega)⟩

theorem Pdu.size_of_is {p : Pdu} {tag : Tag} {min max : Nat} (h : p.is tag min max) :
    min ≤ p.size := by
  simp only [Pdu.is, Bool.and_eq_true, Bool.or_eq_true, decide_eq_true_eq] at h
  rcases h.1.1 with h | h
  · simp [h]
  · exact h

theorem trimNumber_meets (hb : bad ≠ .outOfBounds) {P : Event → Prop} (max count : Int32)
    {l : List Event} (h : ∀ ev ∈ l, P ev) :
    Meets bad (fun r => ∀ ev ∈ r.2, P ev) (trimNumber max count l) := by
  induction l generalizing count with
  | nil =>
    unfold trimNumber
    split
    · exact hb.symm
    · simp
  | cons e l ih =>
    unfold trimNumber
    split
    · exact ih _ fun ev hev => h ev (by simp [hev])
    · exact h

theorem trimTime_meets (hb : bad ≠ .outOfBounds) {P : Event → Prop} (cut count : Int32)
    {l : List Event} (h : ∀ ev ∈ l, P ev) :
    Meets bad (fun r => ∀ ev ∈ r.2, P ev) (trimTime cut count l) := by
  induction l generalizing count with
  | nil => exact hb.symm
  | cons e l ih =>
    unfold trimTime
    split
    · exact h
    · exact ih _ fun ev hev => h ev (by simp [hev])

theorem bufferEvent_meets (hb : bad ≠ .outOfBounds) {P : Event → Prop} {db : Db R Re} {ev : Event}
    (h : ∀ e ∈ db.events, P e) (hev : P ev) (max : Int32) (keep : EventsKeep) :
    Meets bad (fun db' => ∃ events count,
      db' = { db with events := events, eventsCount := count } ∧ ∀ e ∈ events, P e)
      (bufferEvent db ev max keep) := by
  unfold bufferEvent
  split
  · have hall : ∀ e ∈ db.events ++ [ev], P e := by
      intro e he
      rcases List.mem_append.mp he with he | he
      · exact h e he
      · exact List.mem_singleton.mp he ▸ hev
    cases keep with
    | number => exact (trimNumber_meets hb _ _ hall).bind fun r hr => ⟨_, _, rfl, hr⟩
    | time => exact (trimTime_meets hb _ _ hall).bind fun r hr => ⟨_, _, rfl, hr⟩
  · exact ⟨_, _, rfl, h⟩

/-- An EVENT has its three strings. -/
theorem strings_of_event {p : Pdu} (hp : p.is .event 4 4) : ∃ ts name extra,
    p.string 1 = some ts ∧ p.string 2 = some name ∧ p.string 3 = some extra := by
  have hsize := Pdu.size_of_is hp
  obtain ⟨ts, hts⟩ := Pdu.string_of_size (p := p) (i := 1) (by omega) (by omega)
  obtain ⟨name, hname⟩ := Pdu.string_of_size (p := p) (i := 2) (by omega) (by omega)
  obtain ⟨extra, hextra⟩ := Pdu.string_of_size (p := p) (i := 3) (by omega) (by omega)
  exact ⟨ts, name, extra, hts, hname, hextra⟩

theorem receiveEvent_meets (hb : bad ≠ .outOfBounds) {db : Db R Re} (h : ∀ ev ∈ db.events, ev.Wf)
    {p : Pdu} (hp : p.is .event 4 4) (config : Config) :
    Meets bad (fun r => ∃ events count,
      r.1 = { db with events := events, eventsCount := count } ∧ ∀ ev ∈ events, ev.Wf)
      (receiveEvent config db p) := by
  obtain ⟨ts, name, extra, hts, hname, hextra⟩ := strings_of_event hp
  refine (deref_meets hts).bind fun _ _ => ?_
  refine Meets.bind (P := fun _ => True) ?_ fun out _ => ?_
  · refine (deref_meets hname).bind fun _ _ => ?_
    exact (deref_meets hextra).bind fun _ _ => trivial
  · exact (bufferEvent_meets hb h ⟨⟨name, hname⟩, extra, hextra⟩ _ _).bind fun db' hdb => hdb

/-! ## Requests -/

theorem replyState_meets {db : Db R Re} (h : db.states.All State.Wf) (name : CString) :
    Meets bad (fun _ => True) (replyState db name) := by
  unfold replyState
  split
  · trivial
  · case h_2 s hs =>
      obtain ⟨text, ht⟩ := (h name s hs).summary
      exact (deref_meets ht).bind fun _ _ => trivial

theorem mappedString_meets (hb : bad ≠ .outOfBounds) (text : CString) :
    Meets bad (fun _ => True) (mappedString text) := by
  unfold mappedString
  split
  · exact hb.symm
  · trivial

theorem replyDump_meets (hb : bad ≠ .outOfBounds) {db : Db R Re} (h : db.states.All State.Wf) :
    Meets bad (fun _ => True) (replyDump db) := by
  refine (Meets.mapM fun e he => ?_).bind fun parts _ =>
    (mappedString_meets hb _).bind fun _ _ => trivial
  obtain ⟨text, ht⟩ := (h e.1 e.2 (Table.get?_of_mem he)).summary
  exact (deref_meets ht).bind fun _ _ => trivial

theorem replyEvents_meets (hb : bad ≠ .outOfBounds) {db : Db R Re}
    (h : ∀ ev ∈ db.events, ev.Wf) (since : Int32) :
    Meets bad (fun _ => True) (replyEvents db since) := by
  refine (Meets.mapM fun ev hev => ?_).bind fun parts _ =>
    (mappedString_meets hb _).bind fun _ _ => trivial
  obtain ⟨⟨name, hname⟩, extra, hextra⟩ := h ev (List.mem_of_mem_filter hev)
  refine (deref_meets hname).bind fun _ _ => ?_
  exact (deref_meets hextra).bind fun _ _ => trivial

theorem forgetTable_all [Pcre Re] {α : Type} {P : CString → α → Prop} {t : Table CString α}
    (h : t.All P) {mark : α → α} (hmark : ∀ k x, P k x → P k (mark x)) (re : Re)
    (ignore : UInt8) : (forgetTable re ignore mark t).All P := by
  unfold forgetTable
  split
  · refine h.mapValues fun k x hx => ?_
    split
    · exact hmark k x hx
    · exact hx
  · exact h.filter _

/-- A table that the FORGET may not be about. -/
theorem forgetTable_all_of [Pcre Re] {α : Type} {P : CString → α → Prop} {t : Table CString α}
    (b : Prop) [Decidable b] (re : Re) (ignore : UInt8) (h : t.All P) {mark : α → α}
    (hmark : ∀ k x, P k x → P k (mark x)) :
    (if b then forgetTable re ignore mark t else t).All P := by
  split
  · exact forgetTable_all h hmark re ignore
  · exact h

theorem forget_safe [Double R] [Pcre Re] {db : Db R Re} (h : db.Safe bad) (payload : UInt16)
    (re : Re) (ignore : UInt8) : (forget payload re ignore db).Safe bad :=
  { h with
    states := forgetTable_all_of _ re ignore h.states fun _ _ hx => ⟨hx.type, hx.name, hx.summary⟩
    counters := forgetTable_all_of _ re ignore h.counters fun _ _ hx => ⟨hx.window, hx.name⟩
    samples := forgetTable_all_of _ re ignore h.samples fun _ _ hx => ⟨hx.window, hx.name⟩
    rates := forgetTable_all_of _ re ignore h.rates fun _ _ hx => ⟨hx.window, hx.name⟩ }

theorem receiveForget_safe [Double R] [Pcre Re] {db : Db R Re} (h : db.Safe bad)
    (payload pattern ignore : CString) : (receiveForget db payload pattern ignore).1.Safe bad := by
  unfold receiveForget
  split
  · exact h
  · exact forget_safe h _ _ _

theorem manage_meets [Double R] [Pcre Re] [HashOrder] (hb : bad ≠ .outOfBounds) {s : Server R Re}
    (h : s.db.Safe bad) (p : Pdu) :
    Meets bad (fun r => r.1.db.Safe bad) (manage s p) := by
  have frame {i n : Nat} (hi : 1 ≤ i) (hn : i < n) (hsize : n ≤ p.size) :
      Meets bad (fun _ => True) (deref (p.string i)) := by
    obtain ⟨text, ht⟩ := Pdu.string_of_size (p := p) (i := i) hi (by omega)
    exact (deref_meets ht).mono fun _ _ => trivial
  unfold manage
  split
  · case isTrue hp =>
      refine (frame (by omega) (by omega) (Pdu.size_of_is hp)).bind fun name _ => ?_
      exact (replyState_meets h.states name).bind fun e _ => h
  split
  · exact (replyDump_meets hb h.states).bind fun e _ => h
  split
  · exact h
  split
  · exact h
  split
  · case isTrue hp =>
      refine (frame (by omega) (by omega) (Pdu.size_of_is hp)).bind fun pattern _ => ?_
      split <;> exact h
  split
  · case isTrue hp =>
      refine (frame (by omega) (by omega) (Pdu.size_of_is hp)).bind fun since _ => ?_
      exact (replyEvents_meets hb h.events _).bind fun e _ => h
  split
  · exact h
  split
  · case isTrue hp =>
      have hsize := Pdu.size_of_is hp
      refine (frame (by omega) (by omega) hsize).bind fun payload _ => ?_
      refine (frame (by omega) (by omega) hsize).bind fun ignore _ => ?_
      refine (frame (by omega) (by omega) hsize).bind fun pattern _ => ?_
      exact receiveForget_safe h payload pattern ignore
  · exact h

/-! ## The kernel -/

section Kernel

variable [Double R]

theorem closeWindows_meets {k : Kernel R Re} (h : k.db.Safe bad) (now : Int32) :
    Meets bad (fun r => r.1.db.Safe bad) (closeWindows now k) := by
  unfold closeWindows
  split
  · refine (counterSeries.tick_meets h.counters _).bind fun r₁ hr₁ => ?_
    obtain ⟨t₁, hdb₁, ht₁⟩ := hr₁
    have h₁ : r₁.1.Safe bad := hdb₁ ▸ { h with counters := ht₁ }
    refine (sampleSeries.tick_meets h₁.samples _).bind fun r₂ hr₂ => ?_
    obtain ⟨t₂, hdb₂, ht₂⟩ := hr₂
    have h₂ : r₂.1.Safe bad := hdb₂ ▸ { h₁ with samples := ht₂ }
    refine (rateSeries.tick_meets h₂.rates _).bind fun r₃ hr₃ => ?_
    obtain ⟨t₃, hdb₃, ht₃⟩ := hr₃
    have h₃ : r₃.1.Safe bad := hdb₃ ▸ { h₂ with rates := ht₃ }
    exact h₃
  · exact h

theorem sweepFreshness_meets {k : Kernel R Re} (h : k.db.Safe bad) (clock : Clock) :
    Meets bad (fun r => r.1.db.Safe bad) (sweepFreshness clock k) := by
  unfold sweepFreshness
  split
  · refine (checkFreshness_meets h.states _).bind fun r hr => ?_
    obtain ⟨t, hdb, ht⟩ := hr
    have hwf : r.1.Safe bad := hdb ▸ { h with states := ht }
    exact hwf
  · exact h

theorem tock_meets {k : Kernel R Re} (h : k.db.Safe bad) (clock : Clock) :
    Meets bad (fun r => r.1.db.Safe bad) (tock clock k) := by
  have hbeacon (k : Kernel R Re) (h : k.db.Safe bad) : (beaconSweep clock k).1.db.Safe bad := by
    unfold beaconSweep
    split <;> exact h
  have hsave (k : Kernel R Re) (h : k.db.Safe bad) : (saveState clock.now k).1.db.Safe bad := by
    unfold saveState
    split <;> exact h
  refine (closeWindows_meets h clock.now).bind fun r hr => ?_
  exact (sweepFreshness_meets (hbeacon r.1 hr) clock).bind fun r' hr' => hsave r'.1 hr'

theorem listen_meets [Pcre Re] [HashOrder] (hb : bad ≠ .outOfBounds) {k : Kernel R Re}
    (h : k.db.Safe bad) (now : Int32) (p : Pdu) :
    Meets bad (fun r => r.1.db.Safe bad) (listen now p k) := by
  unfold listen
  split
  · refine (receiveState_meets h.stateMatches h.states now p).bind fun r hr => ?_
    obtain ⟨t, hdb, ht⟩ := hr
    have hwf : r.1.Safe bad := hdb ▸ { h with states := ht }
    exact hwf
  split
  · refine (counterSeries.receive_meets h.counterMatches h.counters p).bind fun r hr => ?_
    obtain ⟨t, hdb, ht⟩ := hr
    have hwf : r.1.Safe bad := hdb ▸ { h with counters := ht }
    exact hwf
  split
  · refine (sampleSeries.receive_meets h.sampleMatches h.samples p).bind fun r hr => ?_
    obtain ⟨t, hdb, ht⟩ := hr
    have hwf : r.1.Safe bad := hdb ▸ { h with samples := ht }
    exact hwf
  split
  · refine (rateSeries.receive_meets h.rateMatches h.rates p).bind fun r hr => ?_
    obtain ⟨t, hdb, ht⟩ := hr
    have hwf : r.1.Safe bad := hdb ▸ { h with rates := ht }
    exact hwf
  split
  · case isTrue hp =>
      refine (receiveEvent_meets hb h.events hp _).bind fun r hr => ?_
      obtain ⟨events, count, hdb, hev⟩ := hr
      have hwf : r.1.Safe bad := hdb ▸ { h with events := hev }
      exact hwf
  split <;> exact h

/-- One message to the kernel keeps the invariant and avoids the fault. -/
theorem reactor_avoids [Pcre Re] [HashOrder] (hb : bad ≠ .outOfBounds) {k : Kernel R Re}
    (h : k.db.Safe bad) (i : Input) : Meets bad (fun r => r.1.db.Safe bad) (reactor k i) := by
  cases i with
  | tock clock => exact tock_meets h clock
  | listener now p => exact listen_meets hb h now p
  | management p => exact (manage_meets hb h p).bind fun r hr => hr

/-- A NULL pointer is avoided whatever the windows are. -/
theorem Db.Wf.safe_null {db : Db R Re} (h : db.Wf) : db.Safe .nullDeref :=
  h.safe (fun _ _ _ _ _ _ => by simp [Window.Sound]) fun _ _ _ _ _ => by simp [Window.Sound]

theorem reactor_meets [Pcre Re] [HashOrder] {k : Kernel R Re} (h : k.db.Wf) (i : Input) :
    Meets .nullDeref (fun r => r.1.db.Wf) (reactor k i) :=
  (reactor_avoids (by decide) h.safe_null i).mono fun _ hr => hr.wf

theorem reactor_wf [Pcre Re] [HashOrder] {k : Kernel R Re} {i : Input} {k' : Kernel R Re}
    {es : List Effect} (h : k.db.Wf) (hstep : reactor k i = .ok (k', es)) : k'.db.Wf :=
  (reactor_meets h i).result hstep

/-- So does any run. -/
theorem run_meets [Pcre Re] [HashOrder] {k : Kernel R Re} (h : k.db.Wf) (is : List Input) :
    Meets .nullDeref (fun r => r.1.db.Wf) (Machine.run reactor k is) :=
  Machine.run_meets (P := fun k : Kernel R Re => k.db.Wf) (fun _ i hk => reactor_meets hk i) h is

end Kernel

end Bolo
