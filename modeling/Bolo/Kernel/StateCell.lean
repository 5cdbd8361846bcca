import Bolo.Kernel.Cells

/-!
# One state as a machine of its own

The counterpart of the windowed cells for states. A tick sweeps the state at the clock
reading of the sweep, behind the freshness timer; a submission carries the clock reading
at which a new record would be made.
-/
namespace Bolo

open Library

variable {R Re : Type}

/-- What a state is made of: its rules, the freshness timer, and its record. -/
structure StateCell (Re : Type) where
  rules : List (Rule TypeDef Re)
  timer : Timer
  found : Option State

/-- What a state reads. -/
inductive StateMsg where
  | tick (clock : Clock)
  | submit (now : Int32) (ts : UInt32) (code : UInt8) (msg : CString)
  | forget (keep : Bool)
  deriving DecidableEq

def State.mark (s : State) : State := { s with ignore := 1 }

namespace StateCell

def step [Pcre Re] (name : CString) (c : StateCell Re) :
    StateMsg → Except Fault (StateCell Re × List Pdu)
  | .tick clock => do
    let (s, out) ← Table.visit (Table.gate (markStale clock.sweep) (c.timer.due clock.now))
      c.found
    return ({ c with timer := c.timer.fire clock.now, found := s }, out)
  | .submit now ts code msg => do
    let (s, out) ← cellReceiveState now c.rules name ts code msg c.found
    return ({ c with found := s }, out)
  | .forget keep => .ok ({ c with found := if keep then c.found.map State.mark else none }, [])

def of (name : CString) (k : Kernel R Re) : StateCell Re where
  rules := k.db.stateMatches
  timer := k.freshness
  found := k.db.states.get? name

variable (Re) in
def view [Pcre Re] (name : CString) : Input → Option StateMsg
  | .tock clock => some (.tick clock)
  | .listener now p =>
    if p.is .state 5 5 then
      match decodeState p with
      | some (n, ts, code, msg) => if n = name then some (.submit now ts code msg) else none
      | none => none
    else none
  | .management p =>
    match (decodeForget p : Option (UInt16 × Re × UInt8)) with
    | some (payload, re, ignore) =>
      if payload &&& PAYLOAD_STATE ≠ 0 ∧ Pcre.exec re name then some (.forget (ignore ≠ 0))
      else none
    | none => none

variable [Double R] [Pcre Re] (name : CString)

theorem step_tock {clock : Clock} {k k' : Kernel R Re} {es : List Effect} (hwf : k.db.Wf)
    (h : tock clock k = .ok (k', es)) :
    step name (of name k) (.tick clock) =
      .ok (of name k', es.filterMap (Effect.select (stateAbout name))) := by
  obtain ⟨tk⟩ := tock_spec h
  have hvisit := Table.visit_of_sweep _ stateAbout tk.sweptStates (fun n s s' out hs hmark p hp
    n' => by
      have hown := markStale_own hmark p hp
      rw [stateAbout_iff, hown.2, (hwf.states n s hs).name]
      simp [hown.1, eq_comm]) name
  rw [tk.select_states name]
  simp only [step, of, hvisit, bind, Except.bind, pure, Except.pure, tk.stateMatches_eq,
    tk.freshness_eq]

omit [Pcre Re] [Double R] in
/-- A handler of another kind of PDU leaves the state alone and says nothing about it. -/
theorem of_other {k : Kernel R Re} {db : Db R Re} {out : List Pdu}
    (htable : db.states = k.db.states) (hrules : db.stateMatches = k.db.stateMatches)
    (hout : ∀ q ∈ out, q.type ≠ Tag.state.text ∧ q.type ≠ Tag.transition.text) :
    of name (k.setDb db) = of name k ∧
      (out.map Effect.broadcast).filterMap (Effect.select (stateAbout name)) = [] := by
  constructor
  · simp only [of, Kernel.setDb, Kernel.db] at htable hrules ⊢
    simp [htable, hrules]
  · rw [select_broadcasts, List.filter_eq_nil_iff]
    intro q hq habout
    have htype := (stateAbout_iff.mp habout).1
    exact htype.elim (hout q hq).1 (hout q hq).2

variable [HashOrder]

omit [Double R] in
theorem step_receive {now : Int32} {p : Pdu} {k : Kernel R Re} {db : Db R Re} {out : List Pdu}
    (hwf : k.db.states.All State.Wf) (hp : p.is .state 5 5)
    (h : receiveState now k.db p = .ok (db, out)) :
    match view Re name (.listener now p) with
    | none => of name (k.setDb db) = of name k ∧ out.filter (stateAbout name) = []
    | some m => step name (of name k) m =
        .ok (of name (k.setDb db), out.filter (stateAbout name)) := by
  simp only [view, hp, if_true]
  rcases receiveState_spec h with ⟨hd, rfl, rfl⟩ | ⟨n, ts, code, msg, c, t, hd, hc, rfl, ht⟩
  · simp [hd, Kernel.setDb, Kernel.db]
  · have hown := cellReceiveState_own (fun s hs => (hwf n s hs).name) hc
    by_cases hn : n = name
    · subst hn
      have hall : out.filter (stateAbout n) = out := by
        rw [List.filter_eq_self]
        intro q hq
        exact stateAbout_iff.mpr (hown q hq)
      simp only [hd, if_true, step, of, hc, bind, Except.bind, pure, Except.pure, hall]
      simp [Kernel.setDb, Kernel.db, ht]
    · have hnil : out.filter (stateAbout name) = [] := by
        rw [List.filter_eq_nil_iff]
        intro q hq habout
        exact hn (by simpa [hown q hq] using (stateAbout_iff.mp habout).2)
      simp [hd, hn, hnil, of, Kernel.setDb, Kernel.db, ht, Ne.symm hn]

theorem step_listen {now : Int32} {p : Pdu} {k k' : Kernel R Re} {es : List Effect}
    (hwf : k.db.Wf) (h : listen now p k = .ok (k', es)) :
    match view Re name (.listener now p) with
    | none => of name k' = of name k ∧ es.filterMap (Effect.select (stateAbout name)) = []
    | some m => step name (of name k) m =
        .ok (of name k', es.filterMap (Effect.select (stateAbout name))) := by
  have other {tag : Tag} {m n : Nat} (hp : p.is tag m n) (hne : tag ≠ .state) :
      view Re name (.listener now p) = none := by
    simp [view, Pdu.is_of_ne hp hne]
  cases listen_spec h with
  | @state db out hp hr =>
    rw [select_broadcasts]
    exact step_receive name hwf.states hp hr
  | @series db out κ hp hr =>
    rw [other hp (by cases κ <;> simp [Kind.tag])]
    rcases κ.series.receive_spec hr with ⟨-, rfl, rfl⟩ | ⟨n, ts, v, c, t, -, hc, rfl, -⟩
    · exact of_other name rfl rfl (by simp)
    · refine of_other name (by cases κ <;> rfl) (by cases κ <;> rfl) fun q hq => ?_
      have hown := (κ.series.cellReceive_own (hwf.rules κ) (hwf.series κ n) hc q hq).1
      rw [hown]
      cases κ <;> simp [Kind.tag]
  | @event db out hp hr =>
    rw [other hp (by simp)]
    obtain ⟨⟨events, count, rfl⟩, hown⟩ := receiveEvent_spec hr
    refine of_other name rfl rfl fun q hq => ?_
    simp [hown q hq]
  | setKeys hp =>
    rw [other hp (by simp)]
    exact ⟨rfl, rfl⟩
  | other hs hκ => simp [view, hs]

theorem step_manage {p : Pdu} {k k' : Kernel R Re} {es : List Effect}
    (h : reactor k (.management p) = .ok (k', es)) :
    match view Re name (.management p) with
    | none => of name k' = of name k ∧ es.filterMap (Effect.select (stateAbout name)) = []
    | some m => step name (of name k) m =
        .ok (of name k', es.filterMap (Effect.select (stateAbout name))) := by
  simp only [reactor, bind_eq_ok, pure_eq_ok, Prod.exists, Prod.mk.injEq] at h
  obtain ⟨s', es', hm, rfl, rfl⟩ := h
  obtain ⟨hconfig, hquiet, hdb⟩ := manage_spec hm
  have hnil : es'.filterMap (Effect.select (stateAbout name)) = [] := by
    refine select_quiet (fun q hq => ?_) fun e he => (hquiet e he).quiet
    rcases (stateAbout_iff.mp hq).1 with h | h <;> simp [h]
  simp only [hnil, view, of, Kernel.db, hdb, forgetBy]
  cases (decodeForget p : Option (UInt16 × Re × UInt8)) with
  | none => simp
  | some d =>
    obtain ⟨payload, re, ignore⟩ := d
    simp only [forget]
    by_cases hb : payload &&& PAYLOAD_STATE = 0
    · simp [hb]
    · by_cases he : Pcre.exec re name = true
      · simp only [hb, he, get?_forgetTable, step, ne_eq, not_false_eq_true, and_self, if_true]
        simp only [decide_not, Bool.not_eq_eq_eq_not, Bool.not_true, decide_eq_false_iff_not]
        rfl
      · simp [hb, he, get?_forgetTable]

/-- The state `name`, as a component of the kernel. -/
def component : Component (reactor : Kernel R Re → _) (StateCell Re) StateMsg Pdu where
  inv k := k.db.Wf
  proj := of name
  view := view Re name
  obs := Effect.select (stateAbout name)
  cell := step name
  inv_step := @reactor_wf R Re _ _ _
  skip {k i k' es} hwf hv h := by
    cases i with
    | tock clock => simp [view] at hv
    | listener now p => simpa [hv] using step_listen name hwf h
    | management p => simpa [hv] using step_manage name h
  act {k i m k' es} hwf hv h := by
    cases i with
    | tock clock =>
      obtain rfl : StateMsg.tick clock = m := by simpa [view] using hv
      exact step_tock name hwf h
    | listener now p => simpa [hv] using step_listen name hwf h
    | management p => simpa [hv] using step_manage name h

/-! ## What a step does to the record -/

omit [Double R] [HashOrder]

/-- The record after an accepted update. -/
def updated (s : State) (ts : UInt32) (code : UInt8) (msg : CString) (type : TypeDef) : State :=
  { s with
    status := code, summary := some msg, lastSeen := ts.toInt32, expiry := expiryAt ts type,
    stale := 0 }

/-- The record after it was found expired at clock reading `now`. -/
def expired (s : State) (now : Int32) (type : TypeDef) (summary : CString) : State :=
  { s with
    stale := 1, expiry := now + Int32.ofNat type.freshness.toNat, status := type.status,
    summary := some summary }

/-- Whether a submission would be taken in. -/
def accepts (c : StateCell Re) : Bool :=
  match lookupState 0 c.rules name c.found with
  | .ok (some s) => s.ignore = 0
  | _ => false

/-- The ways in which a step that forgets nothing changes the record. -/
inductive Moves (c : StateCell Re) : StateMsg → Option State → List Pdu → Prop
  | stay {m}
      (htick : ∀ clock s, m = .tick clock → c.timer.due clock.now → c.found = some s →
        clock.sweep < s.expiry ∨ s.ignore ≠ 0)
      (hsubmit : ∀ now ts code msg, m = .submit now ts code msg → accepts name c = false) :
      Moves c m c.found []
  | update {now ts code msg s type out} (hacc : accepts name c = true)
      (hl : lookupState now c.rules name c.found = .ok (some s)) (ht : s.type = some type)
      (ha : announce (s.stale ≠ 0 || s.status ≠ code) (updated s ts code msg type) = .ok out) :
      Moves c (.submit now ts code msg) (some (updated s ts code msg type)) out
  | expire {clock s type summary out} (hdue : c.timer.due clock.now) (hf : c.found = some s)
      (he : s.expiry ≤ clock.sweep) (ht : s.type = some type)
      (hs : type.summary = some summary)
      (ha : announce (s.stale = 0 || s.status ≠ type.status)
        (expired s clock.sweep type summary) = .ok out) :
      Moves c (.tick clock) (some (expired s clock.sweep type summary)) out

theorem lookupState_accepts {c : StateCell Re} {now : Int32} {r : Option State}
    (h : lookupState now c.rules name c.found = .ok r) :
    accepts name c = true ↔ ∃ s, r = some s ∧ s.ignore = 0 := by
  unfold accepts
  unfold lookupState at h ⊢
  cases hf : c.found with
  | some s =>
    obtain rfl : some s = r := by simpa [hf] using h
    simp
  | none =>
    cases hm : firstMatch c.rules name with
    | none =>
      obtain rfl : none = r := by simpa [hf, hm] using h
      simp
    | some target =>
      simp only [hf, hm, bind_eq_ok, pure_eq_ok, deref_eq_ok] at h
      obtain ⟨type, rfl, rfl⟩ := h
      simp [bind, Except.bind, pure, Except.pure, State.blank]

theorem step_submit {c c' : StateCell Re} {now : Int32} {ts : UInt32} {code : UInt8}
    {msg : CString} {out : List Pdu} (h : step name c (.submit now ts code msg) = .ok (c', out)) :
    c'.rules = c.rules ∧ c'.timer = c.timer ∧
      cellReceiveState now c.rules name ts code msg c.found = .ok (c'.found, out) := by
  simp only [step, bind_eq_ok, pure_eq_ok, Prod.exists, Prod.mk.injEq] at h
  obtain ⟨s, out', hc, rfl, rfl⟩ := h
  exact ⟨rfl, rfl, hc⟩

theorem step_tick {c c' : StateCell Re} {clock : Clock} {out : List Pdu}
    (h : step name c (.tick clock) = .ok (c', out)) :
    c'.rules = c.rules ∧ c'.timer = c.timer.fire clock.now ∧
      Table.visit (Table.gate (markStale clock.sweep) (c.timer.due clock.now)) c.found =
        .ok (c'.found, out) := by
  simp only [step, bind_eq_ok, pure_eq_ok, Prod.exists, Prod.mk.injEq] at h
  obtain ⟨s, out', hc, rfl, rfl⟩ := h
  exact ⟨rfl, rfl, hc⟩

theorem step_moves {c c' : StateCell Re} {m : StateMsg} {out : List Pdu}
    (hm : ∀ keep, m ≠ .forget keep) (h : step name c m = .ok (c', out)) :
    c'.rules = c.rules ∧ Moves name c m c'.found out := by
  cases m with
  | forget keep => exact absurd rfl (hm keep)
  | submit now ts code msg =>
    obtain ⟨hrules, -, hc⟩ := step_submit name h
    refine ⟨hrules, ?_⟩
    simp only [cellReceiveState, bind_eq_ok] at hc
    obtain ⟨r, hl, hc⟩ := hc
    have hacc := lookupState_accepts name hl
    have hstay (hno : accepts name c = false) : Moves name c (.submit now ts code msg) c.found [] :=
      .stay (by simp) fun _ _ _ _ _ => hno
    cases r with
    | none =>
      simp only [pure_eq_ok, Prod.mk.injEq] at hc
      obtain ⟨hfound, rfl⟩ := hc
      have hnone : c.found = none := by
        cases hf : c.found with
        | none => rfl
        | some s => simp [hf, lookupState] at hl
      rw [← hfound, ← hnone]
      exact hstay (by simpa using hacc)
    | some s =>
      simp only at hc
      split at hc
      · case isTrue hi =>
          simp only [bind_eq_ok, pure_eq_ok, Prod.exists, Prod.mk.injEq] at hc
          obtain ⟨s', out', hu, hfound, rfl⟩ := hc
          obtain ⟨type, ht, rfl, ha⟩ := updateState_spec hu
          rw [← hfound]
          exact .update (hacc.mpr ⟨s, rfl, hi⟩) hl ht ha
      · case isFalse hi =>
          simp only [pure_eq_ok, Prod.mk.injEq] at hc
          obtain ⟨hfound, rfl⟩ := hc
          have hsome : c.found = some s := by
            unfold lookupState at hl
            split at hl
            · rw [‹c.found = _›]
              simpa using hl
            · split at hl
              · simp at hl
              · -- a record just made is not ignored
                simp only [bind_eq_ok, pure_eq_ok, Option.some.injEq] at hl
                obtain ⟨type, -, rfl⟩ := hl
                exact absurd rfl hi
          rw [← hfound, ← hsome]
          exact hstay (by simpa [hi] using hacc)
  | tick clock =>
    obtain ⟨hrules, -, hc⟩ := step_tick name h
    refine ⟨hrules, ?_⟩
    cases hf : c.found with
    | none =>
      simp only [hf, Table.visit, Except.ok.injEq, Prod.mk.injEq] at hc
      rw [← hc.1, ← hc.2, ← hf]
      exact .stay (by simp [hf]) (by simp)
    | some s =>
      simp only [hf, Table.visit, bind_eq_ok, pure_eq_ok, Prod.exists, Prod.mk.injEq] at hc
      obtain ⟨s', out', hg, hfound, rfl⟩ := hc
      unfold Table.gate at hg
      split at hg
      · case isTrue hdue =>
          rcases markStale_spec hg with ⟨hlive, rfl, rfl⟩ | ⟨he, -, type, summary, ht, hs, rfl, ha⟩
          · rw [← hfound, ← hf]
            refine .stay (fun clock' s'' hm _ hs => ?_) (by simp)
            cases hm
            obtain rfl : s' = s'' := by simpa [hf] using hs
            exact hlive
          · rw [← hfound]
            exact .expire hdue hf he ht hs ha
      · case isFalse hdue =>
          simp only [Except.ok.injEq, Prod.mk.injEq] at hg
          obtain ⟨rfl, rfl⟩ := hg
          rw [← hfound, ← hf]
          refine .stay (fun clock' s'' hm hd _ => ?_) (by simp)
          cases hm
          exact absurd hd hdue

end StateCell

end Bolo
