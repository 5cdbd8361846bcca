import Bolo.Kernel.StateCell

/-!
# Independence of datapoints

What happens to a datapoint is decided by the PDUs that name it and by the ticks. Two runs
that agree on these agree on its record and on what was broadcast about it; submissions to
different datapoints commute; and a submission leaves everything else alone.
-/
namespace Bolo

open Library

variable {R Re : Type}

/-- The four kinds of datapoints. -/
inductive PointKind where
  | state
  | series (κ : Kind)
  deriving DecidableEq, Repr

namespace PointKind

@[reducible] def Record (R : Type) : PointKind → Type
  | .state => State
  | .series κ => κ.Record R

def tag : PointKind → Tag
  | .state => .state
  | .series κ => κ.tag

def record [Double R] (d : PointKind) (name : CString) (db : Db R Re) : Option (d.Record R) :=
  match d with
  | .state => db.states.get? name
  | .series κ => (κ.series.table db).get? name

/-- Broadcasts about the datapoint. -/
def about : PointKind → CString → Pdu → Bool
  | .state => stateAbout
  | .series κ => κ.about

/-- PDUs of the kind that carry the name; the name is the second frame of each kind. -/
def Names (d : PointKind) (name : CString) (p : Pdu) : Prop :=
  p.type = d.tag.text ∧ p.string 2 = some name

instance (d : PointKind) (name : CString) (p : Pdu) : Decidable (d.Names name p) :=
  inferInstanceAs (Decidable (_ ∧ _))

/-- What a run has to say to the datapoint: the ticks with their clocks, and the PDUs that
name it. -/
def reads (d : PointKind) (name : CString) : Input → Option (Clock ⊕ Pdu)
  | .tock clock => some (.inl clock)
  | .listener _ p => if d.Names name p then some (.inr p) else none
  | .management _ => none

end PointKind

/-! ## Names in submissions -/

theorem decodeHead_name {p : Pdu} {name : CString} {ts : UInt32}
    (h : decodeHead p = some (name, ts)) : p.string 2 = some name := by
  simp only [decodeHead, bind, Option.bind_eq_some_iff] at h
  obtain ⟨_, -, n, hn, h⟩ := h
  split at h
  · cases h
  · simp only [Option.some.injEq, Prod.mk.injEq] at h
    exact h.1 ▸ hn

theorem Series.decode_name {α V : Type} (S : Series R Re α V) {p : Pdu} {name : CString}
    {ts : UInt32} {v : V} (h : S.decode p = some (name, ts, v)) : p.string 2 = some name :=
  decodeHead_name (S.decode_head p _ h)

theorem decodeState_name {p : Pdu} {name : CString} {ts : UInt32} {code : UInt8}
    {msg : CString} (h : decodeState p = some (name, ts, code, msg)) :
    p.string 2 = some name := by
  simp only [decodeState, bind, Option.bind_eq_some_iff] at h
  obtain ⟨_, -, _, -, n, hn, _, -, h⟩ := h
  split at h
  · cases h
  · simp only [Option.some.injEq, Prod.mk.injEq] at h
    exact h.1 ▸ hn

theorem Pdu.type_of_is {p : Pdu} {tag : Tag} {m n : Nat} (h : p.is tag m n) :
    p.type = tag.text := by
  simp only [Pdu.is, Bool.and_eq_true, decide_eq_true_eq] at h
  exact h.2

/-! ## Cells do not read the listener's clock -/

def Msg.timeless {V : Type} : Msg V → Msg V
  | .submit _ ts v => .submit 0 ts v
  | m => m

def StateMsg.timeless : StateMsg → StateMsg
  | .submit _ ts code msg => .submit 0 ts code msg
  | m => m

/-- A record made by a rule is overwritten by the submission that made it, expiry included. -/
theorem cellReceiveState_clock [Pcre Re] (now now' : Int32) (rules : List (Rule TypeDef Re))
    (name : CString) (ts : UInt32) (code : UInt8) (msg : CString) (found : Option State) :
    cellReceiveState now rules name ts code msg found =
      cellReceiveState now' rules name ts code msg found := by
  unfold cellReceiveState lookupState
  cases found with
  | some s => rfl
  | none =>
    cases firstMatch rules name with
    | none => rfl
    | some target => cases target <;> rfl

section Run

variable [Double R] [Pcre Re] [HashOrder]

def Kind.timeless (κ : Kind) (name : CString) :
    Component (reactor : Kernel R Re → _) (Cell Re (κ.Record R)) (Msg (κ.Value R)) Pdu :=
  (κ.component name).reduce Msg.timeless (κ.series.cell name) fun c m => by cases m <;> rfl

def StateCell.timeless (name : CString) :
    Component (reactor : Kernel R Re → _) (StateCell Re) StateMsg Pdu :=
  (StateCell.component name).reduce StateMsg.timeless (StateCell.step name) fun c m => by
    cases m with
    | submit now ts code msg =>
      simp only [StateCell.component, StateCell.step, StateMsg.timeless]
      rw [cellReceiveState_clock now 0]
    | _ => rfl

omit [HashOrder] in
theorem Kind.view_eq_none {κ : Kind} {name : CString} {p : Pdu}
    (h : ¬(PointKind.series κ).Names name p) (now : Int32) :
    κ.view R Re name (.listener now p) = none := by
  simp only [Kind.view]
  split
  · case isTrue hp =>
      split
      · case h_1 n ts v hd =>
          have hn : n ≠ name := by
            rintro rfl
            exact h ⟨Pdu.type_of_is hp, κ.series.decode_name hd⟩
          simp [hn]
      · rfl
  · rfl

omit [Double R] [HashOrder] in
theorem StateCell.view_eq_none {name : CString} {p : Pdu}
    (h : ¬PointKind.state.Names name p) (now : Int32) :
    StateCell.view Re name (.listener now p) = none := by
  simp only [StateCell.view]
  split
  · case isTrue hp =>
      split
      · case h_1 n ts code msg hd =>
          have hn : n ≠ name := by
            rintro rfl
            exact h ⟨Pdu.type_of_is hp, decodeState_name hd⟩
          simp [hn]
      · rfl
  · rfl

variable (R Re) in
/-- A windowed datapoint sees of an input what the run has to say to it. -/
theorem Kind.timeless_view (κ : Kind) (name : CString) {i : Input}
    (hi : ∀ p, i ≠ .management p) :
    (κ.timeless name : Component (reactor : Kernel R Re → _) _ _ _).view i =
      ((PointKind.series κ).reads name i).bind fun m => match m with
        | .inl clock => some (.tick clock.now)
        | .inr p => (κ.view R Re name (.listener 0 p)).map Msg.timeless := by
  cases i with
  | tock clock => rfl
  | management p => exact absurd rfl (hi p)
  | listener now p =>
    change (κ.view R Re name (.listener now p)).map Msg.timeless = _
    by_cases hn : (PointKind.series κ).Names name p
    · simp only [PointKind.reads, hn, if_true, Option.bind_some, Kind.view]
      split
      · split
        · split <;> rfl
        · rfl
      · rfl
    · simp [PointKind.reads, hn, Kind.view_eq_none hn]

omit [Double R] [HashOrder] in
theorem StateCell.view_listener (name : CString) (now : Int32) (p : Pdu) :
    (StateCell.view Re name (.listener now p)).map StateMsg.timeless =
      (StateCell.view Re name (.listener 0 p)).map StateMsg.timeless := by
  simp only [StateCell.view]
  split
  · split
    · split <;> rfl
    · rfl
  · rfl

variable (R Re) in
theorem StateCell.timeless_view (name : CString) {i : Input} (hi : ∀ p, i ≠ .management p) :
    (StateCell.timeless name : Component (reactor : Kernel R Re → _) _ _ _).view i =
      (PointKind.state.reads name i).bind fun m => match m with
        | .inl clock => some (.tick clock)
        | .inr p => (StateCell.view Re name (.listener 0 p)).map StateMsg.timeless := by
  cases i with
  | tock clock => rfl
  | management p => exact absurd rfl (hi p)
  | listener now p =>
    change (StateCell.view Re name (.listener now p)).map StateMsg.timeless = _
    by_cases hn : PointKind.state.Names name p
    · simpa [PointKind.reads, hn] using StateCell.view_listener name now p
    · simp [PointKind.reads, hn, StateCell.view_eq_none hn]

omit [Double R] [Pcre Re] [HashOrder] in
private theorem filterMap_reads {M : Type} {view : Input → Option M}
    {reads : Input → Option (Clock ⊕ Pdu)} {hear : Clock ⊕ Pdu → Option M}
    {is : List Input} (h : ∀ i ∈ is, view i = (reads i).bind hear) :
    is.filterMap view = (is.filterMap reads).filterMap hear := by
  rw [List.filterMap_filterMap]
  exact List.filterMap_congr h

/-- Runs that say the same to a datapoint leave it with the same record and had the same
broadcasts about it. -/
theorem runs_agree (d : PointKind) (name : CString) {k k₁ k₂ : Kernel R Re} (hwf : k.db.Wf)
    {is js : List Input} {es₁ es₂ : List Effect}
    (h₁ : Machine.run reactor k is = .ok (k₁, es₁))
    (h₂ : Machine.run reactor k js = .ok (k₂, es₂))
    (hi : ∀ i ∈ is, ∀ p, i ≠ .management p) (hj : ∀ i ∈ js, ∀ p, i ≠ .management p)
    (heq : is.filterMap (d.reads name) = js.filterMap (d.reads name)) :
    d.record name k₁.db = d.record name k₂.db ∧
      es₁.filterMap (Effect.select (d.about name)) =
        es₂.filterMap (Effect.select (d.about name)) := by
  cases d with
  | state =>
    have hv₁ := filterMap_reads fun i hm => StateCell.timeless_view R Re name (hi i hm)
    have hv₂ := filterMap_reads fun i hm => StateCell.timeless_view R Re name (hj i hm)
    obtain ⟨hcell, hout⟩ := (StateCell.timeless name).run_eq hwf h₁ h₂
      (hv₁.trans ((congrArg _ heq).trans hv₂.symm))
    exact ⟨congrArg StateCell.found hcell, hout⟩
  | series κ =>
    have hv₁ := filterMap_reads fun i hm => κ.timeless_view R Re name (hi i hm)
    have hv₂ := filterMap_reads fun i hm => κ.timeless_view R Re name (hj i hm)
    obtain ⟨hcell, hout⟩ := (κ.timeless name).run_eq hwf h₁ h₂
      (hv₁.trans ((congrArg _ heq).trans hv₂.symm))
    exact ⟨congrArg Cell.found hcell, hout⟩

/-! ## Submissions leave the rest alone -/

omit [Double R] [Pcre Re] [HashOrder] in
theorem PointKind.tag_injective : Function.Injective PointKind.tag := by
  intro d d' htag
  cases d with
  | state => cases d' with
    | state => rfl
    | series κ => cases κ <;> cases htag
  | series κ => cases d' with
    | state => cases κ <;> cases htag
    | series κ' => cases κ <;> cases κ' <;> first | rfl | cases htag

omit [Double R] [Pcre Re] [HashOrder] in
theorem PointKind.Names.unique {d d' : PointKind} {name name' : CString} {p : Pdu}
    (h : d.Names name p) (h' : d'.Names name' p) : (d, name) = (d', name') := by
  have htag : d = d' := PointKind.tag_injective (Tag.text_inj.mp (h.1.symm.trans h'.1))
  have hname : name = name' := by simpa [h.2] using h'.2
  rw [htag, hname]

omit [Double R] [Pcre Re] [HashOrder] in
theorem PointKind.tag_eq {d : PointKind} {p : Pdu} (h : p.type = d.tag.text) {tag : Tag} {m n : Nat}
    (hp : p.is tag m n) : tag = d.tag :=
  Tag.text_inj.mp ((Pdu.type_of_is hp).symm.trans h)

omit [Double R] [Pcre Re] [HashOrder] in
theorem PointKind.tag_ne_event (d : PointKind) : Tag.event ≠ d.tag := by
  cases d with
  | state => simp [PointKind.tag]
  | series κ => cases κ <;> simp [PointKind.tag, Kind.tag]

omit [Double R] [Pcre Re] [HashOrder] in
theorem PointKind.tag_ne_setKeys (d : PointKind) : Tag.setKeys ≠ d.tag := by
  cases d with
  | state => simp [PointKind.tag]
  | series κ => cases κ <;> simp [PointKind.tag, Kind.tag]

/-- No submission changes a datapoint that it does not name. -/
theorem listen_record {k k' : Kernel R Re} (hwf : k.db.Wf) {now : Int32} {p : Pdu}
    {es : List Effect} (h : listen now p k = .ok (k', es)) {d : PointKind} {name : CString}
    (hn : ¬d.Names name p) : d.record name k'.db = d.record name k.db := by
  cases d with
  | state =>
    have hskip := StateCell.step_listen name hwf h
    rw [StateCell.view_eq_none hn] at hskip
    exact congrArg StateCell.found hskip.1
  | series κ =>
    have hskip := κ.cell_listen name hwf h
    rw [Kind.view_eq_none hn] at hskip
    exact congrArg Cell.found hskip.1

omit [Double R] [Pcre Re] [HashOrder] in
/-- Everything but the datapoints: events, keys, rules, settings and timers. -/
def Kernel.bare (k : Kernel R Re) : Kernel R Re :=
  k.setDb { k.db with states := .empty, counters := .empty, samples := .empty, rates := .empty }

/-- A submission to a datapoint changes nothing else. -/
theorem listen_bare {k k' : Kernel R Re} {now : Int32} {p : Pdu} {es : List Effect}
    (h : listen now p k = .ok (k', es)) {d : PointKind} (htype : p.type = d.tag.text) :
    k'.bare = k.bare := by
  cases listen_spec h with
  | @state db out hp hr =>
    rcases receiveState_spec hr with ⟨-, rfl, -⟩ | ⟨n, ts, code, msg, c, t, -, -, rfl, -⟩ <;> rfl
  | @series db out κ hp hr =>
    rcases κ.series.receive_spec hr with ⟨-, rfl, -⟩ | ⟨n, ts, v, c, t, -, -, rfl, -⟩
    · rfl
    · cases κ <;> rfl
  | @event db out hp hr => exact absurd (d.tag_eq htype hp) d.tag_ne_event
  | setKeys hp => exact absurd (d.tag_eq htype hp) d.tag_ne_setKeys
  | other hs hκ => rfl

/-! ## Submissions to different datapoints commute -/

theorem listen_state {p : Pdu} (hp : p.is .state 5 5) (now : Int32) (k : Kernel R Re) :
    listen now p k = (do
      let (db, out) ← receiveState now k.db p
      return (k.setDb db, out.map .broadcast)) := by
  simp [listen, hp]

theorem listen_series {κ : Kind} {p : Pdu} (hp : p.is κ.tag 4 κ.maxFrames) (now : Int32)
    (k : Kernel R Re) :
    listen now p k = (do
      let (db, out) ← κ.series.receive k.db p
      return (k.setDb db, out.map .broadcast)) := by
  cases κ with
  | counter =>
    have hc : p.is .counter 4 4 = true := hp
    simp only [listen, Pdu.is_of_ne hc (show Tag.counter ≠ .state by simp), hc]
    rfl
  | sample =>
    have hs : p.is .sample 4 0 = true := hp
    simp only [listen, Pdu.is_of_ne hs (show Tag.sample ≠ .state by simp),
      Pdu.is_of_ne hs (show Tag.sample ≠ .counter by simp), hs]
    rfl
  | rate =>
    have hr : p.is .rate 4 4 = true := hp
    simp only [listen, Pdu.is_of_ne hr (show Tag.rate ≠ .state by simp),
      Pdu.is_of_ne hr (show Tag.rate ≠ .counter by simp),
      Pdu.is_of_ne hr (show Tag.rate ≠ .sample by simp), hr]
    rfl

/-- Whether a submission is handled, and what it broadcasts, depends on nothing but its own
datapoint. -/
theorem listen_same {d : PointKind} {name : CString} {k₁ k₁' k₂ : Kernel R Re}
    (hrecord : d.record name k₁.db = d.record name k₂.db) (hbare : k₁.bare = k₂.bare) {now : Int32}
    {p : Pdu} (hn : d.Names name p) {es : List Effect} (h : listen now p k₁ = .ok (k₁', es)) :
    ∃ k₂', listen now p k₂ = .ok (k₂', es) := by
  cases listen_spec h with
  | @state db out hp hr =>
    obtain rfl : d = .state := PointKind.tag_injective (d.tag_eq hn.1 hp).symm
    suffices ∃ db', receiveState now k₂.db p = .ok (db', out) by
      obtain ⟨db', h₂⟩ := this
      exact ⟨k₂.setDb db', by simp [listen_state hp, h₂, bind, Except.bind, pure, Except.pure]⟩
    rcases receiveState_spec hr with ⟨hd, -, rfl⟩ | ⟨n, ts, code, msg, c, t, hd, hc, -, -⟩
    · exact ⟨k₂.db, by simp [receiveState, hd]⟩
    · obtain rfl : n = name := by simpa [hn.2] using (decodeState_name hd).symm
      have hrules : k₁.db.stateMatches = k₂.db.stateMatches := congrArg (·.db.stateMatches) hbare
      rw [hrules, show k₁.db.states.get? n = k₂.db.states.get? n from hrecord] at hc
      exact receiveState_complete hd hc
  | @series db out κ hp hr =>
    obtain rfl : d = .series κ := PointKind.tag_injective (d.tag_eq hn.1 hp).symm
    suffices ∃ db', κ.series.receive k₂.db p = .ok (db', out) by
      obtain ⟨db', h₂⟩ := this
      exact ⟨k₂.setDb db', by simp [listen_series hp, h₂, bind, Except.bind, pure, Except.pure]⟩
    rcases κ.series.receive_spec hr with ⟨hd, -, rfl⟩ | ⟨n, ts, v, c, t, hd, hc, -, -⟩
    · exact ⟨k₂.db, by simp [Series.receive, hd]⟩
    · obtain rfl : n = name := by simpa [hn.2] using (κ.series.decode_name hd).symm
      have hrules : κ.series.rules k₁.db = κ.series.rules k₂.db := by
        have hrules := congrArg (fun k => κ.series.rules k.db) hbare
        cases κ <;> exact hrules
      rw [hrules, show (κ.series.table k₁.db).get? n = (κ.series.table k₂.db).get? n
        from hrecord] at hc
      exact κ.series.receive_complete hd hc
  | @event db out hp hr => exact absurd (d.tag_eq hn.1 hp) d.tag_ne_event
  | setKeys hp => exact absurd (d.tag_eq hn.1 hp) d.tag_ne_setKeys
  | other hs hκ =>
    have he : p.is .event 4 4 = false :=
      Bool.eq_false_iff.mpr fun hp => d.tag_ne_event (d.tag_eq hn.1 hp)
    have hk : p.is .setKeys 3 0 = false :=
      Bool.eq_false_iff.mpr fun hp => d.tag_ne_setKeys (d.tag_eq hn.1 hp)
    have hc : p.is .counter 4 4 = false := hκ .counter
    have hm : p.is .sample 4 0 = false := hκ .sample
    have hr : p.is .rate 4 4 = false := hκ .rate
    exact ⟨k₂, by simp [listen, hs, hc, hm, hr, he, hk]⟩

/-- Kernels that differ at most in the order in which their tables are walked. -/
structure Kernel.Agree (k₁ k₂ : Kernel R Re) : Prop where
  record : ∀ (d : PointKind) (name : CString), d.record name k₁.db = d.record name k₂.db
  bare : k₁.bare = k₂.bare

/-- Two submissions to different datapoints can be swapped. -/
theorem listen_comm {k a k₁ : Kernel R Re} (hwf : k.db.Wf) {d d' : PointKind}
    {name name' : CString} (hne : (d, name) ≠ (d', name')) {p q : Pdu} (hp : d.Names name p)
    (hq : d'.Names name' q) {now now' : Int32} {es es' : List Effect}
    (h₁ : listen now p k = .ok (a, es)) (h₂ : listen now' q a = .ok (k₁, es')) :
    ∃ b k₂, listen now' q k = .ok (b, es') ∧ listen now p b = .ok (k₂, es) ∧ k₁.Agree k₂ := by
  have hq' : ¬d.Names name q := fun h => hne (h.unique hq)
  have hp' : ¬d'.Names name' p := fun h => hne (hp.unique h)
  have ha := listen_bare h₁ hp.1
  obtain ⟨b, hb⟩ := listen_same (listen_record hwf h₁ hp') ha hq h₂
  have hbare := listen_bare hb hq.1
  obtain ⟨k₂, hk₂⟩ := listen_same (listen_record hwf hb hq').symm hbare.symm hp h₁
  have hrun₁ : Machine.run reactor k [.listener now p, .listener now' q] = .ok (k₁, es ++ es') :=
    Machine.run_cons.mpr ⟨a, es, es', h₁, Machine.run_singleton.mpr h₂, rfl⟩
  have hrun₂ : Machine.run reactor k [.listener now' q, .listener now p] = .ok (k₂, es' ++ es) :=
    Machine.run_cons.mpr ⟨b, es', es, hb, Machine.run_singleton.mpr hk₂, rfl⟩
  refine ⟨b, k₂, hb, hk₂, fun e n => ?_, ?_⟩
  · -- each datapoint is named by at most one of the two, so it reads the same in both orders
    refine (runs_agree e n hwf hrun₁ hrun₂ (by simp) (by simp) ?_).1
    by_cases hpe : e.Names n p
    · have hqe : ¬e.Names n q := fun h => hne ((hp.unique hpe).trans (h.unique hq))
      simp [PointKind.reads, hpe, hqe]
    · simp [PointKind.reads, hpe, List.filterMap_cons]
  · calc k₁.bare = a.bare := listen_bare h₂ hq.1
      _ = k.bare := ha
      _ = b.bare := hbare.symm
      _ = k₂.bare := (listen_bare hk₂ hp.1).symm

end Run

end Bolo
