import Bolo.Kernel.Transitions
import Bolo.Library.Word

/-!
# When a state is stale

The deadline of a state is the timestamp of its last accepted update, or the time of its
declaration, plus the freshness of its type. As long as the state is fresh its expiry is
that deadline. Once a sweep has marked it, the expiry is the time of the marking plus the
freshness, and the deadline has passed for good because the clock does not run backwards.
-/
namespace Bolo

open Library

variable {R Re : Type}

/-- When a state expires whose accepted updates carried `updates`, if it was declared at
`created`. -/
def deadline (created : Int32) (type : TypeDef) (updates : List UInt32) : Int :=
  match updates.getLast? with
  | some ts => ts.toNat + type.freshness.toNat
  | none => created.toInt + type.freshness.toNat

def StateMsg.sweep : StateMsg → Option Int32
  | .tick clock => some clock.sweep
  | _ => none

/-- Adding the freshness to the time in a message stays in range. -/
def StateMsg.Fits (type : TypeDef) : StateMsg → Prop
  | .tick clock => clock.sweep.toInt + type.freshness.toNat < 2 ^ 31
  | .submit _ ts _ _ => ts.toNat + type.freshness.toNat < 2 ^ 31
  | .forget _ => True

instance (type : TypeDef) : (m : StateMsg) → Decidable (m.Fits type)
  | .tick _ => inferInstanceAs (Decidable (_ < _))
  | .submit _ _ _ _ => inferInstanceAs (Decidable (_ < _))
  | .forget _ => inferInstanceAs (Decidable True)

theorem toInt_freshness (type : TypeDef) :
    (Int32.ofNat type.freshness.toNat).toInt = type.freshness.toNat := by
  have hlt := type.freshness.toNat_lt
  exact Int32.toInt_ofNat_of_lt (by omega)

theorem toInt_add_freshness {now : Int32} {type : TypeDef}
    (h : now.toInt + type.freshness.toNat < 2 ^ 31) :
    (now + Int32.ofNat type.freshness.toNat).toInt = now.toInt + type.freshness.toNat := by
  have hle := now.le_toInt
  rw [toInt_add_of_bounds] <;> rw [toInt_freshness] <;> omega

theorem toInt_expiryAt {ts : UInt32} {type : TypeDef}
    (h : ts.toNat + type.freshness.toNat < 2 ^ 31) :
    (expiryAt ts type).toInt = ts.toNat + type.freshness.toNat := by
  have hlt := type.freshness.toNat_lt
  have hsum : (ts + UInt32.ofNat type.freshness.toNat).toNat =
      ts.toNat + type.freshness.toNat := by
    rw [UInt32.toNat_add, UInt32.toNat_ofNat']
    omega
  rw [expiryAt, toInt_toInt32_of_lt (by omega), hsum]
  simp

namespace StateCell

variable [Pcre Re] {name : CString} {c c' : StateCell Re} {m : StateMsg} {x : Option State}
  {out : List Pdu}

/-- The type of a state, by its record or by rule. -/
def typeOf (rules : List (Rule TypeDef Re)) (name : CString) : Option State → Option TypeDef
  | some s => s.type
  | none => (firstMatch rules name).join

/-- The timestamps of the updates a message makes. -/
def updates (name : CString) (c : StateCell Re) (m : StateMsg) (_ : List Pdu) : List UInt32 :=
  match m with
  | .submit _ ts _ _ => if accepts name c then [ts] else []
  | _ => []

theorem typeOf_lookupState {now : Int32} {rules : List (Rule TypeDef Re)} {s : State}
    (h : lookupState now rules name x = .ok (some s)) : s.type = typeOf rules name x := by
  unfold lookupState at h
  split at h
  · simp only [Except.ok.injEq, Option.some.injEq] at h
    rw [← h]
    rfl
  · split at h
    · simp at h
    · case h_2 target hm =>
        simp only [bind_eq_ok, pure_eq_ok, Option.some.injEq, deref_eq_ok] at h
        obtain ⟨type, rfl, rfl⟩ := h
        simp [typeOf, hm, State.blank]

theorem Moves.typeOf_eq (h : Moves name c m x out) :
    typeOf c.rules name x = typeOf c.rules name c.found := by
  cases h with
  | stay => rfl
  | update hacc hl ht ha => exact (typeOf_lookupState hl :)
  | expire hdue hf he ht hs ha => rw [hf]; rfl

/-- A record between two messages: fresh until its deadline, or marked at a time `t` at or
after it, which is not later than any sweep to come. -/
structure Timed (created : Int32) (type : TypeDef) (ups : List UInt32) (rest : List StateMsg)
    (r : State) : Prop where
  type_eq : r.type = some type
  ignore_eq : r.ignore = 0
  since : (r.stale = 0 ∧ r.expiry.toInt = deadline created type ups) ∨
    (r.stale = 1 ∧ r.status = type.status ∧ r.summary = type.summary ∧
      ∃ t : Int32, deadline created type ups ≤ t.toInt ∧
        r.expiry.toInt = t.toInt + type.freshness.toNat ∧
        ∀ t' ∈ rest.filterMap StateMsg.sweep, t ≤ t')

variable {created : Int32} {type : TypeDef} {ups : List UInt32} {rest : List StateMsg}

theorem Timed.tail {r : State} (h : Timed created type ups (m :: rest) r) :
    Timed created type ups rest r := by
  refine ⟨h.type_eq, h.ignore_eq, h.since.imp_right ?_⟩
  rintro ⟨hstale, hstatus, hsummary, t, hle, hexp, hlater⟩
  refine ⟨hstale, hstatus, hsummary, t, hle, hexp, fun t' ht' => hlater t' ?_⟩
  obtain ⟨m', hm', hs⟩ := List.mem_filterMap.mp ht'
  exact List.mem_filterMap.mpr ⟨m', by simp [hm'], hs⟩

/-- An expired record has passed its deadline. -/
theorem Timed.deadline_le {r : State} {clock : Clock}
    (h : Timed created type ups (.tick clock :: rest) r) (he : r.expiry ≤ clock.sweep) :
    deadline created type ups ≤ clock.sweep.toInt := by
  rcases h.since with ⟨-, hexp⟩ | ⟨-, -, -, t, hle, -, hlater⟩
  · rw [← hexp]
    exact Int32.le_iff_toInt_le.mp he
  · exact hle.trans (Int32.le_iff_toInt_le.mp (hlater clock.sweep (by simp [StateMsg.sweep])))

theorem Timed.updated {s : State} {ts : UInt32} {code : UInt8} {msg : CString}
    (htype : s.type = some type) (hign : s.ignore = 0)
    (hfit : ts.toNat + type.freshness.toNat < 2 ^ 31) :
    Timed created type (ups ++ [ts]) rest (updated s ts code msg type) :=
  ⟨htype, hign, .inl ⟨rfl, by simp [StateCell.updated, toInt_expiryAt hfit, deadline]⟩⟩

theorem Timed.expired {r : State} {clock : Clock} {summary : CString}
    (h : Timed created type ups (.tick clock :: rest) r) (he : r.expiry ≤ clock.sweep)
    (hs : type.summary = some summary)
    (hfit : clock.sweep.toInt + type.freshness.toNat < 2 ^ 31)
    (hlater : ∀ t' ∈ rest.filterMap StateMsg.sweep, clock.sweep ≤ t') :
    Timed created type ups rest (expired r clock.sweep type summary) :=
  ⟨h.type_eq, h.ignore_eq, .inr ⟨rfl, rfl, hs.symm, clock.sweep, h.deadline_le he,
    toInt_add_freshness hfit, hlater⟩⟩

/-- One message. -/
theorem Moves.timed (h : Moves name c m x out) (htype : typeOf c.rules name c.found = some type)
    (hc : ∀ r, c.found = some r → Timed created type ups (m :: rest) r) (hfit : m.Fits type)
    (hsorted : ((m :: rest).filterMap StateMsg.sweep).Pairwise (· ≤ ·)) :
    ∀ r, x = some r → Timed created type (ups ++ updates name c m out) rest r := by
  cases h with
  | stay htick hsubmit =>
    have hups : updates name c m [] = [] := by
      cases m with
      | submit now ts code msg => simp [updates, hsubmit now ts code msg rfl]
      | _ => rfl
    rw [hups, List.append_nil]
    exact fun r hr => (hc r hr).tail
  | @update now ts code msg s type' out hacc hl ht ha =>
    obtain rfl : type' = type := by simpa [ht, htype] using typeOf_lookupState hl
    obtain ⟨s', hs', hign⟩ := (lookupState_accepts name hl).mp hacc
    obtain rfl : s = s' := by simpa using hs'
    rintro r ⟨⟩
    have hups : updates name c (.submit now ts code msg) out = [ts] := by simp [updates, hacc]
    rw [hups]
    exact .updated ht hign hfit
  | @expire clock s type' summary out hdue hf he ht hs ha =>
    obtain rfl : type' = type := by simpa [hf, typeOf, ht] using htype
    rintro r ⟨⟩
    have hlater : ∀ t' ∈ rest.filterMap StateMsg.sweep, clock.sweep ≤ t' :=
      (List.pairwise_cons.mp hsorted).1
    rw [show updates name c (.tick clock) out = [] from rfl, List.append_nil]
    exact (hc s hf).expired he hs hfit hlater

theorem step_typeOf (hm : ∀ keep, m ≠ .forget keep) (h : step name c m = .ok (c', out)) :
    typeOf c'.rules name c'.found = typeOf c.rules name c.found := by
  obtain ⟨hrules, hmoves⟩ := step_moves name hm h
  rw [hrules, hmoves.typeOf_eq]

theorem run_typeOf {ms : List StateMsg} {os : List Pdu}
    (hrun : Machine.run (step name) c ms = .ok (c', os)) (hforget : ∀ keep, .forget keep ∉ ms) :
    typeOf c'.rules name c'.found = typeOf c.rules name c.found := by
  refine Machine.run_invariant
    (P := fun c' : StateCell Re => typeOf c'.rules name c'.found = typeOf c.rules name c.found)
    (Q := fun m => ∀ keep, m ≠ .forget keep)
    (fun c m c' out hc hm h => (step_typeOf hm h).trans hc) rfl ?_ hrun
  rintro m hm keep rfl
  exact hforget keep hm

/-- Every message before `rest`. -/
theorem run_timed {ms : List StateMsg} {os : List Pdu}
    (hrun : Machine.run (step name) c ms = .ok (c', os))
    (htype : typeOf c.rules name c.found = some type)
    (hc : ∀ r, c.found = some r → Timed created type ups (ms ++ rest) r)
    (hforget : ∀ keep, .forget keep ∉ ms) (hfit : ∀ m ∈ ms, m.Fits type)
    (hsorted : ((ms ++ rest).filterMap StateMsg.sweep).Pairwise (· ≤ ·)) :
    ∀ r, c'.found = some r → Timed created type
      (ups ++ Machine.log (step name) (updates name) c ms) rest r := by
  induction ms generalizing c os ups with
  | nil =>
    obtain ⟨rfl, -⟩ : c = c' ∧ ([] : List Pdu) = os := by simpa using hrun
    simpa [Machine.log] using hc
  | cons m ms ih =>
    obtain ⟨c₁, out, outs, hstep, hrest, rfl⟩ := Machine.run_cons.mp hrun
    have hm (keep : Bool) : m ≠ .forget keep := fun h => hforget keep (by simp [h])
    have htype₁ := (step_typeOf hm hstep).trans htype
    have htimed := (step_moves name hm hstep).2.timed htype hc (hfit m (by simp)) hsorted
    have hsorted₁ : ((ms ++ rest).filterMap StateMsg.sweep).Pairwise (· ≤ ·) := by
      refine hsorted.sublist (List.Sublist.filterMap _ ?_)
      exact List.sublist_cons_self _ _
    have := ih hrest htype₁ htimed (fun keep h => hforget keep (by simp [h]))
      (fun m' h => hfit m' (by simp [h])) hsorted₁
    simpa [Machine.log_cons hstep] using this

/-- What holds of a record right after a sweep at clock reading `now`. -/
structure Settled (type : TypeDef) (now : Int32) (e : Int) (r : State) : Prop where
  type_eq : r.type = some type
  stale_iff : r.stale ≠ 0 ↔ e ≤ now.toInt
  status_eq : r.stale ≠ 0 → r.status = type.status
  summary_eq : r.stale ≠ 0 → r.summary = type.summary
  expiry_gt : 0 < type.freshness → now < r.expiry

theorem Moves.settled {clock : Clock} (h : Moves name c (.tick clock) x out)
    (hdue : c.timer.due clock.now) (htype : typeOf c.rules name c.found = some type)
    (hc : ∀ r, c.found = some r → Timed created type ups [.tick clock] r)
    (hfit : clock.sweep.toInt + type.freshness.toNat < 2 ^ 31) :
    ∀ r, x = some r → Settled type clock.sweep (deadline created type ups) r := by
  generalize hm : StateMsg.tick clock = m at h
  cases h with
  | stay htick hsubmit =>
    intro r hr
    have htimed := hc r hr
    -- the record is not ignored, so the sweep left it because it has not expired
    have hlive := (htick clock r hm.symm hdue hr).resolve_right (not_not.mpr htimed.ignore_eq)
    have hexp := Int32.lt_iff_toInt_lt.mp hlive
    rcases htimed.since with ⟨hstale, he⟩ | ⟨hstale, hstatus, hsummary, t, hle, -, hlater⟩
    · refine ⟨htimed.type_eq, ?_, fun h => absurd hstale h, fun h => absurd hstale h,
        fun _ => hlive⟩
      simp only [hstale, ne_eq, not_true_eq_false, false_iff, not_le]
      omega
    · have ht := Int32.le_iff_toInt_le.mp (hlater clock.sweep (by simp [StateMsg.sweep]))
      refine ⟨htimed.type_eq, ?_, fun _ => hstatus, fun _ => hsummary, fun _ => hlive⟩
      exact ⟨fun _ => hle.trans ht, fun _ => by simp [hstale]⟩
  | update => cases hm
  | @expire clock' s type' summary out hdue' hf he ht hs ha =>
    cases hm
    obtain rfl : type' = type := by simpa [hf, typeOf, ht] using htype
    rintro r ⟨⟩
    refine ⟨ht, ?_, fun _ => rfl, fun _ => hs.symm, fun hpos => ?_⟩
    · simp [expired, (hc s hf).deadline_le he]
    · rw [Int32.lt_iff_toInt_lt]
      simp only [expired, toInt_add_freshness hfit]
      have := UInt16.lt_iff_toNat_lt.mp hpos
      simp at this
      omega

end StateCell

/-! ## Runs of the kernel -/

section Kernel

variable [Double R] [Pcre Re] [HashOrder] (name : CString)

def Input.sweep : Input → Option Int32
  | .tock clock => some clock.sweep
  | _ => none

/-- The type of the state `name`, by declaration or by rule. -/
def Db.typeOf (db : Db R Re) : Option TypeDef :=
  StateCell.typeOf db.stateMatches name (db.states.get? name)

/-- The timestamps of the updates of `name` that a run accepts, in order. -/
def acceptedUpdates (k : Kernel R Re) (is : List Input) : List UInt32 :=
  Machine.log reactor (fun k i _ =>
    match StateCell.view Re name i with
    | none => []
    | some m => StateCell.updates name (StateCell.of name k) m []) k is

variable {name}

variable (Re name) in
omit [Double R] [HashOrder] in
theorem sweeps_view (is : List Input) :
    (is.filterMap (StateCell.view Re name)).filterMap StateMsg.sweep =
      is.filterMap Input.sweep := by
  rw [List.filterMap_filterMap]
  refine List.filterMap_congr fun i _ => ?_
  cases i with
  | tock clock => rfl
  | listener now p =>
    simp only [StateCell.view, Input.sweep]
    split
    · split
      · split <;> rfl
      · rfl
    · rfl
  | management p =>
    simp only [StateCell.view, Input.sweep]
    split
    · split <;> rfl
    · rfl

theorem acceptedUpdates_eq {k k' : Kernel R Re} {is : List Input} {es : List Effect}
    (hwf : k.db.Wf) (hrun : Machine.run reactor k is = .ok (k', es)) :
    acceptedUpdates name k is = Machine.log (StateCell.step name) (StateCell.updates name)
      (StateCell.of name k) (is.filterMap (StateCell.view Re name)) := by
  refine (StateCell.component name).log_proj ?_ ?_ hwf hrun
  · intro k i es _ hv _
    have hv' : StateCell.view Re name i = none := hv
    simp only [hv']
  · intro k i m es _ hv
    have hv' : StateCell.view Re name i = some m := hv
    simp only [hv']
    rfl

/-- Right after a sweep, a state is stale if and only if its deadline has passed. -/
theorem sweep_settled {s : Server R Re} (hfresh : s.db.Fresh) {is : List Input} {clock : Clock}
    {k k' : Kernel R Re} {es es' : List Effect}
    (hrun : Machine.run reactor (boot s) is = .ok (k, es))
    (htick : reactor k (.tock clock) = .ok (k', es')) (hdue : k.freshness.due clock.now)
    (hforget : ∀ p, .management p ∈ is → ¬p.is .forget 4 4)
    (hclock : ((is ++ [Input.tock clock]).filterMap Input.sweep).Pairwise (· ≤ ·)) {created : Int32}
    (hdecl : ∀ r, s.db.states.get? name = some r → ∃ type, r = State.blank created name type ∧
      created.toInt + type.freshness.toNat < 2 ^ 31)
    (hfit : ∀ type, s.db.typeOf name = some type → ∀ i ∈ is ++ [.tock clock], ∀ m,
      StateCell.view Re name i = some m → m.Fits type) {r : State}
    (hr : k'.db.states.get? name = some r) :
    ∃ type, StateCell.Settled type clock.sweep
      (deadline created type (acceptedUpdates name (boot s) is)) r := by
  have hwf : (boot s).db.Wf := hfresh.wf
  have hwf₁ : k.db.Wf := (StateCell.component name).inv_run hwf hrun
  have hcell : Machine.run (StateCell.step name) (StateCell.of name (boot s))
      (is.filterMap (StateCell.view Re name)) = .ok (StateCell.of name k, _) :=
    (StateCell.component name).run_proj hwf hrun
  have hlast : StateCell.step name (StateCell.of name k) (.tick clock) =
      .ok (StateCell.of name k', _) :=
    (StateCell.component name).act (j := .tick clock) hwf₁ rfl htick
  have hno (keep : Bool) : .forget keep ∉ is.filterMap (StateCell.view Re name) := by
    intro hmem
    obtain ⟨i, hi, hv⟩ := List.mem_filterMap.mp hmem
    exact StateCell.view_ne_forget (fun p hp => hforget p (hp ▸ hi)) keep hv
  -- the type of the record is the one the configuration gave it
  obtain ⟨type, htype⟩ := ((reactor_meets hwf₁ _).result htick).states name r hr |>.type
  have htype₁ : StateCell.typeOf k.db.stateMatches name (k.db.states.get? name) = some type := by
    refine (StateCell.step_typeOf (by simp) hlast).symm.trans ?_
    change StateCell.typeOf _ name (k'.db.states.get? name) = _
    rw [hr]
    exact htype.1
  have htype₀ : s.db.typeOf name = some type := (StateCell.run_typeOf hcell hno).symm.trans htype₁
  have hfit' := hfit type htype₀
  have hboot : ∀ r₀, (StateCell.of name (boot s)).found = some r₀ → StateCell.Timed created type []
      (is.filterMap (StateCell.view Re name) ++ [.tick clock]) r₀ := by
    intro r₀ hr₀
    obtain ⟨type', rfl, hsmall⟩ := hdecl r₀ hr₀
    obtain rfl : type' = type := by
      have : StateCell.typeOf s.db.stateMatches name (s.db.states.get? name) = some type := htype₀
      rw [show s.db.states.get? name = _ from hr₀] at this
      simpa [StateCell.typeOf, State.blank] using this
    refine ⟨rfl, rfl, .inl ⟨rfl, ?_⟩⟩
    simp only [State.blank, deadline, List.getLast?_nil]
    rw [Int32.add_comm, toInt_add_freshness hsmall]
  have hsorted : ((is.filterMap (StateCell.view Re name) ++ [StateMsg.tick clock]).filterMap
      StateMsg.sweep).Pairwise (· ≤ ·) := by
    rw [← sweeps_view Re name] at hclock
    simpa [List.filterMap_append, StateCell.view] using hclock
  have htimed := StateCell.run_timed hcell htype₀ hboot hno (fun m hm => by
    obtain ⟨i, hi, hv⟩ := List.mem_filterMap.mp hm
    exact hfit' i (by simp [hi]) m hv) hsorted
  refine ⟨type, ?_⟩
  rw [acceptedUpdates_eq hwf hrun]
  exact (StateCell.step_moves name (by simp) hlast).2.settled hdue htype₁ htimed
    (hfit' (.tock clock) (by simp) (.tick clock) rfl) r hr

end Kernel

end Bolo
