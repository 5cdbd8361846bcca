import Bolo.Kernel.StateCell
import Bolo.Kernel.Reports

/-!
# The stream of TRANSITIONs

A TRANSITION is sent exactly by the steps that change the status or the staleness of a
state, always right before the STATE with the same frames, so that a subscriber to
TRANSITIONs alone knows both at all times. The two handlers decide it by different tests;
they agree because a record is never stale by any value but 1.
-/
namespace Bolo

open Library

variable {R Re : Type}

/-- Status and staleness of a state; one without a record counts as pending. -/
def standing : Option State → UInt8 × UInt8
  | none => (PENDING, 0)
  | some s => (s.status, s.stale)

/-- What a subscriber is told of a standing: the freshness and the status frame. -/
def standingFrames (x : UInt8 × UInt8) : CString × CString := (freshstr x.2, statstr x.1)

def Pdu.isTransition (p : Pdu) : Bool := p.type = Tag.transition.text

def transitionOf (name : CString) (p : Pdu) : Bool := stateAbout name p && p.isTransition

/-- The freshness and the status frame of a TRANSITION. -/
def Pdu.standing (p : Pdu) : Option (CString × CString) := do
  return (← p.string 3, ← p.string 4)

/-- What a subscriber to the TRANSITIONs knows after `ps`. -/
def lastKnown (ps : List Pdu) : Option (CString × CString) :=
  match (ps.filter Pdu.isTransition).getLast? with
  | some p => p.standing
  | none => some (standingFrames (PENDING, 0))

/-- Every TRANSITION comes right before the STATE with the same frames. -/
def Accompanied (es : List Effect) : Prop :=
  ∀ before p after, es = before ++ .broadcast p :: after → p.isTransition →
    after.head? = some (.broadcast { p with type := Tag.state.text })

namespace Accompanied

theorem nil : Accompanied [] := by simp [Accompanied]

theorem append {a b : List Effect} (ha : Accompanied a) (hb : Accompanied b) :
    Accompanied (a ++ b) := by
  intro before p after heq hp
  rcases List.append_eq_append_iff.mp heq with ⟨c, rfl, hc⟩ | ⟨c, rfl, hc⟩
  · exact hb c p after hc hp
  · cases c with
    | nil => exact hb [] p after (by simpa using hc.symm) hp
    | cons e c =>
      obtain ⟨rfl, rfl⟩ : .broadcast p = e ∧ after = c ++ b := by simpa using hc
      simp [ha before p c rfl hp]

/-- Effects without a TRANSITION. -/
theorem of_forall {es : List Effect} (h : ∀ p, .broadcast p ∈ es → p.isTransition = false) :
    Accompanied es := by
  rintro before p after rfl hp
  simp [h p (by simp)] at hp

theorem of_quiet {es : List Effect} (h : ∀ e ∈ es, e.Quiet) : Accompanied es := by
  refine of_forall fun p hp => ?_
  have hquiet : p.type = Tag.setKeys.text := h _ hp
  simp [Pdu.isTransition, hquiet]

theorem of_type {ps : List Pdu} (tag : Tag) (htag : tag ≠ .transition)
    (h : ∀ p ∈ ps, p.type = tag.text) : Accompanied (ps.map .broadcast) := by
  refine of_forall fun p hp => ?_
  simp [Pdu.isTransition, h p (by simpa using hp), htag]

theorem of_announce {b : Bool} {s : State} {out : List Pdu} (h : announce b s = .ok out) :
    Accompanied (out.map .broadcast) := by
  obtain ⟨frames, -, rfl⟩ := announce_spec h
  have hstate : Accompanied [.broadcast { type := Tag.state.text, frames := frames }] :=
    of_type .state (by simp) (List.forall_mem_singleton.mpr rfl)
  cases b with
  | false => simpa using hstate
  | true =>
    intro before p after heq hp
    cases before with
    | nil =>
      obtain ⟨rfl, rfl⟩ : _ = p ∧ _ = after := by simpa using heq
      rfl
    | cons e before =>
      simp only [if_true, List.map_append, List.map_cons, List.map_nil, List.cons_append,
        List.cons.injEq] at heq
      exact hstate before p after heq.2 hp

end Accompanied

/-! ## One step of one state -/

namespace StateCell

variable [Pcre Re] {name : CString} {c : StateCell Re} {m : StateMsg} {x : Option State}
  {out : List Pdu}

/-- A record is marked stale by 1 and by nothing else. -/
def Marked (x : Option State) : Prop := (standing x).2 = 0 ∨ (standing x).2 = 1

theorem standing_lookupState {now : Int32} {rules : List (Rule TypeDef Re)} {s : State}
    (h : lookupState now rules name x = .ok (some s)) : standing (some s) = standing x := by
  unfold lookupState at h
  split at h
  · simp only [Except.ok.injEq, Option.some.injEq] at h
    rw [h]
  · split at h
    · simp at h
    · simp only [bind_eq_ok, pure_eq_ok, Option.some.injEq] at h
      obtain ⟨type, -, rfl⟩ := h
      rfl

theorem Moves.marked (h : Moves name c m x out) (hc : Marked c.found) : Marked x := by
  cases h with
  | stay => exact hc
  | update => exact .inl rfl
  | expire => exact .inr rfl

/-- A step that broadcasts announces the new record, as a transition if the standing
changed; a step that does not leaves the standing alone. -/
theorem Moves.announces (h : Moves name c m x out) (hc : Marked c.found) :
    (x = c.found ∧ out = []) ∨
      ∃ s, x = some s ∧ announce (decide (standing x ≠ standing c.found)) s = .ok out := by
  cases h with
  | stay => exact .inl ⟨rfl, rfl⟩
  | @update now ts code msg s type out hacc hl ht ha =>
    refine .inr ⟨_, rfl, ?_⟩
    rw [← ha, ← standing_lookupState hl]
    congr 1
    simp only [standing, updated, ne_eq, Prod.mk.injEq, decide_not, Bool.decide_and]
    grind
  | @expire clock s type summary out hdue hf he ht hs ha =>
    refine .inr ⟨_, rfl, ?_⟩
    rw [← ha, hf]
    rw [hf] at hc
    congr 1
    simp only [Marked, standing, expired] at hc ⊢
    grind

theorem Moves.transitions (h : Moves name c m x out) (hc : Marked c.found) :
    out.filter Pdu.isTransition = [] ∧ standing x = standing c.found ∨
      ∃ p, out.filter Pdu.isTransition = [p] ∧ standing x ≠ standing c.found ∧
        p.standing = some (standingFrames (standing x)) := by
  rcases h.announces hc with ⟨rfl, rfl⟩ | ⟨s, rfl, ha⟩
  · exact .inl ⟨rfl, rfl⟩
  · obtain ⟨frames, hf, rfl⟩ := announce_spec ha
    obtain ⟨n, summary, -, -, rfl⟩ := stateFrames_spec hf
    by_cases hs : standing (some s) = standing c.found
    · exact .inl ⟨by simp [hs, Pdu.isTransition], hs⟩
    · exact .inr ⟨{ type := Tag.transition.text, frames := _ }, by simp [hs, Pdu.isTransition]; rfl,
        hs, rfl⟩

theorem lastKnown_append {l : List Pdu} (h : Moves name c m x out) (hc : Marked c.found)
    (hl : lastKnown l = some (standingFrames (standing c.found))) :
    lastKnown (l ++ out) = some (standingFrames (standing x)) := by
  unfold lastKnown at hl ⊢
  rcases h.transitions hc with ⟨hnil, hsame⟩ | ⟨p, hp, -, hshown⟩
  · rw [List.filter_append, hnil, List.append_nil, hsame]
    exact hl
  · simp [List.filter_append, hp, hshown]

end StateCell

/-! ## Runs of the kernel -/

section Kernel

variable [Double R] [Pcre Re] [HashOrder] {name : CString} {s : Server R Re}

omit [Double R] in
theorem receiveState_accompanied {now : Int32} {db db' : Db R Re} {p : Pdu} {out : List Pdu}
    (h : receiveState now db p = .ok (db', out)) : Accompanied (out.map .broadcast) := by
  rcases receiveState_spec h with ⟨-, -, rfl⟩ | ⟨n, ts, code, msg, c, t, -, hc, -, -⟩
  · exact .nil
  simp only [cellReceiveState, bind_eq_ok] at hc
  obtain ⟨r, -, hc⟩ := hc
  cases r with
  | none =>
    simp only [pure_eq_ok, Prod.mk.injEq] at hc
    exact hc.2 ▸ .nil
  | some x =>
    simp only at hc
    split at hc
    · simp only [bind_eq_ok, pure_eq_ok, Prod.exists, Prod.mk.injEq] at hc
      obtain ⟨x', out', hu, -, rfl⟩ := hc
      obtain ⟨type, -, -, ha⟩ := updateState_spec hu
      exact .of_announce ha
    · simp only [pure_eq_ok, Prod.mk.injEq] at hc
      exact hc.2 ▸ .nil

omit [HashOrder] [Pcre Re] [Double R] in
theorem sweptStates_accompanied {b : Bool} {now : Int32} {t t' : Table CString State}
    {out : List Pdu} (h : t.sweep (Table.gate (markStale now) b) = .ok (t', out)) :
    Accompanied (out.map .broadcast) := by
  refine Table.sweep_outputs (Q := fun out => Accompanied (out.map .broadcast)) _ .nil
    (fun a b ha hb => by simpa using ha.append hb) (fun x x' o hx => ?_) h
  unfold Table.gate at hx
  split at hx
  · rcases markStale_spec hx with ⟨-, -, rfl⟩ | ⟨-, -, type, summary, -, -, -, ha⟩
    · exact .nil
    · exact .of_announce ha
  · simp only [Except.ok.injEq, Prod.mk.injEq] at hx
    exact hx.2 ▸ .nil

omit [HashOrder] [Pcre Re] in
theorem swept_accompanied {κ : Kind} {k : Kernel R Re} {now : Int32}
    {t : Table CString (κ.Record R)} {out : List Pdu} (h : κ.series.Swept k now t out) :
    Accompanied (out.map .broadcast) := by
  refine .of_type κ.tag (by cases κ <;> simp [Kind.tag]) ?_
  refine Table.sweep_outputs (Q := fun out : List Pdu => ∀ p ∈ out, p.type = κ.tag.text) _ (by simp)
    (fun a b ha hb p hp => (List.mem_append.mp hp).elim (ha p) (hb p)) (fun x x' o hx => ?_) h
  intro p hp
  simpa using (κ.series.close_own hx p hp).1

theorem reactor_accompanied {k k' : Kernel R Re} {i : Input} {es : List Effect}
    (hwf : k.db.Wf) (h : reactor k i = .ok (k', es)) : Accompanied es := by
  cases i with
  | tock clock =>
    obtain ⟨tk⟩ := tock_spec h
    rw [tk.effects_eq]
    have hseries (κ : Kind) := swept_accompanied (tk.sweptSeries κ)
    simp only [List.map_append]
    exact ((((hseries _).append (hseries _)).append (hseries _)).append
      (.of_quiet tk.quietBeacons) |>.append (sweptStates_accompanied tk.sweptStates)).append
      (.of_quiet tk.quietSaved)
  | listener now p =>
    cases listen_spec h with
    | state hp hr => exact receiveState_accompanied hr
    | @series db out κ hp hr =>
      refine .of_type κ.tag (by cases κ <;> simp [Kind.tag]) fun q hq => ?_
      rcases κ.series.receive_spec hr with ⟨-, -, rfl⟩ | ⟨n, ts, v, c, t, -, hc, -, -⟩
      · simp at hq
      · simpa using (κ.series.cellReceive_own (hwf.rules κ) (hwf.series κ n) hc q hq).1
    | event hp hr =>
      obtain ⟨-, hown⟩ := receiveEvent_spec hr
      exact .of_type .event (by simp) hown
    | setKeys hp => exact .nil
    | other hs hκ => exact .nil
  | management p =>
    simp only [reactor, bind_eq_ok, pure_eq_ok, Prod.exists, Prod.mk.injEq] at h
    obtain ⟨s', es', hm, rfl, rfl⟩ := h
    exact .of_quiet fun e he => ((manage_spec hm).2.1 e he).quiet

/-- A machine whose steps are accompanied has accompanied runs. -/
theorem run_accompanied {k k' : Kernel R Re} {is : List Input} {es : List Effect}
    (hwf : k.db.Wf) (hrun : Machine.run reactor k is = .ok (k', es)) : Accompanied es := by
  refine (Machine.run_outputs (P := fun k es => k.db.Wf ∧ Accompanied es) (Q := fun _ => True)
    (fun k i k' out l hk _ h => ?_) (l := []) ⟨hwf, .nil⟩ (by simp) hrun).2
  exact ⟨(reactor_meets hk.1 i).result h, hk.2.append (reactor_accompanied hk.1 h)⟩

namespace StateCell

omit [Double R] [HashOrder] in
theorem view_ne_forget {i : Input} (hi : ∀ p, i = .management p → ¬p.is .forget 4 4) (keep : Bool) :
    view Re name i ≠ some (.forget keep) := by
  cases i with
  | tock clock => simp [view]
  | listener now p =>
    simp only [view]
    split
    · split
      · split <;> simp
      · simp
    · simp
  | management p => simp [view, decodeForget, hi p rfl]

variable (name) in
/-- A step without FORGET that the state reads moves its record. -/
theorem reactor_moves {k k' : Kernel R Re} {i : Input} {es : List Effect} (hwf : k.db.Wf)
    (hi : ∀ p, i = .management p → ¬p.is .forget 4 4) (h : reactor k i = .ok (k', es)) :
    (k'.db.states.get? name = k.db.states.get? name ∧
      es.filterMap (Effect.select (stateAbout name)) = []) ∨
      ∃ m, Moves name (of name k) m (k'.db.states.get? name)
        (es.filterMap (Effect.select (stateAbout name))) := by
  cases hv : view Re name i with
  | none =>
    obtain ⟨hproj, hobs⟩ := (component name).skip hwf hv h
    exact .inl ⟨congrArg StateCell.found hproj, hobs⟩
  | some m =>
    have hm (keep : Bool) : m ≠ .forget keep := by
      rintro rfl
      exact view_ne_forget hi keep hv
    exact .inr ⟨m, (step_moves name hm ((component name).act hwf hv h)).2⟩

end StateCell

/-- What a run without FORGET keeps of the state `name`. -/
structure Tracked (name : CString) (k : Kernel R Re) (es : List Effect) : Prop where
  wf : k.db.Wf
  marked : StateCell.Marked (k.db.states.get? name)
  known : lastKnown (es.filterMap (Effect.select (stateAbout name))) =
    some (standingFrames (standing (k.db.states.get? name)))

theorem Tracked.step {k k' : Kernel R Re} {i : Input} {es out : List Effect}
    (ht : Tracked name k es) (hi : ∀ p, i = .management p → ¬p.is .forget 4 4)
    (h : reactor k i = .ok (k', out)) : Tracked name k' (es ++ out) := by
  have hwf : k'.db.Wf := (reactor_meets ht.wf i).result h
  rcases StateCell.reactor_moves name ht.wf hi h with ⟨hsame, hnil⟩ | ⟨m, hm⟩
  · exact ⟨hwf, hsame ▸ ht.marked, by simpa [List.filterMap_append, hnil, hsame] using ht.known⟩
  · refine ⟨hwf, hm.marked ht.marked, ?_⟩
    rw [List.filterMap_append]
    exact StateCell.lastKnown_append hm ht.marked ht.known

omit [Pcre Re] [HashOrder] in
theorem tracked_boot (hfresh : s.db.Fresh) : Tracked name (boot s) [] := by
  have hblank : standing (s.db.states.get? name) = (PENDING, 0) := by
    cases hg : s.db.states.get? name with
    | none => rfl
    | some x =>
      obtain ⟨now, type, rfl⟩ := hfresh.states name x hg
      rfl
  refine ⟨hfresh.wf, .inl (congrArg Prod.snd hblank), ?_⟩
  change lastKnown [] = some (standingFrames (standing (s.db.states.get? name)))
  rw [hblank]
  rfl

theorem run_tracked (hfresh : s.db.Fresh) {k : Kernel R Re} {is : List Input} {es : List Effect}
    (hrun : Machine.run reactor (boot s) is = .ok (k, es))
    (hforget : ∀ p, .management p ∈ is → ¬p.is .forget 4 4) : Tracked name k es := by
  refine Machine.run_outputs (P := Tracked name)
    (Q := fun i => ∀ p, i = .management p → ¬p.is .forget 4 4)
    (fun k i k' out l ht hi h => ht.step hi h) (l := []) (tracked_boot hfresh) ?_ hrun
  rintro i hi p rfl
  exact hforget p hi

/-- A step sends a TRANSITION about a state if and only if it changes its standing. -/
theorem Tracked.transition_iff {k k' : Kernel R Re} {i : Input} {es out : List Effect}
    (ht : Tracked name k es) (hi : ∀ p, i = .management p → ¬p.is .forget 4 4)
    (h : reactor k i = .ok (k', out)) :
    (∃ p, .broadcast p ∈ out ∧ transitionOf name p) ↔
      standing (k'.db.states.get? name) ≠ standing (k.db.states.get? name) := by
  have hsent : (∃ p, .broadcast p ∈ out ∧ transitionOf name p) ↔
      (out.filterMap (Effect.select (stateAbout name))).filter Pdu.isTransition ≠ [] := by
    simp only [ne_eq, List.filter_eq_nil_iff, List.mem_filterMap, not_forall, not_not]
    constructor
    · rintro ⟨p, hp, ht⟩
      simp only [transitionOf, Bool.and_eq_true] at ht
      exact ⟨p, ⟨_, hp, by simp [Effect.select, ht.1]⟩, ht.2⟩
    · rintro ⟨p, ⟨e, he, hsel⟩, ht⟩
      cases e with
      | broadcast q =>
        by_cases hq : stateAbout name q = true
        · obtain rfl : q = p := by simpa [Effect.select, hq] using hsel
          exact ⟨q, he, by simp [transitionOf, hq, ht]⟩
        · simp [Effect.select, hq] at hsel
      | _ => simp [Effect.select] at hsel
  rw [hsent]
  rcases StateCell.reactor_moves name ht.wf hi h with ⟨hsame, hnil⟩ | ⟨m, hm⟩
  · simp [hnil, hsame]
  · rcases hm.transitions ht.marked with ⟨hnil, hsame⟩ | ⟨p, hp, hdiff, -⟩
    · rw [hnil, hsame]
      simp [StateCell.of]
    · rw [hp]
      simpa [StateCell.of] using hdiff

end Kernel

end Bolo
