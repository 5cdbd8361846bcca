import Bolo.Library.Outcome

/-!
# Machines that may fail

A machine is a step function from a state and an input to a new state and a list of
outputs, or to a failure that ends the run. `run` iterates it. `log` records ghost
entries computed from each step, so that a theorem can speak about what happened and in
which order without adding fields to the state.

A `Component` is a part of a machine that reads only some of the inputs and sees only
some of the outputs. Its theorems replay a run of the whole machine as a run of the
component alone.
-/
namespace Library

namespace Machine

variable {S I O E F : Type}

def run (step : S → I → Except F (S × List O)) : S → List I → Except F (S × List O)
  | s, [] => .ok (s, [])
  | s, i :: is => do
    let (t, out) ← step s i
    let (u, outs) ← run step t is
    return (u, out ++ outs)

/-- Ghost entries of a run, one group for each completed step. -/
def log (step : S → I → Except F (S × List O)) (ghost : S → I → List O → List E) :
    S → List I → List E
  | _, [] => []
  | s, i :: is =>
    match step s i with
    | .error _ => []
    | .ok (t, out) => ghost s i out ++ log step ghost t is

variable {step : S → I → Except F (S × List O)}

@[simp] theorem run_nil (s : S) : run step s [] = .ok (s, []) := rfl

theorem run_cons {s u : S} {i : I} {is : List I} {os : List O} :
    run step s (i :: is) = .ok (u, os) ↔
      ∃ t out outs, step s i = .ok (t, out) ∧ run step t is = .ok (u, outs) ∧
        os = out ++ outs := by
  simp only [run, bind_eq_ok, pure_eq_ok, Prod.exists, Prod.mk.injEq]
  constructor
  · rintro ⟨t, out, hs, u', outs, hr, rfl, rfl⟩
    exact ⟨t, out, outs, hs, hr, rfl⟩
  · rintro ⟨t, out, outs, hs, hr, rfl⟩
    exact ⟨t, out, hs, u, outs, hr, rfl, rfl⟩

theorem run_append {s u : S} {is js : List I} {os : List O} :
    run step s (is ++ js) = .ok (u, os) ↔
      ∃ t out outs, run step s is = .ok (t, out) ∧ run step t js = .ok (u, outs) ∧
        os = out ++ outs := by
  induction is generalizing s os with
  | nil => simp [eq_comm]
  | cons i is ih =>
    simp only [List.cons_append, run_cons, ih]
    constructor
    · rintro ⟨t, out, _, hs, ⟨t', out', outs, hr, hr', rfl⟩, rfl⟩
      exact ⟨t', out ++ out', outs, ⟨t, out, out', hs, hr, rfl⟩, hr', by simp⟩
    · rintro ⟨t', _, outs, ⟨t, out, out', hs, hr, rfl⟩, hr', rfl⟩
      exact ⟨t, out, out' ++ outs, hs, ⟨t', out', outs, hr, hr', rfl⟩, by simp⟩

theorem run_singleton {s t : S} {i : I} {os : List O} :
    run step s [i] = .ok (t, os) ↔ step s i = .ok (t, os) := by
  simp [run_cons]

theorem log_cons {ghost : S → I → List O → List E} {s t : S} {i : I} {is : List I}
    {out : List O} (h : step s i = .ok (t, out)) :
    log step ghost s (i :: is) = ghost s i out ++ log step ghost t is := by
  simp [log, h]

theorem log_append {ghost : S → I → List O → List E} {s t : S} {is js : List I}
    {os : List O} (h : run step s is = .ok (t, os)) :
    log step ghost s (is ++ js) = log step ghost s is ++ log step ghost t js := by
  induction is generalizing s os with
  | nil =>
    obtain ⟨rfl, -⟩ : s = t ∧ ([] : List O) = os := by simpa using h
    simp [log]
  | cons i is ih =>
    obtain ⟨t', out, outs, hs, hr, rfl⟩ := run_cons.mp h
    simp [log_cons hs, ih hr]

theorem map_log {E' : Type} (f : E → E') (ghost : S → I → List O → List E) (s : S)
    (is : List I) :
    (log step ghost s is).map f = log step (fun s i out => (ghost s i out).map f) s is := by
  induction is generalizing s with
  | nil => rfl
  | cons i is ih =>
    simp only [log]
    cases step s i with
    | error e => rfl
    | ok r => simp [ih]

/-- Every step of a run meets a condition on the state before it and on its input. -/
def Along (step : S → I → Except F (S × List O)) (Q : S → I → Prop) (s : S) (is : List I) :
    Prop :=
  ∀ before i after t out, is = before ++ i :: after → run step s before = .ok (t, out) → Q t i

theorem Along.tail {Q : S → I → Prop} {s t : S} {i : I} {is : List I} {out : List O}
    (h : Along step Q s (i :: is)) (hs : step s i = .ok (t, out)) : Along step Q t is := by
  intro before j after u outs heq hrun
  exact h (i :: before) j after u (out ++ outs) (by simp [heq]) (run_cons.mpr
    ⟨t, out, outs, hs, hrun, rfl⟩)

theorem Along.of_forall {Q : I → Prop} {s : S} {is : List I} (h : ∀ i ∈ is, Q i) :
    Along step (fun _ i => Q i) s is :=
  fun before i after _ _ heq _ => h i (by simp [heq])

/-- A relation between states and the inputs and outputs so far, kept by every step that meets a
condition, relates the last state to all inputs and outputs. -/
theorem run_relates {P : S → List I → List O → Prop} {Q : S → I → Prop}
    (hstep : ∀ s i t l o out, P s l o → Q s i → step s i = .ok (t, out) →
      P t (l ++ [i]) (o ++ out))
    {s t : S} {is l : List I} {os o : List O} (hs : P s l o) (hq : Along step Q s is)
    (h : run step s is = .ok (t, os)) : P t (l ++ is) (o ++ os) := by
  induction is generalizing s os l o with
  | nil =>
    obtain ⟨rfl, rfl⟩ : s = t ∧ ([] : List O) = os := by simpa using h
    simpa using hs
  | cons i is ih =>
    obtain ⟨t', out, outs, hst, hr, rfl⟩ := run_cons.mp h
    have hP := hstep s i t' l o out hs (hq [] i is s [] rfl rfl) hst
    simpa using ih hP (hq.tail hst) hr

/-- A relation between states and the outputs so far, kept by every step on an admissible
input, relates the last state to all outputs. -/
theorem run_outputs {P : S → List O → Prop} {Q : I → Prop}
    (hstep : ∀ s i t out l, P s l → Q i → step s i = .ok (t, out) → P t (l ++ out))
    {s t : S} {is : List I} {os l : List O} (hs : P s l) (hi : ∀ i ∈ is, Q i)
    (h : run step s is = .ok (t, os)) : P t (l ++ os) :=
  run_relates (P := fun s _ o => P s o) (l := [])
    (fun s i t _ o out hP hQ hst => hstep s i t out o hP hQ hst) hs (.of_forall hi) h

/-- A relation between states and the inputs read so far, kept by every step on an
admissible input, relates the last state to all inputs. -/
theorem run_inputs {P : S → List I → Prop} {Q : List I → I → Prop}
    (hstep : ∀ s i t out l, P s l → Q l i → step s i = .ok (t, out) → P t (l ++ [i]))
    {s t : S} {is l : List I} {os : List O} (hs : P s l)
    (hi : ∀ before i after, is = before ++ i :: after → Q (l ++ before) i)
    (h : run step s is = .ok (t, os)) : P t (l ++ is) := by
  induction is generalizing s os l with
  | nil =>
    obtain ⟨rfl, -⟩ : s = t ∧ ([] : List O) = os := by simpa using h
    simpa using hs
  | cons i is ih =>
    obtain ⟨t', out, outs, hst, hr, -⟩ := run_cons.mp h
    have hP := hstep s i t' out l hs (by simpa using hi [] i is rfl) hst
    have hrest := ih hP (fun before j after heq => ?_) hr
    · simpa using hrest
    · simpa using hi (i :: before) j after (by simp [heq])

/-- An invariant of the steps taken on admissible inputs holds after every run of them. -/
theorem run_invariant {P : S → Prop} {Q : I → Prop}
    (hstep : ∀ s i t out, P s → Q i → step s i = .ok (t, out) → P t)
    {s t : S} {is : List I} {os : List O} (hs : P s) (hi : ∀ i ∈ is, Q i)
    (h : run step s is = .ok (t, os)) : P t :=
  run_outputs (P := fun s _ => P s) (l := []) (fun s i t out _ => hstep s i t out) hs hi h

theorem Along.mono {P Q : S → I → Prop} {s : S} {is : List I} (h : Along step P s is)
    (hPQ : ∀ t i, P t i → Q t i) : Along step Q s is :=
  fun before i after t out heq hrun => hPQ t i (h before i after t out heq hrun)

theorem Along.of_mem {Q : S → I → Prop} {s t : S} {is : List I} {os : List O}
    (h : Along step Q s is) (hrun : run step s is = .ok (t, os)) {i : I} (hi : i ∈ is) :
    ∃ u, Q u i := by
  obtain ⟨before, after, rfl⟩ := List.append_of_mem hi
  obtain ⟨u, out, -, hu, -, -⟩ := run_append.mp hrun
  exact ⟨u, h before i after u out rfl hu⟩

theorem Along.left {Q : S → I → Prop} {s : S} {is js : List I} (h : Along step Q s (is ++ js)) :
    Along step Q s is := by
  intro before i after t out heq hrun
  exact h before i (after ++ js) t out (by simp [heq]) hrun

theorem Along.right {Q : S → I → Prop} {s t : S} {is js : List I} {os : List O}
    (h : Along step Q s (is ++ js)) (hrun : run step s is = .ok (t, os)) : Along step Q t js := by
  intro before i after u out heq hrun'
  refine h (is ++ before) i after u (os ++ out) (by simp [heq]) ?_
  exact run_append.mpr ⟨t, os, out, hrun, hrun', rfl⟩

/-- The inputs that a condition is met on are those of the run. -/
theorem Along.mem {Q : S → I → Prop} {s : S} {is : List I} (h : Along step Q s is) :
    Along step (fun t i => Q t i ∧ i ∈ is) s is := by
  intro before i after t out heq hrun
  exact ⟨h before i after t out heq hrun, by simp [heq]⟩

/-- Evaluate a condition along a run. -/
def checkAlong (step : S → I → Except F (S × List O)) (q : S → I → Bool) : S → List I → Bool
  | _, [] => true
  | s, i :: is => q s i && match step s i with
    | .error _ => true
    | .ok (t, _) => checkAlong step q t is

theorem Along.of_check {Q : S → I → Prop} [∀ s i, Decidable (Q s i)] {s : S} {is : List I}
    (h : checkAlong step (fun s i => decide (Q s i)) s is = true) : Along step Q s is := by
  induction is generalizing s with
  | nil => simp [Along]
  | cons i is ih =>
    simp only [checkAlong, Bool.and_eq_true, decide_eq_true_eq] at h
    intro before j after t out heq hrun
    cases before with
    | nil =>
      obtain ⟨rfl, -⟩ : s = t ∧ ([] : List O) = out := by simpa using hrun
      obtain ⟨rfl, -⟩ := List.cons.inj heq
      exact h.1
    | cons i' before =>
      obtain ⟨rfl, rfl⟩ := List.cons.inj heq
      obtain ⟨u, out₁, outs, hstep, hrest, -⟩ := run_cons.mp hrun
      rw [hstep] at h
      exact ih h.2 before j after t outs rfl hrest

/-- An invariant of the steps that meet a condition holds after every run of such steps. -/
theorem run_along {P : S → Prop} {Q : S → I → Prop}
    (hstep : ∀ s i t out, P s → Q s i → step s i = .ok (t, out) → P t)
    {s t : S} {is : List I} {os : List O} (hs : P s) (hq : Along step Q s is)
    (h : run step s is = .ok (t, os)) : P t :=
  run_relates (P := fun s _ _ => P s) (l := []) (o := [])
    (fun s i t _ _ out hP hQ hst => hstep s i t out hP hQ hst) hs hq h

/-- Steps that meet a condition, never fail, and keep a relation between the state and the
inputs and outputs so far make a run that does not fail and keeps it. -/
theorem run_complete {P : S → List I → List O → Prop} {Q : S → I → Prop}
    (hstep : ∀ s i l o, P s l o → Q s i →
      ∃ t out, step s i = .ok (t, out) ∧ P t (l ++ [i]) (o ++ out))
    {s : S} {is l : List I} {o : List O} (hs : P s l o) (hq : Along step Q s is) :
    ∃ t out, run step s is = .ok (t, out) ∧ P t (l ++ is) (o ++ out) := by
  induction is generalizing s l o with
  | nil => exact ⟨s, [], rfl, by simpa using hs⟩
  | cons i is ih =>
    obtain ⟨t, out, hst, hP⟩ := hstep s i l o hs (hq [] i is s [] rfl rfl)
    obtain ⟨u, outs, hrun, hP'⟩ := ih hP (hq.tail hst)
    exact ⟨u, out ++ outs, run_cons.mpr ⟨t, out, outs, hst, hrun, rfl⟩, by simpa using hP'⟩

/-- A step that keeps an invariant and avoids a failure makes every run do so. -/
theorem run_meets {bad : F} {P : S → Prop}
    (hstep : ∀ s i, P s → Meets bad (fun r => P r.1) (step s i)) {s : S} (hs : P s)
    (is : List I) : Meets bad (fun r => P r.1) (run step s is) := by
  induction is generalizing s with
  | nil => exact hs
  | cons i is ih =>
    refine (hstep s i hs).bind fun r hr => ?_
    exact (ih hr).bind fun r' hr' => hr'

/-- What holds of some inputs and no longer of more of them is lost at one input. -/
theorem exists_lost {P : List I → Prop} {is js : List I} (his : P is) (hjs : ¬P (is ++ js)) :
    ∃ before j after, js = before ++ j :: after ∧ P (is ++ before) ∧
      ¬P (is ++ before ++ [j]) := by
  induction js generalizing is with
  | nil => exact absurd his (by simpa using hjs)
  | cons j js ih =>
    by_cases hj : P (is ++ [j])
    · obtain ⟨before, j', after, rfl, hbefore, hlost⟩ := ih hj (by simpa using hjs)
      exact ⟨j :: before, j', after, rfl, by simpa using hbefore, by simpa using hlost⟩
    · exact ⟨[], j, js, rfl, by simpa using his, by simpa using hj⟩

/-- A relation between states and the ghost log written so far, kept by every step,
relates the last state to the whole log. -/
theorem log_invariant {ghost : S → I → List O → List E} {P : S → List E → Prop} {Q : I → Prop}
    (hstep : ∀ s i t out l, P s l → Q i → step s i = .ok (t, out) → P t (l ++ ghost s i out))
    {s t : S} {is : List I} {os : List O} {l : List E} (hs : P s l) (hi : ∀ i ∈ is, Q i)
    (h : run step s is = .ok (t, os)) : P t (l ++ log step ghost s is) := by
  induction is generalizing s os l with
  | nil =>
    obtain ⟨rfl, -⟩ : s = t ∧ ([] : List O) = os := by simpa using h
    simpa [log] using hs
  | cons i is ih =>
    obtain ⟨t', out, outs, hst, hr, rfl⟩ := run_cons.mp h
    have hP := hstep s i t' out l hs (hi i (by simp)) hst
    simpa [log_cons hst] using ih hP (fun j hj => hi j (by simp [hj])) hr

end Machine

/-! ## Components -/

/-- A part of a machine. `view` selects and reduces the inputs it reads, `obs` the outputs
it is seen to emit; on every other input it stands still and stays silent. -/
structure Component {S I O F : Type} (step : S → I → Except F (S × List O))
    (C J P : Type) where
  inv : S → Prop
  proj : S → C
  view : I → Option J
  obs : O → Option P
  cell : C → J → Except F (C × List P)
  inv_step : ∀ {s i t out}, inv s → step s i = .ok (t, out) → inv t
  skip : ∀ {s i t out}, inv s → view i = none → step s i = .ok (t, out) →
    proj t = proj s ∧ out.filterMap obs = []
  act : ∀ {s i j t out}, inv s → view i = some j → step s i = .ok (t, out) →
    cell (proj s) j = .ok (proj t, out.filterMap obs)

namespace Component

open Machine

variable {S I O E F C J P : Type} {step : S → I → Except F (S × List O)}
  (c : Component step C J P)

theorem inv_run {s t : S} {is : List I} {os : List O} (hs : c.inv s)
    (h : run step s is = .ok (t, os)) : c.inv t :=
  run_invariant (Q := fun _ => True) (fun _ _ _ _ hs _ h => c.inv_step hs h) hs
    (fun _ _ => trivial) h

/-- A run of the machine, restricted to the component's inputs, is a run of the component. -/
theorem run_proj {s t : S} {is : List I} {os : List O} (hs : c.inv s)
    (h : run step s is = .ok (t, os)) :
    run c.cell (c.proj s) (is.filterMap c.view) = .ok (c.proj t, os.filterMap c.obs) := by
  induction is generalizing s os with
  | nil =>
    obtain ⟨rfl, rfl⟩ : s = t ∧ ([] : List O) = os := by simpa using h
    rfl
  | cons i is ih =>
    obtain ⟨t', out, outs, hst, hr, rfl⟩ := run_cons.mp h
    have hrest := ih (c.inv_step hs hst) hr
    cases hv : c.view i with
    | none =>
      obtain ⟨hp, ho⟩ := c.skip hs hv hst
      simpa [List.filterMap_append, hv, ho, hp] using hrest
    | some j =>
      simp only [List.filterMap_cons, hv, List.filterMap_append, run_cons]
      exact ⟨_, _, _, c.act hs hv hst, hrest, rfl⟩

/-- Two runs that the component cannot tell apart leave it in the same state and made it
emit the same outputs. -/
theorem run_eq {s t u : S} {is js : List I} {os ps : List O} (hs : c.inv s)
    (hi : run step s is = .ok (t, os)) (hj : run step s js = .ok (u, ps))
    (hv : is.filterMap c.view = js.filterMap c.view) :
    c.proj t = c.proj u ∧ os.filterMap c.obs = ps.filterMap c.obs := by
  have h := (c.run_proj hs hi).symm.trans (hv ▸ c.run_proj hs hj)
  simpa using h

/-- A component whose cell does not read all of its inputs can be fed the part it reads. -/
def reduce {J' : Type} (e : J → J') (cell' : C → J' → Except F (C × List P))
    (he : ∀ s j, c.cell s j = cell' s (e j)) : Component step C J' P where
  inv := c.inv
  proj := c.proj
  view i := (c.view i).map e
  obs := c.obs
  cell := cell'
  inv_step := c.inv_step
  skip hs hv h := c.skip hs (by simpa using hv) h
  act {s i j' t out} hs hv h := by
    obtain ⟨j, hj, rfl⟩ := Option.map_eq_some_iff.mp hv
    exact (he _ _).symm.trans (c.act hs hj h)

/-- Ghost entries that only depend on the component can be logged by the component. -/
theorem log_proj {ghost : S → I → List O → List E} {cellGhost : C → J → List P → List E}
    (hskip : ∀ s i out, c.inv s → c.view i = none → out.filterMap c.obs = [] →
      ghost s i out = [])
    (hact : ∀ s i j out, c.inv s → c.view i = some j →
      ghost s i out = cellGhost (c.proj s) j (out.filterMap c.obs))
    {s t : S} {is : List I} {os : List O} (hs : c.inv s)
    (h : run step s is = .ok (t, os)) :
    log step ghost s is = log c.cell cellGhost (c.proj s) (is.filterMap c.view) := by
  induction is generalizing s os with
  | nil => rfl
  | cons i is ih =>
    obtain ⟨t', out, outs, hst, hr, rfl⟩ := run_cons.mp h
    have hrest := ih (c.inv_step hs hst) hr
    rw [log_cons hst, hrest]
    cases hv : c.view i with
    | none =>
      obtain ⟨hp, ho⟩ := c.skip hs hv hst
      simp [hv, hskip s i out hs hv ho, hp]
    | some j => simp [hv, hact s i j out hs hv, log_cons (c.act hs hv hst)]

end Component

end Library
