import Bolo.Kernel.StateCell

/-!
# The status of a state over a run

A submission gives a state the code that it carries, whatever it is; a state that has
expired takes the status of its type. The last of these changes decides the status that
the kernel holds.
-/
namespace Bolo

open Library

variable {R Re : Type}

/-- What can happen to the status of a state. -/
inductive Change where
  | submitted (code : UInt8)
  | expired
  | forgotten
  deriving DecidableEq, Repr

/-- The status after the last change, `before` if there was none. -/
def Change.Leaves (before after : Option UInt8) : Option Change → Prop
  | none => after = before
  | some (.submitted code) => after = some code
  | some .expired => after = some WARNING ∨ after = some CRITICAL ∨ after = some UNKNOWN
  | some .forgotten => after = none

theorem Change.Leaves.trans {a b c : Option UInt8} {x y : Option Change}
    (hx : Change.Leaves a b x) (hy : Change.Leaves b c y) : Change.Leaves a c (y.or x) := by
  cases y with
  | none =>
    obtain rfl : c = b := hy
    exact hx
  | some y => cases y <;> exact hy

namespace StateCell

variable [Pcre Re] (name : CString)

/-- The change that a message makes. -/
def change (c : StateCell Re) : StateMsg → Option Change
  | .submit _ _ code _ => if accepts name c then some (.submitted code) else none
  | .tick clock =>
    if c.timer.due clock.now && c.found.any (fun s => s.expiry ≤ clock.sweep && s.ignore = 0) then
      some .expired
    else none
  | .forget keep => if keep then none else some .forgotten

theorem step_leaves {c c' : StateCell Re} {m : StateMsg} {out : List Pdu}
    (hwf : ∀ s, c.found = some s → s.Wf name) (h : step name c m = .ok (c', out)) :
    Change.Leaves (c.found.map State.status) (c'.found.map State.status) (change name c m) := by
  cases m with
  | forget keep =>
    simp only [step, Except.ok.injEq, Prod.mk.injEq] at h
    obtain ⟨rfl, -⟩ := h
    cases keep with
    | true => simp [change, Change.Leaves, State.mark, Function.comp_def]
    | false => rfl
  | submit now ts code msg =>
    obtain ⟨-, hmoves⟩ := step_moves name (by simp) h
    generalize c'.found = found at hmoves ⊢
    cases hmoves with
    | stay _ hsubmit => simp [change, hsubmit now ts code msg rfl, Change.Leaves]
    | update hacc => simp [change, hacc, Change.Leaves, updated]
  | tick clock =>
    obtain ⟨-, -, hvisit⟩ := step_tick name h
    cases hf : c.found with
    | none =>
      simp only [hf, Table.visit, Except.ok.injEq, Prod.mk.injEq] at hvisit
      simp [change, hf, ← hvisit.1, Change.Leaves]
    | some s =>
      simp only [hf, Table.visit, bind_eq_ok, pure_eq_ok, Prod.exists, Prod.mk.injEq] at hvisit
      obtain ⟨s', out', hg, hfound, -⟩ := hvisit
      simp only [change, hf, ← hfound, Option.any_some]
      unfold Table.gate at hg
      split at hg
      · case isTrue hdue =>
          rcases markStale_spec hg with ⟨hlive, rfl, -⟩ | ⟨he, hi, type, -, ht, -, rfl, -⟩
          · have hkept : (decide (s'.expiry ≤ clock.sweep) && decide (s'.ignore = 0)) = false := by
              rcases hlive with hlt | hne
              · simp [Int32.not_le.mpr hlt]
              · simp [hne]
            simp [hkept, Change.Leaves]
          · obtain ⟨type', ht', hstatus⟩ := (hwf s hf).type
            obtain rfl : type = type' := by simpa [ht] using ht'
            simpa [hdue, he, hi, Change.Leaves] using hstatus.status
      · case isFalse hdue =>
          simp only [Except.ok.injEq, Prod.mk.injEq] at hg
          obtain ⟨rfl, -⟩ := hg
          simp [hdue, Change.Leaves]

end StateCell

variable [Double R] [Pcre Re] [HashOrder] (name : CString)

/-- The changes that a run makes to the status of `name`, in order. -/
def statusChanges (k : Kernel R Re) (is : List Input) : List Change :=
  Machine.log reactor (fun k i _ =>
    ((StateCell.view Re name i).bind (StateCell.change name (StateCell.of name k))).toList) k is

theorem reactor_leaves {k k' : Kernel R Re} {i : Input} {es : List Effect} (hwf : k.db.Wf)
    (h : reactor k i = .ok (k', es)) :
    Change.Leaves ((k.db.states.get? name).map State.status)
      ((k'.db.states.get? name).map State.status)
      ((StateCell.view Re name i).bind (StateCell.change name (StateCell.of name k))) := by
  cases hv : StateCell.view Re name i with
  | none =>
    obtain ⟨hproj, -⟩ := (StateCell.component name).skip hwf hv h
    exact congrArg (fun c : StateCell Re => c.found.map State.status) hproj
  | some m =>
    have hcell := (StateCell.component name).act hwf hv h
    exact StateCell.step_leaves name (fun s hs => hwf.states name s hs) hcell

/-- The last change of a run decides the status. -/
theorem run_leaves {k k' : Kernel R Re} {is : List Input} {es : List Effect} (hwf : k.db.Wf)
    (h : Machine.run reactor k is = .ok (k', es)) :
    Change.Leaves ((k.db.states.get? name).map State.status)
      ((k'.db.states.get? name).map State.status) (statusChanges name k is).getLast? := by
  induction is generalizing k es with
  | nil =>
    obtain ⟨rfl, -⟩ : k = k' ∧ ([] : List Effect) = es := by simpa using h
    rfl
  | cons i is ih =>
    obtain ⟨t, out, outs, hstep, hrest, -⟩ := Machine.run_cons.mp h
    have htrans := (reactor_leaves name hwf hstep).trans (ih (reactor_wf hwf hstep) hrest)
    have hlast (x : Option Change) : x.toList.getLast? = x := by cases x <;> rfl
    rw [statusChanges, Machine.log_cons hstep, List.getLast?_append, hlast]
    exact htrans

end Bolo
