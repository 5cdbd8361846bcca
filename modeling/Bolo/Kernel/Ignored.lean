import Bolo.Kernel.Independence

/-!
# Ignored datapoints

A FORGET with its ignore flag set marks the datapoints it selects. A marked datapoint takes
no submission, no tick closes its window and no sweep finds it stale, so it stays as it is,
and nothing is broadcast about it, until a FORGET without the flag drops it.
-/
namespace Bolo

open Library

variable {R Re : Type}

namespace PointKind

def payload : PointKind → UInt16
  | .state => PAYLOAD_STATE
  | .series .counter => PAYLOAD_COUNTER
  | .series .sample => PAYLOAD_SAMPLE
  | .series .rate => PAYLOAD_RATE

def ignore : (d : PointKind) → d.Record R → UInt8
  | .state => State.ignore
  | .series .counter => Counter.ignore
  | .series .sample => Sample.ignore
  | .series .rate => Rate.ignore

variable (Re) in
/-- A FORGET that selects the datapoint, with the given ignore flag. -/
def Selected [Pcre Re] (d : PointKind) (name : CString) (flag : UInt8) (p : Pdu) : Prop :=
  ∃ (payload : UInt16) (re : Re), decodeForget p = some (payload, re, flag) ∧
    payload &&& d.payload ≠ 0 ∧ Pcre.exec re name

end PointKind

/-! ## Cells -/

section Cells

variable [Pcre Re]

theorem Series.cell_frozen {α V : Type} (S : Series R Re α V) {name : CString} {c c' : Cell Re α}
    {m : Msg V} {out : List Pdu} {x : α} (hmark : S.mark x = x) (hf : c.found = some x)
    (hm : m ≠ .forget false) (h : S.cell name c m = .ok (c', out)) :
    c'.found = some x ∧ out = [] := by
  have hi : S.ignore x ≠ 0 := by
    rw [← hmark, S.ignore_mark]
    decide
  cases m with
  | tick now =>
    have hclose (ts : Int32) : S.close ts x = .ok (x, []) := if_pos (.inl hi)
    simp only [Series.cell, hf, Table.visit, Table.gate, hclose, ite_self, bind, Except.bind, pure,
      Except.pure, Except.ok.injEq, Prod.mk.injEq] at h
    rw [← h.1]
    exact ⟨rfl, h.2.symm⟩
  | submit now ts v =>
    simp only [Series.cell, hf, Series.cellReceive, lookup, hi, if_false, bind, Except.bind, pure,
      Except.pure, Except.ok.injEq, Prod.mk.injEq] at h
    rw [← h.1]
    exact ⟨rfl, h.2.symm⟩
  | forget keep =>
    cases keep with
    | false => exact absurd rfl hm
    | true =>
      simp only [Series.cell, hf, if_true, Option.map_some, hmark, Except.ok.injEq,
        Prod.mk.injEq] at h
      rw [← h.1]
      exact ⟨rfl, h.2.symm⟩

theorem StateCell.step_frozen {name : CString} {c c' : StateCell Re} {m : StateMsg}
    {out : List Pdu} {s : State} (hi : s.ignore = 1) (hf : c.found = some s)
    (hm : m ≠ .forget false) (h : StateCell.step name c m = .ok (c', out)) :
    c'.found = some s ∧ out = [] := by
  have hmark : s.mark = s := by
    rw [State.mark, ← hi]
  have hne : s.ignore ≠ 0 := by
    rw [hi]
    decide
  cases m with
  | tick clock =>
    have hstale (now : Int32) : markStale now s = .ok (s, []) := if_pos (.inr hne)
    simp only [StateCell.step, hf, Table.visit, Table.gate, hstale, ite_self, bind, Except.bind,
      pure, Except.pure, Except.ok.injEq, Prod.mk.injEq] at h
    rw [← h.1]
    exact ⟨rfl, h.2.symm⟩
  | submit now ts code msg =>
    simp only [StateCell.step, hf, cellReceiveState, lookupState, hne, if_false, bind, Except.bind,
      pure, Except.pure, Except.ok.injEq, Prod.mk.injEq] at h
    rw [← h.1]
    exact ⟨rfl, h.2.symm⟩
  | forget keep =>
    cases keep with
    | false => exact absurd rfl hm
    | true =>
      simp only [StateCell.step, hf, if_true, Option.map_some, hmark, Except.ok.injEq,
        Prod.mk.injEq] at h
      rw [← h.1]
      exact ⟨rfl, h.2.symm⟩

end Cells

/-! ## Runs -/

section Runs

variable [Double R] [Pcre Re] [HashOrder]

omit [Pcre Re] [HashOrder] in
theorem Kind.mark_of_ignore (κ : Kind) {x : κ.Record R}
    (h : (PointKind.series κ).ignore x = 1) : (κ.series : Series R Re _ _).mark x = x := by
  cases κ with
  | counter => exact congrArg (fun i => { (x : Counter) with ignore := i }) h.symm
  | sample => exact congrArg (fun i => { (x : Sample R) with ignore := i }) h.symm
  | rate => exact congrArg (fun i => { (x : Rate) with ignore := i }) h.symm

omit [HashOrder] in
theorem Kind.view_forget {κ : Kind} {name : CString} {i : Input}
    (h : κ.view R Re name i = some (.forget false)) :
    ∃ p, i = .management p ∧ (PointKind.series κ).Selected Re name 0 p := by
  cases i with
  | tock clock => simp [Kind.view] at h
  | listener now p =>
    simp only [Kind.view] at h
    split at h
    · split at h
      · split at h <;> simp at h
      · simp at h
    · simp at h
  | management p =>
    refine ⟨p, rfl, ?_⟩
    simp only [Kind.view] at h
    split at h
    · case h_1 payload re ignore hd =>
        split at h
        · case isTrue hsel =>
            obtain rfl : ignore = 0 := by simpa using h
            refine ⟨payload, re, hd, ?_, hsel.2⟩
            cases κ <;> exact hsel.1
        · simp at h
    · simp at h

omit [Double R] [HashOrder] in
theorem StateCell.view_forget {name : CString} {i : Input}
    (h : StateCell.view Re name i = some (.forget false)) :
    ∃ p, i = .management p ∧ PointKind.state.Selected Re name 0 p := by
  cases i with
  | tock clock => simp [StateCell.view] at h
  | listener now p =>
    simp only [StateCell.view] at h
    split at h
    · split at h
      · split at h <;> simp at h
      · simp at h
    · simp at h
  | management p =>
    refine ⟨p, rfl, ?_⟩
    simp only [StateCell.view] at h
    split at h
    · case h_1 payload re ignore hd =>
        split at h
        · case isTrue hsel =>
            obtain rfl : ignore = 0 := by simpa using h
            exact ⟨payload, re, hd, hsel⟩
        · simp at h
    · simp at h

/-- A run that never drops an ignored datapoint leaves it as it is and says nothing about
it. -/
theorem run_frozen (d : PointKind) (name : CString) {k k' : Kernel R Re} (hwf : k.db.Wf)
    {is : List Input} {es : List Effect} (h : Machine.run reactor k is = .ok (k', es))
    (hdrop : ∀ p, .management p ∈ is → ¬d.Selected Re name 0 p) {r : d.Record R}
    (hr : d.record name k.db = some r) (hi : d.ignore r = 1) :
    d.record name k'.db = some r ∧ es.filterMap (Effect.select (d.about name)) = [] := by
  cases d with
  | state =>
    have hview : ∀ m ∈ is.filterMap (StateCell.view Re name), m ≠ .forget false := by
      rintro m hm rfl
      obtain ⟨i, hi, hv⟩ := List.mem_filterMap.mp hm
      obtain ⟨p, rfl, hsel⟩ := StateCell.view_forget hv
      exact hdrop p hi hsel
    have hrun := (StateCell.component (R := R) name).run_proj hwf h
    exact Machine.run_outputs (P := fun c out => c.found = some r ∧ out = [])
      (fun c m c' out l hc hm hstep => by
        obtain ⟨hf, rfl⟩ := hc
        exact StateCell.step_frozen hi hf hm hstep) ⟨hr, rfl⟩ hview hrun
  | series κ =>
    have hview : ∀ m ∈ is.filterMap (κ.view R Re name), m ≠ .forget false := by
      rintro m hm rfl
      obtain ⟨i, hi, hv⟩ := List.mem_filterMap.mp hm
      obtain ⟨p, rfl, hsel⟩ := Kind.view_forget hv
      exact hdrop p hi hsel
    have hrun := (κ.component (R := R) name).run_proj hwf h
    exact Machine.run_outputs (P := fun c out => c.found = some r ∧ out = [])
      (fun c m c' out l hc hm hstep => by
        obtain ⟨hf, rfl⟩ := hc
        exact κ.series.cell_frozen (κ.mark_of_ignore hi) hf hm hstep) ⟨hr, rfl⟩ hview hrun

end Runs

end Bolo
