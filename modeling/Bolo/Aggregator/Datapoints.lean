import Bolo.Config.Loaded
import Bolo.Config.Reference
import Bolo.Kernel.Ignored

/-!
# Datapoints of a configured kernel

A kernel is a collection of independent datapoints under a common clock: what the record
of one of them is, and what subscribers hear about it, is decided by the submissions that
name it and by the ticks. A datapoint that a FORGET has marked is frozen and silent.
-/
namespace Bolo

open Library

variable {R Re : Type}

section Runs

variable [Double R] [Pcre Re] [HashOrder]

structure Independent (s : Server R Re) : Prop where
  /-- Runs that say the same to a datapoint leave it with the same record, and broadcast the
  same about it. -/
  runs : ∀ (d : PointKind) (name : CString) {is js : List Input} {k₁ k₂ : Kernel R Re}
    {es₁ es₂ : List Effect},
    Machine.run reactor (boot s) is = .ok (k₁, es₁) →
    Machine.run reactor (boot s) js = .ok (k₂, es₂) →
    (∀ i ∈ is ++ js, ∀ p, i ≠ .management p) →
    is.filterMap (d.reads name) = js.filterMap (d.reads name) →
    d.record name k₁.db = d.record name k₂.db ∧
      es₁.filterMap (Effect.select (d.about name)) = es₂.filterMap (Effect.select (d.about name))
  /-- After any run, submissions to different datapoints commute. -/
  commute : ∀ {is : List Input} {k a k₁ : Kernel R Re} {es out out' : List Effect}
    {d d' : PointKind} {name name' : CString} {p q : Pdu} {now now' : Int32},
    Machine.run reactor (boot s) is = .ok (k, es) → (d, name) ≠ (d', name') →
    d.Names name p → d'.Names name' q →
    listen now p k = .ok (a, out) → listen now' q a = .ok (k₁, out') →
    ∃ b k₂, listen now' q k = .ok (b, out') ∧ listen now p b = .ok (k₂, out) ∧ k₁.Agree k₂
  /-- After any run, a submission changes no datapoint that it does not name, and nothing that
  is not a datapoint. -/
  frame : ∀ {is : List Input} {k k' : Kernel R Re} {es out : List Effect} {d : PointKind} {p : Pdu}
    {now : Int32},
    Machine.run reactor (boot s) is = .ok (k, es) → p.type = d.tag.text →
    listen now p k = .ok (k', out) →
    (∀ (e : PointKind) (n : CString), ¬e.Names n p → e.record n k'.db = e.record n k.db) ∧
      k'.bare = k.bare

theorem datapoints_independent {clock : Nat → Int32} {file : List UInt8} {s : Server R Re}
    (hs : Configured clock file s) : Independent s := by
  have hboot : (boot s).db.Wf := hs.loaded.wf
  refine ⟨?_, ?_, ?_⟩
  · intro d name is js k₁ k₂ es₁ es₂ h₁ h₂ hm heq
    exact runs_agree d name hboot h₁ h₂ (fun i hi => hm i (by simp [hi]))
      (fun i hi => hm i (by simp [hi])) heq
  · intro is k a k₁ es out out' d d' name name' p q now now' hrun hne hp hq h₁ h₂
    exact listen_comm ((run_meets hboot is).result hrun) hne hp hq h₁ h₂
  · intro is k k' es out d p now hrun htype h
    exact ⟨fun e n hn => listen_record ((run_meets hboot is).result hrun) h hn,
      listen_bare h htype⟩

end Runs

section Minutes

open Reference

/-- A run with a submission to another counter and to a sample set. -/
def busy : List Input :=
  [.listener 61 (pdu .counter ["61", "hits", "5"]),
   .listener 62 (pdu .counter ["62", "misses", "9"]),
   .listener 63 (pdu .sample ["63", "load", "3"]), .tock ⟨200, 200, 0⟩]

/-- The same run without them. -/
def quiet : List Input :=
  [.listener 70 (pdu .counter ["61", "hits", "5"]), .tock ⟨200, 200, 0⟩]

theorem datapoints_independent_minutes : ∃ k₁ k₂ es₁ es₂,
    Machine.run reactor (boot minutes) busy = .ok (k₁, es₁) ∧
      Machine.run reactor (boot minutes) quiet = .ok (k₂, es₂) ∧
      k₁.db.counters.get? (.lit "hits") = k₂.db.counters.get? (.lit "hits") ∧
      es₁.filterMap (Effect.select (Kind.counter.about (.lit "hits"))) =
        es₂.filterMap (Effect.select (Kind.counter.about (.lit "hits"))) := by
  obtain ⟨⟨k₁, es₁⟩, h₁⟩ := exists_ok (x := Machine.run reactor (boot minutes) busy)
    (by decide +kernel)
  obtain ⟨⟨k₂, es₂⟩, h₂⟩ := exists_ok (x := Machine.run reactor (boot minutes) quiet)
    (by decide +kernel)
  exact ⟨k₁, k₂, es₁, es₂, h₁, h₂, (datapoints_independent minutes_configured).runs
    (.series .counter) (.lit "hits") h₁ h₂ (by simp [busy, quiet]) (by decide +kernel)⟩

end Minutes

/-! ## Ignored datapoints -/

section Ignored

variable [Double R] [Pcre Re] [HashOrder] {clock : Nat → Int32} {file : List UInt8}
  {s : Server R Re} {k k' : Kernel R Re} {is js : List Input} {es out : List Effect}

/-- Whatever comes after a datapoint was marked, short of a FORGET that drops it, leaves its
record alone and broadcasts nothing about it. -/
theorem ignored_frozen (hs : Configured clock file s)
    (hrun : Machine.run reactor (boot s) is = .ok (k, es)) {d : PointKind} {name : CString}
    {r : d.Record R} (hr : d.record name k.db = some r) (hi : d.ignore r = 1)
    (hcont : Machine.run reactor k js = .ok (k', out))
    (hdrop : ∀ p, .management p ∈ js → ¬d.Selected Re name 0 p) :
    d.record name k'.db = some r ∧ out.filterMap (Effect.select (d.about name)) = [] :=
  run_frozen d name ((run_meets (k := boot s) hs.loaded.wf is).result hrun) hcont hdrop hr hi

end Ignored

section Hosts

open Reference

/-- `web` is marked, and then updated and swept. -/
theorem ignored_frozen_hosts : ∃ k es r k' out,
    Machine.run reactor (boot hosts) [.management (pdu .forget ["1", "web", "1"])] = .ok (k, es) ∧
      k.db.states.get? (.lit "web") = some r ∧ r.ignore = 1 ∧
      Machine.run reactor k [.listener 10 (pdu .state ["10", "web", "0", "up"]),
        .tock ⟨90, 90, 0⟩] = .ok (k', out) ∧
      k'.db.states.get? (.lit "web") = some r ∧
      out.filterMap (Effect.select (stateAbout (.lit "web"))) = [] := by
  obtain ⟨⟨k', all⟩, hall⟩ := exists_ok (x := Machine.run reactor (boot hosts)
    ([.management (pdu .forget ["1", "web", "1"])] ++
      [.listener 10 (pdu .state ["10", "web", "0", "up"]), .tock ⟨90, 90, 0⟩])) (by decide +kernel)
  obtain ⟨k, es, out, hrun, hcont, -⟩ := Machine.run_append.mp hall
  have hmarked : (Machine.run reactor (boot hosts)
      [.management (pdu .forget ["1", "web", "1"])]).map
        (fun r => (r.1.db.states.get? (.lit "web")).map State.ignore) = .ok (some 1) := by
    decide +kernel
  rw [hrun] at hmarked
  obtain ⟨r, hr, hi⟩ := Option.map_eq_some_iff.mp (Except.ok.inj hmarked)
  obtain ⟨hrecord, hsilent⟩ := ignored_frozen hosts_configured hrun (d := .state) hr hi hcont
    (by simp)
  exact ⟨k, es, r, k', out, hrun, hr, hi, hcont, hrecord, hsilent⟩

end Hosts

end Bolo
