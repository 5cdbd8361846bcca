import Bolo.Config.Loaded
import Bolo.Config.Reference
import Bolo.Kernel.Staleness

/-!
# States of a configured kernel

What the state table and the stream of TRANSITIONs say in any run in which nothing is
forgotten: right after a sweep, a state is stale exactly if its deadline has passed, and a
subscriber to the TRANSITIONs always knows the status of every state.
-/
namespace Bolo

open Library

variable {R Re : Type}

/-! ## Staleness -/

section Staleness

variable [Double R] [Pcre Re] [HashOrder] {clock : Nat → Int32} {file : List UInt8}
  {s : Server R Re} {k k' : Kernel R Re} {is : List Input} {es out : List Effect}

/-- Right after a sweep at the reading `tick.sweep`, a state declared at `created` or made by
a rule is stale if and only if its deadline has passed. -/
theorem staleness_exact (hs : Configured clock file s)
    (hrun : Machine.run reactor (boot s) is = .ok (k, es)) {tick : Clock}
    (htick : reactor k (.tock tick) = .ok (k', out)) (hdue : k.freshness.due tick.now)
    (hforget : ∀ p, .management p ∈ is → ¬p.is .forget 4 4)
    (hclock : ((is ++ [Input.tock tick]).filterMap Input.sweep).Pairwise (· ≤ ·))
    {name : CString} {created : Int32}
    (hcreated : ∀ r, s.db.states.get? name = some r → ∃ type,
      r = State.blank created name type ∧ created.toInt + type.freshness.toNat < 2 ^ 31)
    (hfit : ∀ type, s.db.typeOf name = some type → ∀ i ∈ is ++ [.tock tick], ∀ m,
      StateCell.view Re name i = some m → m.Fits type)
    {r : State} (hr : k'.db.states.get? name = some r) :
    ∃ type, StateCell.Settled type tick.sweep
      (deadline created type (acceptedUpdates name (boot s) is)) r :=
  sweep_settled hs.loaded.fresh hrun htick hdue hforget hclock hcreated hfit hr

end Staleness

section Hosts

open Reference

/-- An update of the declared state and one of a state that a rule makes. -/
def updates : List Input :=
  [.listener 10 (pdu .state ["10", "web", "0", "up"]), .tock ⟨20, 20, 0⟩,
   .listener 30 (pdu .state ["30", "db1", "1", "slow"])]

theorem staleness_exact_hosts : ∃ k es k' out r type,
    Machine.run reactor (boot hosts) updates = .ok (k, es) ∧
      reactor k (.tock ⟨75, 75, 0⟩) = .ok (k', out) ∧
      k'.db.states.get? (.lit "web") = some r ∧
      StateCell.Settled type 75
        (deadline 0 type (acceptedUpdates (.lit "web") (boot hosts) updates)) r := by
  obtain ⟨⟨k', all⟩, hall⟩ := exists_ok
    (x := Machine.run reactor (boot hosts) (updates ++ [.tock ⟨75, 75, 0⟩])) (by decide +kernel)
  obtain ⟨k, es, out, hrun, hlast, -⟩ := Machine.run_append.mp hall
  have hdue : (Machine.run reactor (boot hosts) updates).map (fun r => r.1.freshness.due 75) =
      .ok true := by decide +kernel
  rw [hrun] at hdue
  have hfound : (Machine.run reactor (boot hosts) (updates ++ [.tock ⟨75, 75, 0⟩])).map
      (fun r => (r.1.db.states.get? (.lit "web")).isSome) = .ok true := by decide +kernel
  rw [hall] at hfound
  obtain ⟨r, hr⟩ := Option.isSome_iff_exists.mp (Except.ok.inj hfound)
  have htick := Machine.run_singleton.mp hlast
  have hcreated : ∀ r, hosts.db.states.get? (.lit "web") = some r → ∃ type,
      r = State.blank 0 (.lit "web") type ∧
        (0 : Int32).toInt + type.freshness.toNat < 2 ^ 31 := by
    have hweb : hosts.db.states.get? (.lit "web") = some (.blank 0 (.lit "web") ping) := by
      decide +kernel
    intro r hr
    exact ⟨ping, by simpa [hweb] using hr.symm, by decide⟩
  have hfit : ∀ type, hosts.db.typeOf (.lit "web") = some type →
      ∀ i ∈ updates ++ [.tock ⟨75, 75, 0⟩], ∀ m,
        StateCell.view CString (.lit "web") i = some m → m.Fits type := by
    have htype : hosts.db.typeOf (.lit "web") = some ping := by decide +kernel
    have hall : ∀ i ∈ updates ++ [.tock ⟨75, 75, 0⟩],
        ∀ m ∈ StateCell.view CString (.lit "web") i, m.Fits ping := by decide +kernel
    intro type ht i hi m hm
    obtain rfl : ping = type := by simpa [htype] using ht
    exact hall i hi m hm
  obtain ⟨type, hsettled⟩ := staleness_exact hosts_configured hrun htick (Except.ok.inj hdue)
    (by simp [updates]) (by decide +kernel) hcreated hfit hr
  exact ⟨k, es, k', out, r, type, hrun, htick, hr, hsettled⟩

end Hosts

/-! ## Transitions -/

section Transitions

variable [Double R] [Pcre Re] [HashOrder] {clock : Nat → Int32} {file : List UInt8}
  {s : Server R Re} {k k' : Kernel R Re} {is : List Input} {es out : List Effect}

/-- What a subscriber can rely on: the step from `k` to `k'` with the effects `out` sends a
TRANSITION exactly if it changes the standing of the state; each TRANSITION comes right
before its STATE; and the last one before the step shows the standing of the record. -/
structure TransitionsExact (name : CString) (k k' : Kernel R Re) (es out : List Effect) : Prop where
  changed : (∃ p, .broadcast p ∈ out ∧ transitionOf name p) ↔
    standing (k'.db.states.get? name) ≠ standing (k.db.states.get? name)
  accompanied : Accompanied (es ++ out)
  known : lastKnown (es.filterMap (Effect.select (stateAbout name))) =
    some (standingFrames (standing (k.db.states.get? name)))
  knows : lastKnown ((es ++ out).filterMap (Effect.select (stateAbout name))) =
    some (standingFrames (standing (k'.db.states.get? name)))

theorem transitions_exact (hs : Configured clock file s)
    (hrun : Machine.run reactor (boot s) is = .ok (k, es)) {i : Input}
    (hstep : reactor k i = .ok (k', out))
    (hforget : ∀ p, .management p ∈ is ++ [i] → ¬p.is .forget 4 4) (name : CString) :
    TransitionsExact name k k' es out := by
  have hfresh := hs.loaded.fresh
  have htracked : Tracked name k es :=
    run_tracked hfresh hrun fun p hp => hforget p (by simp [hp])
  have hi : ∀ p, i = .management p → ¬p.is .forget 4 4 := fun p hp => hforget p (by simp [hp])
  have hall : Machine.run reactor (boot s) (is ++ [i]) = .ok (k', es ++ out) :=
    Machine.run_append.mpr ⟨k, es, out, hrun, Machine.run_singleton.mpr hstep, rfl⟩
  exact ⟨htracked.transition_iff hi hstep, run_accompanied (k := boot s) hfresh.wf hall,
    htracked.known, (htracked.step hi hstep).known⟩

end Transitions

section Hosts

open Reference

theorem transitions_exact_hosts : ∃ k es k' out,
    Machine.run reactor (boot hosts) updates = .ok (k, es) ∧
      reactor k (.tock ⟨75, 75, 0⟩) = .ok (k', out) ∧
      TransitionsExact (.lit "web") k k' es out := by
  obtain ⟨⟨k', all⟩, hall⟩ := exists_ok
    (x := Machine.run reactor (boot hosts) (updates ++ [.tock ⟨75, 75, 0⟩])) (by decide +kernel)
  obtain ⟨k, es, out, hrun, hlast, -⟩ := Machine.run_append.mp hall
  have hstep := Machine.run_singleton.mp hlast
  exact ⟨k, es, k', out, hrun, hstep,
    transitions_exact hosts_configured hrun hstep (by simp [updates]) _⟩

end Hosts

end Bolo
