import Bolo.Agents.Commands
import Bolo.Library.Machine

/-!
# The main loop of the agent

Each pass of the main loop of `dbolo` reads the clock, cuts it to whole seconds, and goes over
the commands. The child of a command is waited for; a command without one is started if its next
run is before the clock.

A step of the model is the reading of the clock, the visit of one command or the end of a
child, so that children may end at any point of a pass. What the kernel answers is part of the
step: the end of the pipe that is read, if there is one, and the result of `fork`.
-/
namespace Bolo.Dbolo

open Library Machine

/-- A child that was not waited for. -/
structure Child where
  owner : Nat
  pid : Int32
  running : Bool
  deriving DecidableEq

structure Agent where
  commands : List Check
  now : UInt64
  /-- The command that is visited next. -/
  cursor : Nat
  children : List Child
  deriving DecidableEq

inductive Event where
  | clock (t : UInt64)
  | visit (pipe : Option Int32) (fork : Int32)
  | exit (pid : Int32)
  deriving DecidableEq

inductive Report where
  | started (i : Nat) (now : UInt64)
  | reaped (i : Nat) (now : UInt64)
  | failed (i : Nat)
  deriving DecidableEq

/-- The agent before its first pass. -/
def Agent.boot (commands : List Check) : Agent := ⟨commands, 0, commands.length, []⟩

def whole (t : UInt64) : UInt64 := t - t % 1000

/-- `waitpid(pid, &status, WNOHANG) == pid`. -/
def waitpid (children : List Child) (pid : Int32) : Bool :=
  children.any fun c => c.pid = pid && !c.running

/-- `fork`. A result that is no new process id stands for one that failed. -/
def fork (children : List Child) (owner : Nat) (pid : Int32) : List Child × Int32 :=
  if 0 < pid ∧ pid ∉ children.map Child.pid then (children ++ [⟨owner, pid, true⟩], pid)
  else (children, -1)

/-- What a command becomes when its child was waited for. -/
def Check.reap (cmd : Check) : Check := { cmd with pid := -1, fd := -1 }

/-- What it becomes when `fork` returned. -/
def Check.launch (cmd : Check) (fd pid : Int32) (now : UInt64) : Check where
  interval := cmd.interval
  exec := cmd.exec
  nextRun := now + cmd.interval.toInt64.toUInt64
  pid := pid
  fd := fd

/-- The agent goes on to the next command, after a change to the one it visits. -/
def Agent.leave (a : Agent) (cmd : Check) (children : List Child) : Agent :=
  { a with commands := a.commands.set a.cursor cmd, cursor := a.cursor + 1, children }

/-- The body of the loop over the commands. -/
def Agent.visit (a : Agent) (pipe : Option Int32) (pid : Int32) : Agent × List Report :=
  match a.commands[a.cursor]? with
  | none => (a, [])
  | some cmd =>
    if 0 < cmd.pid then
      if waitpid a.children cmd.pid then
        (a.leave cmd.reap (a.children.filter (·.pid ≠ cmd.pid)),
          [.reaped a.cursor a.now])
      else (a.leave cmd a.children, [])
    else if cmd.nextRun < a.now then
      match pipe with
      | none => (a.leave cmd a.children, [.failed a.cursor])
      | some fd =>
        let r := fork a.children a.cursor pid
        (a.leave (cmd.launch fd r.2 a.now) r.1,
          [if 0 < r.2 then .started a.cursor a.now else .failed a.cursor])
    else (a.leave cmd a.children, [])

/-- The clock is read when a pass is over, and the next begins. -/
def Agent.step (a : Agent) : Event → Except Fault (Agent × List Report)
  | .clock t =>
    if a.commands.length ≤ a.cursor then .ok ({ a with now := whole t, cursor := 0 }, [])
    else .ok (a, [])
  | .visit pipe pid => .ok (a.visit pipe pid)
  | .exit pid => .ok ({ a with
      children := a.children.map fun c => { c with running := c.running && c.pid ≠ pid } }, [])

/-! ## What a visit can do -/

/-- The turn of a command that is not over: what becomes of the command and of the children. -/
inductive Agent.Turn (a : Agent) (cmd : Check) : Check → List Child → List Report → Prop
  | busy : 0 < cmd.pid → Turn a cmd cmd a.children []
  | early : ¬0 < cmd.pid → a.now ≤ cmd.nextRun → Turn a cmd cmd a.children []
  | noPipe : Turn a cmd cmd a.children [.failed a.cursor]
  | reap : 0 < cmd.pid → Turn a cmd cmd.reap (a.children.filter (·.pid ≠ cmd.pid))
      [.reaped a.cursor a.now]
  | noFork (fd : Int32) : ¬0 < cmd.pid → cmd.nextRun < a.now →
      Turn a cmd (cmd.launch fd (-1) a.now) a.children [.failed a.cursor]
  | start (fd : Int32) {pid : Int32} : ¬0 < cmd.pid → cmd.nextRun < a.now → 0 < pid →
      pid ∉ a.children.map Child.pid → Turn a cmd (cmd.launch fd pid a.now)
        (a.children ++ [⟨a.cursor, pid, true⟩]) [.started a.cursor a.now]

theorem Agent.visit_of_get {a : Agent} {cmd : Check} (hcmd : a.commands[a.cursor]? = some cmd)
    (pipe : Option Int32) (pid : Int32) :
    ∃ cmd' children out, a.Turn cmd cmd' children out ∧
      a.visit pipe pid = (a.leave cmd' children, out) := by
  unfold Agent.visit
  rw [hcmd]
  simp only
  split
  · case isTrue hpid =>
    split
    · exact ⟨_, _, _, .reap hpid, rfl⟩
    · exact ⟨_, _, _, .busy hpid, rfl⟩
  · case isFalse hpid =>
    split
    · case isTrue hdue =>
      cases pipe with
      | none => exact ⟨_, _, _, .noPipe, rfl⟩
      | some fd =>
        simp only [fork]
        split
        · case isTrue hfresh =>
          rw [if_pos hfresh.1]
          exact ⟨_, _, _, .start fd hpid hdue hfresh.1 hfresh.2, rfl⟩
        · rw [if_neg (show ¬(0 : Int32) < -1 by decide)]
          exact ⟨_, _, _, .noFork fd hpid hdue, rfl⟩
    · case isFalse hdue => exact ⟨_, _, _, .early hpid (UInt64.not_lt.mp hdue), rfl⟩

/-- What a step can do. -/
inductive Agent.Step (a : Agent) (e : Event) : Agent → List Report → Prop
  | still : Step a e a []
  | clock {t : UInt64} : e = .clock t → a.commands.length ≤ a.cursor →
      Step a e { a with now := whole t, cursor := 0 } []
  | exit (f : Child → Bool) :
      Step a e { a with children := a.children.map fun c => { c with running := f c } } []
  | turn {cmd cmd' : Check} {children : List Child} {out : List Report} :
      a.commands[a.cursor]? = some cmd → a.Turn cmd cmd' children out →
      Step a e (a.leave cmd' children) out

theorem Agent.step_spec {a a' : Agent} {e : Event} {out : List Report}
    (h : a.step e = .ok (a', out)) : a.Step e a' out := by
  cases e with
  | clock t =>
    rw [Agent.step] at h
    split at h <;> obtain ⟨rfl, rfl⟩ := Prod.mk.inj (Except.ok.inj h)
    · case isTrue hover => exact .clock rfl hover
    · exact .still
  | visit pipe pid =>
    have hvisit : a.visit pipe pid = (a', out) := Except.ok.inj h
    cases hcmd : a.commands[a.cursor]? with
    | none =>
      rw [Agent.visit, hcmd] at hvisit
      obtain ⟨rfl, rfl⟩ := Prod.mk.inj hvisit
      exact .still
    | some cmd =>
      obtain ⟨cmd', children, out', hturn, heq⟩ := Agent.visit_of_get hcmd pipe pid
      obtain ⟨rfl, rfl⟩ := Prod.mk.inj (heq.symm.trans hvisit)
      exact .turn hcmd hturn
  | exit pid =>
    obtain ⟨rfl, rfl⟩ := Prod.mk.inj (Except.ok.inj h)
    exact .exit _

theorem Agent.leave_cursor {a : Agent} {cmd : Check} (h : a.commands[a.cursor]? = some cmd)
    (cmd' : Check) (children : List Child) :
    (a.leave cmd' children).commands[a.cursor]? = some cmd' :=
  List.getElem?_set_self (List.getElem?_eq_some_iff.mp h).1

theorem Agent.leave_of_ne (a : Agent) (cmd : Check) (children : List Child) {i : Nat}
    (h : a.cursor ≠ i) : (a.leave cmd children).commands[i]? = a.commands[i]? :=
  List.getElem?_set_ne h

theorem Agent.leave_self {a : Agent} {cmd : Check} (h : a.commands[a.cursor]? = some cmd)
    (children : List Child) : (a.leave cmd children).commands = a.commands := by
  obtain ⟨hlt, hget⟩ := List.getElem?_eq_some_iff.mp h
  change a.commands.set a.cursor cmd = a.commands
  rw [← hget, List.set_getElem_self]

/-! ## Children -/

/-- Children have ids of their own, and each is the child of the command that has its id. -/
structure Agent.Tidy (a : Agent) : Prop where
  nodup : (a.children.map Child.pid).Nodup
  owned : ∀ c ∈ a.children,
    0 < c.pid ∧ ∃ cmd, a.commands[c.owner]? = some cmd ∧ cmd.pid = c.pid

namespace Agent.Tidy

variable {a : Agent} (h : a.Tidy)

include h

/-- A child of another command is not affected by a visit. -/
theorem owned_leave {c : Child} (hc : c ∈ a.children) (hne : a.cursor ≠ c.owner) (cmd : Check)
    (children : List Child) : 0 < c.pid ∧
      ∃ own, (a.leave cmd children).commands[c.owner]? = some own ∧ own.pid = c.pid := by
  rw [Agent.leave_of_ne _ _ _ hne]
  exact h.owned c hc

theorem owner_pid {c : Child} (hc : c ∈ a.children) {cmd : Check}
    (hcmd : a.commands[c.owner]? = some cmd) : cmd.pid = c.pid ∧ 0 < cmd.pid := by
  obtain ⟨hpos, own, hown, heq⟩ := h.owned c hc
  obtain rfl := Option.some.inj (hown.symm.trans hcmd)
  exact ⟨heq, heq ▸ hpos⟩

/-- A command with no id has no child. -/
theorem owner_ne {cmd : Check} (hcmd : a.commands[a.cursor]? = some cmd) (hpid : ¬0 < cmd.pid)
    {c : Child} (hc : c ∈ a.children) : a.cursor ≠ c.owner :=
  fun heq => hpid (h.owner_pid hc (heq ▸ hcmd)).2

theorem turn {cmd cmd' : Check} {children : List Child} {out : List Report}
    (hcmd : a.commands[a.cursor]? = some cmd) (hturn : a.Turn cmd cmd' children out) :
    (a.leave cmd' children).Tidy := by
  have hkeep : (a.leave cmd a.children).Tidy := by
    refine ⟨h.nodup, fun c hc => ?_⟩
    rw [Agent.leave_self hcmd]
    exact h.owned c hc
  cases hturn with
  | busy _ => exact hkeep
  | early _ _ => exact hkeep
  | noPipe => exact hkeep
  | reap _ =>
    refine ⟨h.nodup.sublist (List.filter_sublist.map _), fun c hc => ?_⟩
    obtain ⟨hmem, hother⟩ := List.mem_filter.mp hc
    refine h.owned_leave hmem (fun heq => ?_) _ _
    simp [(h.owner_pid hmem (heq ▸ hcmd)).1] at hother
  | noFork fd hpid _ =>
    exact ⟨h.nodup, fun c hc => h.owned_leave hc (h.owner_ne hcmd hpid hc) _ _⟩
  | start fd hpid _ hpos hfresh =>
    constructor
    · change ((a.children ++ [_]).map Child.pid).Nodup
      rw [List.map_append, List.map_singleton, ← List.concat_eq_append]
      exact h.nodup.concat hfresh
    · intro c hc
      rcases List.mem_append.mp hc with hc | hc
      · exact h.owned_leave hc (h.owner_ne hcmd hpid hc) _ _
      · obtain rfl := List.mem_singleton.mp hc
        exact ⟨hpos, _, Agent.leave_cursor hcmd _ _, rfl⟩

theorem step {e : Event} {a' : Agent} {out : List Report} (hstep : a.Step e a' out) : a'.Tidy := by
  cases hstep with
  | still => exact h
  | clock _ _ => exact ⟨h.nodup, h.owned⟩
  | exit f =>
    refine ⟨?_, fun c hc => ?_⟩
    · change ((a.children.map _).map Child.pid).Nodup
      rw [List.map_map]
      exact h.nodup
    · obtain ⟨c', hc', rfl⟩ := List.mem_map.mp hc
      exact h.owned c' hc'
  | turn hcmd hturn => exact h.turn hcmd hturn

/-- No command has two children. -/
theorem one_child (i : Nat) : (a.children.filter (·.owner = i)).length ≤ 1 := by
  have hnodup := h.nodup.sublist (List.filter_sublist (p := (·.owner = i)) |>.map Child.pid)
  have hsame : ∀ c ∈ a.children.filter (·.owner = i), ∀ d ∈ a.children.filter (·.owner = i),
      c.pid = d.pid := by
    intro c hc d hd
    obtain ⟨hc, hci⟩ := List.mem_filter.mp hc
    obtain ⟨hd, hdi⟩ := List.mem_filter.mp hd
    obtain ⟨-, own, hown, heq⟩ := h.owned c hc
    have howner : d.owner = c.owner := by simp_all
    rw [← heq, (h.owner_pid hd (howner ▸ hown)).1]
  generalize a.children.filter (·.owner = i) = l at hnodup hsame ⊢
  match l with
  | [] => simp
  | [c] => simp
  | c :: d :: l => simp [hsame c (by simp) d (by simp)] at hnodup

end Agent.Tidy

theorem Agent.tidy_boot (commands : List Check) : (Agent.boot commands).Tidy :=
  ⟨List.nodup_nil, by simp [Agent.boot]⟩

theorem Agent.tidy_run {commands : List Check} {es : List Event} {a : Agent} {out : List Report}
    (hrun : run Agent.step (.boot commands) es = .ok (a, out)) : a.Tidy :=
  run_invariant (Q := fun _ => True) (fun _ _ _ _ h _ hstep => h.step (Agent.step_spec hstep))
    (Agent.tidy_boot commands) (fun _ _ => trivial) hrun

/-! ## One command -/

/-- The command that a report is about. -/
def Report.command : Report → Nat
  | started i _ => i
  | reaped i _ => i
  | failed i => i

theorem Agent.Turn.command {a : Agent} {cmd cmd' : Check} {children : List Child}
    {out : List Report} (h : a.Turn cmd cmd' children out) : ∀ r ∈ out, r.command = a.cursor := by
  cases h <;> simp [Report.command]

/-- What a step does to the clock, the cursor and the `i`th command. -/
inductive Agent.Move (a : Agent) (i : Nat) (cmd : Check) (e : Event) (a' : Agent) :
    Check → List Report → Prop
  | still : a'.now = a.now → a'.cursor = a.cursor → Move a i cmd e a' cmd []
  | clock {t : UInt64} : e = .clock t → a.commands.length ≤ a.cursor → a'.now = whole t →
      a'.cursor = 0 → Move a i cmd e a' cmd []
  | other {out : List Report} : a'.now = a.now → a.cursor ≠ i → a'.cursor = a.cursor + 1 →
      (∀ r ∈ out, r.command ≠ i) → Move a i cmd e a' cmd out
  | turn {cmd' : Check} {children : List Child} {out : List Report} : a'.now = a.now →
      a.cursor = i → a'.cursor = a.cursor + 1 → a.Turn cmd cmd' children out →
      Move a i cmd e a' cmd' out

theorem Agent.Step.move {a a' : Agent} {e : Event} {out : List Report} (h : a.Step e a' out)
    {i : Nat} {cmd : Check} (hcmd : a.commands[i]? = some cmd) :
    ∃ cmd', a'.commands[i]? = some cmd' ∧ a.Move i cmd e a' cmd' out := by
  cases h with
  | still => exact ⟨cmd, hcmd, .still rfl rfl⟩
  | clock he hover => exact ⟨cmd, hcmd, .clock he hover rfl rfl⟩
  | exit f => exact ⟨cmd, hcmd, .still rfl rfl⟩
  | turn hown hturn =>
    by_cases hi : a.cursor = i
    · subst hi
      obtain rfl := Option.some.inj (hown.symm.trans hcmd)
      exact ⟨_, Agent.leave_cursor hcmd _ _, .turn rfl rfl rfl hturn⟩
    · refine ⟨cmd, by rwa [Agent.leave_of_ne _ _ _ hi], .other rfl hi rfl fun r hr => ?_⟩
      rw [hturn.command r hr]
      exact hi

theorem Agent.Turn.interval {a : Agent} {cmd cmd' : Check} {children : List Child}
    {out : List Report} (h : a.Turn cmd cmd' children out) : cmd'.interval = cmd.interval := by
  cases h <;> rfl

theorem Agent.Move.interval {a a' : Agent} {i : Nat} {cmd cmd' : Check} {e : Event}
    {out : List Report} (h : a.Move i cmd e a' cmd' out) : cmd'.interval = cmd.interval := by
  cases h with
  | still _ _ => rfl
  | clock _ _ _ _ => rfl
  | other _ _ _ _ => rfl
  | turn _ _ _ hturn => exact hturn.interval

theorem whole_mod (t : UInt64) : (whole t).toNat % 1000 = 0 := by
  have hmod : (t % 1000).toNat = t.toNat % 1000 := UInt64.toNat_mod t 1000
  have hle : t % 1000 ≤ t := by
    rw [UInt64.le_iff_toNat_le, hmod]
    exact Nat.mod_le _ _
  rw [whole, UInt64.toNat_sub_of_le _ _ hle, hmod]
  omega

/-- The clock shows whole seconds, and the interval of a command is as it was read. -/
theorem Agent.run_boot {commands : List Check} {es : List Event} {a : Agent} {out : List Report}
    (hrun : run Agent.step (.boot commands) es = .ok (a, out)) {i : Nat} {cmd : Check}
    (hcmd : commands[i]? = some cmd) : a.now.toNat % 1000 = 0 ∧
      ∃ cmd', a.commands[i]? = some cmd' ∧ cmd'.interval = cmd.interval := by
  refine run_invariant (Q := fun _ => True)
    (P := fun a => a.now.toNat % 1000 = 0 ∧
      ∃ cmd', a.commands[i]? = some cmd' ∧ cmd'.interval = cmd.interval)
    ?_ ⟨rfl, cmd, hcmd, rfl⟩ (fun _ _ => trivial) hrun
  rintro a e a' out ⟨hwhole, own, hown, hinterval⟩ - hstep
  obtain ⟨own', hown', hmove⟩ := (Agent.step_spec hstep).move hown
  refine ⟨?_, own', hown', hmove.interval.trans hinterval⟩
  cases hmove with
  | still hnow _ => rwa [hnow]
  | clock _ _ hnow _ => rw [hnow, whole_mod]
  | other hnow _ _ _ => rwa [hnow]
  | turn hnow _ _ _ => rwa [hnow]

/-! ## Deadlines -/

/-- There is room in the clock for one more interval, and no second is skipped when the clock is
read. -/
def Agent.Regular (I : Int) (a : Agent) (e : Event) : Prop :=
  (a.now.toNat : Int) + I < 2 ^ 64 ∧ ∀ t, e = .clock t → a.commands.length ≤ a.cursor →
    (whole t).toNat = a.now.toNat ∨ (whole t).toNat = a.now.toNat + 1000

instance (I : Int) (a : Agent) : (e : Event) → Decidable (a.Regular I e)
  | .clock t => decidable_of_iff ((a.now.toNat : Int) + I < 2 ^ 64 ∧
      (a.commands.length ≤ a.cursor →
        (whole t).toNat = a.now.toNat ∨ (whole t).toNat = a.now.toNat + 1000))
      (by simp [Agent.Regular])
  | .visit _ _ => decidable_of_iff ((a.now.toNat : Int) + I < 2 ^ 64) (by simp [Agent.Regular])
  | .exit _ => decidable_of_iff ((a.now.toNat : Int) + I < 2 ^ 64) (by simp [Agent.Regular])

theorem Check.launch_nextRun {cmd : Check} {n : Nat} (hn : cmd.interval.toInt = n) (fd pid : Int32)
    {now : UInt64} (hfit : now.toNat + n < 2 ^ 64) :
    (cmd.launch fd pid now).nextRun.toNat = now.toNat + n := by
  have hint : cmd.interval.toInt64.toUInt64 = UInt64.ofNat n := by
    have hmod : ((n : Int) % 2 ^ 64).toNat = n := by omega
    rw [toUInt64_toInt64, hn]
    exact congrArg UInt64.ofNat hmod
  change (now + cmd.interval.toInt64.toUInt64).toNat = _
  rw [hint, UInt64.toNat_add, UInt64.toNat_ofNat_of_lt' (by change n < 2 ^ 64; omega),
    Nat.mod_eq_of_lt hfit]

/-- Nothing is reaped before the clock says so. -/
theorem Agent.run_since {I : Int} {a a' : Agent} {es : List Event} {out : List Report}
    (hregular : Along Agent.step (Agent.Regular I) a es)
    (hrun : run Agent.step a es = .ok (a', out)) {i : Nat} {r : UInt64}
    (hr : .reaped i r ∈ out) : a.now.toNat ≤ r.toNat := by
  generalize hT : a.now.toNat = T
  have hinv := run_relates (P := fun a _ o => T ≤ a.now.toNat ∧
      ∀ i r, .reaped i r ∈ o → T ≤ r.toNat) (l := []) (o := []) ?_ ⟨hT.ge, by simp⟩ hregular hrun
  · exact hinv.2 i r hr
  · rintro a e a' l o out ⟨hnow, hall⟩ ⟨-, hclock⟩ hstep
    cases Agent.step_spec hstep with
    | still => exact ⟨hnow, by simpa using hall⟩
    | clock he hover =>
      refine ⟨?_, by simpa using hall⟩
      change T ≤ (whole _).toNat
      rcases hclock _ he hover with h | h <;> omega
    | exit f => exact ⟨hnow, by simpa using hall⟩
    | turn hcmd hturn =>
      refine ⟨hnow, fun i r hr => ?_⟩
      rcases List.mem_append.mp hr with hr | hr
      · exact hall i r hr
      · cases hturn <;> simp at hr
        rw [hr.2]
        exact hnow

/-- What holds of a command of interval `n` after a start at `T`, as long as it is not started
again. If its child is reaped in time and nothing fails, the command is still to be visited in the
first second after the deadline. -/
structure Agent.Waits (a : Agent) (i T n : Nat) (cmd : Check) (o : List Report) : Prop where
  interval : cmd.interval.toInt = n
  whole : a.now.toNat % 1000 = 0
  due : T + n ≤ cmd.nextRun.toNat
  planned : .failed i ∉ o → cmd.nextRun.toNat = T + n
  soon : .failed i ∉ o → (∃ r, .reaped i r ∈ o ∧ r.toNat < T + n) →
    ¬0 < cmd.pid ∧ a.now.toNat ≤ T + n + 1000 ∧ (T + n < a.now.toNat → a.cursor ≤ i)

section Waits

variable {a a' : Agent} {i T n : Nat} {cmd cmd' : Check} {o out : List Report} {e : Event}

/-- Reports about other commands change nothing. -/
theorem mem_append_of_other {r : Report} (hr : r.command = i) (hout : ∀ r ∈ out, r.command ≠ i) :
    r ∈ o ++ out ↔ r ∈ o := by
  rw [List.mem_append, or_iff_left fun hmem => hout r hmem hr]

theorem Agent.Waits.turn (h : a.Waits a.cursor T n cmd o) {children : List Child}
    (hturn : a.Turn cmd cmd' children out) (hnow : a'.now = a.now)
    (hfit : a.now.toNat + n < 2 ^ 64) (hnone : ∀ t, .started a.cursor t ∉ out) :
    a'.Waits a.cursor T n cmd' (o ++ out) := by
  have hwhole : a'.now.toNat % 1000 = 0 := by rw [hnow]; exact h.whole
  cases hturn with
  | busy hpid =>
    rw [List.append_nil]
    exact ⟨h.interval, hwhole, h.due, h.planned,
      fun hfail hr => absurd hpid (h.soon hfail hr).1⟩
  | early hpid hearly =>
    rw [List.append_nil]
    refine ⟨h.interval, hwhole, h.due, h.planned, fun hfail hr => ?_⟩
    have hplan := h.planned hfail
    have hle := UInt64.le_iff_toNat_le.mp hearly
    rw [hnow]
    exact ⟨hpid, by omega, by omega⟩
  | noPipe =>
    exact ⟨h.interval, hwhole, h.due, fun hfail => absurd (by simp) hfail,
      fun hfail => absurd (by simp) hfail⟩
  | reap hpid =>
    have hfree : ¬(0 : Int32) < -1 := by decide
    refine ⟨h.interval, hwhole, h.due, fun hfail => h.planned (by simpa using hfail), ?_⟩
    rintro hfail ⟨r, hr, hlt⟩
    rcases List.mem_append.mp hr with hr | hr
    · exact absurd hpid (h.soon (by simpa using hfail) ⟨r, hr, hlt⟩).1
    · obtain ⟨-, rfl⟩ := Report.reaped.inj (List.mem_singleton.mp hr)
      rw [hnow]
      exact ⟨hfree, by omega, by omega⟩
  | noFork fd hpid hdue =>
    have hlt := UInt64.lt_iff_toNat_lt.mp hdue
    have hlater := h.due
    refine ⟨h.interval, hwhole, ?_, fun hfail => absurd (by simp) hfail,
      fun hfail => absurd (by simp) hfail⟩
    rw [Check.launch_nextRun h.interval fd (-1) hfit]
    omega
  | start fd hpid hdue hpos hfresh => exact absurd (by simp) (hnone a.now)

theorem Agent.Waits.move (h : a.Waits i T n cmd o) (hcmd : a.commands[i]? = some cmd)
    (hmove : a.Move i cmd e a' cmd' out) (hregular : a.Regular n e)
    (hnone : ∀ t, .started i t ∉ out) : a'.Waits i T n cmd' (o ++ out) := by
  obtain ⟨hfit, hclock⟩ := hregular
  have hlt := (List.getElem?_eq_some_iff.mp hcmd).1
  cases hmove with
  | still hnow hcursor =>
    rw [List.append_nil]
    exact ⟨h.interval, hnow ▸ h.whole, h.due, h.planned, by rw [hnow, hcursor]; exact h.soon⟩
  | clock he hover hnow hcursor =>
    rw [List.append_nil]
    refine ⟨h.interval, by rw [hnow, whole_mod], h.due, h.planned, fun hfail hr => ?_⟩
    obtain ⟨hpid, hle, hcur⟩ := h.soon hfail hr
    -- the pass that is over has visited the command
    have hbefore : a.now.toNat ≤ T + n := not_lt.mp fun h => absurd (hcur h) (by omega)
    rw [hnow, hcursor]
    refine ⟨hpid, ?_, fun _ => Nat.zero_le _⟩
    rcases hclock _ he hover with h | h <;> omega
  | other hnow hne hcursor hout =>
    have hfail_iff := mem_append_of_other (o := o) (r := .failed i) rfl hout
    have hreap_iff (r : UInt64) := mem_append_of_other (o := o) (r := .reaped i r) rfl hout
    refine ⟨h.interval, hnow ▸ h.whole, h.due, fun hfail => h.planned (by rwa [← hfail_iff]), ?_⟩
    rw [hnow, hcursor, hfail_iff]
    simp only [hreap_iff]
    intro hfail hr
    obtain ⟨hpid, hle, hcur⟩ := h.soon hfail hr
    exact ⟨hpid, hle, fun hlate => by have := hcur hlate; omega⟩
  | turn hnow hi _ hturn =>
    subst hi
    exact h.turn hturn hnow (by omega) hnone

/-- A start sets the deadline. -/
theorem Agent.Waits.of_start {pid fd : Int32} {now : UInt64} (hn : cmd.interval.toInt = n)
    (hfit : now.toNat + n < 2 ^ 64) (hnow : a.now = now) (hwhole : now.toNat % 1000 = 0) :
    a.Waits i now.toNat n (cmd.launch fd pid now) [] := by
  have hnext := Check.launch_nextRun hn fd pid hfit
  exact ⟨hn, hnow ▸ hwhole, hnext.ge, fun _ => hnext, by simp⟩

theorem Agent.Waits.run {es : List Event} (h : a.Waits i T n cmd [])
    (hcmd : a.commands[i]? = some cmd) (hregular : Along Agent.step (Agent.Regular n) a es)
    (hrun : Machine.run Agent.step a es = .ok (a', out)) (hnone : ∀ t, .started i t ∉ out) :
    ∃ cmd', a'.commands[i]? = some cmd' ∧ a'.Waits i T n cmd' out := by
  have hinv := run_relates (P := fun a _ o => (∀ t, .started i t ∉ o) →
      ∃ cmd, a.commands[i]? = some cmd ∧ a.Waits i T n cmd o)
    (l := []) (o := []) ?_ (fun _ => ⟨cmd, hcmd, h⟩) hregular hrun
  · exact hinv hnone
  · intro a e a' l o out hP hreg hstep hnone
    simp only [List.mem_append, not_or] at hnone
    obtain ⟨own, hown, hwaits⟩ := hP fun t => (hnone t).1
    obtain ⟨own', hown', hmove⟩ := (Agent.step_spec hstep).move hown
    exact ⟨own', hown', hwaits.move hown hmove hreg fun t => (hnone t).2⟩

/-- What a report of a start says about the state before it and the one after it. -/
theorem Agent.Step.started (h : a.Step e a' out) {t : UInt64} (ht : .started i t ∈ out) :
    a.cursor = i ∧ t = a.now ∧ a'.now = a.now ∧ ∃ cmd fd pid, a.commands[i]? = some cmd ∧
      cmd.nextRun < a.now ∧ a'.commands[i]? = some (cmd.launch fd pid a.now) := by
  cases h with
  | still => simp at ht
  | clock _ _ => simp at ht
  | exit f => simp at ht
  | turn hcmd hturn =>
    cases hturn with
    | start fd hpid hdue _ _ =>
      obtain ⟨rfl, rfl⟩ := Report.started.inj (List.mem_singleton.mp ht)
      exact ⟨rfl, rfl, rfl, _, fd, _, hcmd, hdue, Agent.leave_cursor hcmd _ _⟩
    | busy _ => simp at ht
    | early _ _ => simp at ht
    | noPipe => simp at ht
    | reap _ => simp at ht
    | noFork _ _ _ => simp at ht

end Waits

/-! ## Two starts -/

/-- Two starts of a command in a run of the agent, at `T₁` and `T₂`, and the reports between
them. The command is not started in between, the child of the first start is reaped before the
interval is over, and from the first start on the loop goes through every second. -/
structure Consecutive (commands : List Check) (i : Nat) (I : Int) (T₁ T₂ : UInt64)
    (between : List Report) : Prop where
  exists_run : ∃ before e₁ mid e₂ a₁ a₂ a₃ a₄ out out₁ out₂,
    run Agent.step (.boot commands) before = .ok (a₁, out) ∧
    a₁.step e₁ = .ok (a₂, out₁) ∧ .started i T₁ ∈ out₁ ∧
    run Agent.step a₂ mid = .ok (a₃, between) ∧
    a₃.step e₂ = .ok (a₄, out₂) ∧ .started i T₂ ∈ out₂ ∧
    Along Agent.step (Agent.Regular I) a₁ (e₁ :: (mid ++ [e₂]))
  none_between : ∀ t, .started i t ∉ between
  reaped : ∃ r, .reaped i r ∈ between ∧ (r.toNat : Int) < T₁.toNat + I

/-- The second start is late by a second: a command is due in the second after its deadline.
No command ever has two children. -/
theorem starts_late {commands : List Check} {i : Nat} {cmd : Check}
    (hcmd : commands[i]? = some cmd) (hseconds : 1000 ∣ cmd.interval.toInt)
    {T₁ T₂ : UInt64} {between : List Report}
    (h : Consecutive commands i cmd.interval.toInt T₁ T₂ between) :
    (T₂.toNat : Int) ≠ T₁.toNat + cmd.interval.toInt ∧
    (.failed i ∉ between → (T₂.toNat : Int) = T₁.toNat + cmd.interval.toInt + 1000) ∧
    ∀ es a out, run Agent.step (.boot commands) es = .ok (a, out) →
      ∀ j, (a.children.filter (·.owner = j)).length ≤ 1 := by
  obtain ⟨before, e₁, mid, e₂, a₁, a₂, a₃, a₄, out, out₁, out₂, hbefore, hstart₁, hT₁, hmid,
    hstart₂, hT₂, hregular⟩ := h.exists_run
  obtain ⟨r, hr, hlt⟩ := h.reaped
  obtain ⟨hwhole, own, hown, hinterval⟩ := Agent.run_boot hbefore hcmd
  obtain ⟨-, rfl, hnow₂, own', fd, pid, hown', -, hlaunch⟩ :=
    (Agent.step_spec hstart₁).started hT₁
  obtain rfl := Option.some.inj (hown.symm.trans hown')
  have hfit := (hregular [] e₁ _ a₁ [] rfl rfl).1
  have hregular₂ := hregular.tail hstart₁
  -- the child is reaped after the start, so that the interval is positive
  have hsince := Agent.run_since hregular₂.left hmid hr
  rw [hnow₂] at hsince
  obtain ⟨n, hn⟩ := Int.eq_ofNat_of_zero_le (show 0 ≤ cmd.interval.toInt by omega)
  rw [hn] at hlt hfit hseconds hregular₂ ⊢
  have hwaits : a₂.Waits i a₁.now.toNat n (own.launch fd pid a₁.now) [] :=
    .of_start ((congrArg Int32.toInt hinterval).trans hn) (by omega) hnow₂ hwhole
  obtain ⟨own₃, hown₃, hwaits₃⟩ := hwaits.run hlaunch hregular₂.left hmid h.none_between
  obtain ⟨hcursor, rfl, -, own₄, -, -, hown₄, hdue, -⟩ := (Agent.step_spec hstart₂).started hT₂
  obtain rfl := Option.some.inj (hown₃.symm.trans hown₄)
  have hlate := UInt64.lt_iff_toNat_lt.mp hdue
  have hdeadline := hwaits₃.due
  refine ⟨by omega, fun hfail => ?_, fun es a out hrun => (Agent.tidy_run hrun).one_child⟩
  obtain ⟨-, hsoon, -⟩ := hwaits₃.soon hfail ⟨r, hr, by omega⟩
  have hwhole₃ := hwaits₃.whole
  omega

/-- The commands of a file with the one line `@1s ls`. -/
def everySecond : List Check := (sParse .none (some (CString.ascii "@1s ls\n"))).2.commands

/-- Started at 5 s and reaped in the same second, the command waits at 6 s, where its deadline is,
and is started at 7 s. -/
theorem consecutive_everySecond : Consecutive everySecond 0 1000 5000 7000 [.reaped 0 5000] where
  exists_run := ⟨[.clock 5200], .visit (some 3) 7,
    [.exit 7, .clock 5300, .visit none 0, .clock 6100, .visit none 0, .clock 7000],
    .visit (some 3) 8, _, _, _, _, _, _, _, rfl, rfl, by decide, rfl, rfl, by decide,
    .of_check (by decide)⟩
  none_between t := by simp
  reaped := ⟨5000, by simp, by decide⟩

theorem starts_late_everySecond :
    Consecutive everySecond 0 1000 5000 7000 [.reaped 0 5000] ∧
    ((7000 : UInt64).toNat : Int) ≠ (5000 : UInt64).toNat + 1000 ∧
    ∀ es a out, run Agent.step (.boot everySecond) es = .ok (a, out) →
      ∀ j, (a.children.filter (·.owner = j)).length ≤ 1 := by
  have hcmd : everySecond[0]? = some (newCheck .none 0 1 (CString.ascii "ls")) := by decide
  obtain ⟨hne, -, hone⟩ := starts_late hcmd (by decide) consecutive_everySecond
  exact ⟨consecutive_everySecond, hne, hone⟩

theorem second_start_after_two_seconds : ∃ T₂ between,
    Consecutive everySecond 0 1000 5000 T₂ between ∧
    everySecond.map Check.interval = [1000] ∧ T₂.toNat = 5000 + 1000 + 1000 :=
  ⟨7000, _, consecutive_everySecond, by decide, by decide⟩

end Bolo.Dbolo
