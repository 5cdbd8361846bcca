import Bolo.Config.Loaded
import Bolo.Config.Reference
import Bolo.Kernel.Cells
import Bolo.Kernel.Conservation

/-!
# Beacons

A BEACON says how many milliseconds there are to the next one. The timer that sends it is due
once `last + interval < now`, so with a tick each second there are `interval + 1` seconds from
one beacon to the next. The setting is unsigned and the timer signed: an interval of 32768 or
more is negative for the timer, which is then due at each tick, while the beacon announces it
as it was set.
-/
namespace Bolo

open Library

variable {R Re : Type}

/-! ## The timer of the beacon -/

def Effect.beacon? : Effect → Option Pdu
  | .beacon p => some p
  | _ => none

@[simp] theorem Effect.beacon?_broadcast (p : Pdu) : (Effect.broadcast p).beacon? = none := rfl

/-- What the kernel says at `clock` when a beacon is due. -/
def announcement (interval : Int16) (clock : Clock) : Pdu :=
  { type := Tag.beacon.text
    frames := [decimal clock.ms.toNat, decimal (interval.toUInt16.toNat * 1000)] }

/-- The part of the kernel that sends beacons: whether there is an address to send them to,
and the timer. -/
structure Beaconing where
  bound : Bool
  sweep : Timer
  deriving DecidableEq

namespace Beaconing

def of (k : Kernel R Re) : Beaconing := ⟨k.server.config.beacon.isSome, k.sweep⟩

def due (b : Beaconing) (now : Int32) : Bool := b.bound && b.sweep.due now

def step (b : Beaconing) (clock : Clock) : Except Fault (Beaconing × List Pdu) :=
  if b.due clock.now then
    .ok ({ b with sweep := { b.sweep with last := clock.now } },
      [announcement b.sweep.interval clock])
  else .ok (b, [])

def view : Input → Option Clock
  | .tock clock => some clock
  | _ => none

theorem filterMap_broadcast (out : List Pdu) :
    (out.map Effect.broadcast).filterMap Effect.beacon? = [] := by
  simp

theorem filterMap_private {es : List Effect} (h : ∀ e ∈ es, e.Private) :
    es.filterMap Effect.beacon? = [] := by
  refine List.filterMap_eq_nil_iff.mpr fun e he => ?_
  have hp := h e he
  cases e <;> first | rfl | exact hp.elim

theorem saveState_of (now : Int32) (k : Kernel R Re) :
    of (saveState now k).1 = of k ∧ (saveState now k).2.filterMap Effect.beacon? = [] := by
  unfold saveState
  split
  · exact ⟨rfl, by simp [Effect.beacon?]⟩
  · exact ⟨rfl, rfl⟩

theorem beaconSweep_of (clock : Clock) (k : Kernel R Re) :
    (of k).step clock =
      .ok (of (beaconSweep clock k).1, (beaconSweep clock k).2.filterMap Effect.beacon?) := by
  by_cases h : k.server.config.beacon.isSome ∧ k.sweep.due clock.now
  · simp [beaconSweep, step, due, of, h, Effect.beacon?, announcement]
  · have hdue : ¬(of k).due clock.now := by simpa [due, of] using h
    simp [beaconSweep, step, hdue, h]

variable [Double R]

theorem tock_of {clock : Clock} {k k' : Kernel R Re} {es : List Effect}
    (h : tock clock k = .ok (k', es)) :
    (of k).step clock = .ok (of k', es.filterMap Effect.beacon?) := by
  simp only [tock, bind_eq_ok, pure_eq_ok, Prod.exists, Prod.mk.injEq] at h
  obtain ⟨k₁, closed, hclose, k₂, swept, hfresh, rfl, rfl⟩ := h
  have h₁ : of k₁ = of k := by
    obtain ⟨_, _, _, _, _, _, -, -, -, -, rfl⟩ := closeWindows_spec hclose
    rfl
  have h₂ : of k₂ = of (beaconSweep clock k₁).1 := by
    obtain ⟨_, -, rfl⟩ := sweepFreshness_spec hfresh
    rfl
  obtain ⟨hsave, hsaved⟩ := saveState_of clock.now k₂
  rw [← h₁, beaconSweep_of, hsave, h₂]
  simp only [List.filterMap_append, filterMap_broadcast, hsaved, List.nil_append, List.append_nil]

variable [Pcre Re] [HashOrder]

/-- Beacons, as a component of the kernel. -/
def component : Component (reactor : Kernel R Re → _) Beaconing Clock Pdu where
  inv _ := True
  proj := of
  view := view
  obs := Effect.beacon?
  cell := step
  inv_step _ _ := trivial
  skip {k i k' out} _ hv h := by
    cases i with
    | tock clock => cases hv
    | listener now p =>
      cases listen_spec h <;> exact ⟨rfl, by simp⟩
    | management p =>
      simp only [reactor, bind_eq_ok, pure_eq_ok, Prod.exists, Prod.mk.injEq] at h
      obtain ⟨s', es', hm, rfl, rfl⟩ := h
      obtain ⟨hconfig, hprivate, -⟩ := manage_spec hm
      exact ⟨by simp [of, hconfig], filterMap_private hprivate⟩
  act {k i clock k' out} _ hv h := by
    cases i with
    | tock clock' =>
      obtain rfl : clock' = clock := Option.some.inj hv
      exact tock_of h
    | listener now p => cases hv
    | management p => cases hv

omit [Double R] [Pcre Re] [HashOrder]

/-! ## When beacons are sent -/

/-- The beacons sent at the given ticks, each with the time of its tick. -/
def sent (b : Beaconing) (cs : List Clock) : List (Int32 × Pdu) :=
  Machine.log step (fun _ clock out => out.map fun p => (clock.now, p)) b cs

theorem sent_due {b : Beaconing} {c : Clock} (h : b.due c.now) (cs : List Clock) :
    b.sent (c :: cs) = (c.now, announcement b.sweep.interval c) ::
      sent { b with sweep := { b.sweep with last := c.now } } cs := by
  have hstep : b.step c = .ok ({ b with sweep := { b.sweep with last := c.now } },
      [announcement b.sweep.interval c]) := by simp [step, h]
  simp [sent, Machine.log_cons hstep]

theorem sent_wait {b : Beaconing} {c : Clock} (h : ¬b.due c.now) (cs : List Clock) :
    b.sent (c :: cs) = b.sent cs := by
  have hstep : b.step c = .ok (b, []) := by simp [step, h]
  simp [sent, Machine.log_cons hstep]

theorem sent_wait_all {b : Beaconing} {cs : List Clock} (h : ∀ c ∈ cs, ¬b.due c.now)
    (ds : List Clock) : b.sent (cs ++ ds) = b.sent ds := by
  induction cs with
  | nil => rfl
  | cons c cs ih =>
    rw [List.cons_append, sent_wait (h c (by simp)), ih fun d hd => h d (by simp [hd])]

/-- The timer as a comparison of integers, where the sum does not wrap. -/
theorem due_iff {b : Beaconing} {now : Int32} (hbound : b.bound = true)
    (h₁ : -2 ^ 31 ≤ b.sweep.last.toInt + b.sweep.interval.toInt)
    (h₂ : b.sweep.last.toInt + b.sweep.interval.toInt < 2 ^ 31) :
    b.due now ↔ b.sweep.last.toInt + b.sweep.interval.toInt < now.toInt := by
  rw [← Int16.toInt_toInt32] at h₁ h₂ ⊢
  rw [due, hbound, Bool.true_and, Timer.due, decide_eq_true_iff, Int32.lt_iff_toInt_lt,
    toInt_add_of_bounds h₁ h₂]

/-- One tick each second. -/
def EverySecond (cs : List Clock) : Prop :=
  (cs.map Clock.now).IsChain fun a b => b.toInt = a.toInt + 1

/-- Once a timer with a negative interval was due, it is due at every tick. -/
theorem sent_every {b : Beaconing} (hbound : b.bound = true) (hneg : b.sweep.interval.toInt < 0)
    (hlast : -2 ^ 15 ≤ b.sweep.last.toInt) {cs : List Clock}
    (hcs : (b.sweep.last :: cs.map Clock.now).IsChain fun a b => b.toInt = a.toInt + 1) :
    b.sent cs = cs.map fun c => (c.now, announcement b.sweep.interval c) := by
  induction cs generalizing b with
  | nil => rfl
  | cons c cs ih =>
    obtain ⟨hnow, hrest⟩ := List.isChain_cons_cons.mp hcs
    have hlow := b.sweep.interval.le_toInt
    have hhigh := b.sweep.last.toInt_lt
    have hdue : b.due c.now := (due_iff hbound (by omega) (by omega)).mpr (by omega)
    rw [sent_due hdue, List.map_cons]
    congr 1
    exact ih (b := { b with sweep := { b.sweep with last := c.now } }) hbound hneg
      (by change -2 ^ 15 ≤ c.now.toInt; omega) hrest

/-- So from some tick on there is a beacon at each one. -/
theorem sent_suffix {b : Beaconing} (hbound : b.bound = true) (hneg : b.sweep.interval.toInt < 0)
    (hlast : b.sweep.last = 0) {cs : List Clock} (hcs : EverySecond cs) :
    ∃ ds, ds <:+ cs ∧ b.sent cs = ds.map fun c => (c.now, announcement b.sweep.interval c) := by
  induction cs with
  | nil => exact ⟨[], List.suffix_refl _, rfl⟩
  | cons c cs ih =>
    have hlow := b.sweep.interval.le_toInt
    have hzero : b.sweep.last.toInt = 0 := by rw [hlast]; rfl
    by_cases hdue : b.due c.now
    · have hnow := (due_iff hbound (by omega) (by omega)).mp hdue
      refine ⟨c :: cs, List.suffix_refl _, ?_⟩
      rw [sent_due hdue, List.map_cons]
      congr 1
      exact sent_every (b := { b with sweep := { b.sweep with last := c.now } }) hbound hneg
        (by change -2 ^ 15 ≤ c.now.toInt; omega) hcs
    · obtain ⟨ds, hds, hsent⟩ := ih hcs.tail
      exact ⟨ds, hds.trans (List.suffix_cons c cs), by rw [sent_wait hdue, hsent]⟩

theorem sent_unbound {b : Beaconing} (hbound : b.bound = false) (cs : List Clock) :
    b.sent cs = [] := by
  have h : ∀ c ∈ cs, ¬b.due c.now := by simp [due, hbound]
  simpa [sent, Machine.log] using sent_wait_all h []

/-! ## The promise -/

/-- Each beacon is followed by the next one within the time it announces, in milliseconds. -/
def Kept (l : List (Int32 × Pdu)) : Prop :=
  l.IsChain fun a b => (b.1.toInt - a.1.toInt) * 1000 ≤ (a.2.number 2 : Int)

theorem announcement_number (interval : Int16) (c : Clock) :
    (announcement interval c).number 2 = interval.toUInt16.toNat * 1000 := by
  have hlt := interval.toUInt16.toNat_lt
  exact strtoul_decimal (by omega)

theorem kept_of_negative {b : Beaconing} (hbound : b.bound = true)
    (hneg : b.sweep.interval.toInt < 0) (hlast : b.sweep.last = 0) {cs : List Clock}
    (hcs : EverySecond cs) : Kept (b.sent cs) := by
  obtain ⟨ds, hds, hsent⟩ := sent_suffix hbound hneg hlast hcs
  have hwide := toInt_toInt16 b.sweep.interval.toUInt16
  rw [Int16.toInt16_toUInt16] at hwide
  rw [hsent, Kept, List.isChain_map]
  refine (((List.isChain_map _).mp hcs).suffix hds).imp fun c d hcd => ?_
  simp only [announcement_number]
  split at hwide <;> omega

/-- A tick at the given second. -/
def tickAt (t : Nat) : Clock := ⟨.ofNat t, .ofNat t, 0⟩

theorem everySecond_tickAt {a n : Nat} (h : a + n ≤ 2 ^ 31) :
    EverySecond ((List.range' a n).map tickAt) := by
  rw [EverySecond, List.map_map, List.isChain_map]
  refine (List.isChain_range' a n 1).imp_of_mem_imp fun i j hi hj hij => ?_
  have hi := List.mem_range'_1.mp hi
  have hj := List.mem_range'_1.mp hj
  have hti : (Int32.ofNat i).toInt = i := Int32.toInt_ofNat_of_lt (by omega)
  have htj : (Int32.ofNat j).toInt = j := Int32.toInt_ofNat_of_lt (by omega)
  change (Int32.ofNat j).toInt = (Int32.ofNat i).toInt + 1
  rw [hti, htj, hij, Nat.cast_add, Nat.cast_one]

/-- A positive interval of `n` seconds leaves `n + 1` seconds between two beacons. -/
theorem sent_spaced {b : Beaconing} {n : Nat} (hbound : b.bound = true)
    (hinterval : b.sweep.interval.toInt = n) (hlast : b.sweep.last = 0) :
    b.sent ((List.range' (n + 1) (n + 2)).map tickAt) =
      [(.ofNat (n + 1), announcement b.sweep.interval (tickAt (n + 1))),
       (.ofNat (2 * n + 2), announcement b.sweep.interval (tickAt (2 * n + 2)))] := by
  have hhigh := b.sweep.interval.toInt_lt
  have hzero : b.sweep.last.toInt = 0 := by rw [hlast]; rfl
  have stamp {t : Nat} (ht : t ≤ 2 * n + 2) : (Int32.ofNat t).toInt = t :=
    Int32.toInt_ofNat_of_lt (by omega)
  have hfirst : b.due (tickAt (n + 1)).now := by
    rw [due_iff hbound (by omega) (by omega), tickAt, stamp (by omega)]
    omega
  rw [List.range'_succ, List.map_cons, sent_due hfirst]
  set b₁ : Beaconing := { b with sweep := { b.sweep with last := (tickAt (n + 1)).now } } with hb₁
  have hlast₁ : b₁.sweep.last.toInt = n + 1 := stamp (t := n + 1) (by omega)
  have hinterval₁ : b₁.sweep.interval.toInt = n := hinterval
  have hdue₁ {t : Nat} (ht : t ≤ 2 * n + 2) : b₁.due (tickAt t).now ↔ 2 * n + 1 < t := by
    have hbound₁ : b₁.bound = true := hbound
    rw [due_iff hbound₁ (by omega) (by omega), tickAt, stamp ht]
    omega
  have hwait : ∀ c ∈ (List.range' (n + 1 + 1) n).map tickAt, ¬b₁.due c.now := by
    intro c hc
    obtain ⟨t, ht, rfl⟩ := List.mem_map.mp hc
    have ht := List.mem_range'_1.mp ht
    rw [hdue₁ (by omega)]
    omega
  have hlast₂ : n + 1 + 1 + n = 2 * n + 2 := by omega
  rw [List.range'_1_concat, List.map_append, sent_wait_all hwait, hlast₂]
  simp only [List.map_cons, List.map_nil]
  rw [sent_due ((hdue₁ le_rfl).mpr (by omega))]
  rfl

end Beaconing

/-! ## Beacons of a configured kernel -/

section Idle

variable [Double R]

/-- A database to which nothing has been submitted, so that a tick closes no window. -/
structure Db.Idle (db : Db R Re) : Prop where
  states : db.states.All State.Wf
  series : ∀ κ : Kind, (κ.series.table db).All fun _ x =>
    (κ.series : Series R Re _ _).lastSeen x = 0

variable {bad : Fault}

theorem tick_idle {db : Db R Re} (h : db.Idle) (κ : Kind) (ts : Int32) :
    Meets bad (fun r => r.1.Idle) (κ.series.tick ts db) := by
  refine (Table.sweep_meets (κ.series.close ts)
    (P := fun _ x => (κ.series : Series R Re _ _).lastSeen x = 0) fun name x hx => ?_).bind
    fun r hr => ?_
  · have hzero := h.series κ name x hx
    simp [Series.close, hzero]
  · refine ⟨by cases κ <;> exact h.states, fun κ' => ?_⟩
    by_cases hκ : κ' = κ
    · subst hκ
      simpa using hr
    · simpa [Kind.table_setTable_ne hκ] using h.series κ'

theorem tock_idle {k : Kernel R Re} (h : k.db.Idle) (clock : Clock) :
    Meets bad (fun r => r.1.db.Idle) (tock clock k) := by
  have hclose : Meets bad (fun r => r.1.db.Idle) (closeWindows clock.now k) := by
    unfold closeWindows
    split
    · refine (tick_idle h .counter _).bind fun r₁ h₁ => ?_
      refine (tick_idle h₁ .sample _).bind fun r₂ h₂ => ?_
      exact (tick_idle h₂ .rate _).bind fun r₃ h₃ => h₃
    · exact h
  have hbeacon (k : Kernel R Re) (h : k.db.Idle) : (beaconSweep clock k).1.db.Idle := by
    unfold beaconSweep
    split <;> exact h
  have hfresh (k : Kernel R Re) (h : k.db.Idle) :
      Meets bad (fun r => r.1.db.Idle) (sweepFreshness clock k) := by
    unfold sweepFreshness
    split
    · refine (checkFreshness_meets h.states _).bind fun r hr => ?_
      obtain ⟨t, hdb, ht⟩ := hr
      have hidle : r.1.Idle := hdb ▸ ⟨ht, fun κ => by cases κ <;> exact h.series _⟩
      exact hidle
    · exact h
  have hsave (k : Kernel R Re) (h : k.db.Idle) : (saveState clock.now k).1.db.Idle := by
    unfold saveState
    split <;> exact h
  exact hclose.bind fun r hr => (hfresh _ (hbeacon r.1 hr)).bind fun r' hr' => hsave r'.1 hr'

variable [Pcre Re] [HashOrder]

/-- Ticks alone never stop an idle kernel. -/
theorem run_idle {k : Kernel R Re} (h : k.db.Idle) (cs : List Clock) :
    ∃ k' es, Machine.run reactor k (cs.map .tock) = .ok (k', es) := by
  induction cs generalizing k with
  | nil => exact ⟨k, [], rfl⟩
  | cons clock cs ih =>
    obtain ⟨⟨k₁, out⟩, htock, hidle⟩ := Meets.exists_ok fun _ => tock_idle h clock
    obtain ⟨k', es, hrun⟩ := ih hidle
    exact ⟨k', out ++ es, Machine.run_cons.mpr ⟨k₁, out, es, htock, hrun, rfl⟩⟩

end Idle

section Runs

variable [Double R] [Pcre Re] [HashOrder]

/-- The beacons of a run, each with the time at which it was sent. -/
def beacons (k : Kernel R Re) (is : List Input) : List (Int32 × Pdu) :=
  Machine.log reactor (fun _ i es => (Beaconing.view i).toList.flatMap fun clock =>
    (es.filterMap Effect.beacon?).map fun p => (clock.now, p)) k is

theorem beacons_eq_sent {k k' : Kernel R Re} {is : List Input} {es : List Effect}
    (h : Machine.run reactor k is = .ok (k', es)) :
    beacons k is = (Beaconing.of k).sent (is.filterMap Beaconing.view) := by
  refine Beaconing.component.log_proj (fun k i out _ hv _ => ?_) (fun k i clock out _ hv => ?_)
    trivial h
  · have hv' : Beaconing.view i = none := hv
    simp [hv']
  · have hv' : Beaconing.view i = some clock := hv
    simp only [hv', Option.toList_some, List.flatMap_cons, List.flatMap_nil, List.append_nil]
    rfl

/-- With one tick each second, a kernel keeps the promises of its beacons exactly if it sends
none or its interval is too large for the timer. -/
theorem beacons_kept_iff {clock : Nat → Int32} {file : List UInt8} {s : Server R Re}
    (hs : Configured clock file s) :
    (∀ is k es, Beaconing.EverySecond (is.filterMap Beaconing.view) →
        Machine.run reactor (boot s) is = .ok (k, es) → Beaconing.Kept (beacons (boot s) is)) ↔
      s.config.beacon = none ∨ 32768 ≤ s.interval.sweep.toNat := by
  have hinterval := toInt_toInt16 s.interval.sweep
  have hsweep : (Beaconing.of (boot s)).sweep.interval.toInt = s.interval.sweep.toInt16.toInt := rfl
  constructor
  · intro hkept
    by_contra hcon
    obtain ⟨hbeacon, hlt⟩ := not_or.mp hcon
    have hbound : (Beaconing.of (boot s)).bound = true := Option.isSome_iff_ne_none.mpr hbeacon
    rw [if_pos (by omega)] at hinterval
    have hidle : (boot s).db.Idle := by
      refine ⟨hs.loaded.wf.states, fun κ name x hx => ?_⟩
      have hblank := hs.loaded.fresh.series κ name x hx
      exact hblank ▸ Kind.lastSeen_blank κ name _
    obtain ⟨k, es, hrun⟩ := run_idle hidle
      ((List.range' (s.interval.sweep.toNat + 1) (s.interval.sweep.toNat + 2)).map
        Beaconing.tickAt)
    have hview (cs : List Clock) : (cs.map Input.tock).filterMap Beaconing.view = cs := by
      simp [List.filterMap_map, Function.comp_def, Beaconing.view]
    have hevery := Beaconing.everySecond_tickAt (a := s.interval.sweep.toNat + 1)
      (n := s.interval.sweep.toNat + 2) (by omega)
    have hkept := hkept _ k es (by rwa [hview]) hrun
    rw [beacons_eq_sent hrun, hview, Beaconing.sent_spaced hbound (hsweep.trans hinterval) rfl]
      at hkept
    have hchain := List.isChain_pair.mp hkept
    have hfirst : (Int32.ofNat (s.interval.sweep.toNat + 1)).toInt = s.interval.sweep.toNat + 1 :=
      Int32.toInt_ofNat_of_lt (by omega)
    have hsecond : (Int32.ofNat (2 * s.interval.sweep.toNat + 2)).toInt =
        2 * s.interval.sweep.toNat + 2 := Int32.toInt_ofNat_of_lt (by omega)
    rw [Beaconing.announcement_number, hfirst, hsecond] at hchain
    have hadvertised : (Beaconing.of (boot s)).sweep.interval.toUInt16 = s.interval.sweep := rfl
    rw [hadvertised] at hchain
    omega
  · rintro (hnone | hlarge) is k es hevery hrun
    · rw [beacons_eq_sent hrun, Beaconing.sent_unbound (by simp [Beaconing.of, boot, hnone])]
      exact List.isChain_nil
    · cases hbeacon : s.config.beacon with
      | none =>
        rw [beacons_eq_sent hrun, Beaconing.sent_unbound (by simp [Beaconing.of, boot, hbeacon])]
        exact List.isChain_nil
      | some a =>
        rw [beacons_eq_sent hrun]
        refine Beaconing.kept_of_negative (by simp [Beaconing.of, boot, hbeacon]) ?_ rfl hevery
        have hwide := s.interval.sweep.toNat_lt
        rw [hsweep, hinterval, if_neg (by omega)]
        omega

end Runs

section Sweep

open Reference

/-- Beacons with the given interval. -/
def beaconEvery (interval : UInt16) : Server Int CString :=
  { defaults Int CString with
    config := { (defaults Int CString).config with beacon := some (.lit "tcp://*:2996") }
    interval := { (defaults Int CString).interval with sweep := interval } }

theorem beacons_kept_large :
    Configured epoch (CString.ascii "beacon tcp://*:2996\nsweep 40000\n") (beaconEvery 40000) ∧
      ∀ is k es, Beaconing.EverySecond (is.filterMap Beaconing.view) →
        Machine.run reactor (boot (beaconEvery 40000)) is = .ok (k, es) →
          Beaconing.Kept (beacons (boot (beaconEvery 40000)) is) := by
  have hs : Configured epoch (CString.ascii "beacon tcp://*:2996\nsweep 40000\n")
      (beaconEvery 40000) := configured (by decide +kernel)
  exact ⟨hs, (beacons_kept_iff hs).mpr (by decide)⟩

/-- Seven ticks, one each second. With an interval of five seconds the first and the last one
send a beacon. -/
theorem beacon_late :
    Configured epoch (CString.ascii "beacon tcp://*:2996\nsweep 5\n") (beaconEvery 5) ∧
      Beaconing.EverySecond ((List.range' 6 7).map Beaconing.tickAt) ∧ ∃ k es,
      Machine.run reactor (boot (beaconEvery 5))
          ((List.range' 6 7).map fun t => .tock (Beaconing.tickAt t)) = .ok (k, es) ∧
        ¬Beaconing.Kept (beacons (boot (beaconEvery 5))
          ((List.range' 6 7).map fun t => .tock (Beaconing.tickAt t))) := by
  refine ⟨configured (by decide +kernel), Beaconing.everySecond_tickAt (by decide), ?_⟩
  obtain ⟨⟨k, es⟩, hrun⟩ := exists_ok (x := Machine.run reactor (boot (beaconEvery 5))
    ((List.range' 6 7).map fun t => .tock (Beaconing.tickAt t))) (by decide +kernel)
  have hsent : beacons (boot (beaconEvery 5))
      ((List.range' 6 7).map fun t => .tock (Beaconing.tickAt t)) =
        [(6, pdu .beacon ["0", "5000"]), (12, pdu .beacon ["0", "5000"])] := by decide +kernel
  refine ⟨k, es, hrun, fun hkept => ?_⟩
  rw [hsent] at hkept
  exact absurd (List.isChain_pair.mp hkept) (by decide +kernel)

end Sweep

end Bolo
