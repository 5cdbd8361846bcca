import Bolo.Data.Types
import Bolo.Library.Machine
import Mathlib.Algebra.Order.Floor.Ring
import Mathlib.Data.Rat.Floor
import Mathlib.Tactic.Linarith

/-!
# Beacons, on the side of the agent

`beacon_ping` of `dbolo` reads the BEACONs that the aggregator has sent, and sets the time at
which the next is missed. `beacon_timer` compares it with the clock in every pass of the main
loop, and reconnects, or sleeps if it has reconnected too often.

The deadline is a product with a `float`, which is taken to be exact here. The quotient of the
two clocks in it is one of integers. What libvigor keeps of a heartbeat, and what it does on a
ping and a miss, are parameters.
-/
namespace Bolo.Dbolo

open Library

/-- `hb_t`: the fields that are set here, and the others. -/
structure Hb (H : Type) where
  interval : UInt32
  backoff : ℚ
  rest : H

/-- `hb_ping` and `hb_miss`. -/
structure Vigor (H : Type) where
  ping : Hb H → Hb H
  miss : Hb H → Hb H × Int32

/-- `bsocket_t`, without its connection. -/
structure Beacon (H : Type) where
  expires : UInt64
  reconnects : Int32
  hb : Hb H

variable {H : Type}

/-- The conversion of a number to `uint64_t`. -/
def floatToUInt64 (x : ℚ) : Except Fault UInt64 :=
  if -1 < x ∧ x < 2 ^ 64 then .ok (.ofNat ⌊x⌋.toNat) else .error .outOfBounds

/-- A BEACON. `now` is the clock at the start of `beacon_ping`, `now'` the clock when the
deadline is computed. -/
def receiveBeacon (v : Vigor H) (now now' : UInt64) (s : Beacon H) (p : Pdu) :
    Except Fault (Beacon H) := do
  let ts := strtoul (← deref (p.string 1))
  let interval := (strtol (← deref (p.string 2))).toUInt64.toUInt32
  if now = 0 then .error .divByZero
  else
    let latency : ℚ := (2 - ts / now).toNat
    let hb := { s.hb with interval := interval, backoff := latency }
    let expires ← floatToUInt64 (latency * (interval.toUInt64 + now').toNat)
    return { expires := expires
             reconnects := if 0 < s.reconnects then s.reconnects - 1 else s.reconnects
             hb := v.ping hb }

/-- The loop of `beacon_ping`, over what is received and the clock at each. -/
def beaconPing (v : Vigor H) (now : UInt64) (s : Beacon H) (received : List (Pdu × UInt64)) :
    Except Fault (Beacon H) :=
  received.foldlM (fun s r =>
    if r.1.type = Tag.beacon.text then receiveBeacon v now r.2 s r.1 else .ok s) s

inductive Action where
  | reconnect | close | connect | sleep
  deriving DecidableEq

/-- The loop of `beacon_timer`: the socket is closed and connected until that succeeds. -/
def redial : List Int32 → List Action
  | [] => []
  | rc :: rcs => .close :: .connect :: if 0 < rc then redial rcs else []

/-- `beacon_timer`. `limit` is the option `reconnects`, `rcs` the results of three connects. -/
def beaconTimer (v : Vigor H) (limit : Int32) (rcs : Int32 × Int32 × Int32) (s : Beacon H)
    (now : UInt64) : Beacon H × List Action :=
  if s.expires < now then
    let r := v.miss s.hb
    let s := { s with expires := s.expires + s.hb.interval.toUInt64, hb := r.1 }
    if r.2 = 0 then
      if s.reconnects < limit then
        ({ s with reconnects := s.reconnects + 2 },
          .reconnect :: redial [rcs.1, rcs.2.1, rcs.2.2])
      else ({ s with reconnects := 0 }, [.sleep])
    else (s, [])
  else (s, [])

/-! ## The arithmetic -/

theorem floatToUInt64_natCast (n : Nat) : floatToUInt64 (n : ℚ) =
    if n < 2 ^ 64 then .ok (.ofNat n) else .error .outOfBounds := by
  have hlow : (-1 : ℚ) < n := by linarith [Nat.cast_nonneg (α := ℚ) n]
  have hhigh : (n : ℚ) < 2 ^ 64 ↔ n < 2 ^ 64 := by exact_mod_cast Iff.rfl
  simp only [floatToUInt64, hlow, true_and, hhigh, Int.floor_natCast, Int.toNat_natCast]

/-- The quotient of the clocks is 0 unless they are equal. -/
theorem latency_eq {ts now : UInt64} (hts : ts ≤ now) (hnow : now ≠ 0) :
    (2 - ts / now).toNat = if ts = now then 1 else 2 := by
  split
  · case isTrue heq =>
    have hpos : 0 < now.toNat := Nat.pos_of_ne_zero fun h => hnow (UInt64.toNat_inj.mp h)
    have hone : ts / now = 1 := by
      rw [heq, ← UInt64.toNat_inj, UInt64.toNat_div, Nat.div_self hpos]
      rfl
    rw [hone]
    rfl
  · case isFalse hne =>
    have hlt : ts.toNat < now.toNat := lt_of_le_of_ne (UInt64.le_iff_toNat_le.mp hts)
      fun h => hne (UInt64.toNat_inj.mp h)
    have hzero : ts / now = 0 := by
      rw [← UInt64.toNat_inj, UInt64.toNat_div, Nat.div_eq_of_lt hlt]
      rfl
    rw [hzero]
    rfl

theorem toNat_interval {st : CString} {I : Nat} (hI : (strtol st).toInt = I) :
    (strtol st).toUInt64.toUInt32.toNat = I % 2 ^ 32 := by
  have hx : (strtol st).toInt = (strtol st).toUInt64.toBitVec.toInt := rfl
  have hnat : (strtol st).toUInt64.toNat = (strtol st).toUInt64.toBitVec.toNat := rfl
  have hlt := (strtol st).toUInt64.toBitVec.isLt
  rw [hx, BitVec.toInt_eq_toNat_cond] at hI
  rw [UInt64.toNat_toUInt32, hnat]
  split at hI <;> omega

/-! ## The deadline -/

/-- The deadline of a BEACON that was sent at `ts`, before the product is cut to 64 bits. -/
def deadline (ts now now' : UInt64) (I : Nat) : Nat :=
  (if ts = now then 1 else 2) * ((I % 2 ^ 32 + now'.toNat) % 2 ^ 64)

theorem receiveBeacon_expires (v : Vigor H) {now : UInt64} (now' : UInt64) (s : Beacon H) {p : Pdu}
    {st₁ st₂ : CString} {rest : List CString} (hframes : p.frames = st₁ :: st₂ :: rest) {I : Nat}
    (hI : (strtol st₂).toInt = I) (hts : strtoul st₁ ≤ now) (hnow : now ≠ 0) :
    (receiveBeacon v now now' s p).map Beacon.expires =
      if deadline (strtoul st₁) now now' I < 2 ^ 64
      then .ok (.ofNat (deadline (strtoul st₁) now now' I)) else .error .outOfBounds := by
  have hone : p.string 1 = some st₁ := by simp [Pdu.string, hframes]
  have htwo : p.string 2 = some st₂ := by simp [Pdu.string, hframes]
  have hsum : ((strtol st₂).toUInt64.toUInt32.toUInt64 + now').toNat =
      (I % 2 ^ 32 + now'.toNat) % 2 ^ 64 := by
    rw [UInt64.toNat_add, UInt32.toNat_toUInt64, toNat_interval hI]
  have hcast : ((2 - strtoul st₁ / now).toNat : ℚ) *
      (((strtol st₂).toUInt64.toUInt32.toUInt64 + now').toNat : ℚ) =
        (deadline (strtoul st₁) now now' I : Nat) := by
    rw [hsum, latency_eq hts hnow, deadline, Nat.cast_mul]
  simp only [receiveBeacon, hone, htwo, deref_some, ok_bind, if_neg hnow, hcast,
    floatToUInt64_natCast]
  split <;> rfl

theorem receiveBeacon_zero (v : Vigor H) (now' : UInt64) (s : Beacon H) {p : Pdu}
    {st₁ st₂ : CString} {rest : List CString} (hframes : p.frames = st₁ :: st₂ :: rest) :
    receiveBeacon v 0 now' s p = .error .divByZero := by
  have hone : p.string 1 = some st₁ := by simp [Pdu.string, hframes]
  have htwo : p.string 2 = some st₂ := by simp [Pdu.string, hframes]
  simp only [receiveBeacon, hone, htwo, deref_some, ok_bind, if_true]

theorem beaconPing_append (v : Vigor H) {now : UInt64} (now' : UInt64) {s s₁ : Beacon H}
    {before : List (Pdu × UInt64)} (hbefore : beaconPing v now s before = .ok s₁) {p : Pdu}
    (htype : p.type = Tag.beacon.text) :
    beaconPing v now s (before ++ [(p, now')]) = receiveBeacon v now now' s₁ p := by
  rw [beaconPing, List.foldlM_append]
  change (beaconPing v now s before >>= _) = _
  rw [hbefore, ok_bind, List.foldlM_cons, if_pos htype]
  exact bind_pure _

/-- When the product is a deadline that fits and is in time. -/
theorem deadline_bounds_iff {ts now : UInt64} (now' : UInt64) {I : Nat} (hts : ts ≤ now)
    (hle : I ≤ now.toNat) :
    (deadline ts now now' I < 2 ^ 64 ∧ now.toNat + I ≤ deadline ts now now' I ∧
      deadline ts now now' I ≤ now.toNat + I + 2 * (now.toNat - ts.toNat)) ↔
      (ts = now ∧ I % 2 ^ 32 + now'.toNat = now.toNat + I ∧ now.toNat + I < 2 ^ 64 ∨
        ts < now ∧ now.toNat + I ≤ 2 * (I % 2 ^ 32 + now'.toNat) ∧
          2 * (I % 2 ^ 32 + now'.toNat) + 2 * ts.toNat ≤ 3 * now.toNat + I ∧
          I % 2 ^ 32 + now'.toNat < 2 ^ 63) := by
  have hlt' := now'.toNat_lt
  have hle' := UInt64.le_iff_toNat_le.mp hts
  simp only [deadline, UInt64.lt_iff_toNat_lt, ← UInt64.toNat_inj]
  split <;> omega

/-- The deadline lies between one interval from now and that plus twice the time that the BEACON
took. -/
def InTime (ts now : UInt64) (I : Nat) (s : Beacon H) : Prop :=
  now.toNat + I ≤ s.expires.toNat ∧ s.expires.toNat ≤ now.toNat + I + 2 * (now.toNat - ts.toNat)

theorem receiveBeacon_inTime_iff (v : Vigor H) {now : UInt64} (now' : UInt64) (s : Beacon H)
    {p : Pdu} {st₁ st₂ : CString} {rest : List CString} (hframes : p.frames = st₁ :: st₂ :: rest)
    {I : Nat} (hI : (strtol st₂).toInt = I) (hts : strtoul st₁ ≤ now) (hnow : now ≠ 0) :
    (∃ s', receiveBeacon v now now' s p = .ok s' ∧ InTime (strtoul st₁) now I s') ↔
      deadline (strtoul st₁) now now' I < 2 ^ 64 ∧
      now.toNat + I ≤ deadline (strtoul st₁) now now' I ∧
      deadline (strtoul st₁) now now' I ≤
        now.toNat + I + 2 * (now.toNat - (strtoul st₁).toNat) := by
  have hexp := receiveBeacon_expires v now' s hframes hI hts hnow
  by_cases hfits : deadline (strtoul st₁) now now' I < 2 ^ 64
  · rw [if_pos hfits] at hexp
    cases hbeacon : receiveBeacon v now now' s p with
    | error e => simp [hbeacon, Except.map] at hexp
    | ok s' =>
      have htoNat : s'.expires.toNat = deadline (strtoul st₁) now now' I := by
        rw [hbeacon] at hexp
        rw [show s'.expires = _ from Except.ok.inj hexp]
        exact UInt64.toNat_ofNat_of_lt' hfits
      simp only [Except.ok.injEq, exists_eq_left', InTime, htoNat, hfits, true_and]
  · rw [if_neg hfits] at hexp
    refine iff_of_false ?_ fun h => hfits h.1
    rintro ⟨s', hs', -⟩
    simp [hs', Except.map] at hexp

/-- A BEACON sets the deadline that its latency asks for only if it took no time, or so long that
twice the clock is not too late. -/
theorem deadline_inTime_iff (v : Vigor H) {now : UInt64} (now' : UInt64) {s s₁ : Beacon H}
    {before : List (Pdu × UInt64)} (hbefore : beaconPing v now s before = .ok s₁) {p : Pdu}
    (htype : p.type = Tag.beacon.text) {st₁ st₂ : CString} {rest : List CString}
    (hframes : p.frames = st₁ :: st₂ :: rest) {ts : UInt64} (hread : strtoul st₁ = ts) {I : Nat}
    (hI : (strtol st₂).toInt = I) (hts : ts ≤ now) (hle : I ≤ now.toNat) :
    (∃ s₂, beaconPing v now s (before ++ [(p, now')]) = .ok s₂ ∧ InTime ts now I s₂) ↔
      0 < now.toNat ∧
      (ts = now ∧ I % 2 ^ 32 + now'.toNat = now.toNat + I ∧ now.toNat + I < 2 ^ 64 ∨
        ts < now ∧ now.toNat + I ≤ 2 * (I % 2 ^ 32 + now'.toNat) ∧
          2 * (I % 2 ^ 32 + now'.toNat) + 2 * ts.toNat ≤ 3 * now.toNat + I ∧
          I % 2 ^ 32 + now'.toNat < 2 ^ 63) := by
  rw [beaconPing_append v now' hbefore htype]
  by_cases hnow : now = 0
  · subst hnow
    simp [receiveBeacon_zero v now' s₁ hframes]
  · subst hread
    have hpos : 0 < now.toNat := Nat.pos_of_ne_zero fun h => hnow (UInt64.toNat_inj.mp h)
    rw [receiveBeacon_inTime_iff v now' s₁ hframes hI hts hnow,
      deadline_bounds_iff now' hts hle, and_iff_right hpos]

/-- Pings and misses that nothing comes of. -/
def Vigor.idle : Vigor Unit := ⟨id, fun hb => (hb, 1)⟩

def Beacon.start : Beacon Unit := ⟨0, 0, ⟨0, 0, ()⟩⟩

theorem deadline_inTime_old : ∃ s₂,
    beaconPing .idle 5000 .start
      ([] ++ [(⟨Tag.beacon.text, [.lit "1000", .lit "1000"]⟩, 5000)]) = .ok s₂ ∧
    InTime 1000 5000 1000 s₂ :=
  (deadline_inTime_iff .idle 5000 rfl rfl rfl (by decide) (by decide) (by decide)
    (by decide)).mpr ⟨by decide, .inr (by decide)⟩

/-- A BEACON that took 10 ms sets a deadline at more than twice the clock. -/
theorem deadline_doubles : ∃ s₂,
    beaconPing .idle 1000000 .start
      [(⟨Tag.beacon.text, [.lit "999990", .lit "1000"]⟩, 1000000)] = .ok s₂ ∧
    s₂.expires = 2002000 ∧ ¬InTime 999990 1000000 1000 s₂ := by
  let p : Pdu := ⟨Tag.beacon.text, [.lit "999990", .lit "1000"]⟩
  have hexp : (receiveBeacon .idle 1000000 1000000 .start p).map Beacon.expires = .ok 2002000 :=
    receiveBeacon_expires .idle 1000000 .start (p := p) (I := 1000) rfl (by decide) (by decide)
      (by decide)
  have hnone : beaconPing .idle 1000000 .start [] = .ok .start := rfl
  have hping := beaconPing_append .idle 1000000 hnone (show p.type = Tag.beacon.text from rfl)
  cases hbeacon : receiveBeacon .idle 1000000 1000000 .start p with
  | error e => simp [hbeacon, Except.map] at hexp
  | ok s₂ =>
    have hexpires : s₂.expires = 2002000 := by simpa [hbeacon, Except.map] using hexp
    refine ⟨s₂, hping.trans hbeacon, hexpires, fun htime => ?_⟩
    rw [InTime, hexpires] at htime
    exact absurd htime (by decide)

/-! ## Reconnects -/

/-- What the main loop does about beacons: it reads those that have come, and it looks at the
clock. -/
inductive Signal where
  | ping (now : UInt64) (received : List (Pdu × UInt64))
  | timer (rcs : Int32 × Int32 × Int32) (now : UInt64)

def Signal.beacons : Signal → Nat
  | .ping _ received => received.countP fun r => r.1.type = Tag.beacon.text
  | .timer _ _ => 0

def watch (v : Vigor H) (limit : Int32) (s : Beacon H) :
    Signal → Except Fault (Beacon H × List Action)
  | .ping now received => do return (← beaconPing v now s received, [])
  | .timer rcs now => .ok (beaconTimer v limit rcs s now)

/-- The counter is in its range. Every reconnect so far has raised it by two, and only a BEACON or
a sleep has lowered it since. -/
structure Paid (limit : Int32) (s : Beacon H) (is : List Signal) (os : List Action) : Prop where
  nonneg : 0 ≤ s.reconnects.toInt
  le : s.reconnects.toInt ≤ limit.toInt + 1
  paid : 2 * (os.count .reconnect : Int) ≤ (limit.toInt + 1) * os.count .sleep +
    s.reconnects.toInt + (is.map Signal.beacons).sum

theorem receiveBeacon_reconnects {v : Vigor H} {now now' : UInt64} {s s' : Beacon H} {p : Pdu}
    (h : receiveBeacon v now now' s p = .ok s') (hs : 0 ≤ s.reconnects.toInt) :
    0 ≤ s'.reconnects.toInt ∧ s'.reconnects.toInt ≤ s.reconnects.toInt ∧
      s.reconnects.toInt ≤ s'.reconnects.toInt + 1 := by
  simp only [receiveBeacon, bind_eq_ok] at h
  obtain ⟨ts, -, interval, -, h⟩ := h
  split at h
  · cases h
  · obtain ⟨expires, -, h⟩ := bind_eq_ok.mp h
    obtain rfl := Except.ok.inj h
    have hone : (1 : Int32).toInt = 1 := rfl
    have hbound := s.reconnects.toInt_lt
    dsimp only
    split
    · case isTrue hpos =>
      rw [Int32.lt_iff_toInt_lt, Int32.toInt_zero] at hpos
      rw [toInt_sub_of_bounds (by omega) (by omega)]
      omega
    · omega

theorem beaconPing_reconnects {v : Vigor H} {now : UInt64} {received : List (Pdu × UInt64)}
    {s s' : Beacon H} (h : beaconPing v now s received = .ok s') (hs : 0 ≤ s.reconnects.toInt) :
    0 ≤ s'.reconnects.toInt ∧ s'.reconnects.toInt ≤ s.reconnects.toInt ∧
      s.reconnects.toInt ≤
        s'.reconnects.toInt + (received.countP fun r => r.1.type = Tag.beacon.text : Nat) := by
  induction received generalizing s with
  | nil =>
    obtain rfl := Except.ok.inj h
    simpa using hs
  | cons r received ih =>
    obtain ⟨s₁, hr, h⟩ := bind_eq_ok.mp h
    rw [List.countP_cons]
    beta_reduce at hr
    split at hr
    · case isTrue hbeacon =>
      have hstep := receiveBeacon_reconnects hr hs
      have hrest := ih h hstep.1
      simp only [hbeacon, decide_true, if_true]
      omega
    · case isFalse hother =>
      obtain rfl := Except.ok.inj hr
      simpa [hother] using ih h hs

/-- The redials are neither reconnects nor sleeps. -/
theorem count_redial {a : Action} (ha : a = .reconnect ∨ a = .sleep) (rcs : List Int32) :
    (redial rcs).count a = 0 := by
  induction rcs with
  | nil => rfl
  | cons rc rcs ih =>
    rcases ha with rfl | rfl <;> unfold redial <;> split <;> simp [ih]

theorem Paid.ping {v : Vigor H} {limit : Int32} {s s' : Beacon H} {is : List Signal}
    {os : List Action} (h : Paid limit s is os) {now : UInt64} {received : List (Pdu × UInt64)}
    (hping : beaconPing v now s received = .ok s') :
    Paid limit s' (is ++ [.ping now received]) (os ++ []) := by
  obtain ⟨hnonneg, hle, hgap⟩ := beaconPing_reconnects hping h.nonneg
  have hpaid := h.paid
  refine ⟨hnonneg, hle.trans h.le, ?_⟩
  rw [List.append_nil, List.map_append, List.sum_append]
  generalize (is.map Signal.beacons).sum = heard at hpaid ⊢
  simp only [List.map_cons, List.map_nil, List.sum_singleton, Signal.beacons, Nat.cast_add]
  linarith

theorem Paid.timer {v : Vigor H} {limit : Int32} {s : Beacon H} {is : List Signal}
    {os : List Action} (h : Paid limit s is os) (hlimit : 0 ≤ limit.toInt)
    (hmax : limit.toInt < 2 ^ 31 - 2) (rcs : Int32 × Int32 × Int32) (now : UInt64) :
    Paid limit (beaconTimer v limit rcs s now).1 (is ++ [.timer rcs now])
      (os ++ (beaconTimer v limit rcs s now).2) := by
  obtain ⟨hnonneg, hle, hpaid⟩ := h
  have hsum : ((is ++ [Signal.timer rcs now]).map Signal.beacons).sum =
      (is.map Signal.beacons).sum := by
    simp [Signal.beacons]
  unfold beaconTimer
  split
  · dsimp only
    split
    · split
      · case isTrue hmore =>
        rw [Int32.lt_iff_toInt_lt] at hmore
        have htwo : (2 : Int32).toInt = 2 := rfl
        have hnext : (s.reconnects + 2).toInt = s.reconnects.toInt + 2 := by
          rw [toInt_add_of_bounds (by omega) (by omega), htwo]
        refine ⟨by dsimp only; omega, by dsimp only; omega, ?_⟩
        rw [hsum, List.count_append, List.count_append, List.count_cons, List.count_cons,
          count_redial (.inl rfl), count_redial (.inr rfl)]
        generalize (is.map Signal.beacons).sum = heard at hpaid ⊢
        simp only [beq_self_eq_true, if_true, reduceCtorEq, beq_iff_eq, if_false, hnext]
        push_cast
        linarith
      · refine ⟨le_rfl, by simpa using hlimit.trans (by omega), ?_⟩
        rw [hsum, List.count_append, List.count_append]
        generalize (is.map Signal.beacons).sum = heard at hpaid ⊢
        simp only [List.count_singleton, beq_iff_eq, reduceCtorEq, if_false, if_true,
          Int32.toInt_zero]
        push_cast
        linarith
    · exact ⟨hnonneg, hle, by rwa [hsum, List.append_nil]⟩
  · exact ⟨hnonneg, hle, by rwa [hsum, List.append_nil]⟩

/-- Beacons and calls of the timer in any order: each reconnect beyond the limit is paid for, by
BEACONs or by a sleep of a quarter of an hour. -/
theorem reconnects_paid {v : Vigor H} {limit : Int32} (hlimit : 0 ≤ limit.toInt)
    (hmax : limit.toInt < 2 ^ 31 - 2) {s s' : Beacon H} (hs : s.reconnects = 0)
    {is : List Signal} {os : List Action} (hrun : Machine.run (watch v limit) s is = .ok (s', os)) :
    2 * (os.count .reconnect : Int) ≤
      (limit.toInt + 1) * (os.count .sleep + 1) + (is.map Signal.beacons).sum := by
  have hstart : Paid limit s [] [] := by
    rw [← Int32.toInt_inj, Int32.toInt_zero] at hs
    exact ⟨hs.ge, by omega, by simp [hs]⟩
  have hend : Paid limit s' ([] ++ is) ([] ++ os) := by
    refine Machine.run_relates (Q := fun _ _ => True) (fun s i s' is os out h _ hstep => ?_)
      hstart (.of_forall fun _ _ => trivial) hrun
    cases i with
    | timer rcs now =>
      obtain ⟨rfl, rfl⟩ := Prod.mk.inj (Except.ok.inj hstep)
      exact h.timer hlimit hmax rcs now
    | ping now received =>
      obtain ⟨s₁, hping, hstep⟩ := bind_eq_ok.mp hstep
      obtain ⟨rfl, rfl⟩ := Prod.mk.inj (Except.ok.inj hstep)
      exact h.ping hping
  have hle := hend.le
  have hpaid := hend.paid
  rw [List.nil_append, List.nil_append] at hpaid
  generalize (is.map Signal.beacons).sum = heard at hpaid ⊢
  linarith

end Bolo.Dbolo
