import Bolo.Kernel.Series
import Bolo.Kernel.Management

/-!
# The kernel reactor

`reactor` is `_kernel_reactor`: one message from the scheduler, the listener or the
management socket. The control socket only ends a run, so a run is any finite sequence of
the other three.

`time_s()` is read once for a tick and again by the freshness sweep, so a tick carries
both readings. `boot` is the state in which `core_kernel_thread` starts the reactor,
before it looks for a save file: every timer is zero, and only two of the four intervals
are ever set.
-/
namespace Bolo

open Library

structure Timer where
  last : Int32
  interval : Int16
  deriving DecidableEq

def Timer.due (t : Timer) (now : Int32) : Bool := t.last + t.interval.toInt32 < now

structure Kernel (R Re : Type) where
  server : Server R Re
  freshness : Timer
  savestate : Timer
  tick : Timer
  sweep : Timer

variable {R Re : Type}

def Kernel.db (k : Kernel R Re) : Db R Re := k.server.db

def Kernel.setDb (k : Kernel R Re) (db : Db R Re) : Kernel R Re :=
  { k with server := { k.server with db := db } }

def boot (s : Server R Re) : Kernel R Re where
  server := s
  freshness := ⟨0, 0⟩
  savestate := ⟨0, s.interval.savestate.toInt16⟩
  tick := ⟨0, 0⟩
  sweep := ⟨0, s.interval.sweep.toInt16⟩

/-- The clock readings of one tick: the reactor's, the sweep's, and the beacon's. -/
structure Clock where
  now : Int32
  sweep : Int32
  ms : UInt64
  deriving DecidableEq

inductive Input where
  | tock (clock : Clock)
  | listener (now : Int32) (p : Pdu)
  | management (p : Pdu)
  deriving DecidableEq

/-! ## Ticks -/

section Tick

variable [Double R]

/-- Close the windows that ended more than a grace period ago. -/
def closeWindows (now : Int32) (k : Kernel R Re) : Except Fault (Kernel R Re × List Pdu) :=
  if k.tick.due now then do
    let ts := now - k.server.config.gracePeriod
    let (db, a) ← counterSeries.tick ts k.db
    let (db, b) ← sampleSeries.tick ts db
    let (db, c) ← rateSeries.tick ts db
    return ({ k.setDb db with tick := { k.tick with last := now } }, a ++ b ++ c)
  else .ok (k, [])

omit [Double R] in
def beaconSweep (clock : Clock) (k : Kernel R Re) : Kernel R Re × List Effect :=
  if k.server.config.beacon.isSome ∧ k.sweep.due clock.now then
    ({ k with sweep := { k.sweep with last := clock.now } },
      [.beacon { type := Tag.beacon.text, frames :=
        [decimal clock.ms.toNat, decimal (k.sweep.interval.toUInt16.toNat * 1000)] }])
  else (k, [])

omit [Double R] in
def sweepFreshness (clock : Clock) (k : Kernel R Re) :
    Except Fault (Kernel R Re × List Pdu) :=
  if k.freshness.due clock.now then do
    let (db, out) ← checkFreshness clock.sweep k.db
    return ({ k.setDb db with freshness := { k.freshness with last := clock.now } }, out)
  else .ok (k, [])

omit [Double R] in
def saveState (now : Int32) (k : Kernel R Re) : Kernel R Re × List Effect :=
  if k.savestate.due now then
    ({ k with savestate := { k.savestate with last := now } },
      (broadcastSetkeys k.server.keys).map .broadcast ++ [.binfWrite, .saveKeys])
  else (k, [])

def tock (clock : Clock) (k : Kernel R Re) : Except Fault (Kernel R Re × List Effect) := do
  let (k, closed) ← closeWindows clock.now k
  let (k, beacons) := beaconSweep clock k
  let (k, swept) ← sweepFreshness clock k
  let (k, saved) := saveState clock.now k
  return (k, closed.map .broadcast ++ beacons ++ swept.map .broadcast ++ saved)

end Tick

/-! ## Submissions -/

variable [Double R] [Pcre Re] [HashOrder]

def listen (now : Int32) (p : Pdu) (k : Kernel R Re) :
    Except Fault (Kernel R Re × List Effect) :=
  let update (r : Except Fault (Db R Re × List Pdu)) : Except Fault (Kernel R Re × List Effect) :=
    do
      let (db, out) ← r
      return (k.setDb db, out.map .broadcast)
  if p.is .state 5 5 then update (receiveState now k.db p)
  else if p.is .counter 4 4 then update (counterSeries.receive k.db p)
  else if p.is .sample 4 0 then update (sampleSeries.receive k.db p)
  else if p.is .rate 4 4 then update (rateSeries.receive k.db p)
  else if p.is .event 4 4 then update (receiveEvent k.server.config k.db p)
  else if p.is .setKeys 3 0 && (p.size - 1) % 2 = 0 then
    .ok ({ k with server := { k.server with keys := setKeys k.server.keys p.frames } }, [])
  else .ok (k, [])

def reactor (k : Kernel R Re) : Input → Except Fault (Kernel R Re × List Effect)
  | .tock clock => tock clock k
  | .listener now p => listen now p k
  | .management p => do
    let (s, out) ← manage k.server p
    return ({ k with server := s }, out)

end Bolo
