import Bolo.Data.Points
import Bolo.Library.Machine

/-!
# States

The STATE handler and the freshness sweep, with the two messages they announce a record
by. Both decide from the record as it was whether the update is a transition, then write
the record, then broadcast it as it is.
-/
namespace Bolo

open Library

variable {R Re : Type}

def statstr (s : UInt8) : CString :=
  if s = 0 then .lit "OK" else if s = 1 then .lit "WARNING" else if s = 2 then .lit "CRITICAL"
  else .lit "UNKNOWN"

def freshstr (stale : UInt8) : CString := if stale ≠ 0 then .lit "stale" else .lit "fresh"

/-- The frames that a STATE and a TRANSITION of one record share. -/
def stateFrames (s : State) : Except Fault (List CString) := do
  let name ← deref s.name
  let summary ← deref s.summary
  return [name, decimalInt s.lastSeen.toInt, freshstr s.stale, statstr s.status, summary]

def broadcastState (s : State) : Except Fault Pdu := do
  return { type := Tag.state.text, frames := ← stateFrames s }

def broadcastTransition (s : State) : Except Fault Pdu := do
  return { type := Tag.transition.text, frames := ← stateFrames s }

def announce (transition : Bool) (s : State) : Except Fault (List Pdu) :=
  if transition then do
    let t ← broadcastTransition s
    let p ← broadcastState s
    return [t, p]
  else do
    let p ← broadcastState s
    return [p]

/-! ## Submissions -/

/-- `[ STATE | ts | name | code | message ]`; name and message must not be empty. -/
def decodeState (p : Pdu) : Option (CString × UInt32 × UInt8 × CString) := do
  let ts ← p.string 1
  let code ← p.string 3
  let name ← p.string 2
  let msg ← p.string 4
  if name.isEmpty || msg.isEmpty then none
  else some (name, (strtoul ts).toUInt32, (atoi code).toUInt32.toUInt8, msg)

/-- An empty message is not accepted. -/
theorem decodeState_msg {p : Pdu} {name msg : CString} {ts : UInt32} {code : UInt8}
    (h : decodeState p = some (name, ts, code, msg)) : msg.bytes ≠ [] := by
  simp only [decodeState, Option.bind_eq_bind, Option.bind_eq_some_iff] at h
  obtain ⟨_, -, _, -, name', -, msg', -, h⟩ := h
  split at h
  · simp at h
  · case isFalse hempty =>
      simp only [Option.some.injEq, Prod.mk.injEq] at h
      obtain ⟨-, -, -, rfl⟩ := h
      simp only [Bool.or_eq_true, not_or, CString.isEmpty, List.isEmpty_iff] at hempty
      exact hempty.2

def expiryAt (ts : UInt32) (type : TypeDef) : Int32 :=
  (ts + UInt32.ofNat type.freshness.toNat).toInt32

/-- An accepted update of a record. -/
def updateState (s : State) (ts : UInt32) (code : UInt8) (msg : CString) :
    Except Fault (State × List Pdu) := do
  let transition := s.stale ≠ 0 || s.status ≠ code
  let type ← deref s.type
  let s' := { s with
    status := code, summary := some msg, lastSeen := ts.toInt32, expiry := expiryAt ts type,
    stale := 0 }
  let out ← announce transition s'
  return (s', out)

def receiveState [Pcre Re] [HashOrder] (now : Int32) (db : Db R Re) (p : Pdu) :
    Except Fault (Db R Re × List Pdu) :=
  match decodeState p with
  | none => .ok (db, [])
  | some (name, ts, code, msg) => do
    match ← findState now db name with
    | none => return (db, [])
    | some (s, db') =>
      if s.ignore = 0 then
        let (s', out) ← updateState s ts code msg
        return ({ db' with states := hashSet db'.states name s' }, out)
      else return (db', [])

/-! ## The freshness sweep -/

/-- One record of the sweep: expired and not ignored, it takes on the type's status. -/
def markStale (now : Int32) (s : State) : Except Fault (State × List Pdu) :=
  if now < s.expiry ∨ s.ignore ≠ 0 then .ok (s, [])
  else do
    let type ← deref s.type
    let transition := s.stale = 0 || s.status ≠ type.status
    let summary ← deref type.summary
    let s' := { s with
      stale := 1, expiry := now + Int32.ofNat type.freshness.toNat, status := type.status,
      summary := some summary }
    let out ← announce transition s'
    return (s', out)

def checkFreshness (now : Int32) (db : Db R Re) : Except Fault (Db R Re × List Pdu) := do
  let (t, out) ← db.states.sweep (markStale now)
  return ({ db with states := t }, out)

end Bolo
