import Bolo.Kernel.States
import Bolo.Kernel.Events

/-!
# The management socket

Queries about states, keys and events, and FORGET. A request that no branch takes gets no
reply.
-/
namespace Bolo

open Library

variable {R Re : Type}

/-- What the kernel sends and which files it writes. The two save effects stand for calls
on the database and the key store as they are after the step. -/
inductive Effect where
  | broadcast (p : Pdu)
  | beacon (p : Pdu)
  | reply (p : Pdu)
  | binfWrite
  | binfSync
  | saveKeys
  deriving DecidableEq

def reply (tag : Tag) (frames : List CString) : Effect :=
  .reply { type := tag.text, frames := frames }

/-! ## Queries -/

def PAGE_SIZE : Nat := 4096

/-- A temporary file, mapped and taken for a C string. The rest of its last page reads as
zeros, but a text that fills its last page has no terminator. -/
def mappedString (text : CString) : Except Fault CString :=
  if text.length % PAGE_SIZE = 0 then .error .outOfBounds else .ok text

def replyState (db : Db R Re) (name : CString) : Except Fault Effect :=
  match db.states.get? name with
  | none => .ok (reply .error [.lit "State Not Found"])
  | some s => do
    let summary ← deref s.summary
    return reply .state [name, decimalInt s.lastSeen.toInt, freshstr s.stale, statstr s.status,
      summary]

def dumpState (name : CString) (s : State) : Except Fault CString := do
  let summary ← deref s.summary
  return name ++ .lit ":\n" ++
    .lit "  status:    " ++ statstr s.status ++ .lit "\n" ++
    .lit "  message:   " ++ summary ++ .lit "\n" ++
    .lit "  last_seen: " ++ decimalInt s.lastSeen.toInt ++ .lit "\n" ++
    .lit "  fresh:     " ++ .lit (if s.stale ≠ 0 then "no" else "yes") ++ .lit "\n"

def replyDump (db : Db R Re) : Except Fault Effect := do
  let parts ← db.states.entries.mapM fun (name, s) => dumpState name s
  return reply .dump [← mappedString (parts.foldl (· ++ ·) (.lit "---\n# generated by bolo\n"))]

def replyKeys (keys : Table CString (Option CString)) (names : List CString) : Effect :=
  reply .values (names.flatMap fun key =>
    match keys.get? key with
    | some (some value) => [key, value]
    | _ => [])

/-- The loop looks at every key of the table, deleted or not. -/
def replySearch [Pcre Re] (keys : Table CString (Option CString)) (re : Re) : Effect :=
  reply .keys ((keys.entries.map Prod.fst).filter fun key => Pcre.exec re key)

def dumpEvent (ev : Event) : Except Fault CString := do
  let name ← deref ev.name
  let extra ← deref ev.extra
  return .lit "- name:  " ++ name ++ .lit "\n" ++
    .lit "  when:  " ++ decimalInt ev.timestamp.toInt ++ .lit "\n" ++
    .lit "  extra: " ++ extra ++ .lit "\n"

def replyEvents (db : Db R Re) (since : Int32) : Except Fault Effect := do
  let parts ← (db.events.filter fun ev => since ≤ ev.timestamp).mapM dumpEvent
  return reply .events [← mappedString (parts.foldl (· ++ ·) (.lit "---\n# generated by bolo\n"))]

/-! ## FORGET -/

/-- Datapoints whose name matches are dropped, or marked when `ignore` is set. -/
def forgetTable [Pcre Re] {α : Type} (re : Re) (ignore : UInt8) (mark : α → α)
    (t : Table CString α) : Table CString α :=
  if ignore ≠ 0 then t.mapValues fun name x => if Pcre.exec re name then mark x else x
  else t.filter fun name => !Pcre.exec re name

def forget [Pcre Re] (payload : UInt16) (re : Re) (ignore : UInt8) (db : Db R Re) : Db R Re :=
  { db with
    states := if payload &&& PAYLOAD_STATE ≠ 0 then
        forgetTable re ignore (fun x => { x with ignore := 1 }) db.states else db.states
    counters := if payload &&& PAYLOAD_COUNTER ≠ 0 then
        forgetTable re ignore (fun x => { x with ignore := 1 }) db.counters else db.counters
    samples := if payload &&& PAYLOAD_SAMPLE ≠ 0 then
        forgetTable re ignore (fun x => { x with ignore := 1 }) db.samples else db.samples
    rates := if payload &&& PAYLOAD_RATE ≠ 0 then
        forgetTable re ignore (fun x => { x with ignore := 1 }) db.rates else db.rates }

def receiveForget [Pcre Re] (db : Db R Re) (payload pattern ignore : CString) :
    Db R Re × Effect :=
  match (Pcre.compile pattern : Except CString Re) with
  | .error e => (db, reply .error [e])
  | .ok re => (forget (strtoul payload).toUInt16 re (strtoul ignore).toUInt8 db, reply .ok [])

/-! ## Dispatch -/

def manage [Pcre Re] [HashOrder] (s : Server R Re) (p : Pdu) :
    Except Fault (Server R Re × List Effect) :=
  if p.is .state 2 2 then do
    let name ← deref (p.string 1)
    return (s, [← replyState s.db name])
  else if p.is .dump 1 1 then do
    return (s, [← replyDump s.db])
  else if p.is .getKeys 2 0 then
    .ok (s, [replyKeys s.keys p.frames])
  else if p.is .delKeys 2 0 then
    .ok ({ s with keys := delKeys s.keys p.frames }, [reply .ok []])
  else if p.is .searchKeys 2 2 then do
    let pattern ← deref (p.string 1)
    match (Pcre.compile pattern : Except CString Re) with
    | .error e => return (s, [reply .error [e]])
    | .ok re => return (s, [replySearch s.keys re])
  else if p.is .getEvents 2 2 then do
    let since ← deref (p.string 1)
    return (s, [← replyEvents s.db (strtol since).toInt32])
  else if p.is .savestate 1 1 then
    .ok (s, [.binfWrite, .binfSync, .saveKeys, reply .ok []])
  else if p.is .forget 4 4 then do
    let payload ← deref (p.string 1)
    let ignore ← deref (p.string 3)
    let pattern ← deref (p.string 2)
    let (db, out) := receiveForget s.db payload pattern ignore
    return ({ s with db := db }, [out])
  else .ok (s, [])

end Bolo
