import Bolo.Data.Points
import Bolo.Library.Machine

/-!
# Events and keys

The event buffer, trimmed from its head by number or by age, and the key store, where a
deleted key keeps an entry with a NULL value.
-/
namespace Bolo

open Library

variable {R Re : Type}

/-! ## Events -/

def broadcastEvent (ev : Event) : Except Fault Pdu := do
  let name ← deref ev.name
  let extra ← deref ev.extra
  return { type := Tag.event.text, frames := [decimalInt ev.timestamp.toInt, name, extra] }

/-- Free list heads while the count exceeds `max`. Taking the head of an empty list is
undefined. -/
def trimNumber (max : Int32) : Int32 → List Event → Except Fault (Int32 × List Event)
  | count, [] => if max < count then .error .outOfBounds else .ok (count, [])
  | count, e :: es => if max < count then trimNumber max (count - 1) es else .ok (count, e :: es)

/-- Free list heads up to the first event newer than `cut`; the loop has no other exit. -/
def trimTime (cut : Int32) : Int32 → List Event → Except Fault (Int32 × List Event)
  | _, [] => .error .outOfBounds
  | count, e :: es =>
    if cut < e.timestamp then .ok (count, e :: es) else trimTime cut (count - 1) es

def bufferEvent (db : Db R Re) (ev : Event) (max : Int32) (keep : EventsKeep) :
    Except Fault (Db R Re) :=
  if 0 < max then do
    let events := db.events ++ [ev]
    let count := db.eventsCount + 1
    let (count, events) ← match keep with
      | .number => trimNumber max count events
      | .time => trimTime (ev.timestamp - max) count events
    return { db with events := events, eventsCount := count }
  else .ok db

/-- `[ EVENT | ts | name | description ]` -/
def receiveEvent (config : Config) (db : Db R Re) (p : Pdu) :
    Except Fault (Db R Re × List Pdu) := do
  let ts ← deref (p.string 1)
  let ev : Event :=
    { timestamp := (strtol ts).toInt32, name := p.string 2, extra := p.string 3 }
  let out ← broadcastEvent ev
  let db ← bufferEvent db ev config.eventsMax config.eventsKeep
  return (db, [out])

/-! ## Keys -/

/-- `[ SET.KEYS | (key|value)+ ]`, with an even number of frames after the type. -/
def setKeys [HashOrder] (keys : Table CString (Option CString)) :
    List CString → Table CString (Option CString)
  | key :: value :: rest => setKeys (hashSet keys key (some value)) rest
  | _ => keys

def delKeys [HashOrder] (keys : Table CString (Option CString)) (names : List CString) :
    Table CString (Option CString) :=
  names.foldl (fun keys key => hashSet keys key none) keys

/-- The loop of `broadcast_setkeys`: `acc` and `n` are the PDU under construction and the
number of pairs in it. -/
def setKeysChunks (acc : List CString) (n : Nat) :
    List (CString × Option CString) → List (List CString)
  | [] => if 0 < n then [acc] else []
  | (_, none) :: rest => setKeysChunks acc n rest
  | (key, some value) :: rest =>
    if n + 1 = 30 then (acc ++ [key, value]) :: setKeysChunks [] 0 rest
    else setKeysChunks (acc ++ [key, value]) (n + 1) rest

def broadcastSetkeys (keys : Table CString (Option CString)) : List Pdu :=
  (setKeysChunks [] 0 keys.entries).map fun frames =>
    { type := Tag.setKeys.text, frames := frames }

/-- The loop of `save_keys`: `io` and `n` are the text so far and the number of keys in it. -/
def saveKeysLines (io : CString) (n : UInt64) :
    List (CString × Option CString) → CString × UInt64
  | [] => (io, n)
  | (_, none) :: rest => saveKeysLines io n rest
  | (key, some value) :: rest =>
    saveKeysLines (io ++ key ++ .lit " = " ++ value ++ .lit "\n") (n + 1) rest

/-- The file that `save_keys` writes when `time_ms()` is `ms`. -/
def saveKeys (ms : UInt64) (keys : Table CString (Option CString)) : CString :=
  let (io, n) := saveKeysLines (.lit "# generated " ++ decimal ms.toNat ++ .lit "\n") 0 keys.entries
  io ++ .lit "# " ++ decimal n.toNat ++ .lit " keys\n"

end Bolo
