import Bolo.Kernel.Series
import Bolo.Library.Bytes

/-!
# The save file

`binf.c`: a header, one record for each state, counter, sample, event and rate, and two
zero bytes. Every record has a fixed body and one or two strings, and carries its length in
16 bits. The file is mapped at `db_size` MiB, computed as an `int`.

`binfRead` merges the records into the database of a configuration. It looks every
datapoint up as a submission would, so that pattern rules create the missing ones.
-/
namespace Bolo

open Library

variable {R Re : Type}

/-! ## Records -/

/-- What a record is written from and read into. -/
inductive Payload (R : Type) where
  | state (s : State)
  | counter (c : Counter)
  | sample (s : Sample R)
  | event (ev : Event)
  | rate (r : Rate)
  deriving DecidableEq

def RECORD_TYPE_STATE : Nat := 0x1
def RECORD_TYPE_COUNTER : Nat := 0x2
def RECORD_TYPE_SAMPLE : Nat := 0x3
def RECORD_TYPE_EVENT : Nat := 0x4
def RECORD_TYPE_RATE : Nat := 0x5

def Payload.type : Payload R → Nat
  | .state _ => RECORD_TYPE_STATE
  | .counter _ => RECORD_TYPE_COUNTER
  | .sample _ => RECORD_TYPE_SAMPLE
  | .event _ => RECORD_TYPE_EVENT
  | .rate _ => RECORD_TYPE_RATE

def be32 (x : Int32) : List UInt8 := be 4 x.toUInt32.toNat

def be64 (x : UInt64) : List UInt8 := be 8 x.toNat

/-- `htonl` and `ntohl` on a little-endian machine. -/
def swap32 (x : UInt32) : UInt32 := UInt32.ofNat (ofBe (be 4 x.toNat).reverse)

/-- `htonl` of a `double`, stored as a `double`. -/
def doubleBytes [Double R] (x : R) : List UInt8 :=
  (be 8 (Double.bits (Double.ofInt (swap32 (Double.toUInt32 x)).toNat : R)).toNat).reverse

def Payload.body [Double R] : Payload R → List UInt8
  | .state s => be32 s.lastSeen ++ [s.status, s.stale, s.ignore]
  | .counter c => be32 c.lastSeen ++ (be64 c.value ++ [c.ignore])
  | .sample s => be32 s.lastSeen ++ (be64 s.n ++ (doubleBytes s.min ++ (doubleBytes s.max ++
      (doubleBytes s.sum ++ (doubleBytes s.mean ++ (doubleBytes s.mean_ ++ (doubleBytes s.var ++
      (doubleBytes s.var_ ++ [s.ignore]))))))))
  | .event ev => be32 ev.timestamp
  | .rate r => be32 r.firstSeen ++ (be32 r.lastSeen ++ (be64 r.first ++ (be64 r.last ++
      [r.ignore])))

/-- The strings of a record, in order. -/
def Payload.texts : Payload R → List (Option CString)
  | .state s => [s.name, s.summary]
  | .counter c => [c.name]
  | .sample s => [s.name]
  | .event ev => [ev.name, ev.extra]
  | .rate r => [r.name]

/-- The length that `s_write_record` computes, before it is cut to 16 bits. -/
def Payload.size [Double R] (p : Payload R) : Nat :=
  4 + p.body.length + (p.texts.map fun t => t.elim 0 CString.length + 1).sum

def terminated (texts : List CString) : List UInt8 := texts.flatMap fun t => t.bytes ++ [0]

def sWriteRecord [Double R] (p : Payload R) : Except Fault (List UInt8) := do
  let texts ← p.texts.mapM deref
  return be 2 (p.size % 2 ^ 16) ++ (be 2 p.type ++ (p.body ++ terminated texts))

/-! ## Reading a record -/

/-- The strings of a record whose body has `size` bytes. A length that does not even cover
header and body makes `want` negative. -/
def readStrings (len size : Nat) (m : Mapping) : Except Fault (List UInt8 × Mapping) :=
  if len < 4 + size then .error .outOfBounds else inBounds (m.take (len - 4 - size))

/-- Where `for (p = buf; *p++; );` leaves `p`. -/
def afterName (buf : List UInt8) : Nat := (CString.ofBytes buf).length + 1

/-- The string behind the first one, `none` where the record is rejected. -/
def secondString (buf : List UInt8) : Except Fault (Option CString) :=
  if afterName buf + 1 = buf.length then .ok none
  else if afterName buf ≤ buf.length then .ok (some (.ofBytes (buf.drop (afterName buf))))
  else .error .outOfBounds

def toInt32 (n : Nat) : Int32 := (UInt32.ofNat n).toInt32

def readState (body : List UInt8) : State :=
  let (lastSeen, l) := uint 4 body
  let (status, l) := uint 1 l
  let (stale, l) := uint 1 l
  let (ignore, _) := uint 1 l
  { type := none, name := none, lastSeen := toInt32 lastSeen, expiry := 0,
    status := .ofNat status, summary := none, stale := .ofNat stale, ignore := .ofNat ignore }

def readCounter (body : List UInt8) : Counter :=
  let (lastSeen, l) := uint 4 body
  let (value, l) := uint 8 l
  let (ignore, _) := uint 1 l
  { window := none, name := none, lastSeen := toInt32 lastSeen, value := .ofNat value,
    ignore := .ofNat ignore }

/-- `ntohl` of a stored `double`, and the fields after it. -/
def readDouble [Double R] (l : List UInt8) : R × List UInt8 :=
  let x : R := Double.ofBits (.ofNat (ofBe (l.take 8).reverse))
  (Double.ofInt (swap32 (Double.toUInt32 x)).toNat, l.drop 8)

def readSample [Double R] (body : List UInt8) : Sample R :=
  let (lastSeen, l) := uint 4 body
  let (n, l) := uint 8 l
  let (min, l) := readDouble l
  let (max, l) := readDouble l
  let (sum, l) := readDouble l
  let (mean, l) := readDouble l
  let (mean_, l) := readDouble l
  let (var, l) := readDouble l
  let (var_, l) := readDouble l
  let (ignore, _) := uint 1 l
  { window := none, name := none, lastSeen := toInt32 lastSeen, n := .ofNat n, min := min,
    max := max, sum := sum, mean := mean, mean_ := mean_, var := var, var_ := var_,
    ignore := .ofNat ignore }

def readEvent (body : List UInt8) : Event :=
  let (timestamp, _) := uint 4 body
  { timestamp := toInt32 timestamp, name := none, extra := none }

def readRate (body : List UInt8) : Rate :=
  let (firstSeen, l) := uint 4 body
  let (lastSeen, l) := uint 4 l
  let (first, l) := uint 8 l
  let (last, l) := uint 8 l
  let (ignore, _) := uint 1 l
  { window := none, name := none, firstSeen := toInt32 firstSeen, lastSeen := toInt32 lastSeen,
    first := .ofNat first, last := .ofNat last, ignore := .ofNat ignore }

/-- Body and strings of a record of the given type and length, `none` where the record is
rejected. -/
def readFields [Double R] (type len : Nat) (m : Mapping) :
    Except Fault (Option (Payload R) × Mapping) :=
  match type with
  | 1 => do
    let (body, m) ← inBounds (m.take 7)
    let (buf, m) ← readStrings len 7 m
    match ← secondString buf with
    | none => return (none, m)
    | some summary =>
      return (some (.state { readState body with
        name := some (.ofBytes buf), summary := some summary }), m)
  | 2 => do
    let (body, m) ← inBounds (m.take 13)
    let (buf, m) ← readStrings len 13 m
    return (some (.counter { readCounter body with name := some (.ofBytes buf) }), m)
  | 3 => do
    let (body, m) ← inBounds (m.take 69)
    let (buf, m) ← readStrings len 69 m
    return (some (.sample { readSample body with name := some (.ofBytes buf) }), m)
  | 4 => do
    let (body, m) ← inBounds (m.take 4)
    let (buf, m) ← readStrings len 4 m
    match ← secondString buf with
    | none => return (none, m)
    | some extra =>
      return (some (.event { readEvent body with
        name := some (.ofBytes buf), extra := some extra }), m)
  | 5 => do
    let (body, m) ← inBounds (m.take 25)
    let (buf, m) ← readStrings len 25 m
    if afterName buf + 1 = buf.length then return (none, m)
    else return (some (.rate { readRate body with name := some (.ofBytes buf) }), m)
  | _ => .ok (none, m)

/-- `s_read_record`, `none` where it returns 1. -/
def sReadRecord [Double R] (m : Mapping) : Except Fault (Option (Payload R) × Mapping) := do
  let (record, m) ← inBounds (m.take 4)
  let (len, l) := uint 2 record
  let (flags, _) := uint 2 l
  readFields (flags % 16) len m

/-! ## Writing the file -/

/-- The records of a database, in the order in which they are written. -/
def Db.payloads (db : Db R Re) : List (Payload R) :=
  db.states.entries.map (.state ·.2) ++ db.counters.entries.map (.counter ·.2) ++
    db.samples.entries.map (.sample ·.2) ++ db.events.map .event ++
    db.rates.entries.map (.rate ·.2)

def header (now : Int32) (count : Nat) : List UInt8 :=
  CString.ascii "BOLO" ++ (be 2 1 ++ (be 2 0 ++ (be32 now ++ be 4 (count % 2 ^ 32))))

/-- `db_size * 1024 * 1024` as an `int`. -/
def mapSize (dbSize : Int32) : Int := (dbSize * 1024 * 1024).toInt

/-- Up to 2047 MiB the product does not overflow. -/
theorem mapSize_eq {dbSize : Int32} (hpos : 0 ≤ dbSize.toInt) (hmax : dbSize.toInt ≤ 2047) :
    mapSize dbSize = dbSize.toInt * 1024 * 1024 := by
  have hkilo : (1024 : Int32).toInt = 1024 := rfl
  have hinner : (dbSize * 1024).toInt = dbSize.toInt * 1024 := by
    rw [Int32.toInt_mul, hkilo, Int.bmod_eq_of_le (by omega) (by omega)]
  rw [mapSize, Int32.toInt_mul, hinner, hkilo, Int.bmod_eq_of_le (by omega) (by omega)]

/-- `binf_write` at clock reading `now`, `none` where it returns -1. -/
def binfWrite [Double R] (now dbSize : Int32) (db : Db R Re) :
    Except Fault (Option Mapping) :=
  if mapSize dbSize ≤ 0 then .ok none
  else do
    let records ← db.payloads.mapM sWriteRecord
    let bytes := header now db.payloads.length ++ (records.flatten ++ [0, 0])
    if bytes.length ≤ mapSize dbSize then
      return some { bytes := bytes, size := (mapSize dbSize).toNat }
    else .error .outOfBounds

/-! ## Reading the file -/

variable [Pcre Re] [HashOrder]

/-- Merge what was read into the datapoint of that name, if there is one. -/
def Series.restore {α V : Type} (S : Series R Re α V) (merge : α → α) (db : Db R Re)
    (name : CString) : Db R Re :=
  match S.find db name with
  | none => db
  | some (x, db') => S.setTable db' (hashSet (S.table db') name (merge x))

/-- The datapoint `x` with the fields of the record `s`. -/
def mergeState (s x : State) : State :=
  { x with
    summary := s.summary, lastSeen := s.lastSeen, status := s.status, stale := s.stale,
    ignore := s.ignore }

def mergeCounter (c x : Counter) : Counter :=
  { x with lastSeen := c.lastSeen, value := c.value, ignore := c.ignore }

def mergeSample (s x : Sample R) : Sample R :=
  { x with
    lastSeen := s.lastSeen, n := s.n, min := s.min, max := s.max, sum := s.sum, mean := s.mean,
    mean_ := s.mean_, var := s.var, var_ := s.var_, ignore := s.ignore }

def mergeRate (r x : Rate) : Rate :=
  { x with
    firstSeen := r.firstSeen, lastSeen := r.lastSeen, first := r.first, last := r.last,
    ignore := r.ignore }

def restoreState (now : Int32) (db : Db R Re) (s : State) : Except Fault (Db R Re) := do
  let name ← deref s.name
  match ← findState now db name with
  | none => return db
  | some (x, db') => return { db' with states := hashSet db'.states name (mergeState s x) }

def restoreCounter (db : Db R Re) (c : Counter) : Except Fault (Db R Re) := do
  let name ← deref c.name
  return counterSeries.restore (mergeCounter c) db name

def restoreSample [Double R] (db : Db R Re) (s : Sample R) : Except Fault (Db R Re) := do
  let name ← deref s.name
  return sampleSeries.restore (mergeSample s) db name

def restoreRate [Double R] (db : Db R Re) (r : Rate) : Except Fault (Db R Re) := do
  let name ← deref r.name
  return rateSeries.restore (mergeRate r) db name

variable [Double R]

def restoreRecord (now : Int32) (db : Db R Re) : Payload R → Except Fault (Db R Re)
  | .state s => restoreState now db s
  | .counter c => restoreCounter db c
  | .sample s => restoreSample db s
  | .event ev => .ok { db with events := db.events ++ [ev] }
  | .rate r => restoreRate db r

/-- The loop over `n` records; no mapping is left if one could not be read. `clock` answers
`time_s()` while the `i`-th record is merged. -/
def readRecords (clock : Nat → Int32) : Nat → Nat → Mapping → Db R Re →
    Except Fault (Option Mapping × Db R Re)
  | 0, _, m, db => .ok (some m, db)
  | n + 1, i, m, db => do
    match ← sReadRecord m with
    | (none, _) => return (none, db)
    | (some p, m) => readRecords clock n (i + 1) m (← restoreRecord (clock i) db p)

/-- `binf_read` of a mapped file: its return value, and the database it leaves. -/
def binfRead (clock : Nat → Int32) (m : Mapping) (db : Db R Re) :
    Except Fault (Int32 × Db R Re) := do
  let (head, m) ← inBounds (m.take 16)
  let (version, l) := uint 2 (head.drop 4)
  let (_, l) := uint 2 l
  let (_, l) := uint 4 l
  let (count, _) := uint 4 l
  if head.take 4 ≠ CString.ascii "BOLO" then return (-1, db)
  else if version ≠ 1 then return (-1, db)
  else
    match ← readRecords clock count 1 m db with
    | (none, db) => return (-1, db)
    | (some m, db) =>
      let (trailer, _) ← inBounds (m.take 2)
      return (if trailer = [0, 0] then 0 else 1, db)

end Bolo
