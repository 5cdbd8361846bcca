import Bolo.Library.CString
import Bolo.Library.Table

/-!
# Records of the aggregator

The structures of `bolo.h`. A `char *` or a pointer to another record that the source
leaves NULL somewhere is an `Option`; reading through it is `deref`, which fails on `none`.
Types and windows are stored by value: the configuration parser completes a type or a
window before any datapoint or rule can refer to it, and nothing writes to it afterwards.

Three things come from outside the repository and are parameters: `double` arithmetic,
the regular expressions of libpcre, and the order in which libvigor's hash tables are
walked.
-/
namespace Bolo

open Library

/-! ## What the code is built on -/

/-- The C type `double`. `ofInt` is the conversion from an integer type, `toUInt32` the
implicit conversion to `uint32_t`, `bits` and `ofBits` the representation in memory,
`fmtE` the format `%e`. -/
class Double (R : Type) where
  zero : R
  add : R → R → R
  sub : R → R → R
  mul : R → R → R
  div : R → R → R
  lt : R → R → Bool
  ofInt : Int → R
  toUInt32 : R → UInt32
  bits : R → UInt64
  ofBits : UInt64 → R
  strtod : CString → R
  fmtE : R → CString

/-- Compiled patterns. `exec re s` says that `pcre_exec` returns 0, a match, on `s`. -/
class Pcre (Re : Type) where
  compile : CString → Except CString Re
  exec : Re → CString → Bool

/-- Where a new key enters the iteration order of a hash table with the given keys. -/
class HashOrder where
  slot : List CString → CString → Nat

def hashSet [HashOrder] {V : Type} (t : Table CString V) (k : CString) (v : V) :
    Table CString V :=
  t.set (HashOrder.slot (t.entries.map Prod.fst) k) k v

@[simp] theorem get?_hashSet [HashOrder] {V : Type} (t : Table CString V) (k k' : CString)
    (v : V) : (hashSet t k v).get? k' = if k' = k then some v else t.get? k' :=
  Table.get?_set _ t k k' v

/-- Writing the entries of a table one by one. -/
theorem get?_foldl_hashSet [HashOrder] {V W : Type} (f : V → W) {l : List (CString × V)}
    (hl : (l.map Prod.fst).Nodup) (t : Table CString W) (k : CString) :
    (l.foldl (fun t e => hashSet t e.1 (f e.2)) t).get? k =
      (((l.find? (·.1 = k)).map fun e => f e.2).or (t.get? k)) := by
  induction l generalizing t with
  | nil => rfl
  | cons e l ih =>
    obtain ⟨hnotMem, hl⟩ := List.nodup_cons.mp hl
    rw [List.foldl_cons, ih hl, get?_hashSet]
    by_cases hk : e.1 = k
    · have hnone : l.find? (·.1 = k) = none := by
        rw [List.find?_eq_none]
        intro e' he' heq
        exact hnotMem (List.mem_map.mpr ⟨e', he', by simpa [hk] using heq⟩)
      simp [hk, hnone]
    · simp [hk, Ne.symm hk]

theorem All.hashSet [HashOrder] {V : Type} {P : CString → V → Prop} {t : Table CString V}
    {k : CString} {v : V} (h : t.All P) (hv : P k v) : (hashSet t k v).All P :=
  h.write hv (get?_hashSet t k · v)

/-- Undefined behaviour the source can run into. -/
inductive Fault where
  | nullDeref
  | divByZero
  | outOfBounds
  deriving DecidableEq, Repr

instance : Nonempty Fault := ⟨.nullDeref⟩

def deref {α : Type} : Option α → Except Fault α
  | none => .error .nullDeref
  | some a => .ok a

@[simp] theorem deref_some {α : Type} (a : α) : deref (some a) = .ok a := rfl

theorem deref_eq_ok {α : Type} {p : Option α} {a : α} : deref p = .ok a ↔ p = some a := by
  cases p <;> simp [deref]

/-- An access that has to stay within an array or a mapping. -/
def inBounds {α : Type} : Option α → Except Fault α
  | none => .error .outOfBounds
  | some a => .ok a

@[simp] theorem inBounds_some {α : Type} (a : α) : inBounds (some a) = .ok a := rfl

theorem inBounds_eq_ok {α : Type} {x : Option α} {a : α} : inBounds x = .ok a ↔ x = some a := by
  cases x <;> simp [inBounds]

/-! ## Messages -/

/-- A PDU: its type frame and the frames after it. -/
structure Pdu where
  type : CString
  frames : List CString
  deriving DecidableEq

/-- `pdu_size` counts the type frame. -/
def Pdu.size (p : Pdu) : Nat := p.frames.length + 1

/-- `pdu_string`, for frames after the type. -/
def Pdu.string (p : Pdu) (i : Nat) : Option CString := p.frames[i - 1]?

/-- Type frames that the kernel sends or understands. -/
inductive Tag where
  | state | transition | counter | sample | rate | event | setKeys
  | dump | getKeys | delKeys | searchKeys | getEvents | savestate | forget
  | error | values | keys | events | ok | beacon
  deriving DecidableEq, Repr

def Tag.text : Tag → CString
  | .state => .lit "STATE"
  | .transition => .lit "TRANSITION"
  | .counter => .lit "COUNTER"
  | .sample => .lit "SAMPLE"
  | .rate => .lit "RATE"
  | .event => .lit "EVENT"
  | .setKeys => .lit "SET.KEYS"
  | .dump => .lit "DUMP"
  | .getKeys => .lit "GET.KEYS"
  | .delKeys => .lit "DEL.KEYS"
  | .searchKeys => .lit "SEARCH.KEYS"
  | .getEvents => .lit "GET.EVENTS"
  | .savestate => .lit "SAVESTATE"
  | .forget => .lit "FORGET"
  | .error => .lit "ERROR"
  | .values => .lit "VALUES"
  | .keys => .lit "KEYS"
  | .events => .lit "EVENTS"
  | .ok => .lit "OK"
  | .beacon => .lit "BEACON"

theorem Tag.text_injective : Function.Injective Tag.text := by
  intro a b h
  cases a <;> cases b <;> first | rfl | exact absurd h (by decide)

@[simp] theorem Tag.text_inj {a b : Tag} : a.text = b.text ↔ a = b :=
  Tag.text_injective.eq_iff

/-- `_pdu_is`: type and frame count, where a bound of 0 is no bound. -/
def Pdu.is (p : Pdu) (tag : Tag) (min max : Nat) : Bool :=
  (min = 0 || min ≤ p.size) && (max = 0 || p.size ≤ max) && p.type = tag.text

/-- A PDU has one type. -/
theorem Pdu.is_of_ne {p : Pdu} {a b : Tag} {m n m' n' : Nat} (h : p.is a m n) (hne : a ≠ b) :
    p.is b m' n' = false := by
  simp only [Pdu.is, Bool.and_eq_true, decide_eq_true_eq] at h
  simp [Pdu.is, h.2, hne]

/-! ## Datapoints -/

def OK : UInt8 := 0
def WARNING : UInt8 := 1
def CRITICAL : UInt8 := 2
def UNKNOWN : UInt8 := 3
def PENDING : UInt8 := 4

def PAYLOAD_STATE : UInt16 := 0x0001
def PAYLOAD_COUNTER : UInt16 := 0x0002
def PAYLOAD_RATE : UInt16 := 0x0004
def PAYLOAD_SAMPLE : UInt16 := 0x0008

structure TypeDef where
  name : Option CString
  freshness : UInt16
  status : UInt8
  summary : Option CString
  deriving DecidableEq

structure Window where
  name : Option CString
  time : Int32
  deriving DecidableEq

structure State where
  type : Option TypeDef
  name : Option CString
  lastSeen : Int32
  expiry : Int32
  status : UInt8
  summary : Option CString
  stale : UInt8
  ignore : UInt8
  deriving DecidableEq

structure Counter where
  window : Option Window
  name : Option CString
  lastSeen : Int32
  value : UInt64
  ignore : UInt8
  deriving DecidableEq

structure Sample (R : Type) where
  window : Option Window
  name : Option CString
  lastSeen : Int32
  n : UInt64
  min : R
  max : R
  sum : R
  mean : R
  mean_ : R
  var : R
  var_ : R
  ignore : UInt8
  deriving DecidableEq

structure Rate where
  window : Option Window
  name : Option CString
  firstSeen : Int32
  lastSeen : Int32
  first : UInt64
  last : UInt64
  ignore : UInt8
  deriving DecidableEq

structure Event where
  timestamp : Int32
  name : Option CString
  extra : Option CString
  deriving DecidableEq

/-- A pattern rule, `re_state_t` with a type, `re_counter_t`, `re_sample_t` and
`re_rate_t` with a window. -/
structure Rule (τ Re : Type) where
  target : Option τ
  re : Re
  deriving DecidableEq

/-! ## The database and the server -/

structure Db (R Re : Type) where
  states : Table CString State
  counters : Table CString Counter
  samples : Table CString (Sample R)
  rates : Table CString Rate
  events : List Event
  eventsCount : Int32
  stateMatches : List (Rule TypeDef Re)
  counterMatches : List (Rule Window Re)
  sampleMatches : List (Rule Window Re)
  rateMatches : List (Rule Window Re)
  types : Table CString TypeDef
  windows : Table CString Window
  deriving DecidableEq

def Db.empty (R Re : Type) : Db R Re where
  states := .empty
  counters := .empty
  samples := .empty
  rates := .empty
  events := []
  eventsCount := 0
  stateMatches := []
  counterMatches := []
  sampleMatches := []
  rateMatches := []
  types := .empty
  windows := .empty

inductive EventsKeep where
  | number | time
  deriving DecidableEq, Repr

/-- The settings of `server_t` that the kernel, the save file or the tests read, and the
strings `configure` stores. -/
structure Config where
  listener : Option CString
  controller : Option CString
  broadcast : Option CString
  beacon : Option CString
  nscaPort : UInt16
  logLevel : Option CString
  logFacility : Option CString
  pidfile : Option CString
  runasUser : Option CString
  runasGroup : Option CString
  savefile : Option CString
  keysfile : Option CString
  saveSize : Int32
  eventsMax : Int32
  eventsKeep : EventsKeep
  gracePeriod : Int32
  deriving DecidableEq

structure Intervals where
  tick : UInt16
  freshness : UInt16
  sweep : UInt16
  savestate : UInt16
  deriving DecidableEq

/-- A deleted key keeps its entry, with a NULL value. -/
structure Server (R Re : Type) where
  db : Db R Re
  keys : Table CString (Option CString)
  config : Config
  interval : Intervals
  deriving DecidableEq

end Bolo
