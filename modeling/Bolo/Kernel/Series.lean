import Bolo.Data.Points
import Bolo.Library.Machine

/-!
# Windowed datapoints

Counters, samples and rates share one life cycle: a submission that falls into another
window than the last one closes the open window, broadcasts it and resets the record, and
so does a tick that comes late enough after the end of the window. A `Series` holds what
differs between the three kinds, with the few laws that the life cycle rests on.

`winstart` mixes signed and unsigned arithmetic as the source does: applied to `last_seen`
it is signed, applied to a submitted timestamp the window length is converted to unsigned.
-/
namespace Bolo

open Library

/-! ## Window arithmetic -/

/-- `winstart` of a signed timestamp. A zero divisor, and the one quotient that does not
fit, trap. -/
def winstart (time t : Int32) : Except Fault Int32 :=
  if time = 0 ∨ (time = -1 ∧ t = Int32.minValue) then .error .divByZero
  else .ok (t - t % time)

/-- `winstart` of an unsigned timestamp. -/
def winstartU (time : Int32) (t : UInt32) : Except Fault UInt32 :=
  if time = 0 then .error .divByZero else .ok (t - t % time.toUInt32)

def winend (time t : Int32) : Except Fault Int32 := do
  let start ← winstart time t
  return start + time

/-! ## Broadcasts -/

/-- What the three broadcast functions share. The timestamp is the start of the window the
record was last seen in. -/
def broadcastWindow (tag : Tag) (window : Option Window) (lastSeen : Int32)
    (name : Option CString) (payload : Window → List CString) : Except Fault Pdu := do
  let w ← deref window
  let ts ← winstart w.time lastSeen
  let name ← deref name
  return { type := tag.text, frames := decimal ts.toUInt32.toNat :: name :: payload w }

def counterPayload (c : Counter) : List CString := [decimal c.value.toNat]

/-- `n` is a `uint64_t` printed with `%u`, which shows its low 32 bits. -/
def samplePayload {R : Type} [Double R] (s : Sample R) : List CString :=
  [decimal s.n.toUInt32.toNat, Double.fmtE s.min, Double.fmtE s.max,
    Double.fmtE s.sum, Double.fmtE s.mean, Double.fmtE s.var]

def ratePayload (R : Type) [Double R] (w : Window) (r : Rate) : List CString :=
  [decimalInt w.time.toInt, Double.fmtE (rateCalc r w.time : R)]

def broadcastCounter (c : Counter) : Except Fault Pdu :=
  broadcastWindow .counter c.window c.lastSeen c.name fun _ => counterPayload c

def broadcastSample {R : Type} [Double R] (s : Sample R) : Except Fault Pdu :=
  broadcastWindow .sample s.window s.lastSeen s.name fun _ => samplePayload s

def broadcastRate (R : Type) [Double R] (r : Rate) : Except Fault Pdu :=
  broadcastWindow .rate r.window r.lastSeen r.name fun w => ratePayload R w r

/-! ## Kinds -/

/-- Timestamp and name of a submission; an empty name makes it malformed. -/
def decodeHead (p : Pdu) : Option (CString × UInt32) := do
  let ts ← p.string 1
  let name ← p.string 2
  if name.isEmpty then none else some (name, (strtoul ts).toUInt32)

/-- A kind of windowed datapoint: records `α`, submitted payloads `V`. -/
structure Series (R Re α V : Type) where
  tag : Tag
  table : Db R Re → Table CString α
  setTable : Db R Re → Table CString α → Db R Re
  rules : Db R Re → List (Rule Window Re)
  window : α → Option Window
  name : α → Option CString
  lastSeen : α → Int32
  ignore : α → UInt8
  payloadBit : UInt16
  mark : α → α
  blank : CString → Option Window → α
  reset : α → α
  update : UInt32 → V → α → α
  payload : Window → α → List CString
  decode : Pdu → Option (CString × UInt32 × V)
  table_setTable : ∀ db t, table (setTable db t) = t
  setTable_table : ∀ db, setTable db (table db) = db
  setTable_setTable : ∀ db t u, setTable (setTable db t) u = setTable db u
  rules_setTable : ∀ db t, rules (setTable db t) = rules db
  window_blank : ∀ n w, window (blank n w) = w
  window_reset : ∀ x, window (reset x) = window x
  window_update : ∀ ts v x, window (update ts v x) = window x
  window_mark : ∀ x, window (mark x) = window x
  name_blank : ∀ n w, name (blank n w) = some n
  name_reset : ∀ x, name (reset x) = name x
  name_update : ∀ ts v x, name (update ts v x) = name x
  name_mark : ∀ x, name (mark x) = name x
  ignore_blank : ∀ n w, ignore (blank n w) = 0
  ignore_reset : ∀ x, ignore (reset x) = ignore x
  ignore_update : ∀ ts v x, ignore (update ts v x) = ignore x
  ignore_mark : ∀ x, ignore (mark x) = 1
  lastSeen_reset : ∀ x, lastSeen (reset x) = 0
  lastSeen_update : ∀ ts v x, lastSeen (update ts v x) = ts.toInt32
  lastSeen_mark : ∀ x, lastSeen (mark x) = lastSeen x
  reset_blank : ∀ n w, reset (blank n w) = blank n w
  reset_update : ∀ ts v x, reset (update ts v x) = reset x
  reset_reset : ∀ x, reset (reset x) = reset x
  decode_head : ∀ p d, decode p = some d → decodeHead p = some (d.1, d.2.1)

attribute [simp] Series.table_setTable Series.setTable_table Series.setTable_setTable
  Series.rules_setTable Series.window_blank Series.window_reset Series.window_update
  Series.window_mark Series.name_blank Series.name_reset Series.name_update Series.name_mark
  Series.ignore_blank Series.ignore_reset Series.ignore_update Series.ignore_mark
  Series.lastSeen_reset Series.lastSeen_update Series.lastSeen_mark Series.reset_blank
  Series.reset_update Series.reset_reset

namespace Series

variable {R Re α V : Type} (S : Series R Re α V)

def find [Pcre Re] [HashOrder] (db : Db R Re) (name : CString) : Option (α × Db R Re) :=
  (Bolo.find S.blank (S.rules db) (S.table db) name).map fun (x, t) => (x, S.setTable db t)

def broadcast (x : α) : Except Fault Pdu :=
  broadcastWindow S.tag (S.window x) (S.lastSeen x) (S.name x) fun w => S.payload w x

/-- Whether a submission at `ts` lies in another window than the last one. -/
def rollover (x : α) (ts : UInt32) : Except Fault Bool :=
  if 0 < S.lastSeen x ∧ (S.lastSeen x).toUInt32 ≠ ts then do
    let w ← deref (S.window x)
    let a ← winstart w.time (S.lastSeen x)
    let b ← winstartU w.time ts
    return a.toUInt32 ≠ b
  else .ok false

/-- One accepted submission: close the window on a rollover, then take the payload in. -/
def submit (x : α) (ts : UInt32) (v : V) : Except Fault (α × List Pdu) := do
  if ← S.rollover x ts then
    let p ← S.broadcast x
    return (S.update ts v (S.reset x), [p])
  else
    return (S.update ts v x, [])

/-- One record of the tick loop, with `ts` the clock less the grace period. -/
def close (ts : Int32) (x : α) : Except Fault (α × List Pdu) :=
  if S.ignore x ≠ 0 ∨ S.lastSeen x = 0 then .ok (x, [])
  else do
    let w ← deref (S.window x)
    let e ← winend w.time (S.lastSeen x)
    if ts ≤ e then return (x, [])
    else
      let p ← S.broadcast x
      return (S.reset x, [p])

/-- A listener PDU of this kind: unknown and ignored datapoints drop it. -/
def receive [Pcre Re] [HashOrder] (db : Db R Re) (p : Pdu) :
    Except Fault (Db R Re × List Pdu) :=
  match S.decode p with
  | none => .ok (db, [])
  | some (name, ts, v) =>
    match S.find db name with
    | none => .ok (db, [])
    | some (x, db') =>
      if S.ignore x = 0 then do
        let (y, out) ← S.submit x ts v
        return (S.setTable db' (hashSet (S.table db') name y), out)
      else .ok (db', [])

/-- The tick loop over all datapoints of this kind. -/
def tick (ts : Int32) (db : Db R Re) : Except Fault (Db R Re × List Pdu) := do
  let (t, out) ← (S.table db).sweep (S.close ts)
  return (S.setTable db t, out)

end Series

/-! ## The three kinds -/

variable {R Re : Type}

def counterSeries : Series R Re Counter Int32 where
  tag := .counter
  table := Db.counters
  setTable db t := { db with counters := t }
  rules := Db.counterMatches
  window := Counter.window
  name := Counter.name
  lastSeen := Counter.lastSeen
  ignore := Counter.ignore
  payloadBit := PAYLOAD_COUNTER
  mark x := { x with ignore := 1 }
  blank := Counter.blank
  reset := counterReset
  -- the increment is an `int32_t`, sign-extended into the 64-bit accumulator
  update ts incr c := { c with lastSeen := ts.toInt32, value := c.value + incr.toInt64.toUInt64 }
  payload _ := counterPayload
  decode p := do
    let (name, ts) ← decodeHead p
    let incr ← p.string 3
    return (name, ts, (strtol incr).toInt32)
  decode_head p d h := by
    simp only [bind, Option.bind_eq_some_iff, pure, Option.some.injEq] at h
    obtain ⟨⟨name, ts⟩, hd, incr, -, rfl⟩ := h
    exact hd
  table_setTable _ _ := rfl
  setTable_table _ := rfl
  setTable_setTable _ _ _ := rfl
  rules_setTable _ _ := rfl
  window_blank _ _ := rfl
  window_reset _ := rfl
  window_update _ _ _ := rfl
  window_mark _ := rfl
  name_blank _ _ := rfl
  name_reset _ := rfl
  name_update _ _ _ := rfl
  name_mark _ := rfl
  ignore_blank _ _ := rfl
  ignore_reset _ := rfl
  ignore_update _ _ _ := rfl
  ignore_mark _ := rfl
  lastSeen_reset _ := rfl
  lastSeen_update _ _ _ := rfl
  lastSeen_mark _ := rfl
  reset_blank _ _ := rfl
  reset_update _ _ _ := rfl
  reset_reset _ := rfl

/-- The loop over the values of one SAMPLE PDU. -/
def sampleUpdate [Double R] (ts : UInt32) (vs : List R) (s : Sample R) : Sample R :=
  vs.foldl (fun s v => { sampleData s v with lastSeen := ts.toInt32 }) s

section SampleUpdate

variable [Double R] (ts : UInt32) (vs : List R) (s : Sample R)

@[simp] theorem sampleUpdate_window : (sampleUpdate ts vs s).window = s.window := by
  induction vs generalizing s with
  | nil => rfl
  | cons v vs ih => exact ih _

@[simp] theorem sampleUpdate_name : (sampleUpdate ts vs s).name = s.name := by
  induction vs generalizing s with
  | nil => rfl
  | cons v vs ih => exact ih _

@[simp] theorem sampleUpdate_ignore : (sampleUpdate ts vs s).ignore = s.ignore := by
  induction vs generalizing s with
  | nil => rfl
  | cons v vs ih => exact ih _

theorem sampleUpdate_reset : sampleReset (sampleUpdate ts vs s) = sampleReset s := by
  induction vs generalizing s with
  | nil => rfl
  | cons v vs ih => exact (ih _).trans rfl

theorem sampleUpdate_lastSeen (v : R) :
    (sampleUpdate ts (v :: vs) s).lastSeen = ts.toInt32 := by
  induction vs generalizing s v with
  | nil => rfl
  | cons w vs ih => exact ih _ w

end SampleUpdate

/-- A SAMPLE PDU carries at least one value; its payload is the first and the rest. -/
def sampleSeries [Double R] : Series R Re (Sample R) (R × List R) where
  tag := .sample
  table := Db.samples
  setTable db t := { db with samples := t }
  rules := Db.sampleMatches
  window := Sample.window
  name := Sample.name
  lastSeen := Sample.lastSeen
  ignore := Sample.ignore
  payloadBit := PAYLOAD_SAMPLE
  mark x := { x with ignore := 1 }
  blank := Sample.blank
  reset := sampleReset
  update ts v s := sampleUpdate ts (v.1 :: v.2) s
  payload _ := samplePayload
  decode p := do
    let (name, ts) ← decodeHead p
    match p.frames.drop 2 with
    | [] => none
    | v :: vs => return (name, ts, Double.strtod v, vs.map Double.strtod)
  decode_head p d h := by
    simp only [bind, Option.bind_eq_some_iff, pure] at h
    obtain ⟨⟨name, ts⟩, hd, h⟩ := h
    split at h
    · cases h
    · simp only [Option.some.injEq] at h
      exact h ▸ hd
  table_setTable _ _ := rfl
  setTable_table _ := rfl
  setTable_setTable _ _ _ := rfl
  rules_setTable _ _ := rfl
  window_blank _ _ := rfl
  window_reset _ := rfl
  window_update _ _ _ := sampleUpdate_window ..
  window_mark _ := rfl
  name_blank _ _ := rfl
  name_reset _ := rfl
  name_update _ _ _ := sampleUpdate_name ..
  name_mark _ := rfl
  ignore_blank _ _ := rfl
  ignore_reset _ := rfl
  ignore_update _ _ _ := sampleUpdate_ignore ..
  ignore_mark _ := rfl
  lastSeen_reset _ := rfl
  lastSeen_update _ _ _ := sampleUpdate_lastSeen ..
  lastSeen_mark _ := rfl
  reset_blank _ _ := rfl
  reset_update _ _ _ := sampleUpdate_reset ..
  reset_reset _ := rfl

def rateSeries [Double R] : Series R Re Rate UInt64 where
  tag := .rate
  table := Db.rates
  setTable db t := { db with rates := t }
  rules := Db.rateMatches
  window := Rate.window
  name := Rate.name
  lastSeen := Rate.lastSeen
  ignore := Rate.ignore
  payloadBit := PAYLOAD_RATE
  mark x := { x with ignore := 1 }
  blank := Rate.blank
  reset := rateReset
  update ts v r :=
    { rateData { r with firstSeen := if r.firstSeen = 0 then ts.toInt32 else r.firstSeen } v with
      lastSeen := ts.toInt32 }
  payload := ratePayload R
  decode p := do
    let (name, ts) ← decodeHead p
    let v ← p.string 3
    return (name, ts, strtoul v)
  decode_head p d h := by
    simp only [bind, Option.bind_eq_some_iff, pure, Option.some.injEq] at h
    obtain ⟨⟨name, ts⟩, hd, v, -, rfl⟩ := h
    exact hd
  table_setTable _ _ := rfl
  setTable_table _ := rfl
  setTable_setTable _ _ _ := rfl
  rules_setTable _ _ := rfl
  window_blank _ _ := rfl
  window_reset _ := rfl
  window_update _ _ _ := rfl
  window_mark _ := rfl
  name_blank _ _ := rfl
  name_reset _ := rfl
  name_update _ _ _ := rfl
  name_mark _ := rfl
  ignore_blank _ _ := rfl
  ignore_reset _ := rfl
  ignore_update _ _ _ := rfl
  ignore_mark _ := rfl
  lastSeen_reset _ := rfl
  lastSeen_update _ _ _ := rfl
  lastSeen_mark _ := rfl
  reset_blank _ _ := rfl
  reset_update _ _ _ := rfl
  reset_reset _ := rfl

section Named

variable [Double R] [Pcre Re] [HashOrder]

omit [Double R] in
def findCounter : Db R Re → CString → Option (Counter × Db R Re) := counterSeries.find
def findSample : Db R Re → CString → Option (Sample R × Db R Re) := sampleSeries.find
def findRate : Db R Re → CString → Option (Rate × Db R Re) := rateSeries.find

end Named

/-- The three kinds by name, so that a statement can range over them. -/
inductive Kind where
  | counter | sample | rate
  deriving DecidableEq, Repr

namespace Kind

instance {P : Kind → Prop} [DecidablePred P] : Decidable (∀ κ, P κ) :=
  decidable_of_iff (P .counter ∧ P .sample ∧ P .rate)
    ⟨fun h κ => by cases κ <;> simp [h], fun h => ⟨h _, h _, h _⟩⟩

@[reducible] def Record (R : Type) : Kind → Type
  | .counter => Counter
  | .sample => Sample R
  | .rate => Rate

@[reducible] def Value (R : Type) : Kind → Type
  | .counter => Int32
  | .sample => R × List R
  | .rate => UInt64

def series [Double R] : (κ : Kind) → Series R Re (κ.Record R) (κ.Value R)
  | .counter => counterSeries
  | .sample => sampleSeries
  | .rate => rateSeries

def tag : Kind → Tag
  | .counter => .counter
  | .sample => .sample
  | .rate => .rate

/-- The frame bound of a submission, 0 for none. -/
def maxFrames : Kind → Nat
  | .counter => 4
  | .sample => 0
  | .rate => 4

variable [Double R] {κ κ' : Kind}

theorem table_setTable_ne (h : κ ≠ κ') (db : Db R Re) (t : Table CString (κ'.Record R)) :
    κ.series.table (κ'.series.setTable db t) = κ.series.table db := by
  cases κ <;> cases κ' <;> first | rfl | exact absurd rfl h

theorem rules_setTable_ne (db : Db R Re) (t : Table CString (κ'.Record R)) :
    κ.series.rules (κ'.series.setTable db t) = κ.series.rules db := by
  cases κ <;> cases κ' <;> rfl

@[simp] theorem series_tag : (κ.series : Series R Re _ _).tag = κ.tag := by
  cases κ <;> rfl

omit [Double R] in
theorem tag_ne (h : κ ≠ κ') : κ.tag ≠ κ'.tag := by
  cases κ <;> cases κ' <;> first | exact absurd rfl h | simp [tag]

end Kind

end Bolo
