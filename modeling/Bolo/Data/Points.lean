import Bolo.Data.Types

/-!
# Datapoint operations

The functions of `data.c`: resetting and feeding counters, samples and rates, and looking
a datapoint up by name. The three lookups of windowed datapoints are instances of `find`,
made where the kinds are put together. A name that is not in its table is matched against
the pattern rules of its kind, in configuration order, and the first rule that matches
creates the datapoint.
-/
namespace Bolo

open Library

variable {R Re : Type}

/-! ## Feeding and resetting -/

def counterReset (c : Counter) : Counter := { c with lastSeen := 0, value := 0 }

def sampleReset [Double R] (s : Sample R) : Sample R :=
  { s with
    lastSeen := 0
    n := 0
    min := Double.zero
    max := Double.zero
    sum := Double.zero
    mean := Double.zero
    mean_ := Double.zero
    var := Double.zero
    var_ := Double.zero }

open Double in
def sampleData [Double R] (s : Sample R) (v : R) : Sample R :=
  let n := s.n + 1
  let mean := add s.mean (div (sub v s.mean) (ofInt n.toNat))
  { s with
    min := if s.n = 0 then v else if lt v s.min then v else s.min
    max := if s.n = 0 then v else if lt s.max v then v else s.max
    sum := add s.sum v
    n := n
    mean_ := s.mean
    mean := mean
    var_ := s.var
    var := div (add (mul (ofInt (n - 1).toNat) s.var) (mul (sub v s.mean) (sub v mean)))
      (ofInt n.toNat) }

def rateReset (r : Rate) : Rate :=
  { r with firstSeen := 0, lastSeen := 0, first := 0, last := 0 }

def rateData (r : Rate) (v : UInt64) : Rate :=
  { r with last := v, first := if r.lastSeen = 0 then v else r.first }

/-- The increment between the first and the last value, as the source computes it. -/
def rateDiff (r : Rate) : UInt64 :=
  if r.first ≤ r.last then r.last - r.first
  else if r.first < 0xffff then 0xffff - r.first + r.last
  else 0xffffffff - r.first + r.last

open Double in
def rateCalc [Double R] (r : Rate) (span : Int32) : R :=
  if r.lastSeen = 0 then zero
  else mul (div (mul (ofInt (rateDiff r).toNat) (ofInt 1))
    (ofInt (r.lastSeen - r.firstSeen).toInt)) (ofInt span.toInt)

/-! ## Looking a datapoint up -/

/-- The first rule whose pattern matches, as its type or window. -/
def firstMatch [Pcre Re] {τ : Type} (rules : List (Rule τ Re)) (name : CString) :
    Option (Option τ) :=
  (rules.find? fun r => Pcre.exec r.re name).map Rule.target

/-- The record a lookup of `name` finds or would create, given what its table holds. -/
def lookup [Pcre Re] {α τ : Type} (blank : CString → Option τ → α) (rules : List (Rule τ Re))
    (name : CString) (found : Option α) : Option α :=
  match found with
  | some x => some x
  | none => (firstMatch rules name).map (blank name)

def find [Pcre Re] [HashOrder] {α τ : Type} (blank : CString → Option τ → α)
    (rules : List (Rule τ Re)) (t : Table CString α) (name : CString) :
    Option (α × Table CString α) :=
  match t.get? name with
  | some x => some (x, t)
  | none =>
    match firstMatch rules name with
    | none => none
    | some target => some (blank name target, hashSet t name (blank name target))

/-- A failed lookup found nothing and matched nothing. A successful one yields a record
that is now in the table, and leaves every other name alone. -/
theorem find_spec [Pcre Re] [HashOrder] {α τ : Type} (blank : CString → Option τ → α)
    (rules : List (Rule τ Re)) (t : Table CString α) (name : CString) :
    match find blank rules t name with
    | none => lookup blank rules name (t.get? name) = none
    | some (x, t') => lookup blank rules name (t.get? name) = some x ∧
        ∀ k, t'.get? k = if k = name then some x else t.get? k := by
  unfold find lookup
  cases hg : t.get? name with
  | some x =>
    refine ⟨rfl, fun k => ?_⟩
    by_cases hk : k = name <;> simp [hk, hg]
  | none =>
    cases firstMatch rules name with
    | none => rfl
    | some target => exact ⟨rfl, fun k => by simp⟩

/-- The zeroed record `find_counter` allocates. -/
def Counter.blank (name : CString) (window : Option Window) : Counter :=
  { window := window, name := some name, lastSeen := 0, value := 0, ignore := 0 }

def Sample.blank [Double R] (name : CString) (window : Option Window) : Sample R :=
  { window := window, name := some name, lastSeen := 0, n := 0,
    min := Double.zero, max := Double.zero, sum := Double.zero,
    mean := Double.zero, mean_ := Double.zero, var := Double.zero, var_ := Double.zero,
    ignore := 0 }

def Rate.blank (name : CString) (window : Option Window) : Rate :=
  { window := window, name := some name, firstSeen := 0, lastSeen := 0, first := 0, last := 0,
    ignore := 0 }

def pendingSummary : CString := .lit "(state is pending results)"

/-- The record made for a new state at clock reading `now`, once its type is known. -/
def State.blank (now : Int32) (name : CString) (type : TypeDef) : State :=
  { type := some type, name := some name, lastSeen := 0,
    expiry := Int32.ofNat type.freshness.toNat + now,
    status := PENDING, summary := some pendingSummary, stale := 0, ignore := 0 }

/-- `find_state` reads the freshness of the rule's type, so it needs that type. -/
def findState [Pcre Re] [HashOrder] (now : Int32) (db : Db R Re) (name : CString) :
    Except Fault (Option (State × Db R Re)) :=
  match db.states.get? name with
  | some x => .ok (some (x, db))
  | none =>
    match firstMatch db.stateMatches name with
    | none => .ok none
    | some target => do
      let type ← deref target
      let x := State.blank now name type
      return some (x, { db with states := hashSet db.states name x })

end Bolo
