import Bolo.Data.Types
import Bolo.Library.MergeSort

/-!
# Qualified names

`bolo_name.c`: a name such as `host=web,disk=*,*` is an array of parts, each with a key, a
value and a wildcard flag, and a flag for the match-all component `*`. The array is kept
sorted by key. `bolo_name_parse` allocates a slot for every component; those it does not
fill stay at the end, without a name.
-/
namespace Bolo

open Library

structure Part where
  name : Option CString
  value : Option CString
  wildcard : Bool
  deriving DecidableEq

/-- A slot as `vcalloc` leaves it. -/
def Part.blank : Part := { name := none, value := none, wildcard := false }

structure Name where
  size : Nat
  wildcard : Bool
  parts : List Part
  deriving DecidableEq

namespace Name

def sSort (a b : Part) : Int :=
  match a.name, b.name with
  | some x, some y => strcmp x y
  | _, _ => 0

/-- `qsort` by `s_sort`. -/
def qsort (parts : List Part) : List Part := msort (fun a b => sSort a b ≤ 0) parts

/-! ## Parsing -/

/-- The loop of `bolo_name_parse` with `slots` slots to fill and `a` to read: the parts it
fills, and whether it meets a `*`. -/
def parseLoop (slots : Nat) (a : List UInt8) : Option (List Part × Bool) :=
  if slots = 0 then some ([], false)
  else
    let key := a.takeWhile fun c => c ≠ EQUALS && c ≠ COMMA
    match _hb : a.dropWhile fun c => c ≠ EQUALS && c ≠ COMMA with
    | [] => if key = [STAR] then some ([], true) else none
    | b :: l =>
      if b = COMMA then
        if key = [STAR] then (parseLoop slots l).map fun r => (r.1, true) else none
      else
        let value := l.takeWhile (· ≠ COMMA)
        let part : Part :=
          { name := some (.ofBytes key), value := some (.ofBytes value)
            wildcard := strncmpEq l [STAR] value.length }
        match _hl : l.dropWhile (· ≠ COMMA) with
        | [] => some ([part], false)
        | _ :: next => (parseLoop (slots - 1) next).map fun r => (part :: r.1, r.2)
termination_by a.length
decreasing_by
  · have := (List.dropWhile_suffix (l := a) fun c => c ≠ EQUALS && c ≠ COMMA).length_le
    rw [_hb, List.length_cons] at this
    omega
  · have := (List.dropWhile_suffix (l := a) fun c => c ≠ EQUALS && c ≠ COMMA).length_le
    have := (List.dropWhile_suffix (l := l) (· ≠ COMMA)).length_le
    simp only [_hb, _hl, List.length_cons] at *
    omega

/-- `bolo_name_parse`, `none` where it returns NULL. It counts the commas and the parts in an `int`:
this is about names with fewer than 2^31 - 1 commas. -/
def parse (name : CString) : Option Name :=
  if name.bytes = [] then some { size := 0, wildcard := false, parts := [] }
  else
    let n := name.bytes.count COMMA + 1
    (parseLoop n name.bytes).map fun r =>
      { size := r.1.length, wildcard := r.2
        parts := qsort (r.1 ++ List.replicate (n - r.1.length) .blank) }

/-! ## Printing -/

/-- The parts that a loop to `size` visits. -/
def used (name : Name) : Except Fault (List Part) :=
  if name.size ≤ name.parts.length then .ok (name.parts.take name.size) else .error .outOfBounds

/-- What `bolo_name_string` writes for a part. -/
def partText (p : Part) : Except Fault (List UInt8) := do
  let name ← deref p.name
  let value ← deref p.value
  return name.bytes ++ EQUALS :: value.bytes ++ [COMMA]

def partLength (p : Part) : Except Fault Nat := do
  let name ← deref p.name
  let value ← deref p.value
  return name.length + 1 + value.length + 1

/-- `bolo_name_string`: the last comma gives way to the terminator. -/
def string (name : Name) : Except Fault CString := do
  let parts ← name.used
  let lens ← parts.mapM partLength
  let len := lens.sum + if name.wildcard then 2 else 0
  if len = 0 then return .lit ""
  else
    let texts ← parts.mapM partText
    let text := texts.flatten ++ if name.wildcard then [STAR, COMMA] else []
    if text.length ≤ len then return .ofBytes text.dropLast else .error .outOfBounds

/-! ## Matching -/

/-- The loop of `bolo_name_match` over what is left of both names, where `wildcard` says that
`b` has a `*`. -/
def matchLoop (wildcard : Bool) : List Part → List Part → Except Fault Nat
  | [], [] => .ok 0
  | _ :: _, [] => .ok (if wildcard then 0 else 1)
  | [], _ :: _ => .ok 1
  | p :: as, q :: bs => do
    let x ← deref p.name
    let y ← deref q.name
    if strcmp x y = 0 then
      if q.wildcard then matchLoop wildcard as bs
      else do
        let v ← deref p.value
        let w ← deref q.value
        if strcmp v w ≠ 0 then return 1 else matchLoop wildcard as bs
    else if wildcard then matchLoop wildcard as (q :: bs)
    else return 1

/-- `bolo_name_match`, 0 for a match. -/
def nameMatch (a b : Name) : Except Fault Nat :=
  if b.size = 0 ∧ b.wildcard then .ok 0
  else do matchLoop b.wildcard (← a.used) (← b.used)

/-! ## Editing -/

/-- The index of the first part with the given key. -/
def find (key : CString) : List Part → Except Fault (Option Nat)
  | [] => .ok none
  | p :: ps => do
    let name ← deref p.name
    if strcmp name key = 0 then return some 0 else return (← find key ps).map (· + 1)

/-- `bolo_name_set`. A part that exists keeps its flag. -/
def set (name : Name) (key : CString) (value : Option CString) : Except Fault Name := do
  let wild : Bool := value = none ∨ value = some (.lit "*")
  let stored := if wild then none else value
  let parts ← name.used
  match ← find key parts with
  | some i => return { name with parts := name.parts.modify i fun p => { p with value := stored } }
  | none =>
    return { name with
      size := name.size + 1
      parts := qsort (parts ++ [{ name := some key, value := stored, wildcard := wild }]) }

/-- `bolo_name_unset`. -/
def unset (name : Name) (key : CString) : Except Fault Name := do
  let parts ← name.used
  match ← find key parts with
  | some i => return { name with
      size := name.size - 1
      parts := parts.eraseIdx i ++ .blank :: name.parts.drop name.size }
  | none => return name

/-- The loop of `bolo_name_concat`. -/
def setAll (name : Name) : List Part → Except Fault Name
  | [] => .ok name
  | p :: ps => do
    let key ← deref p.name
    setAll (← name.set key p.value) ps

/-- `bolo_name_concat`, into the first name. -/
def concat (a b : Name) : Except Fault Name := do a.setAll (← b.used)

end Name

end Bolo
