import Bolo.Data.Types

/-!
# Lines of a report stream

`bolo_pdu.c`: the sender reads one report per line and makes a PDU of it. A line is a
keyword, a timestamp and a name, then what depends on the keyword; a KEY line has neither
timestamp nor name. A line that is too short is dropped.

`argv` stands for `argc` and `argv` both, since every caller passes the number of strings
that are left. `time` is the clock, which is read if there is no timestamp.
-/
namespace Bolo

open Library

namespace Stream

/-- `strings_split` at blanks: the words that are not empty. -/
def stringsSplit (l : List UInt8) : List CString :=
  ((l.splitOn SPACE).filter (· ≠ [])).map .ofBytes

def stringsJoin (strings : List CString) : CString :=
  .ofBytes ([SPACE].intercalate (strings.map CString.bytes))

/-- What may go wrong in the sender: a string that is not there, and `free` of a literal. -/
inductive Crash where
  | nullDeref
  | freedLiteral
  deriving DecidableEq

/-! ## Reports of one kind -/

def stamp (ts : Option CString) (time : Int32) : CString := ts.getD (decimalInt time.toInt)

def statusOf (code : CString) : UInt8 :=
  if strcasecmpEq code (.lit "0") || strcasecmpEq code (.lit "ok") ||
      strcasecmpEq code (.lit "okay") then OK
  else if strcasecmpEq code (.lit "1") || strcasecmpEq code (.lit "warn") ||
      strcasecmpEq code (.lit "warning") then WARNING
  else if strcasecmpEq code (.lit "2") || strcasecmpEq code (.lit "crit") ||
      strcasecmpEq code (.lit "critical") then CRITICAL
  else UNKNOWN

def parseStatePdu (time : Int32) (argv : List CString) (ts : Option CString) : Option Pdu :=
  match argv with
  | name :: code :: word :: words => some
      { type := Tag.state.text
        frames :=
          [stamp ts time, name, decimal (statusOf code).toNat, stringsJoin (word :: words)] }
  | _ => none

/-- The increment is an `int` that is printed as unsigned. Without exactly one word for it, it
is 1. -/
def parseCounterPdu (time : Int32) (argv : List CString) (ts : Option CString) : Option Pdu :=
  match argv with
  | name :: rest =>
    let incr : Int32 := match rest with
      | [word] => atoi word
      | _ => 1
    some { type := Tag.counter.text
           frames := [stamp ts time, name, decimal incr.toUInt32.toNat] }
  | [] => none

def parseSamplePdu (time : Int32) (argv : List CString) (ts : Option CString) : Option Pdu :=
  match argv with
  | name :: value :: values => some
      { type := Tag.sample.text, frames := stamp ts time :: name :: value :: values }
  | _ => none

def parseRatePdu (time : Int32) (argv : List CString) (ts : Option CString) : Option Pdu :=
  match argv with
  | name :: value :: _ => some
      { type := Tag.rate.text, frames := [stamp ts time, name, value] }
  | _ => none

/-- A key and its value: what follows the first `=`, or 1. -/
def parseSetkey (arg : CString) : CString × CString :=
  (.ofBytes (arg.bytes.takeWhile (· ≠ EQUALS)),
    if EQUALS ∈ arg.bytes then .ofBytes ((arg.bytes.dropWhile (· ≠ EQUALS)).drop 1) else .lit "1")

def parseSetkeysPdu (argv : List CString) : Option Pdu :=
  if argv = [] then none
  else some
    { type := Tag.setKeys.text
      frames := argv.flatMap fun arg => [(parseSetkey arg).1, (parseSetkey arg).2] }

/-- Without a description there is a literal in its place, and that is freed. -/
def parseEventPdu (time : Int32) (argv : List CString) (ts : Option CString) :
    Except Crash (Option Pdu) :=
  match argv with
  | [] => .ok none
  | [_] => .error .freedLiteral
  | name :: word :: words => .ok (some
      { type := Tag.event.text, frames := [stamp ts time, name, stringsJoin (word :: words)] })

/-! ## Lines -/

/-- The words of a line, without the blanks it starts with. -/
def words (line : CString) : List CString := stringsSplit (line.bytes.dropWhile isspace)

/-- `bolo_stream_pdu`. -/
def streamPdu (time : Int32) (line : CString) : Except Crash (Option Pdu) :=
  if line.bytes.dropWhile isspace = [] then .ok none
  else
    match words line with
    | [] => .error .nullDeref
    | keyword :: strings =>
      if strcasecmpEq keyword (.lit "STATE") then
        .ok (parseStatePdu time strings.tail strings.head?)
      else if strcasecmpEq keyword (.lit "COUNTER") then
        .ok (parseCounterPdu time strings.tail strings.head?)
      else if strcasecmpEq keyword (.lit "SAMPLE") then
        .ok (parseSamplePdu time strings.tail strings.head?)
      else if strcasecmpEq keyword (.lit "RATE") then
        .ok (parseRatePdu time strings.tail strings.head?)
      else if strcasecmpEq keyword (.lit "KEY") then .ok (parseSetkeysPdu strings)
      else if strcasecmpEq keyword (.lit "EVENT") then
        parseEventPdu time strings.tail strings.head?
      else .ok none

end Stream

end Bolo
