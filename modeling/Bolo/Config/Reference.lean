import Bolo.Config.Configure
import Bolo.Kernel.Reactor

/-!
# A platform to run the model on

The model leaves `double`, the pattern library and the order of hash tables open. Here
numbers are integers, a pattern is a text to be found in the name, and a table keeps the
order of insertion. That is enough to evaluate configurations and runs.
-/
namespace Bolo.Reference

open Library

scoped instance : Double Int where
  zero := 0
  add := (· + ·)
  sub := (· - ·)
  mul := (· * ·)
  div := Int.tdiv
  lt a b := a < b
  ofInt n := n
  toUInt32 x := .ofNat x.toNat
  bits x := .ofNat x.toNat
  ofBits b := b.toNat
  strtod s := (strtol s).toInt
  fmtE := decimalInt

scoped instance : Pcre CString where
  compile := .ok
  exec re s := re.bytes <:+: s.bytes

scoped instance : HashOrder where
  slot keys _ := keys.length

/-- The clock while the configuration is read. -/
def epoch : Nat → Int32 := fun _ => 0

/-- What a file configures. -/
def load (file : String) : Except Stop (Server Int CString) :=
  configure epoch 64 (defaults Int CString) (CString.ascii file)

theorem configured {file : String} {s : Server Int CString} (h : load file = .ok s) :
    Configured epoch (CString.ascii file) s := ⟨64, h⟩

def pdu (type : Tag) (frames : List String) : Pdu :=
  { type := type.text, frames := frames.map .lit }

def minute : Window := { name := some (.lit "@minute"), time := 60 }

/-- Counters, sample sets and rates by the minute. -/
def minutes : Server Int CString :=
  { defaults Int CString with
    db := { Db.empty Int CString with
      windows := hashSet .empty (.lit "@minute") minute
      counters := hashSet .empty (.lit "hits") (.blank (.lit "hits") (some minute))
      samples := hashSet .empty (.lit "load") (.blank (.lit "load") (some minute))
      rates := hashSet .empty (.lit "bytes") (.blank (.lit "bytes") (some minute)) } }

def minutesFile : String :=
  "window @minute 60\ncounter @minute hits\nsample @minute load\nrate @minute bytes\n"

theorem load_minutesFile : load minutesFile = .ok minutes := by decide +kernel

theorem minutes_configured : Configured epoch (CString.ascii minutesFile) minutes :=
  configured load_minutesFile

def ping : TypeDef :=
  { name := some (.lit ":ping"), freshness := 60, status := CRITICAL
    summary := some (.lit "gone") }

/-- One declared state, and a rule for others. -/
def hosts : Server Int CString :=
  { defaults Int CString with
    db := { Db.empty Int CString with
      types := hashSet .empty (.lit ":ping") ping
      states := hashSet .empty (.lit "web") (.blank 0 (.lit "web") ping)
      stateMatches := [{ target := some ping, re := .lit "db" }] } }

def hostsFile : String :=
  "type :ping \x7b\n  freshness 60\n  critical \"gone\"\n\x7d\nstate :ping web\nstate :ping m/db/\n"

theorem hosts_configured : Configured epoch (CString.ascii hostsFile) hosts :=
  configured (by decide +kernel)

/-- Datapoints of every kind, and a buffer for five events. -/
def journal : Server Int CString :=
  { minutes with
    db := { minutes.db with types := hosts.db.types, states := hosts.db.states }
    config := { minutes.config with eventsMax := 5 } }

def journalFile : String :=
  "max.events 5\ntype :ping \x7b\n  freshness 60\n  critical \"gone\"\n\x7d\nstate :ping web\n" ++
    minutesFile

theorem journal_configured : Configured epoch (CString.ascii journalFile) journal :=
  configured (by decide +kernel)

end Bolo.Reference
