import Bolo.Config.Lexer
import Bolo.Kernel.Series

/-!
# Reading the configuration

`configure` of `config.c`: a loop over directives, each read with further calls of `lex`.
It ends with a configured server, or bails out at the first error. The lexer can repeat
bytes that an earlier line left behind, so nothing bounds the number of tokens; the loops
therefore take fuel.

`time_s()` is called for each declared state. `clock n` is its answer to the `n`-th call.
-/
namespace Bolo

open Library

variable {R Re : Type}

/-- Why reading a configuration ends without a server. -/
inductive Stop where
  | fault (f : Fault)
  | bail
  | outOfFuel
  deriving DecidableEq, Repr

def orFault {α : Type} : Except Fault α → Except Stop α
  | .error f => .error (.fault f)
  | .ok a => .ok a

theorem orFault_eq_ok {α : Type} {x : Except Fault α} {a : α} :
    orFault x = .ok a ↔ x = .ok a := by
  cases x <;> simp [orFault]

def orBail {α : Type} : Option α → Except Stop α
  | none => .error .bail
  | some a => .ok a

theorem orBail_eq_ok {α : Type} {x : Option α} {a : α} : orBail x = .ok a ↔ x = some a := by
  cases x <;> simp [orBail]

/-! ## Tokens -/

/-- The macro `NEXT`. -/
def next (p : Parser) : Except Stop (Token × Parser) := do
  let (token, p) ← orFault (lex p)
  return (← orBail token, p)

/-- `p.value` as a string. -/
def Parser.text (p : Parser) : Except Stop CString := orFault (inBounds (p.value.str 0))

theorem Parser.text_length {p : Parser} {s : CString} (h : p.text = .ok s) :
    s.length < LINE_BUF_SIZE := by
  rw [Parser.text, orFault_eq_ok, inBounds_eq_ok] at h
  exact Buffer.str_length h

def expect (token : Token) (p : Parser) : Except Stop (CString × Parser) := do
  let (t, p) ← next p
  if t = token then return (← p.text, p) else .error .bail

/-- A token that has to be a number, as `atoi` reads it. -/
def expectNumber (p : Parser) : Except Stop (Int32 × Parser) := do
  let (text, p) ← expect .number p
  return (atoi text, p)

/-! ## Settings -/

/-- Where `configure` is: the file, what has been read, and what `use` has set. -/
structure Conf (R Re : Type) where
  parser : Parser
  server : Server R Re
  defaultType : Option CString
  defaultWin : Option CString
  readings : Nat

namespace Conf

variable (c : Conf R Re)

def setConfig (f : Config → Config) : Conf R Re :=
  { c with server := { c.server with config := f c.server.config } }

def setDb (f : Db R Re → Db R Re) : Conf R Re :=
  { c with server := { c.server with db := f c.server.db } }

/-- The macro `SERVER_STRING`. -/
def serverString (f : Config → Option CString → Config) : Except Stop (Conf R Re) := do
  let (text, p) ← expect .string c.parser
  return { c with parser := p }.setConfig fun config => f config (some text)

def gracePeriod : Except Stop (Conf R Re) := do
  let (_, p) ← next c.parser
  let text ← p.text
  return { c with parser := p }.setConfig fun config => { config with gracePeriod := atoi text }

def maxEvents : Except Stop (Conf R Re) := do
  let (token, p) ← next c.parser
  let keep ← orBail (if token = .number then some EventsKeep.number
    else if token = .time then some EventsKeep.time else none)
  let text ← p.text
  return { c with parser := p }.setConfig fun config =>
    { config with eventsKeep := keep, eventsMax := atoi text }

/-- A setting that has to be a number. -/
def serverNumber (f : Int32 → Server R Re → Server R Re) : Except Stop (Conf R Re) := do
  let (n, p) ← expectNumber c.parser
  return { c with parser := p, server := f n c.server }

def sweep : Except Stop (Conf R Re) :=
  c.serverNumber fun n s =>
    { s with interval := { s.interval with sweep := n.toUInt32.toUInt16 } }

def saveSize : Except Stop (Conf R Re) :=
  c.serverNumber fun n s => { s with config := { s.config with saveSize := n } }

def saveInterval : Except Stop (Conf R Re) :=
  c.serverNumber fun n s =>
    { s with interval := { s.interval with savestate := n.toUInt32.toUInt16 } }

def nscaPort : Except Stop (Conf R Re) :=
  c.serverNumber fun n s =>
    { s with config := { s.config with nscaPort := (n.toUInt32 &&& 0xffff).toUInt16 } }

def log : Except Stop (Conf R Re) := do
  let c ← c.serverString fun config text => { config with logLevel := text }
  c.serverString fun config text => { config with logFacility := text }

def use : Except Stop (Conf R Re) := do
  let (token, p) ← next c.parser
  match token with
  | .typename => return { c with parser := p, defaultType := some (← p.text) }
  | .windowname => return { c with parser := p, defaultWin := some (← p.text) }
  | _ => .error .bail

/-! ## Types and windows -/

variable [HashOrder]

def window : Except Stop (Conf R Re) := do
  let (name, p) ← expect .windowname c.parser
  let (time, p) ← expectNumber p
  return { c with parser := p }.setDb fun db =>
    { db with windows := hashSet db.windows name { name := some name, time := time } }

end Conf

/-- The status that a word in a type definition selects. -/
def typeStatus (word : CString) : Option UInt8 :=
  if word = .lit "warning" then some WARNING
  else if word = .lit "critical" then some CRITICAL
  else if word = .lit "unknown" then some UNKNOWN
  else none

/-- The loop over the attributes of a type, up to the closing brace. -/
def typeBody : Nat → TypeDef → Parser → Except Stop (TypeDef × Parser)
  | 0, _, _ => .error .outOfFuel
  | fuel + 1, type, p => do
    let (token, p) ← next p
    match token with
    | .closeBrace => return (type, p)
    | .keyword .freshness =>
      let (n, p) ← expectNumber p
      typeBody fuel { type with freshness := n.toUInt32.toUInt16 } p
    | .string =>
      let status ← orBail (typeStatus (← p.text))
      let (text, p) ← expect .string p
      typeBody fuel { type with status := status, summary := some text } p
    | _ => .error .bail

/-- `"No results received for more than %i UNIT%s"` -/
def noResults (n : Nat) (unit : String) (one : Bool) : CString :=
  .lit "No results received for more than " ++ decimal n ++ .lit unit ++
    .lit (if one then "" else "s")

/-- The summary of a type that sets none. -/
def defaultSummary (freshness : UInt16) : CString :=
  let n := freshness.toNat
  if 3600 ≤ n then noResults (n / 3600) " hour" (n < 7200)
  else if 60 ≤ n then noResults (n / 60) " minute" (n < 120)
  else noResults n " second" (n = 1)

/-- A rule enters the list of its kind at the end. -/
def Kind.addRule (κ : Kind) (r : Rule Window Re) (db : Db R Re) : Db R Re :=
  match κ with
  | .counter => { db with counterMatches := db.counterMatches ++ [r] }
  | .sample => { db with sampleMatches := db.sampleMatches ++ [r] }
  | .rate => { db with rateMatches := db.rateMatches ++ [r] }

namespace Conf

variable (c : Conf R Re) [HashOrder]

def type (fuel : Nat) : Except Stop (Conf R Re) := do
  let (name, p) ← expect .typename c.parser
  let (_, p) ← expect .openBrace p
  let (type, p) ← typeBody fuel
    { name := some name, freshness := 300, status := WARNING, summary := none } p
  let type := { type with summary := some (type.summary.getD (defaultSummary type.freshness)) }
  return { c with parser := p }.setDb fun db => { db with types := hashSet db.types name type }

/-! ## Declarations -/

omit [HashOrder] in
/-- The type of a declared state, by name or by default, and the token after it. -/
def stateType : Except Stop (Option TypeDef × Token × Parser) := do
  let (token, p) ← next c.parser
  if token = .typename then
    let type := c.server.db.types.get? (← p.text)
    let (token, p) ← next p
    return (type, token, p)
  else return (c.defaultType.bind c.server.db.types.get?, token, p)

def state [Pcre Re] (clock : Nat → Int32) : Except Stop (Conf R Re) := do
  let (type, token, p) ← c.stateType
  match token with
  | .string =>
    let type ← orBail type
    let name ← p.text
    return { c with parser := p, readings := c.readings + 1 }.setDb fun db =>
      { db with states := hashSet db.states name (State.blank (clock c.readings) name type) }
  | .match =>
    let type ← orBail type
    match (Pcre.compile (← p.text) : Except CString Re) with
    | .error _ => .error .bail
    | .ok re =>
      let rule : Rule TypeDef Re := { target := some type, re := re }
      return { c with parser := p }.setDb fun db =>
        { db with stateMatches := db.stateMatches ++ [rule] }
  | _ => .error .bail

omit [HashOrder] in
/-- The window of a declared datapoint, by name, in place or by default, and the token
after it. -/
def seriesWindow : Except Stop (Option Window × Token × Parser) := do
  let (token, p) ← next c.parser
  if token = .windowname then
    let window := c.server.db.windows.get? (← p.text)
    let (token, p) ← next p
    return (window, token, p)
  else if token = .number then
    let time := atoi (← p.text)
    let (token, p) ← next p
    return (some { name := none, time := time }, token, p)
  else return (c.defaultWin.bind c.server.db.windows.get?, token, p)

/-- A `counter`, `sample` or `rate` declaration. -/
def series [Pcre Re] {α V : Type} (S : Series R Re α V)
    (addRule : Rule Window Re → Db R Re → Db R Re) : Except Stop (Conf R Re) := do
  let (window, token, p) ← c.seriesWindow
  match token with
  | .string =>
    let window ← orBail window
    let name ← p.text
    return { c with parser := p }.setDb fun db =>
      S.setTable db (hashSet (S.table db) name (S.blank name (some window)))
  | .match =>
    let window ← orBail window
    match (Pcre.compile (← p.text) : Except CString Re) with
    | .error _ => .error .bail
    | .ok re => return { c with parser := p }.setDb (addRule { target := some window, re := re })
  | _ => .error .bail

variable [Double R] [Pcre Re]

omit [Double R] in
def counter : Except Stop (Conf R Re) := c.series counterSeries Kind.counter.addRule

def sample : Except Stop (Conf R Re) := c.series sampleSeries Kind.sample.addRule

def rate : Except Stop (Conf R Re) := c.series rateSeries Kind.rate.addRule

/-! ## The loop -/

def directive (clock : Nat → Int32) (fuel : Nat) : Token → Except Stop (Conf R Re)
  | .keyword .listener => c.serverString fun config text => { config with listener := text }
  | .keyword .controller => c.serverString fun config text => { config with controller := text }
  | .keyword .broadcast => c.serverString fun config text => { config with broadcast := text }
  | .keyword .user => c.serverString fun config text => { config with runasUser := text }
  | .keyword .group => c.serverString fun config text => { config with runasGroup := text }
  | .keyword .pidfile => c.serverString fun config text => { config with pidfile := text }
  | .keyword .savefile => c.serverString fun config text => { config with savefile := text }
  | .keyword .keysfile => c.serverString fun config text => { config with keysfile := text }
  | .keyword .beacon => c.serverString fun config text => { config with beacon := text }
  | .keyword .dumpfiles => .ok c
  | .keyword .gracePeriod => c.gracePeriod
  | .keyword .maxEvents => c.maxEvents
  | .keyword .sweep => c.sweep
  | .keyword .saveSize => c.saveSize
  | .keyword .saveInterval => c.saveInterval
  | .keyword .nscaPort => c.nscaPort
  | .keyword .log => c.log
  | .keyword .use => c.use
  | .keyword .window => c.window
  | .keyword .type => c.type fuel
  | .keyword .state => c.state clock
  | .keyword .counter => c.counter
  | .keyword .sample => c.sample
  | .keyword .rate => c.rate
  | _ => .error .bail

end Conf

variable [Double R] [Pcre Re] [HashOrder]

def directives (clock : Nat → Int32) : Nat → Conf R Re → Except Stop (Conf R Re)
  | 0, _ => .error .outOfFuel
  | fuel + 1, c => do
    match ← orFault (lex c.parser) with
    -- a line that cannot be lexed ends the loop too, and is no error if it is the last one
    | (none, p) => if p.eof then return { c with parser := p } else .error .bail
    | (some token, p) => directives clock fuel (← { c with parser := p }.directive clock fuel token)

/-- `configure` on the bytes of a file, into a server with the given settings. -/
def configure (clock : Nat → Int32) (fuel : Nat) (s : Server R Re) (file : List UInt8) :
    Except Stop (Server R Re) := do
  let db := { Db.empty R Re with eventsCount := s.db.eventsCount }
  let c ← directives clock fuel
    { parser := .open file, server := { s with db := db },
      defaultType := none, defaultWin := none, readings := 0 }
  return c.server

/-- Where `configure` starts. -/
def Conf.start (s : Server R Re) (file : List UInt8) : Conf R Re :=
  { parser := .open file
    server := { s with db := { Db.empty R Re with eventsCount := s.db.eventsCount } }
    defaultType := none, defaultWin := none, readings := 0 }

/-- The zeroed server with the settings of `cmd_aggregator`. -/
def defaults (R Re : Type) : Server R Re where
  db := .empty R Re
  keys := .empty
  config :=
    { listener := some (.lit "tcp://*:2999")
      controller := some (.lit "tcp://127.0.0.1:2998")
      broadcast := some (.lit "tcp://*:2997")
      beacon := none
      nscaPort := 0
      logLevel := some (.lit "error")
      logFacility := some (.lit "daemon")
      pidfile := some (.lit "/var/run/bolo.pid")
      runasUser := some (.lit "bolo")
      runasGroup := some (.lit "bolo")
      savefile := some (.lit "/var/lib/bolo/save.db")
      keysfile := some (.lit "/var/lib/bolo/keys.db")
      saveSize := 4
      eventsMax := 0
      eventsKeep := .number
      gracePeriod := 15 }
  interval := { tick := 1000, freshness := 2, sweep := 60, savestate := 15 }

/-- The server that some run of `configure` on a file returns. -/
def Configured (clock : Nat → Int32) (file : List UInt8) (s : Server R Re) : Prop :=
  ∃ fuel, configure clock fuel (defaults R Re) file = .ok s

end Bolo
