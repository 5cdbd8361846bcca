import Bolo.Data.Types
import Bolo.Library.Buffer

/-!
# The configuration lexer

`lex` of `config.c`. It works on one line at a time in `buffer`, moves the rest of the
line to the front after each token, and leaves the text of a token in `value`. Both arrays
are reused: a shorter text is written over a longer one, and only some of the branches
terminate what they write.

The file is given as the sequence of lines that `fgets` returns for it. Line numbers are
only used in messages and are left out.
-/
namespace Bolo

open Library

def LINE_BUF_SIZE : Nat := 8192

inductive Keyword where
  | listener | controller | broadcast | nscaPort | user | group | pidfile | log | savefile
  | keysfile | beacon | sweep | dumpfiles | type | window | freshness | state | counter
  | sample | rate | use | maxEvents | gracePeriod | saveSize | saveInterval
  deriving DecidableEq, Repr

inductive Token where
  | keyword (k : Keyword)
  | openBrace | closeBrace | string | number | typename | windowname | match | time
  deriving DecidableEq, Repr

def keywords : List (String × Keyword) :=
  [("listener", .listener), ("controller", .controller), ("broadcast", .broadcast),
   ("nsca.port", .nscaPort), ("user", .user), ("group", .group), ("pidfile", .pidfile),
   ("log", .log), ("savefile", .savefile), ("keysfile", .keysfile), ("beacon", .beacon),
   ("sweep", .sweep), ("dumpfiles", .dumpfiles), ("type", .type), ("window", .window),
   ("freshness", .freshness), ("state", .state), ("counter", .counter), ("sample", .sample),
   ("rate", .rate), ("use", .use), ("max.events", .maxEvents), ("grace.period", .gracePeriod),
   ("save.size", .saveSize), ("save.interval", .saveInterval)]

def keyword (word : CString) : Option Keyword :=
  (keywords.find? fun e => .lit e.1 = word).map Prod.snd

/-- A byte of the source character set. -/
def chr (c : Char) : UInt8 := UInt8.ofNat c.toNat

/-! ## Lines -/

/-- The lines `fgets` returns, each with its newline and of `LINE_BUF_SIZE - 1` bytes at
most. -/
def fgetsLines (n : Nat) (line : List UInt8) : List UInt8 → List (List UInt8)
  | [] => if line.isEmpty then [] else [line.reverse]
  | c :: cs =>
    if c = chr '\n' ∨ n + 2 = LINE_BUF_SIZE then (c :: line).reverse :: fgetsLines 0 [] cs
    else fgetsLines (n + 1) (c :: line) cs

/-- Reading a line meets the end of the file if nothing else ended the line. -/
def reachesEof (line : List UInt8) : Bool :=
  line.getLast? ≠ some (chr '\n') && line.length + 1 ≠ LINE_BUF_SIZE

structure Parser where
  lines : List (List UInt8)
  eof : Bool
  value : Buffer LINE_BUF_SIZE
  buffer : Buffer LINE_BUF_SIZE
  deriving DecidableEq

def Parser.open (file : List UInt8) : Parser where
  lines := fgetsLines 0 [] file
  eof := false
  value := .zero _
  buffer := .zero _

/-- What a line leaves to be lexed: no leading blanks and no comment. -/
def uncomment (raw : List UInt8) : List UInt8 :=
  let a := (raw.takeWhile (· ≠ 0)).dropWhile isspace
  let a := if a.head? = some (chr '#') then a.dropWhile (· ≠ chr '\n') else a
  a.dropWhile isspace

/-- From the label `getline` to a line with something to lex. -/
def getline (p : Parser) : List (List UInt8) → Except Fault (Option Parser)
  | [] => .ok none
  | raw :: lines => do
    if uncomment raw = [] then getline p lines
    else
      let buffer ← inBounds (p.buffer.put 0 (uncomment raw ++ [0]))
      let q := { p with lines := lines, eof := reachesEof raw, buffer := buffer }
      if (← inBounds (buffer.read (← inBounds (buffer.scan isspace 0)))) = chr '#' then
        getline q lines
      else return some q

/-- The parser at the start of a token, `none` at the end of the file. -/
def ready (p : Parser) : Except Fault (Option Parser) := do
  if (← inBounds (p.buffer.read 0)) = 0 then getline p p.lines
  else if (← inBounds (p.buffer.read (← inBounds (p.buffer.scan isspace 0)))) = chr '#' then
    getline p p.lines
  else return some p

/-! ## Tokens -/

/-- Move what follows the token and its blanks to the front of the buffer. -/
def finish (p : Parser) (token : Token) (b : Nat) : Except Fault (Option Token × Parser) := do
  let b ← inBounds (p.buffer.scan isspace b)
  let e ← inBounds (p.buffer.scan (fun _ => true) b)
  let buffer ← inBounds (p.buffer.put 0 (p.buffer.slice b e ++ [0]))
  return (some token, { p with buffer := buffer })

/-- Bytes up to the end of a quoted string as they are copied, and how many were read. -/
def unquote : List UInt8 → List UInt8 × Nat
  | [] => ([], 0)
  | c :: cs =>
    if c = 0 || c = 34 || c = chr '\r' || c = chr '\n' then ([], 0)
    else if c = 92 then
      match cs with
      | [] => ([0], 2)
      | d :: ds => (d :: (unquote ds).1, (unquote ds).2 + 2)
    else (c :: (unquote cs).1, (unquote cs).2 + 1)

def lexQuoted (p : Parser) (b : Nat) : Except Fault (Option Token × Parser) := do
  if (← inBounds (p.buffer.read b)) = 34 then
    let (text, n) := unquote (p.buffer.bytes.drop (b + 1))
    let c ← inBounds (p.buffer.read (b + 1 + n))
    let value ← inBounds (p.value.put 0 (text ++ [0]))
    finish { p with value := value } .string (if c = 34 then b + 1 + n + 1 else b + 1 + n)
  else return (none, p)

/-- A name behind a sigil, `:type` or `@window`. On anything else the next branch is tried,
from the start of the token if the name was cut short. -/
def lexName (sigil : UInt8) (token : Token) (next : Nat → Except Fault (Option Token × Parser))
    (p : Parser) (a b : Nat) : Except Fault (Option Token × Parser) := do
  if (← inBounds (p.buffer.read b)) = sigil then
    let e ← inBounds (p.buffer.scan (fun c => isalnum c || c = chr '-' || c = chr '_') (b + 1))
    let c ← inBounds (p.buffer.read e)
    if c = 0 || isspace c then
      let buffer ← inBounds (p.buffer.put e [0])
      let value ← inBounds (p.value.put 0 (buffer.slice 0 (e + 1)))
      finish { p with buffer := buffer, value := value } token (e + 1)
    else next a
  else next b

def lexSigil (p : Parser) (a b : Nat) : Except Fault (Option Token × Parser) :=
  lexName (chr ':') .typename
    (lexName (chr '@') .windowname (lexQuoted p) p a) p a b

/-- A keyword or a bare string. -/
def lexWord (p : Parser) (a b : Nat) : Except Fault (Option Token × Parser) := do
  let c ← inBounds (p.buffer.read b)
  if isalnum c || c = chr '/' then
    let e ← inBounds (p.buffer.scan (fun c => isalnum c || ispunct c) (b + 1))
    let c ← inBounds (p.buffer.read e)
    if c = 0 || isspace c then
      let buffer ← inBounds (p.buffer.put e [0])
      let word ← inBounds (buffer.str a)
      match keyword word with
      | some k => finish { p with buffer := buffer } (.keyword k) (e + 1)
      | none =>
        let value ← inBounds (p.value.put 0 (buffer.slice 0 (e + 1)))
        finish { p with buffer := buffer, value := value } .string (e + 1)
    else lexSigil p a a
  else lexSigil p a b

/-- How far a pattern reaches: to a slash, a blank or the end, two bytes for an escape. -/
def patternLength : List UInt8 → Nat
  | [] => 0
  | c :: cs =>
    if c = 0 || isspace c || c = chr '/' then 0
    else if c = 92 then
      match cs with
      | [] => 2
      | _ :: ds => patternLength ds + 2
    else patternLength cs + 1

def lexMatch (p : Parser) (a : Nat) : Except Fault (Option Token × Parser) := do
  let b := a + patternLength (p.buffer.bytes.drop a)
  if (← inBounds (p.buffer.read b)) ≠ chr '/' then return (none, p)
  else
    let buffer ← inBounds (p.buffer.put b [0])
    let value ← inBounds (p.value.put 0 (buffer.slice a (b + 1)))
    finish { p with buffer := buffer, value := value } .match (b + 1)

def lexText (p : Parser) (a b : Nat) : Except Fault (Option Token × Parser) := do
  if (← inBounds (p.buffer.read b)) = chr 'm' then
    if (← inBounds (p.buffer.read (b + 1))) = chr '/' then lexMatch p (b + 2)
    else lexWord p a a
  else lexWord p a b

/-- Seconds in a unit of time. -/
def unit (c : UInt8) : Option Int32 :=
  if c = chr 'd' then some 86400 else if c = chr 'h' then some 3600
  else if c = chr 'm' then some 60 else if c = chr 's' then some 1 else none

/-- A number, copied without a terminator; or a time, which drops the rest of the line. -/
def lexNumber (p : Parser) (a : Nat) : Except Fault (Option Token × Parser) := do
  let b ← inBounds (p.buffer.scan isdigit a)
  let c ← inBounds (p.buffer.read b)
  if c = 0 || isspace c then
    let value ← inBounds (p.value.put 0 (p.buffer.slice 0 b))
    finish { p with value := value } .number b
  else
    match unit c with
    | some mult =>
      let buffer ← inBounds (p.buffer.put b [0])
      let n ← inBounds (buffer.str 0)
      let value ← inBounds (p.value.put 0 ((decimalInt (atoi n * mult).toInt).bytes ++ [0]))
      finish { p with buffer := buffer, value := value } .time b
    | none => lexText p a b

def lexToken (p : Parser) : Except Fault (Option Token × Parser) := do
  let value ← inBounds (p.value.put 0 [0])
  let p := { p with value := value }
  let a ← inBounds (p.buffer.scan isspace 0)
  let c ← inBounds (p.buffer.read a)
  if c = chr '\x7b' then finish p .openBrace (a + 1)
  else if c = chr '\x7d' then finish p .closeBrace (a + 1)
  else if isdigit c then lexNumber p a
  else lexText p a a

/-- The next token, `none` where `lex` returns 0. -/
def lex (p : Parser) : Except Fault (Option Token × Parser) := do
  match ← ready p with
  | none => return (none, { p with lines := [], eof := true })
  | some p => lexToken p

end Bolo
