import Bolo.Agents.Stream
import Bolo.Config.Loaded
import Bolo.Config.Reference
import Bolo.Library.Lines
import Bolo.Kernel.EventBuffer
import Bolo.Kernel.Independence
import Bolo.Kernel.Keys

/-!
# The sender and the kernel agree

A line that the sender makes a PDU of is accepted by exactly one branch of the listener,
which finds in it what the line says. `Says` is the meaning of a line, word by word, and
`Heard` is what the kernel has to do about a report. Neither mentions the frames that carry
it.
-/
namespace Bolo

open Library

namespace Stream

/-! ## Reports -/

inductive Report where
  | state (ts name : CString) (status : UInt8) (msg : CString)
  | counter (ts name : CString) (incr : Int)
  | sample (ts name value : CString) (values : List CString)
  | rate (ts name value : CString)
  | event (ts name description : CString)
  | keys (pairs : List (CString × CString))

/-- The status of a code word, in letters of either case. -/
inductive CodeWord (code : CString) : UInt8 → Prop
  | ok {word : String} : word ∈ ["0", "ok", "okay"] →
      code.bytes.map tolower = CString.ascii word → CodeWord code 0
  | warning {word : String} : word ∈ ["1", "warn", "warning"] →
      code.bytes.map tolower = CString.ascii word → CodeWord code 1
  | critical {word : String} : word ∈ ["2", "crit", "critical"] →
      code.bytes.map tolower = CString.ascii word → CodeWord code 2
  | other : (∀ word ∈ ["0", "ok", "okay", "1", "warn", "warning", "2", "crit", "critical"],
      code.bytes.map tolower ≠ CString.ascii word) → CodeWord code 3

/-- Words with single spaces between them. -/
inductive Spaced : List CString → CString → Prop
  | last (word : CString) : Spaced [word] word
  | cons {word text : CString} {words : List CString} : Spaced words text →
      Spaced (word :: words) (word ++ .lit " " ++ text)

/-- A key with the text after its first `=`, or a key alone, which is set to 1. -/
inductive Assigns : CString → CString × CString → Prop
  | value {key value : CString} : EQUALS ∉ key.bytes →
      Assigns (key ++ .lit "=" ++ value) (key, value)
  | alone {key : CString} : EQUALS ∉ key.bytes → Assigns key (key, .lit "1")

/-- What the words of a line say. An increment is a numeral that fits an `int`; for any other
word in its place the report is what `atoi` makes of it. -/
inductive Says : List CString → Report → Prop
  | state {keyword ts name code word msg : CString} {rest : List CString} {status : UInt8} :
      strcasecmpEq keyword (.lit "STATE") → CodeWord code status → Spaced (word :: rest) msg →
      Says (keyword :: ts :: name :: code :: word :: rest) (.state ts name status msg)
  | counter {keyword ts name : CString} : strcasecmpEq keyword (.lit "COUNTER") →
      Says [keyword, ts, name] (.counter ts name 1)
  | counterBy {keyword ts name word : CString} {incr : Int} :
      strcasecmpEq keyword (.lit "COUNTER") → Numeral word.bytes incr → -2 ^ 31 ≤ incr →
      incr < 2 ^ 31 → Says [keyword, ts, name, word] (.counter ts name incr)
  | counterWord {keyword ts name word : CString} : strcasecmpEq keyword (.lit "COUNTER") →
      Says [keyword, ts, name, word] (.counter ts name (atoi word).toInt)
  | counterWords {keyword ts name word word' : CString} {rest : List CString} :
      strcasecmpEq keyword (.lit "COUNTER") →
      Says (keyword :: ts :: name :: word :: word' :: rest) (.counter ts name 1)
  | sample {keyword ts name value : CString} {values : List CString} :
      strcasecmpEq keyword (.lit "SAMPLE") →
      Says (keyword :: ts :: name :: value :: values) (.sample ts name value values)
  | rate {keyword ts name value : CString} {rest : List CString} :
      strcasecmpEq keyword (.lit "RATE") →
      Says (keyword :: ts :: name :: value :: rest) (.rate ts name value)
  | event {keyword ts name word description : CString} {rest : List CString} :
      strcasecmpEq keyword (.lit "EVENT") → Spaced (word :: rest) description →
      Says (keyword :: ts :: name :: word :: rest) (.event ts name description)
  | keys {keyword arg : CString} {args : List CString} {pairs : List (CString × CString)} :
      strcasecmpEq keyword (.lit "KEY") → List.Forall₂ Assigns (arg :: args) pairs →
      Says (keyword :: arg :: args) (.keys pairs)

/-- `statusOf` knows the code words. -/
theorem codeWord_iff {code : CString} {status : UInt8} :
    CodeWord code status ↔ status = statusOf code := by
  have hlit (word : String) (hword : (CString.lit word).bytes.map tolower = CString.ascii word) :
      strcasecmpEq code (.lit word) = decide (code.bytes.map tolower = CString.ascii word) := by
    rw [strcasecmpEq, hword]
  have hstatus : statusOf code =
      if code.bytes.map tolower ∈ ["0", "ok", "okay"].map CString.ascii then 0
      else if code.bytes.map tolower ∈ ["1", "warn", "warning"].map CString.ascii then 1
      else if code.bytes.map tolower ∈ ["2", "crit", "critical"].map CString.ascii then 2
      else 3 := by
    simp only [statusOf, hlit "0" (by decide), hlit "ok" (by decide), hlit "okay" (by decide),
      hlit "1" (by decide), hlit "warn" (by decide), hlit "warning" (by decide),
      hlit "2" (by decide), hlit "crit" (by decide), hlit "critical" (by decide)]
    simp [OK, WARNING, CRITICAL, UNKNOWN, or_assoc]
  rw [hstatus]
  constructor
  · intro h
    cases h with
    | ok hword hlower | warning hword hlower | critical hword hlower =>
      simp only [List.mem_cons, List.not_mem_nil, or_false] at hword
      rw [hlower]
      rcases hword with rfl | rfl | rfl <;> decide
    | other h =>
      simp only [List.forall_mem_cons] at h
      simp [h]
  · rintro rfl
    split_ifs with hok hwarning hcritical
    · obtain ⟨word, hword, hlower⟩ := List.mem_map.mp hok
      exact .ok hword hlower.symm
    · obtain ⟨word, hword, hlower⟩ := List.mem_map.mp hwarning
      exact .warning hword hlower.symm
    · obtain ⟨word, hword, hlower⟩ := List.mem_map.mp hcritical
      exact .critical hword hlower.symm
    · refine .other fun word hword hlower => ?_
      rw [hlower] at hok hwarning hcritical
      simp only [List.mem_cons, List.not_mem_nil, or_false] at hword
      rcases hword with rfl | rfl | rfl | rfl | rfl | rfl | rfl | rfl | rfl <;> simp at *

theorem spaced_iff {word text : CString} {words : List CString} :
    Spaced (word :: words) text ↔ text = stringsJoin (word :: words) := by
  have hcons (word next : CString) (words : List CString) : stringsJoin (word :: next :: words) =
      word ++ .lit " " ++ stringsJoin (next :: words) := by
    have h0 : (0 : UInt8) ∉ word.bytes ++ [SPACE] := by simp [word.nulFree, SPACE]
    apply CString.ext
    rw [stringsJoin, List.map_cons, List.map_cons, List.intercalate_cons_cons,
      CString.bytes_ofBytes_append h0]
    rfl
  induction words generalizing word text with
  | nil =>
    have hone : stringsJoin [word] = word := by simp [stringsJoin]
    rw [hone]
    constructor
    · intro h
      cases h with
      | last => rfl
      | cons h => cases h
    · rintro rfl
      exact .last text
  | cons next words ih =>
    rw [hcons]
    constructor
    · intro h
      cases h with
      | cons h => rw [ih.mp h]
    · rintro rfl
      exact .cons (ih.mpr rfl)

theorem assigns_iff {arg : CString} {pair : CString × CString} :
    Assigns arg pair ↔ pair = parseSetkey arg := by
  have hvalue {key value : CString} (h : EQUALS ∉ key.bytes) :
      parseSetkey (key ++ .lit "=" ++ value) = (key, value) := by
    have hstop : ∀ b ∈ key.bytes, decide (b ≠ EQUALS) = true :=
      fun b hb => decide_eq_true (ne_of_mem_of_not_mem hb h)
    have hbytes : (key ++ .lit "=" ++ value).bytes = key.bytes ++ EQUALS :: value.bytes := by
      rw [CString.bytes_append, CString.bytes_append, List.append_assoc]
      rfl
    rw [parseSetkey, hbytes, List.takeWhile_append_of_pos hstop, List.dropWhile_append_of_pos hstop]
    simp
  have halone {key : CString} (h : EQUALS ∉ key.bytes) : parseSetkey key = (key, .lit "1") := by
    have hstop : key.bytes.takeWhile (· ≠ EQUALS) = key.bytes :=
      List.takeWhile_eq_self_iff.mpr fun b hb => decide_eq_true (ne_of_mem_of_not_mem hb h)
    rw [parseSetkey, hstop, if_neg h, CString.ofBytes_bytes]
  constructor
  · intro h
    cases h with
    | value h => exact (hvalue h).symm
    | alone h => exact (halone h).symm
  · rintro rfl
    by_cases h : EQUALS ∈ arg.bytes
    · obtain ⟨x, y, hxy, hx⟩ := List.eq_append_cons_of_mem h
      have h0 := arg.nulFree
      rw [hxy] at h0
      obtain rfl : arg = (⟨x, fun hm => h0 (by simp [hm])⟩ : CString) ++ .lit "=" ++
          ⟨y, fun hm => h0 (by simp [hm])⟩ := CString.ext (by simp [hxy]; rfl)
      rw [hvalue hx]
      exact .value hx
    · rw [halone h]
      exact .alone h

theorem forall₂_assigns {args : List CString} {pairs : List (CString × CString)} :
    List.Forall₂ Assigns args pairs ↔ pairs = args.map parseSetkey := by
  induction args generalizing pairs with
  | nil => simp
  | cons arg args ih => cases pairs <;> simp [assigns_iff, ih]

/-- The PDU that carries a report. -/
def Report.pdu : Report → Pdu
  | .state ts name status msg =>
      { type := Tag.state.text, frames := [ts, name, decimal status.toNat, msg] }
  | .counter ts name incr =>
      { type := Tag.counter.text
        frames := [ts, name, decimal (Int32.ofInt incr).toUInt32.toNat] }
  | .sample ts name value values =>
      { type := Tag.sample.text, frames := ts :: name :: value :: values }
  | .rate ts name value => { type := Tag.rate.text, frames := [ts, name, value] }
  | .event ts name description =>
      { type := Tag.event.text, frames := [ts, name, description] }
  | .keys pairs =>
      { type := Tag.setKeys.text, frames := pairs.flatMap fun pair => [pair.1, pair.2] }

/-! ## The sender -/

section Sender

variable {time : Int32} {line keyword : CString} {strings : List CString} {p : Pdu}

inductive Command where
  | state | counter | sample | rate | key | event
  deriving DecidableEq

def Command.text : Command → CString
  | .state => .lit "STATE"
  | .counter => .lit "COUNTER"
  | .sample => .lit "SAMPLE"
  | .rate => .lit "RATE"
  | .key => .lit "KEY"
  | .event => .lit "EVENT"

def Command.parse (time : Int32) (strings : List CString) : Command → Except Crash (Option Pdu)
  | .state => .ok (parseStatePdu time strings.tail strings.head?)
  | .counter => .ok (parseCounterPdu time strings.tail strings.head?)
  | .sample => .ok (parseSamplePdu time strings.tail strings.head?)
  | .rate => .ok (parseRatePdu time strings.tail strings.head?)
  | .key => .ok (parseSetkeysPdu strings)
  | .event => parseEventPdu time strings.tail strings.head?

/-- The command of a keyword. -/
def command? (keyword : CString) : Option Command :=
  [Command.state, .counter, .sample, .rate, .key, .event].find? fun c => strcasecmpEq keyword c.text

theorem command?_eq_some {c : Command} :
    command? keyword = some c ↔ strcasecmpEq keyword c.text := by
  refine ⟨List.find?_some, fun hkey => ?_⟩
  -- no two commands have the same text, in any case
  have hother (d : Command) : strcasecmpEq keyword d.text = decide (d = c) := by
    by_cases hd : d = c
    · simpa [hd] using hkey
    · rw [decide_eq_false hd]
      refine strcasecmpEq_of_ne hkey ?_
      cases c <;> cases d <;> first | exact absurd rfl hd | decide
  rw [command?, funext hother]
  cases c <;> rfl

/-- The line is handed on by its keyword. -/
theorem streamPdu_cons (hwords : words line = keyword :: strings) : streamPdu time line =
    (command? keyword).elim (.ok none) fun c => c.parse time strings := by
  have hne : line.bytes.dropWhile isspace ≠ [] := by
    intro hnil
    simp [words, hnil, stringsSplit] at hwords
  have hstep (c : Command) (cs : List Command) (f : Command → Except Crash (Option Pdu)) :
      ((c :: cs).find? fun c => strcasecmpEq keyword c.text).elim (.ok none) f =
        if strcasecmpEq keyword c.text then f c
        else (cs.find? fun c => strcasecmpEq keyword c.text).elim (.ok none) f := by
    cases h : strcasecmpEq keyword c.text <;> simp [h]
  rw [streamPdu, if_neg hne, hwords, command?, hstep, hstep, hstep, hstep, hstep, hstep]
  rfl

/-- A line that is sent starts with a command. -/
theorem command_of_sent (h : streamPdu time line = .ok (some p)) :
    ∃ (keyword : CString) (strings : List CString) (c : Command), words line = keyword :: strings ∧
      strcasecmpEq keyword c.text ∧ c.parse time strings = .ok (some p) := by
  cases hwords : words line with
  | nil =>
    unfold streamPdu at h
    split at h
    · simp at h
    · simp [hwords] at h
  | cons keyword strings =>
    rw [streamPdu_cons hwords] at h
    cases hcommand : command? keyword with
    | none => simp [hcommand] at h
    | some c =>
      rw [hcommand] at h
      exact ⟨keyword, strings, c, rfl, command?_eq_some.mp hcommand, h⟩

/-- A line that is sent says something. -/
theorem says_of_sent (h : streamPdu time line = .ok (some p)) : ∃ r, Says (words line) r := by
  obtain ⟨keyword, strings, c, hwords, hkey, hparse⟩ := command_of_sent h
  rw [hwords]
  -- too few words make no PDU
  cases c with
  | state =>
    match strings with
    | ts :: name :: code :: word :: rest =>
      exact ⟨_, .state hkey (codeWord_iff.mpr rfl) (spaced_iff.mpr rfl)⟩
    | [] | [_] | [_, _] | [_, _, _] => simp [Command.parse, parseStatePdu] at hparse
  | counter =>
    match strings with
    | [ts, name] => exact ⟨_, .counter hkey⟩
    | [ts, name, word] => exact ⟨_, .counterWord hkey⟩
    | ts :: name :: word :: word' :: rest => exact ⟨_, .counterWords hkey⟩
    | [] | [_] => simp [Command.parse, parseCounterPdu] at hparse
  | sample =>
    match strings with
    | ts :: name :: value :: values => exact ⟨_, .sample hkey⟩
    | [] | [_] | [_, _] => simp [Command.parse, parseSamplePdu] at hparse
  | rate =>
    match strings with
    | ts :: name :: value :: rest => exact ⟨_, .rate hkey⟩
    | [] | [_] | [_, _] => simp [Command.parse, parseRatePdu] at hparse
  | key =>
    match strings with
    | arg :: args => exact ⟨_, .keys hkey (forall₂_assigns.mpr rfl)⟩
    | [] => simp [Command.parse, parseSetkeysPdu] at hparse
  | event =>
    match strings with
    | ts :: name :: word :: rest => exact ⟨_, .event hkey (spaced_iff.mpr rfl)⟩
    | [] | [_] | [_, _] => simp [Command.parse, parseEventPdu] at hparse

/-- What is sent carries what the line says. -/
theorem sent_pdu (h : streamPdu time line = .ok (some p)) {r : Report}
    (hr : Says (words line) r) : p = r.pdu := by
  generalize hwords : words line = strings at hr
  have sent (c : Command) {keyword : CString} {strings : List CString} {q : Pdu}
      (hkey : strcasecmpEq keyword c.text) (hwords : words line = keyword :: strings)
      (hq : c.parse time strings = .ok (some q)) : p = q := by
    rw [streamPdu_cons hwords, command?_eq_some.mpr hkey, Option.elim_some, hq] at h
    exact (Option.some.inj (Except.ok.inj h)).symm
  cases hr with
  | state hkey hcode hmsg =>
    obtain rfl := codeWord_iff.mp hcode
    obtain rfl := spaced_iff.mp hmsg
    exact sent .state hkey hwords rfl
  | counter hkey | counterWords hkey => exact sent .counter hkey hwords rfl
  | @counterBy _ ts name word incr hkey hnumeral hlo hhi =>
    have hincr : atoi word = Int32.ofInt incr := by
      rw [← atoi_numeral hnumeral hlo hhi, Int32.ofInt_toInt]
    rw [Report.pdu, ← hincr]
    exact sent .counter hkey hwords rfl
  | counterWord hkey =>
    rw [Report.pdu, Int32.ofInt_toInt]
    exact sent .counter hkey hwords rfl
  | sample hkey => exact sent .sample hkey hwords rfl
  | rate hkey => exact sent .rate hkey hwords rfl
  | event hkey htext =>
    obtain rfl := spaced_iff.mp htext
    exact sent .event hkey hwords rfl
  | keys hkey hpairs =>
    obtain rfl := forall₂_assigns.mp hpairs
    rw [Report.pdu, List.flatMap_map]
    exact sent .key hkey hwords rfl

end Sender

/-! ## The listener -/

/-- The branches of the listener. -/
inductive Branch where
  | state | counter | sample | rate | event | setKeys
  deriving DecidableEq

def Branch.accepts (p : Pdu) : Branch → Bool
  | .state => p.is .state 5 5
  | .counter => p.is .counter 4 4
  | .sample => p.is .sample 4 0
  | .rate => p.is .rate 4 4
  | .event => p.is .event 4 4
  | .setKeys => p.is .setKeys 3 0 && (p.size - 1) % 2 = 0

def Branch.tag : Branch → Tag
  | .state => .state
  | .counter => .counter
  | .sample => .sample
  | .rate => .rate
  | .event => .event
  | .setKeys => .setKeys

theorem Branch.tag_injective : Function.Injective Branch.tag := by
  intro a b h
  cases a <;> cases b <;> first | rfl | cases h

theorem Branch.type_of_accepts {b : Branch} {p : Pdu} (h : b.accepts p) : p.type = b.tag.text := by
  cases b with
  | setKeys => exact Pdu.type_of_is (Bool.and_eq_true_iff.mp h).1
  | state | counter | sample | rate | event => exact Pdu.type_of_is h

theorem Branch.accepts_unique {b b' : Branch} {p : Pdu} (h : b.accepts p) (h' : b'.accepts p) :
    b = b' :=
  Branch.tag_injective (Tag.text_inj.mp ((b.type_of_accepts h).symm.trans (b'.type_of_accepts h')))

def Report.branch : Report → Branch
  | .state .. => .state
  | .counter .. => .counter
  | .sample .. => .sample
  | .rate .. => .rate
  | .event .. => .event
  | .keys .. => .setKeys

theorem size_keys (pairs : List (CString × CString)) :
    (Report.keys pairs).pdu.size = 2 * pairs.length + 1 := by
  simp only [Report.pdu, Pdu.size]
  induction pairs with
  | nil => rfl
  | cons pair pairs ih =>
    simp only [List.flatMap_cons, List.length_append, List.length_cons, List.length_nil] at *
    omega

theorem branch_accepts {words : List CString} {r : Report} (hr : Says words r) :
    r.branch.accepts r.pdu := by
  cases hr with
  | @keys keyword arg args pairs _ hpairs =>
    have hsize := size_keys pairs
    rw [← hpairs.length_eq, List.length_cons] at hsize
    simp only [Report.branch, Branch.accepts, Pdu.is, hsize, Bool.and_eq_true, decide_eq_true_eq,
      Bool.or_eq_true]
    refine ⟨⟨⟨.inr (by omega), .inl trivial⟩, rfl⟩, by omega⟩
  | sample _ | state _ _ _ | counter _ | counterBy _ _ _ _ | counterWord _ | counterWords _ | rate _
  | event _ _ => simp [Report.branch, Branch.accepts, Report.pdu, Pdu.is, Pdu.size]

/-! ## What the kernel hears -/

section Kernel

variable {R Re : Type} [Double R] [Pcre Re] [HashOrder]

/-- The timestamp as the listener reads it. -/
def seconds (ts : CString) : UInt32 := (strtoul ts).toUInt32

/-- What the kernel does about a report that reaches it as `p`. -/
def Report.Heard (now : Int32) (k : Kernel R Re) (p : Pdu) : Report → Prop
  | .state ts name status msg =>
    ∀ s, lookupState now k.db.stateMatches name (k.db.states.get? name) = .ok (some s) →
      s.ignore = 0 → ∃ k' es s', listen now p k = .ok (k', es) ∧
        k'.db.states.get? name = some s' ∧ s'.status = status ∧ s'.summary = some msg ∧
        s'.lastSeen = (seconds ts).toInt32 ∧ s'.stale = 0
  | .counter ts name incr =>
    ∀ c closed, lookup Counter.blank k.db.counterMatches name (k.db.counters.get? name) = some c →
      c.ignore = 0 → (counterSeries : Series R Re _ _).rollover c (seconds ts) = .ok closed →
      ∃ k' es c', listen now p k = .ok (k', es) ∧ k'.db.counters.get? name = some c' ∧
        c'.value = (if closed then 0 else c.value) + UInt64.ofInt incr ∧
        c'.lastSeen = (seconds ts).toInt32
  | .sample ts name value values =>
    ∀ s closed, lookup Sample.blank k.db.sampleMatches name (k.db.samples.get? name) = some s →
      s.ignore = 0 → (sampleSeries : Series R Re _ _).rollover s (seconds ts) = .ok closed →
      ∃ k' es, listen now p k = .ok (k', es) ∧ k'.db.samples.get? name =
        some ((value :: values).foldl
          (fun s v => { sampleData s (Double.strtod v) with lastSeen := (seconds ts).toInt32 })
          (if closed then sampleReset s else s))
  | .rate ts name value =>
    ∀ r closed, lookup Rate.blank k.db.rateMatches name (k.db.rates.get? name) = some r →
      r.ignore = 0 → (rateSeries : Series R Re _ _).rollover r (seconds ts) = .ok closed →
      ∃ k' es r', listen now p k = .ok (k', es) ∧ k'.db.rates.get? name = some r' ∧
        r'.last = strtoul value ∧ r'.lastSeen = (seconds ts).toInt32
  | .event ts name description =>
    ∀ b, k.db.buffer.push k.server.config.eventsMax k.server.config.eventsKeep
        { timestamp := (strtol ts).toInt32, name := some name, extra := some description } = .ok b →
      ∃ k' es, listen now p k = .ok (k', es) ∧ k'.db.buffer = b
  | .keys pairs =>
    ∃ k' es, listen now p k = .ok (k', es) ∧ ∀ key, k'.server.keys.get? key =
      (lastWrite (pairs.map fun pair => (pair.1, some pair.2)) key).or (k.server.keys.get? key)

end Kernel

/-! ## The frames are read back -/

theorem atoi_status (n : UInt8) : (atoi (decimal n.toNat)).toUInt32.toUInt8 = n := by
  have hlt : n.toNat < 2 ^ 8 := n.toNat_lt
  have hread := atoi_numeral (numeral_decimal n.toNat) (by omega) (by omega)
  rw [← Int32.ofInt_toInt (atoi _), hread, Int32.ofInt_eq_ofNat]
  apply UInt8.toNat_inj.mp
  change (BitVec.ofNat 32 n.toNat).toNat % 256 = n.toNat
  rw [BitVec.toNat_ofNat]
  omega

theorem words_nonempty (line : CString) : ∀ w ∈ words line, w.bytes ≠ [] := by
  intro w hw
  obtain ⟨l, hl, rfl⟩ := List.mem_map.mp hw
  obtain ⟨hmem, hne⟩ := List.mem_filter.mp hl
  have h0 : 0 ∉ l := fun h =>
    line.nulFree ((List.dropWhile_suffix _).subset (subset_of_mem_splitOn hmem h))
  rw [CString.bytes_ofBytes h0]
  simpa using hne

theorem Spaced.nonempty {w text : CString} {ws : List CString} (h : Spaced (w :: ws) text)
    (hw : w.bytes ≠ []) : text.bytes ≠ [] := by
  cases h with
  | last => exact hw
  | cons h => simp [hw]

theorem decodeHead_eq {type ts name : CString} {frames : List CString} (h : name.bytes ≠ []) :
    decodeHead { type := type, frames := ts :: name :: frames } = some (name, seconds ts) := by
  have hname : name.isEmpty = false := by simpa [CString.isEmpty] using h
  simp [decodeHead, Pdu.string, hname, seconds]

theorem decodeState_eq {ts name msg : CString} {status : UInt8} (hname : name.bytes ≠ [])
    (hmsg : msg.bytes ≠ []) : decodeState (Report.state ts name status msg).pdu =
      some (name, seconds ts, status, msg) := by
  have hname' : name.isEmpty = false := by simpa [CString.isEmpty] using hname
  have hmsg' : msg.isEmpty = false := by simpa [CString.isEmpty] using hmsg
  simp [decodeState, Report.pdu, Pdu.string, hname', hmsg', seconds, atoi_status]

theorem setWrites_flatMap (pairs : List (CString × CString)) :
    setWrites (pairs.flatMap fun pair => [pair.1, pair.2]) =
      pairs.map fun pair => (pair.1, some pair.2) := by
  induction pairs with
  | nil => rfl
  | cons pair pairs ih => simp [List.flatMap_cons, setWrites, ih]

section Heard

variable {R Re : Type} [Double R] [Pcre Re] [HashOrder] {k : Kernel R Re} (hwf : k.db.Wf)
  (now : Int32)

include hwf in
theorem series_heard (κ : Kind) {p : Pdu} {name : CString} {ts : UInt32} {v : κ.Value R}
    {x : κ.Record R} {closed : Bool} (hp : p.is κ.tag 4 κ.maxFrames)
    (hd : (κ.series : Series R Re _ _).decode p = some (name, ts, v))
    (hfound : lookup (κ.series : Series R Re _ _).blank (κ.series.rules k.db) name
      ((κ.series.table k.db).get? name) = some x)
    (hignore : (κ.series : Series R Re _ _).ignore x = 0)
    (hroll : (κ.series : Series R Re _ _).rollover x ts = .ok closed) :
    ∃ k' es, listen now p k = .ok (k', es) ∧ (κ.series.table k'.db).get? name =
      some ((κ.series : Series R Re _ _).update ts v
        (if closed then (κ.series : Series R Re _ _).reset x else x)) := by
  have hx := Series.lookup_wf _ (hwf.rules κ) (fun y hy => hwf.series κ name y hy) hfound
  obtain ⟨db', out, hreceive, hget⟩ := Series.receive_taken _ hd hfound hignore hx.name hroll
  refine ⟨k.setDb db', out.map .broadcast, ?_, hget⟩
  rw [listen_series hp, hreceive]
  rfl

omit [Double R] [HashOrder] in
theorem lookupState_wf {rules : List (Rule TypeDef Re)} {name : CString} {found : Option State}
    {s : State} (hr : ∀ r ∈ rules, ∃ t, r.target = some t ∧ t.Wf)
    (hf : ∀ s, found = some s → s.Wf name)
    (h : lookupState now rules name found = .ok (some s)) : s.Wf name := by
  unfold lookupState at h
  split at h
  · obtain rfl := Option.some.inj (Except.ok.inj h)
    exact hf _ rfl
  · split at h
    · simp at h
    · case h_2 target hm =>
        obtain ⟨r, hmem, rfl⟩ := firstMatch_mem hm
        obtain ⟨t, ht, htwf⟩ := hr r hmem
        rw [ht, deref_some, ok_bind] at h
        obtain rfl := Option.some.inj (Except.ok.inj h)
        exact ⟨⟨t, rfl, htwf⟩, rfl, _, rfl⟩

include hwf in
theorem state_heard {ts name msg : CString} {status : UInt8} (hname : name.bytes ≠ [])
    (hmsg : msg.bytes ≠ []) : (Report.state ts name status msg).Heard now k
      (Report.state ts name status msg).pdu := by
  intro s hfound hignore
  have hs := lookupState_wf now hwf.stateMatches (fun s hs => hwf.states name s hs) hfound
  obtain ⟨type, htype, -⟩ := hs.type
  obtain ⟨db', out, hreceive, hget⟩ :=
    receiveState_taken (decodeState_eq hname hmsg) hfound hignore hs.name htype
  refine ⟨k.setDb db', out.map .broadcast, _, ?_, hget, rfl, rfl, rfl, rfl⟩
  rw [listen_state (by simp [Report.pdu, Pdu.is, Pdu.size]), hreceive]
  rfl

include hwf in
theorem counter_heard {ts name : CString} {incr : Int} (hname : name.bytes ≠ [])
    (hlo : -2 ^ 31 ≤ incr) (hhi : incr < 2 ^ 31) :
    (Report.counter ts name incr).Heard now k (Report.counter ts name incr).pdu := by
  intro c closed hfound hignore hroll
  have hd : (counterSeries : Series R Re _ _).decode (Report.counter ts name incr).pdu =
      some (name, seconds ts, Int32.ofInt incr) := by
    simp only [counterSeries, Report.pdu, decodeHead_eq hname, Pdu.string, bind, Option.bind]
    simp [strtol_unsigned]
  obtain ⟨k', es, hlisten, hget⟩ := series_heard hwf now .counter
    (by simp [Report.pdu, Pdu.is, Pdu.size, Kind.tag, Kind.maxFrames]) hd hfound hignore hroll
  have hincr : (Int32.ofInt incr).toInt64.toUInt64 = UInt64.ofInt incr := by
    rw [toUInt64_toInt64, Int32.toInt_ofInt_of_le (by omega) (by omega)]
  refine ⟨k', es, _, hlisten, hget, ?_, rfl⟩
  rw [← hincr]
  cases closed <;> rfl

include hwf in
theorem sample_heard {ts name value : CString} {values : List CString} (hname : name.bytes ≠ []) :
    (Report.sample ts name value values).Heard now k (Report.sample ts name value values).pdu := by
  intro s closed hfound hignore hroll
  have hd : (sampleSeries : Series R Re _ _).decode (Report.sample ts name value values).pdu =
      some (name, seconds ts, Double.strtod value, values.map Double.strtod) := by
    simp only [sampleSeries, Report.pdu, decodeHead_eq hname, bind, Option.bind]
    rfl
  obtain ⟨k', es, hlisten, hget⟩ := series_heard hwf now .sample
    (by simp [Report.pdu, Pdu.is, Pdu.size, Kind.tag, Kind.maxFrames]) hd hfound hignore hroll
  refine ⟨k', es, hlisten, hget.trans (congrArg some ?_)⟩
  exact List.foldl_map (l := value :: values)

include hwf in
theorem rate_heard {ts name value : CString} (hname : name.bytes ≠ []) :
    (Report.rate ts name value).Heard now k (Report.rate ts name value).pdu := by
  intro r closed hfound hignore hroll
  have hd : (rateSeries : Series R Re _ _).decode (Report.rate ts name value).pdu =
      some (name, seconds ts, strtoul value) := by
    simp only [rateSeries, Report.pdu, decodeHead_eq hname, Pdu.string, bind, Option.bind]
    rfl
  obtain ⟨k', es, hlisten, hget⟩ := series_heard hwf now .rate
    (by simp [Report.pdu, Pdu.is, Pdu.size, Kind.tag, Kind.maxFrames]) hd hfound hignore hroll
  exact ⟨k', es, _, hlisten, hget, rfl, rfl⟩

theorem event_heard (ts name description : CString) :
    (Report.event ts name description).Heard now k (Report.event ts name description).pdu := by
  intro b hpush
  have hp : (Report.event ts name description).pdu.is .event 4 4 := by
    simp [Report.pdu, Pdu.is, Pdu.size]
  obtain ⟨ev, out, hev, -, hreceive⟩ := receiveEvent_eq hp k.server.config k.db
  have hdecode : decodeEvent (Report.event ts name description).pdu =
      some ⟨(strtol ts).toInt32, some name, some description⟩ := rfl
  obtain rfl := Option.some.inj (hdecode.symm.trans hev)
  refine ⟨k.setDb { k.db with events := b.events, eventsCount := b.count }, [.broadcast out], ?_,
    rfl⟩
  rw [listen_event hp, hreceive, hpush]
  rfl

theorem keys_heard {pairs : List (CString × CString)} (hpairs : pairs ≠ []) :
    (Report.keys pairs).Heard now k (Report.keys pairs).pdu := by
  have hlen : 0 < pairs.length := List.length_pos_iff.mpr hpairs
  have hp : (Report.keys pairs).pdu.is .setKeys 3 0 := by
    simp only [Pdu.is, size_keys, Bool.and_eq_true, decide_eq_true_eq, Bool.or_eq_true]
    exact ⟨⟨.inr (by omega), .inl trivial⟩, rfl⟩
  have hwrites : (Input.listener now (Report.keys pairs).pdu).keyWrites =
      pairs.map fun pair => (pair.1, some pair.2) := by
    have heven : ((Report.keys pairs).pdu.size - 1) % 2 = 0 := by rw [size_keys]; omega
    simp only [Input.keyWrites, hp, heven, decide_true, Bool.and_self, if_true]
    exact setWrites_flatMap pairs
  refine ⟨_, _, listen_setKeys hp now k, fun key => ?_⟩
  rw [hwrites, get?_writeKeys]

include hwf in
/-- The kernel hears what a line says. -/
theorem report_heard {line : CString} {r : Report} (hr : Says (words line) r) :
    r.Heard now k r.pdu := by
  have hwords := words_nonempty line
  generalize words line = strings at hr hwords
  cases hr with
  | state _ _ hmsg =>
    exact state_heard hwf now (hwords _ (by simp)) (hmsg.nonempty (hwords _ (by simp)))
  | counter _ | counterWords _ =>
    exact counter_heard hwf now (hwords _ (by simp)) (by decide) (by decide)
  | counterBy _ _ hlo hhi => exact counter_heard hwf now (hwords _ (by simp)) hlo hhi
  | counterWord _ =>
    exact counter_heard hwf now (hwords _ (by simp)) (Int32.le_toInt _) (Int32.toInt_lt _)
  | sample _ => exact sample_heard hwf now (hwords _ (by simp))
  | rate _ => exact rate_heard hwf now (hwords _ (by simp))
  | event _ _ => exact event_heard now _ _ _
  | keys _ hpairs => exact keys_heard now fun hnil => by simpa [hnil] using hpairs.length_eq

end Heard

section Agreement

variable (R Re : Type) [Double R] [Pcre Re] [HashOrder]

/-- A line that is sent says something, exactly one branch of the listener accepts its PDU, and
the kernel hears what it says. -/
theorem line_heard {time : Int32} {line : CString} {p : Pdu}
    (h : streamPdu time line = .ok (some p)) :
    (∃ r, Says (words line) r) ∧ ∀ r, Says (words line) r →
      (∀ b : Branch, b.accepts p ↔ b = r.branch) ∧
      ∀ (now : Int32) (k : Kernel R Re), k.db.Wf → r.Heard now k p := by
  refine ⟨says_of_sent h, fun r hr => ?_⟩
  obtain rfl := sent_pdu h hr
  have haccepts := branch_accepts hr
  refine ⟨fun b => ⟨fun hb => b.accepts_unique hb haccepts, ?_⟩, fun now k hwf => ?_⟩
  · rintro rfl
    exact haccepts
  · exact report_heard hwf now hr

end Agreement

section Journal

open Reference

/-- A decrement, a state whose message has a wide gap, and keys with and without a value. -/
theorem line_heard_journal :
    (∃ p k es c, streamPdu 0 (.lit "counter 100 hits -5") = .ok (some p) ∧
      listen 100 p (boot journal) = .ok (k, es) ∧ k.db.counters.get? (.lit "hits") = some c ∧
      c.value = UInt64.ofInt (-5)) ∧
    (∃ p k es s, streamPdu 0 (.lit "state 100 web Warn disk  full") = .ok (some p) ∧
      listen 100 p (boot journal) = .ok (k, es) ∧ k.db.states.get? (.lit "web") = some s ∧
      s.status = 1 ∧ s.summary = some (.lit "disk full")) ∧
    ∃ p k es, streamPdu 0 (.lit "key a=b=c d") = .ok (some p) ∧
      listen 100 p (boot journal) = .ok (k, es) ∧
      k.server.keys.get? (.lit "a") = some (some (.lit "b=c")) ∧
      k.server.keys.get? (.lit "d") = some (some (.lit "1")) := by
  refine ⟨?_, ?_, ?_⟩
  · have hsent : streamPdu 0 (.lit "counter 100 hits -5") =
        .ok (some (pdu .counter ["100", "hits", "4294967291"])) := by decide +kernel
    have hwords : words (.lit "counter 100 hits -5") =
        [.lit "counter", .lit "100", .lit "hits", .lit "-5"] := by decide +kernel
    have hsays : Says (words (.lit "counter 100 hits -5"))
        (.counter (.lit "100") (.lit "hits") (-5)) := by
      have hnumeral := numeral_decimalInt (-5)
      rw [show decimalInt (-5) = .lit "-5" by decide] at hnumeral
      rw [hwords]
      exact .counterBy (by decide) hnumeral (by decide) (by decide)
    obtain ⟨k, es, c, hlisten, hget, hvalue, -⟩ := ((line_heard Int CString hsent).2 _ hsays).2 100
      (boot journal) journal_configured.loaded.wf (.blank (.lit "hits") (some minute)) false rfl
      rfl rfl
    exact ⟨_, k, es, c, hsent, hlisten, hget, hvalue.trans (by decide)⟩
  · have hsent : streamPdu 0 (.lit "state 100 web Warn disk  full") =
        .ok (some (pdu .state ["100", "web", "1", "disk full"])) := by decide +kernel
    have hwords : words (.lit "state 100 web Warn disk  full") =
        [.lit "state", .lit "100", .lit "web", .lit "Warn", .lit "disk", .lit "full"] := by
      decide +kernel
    have hsays : Says (words (.lit "state 100 web Warn disk  full"))
        (.state (.lit "100") (.lit "web") 1 (.lit "disk" ++ .lit " " ++ .lit "full")) := by
      rw [hwords]
      have hword : "warn" ∈ ["1", "warn", "warning"] := by simp
      have hcode : CodeWord (.lit "Warn") 1 := .warning hword (by decide)
      exact .state (by decide) hcode (.cons (.last _))
    obtain ⟨k, es, s, hlisten, hget, hstatus, hmsg, -⟩ := ((line_heard Int CString hsent).2 _
      hsays).2 100 (boot journal) journal_configured.loaded.wf (.blank 0 (.lit "web") ping) rfl rfl
    exact ⟨_, k, es, s, hsent, hlisten, hget, hstatus, hmsg.trans (by decide)⟩
  · have hsent : streamPdu 0 (.lit "key a=b=c d") =
        .ok (some (pdu .setKeys ["a", "b=c", "d", "1"])) := by decide +kernel
    have hwords : words (.lit "key a=b=c d") =
        [.lit "key", .lit "a" ++ .lit "=" ++ .lit "b=c", .lit "d"] := by decide +kernel
    have hsays : Says (words (.lit "key a=b=c d"))
        (.keys [(.lit "a", .lit "b=c"), (.lit "d", .lit "1")]) := by
      rw [hwords]
      exact .keys (by decide) (.cons (.value (by decide)) (.cons (.alone (by decide)) .nil))
    obtain ⟨k, es, hlisten, hkeys⟩ := ((line_heard Int CString hsent).2 _ hsays).2 100
      (boot journal) journal_configured.loaded.wf
    exact ⟨_, k, es, hsent, hlisten, (hkeys _).trans (by decide), (hkeys _).trans (by decide)⟩

end Journal

end Stream

end Bolo
