import Bolo.Aggregator.Events
import Bolo.Library.Lines

/-!
# The query client

`bolo query` reads one command per line, sends a PDU to the management socket of an
aggregator, and waits for the reply. A line is what `fgets` returns, up to its NUL; the
pointers `a`, `b` and `c` into it are the text from there on.

Some commands do not arrive as they were typed. `stat` sends a type that the management socket
does not know, and no reply ever comes. The loop over the keys writes a NUL at the end of each
word and then sends the text from that NUL on, which is empty. `get.events` takes what follows
the first blank for the number.
-/
namespace Bolo

open Library

namespace Query

/-! ## Commands -/

inductive Command where
  | stat | setKeys | getKeys | delKeys | searchKeys | getEvents | dump
  deriving DecidableEq, Repr

def Command.word : Command → CString
  | .stat => .lit "stat"
  | .setKeys => .lit "set.keys"
  | .getKeys => .lit "get.keys"
  | .delKeys => .lit "del.keys"
  | .searchKeys => .lit "search.keys"
  | .getEvents => .lit "get.events"
  | .dump => .lit "dump"

/-- The command that a word selects, tried in the order of the source. -/
def command? (word : CString) : Option Command :=
  [.stat, .setKeys, .getKeys, .delKeys, .searchKeys, .getEvents, .dump].find? fun command =>
    strcasecmpEq word command.word

/-- What the client does with a line: nothing, a message on `stderr`, or a PDU. -/
inductive Action where
  | skip
  | complain (text : CString)
  | send (p : Pdu)
  deriving DecidableEq

def nonblank (b : UInt8) : Bool := !isspace b

/-- The loop over the arguments of `set.keys`, `get.keys` and `del.keys`: at each word, `a` is
moved to its end and a NUL is written there. The frame is the text at `a`. -/
def keyFrames (c : List UInt8) : List CString :=
  match c with
  | [] => []
  | x :: c => .lit "" :: keyFrames (((x :: c).dropWhile nonblank).dropWhile isspace)
termination_by c.length
decreasing_by
  have hblank := ((((x :: c).dropWhile nonblank).dropWhile_sublist isspace)).length_le
  have hword := (c.dropWhile_sublist nonblank).length_le
  by_cases hx : isspace x = true
  · have hskip := (c.dropWhile_sublist isspace).length_le
    simp only [nonblank, hx, List.dropWhile_cons, Bool.not_true, Bool.false_eq_true, if_false,
      if_true, List.length_cons]
    omega
  · simp only [nonblank, hx, List.dropWhile_cons, Bool.not_false, if_true, List.length_cons] at *
    omega

/-- A command with exactly one argument. -/
def oneArgument (type : CString) (missing tooMany : CString) (c : List UInt8) : Action :=
  let c := c.dropWhile isspace
  if c = [] then .complain missing
  else if (c.dropWhile nonblank).dropWhile isspace ≠ [] then .complain tooMany
  else .send { type := type, frames := [.ofBytes (c.takeWhile nonblank)] }

/-- A command with at least one argument. -/
def manyArguments (tag : Tag) (missing : CString) (c : List UInt8) : Action :=
  let c := c.dropWhile isspace
  if c = [] then .complain missing
  else .send { type := tag.text, frames := keyFrames c }

def setKeysOdd : CString :=
  .lit "odd number of arguments to `set.keys' call\nusage: set.keys key1 value1 key2 value2 ...\n"

/-- What a command does with the text `c` after it. -/
def Command.run (c : List UInt8) : Command → Action
  | .stat => oneArgument (.lit "GET.STATE")
      (.lit "missing state name to `stat' call\nusage: stat <state-name>\n")
      (.lit "too many arguments to `stat' call\nusage: stat <state-name>\n") c
  | .setKeys =>
    match manyArguments .setKeys
      (.lit "missing arguments to `set.keys' call\nusage: set.keys key1 value1 key2 value2 ...\n")
      c with
    | .send p => if p.frames.length % 2 ≠ 0 then .complain setKeysOdd else .send p
    | action => action
  | .getKeys => manyArguments .getKeys
      (.lit "missing arguments to `get.keys' call\nusage: get.keys key1 key2 ...\n") c
  | .delKeys => manyArguments .delKeys
      (.lit "missing argument to `del.keys' call\nusage: del.keys key1 key2 ...\n") c
  | .searchKeys => oneArgument Tag.searchKeys.text
      (.lit "missing pattern argument to `search.keys' call\nusage: search.keys <pattern>\n")
      (.lit "too many arguments to `search.keys' call\nusage: search.keys <pattern>\n") c
  | .getEvents => .send
      { type := Tag.getEvents.text
        frames := [if c = [] then .lit "0" else .ofBytes (c.takeWhile isdigit)] }
  | .dump => .send { type := Tag.dump.text, frames := [] }

/-- One turn of the loop of `cmd_query`. -/
def query (line : CString) : Action :=
  let a := line.bytes.dropWhile isspace
  if a = [] ∨ a.head? = some 35 then .skip
  else
    -- the byte after the command is skipped, whatever comes next
    let c := (a.dropWhile nonblank).drop 1
    let word := .ofBytes (a.takeWhile nonblank)
    match command? word with
    | some command => command.run c
    | none => .complain (.lit "unrecognized command '" ++ word ++ .lit "'\n")

/-! ## Lines that are commands -/

/-- How many arguments a command takes. -/
def Command.allows : Command → Nat → Bool
  | .stat, n => n = 1
  | .setKeys, n => 0 < n && n % 2 = 0
  | .getKeys, n => 0 < n
  | .delKeys, n => 0 < n
  | .searchKeys, n => n = 1
  | .getEvents, n => n ≤ 1
  | .dump, n => n = 0

/-- The words of a line after the first. -/
def arguments (line : CString) : List CString :=
  (wordsBy isspace line.bytes).tail.map .ofBytes

/-- The first word is the command, in letters of either case, and it has a number of arguments
that the command takes. -/
structure WellFormed (line : CString) (command : Command) : Prop where
  word : ∃ word ∈ (wordsBy isspace line.bytes).head?, strcasecmpEq (.ofBytes word) command.word
  allowed : command.allows (arguments line).length

theorem command?_eq {word : CString} {command : Command} (h : strcasecmpEq word command.word) :
    command? word = some command := by
  have hsame (other : Command) : strcasecmpEq word other.word = decide (command = other) := by
    have hword : word.bytes.map tolower = command.word.bytes.map tolower := by
      simpa [strcasecmpEq] using h
    have hdistinct : ∀ a b : Command, strcasecmpEq a.word b.word = decide (a = b) := by
      intro a b
      cases a <;> cases b <;> decide
    rw [← hdistinct, strcasecmpEq, strcasecmpEq, hword]
  unfold command?
  cases command <;> simp [hsame]

/-- The text after the command and one more byte. -/
def tail (line : CString) : List UInt8 :=
  ((line.bytes.dropWhile isspace).dropWhile nonblank).drop 1

theorem head_nonblank {l rest : List UInt8} {b : UInt8} (h : l.dropWhile isspace = b :: rest) :
    isspace b = false := by
  have hneg := List.head?_dropWhile_not isspace l
  simpa [h] using hneg

theorem wordsBy_tail (line : CString) :
    wordsBy isspace (tail line) = (wordsBy isspace line.bytes).tail := by
  rw [← wordsBy_dropWhile (l := line.bytes), tail]
  cases ha : line.bytes.dropWhile isspace with
  | nil => simp [wordsBy_nil]
  | cons b a =>
    rw [wordsBy_cons (head_nonblank ha), List.tail_cons]
    change wordsBy isspace (((b :: a).dropWhile nonblank).drop 1) =
      wordsBy isspace ((b :: a).dropWhile nonblank)
    cases hr : (b :: a).dropWhile nonblank with
    | nil => rfl
    | cons d r =>
      have hd : isspace d = true := by
        have hneg := List.head?_dropWhile_not nonblank (b :: a)
        simpa [hr, nonblank] using hneg
      rw [wordsBy_cons_blank hd, List.drop_one, List.tail_cons]

theorem WellFormed.query_eq {line : CString} {command : Command} (h : WellFormed line command) :
    query line = command.run (tail line) := by
  obtain ⟨word, hword, hcmp⟩ := h.word
  rw [← wordsBy_dropWhile] at hword
  cases ha : line.bytes.dropWhile isspace with
  | nil => simp [ha, wordsBy_nil] at hword
  | cons b a =>
    rw [ha, wordsBy_cons (head_nonblank ha), List.head?_cons, Option.mem_some_iff] at hword
    have hhash : b ≠ 35 := by
      rintro rfl
      have hfirst : (command.word.bytes.map tolower).head? = some 35 := by
        rw [strcasecmpEq, decide_eq_true_iff] at hcmp
        rw [← hcmp, ← hword]
        simp [CString.ofBytes, isspace, tolower]
      revert hfirst
      cases command <;> decide
    have hcommand : command? (.ofBytes ((b :: a).takeWhile nonblank)) = some command :=
      command?_eq (hword ▸ hcmp)
    simp [query, tail, ha, hhash, hcommand]

/-! ## What arrives -/

/-- A line starts with a word only if it has one. -/
theorem dropWhile_of_words {c : List UInt8} {w : List UInt8} {ws : List (List UInt8)}
    (h : wordsBy isspace c = w :: ws) :
    (c.dropWhile isspace).takeWhile nonblank = w ∧
      wordsBy isspace ((c.dropWhile isspace).dropWhile nonblank) = ws ∧
      c.dropWhile isspace ≠ [] := by
  rw [← wordsBy_dropWhile] at h
  cases hc : c.dropWhile isspace with
  | nil => simp [hc, wordsBy_nil] at h
  | cons b rest =>
    rw [hc, wordsBy_cons (head_nonblank hc)] at h
    obtain ⟨hw, hws⟩ := List.cons.inj h
    exact ⟨hw, hws, by simp⟩

theorem oneArgument_send {c w : List UInt8} (h : wordsBy isspace c = [w]) (type missing tooMany) :
    oneArgument type missing tooMany c = .send { type := type, frames := [.ofBytes w] } := by
  obtain ⟨hw, hrest, hne⟩ := dropWhile_of_words h
  have hend := wordsBy_eq_nil.mp hrest
  simp [oneArgument, hne, hend, hw]

/-- The first key that is sent is empty. -/
theorem manyArguments_send {c : List UInt8} {tag : Tag} {missing : CString} {p : Pdu}
    (h : manyArguments tag missing c = .send p) : p.frames.head? = some (.lit "") := by
  simp only [manyArguments] at h
  split at h
  · cases h
  · case isFalse hc =>
      obtain ⟨b, rest, hb⟩ := List.exists_cons_of_ne_nil hc
      obtain rfl := Action.send.inj h
      simp [hb, keyFrames]

theorem nul_notMem_tail (line : CString) : (0 : UInt8) ∉ tail line := fun h =>
  line.nulFree ((List.dropWhile_subset _) ((List.dropWhile_subset _) (List.mem_of_mem_drop h)))

/-- The first argument is not empty, as a string either. -/
theorem bytes_first_word {c w : List UInt8} {ws : List (List UInt8)} (hc : (0 : UInt8) ∉ c)
    (h : wordsBy isspace c = w :: ws) : (CString.ofBytes w).bytes = w ∧ w ≠ [] := by
  have hw : w ⊆ c := by
    rw [← (dropWhile_of_words h).1]
    exact fun b hb => List.dropWhile_subset _ (List.takeWhile_subset _ hb)
  exact ⟨CString.bytes_ofBytes fun h0 => hc (hw h0), ne_nil_of_mem_wordsBy (by rw [h]; simp)⟩

theorem arguments_eq (line : CString) :
    arguments line = (wordsBy isspace (tail line)).map .ofBytes := by
  rw [arguments, wordsBy_tail]

theorem manyArguments_differ {line missing : CString} {tag : Tag} {p : Pdu}
    (h : manyArguments tag missing (tail line) = .send p) : p.frames ≠ arguments line := by
  intro hframes
  have hhead := manyArguments_send h
  rw [hframes, arguments_eq] at hhead
  cases hw : wordsBy isspace (tail line) with
  | nil => simp [hw] at hhead
  | cons w ws =>
    obtain ⟨hbytes, hne⟩ := bytes_first_word (nul_notMem_tail line) hw
    have hempty : CString.ofBytes w = .lit "" := by simpa [hw] using hhead
    rw [hempty] at hbytes
    exact hne hbytes.symm

/-- The number of a `get.events` stands right after one blank and is nothing but digits. -/
def Numbered (line : CString) : Prop :=
  (((line.bytes.dropWhile isspace).dropWhile nonblank).takeWhile isspace).length = 1 ∧
    ∃ ts, arguments line = [ts] ∧ ∀ b ∈ ts.bytes, isdigit b

theorem isspace_of_dropWhile {l c : List UInt8} {b : UInt8} (h : l.dropWhile nonblank = b :: c) :
    isspace b = true := by
  have hneg := List.head?_dropWhile_not nonblank l
  simpa [h, nonblank] using hneg

/-- A word of digits is read to its end. -/
theorem takeWhile_digits {l w : List UInt8} (hword : l.takeWhile nonblank = w)
    (hdigits : ∀ b ∈ w, isdigit b) : l.takeWhile isdigit = w := by
  rw [← List.takeWhile_append_dropWhile (p := nonblank) (l := l), hword,
    List.takeWhile_append_of_pos hdigits]
  cases hrest : l.dropWhile nonblank with
  | nil => simp
  | cons e rest =>
    have he := isspace_of_dropWhile hrest
    have hdigit : ¬isdigit e = true := fun hdigit => by simp [isspace_of_isdigit hdigit] at he
    rw [List.takeWhile_cons_of_neg hdigit, List.append_nil]

/-- The number of a `get.events` is sent as it stands exactly if it is nothing but digits, right
after one blank. -/
theorem events_frames_iff {line : CString} :
    [if tail line = [] then CString.lit "0" else .ofBytes ((tail line).takeWhile isdigit)] =
        arguments line ↔ Numbered line := by
  have hnul := nul_notMem_tail line
  -- without an argument neither side holds; otherwise the text after the command is a blank
  -- and what is sent
  cases hr : (line.bytes.dropWhile isspace).dropWhile nonblank with
  | nil =>
    have hnone : arguments line = [] := by simp [arguments_eq, tail, hr, wordsBy_nil]
    simp [hnone, Numbered]
  | cons b c =>
    have htail : tail line = c := by simp [tail, hr]
    have hb : isspace b = true := isspace_of_dropWhile hr
    rw [htail] at hnul ⊢
    simp only [Numbered, hr, List.takeWhile_cons_of_pos hb, List.length_cons, arguments_eq,
      htail]
    constructor
    · intro h
      obtain ⟨w, hw, hword⟩ := List.map_eq_singleton_iff.mp h.symm
      obtain ⟨hbytes, hne⟩ := bytes_first_word hnul hw
      cases c with
      | nil => simp [wordsBy_nil] at hw
      | cons d c =>
        rw [if_neg (by simp)] at hword
        have hdigits : (CString.ofBytes ((d :: c).takeWhile isdigit)).bytes = w := by
          rw [← hword, hbytes]
        rw [CString.bytes_ofBytes fun h0 => hnul (List.takeWhile_subset _ h0)] at hdigits
        have hd : isdigit d = true := by
          by_contra hd
          rw [List.takeWhile_cons_of_neg hd] at hdigits
          exact hne hdigits.symm
        refine ⟨by simp [isspace_of_isdigit hd], .ofBytes w, by simp [hw], fun x hx => ?_⟩
        rw [hbytes, ← hdigits] at hx
        exact List.mem_takeWhile_imp hx
    · rintro ⟨hgap, ts, hts, hdigits⟩
      obtain ⟨w, hw, rfl⟩ := List.map_eq_singleton_iff.mp hts
      obtain ⟨hbytes, -⟩ := bytes_first_word hnul hw
      cases c with
      | nil => simp [wordsBy_nil] at hw
      | cons d c =>
        have hd : isspace d = false := by
          by_contra hd
          simp [hd] at hgap
        obtain ⟨hword, -, -⟩ := dropWhile_of_words hw
        rw [List.dropWhile_cons_of_neg (by simp [hd])] at hword
        rw [hbytes] at hdigits
        simp [takeWhile_digits hword hdigits, hw]

theorem getState_unknown (tag : Tag) : CString.lit "GET.STATE" ≠ tag.text := by
  cases tag <;> decide

section Replies

variable {R Re : Type} [Pcre Re] [HashOrder]

/-- The management socket gets through with the request and has sent a reply. -/
def Answered (s : Server R Re) (p : Pdu) : Prop :=
  ∃ s' es q, manage s p = .ok (s', es) ∧ Effect.reply q ∈ es

/-- The text in which DUMP lists the states. -/
def dumping (db : Db R Re) : Except Fault CString := do
  return (← db.states.entries.mapM fun (name, s) => dumpState name s).foldl (· ++ ·)
    (.lit "---\n# generated by bolo\n")

/-- There is a text, and it leaves room for a terminator in its last page. -/
def Terminated (text : Except Fault CString) : Prop :=
  ∃ t, text = .ok t ∧ t.length % PAGE_SIZE ≠ 0

/-- The commands that come through to a server: `search.keys`; `dump`, unless the states fill a
page; and `get.events` with a number right after one blank, unless the events do. -/
def Command.Arrives (s : Server R Re) (line : CString) : Command → Prop
  | .searchKeys => True
  | .dump => Terminated (dumping s.db)
  | .getEvents => Numbered line ∧ ∃ ts, arguments line = [ts] ∧
      Terminated (listing (s.db.events.filter fun ev => (strtol ts).toInt32 ≤ ev.timestamp))
  | _ => False

omit [Pcre Re] [HashOrder] in
/-- A text that is sent as one frame. -/
theorem sent_iff {s : Server R Re} {tag : Tag} {text : Except Fault CString} :
    (∃ s' es q, (do return (s, [reply tag [← mappedString (← text)]]) :
        Except Fault (Server R Re × List Effect)) = .ok (s', es) ∧ Effect.reply q ∈ es) ↔
      Terminated text := by
  constructor
  · rintro ⟨s', es, q, h, -⟩
    simp only [bind_eq_ok, pure_eq_ok] at h
    obtain ⟨t, ht, t', hmapped, -⟩ := h
    refine ⟨t, ht, fun hfull => ?_⟩
    simp [mappedString, hfull] at hmapped
  · rintro ⟨t, rfl, hroom⟩
    have hmapped : mappedString t = .ok t := by simp [mappedString, hroom]
    exact ⟨s, [reply tag [t]], _, by simp only [ok_bind, hmapped]; rfl, List.mem_singleton_self _⟩

theorem answered_dump {s : Server R Re} :
    Answered s { type := Tag.dump.text, frames := [] } ↔ Terminated (dumping s.db) := by
  have hmanage : manage s { type := Tag.dump.text, frames := [] } =
      (do return (s, [reply .dump [← mappedString (← dumping s.db)]])) := by
    have hreply : manage s { type := Tag.dump.text, frames := [] } =
        (do return (s, [← replyDump s.db])) := by
      simp only [manage, Pdu.is, Pdu.size]
      rfl
    rw [hreply]
    simp only [replyDump, dumping, bind_assoc, pure_bind]
  rw [Answered, hmanage]
  exact sent_iff

theorem answered_events {s : Server R Re} {ts : CString} :
    Answered s { type := Tag.getEvents.text, frames := [ts] } ↔
      Terminated (listing (s.db.events.filter fun ev => (strtol ts).toInt32 ≤ ev.timestamp)) := by
  have hmanage : manage s { type := Tag.getEvents.text, frames := [ts] } = (do
      return (s, [reply .events [← mappedString (← listing
        (s.db.events.filter fun ev => (strtol ts).toInt32 ≤ ev.timestamp))]])) := by
    have hreply : manage s { type := Tag.getEvents.text, frames := [ts] } =
        (do return (s, [← replyEvents s.db (strtol ts).toInt32])) := by
      simp only [manage, Pdu.is, Pdu.size, Pdu.string]
      rfl
    rw [hreply]
    simp only [replyEvents, listing, bind_assoc, pure_bind]
  rw [Answered, hmanage]
  exact sent_iff

/-- A pattern that cannot be compiled is answered too. -/
theorem answered_search (s : Server R Re) (pattern : CString) :
    Answered s { type := Tag.searchKeys.text, frames := [pattern] } := by
  have hstate : Tag.searchKeys.text ≠ Tag.state.text := by decide
  have hget : Tag.searchKeys.text ≠ Tag.getKeys.text := by decide
  have hdel : Tag.searchKeys.text ≠ Tag.delKeys.text := by decide
  cases hcompile : (Pcre.compile pattern : Except CString Re) with
  | error e =>
    have hmanage : manage s { type := Tag.searchKeys.text, frames := [pattern] } =
        .ok (s, [reply .error [e]]) := by
      simp [manage, Pdu.is, Pdu.size, Pdu.string, hstate, hget, hdel, ok_bind, hcompile, pure_eq_ok]
    exact ⟨s, _, _, hmanage, List.mem_singleton_self _⟩
  | ok re =>
    have hmanage : manage s { type := Tag.searchKeys.text, frames := [pattern] } =
        .ok (s, [replySearch s.keys re]) := by
      simp [manage, Pdu.is, Pdu.size, Pdu.string, hstate, hget, hdel, ok_bind, hcompile, pure_eq_ok]
    exact ⟨s, _, _, hmanage, List.mem_singleton_self _⟩

/-- Nothing is said to a request of a type that the kernel does not know. -/
theorem not_answered {s : Server R Re} {p : Pdu} (h : ∀ tag : Tag, p.type ≠ tag.text) :
    ¬Answered s p := by
  have hmanage : manage s p = .ok (s, []) := by simp [manage, Pdu.is, h]
  rintro ⟨s', es, q, hok, hq⟩
  rw [hmanage] at hok
  obtain ⟨rfl, rfl⟩ := Prod.mk.inj (Except.ok.inj hok)
  cases hq

end Replies

section Web

open Reference

end Web

end Query

end Bolo
