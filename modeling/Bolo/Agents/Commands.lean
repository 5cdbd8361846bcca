import Bolo.Config.Reading
import Bolo.Library.Word

/-!
# The commands of the agent

`s_parse` of `dbolo` reads the commands that the agent runs, one from each line of the form
`@60s /command/to/run`. The interval is computed in `int`: digit by digit, times the unit, and
times 1000 for milliseconds. The sign of the second product is the only test for overflow.
-/
namespace Bolo.Dbolo

open Library

/-- `command_t` without what it keeps of the output of the command, which `Command` has. -/
structure Check where
  interval : Int32
  exec : CString
  nextRun : UInt64
  pid : Int32
  fd : Int32
  deriving DecidableEq

/-- What a warning of `s_parse` is about. -/
inductive Skip where
  | tooLong
  | timeSpec
  | timeUnit (c : UInt8)
  | overflow
  | malformed
  deriving DecidableEq

/-- The value of the digits, in `int`. -/
def number (digits : List UInt8) : Int32 :=
  digits.foldl (fun x b => x * 10 + (Int32.ofNat b.toNat - 48)) 0

/-- The `switch` over the unit. -/
def scale (c : UInt8) (x : Int32) : Option Int32 :=
  if c = chr 'h' then some (x * 3600)
  else if c = chr 'm' then some (x * 60)
  else if c = chr 's' then some x
  else none

/-- What follows the `@`: the interval in seconds, and the command. -/
def timeSpec (a : List UInt8) : Except Skip (Int32 × List UInt8) :=
  let x := number (a.takeWhile isdigit)
  let a := a.dropWhile isdigit
  if x = 0 then .error .timeSpec
  else match scale (a.headD 0) x with
    | none => .error (.timeUnit (a.headD 0))
    | some x =>
      let a := a.tail
      if x < 0 then .error .overflow
      else if isspace (a.headD 0) then .ok (x, a.dropWhile isspace)
      else .error .malformed

/-- The line up to its last newline, if it has one. -/
def chomp (line : List UInt8) : Option (List UInt8) :=
  if NEWLINE ∈ line then some ((line.reverse.dropWhile (· ≠ NEWLINE)).tail.reverse) else none

/-- A line with nothing to report and nothing to add is `none`. -/
def specOf (line : CString) : Option (Except Skip (Int32 × List UInt8)) :=
  match chomp line.bytes with
  | none => some (.error .tooLong)
  | some a =>
    match a.dropWhile isspace with
    | [] => none
    | c :: a =>
      if c = chr '#' then none
      else if c = chr '@' then some (timeSpec a)
      else some (.error .malformed)

/-- The clock as `time_s` gives it for the `i`th command, and what the product
`rand() * OPTIONS.splay * x / RAND_MAX` comes to. -/
structure Splay where
  time : Nat → Int32
  offset : Nat → Int32 → UInt32

structure Parsed where
  n : Nat
  commands : List Check
  warnings : List (Nat × Skip)

def Parsed.start : Parsed := ⟨0, [], []⟩

/-- The command that is added, if `i` were added before it. -/
def newCheck (s : Splay) (i : Nat) (x : Int32) (exec : List UInt8) : Check where
  interval := x * 1000
  exec := .ofBytes exec
  nextRun := ((s.time i).toInt64.toUInt64 + (s.offset i x).toUInt64) * 1000
  pid := -1
  fd := -1

/-- One pass of the loop of `s_parse`, over a line as `fgets` returned it. -/
def parseLine (s : Splay) (p : Parsed) (line : List UInt8) : Parsed :=
  let p := { p with n := p.n + 1 }
  match specOf (.ofBytes line) with
  | none => p
  | some (.error why) => { p with warnings := p.warnings ++ [(p.n, why)] }
  | some (.ok (x, exec)) =>
    { p with commands := p.commands ++ [newCheck s p.commands.length x exec] }

/-- `s_parse`, of a file that may not open. -/
def sParse (s : Splay) : Option (List UInt8) → Int32 × Parsed
  | none => (1, .start)
  | some file => (0, (fgetsLines 0 [] file).foldl (parseLine s) .start)

/-! ## The arithmetic -/

theorem digit_eq {b : UInt8} (h : isdigit b) :
    Int32.ofNat b.toNat - 48 = Int32.ofNat (b - 48).toNat := by
  obtain ⟨hlo, hhi⟩ := isdigit_bounds h
  have hsub : (b - 48).toNat = b.toNat - 48 :=
    UInt8.toNat_sub_of_le b 48 (UInt8.le_iff_toNat_le.mpr hlo)
  rw [hsub, Int32.ofNat_sub b.toNat 48 hlo]
  rfl

/-- Digit by digit, the value of the digits modulo 2^32. -/
theorem number_eq {digits : List UInt8} (h : ∀ b ∈ digits, isdigit b) :
    number digits = Int32.ofNat (digitsValue digits) := by
  have hfold (n : Nat) : digits.foldl (fun x b => x * 10 + (Int32.ofNat b.toNat - 48))
      (Int32.ofNat n) = Int32.ofNat (digits.foldl (fun n b => 10 * n + (b - 48).toNat) n) := by
    induction digits generalizing n with
    | nil => rfl
    | cons b digits ih =>
      obtain ⟨hb, hrest⟩ := List.forall_mem_cons.mp h
      rw [List.foldl_cons, List.foldl_cons, digit_eq hb, ← ih hrest, Int32.ofNat_add,
        Int32.ofNat_mul, Int32.mul_comm]
      rfl
  exact hfold 0

inductive TimeUnit where
  | hours
  | minutes
  | seconds
  deriving DecidableEq

namespace TimeUnit

def letter : TimeUnit → UInt8
  | hours => chr 'h'
  | minutes => chr 'm'
  | seconds => chr 's'

/-- The unit in seconds. -/
def length : TimeUnit → Nat
  | hours => 3600
  | minutes => 60
  | seconds => 1

theorem scale_letter (u : TimeUnit) (n : Nat) :
    scale u.letter (Int32.ofNat n) = some (Int32.ofNat (n * u.length)) := by
  cases u with
  | hours => exact congrArg some (Int32.ofNat_mul n 3600).symm
  | minutes => exact congrArg some (Int32.ofNat_mul n 60).symm
  | seconds => rw [length, Nat.mul_one]; rfl

theorem isdigit_letter (u : TimeUnit) : isdigit u.letter = false := by cases u <;> decide

end TimeUnit

theorem toInt_ofNat_bmod (n : Nat) : (Int32.ofNat n).toInt = (n : Int).bmod (2 ^ 32) :=
  Int32.toInt_ofNat'

theorem ofNat_eq_zero_iff {n : Nat} : Int32.ofNat n = 0 ↔ 2 ^ 32 ∣ n := by
  rw [← Int32.toInt_inj, toInt_ofNat_bmod, Int32.toInt_zero, Int.bmod_def]
  omega

theorem ofNat_neg_iff {n : Nat} : Int32.ofNat n < 0 ↔ 2 ^ 31 ≤ n % 2 ^ 32 := by
  rw [Int32.lt_iff_toInt_lt, toInt_ofNat_bmod, Int32.toInt_zero, Int.bmod_def]
  omega

/-- What is left of a product in milliseconds is a number that fits. -/
theorem toInt_ofNat_eq_iff {n m : Nat} :
    (Int32.ofNat n).toInt = m ↔ m < 2 ^ 31 ∧ n % 2 ^ 32 = m := by
  rw [toInt_ofNat_bmod, Int.bmod_def]
  omega

/-! ## Lines with a command -/

/-- `@<digits><h|m|s> <command>`. -/
structure Entry (text digits : List UInt8) (unit : TimeUnit) (command : CString) : Prop where
  line : NEWLINE ∉ text
  digits_ne : digits ≠ []
  all_digits : ∀ b ∈ digits, isdigit b = true
  starts : ∃ c l, command.bytes = c :: l ∧ isspace c = false
  shape : ∃ g gap, (∀ b ∈ g :: gap, isspace b = true) ∧
    text = chr '@' :: (digits ++ unit.letter :: (g :: gap ++ command.bytes))

/-- What `s_parse` takes for such a line: there may be blanks before it, and no digits. -/
structure Timed (text digits : List UInt8) (unit : TimeUnit) : Prop where
  all_digits : ∀ b ∈ digits, isdigit b = true
  shape : ∃ blanks g rest, (∀ b ∈ blanks, isspace b = true) ∧ isspace g = true ∧
    text = blanks ++ chr '@' :: (digits ++ unit.letter :: g :: rest)

/-- The number of milliseconds that a line asks for. -/
def asked (digits : List UInt8) (unit : TimeUnit) : Nat :=
  digitsValue digits * unit.length * 1000

/-- Two of the numbers that are too large are noticed: one that leaves nothing of the digits, and
one that makes the seconds negative. -/
def Noticed (digits : List UInt8) (unit : TimeUnit) : Prop :=
  2 ^ 32 ∣ digitsValue digits ∨ 2 ^ 31 ≤ digitsValue digits * unit.length % 2 ^ 32

theorem chomp_line (text : List UInt8) : chomp (text ++ [NEWLINE]) = some text := by
  simp [chomp]

section Timed

variable {text digits : List UInt8} {unit : TimeUnit}

theorem timeSpec_timed (hdigits : ∀ b ∈ digits, isdigit b = true) {g : UInt8}
    (hg : isspace g = true) (rest : List UInt8) :
    timeSpec (digits ++ unit.letter :: g :: rest) =
      if 2 ^ 32 ∣ digitsValue digits then .error .timeSpec
      else if 2 ^ 31 ≤ digitsValue digits * unit.length % 2 ^ 32 then .error .overflow
      else .ok (Int32.ofNat (digitsValue digits * unit.length), (g :: rest).dropWhile isspace) := by
  have htake : (digits ++ unit.letter :: g :: rest).takeWhile isdigit = digits := by
    rw [List.takeWhile_append_of_pos hdigits, List.takeWhile_cons_of_neg (by
      simp [unit.isdigit_letter]), List.append_nil]
  have hdrop : (digits ++ unit.letter :: g :: rest).dropWhile isdigit =
      unit.letter :: g :: rest := by
    rw [List.dropWhile_append_of_pos hdigits, List.dropWhile_cons_of_neg (by
      simp [unit.isdigit_letter])]
  simp only [timeSpec, htake, hdrop, number_eq hdigits, ofNat_eq_zero_iff, List.headD_cons,
    unit.scale_letter, List.tail_cons, ofNat_neg_iff, hg, if_true]

theorem scale_eq_some {c : UInt8} {x y : Int32} (h : scale c x = some y) :
    ∃ unit : TimeUnit, c = unit.letter := by
  unfold scale at h
  split at h
  · case isTrue hc => exact ⟨.hours, hc⟩
  · split at h
    · case isTrue hc => exact ⟨.minutes, hc⟩
    · split at h
      · case isTrue hc => exact ⟨.seconds, hc⟩
      · cases h

/-- Only such a text has a time and a command. -/
theorem timed_of_timeSpec {a exec : List UInt8} {x : Int32} (h : timeSpec a = .ok (x, exec)) :
    ∃ digits, ∃ unit : TimeUnit, ∃ g rest, (∀ b ∈ digits, isdigit b = true) ∧ isspace g = true ∧
      a = digits ++ unit.letter :: g :: rest := by
  simp only [timeSpec] at h
  split at h
  · cases h
  · split at h
    · cases h
    · case h_2 hscale =>
      split at h
      · cases h
      · split at h
        · case isTrue hspace =>
          obtain ⟨unit, hletter⟩ := scale_eq_some hscale
          obtain ⟨c, l, hrest⟩ : ∃ c l, a.dropWhile isdigit = c :: l := by
            cases hl : a.dropWhile isdigit with
            | nil => cases unit <;> simp [hl, TimeUnit.letter, chr] at hletter
            | cons c l => exact ⟨c, l, rfl⟩
          rw [hrest] at hletter hspace
          cases l with
          | nil => exact absurd (show isspace 0 = true from hspace) (by decide)
          | cons g rest =>
            refine ⟨a.takeWhile isdigit, unit, g, rest, fun b hb => List.mem_takeWhile_imp hb,
              hspace, ?_⟩
            rw [← hletter, List.headD_cons, ← hrest, List.takeWhile_append_dropWhile]
        · cases h

theorem specOf_line (hnul : 0 ∉ text) : specOf (.ofBytes (text ++ [NEWLINE])) =
    match text.dropWhile isspace with
    | [] => none
    | c :: a =>
      if c = chr '#' then none
      else if c = chr '@' then some (timeSpec a)
      else some (.error .malformed) := by
  have hnewline : (0 : UInt8) ∉ [NEWLINE] := by decide
  rw [specOf, CString.bytes_ofBytes (List.not_mem_append hnul hnewline), chomp_line]

theorem Timed.specOf (h : Timed text digits unit) (hnul : 0 ∉ text) :
    ∃ exec, specOf (.ofBytes (text ++ [NEWLINE])) = some
      (if 2 ^ 32 ∣ digitsValue digits then .error .timeSpec
      else if 2 ^ 31 ≤ digitsValue digits * unit.length % 2 ^ 32 then .error .overflow
      else .ok (Int32.ofNat (digitsValue digits * unit.length), exec)) := by
  rw [specOf_line hnul]
  obtain ⟨blanks, g, rest, hblanks, hg, rfl⟩ := h.shape
  have hat : isspace (chr '@') = false := by decide
  have hne : chr '@' ≠ chr '#' := by decide
  rw [List.dropWhile_append_of_pos hblanks, List.dropWhile_cons_of_neg (by simp [hat])]
  exact ⟨(g :: rest).dropWhile isspace, by
    simp only [hne, if_false, if_true, timeSpec_timed h.all_digits hg]⟩

theorem exists_timed (hnul : 0 ∉ text) {x : Int32} {exec : List UInt8}
    (h : specOf (.ofBytes (text ++ [NEWLINE])) = some (.ok (x, exec))) :
    ∃ digits unit, Timed text digits unit := by
  rw [specOf_line hnul] at h
  split at h
  · cases h
  · case h_2 c a htext =>
    split at h
    · cases h
    · split at h
      · case isTrue hc =>
        obtain ⟨digits, unit, g, rest, hdigits, hg, rfl⟩ :=
          timed_of_timeSpec (Option.some.inj h)
        refine ⟨digits, unit, hdigits, text.takeWhile isspace, g, rest,
          fun b hb => List.mem_takeWhile_imp hb, hg, ?_⟩
        rw [← hc, ← htext, List.takeWhile_append_dropWhile]
      · cases h

/-- Without a newline a line is taken for one that is too long. -/
theorem parseLine_unended (s : Splay) (p : Parsed) {line : List UInt8} (h : NEWLINE ∉ line) :
    (parseLine s p line).commands = p.commands := by
  have hline : NEWLINE ∉ (CString.ofBytes line).bytes := fun hmem =>
    h ((List.takeWhile_sublist _).subset hmem)
  simp only [parseLine, specOf, chomp, if_neg hline]

theorem foldl_unended (s : Splay) (p : Parsed) {lines : List (List UInt8)}
    (h : ∀ l ∈ lines, NEWLINE ∉ l) : (lines.foldl (parseLine s) p).commands = p.commands := by
  induction lines generalizing p with
  | nil => rfl
  | cons l lines ih =>
    obtain ⟨hl, hrest⟩ := List.forall_mem_cons.mp h
    rw [List.foldl_cons, ih _ hrest, parseLine_unended s p hl]

theorem Timed.commands_of_noticed (h : Timed text digits unit) (hnul : 0 ∉ text) (s : Splay)
    (p : Parsed) (hnoticed : Noticed digits unit) :
    (parseLine s p (text ++ [NEWLINE])).commands = p.commands := by
  obtain ⟨exec, hspec⟩ := h.specOf hnul
  simp only [parseLine, hspec]
  rcases hnoticed with hzero | hneg
  · rw [if_pos hzero]
  · by_cases hzero : 2 ^ 32 ∣ digitsValue digits
    · rw [if_pos hzero]
    · rw [if_neg hzero, if_pos hneg]

theorem Timed.commands_of_not_noticed (h : Timed text digits unit) (hnul : 0 ∉ text) (s : Splay)
    (p : Parsed) (hnoticed : ¬Noticed digits unit) :
    ∃ c, (parseLine s p (text ++ [NEWLINE])).commands = p.commands ++ [c] ∧
      c.interval = Int32.ofNat (asked digits unit) := by
  obtain ⟨hzero, hneg⟩ := not_or.mp hnoticed
  obtain ⟨exec, hspec⟩ := h.specOf hnul
  refine ⟨newCheck s p.commands.length (Int32.ofNat (digitsValue digits * unit.length)) exec,
    ?_, ?_⟩
  · simp only [parseLine, hspec, if_neg hzero, if_neg hneg]
  · exact (Int32.ofNat_mul (digitsValue digits * unit.length) 1000).symm

end Timed

/-! ## Exact intervals -/

/-- A line is skipped, or it adds a command that has the interval it asks for. One that asks
for more than an `int` holds is skipped. -/
def IntervalExact (p p' : Parsed) (ms : Nat) : Prop :=
  (p'.commands = p.commands ∨
    ∃ c : Check, p'.commands = p.commands ++ [c] ∧ c.interval.toInt = ms ∧ 0 < c.interval.toInt) ∧
  (2 ^ 31 ≤ ms → p'.commands = p.commands)

theorem IntervalExact.of_skipped {p p' : Parsed} (h : p'.commands = p.commands) (ms : Nat) :
    IntervalExact p p' ms := ⟨.inl h, fun _ => h⟩

/-- The interval that is left of the one that `digits` and `unit` ask for is `ms`, or the line is
skipped. -/
def Leads (digits : List UInt8) (unit : TimeUnit) (ms : Nat) : Prop :=
  Noticed digits unit ∨ 0 < ms ∧ ms < 2 ^ 31 ∧ asked digits unit % 2 ^ 32 = ms

section Line

variable {text digits : List UInt8} {unit : TimeUnit} {command : CString}

theorem Timed.exact_iff (h : Timed text digits unit) (hnul : 0 ∉ text) (s : Splay)
    {p q : Parsed} (hq : q.commands = p.commands) (ms : Nat) :
    IntervalExact p (parseLine s q (text ++ [NEWLINE])) ms ↔ Leads digits unit ms := by
  by_cases hnoticed : Noticed digits unit
  · have hskip := (h.commands_of_noticed hnul s q hnoticed).trans hq
    exact iff_of_true (.of_skipped hskip ms) (.inl hnoticed)
  · obtain ⟨c, hadd, hinterval⟩ := h.commands_of_not_noticed hnul s q hnoticed
    rw [hq] at hadd
    have hne : (parseLine s q (text ++ [NEWLINE])).commands ≠ p.commands := by simp [hadd]
    constructor
    · rintro ⟨hskip | ⟨c', hadd', hexact, hpos⟩, hlarge⟩
      · exact absurd hskip hne
      · obtain rfl : c = c' := by simpa [hadd] using hadd'
        rw [hinterval] at hexact hpos
        obtain ⟨hlt, hmod⟩ := toInt_ofNat_eq_iff.mp hexact
        exact .inr ⟨by omega, hlt, hmod⟩
    · intro hleads
      obtain ⟨hpos, hlt, hmod⟩ := hleads.resolve_left hnoticed
      have hexact : c.interval.toInt = ms := by
        rw [hinterval]
        exact toInt_ofNat_eq_iff.mpr ⟨hlt, hmod⟩
      exact ⟨.inr ⟨c, hadd, hexact, by omega⟩, fun hle => absurd hlt (by omega)⟩

/-- A text that nothing is read from is skipped. -/
theorem exact_iff_forall (hnul : 0 ∉ text) (s : Splay) {p q : Parsed}
    (hq : q.commands = p.commands) (ms : Nat) :
    IntervalExact p (parseLine s q (text ++ [NEWLINE])) ms ↔
      ∀ digits unit, Timed text digits unit → Leads digits unit ms := by
  constructor
  · exact fun hexact digits unit h => (h.exact_iff hnul s hq ms).mp hexact
  · intro hall
    by_cases htimed : ∃ digits unit, Timed text digits unit
    · obtain ⟨digits, unit, h⟩ := htimed
      exact (h.exact_iff hnul s hq ms).mpr (hall digits unit h)
    · refine .of_skipped ?_ ms
      rw [← hq]
      simp only [parseLine]
      split
      · rfl
      · rfl
      · case h_3 hspec => exact absurd (exists_timed hnul hspec) htimed

/-- What `fgets` returns last of a line, without the newline. -/
def lastPiece (text : List UInt8) : List UInt8 := text.drop (text.length / 8191 * 8191)

theorem lastPiece_of_lt (h : text.length < 8191) : lastPiece text = text := by
  rw [lastPiece, Nat.div_eq_of_lt h, Nat.zero_mul, List.drop_zero]

theorem lastPiece_drop (h : 8191 ≤ text.length) : lastPiece (text.drop 8191) = lastPiece text := by
  rw [lastPiece, lastPiece, List.drop_drop, List.length_drop]
  congr 1
  omega

/-- Only the last piece of a line has the newline, so that the others are skipped. -/
theorem foldl_pieces {text : List UInt8} (s : Splay) (p : Parsed) (hline : NEWLINE ∉ text) :
    ∃ q : Parsed, q.commands = p.commands ∧
      (fgetsLines 0 [] (text ++ [NEWLINE])).foldl (parseLine s) p =
        parseLine s q (lastPiece text ++ [NEWLINE]) := by
  by_cases hshort : text.length < 8191
  · have hn : 0 + text.length + 1 < LINE_BUF_SIZE := by
      simp only [LINE_BUF_SIZE]
      omega
    rw [fgetsLines_line hline hn, lastPiece_of_lt hshort]
    exact ⟨p, rfl, rfl⟩
  · have hlen : (text.take 8191).length = 8191 := by
      rw [List.length_take]
      omega
    have hfirst : NEWLINE ∉ text.take 8191 := fun h => hline (List.mem_of_mem_take h)
    have hrest : NEWLINE ∉ text.drop 8191 := fun h => hline (List.mem_of_mem_drop h)
    obtain ⟨q, hq, hfold⟩ := foldl_pieces s (parseLine s p (text.take 8191)) hrest
    refine ⟨q, hq.trans (parseLine_unended s p hfirst), ?_⟩
    rw [← lastPiece_drop (by omega), ← hfold]
    conv_lhs => rw [← List.take_append_drop 8191 text, List.append_assoc]
    rw [fgetsLines_full hfirst (List.ne_nil_of_length_pos (by omega))
      (by rw [hlen]; rfl), List.foldl_cons]
    rfl
termination_by text.length
decreasing_by
  rw [List.length_drop]
  omega

theorem Entry.timed (h : Entry text digits unit command) : Timed text digits unit := by
  obtain ⟨g, gap, hgap, rfl⟩ := h.shape
  exact ⟨h.all_digits, [], g, gap ++ command.bytes, by simp, hgap g (by simp), rfl⟩

theorem Entry.nulFree (h : Entry text digits unit command) : 0 ∉ text := by
  obtain ⟨g, gap, hgap, rfl⟩ := h.shape
  have hat : (0 : UInt8) ≠ chr '@' := by decide
  have hdigits : 0 ∉ digits := fun h0 => absurd (h.all_digits 0 h0) (by decide)
  have hletter : 0 ≠ unit.letter := by cases unit <;> decide
  have hblank : 0 ∉ g :: gap := fun h0 => absurd (hgap 0 h0) (by decide)
  simp only [List.mem_append, List.mem_cons, not_or] at hblank ⊢
  exact ⟨hat, hdigits, hletter, hblank, command.nulFree⟩

/-- What a line asks for is what it leads to, unless that does not fit. -/
theorem leads_self_iff : Leads digits unit (asked digits unit) ↔
    asked digits unit < 2 ^ 31 ∨ Noticed digits unit := by
  constructor
  · rintro (hnoticed | ⟨-, hlt, -⟩)
    · exact .inr hnoticed
    · exact .inl hlt
  · rintro (hlt | hnoticed)
    · by_cases hzero : asked digits unit = 0
      · have hu : unit.length ≠ 0 := by cases unit <;> decide
        have hdigits : digitsValue digits = 0 := by simpa [asked, hu] using hzero
        exact .inl (.inl (by rw [hdigits]; exact Nat.dvd_zero _))
      · exact .inr ⟨Nat.pos_of_ne_zero hzero, hlt, Nat.mod_eq_of_lt (by omega)⟩
    · exact .inl hnoticed

/-- A line of the file is skipped or adds a command with exactly the interval that it asks for,
unless that number is too large for an `int` and this is not noticed, or the line is cut by
`fgets` and its last piece is another command. The last line is always skipped if it does not end
with a newline. -/
theorem intervals_exact_iff (s : Splay) {before ending after : List UInt8}
    (h : Entry text digits unit command)
    (hbefore : before = [] ∨ ∃ l, before = l ++ [NEWLINE])
    (hending : ending = [NEWLINE] ∨ ending = [] ∧ after = []) :
    ∃ p p', (fgetsLines 0 [] before).foldl (parseLine s) .start = p ∧
      (fgetsLines 0 [] (text ++ ending)).foldl (parseLine s) p = p' ∧
      sParse s (some (before ++ (text ++ ending ++ after))) =
        (0, (fgetsLines 0 [] after).foldl (parseLine s) p') ∧
      (IntervalExact p p' (asked digits unit) ↔ ending = [] ∨
        text.length < 8191 ∧ (asked digits unit < 2 ^ 31 ∨ Noticed digits unit) ∨
        8191 ≤ text.length ∧ ∀ digits' unit', Timed (lastPiece text) digits' unit' →
          Leads digits' unit' (asked digits unit)) := by
  refine ⟨_, _, rfl, rfl, ?_, ?_⟩
  · have hsplit : fgetsLines 0 [] (before ++ (text ++ ending ++ after)) = fgetsLines 0 [] before ++
        (fgetsLines 0 [] (text ++ ending) ++ fgetsLines 0 [] after) := by
      have hafter : fgetsLines 0 [] (text ++ ending ++ after) =
          fgetsLines 0 [] (text ++ ending) ++ fgetsLines 0 [] after := by
        rcases hending with rfl | ⟨rfl, rfl⟩
        · rw [List.append_assoc, List.singleton_append, fgetsLines_append]
        · simp [fgetsLines]
      rcases hbefore with rfl | ⟨l, rfl⟩
      · simpa [fgetsLines] using hafter
      · rw [List.append_assoc l, List.singleton_append, fgetsLines_append, hafter]
    rw [sParse, hsplit, List.foldl_append, List.foldl_append]
  · rcases hending with rfl | ⟨rfl, rfl⟩
    · obtain ⟨q, hq, hfold⟩ :=
        foldl_pieces s ((fgetsLines 0 [] before).foldl (parseLine s) .start) h.line
      rw [hfold]
      by_cases hshort : text.length < 8191
      · rw [lastPiece_of_lt hshort, h.timed.exact_iff h.nulFree s hq, leads_self_iff]
        simp [hshort, Nat.not_le.mpr hshort]
      · have hnul : 0 ∉ lastPiece text := fun h0 => h.nulFree (List.mem_of_mem_drop h0)
        rw [exact_iff_forall hnul s hq]
        simp [hshort, Nat.not_lt.mp hshort]
    · rw [List.append_nil]
      exact iff_of_true (.of_skipped (foldl_unended s _ (notMem_fgetsLines h.line (by simp) 0)) _)
        (.inl rfl)

end Line

/-- Commands that are not delayed, added at the epoch. -/
def Splay.none : Splay := ⟨fun _ => 0, fun _ _ => 0⟩

theorem intervals_exact_minute : ∃ p',
    (fgetsLines 0 [] (CString.ascii "@60s ls" ++ [NEWLINE])).foldl (parseLine .none) .start = p' ∧
    sParse .none (some (CString.ascii "@60s ls\n")) = (0, p') ∧
    IntervalExact .start p' 60000 := by
  have hentry : Entry (CString.ascii "@60s ls") (CString.ascii "60") .seconds (.lit "ls") :=
    ⟨by decide, by decide, List.all_eq_true.mp (by decide), ⟨_, _, rfl, by decide⟩, chr ' ', [],
      List.all_eq_true.mp (by decide), by decide⟩
  have hending : [NEWLINE] = [NEWLINE] ∨ [NEWLINE] = [] ∧ ([] : List UInt8) = [] := .inl rfl
  obtain ⟨p, p', hp, hp', hparse, hiff⟩ := intervals_exact_iff .none hentry (.inl rfl) hending
  obtain rfl := hp
  exact ⟨p', hp', hparse, hiff.mpr (.inr (.inl ⟨by decide, .inl (by decide)⟩))⟩

/-- The digits of 2^32 + 1 are read as 1, and the command runs every second. -/
theorem interval_wraps : ∃ p',
    parseLine .none .start (CString.ascii "@4294967297s ls\n") = p' ∧
    sParse .none (some (CString.ascii "@4294967297s ls\n")) = (0, p') ∧
    p'.commands.map Check.interval = [1000] ∧ ¬IntervalExact .start p' 4294967297000 := by
  refine ⟨_, rfl, by rfl, by decide, ?_⟩
  rintro ⟨-, hlarge⟩
  exact absurd (hlarge (by decide)) (by decide)

end Bolo.Dbolo
