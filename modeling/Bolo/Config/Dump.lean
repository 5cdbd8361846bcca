import Bolo.Config.Directives
import Bolo.Config.Loaded
import Bolo.Config.Spelling

/-!
# The configuration, printed

`bolo aggr --dump-config` prints the server that it has configured, in the language that it
reads. What it prints is read back as the same settings, types, windows and datapoints. Rules,
the settings it leaves out, and names that were quoted are lost.
-/
namespace Bolo

open Library

variable {R Re : Type}

/-! ## Printing -/

/-- What `%u` shows of an `int`. -/
def unsigned (n : Int32) : CString := decimal n.toUInt32.toNat

def printSettings (path : CString) (c : Config) : Except Fault (List (List UInt8)) := do
  let listener ← deref c.listener
  let controller ← deref c.controller
  let broadcast ← deref c.broadcast
  let user ← deref c.runasUser
  let group ← deref c.runasGroup
  let pidfile ← deref c.pidfile
  let savefile ← deref c.savefile
  let keysfile ← deref c.keysfile
  let level ← deref c.logLevel
  let facility ← deref c.logFacility
  let events := match c.eventsKeep with
    | .number => (unsigned c.eventsMax).bytes
    | .time => (unsigned (c.eventsMax / 60)).bytes ++ CString.ascii "m"
  return [CString.ascii "# bolo configuration",
    CString.ascii "# (from " ++ path.bytes ++ CString.ascii ")", [],
    CString.ascii "listener    " ++ listener.bytes,
    CString.ascii "controller  " ++ controller.bytes,
    CString.ascii "broadcast   " ++ broadcast.bytes, [],
    CString.ascii "user        " ++ user.bytes,
    CString.ascii "group       " ++ group.bytes,
    CString.ascii "pidfile     " ++ pidfile.bytes, [],
    CString.ascii "savefile    " ++ savefile.bytes,
    CString.ascii "keysfile    " ++ keysfile.bytes,
    CString.ascii "max.events  " ++ events, [],
    CString.ascii "grace.period " ++ (unsigned c.gracePeriod).bytes,
    CString.ascii "log " ++ level.bytes ++ CString.ascii " " ++ facility.bytes, []]

/-- The word for a status, padded to nine characters. -/
def statusWord (status : UInt8) : List UInt8 :=
  if status = WARNING then CString.ascii "warning  "
  else if status = CRITICAL then CString.ascii "critical "
  else CString.ascii "unknown  "

def printType (k : CString) (t : TypeDef) : Except Fault (List (List UInt8)) := do
  let summary ← deref t.summary
  return [CString.ascii "type " ++ k.bytes ++ CString.ascii " \x7b",
    CString.ascii "    freshness " ++ (decimal t.freshness.toNat).bytes,
    CString.ascii "    " ++ statusWord t.status ++ CString.ascii " \"" ++ summary.bytes ++
      CString.ascii "\"",
    CString.ascii "\x7d", []]

def printStateLine (s : State) : Except Fault (List UInt8) := do
  let type ← deref s.type
  let typeName ← deref type.name
  let name ← deref s.name
  return CString.ascii "state " ++ typeName.bytes ++ CString.ascii " " ++ name.bytes

def printWindow (k : CString) (w : Window) : List UInt8 :=
  CString.ascii "window " ++ k.bytes ++ CString.ascii " " ++ (unsigned w.time).bytes

def Kind.label : Kind → String
  | .counter => "counter "
  | .sample => "sample "
  | .rate => "rate "

def printSeries (κ : Kind) (window : Option Window) (name : Option CString) :
    Except Fault (List UInt8) := do
  let w ← deref window
  let name ← deref name
  return CString.ascii κ.label ++ (w.name.getD (unsigned w.time)).bytes ++ CString.ascii " " ++
    name.bytes

/-- A blank line after a group that is not empty. -/
def spaced (lines : List (List UInt8)) : List (List UInt8) :=
  if lines = [] then [] else lines ++ [[]]

/-- The lines of the dump. -/
def dumpConfig [Double R] (path : CString) (s : Server R Re) :
    Except Fault (List (List UInt8)) := do
  let settings ← printSettings path s.config
  let types ← s.db.types.entries.mapM fun e => printType e.1 e.2
  let states ← s.db.states.entries.mapM fun e => printStateLine e.2
  let windows := s.db.windows.entries.map fun e => printWindow e.1 e.2
  let counters ← s.db.counters.entries.mapM fun e => printSeries .counter e.2.window e.2.name
  let samples ← s.db.samples.entries.mapM fun e => printSeries .sample e.2.window e.2.name
  let rates ← s.db.rates.entries.mapM fun e => printSeries .rate e.2.window e.2.name
  return settings ++ types.flatten ++ spaced states ++ spaced windows ++ spaced counters ++
    spaced samples ++ rates

/-! ## Loops that print -/

theorem Prints.spaced {lines : List (List UInt8)} {xs : List Lexeme} (h : Prints lines xs) :
    Prints (Bolo.spaced lines) xs := by
  unfold Bolo.spaced
  split
  · case isTrue hnil => rwa [hnil] at h
  · simpa using h.append line_blank.prints

/-- What a loop prints. -/
theorem Prints.mapM {α β : Type} {f : α → Except Fault β} {d : α → Directive}
    (lines : β → List (List UInt8)) {l : List α}
    (h : ∀ a ∈ l, ∃ b, f a = .ok b ∧ Prints (lines b) (d a).lexemes) :
    ∃ bs, l.mapM f = .ok bs ∧
      Prints (bs.flatMap lines) ((l.map d).flatMap Directive.lexemes) := by
  induction l with
  | nil => exact ⟨[], rfl, .nil⟩
  | cons a l ih =>
    obtain ⟨⟨b, hb, hprints⟩, hl⟩ := List.forall_mem_cons.mp h
    obtain ⟨bs, hbs, hrest⟩ := ih hl
    refine ⟨b :: bs, ?_, ?_⟩
    · rw [List.mapM_cons, hb, hbs]
      rfl
    · exact hprints.append hrest

/-! ## What the dump says -/

def printedText (text : Option CString) : CString := text.getD (.lit "")

def Severity.of (status : UInt8) : Severity :=
  if status = WARNING then .warning else if status = CRITICAL then .critical else .unknown

def eventsDirective (c : Config) : Directive :=
  match c.eventsKeep with
  | .number => .maxEvents (.of c.eventsMax.toUInt32.toNat)
  | .time => .maxAge (c.eventsMax / 60 * 60)

def settingsOf (c : Config) : List Directive :=
  [.setting .listener (printedText c.listener), .setting .controller (printedText c.controller),
   .setting .broadcast (printedText c.broadcast), .setting .user (printedText c.runasUser),
   .setting .group (printedText c.runasGroup), .setting .pidfile (printedText c.pidfile),
   .setting .savefile (printedText c.savefile), .setting .keysfile (printedText c.keysfile),
   eventsDirective c, .gracePeriod (.of c.gracePeriod.toUInt32.toNat),
   .log (printedText c.logLevel) (printedText c.logFacility)]

def typeDirective (k : CString) (t : TypeDef) : Directive :=
  .type k [.freshness (.of t.freshness.toNat), .summary (.of t.status) (printedText t.summary)]

def stateDirective (s : State) : Directive :=
  .state (s.type.bind TypeDef.name) (.name (printedText s.name))

def windowDirective (k : CString) (w : Window) : Directive :=
  .window k (.of w.time.toUInt32.toNat)

def Window.span (w : Window) : Span :=
  match w.name with
  | some name => .named name
  | none => .seconds (.of w.time.toUInt32.toNat)

def seriesDirective (κ : Kind) (window : Option Window) (name : Option CString) : Directive :=
  .series κ ((window.map Window.span).getD .inUse) (.name (printedText name))

section Dump

variable [Double R]

def Kind.directivesOf (κ : Kind) (db : Db R Re) : List Directive :=
  let S : Series R Re (κ.Record R) (κ.Value R) := κ.series
  (S.table db).entries.map fun e => seriesDirective κ (S.window e.2) (S.name e.2)

def directivesOf (s : Server R Re) : List Directive :=
  settingsOf s.config ++ s.db.types.entries.map (fun e => typeDirective e.1 e.2) ++
    s.db.states.entries.map (fun e => stateDirective e.2) ++
    s.db.windows.entries.map (fun e => windowDirective e.1 e.2) ++
    Kind.counter.directivesOf s.db ++ Kind.sample.directivesOf s.db ++ Kind.rate.directivesOf s.db

/-- The strings among the settings that are printed. -/
def Config.words (c : Config) : List (Option CString) :=
  [c.listener, c.controller, c.broadcast, c.runasUser, c.runasGroup, c.pidfile, c.savefile,
   c.keysfile, c.logLevel, c.logFacility]

/-- Nothing in the configuration needs what the dump does not print: quotes around a word, a
number of seconds that is no number of minutes, or a type or window that has been replaced since
it was used. -/
structure Dumpable (s : Server R Re) : Prop where
  settings : ∀ text ∈ s.config.words, ∃ u, text = some u ∧ Wordy u
  events : s.config.eventsKeep = .time → s.config.eventsMax / 60 * 60 = s.config.eventsMax
  types : ∀ e ∈ s.db.types.entries, Marked ':' e.1 ∧ e.2.name = some e.1 ∧
    ∃ u, e.2.summary = some u ∧ Quotable u
  windows : ∀ e ∈ s.db.windows.entries, Marked '@' e.1 ∧ e.2.name = some e.1
  states : ∀ e ∈ s.db.states.entries, Wordy e.1 ∧
    ∃ type, e.2.type = some type ∧ type.name.bind s.db.types.get? = some type
  series : ∀ κ : Kind, ∀ e ∈ (κ.series.table s.db).entries, Wordy e.1 ∧
    ∃ w, (κ.series : Series R Re _ _).window e.2 = some w ∧
      (w.name = none ∨ w.name.bind s.db.windows.get? = some w)

/-! ## What is printed is what the dump says -/

omit [Double R] in
theorem setting_line {key : StringSetting} {u : CString} (hu : Wordy u) {t : List UInt8}
    (ht : Heads t key.keyword) : Line (t ++ u.bytes) (Directive.setting key u).lexemes :=
  ((reads_string hu).last.headed ht).line

omit [Double R] in
theorem atoi_unsigned (n : Int32) : atoi (decimal n.toUInt32.toNat) = n := strtol_unsigned n

omit [Double R] in
/-- Minutes, as they are printed. -/
theorem spaced_minutes (n : Int32) :
    Spaced ((unsigned n).bytes ++ CString.ascii "m")
      [closed .time (decimalInt (n * 60).toInt)] := by
  have hplain : ∀ b ∈ (unsigned n).bytes ++ CString.ascii "m", b ≠ 0 ∧ b ≠ NEWLINE :=
    List.forall_mem_append.mpr ⟨(Digits.of n.toUInt32.toNat).plain, plain_of_all (by decide)⟩
  refine .last (e := .line) hplain (by simp) ?_
  have hdigits := isdigit_decimal n.toUInt32.toNat
  have hm : CString.ascii "m" = [chr 'm'] := by decide
  have hread : (CString.ofBytes (decimal n.toUInt32.toNat).bytes) = unsigned n :=
    CString.ofBytes_bytes _
  rw [hm, List.append_assoc, List.singleton_append]
  refine (lexeme_digits (.of n.toUInt32.toNat) _).trans ?_
  have hclass : isdigit (chr 'm') = false := by decide
  simp only [Digits.of, lexemeNumber, dropWhile_stop hdigits hclass,
    takeWhile_stop hdigits hclass, hread, unsigned, atoi_unsigned]
  rfl

omit [Double R] in
theorem events_line {c : Config} :
    Line (CString.ascii "max.events  " ++ match c.eventsKeep with
      | .number => (unsigned c.eventsMax).bytes
      | .time => (unsigned (c.eventsMax / 60)).bytes ++ CString.ascii "m")
      (eventsDirective c).lexemes := by
  unfold eventsDirective
  cases c.eventsKeep with
  | number => exact ((reads_number (.of _)).last.headed (k := .maxEvents) (by decide)).line
  | time => exact ((spaced_minutes _).headed (k := .maxEvents) (by decide)).line

omit [Double R] in
theorem settings_printed {path : CString} (hpath : NEWLINE ∉ path.bytes) {c : Config}
    (h : ∀ text ∈ c.words, ∃ u, text = some u ∧ Wordy u) :
    ∃ lines, printSettings path c = .ok lines ∧
      Prints lines ((settingsOf c).flatMap Directive.lexemes) := by
  simp only [Config.words, List.forall_mem_cons] at h
  obtain ⟨⟨listener, hlistener, h₁⟩, ⟨controller, hcontroller, h₂⟩, ⟨broadcast, hbroadcast, h₃⟩,
    ⟨user, huser, h₄⟩, ⟨group, hgroup, h₅⟩, ⟨pidfile, hpidfile, h₆⟩, ⟨savefile, hsavefile, h₇⟩,
    ⟨keysfile, hkeysfile, h₈⟩, ⟨level, hlevel, h₉⟩, ⟨facility, hfacility, h₁₀⟩, -⟩ := h
  have hfrom : ∀ b ∈ CString.ascii "# (from " ++ path.bytes ++ CString.ascii ")",
      b ≠ 0 ∧ b ≠ NEWLINE := by
    simp only [List.forall_mem_append]
    refine ⟨⟨plain_of_all (by decide), fun b hb => ?_⟩, plain_of_all (by decide)⟩
    exact ⟨ne_of_mem_of_not_mem hb path.nulFree, ne_of_mem_of_not_mem hb hpath⟩
  have hgrace : Line (CString.ascii "grace.period " ++ (unsigned c.gracePeriod).bytes)
      (Directive.gracePeriod (.of c.gracePeriod.toUInt32.toNat)).lexemes :=
    ((reads_number (.of _)).last.headed (k := .gracePeriod) (by decide)).line
  have hlog : Line (CString.ascii "log " ++ level.bytes ++ CString.ascii " " ++ facility.bytes)
      (Directive.log level facility).lexemes := by
    rw [List.append_assoc, List.append_assoc]
    exact ((Spaced.cons (reads_string h₉) (by decide) (reads_string h₁₀).last).headed
      (k := .log) (by decide)).line
  refine ⟨_, by
    simp only [printSettings, hlistener, hcontroller, hbroadcast, huser, hgroup, hpidfile,
      hsavefile, hkeysfile, hlevel, hfacility, deref_some, ok_bind]
    rfl, ?_⟩
  simp only [settingsOf, hlistener, hcontroller, hbroadcast, huser, hgroup, hpidfile, hsavefile,
    hkeysfile, hlevel, hfacility, printedText, Option.getD_some]
  refine .idle (line_comment (plain_of_all (by decide)) (by decide)) (.idle (line_comment hfrom rfl)
    (.idle line_blank ?_))
  refine .cons (setting_line h₁ (by decide)) (.cons (setting_line h₂ (by decide))
    (.cons (setting_line h₃ (by decide)) (.idle line_blank ?_)))
  refine .cons (setting_line h₄ (by decide)) (.cons (setting_line h₅ (by decide))
    (.cons (setting_line h₆ (by decide)) (.idle line_blank ?_)))
  refine .cons (setting_line h₇ (by decide)) (.cons (setting_line h₈ (by decide))
    (.cons events_line (.idle line_blank ?_)))
  exact .cons hgrace (.cons hlog line_blank.prints)

omit [Double R] in
theorem status_line (status : UInt8) {u : CString} (hu : Quotable u) :
    Line (CString.ascii "    " ++ statusWord status ++ CString.ascii " \"" ++ u.bytes ++
      CString.ascii "\"") (Attribute.summary (.of status) u).lexemes := by
  have hword (severity : Severity) (gap : List UInt8) (hgap : gap ≠ [] ∧ gap.all (· = chr ' ')) :
      Line (CString.ascii "    " ++ (severity.word.bytes ++ (gap ++
        (CString.ascii "\"" ++ u.bytes ++ CString.ascii "\""))))
        (Attribute.summary severity u).lexemes := by
    have hread : Wordy severity.word := by cases severity <;> decide
    exact (Spaced.cons (reads_string hread) hgap (reads_quoted hu).last).indented (by decide)
  have hquote : CString.ascii " \"" = CString.ascii " " ++ CString.ascii "\"" := by decide
  simp only [List.append_assoc, hquote, statusWord, Severity.of] at hword ⊢
  split
  · exact hword .warning (CString.ascii "   ") (by decide)
  · split
    · exact hword .critical (CString.ascii "  ") (by decide)
    · exact hword .unknown (CString.ascii "   ") (by decide)

omit [Double R] in
theorem type_printed {k : CString} (hk : Marked ':' k) {t : TypeDef} {u : CString}
    (ht : t.summary = some u) (hu : Quotable u) :
    ∃ lines, printType k t = .ok lines ∧ Prints lines (typeDirective k t).lexemes := by
  have hname : Line (CString.ascii "type " ++ k.bytes ++ CString.ascii " \x7b")
      [(.keyword .type, []), closed .typename k, (.openBrace, [])] := by
    have hbrace : CString.ascii " \x7b" = CString.ascii " " ++ CString.ascii "\x7b" := by decide
    rw [List.append_assoc, hbrace]
    exact ((Spaced.cons (reads_typename hk) (by decide) reads_openBrace.last).headed
      (k := .type) (by decide)).line
  have hfreshness : Line (CString.ascii "    freshness " ++ (decimal t.freshness.toNat).bytes)
      (Attribute.freshness (.of t.freshness.toNat)).lexemes := by
    have hgap : CString.ascii "    freshness " =
        CString.ascii "    " ++ CString.ascii "freshness " := by decide
    rw [hgap, List.append_assoc]
    exact ((reads_number (.of _)).last.headed (k := .freshness) (by decide)).indented (by decide)
  refine ⟨_, by rw [printType, ht, deref_some, ok_bind]; rfl, ?_⟩
  rw [typeDirective, ht]
  exact .cons hname (.cons hfreshness (.cons (status_line _ hu)
    (.cons reads_closeBrace.last.line line_blank.prints)))

omit [Double R] in
theorem state_printed {s : State} {type : TypeDef} {k name : CString} (hs : s.type = some type)
    (htype : type.name = some k) (hk : Marked ':' k) (hname : s.name = some name)
    (hword : Wordy name) :
    ∃ l, printStateLine s = .ok l ∧ Prints [l] (stateDirective s).lexemes := by
  refine ⟨_, by simp only [printStateLine, hs, htype, hname, deref_some, ok_bind]; rfl, ?_⟩
  have hd : stateDirective s = .state (some k) (.name name) := by
    simp [stateDirective, hs, htype, hname, printedText]
  rw [hd, List.append_assoc, List.append_assoc]
  exact ((Spaced.cons (reads_typename hk) (by decide) (reads_string hword).last).headed
    (k := .state) (by decide)).line.prints

omit [Double R] in
theorem window_printed {k : CString} (hk : Marked '@' k) (w : Window) :
    Prints [printWindow k w] (windowDirective k w).lexemes := by
  rw [printWindow, List.append_assoc, List.append_assoc]
  exact ((Spaced.cons (reads_windowname hk) (by decide) (reads_number (.of _)).last).headed
    (k := .window) (by decide)).line.prints

omit [Double R] in
theorem series_printed (κ : Kind) {w : Window} {name : CString}
    (hw : ∀ k, w.name = some k → Marked '@' k) (hword : Wordy name) :
    ∃ l, printSeries κ (some w) (some name) = .ok l ∧
      Prints [l] (seriesDirective κ (some w) (some name)).lexemes := by
  refine ⟨_, by simp only [printSeries, deref_some, ok_bind]; rfl, ?_⟩
  have hspan : ∃ x, Reads (w.name.getD (unsigned w.time)).bytes x ∧ w.span.lexemes = [x] := by
    unfold Window.span
    cases hname : w.name with
    | some k => exact ⟨_, reads_windowname (hw k hname), rfl⟩
    | none => exact ⟨_, reads_number (.of w.time.toUInt32.toNat), rfl⟩
  obtain ⟨x, hread, hx⟩ := hspan
  have hgap : CString.ascii " " ≠ [] ∧ (CString.ascii " ").all (· = chr ' ') := by decide
  have hline := Spaced.cons hread hgap (reads_string hword).last
  have hlexemes : (seriesDirective κ (some w) (some name)).lexemes =
      (.keyword (Directive.series κ w.span (.name name)).keyword, []) ::
        [x, closed .string name] := by
    change _ :: (w.span.lexemes ++ _) = _
    rw [hx]
    rfl
  rw [hlexemes, List.append_assoc, List.append_assoc]
  cases κ with
  | counter => exact (hline.headed (k := .counter) (by decide)).line.prints
  | sample => exact (hline.headed (k := .sample) (by decide)).line.prints
  | rate => exact (hline.headed (k := .rate) (by decide)).line.prints

theorem dump_printed {clock : Nat → Int32} {s : Server R Re} (hs : Loaded clock s.db)
    (h : Dumpable s) {path : CString} (hpath : NEWLINE ∉ path.bytes) :
    ∃ lines, dumpConfig path s = .ok lines ∧
      Prints lines ((directivesOf s).flatMap Directive.lexemes) := by
  obtain ⟨settings, hsettings, hp⟩ := settings_printed hpath h.settings
  obtain ⟨types, htypes, hptypes⟩ := Prints.mapM id (l := s.db.types.entries)
    (f := fun e => printType e.1 e.2) (d := fun e => typeDirective e.1 e.2) fun e he => by
      obtain ⟨hk, -, u, hu, hquotable⟩ := h.types e he
      exact type_printed hk hu hquotable
  obtain ⟨states, hstates, hpstates⟩ := Prints.mapM (fun l => [l])
    (l := s.db.states.entries) (f := fun e => printStateLine e.2) (d := fun e => stateDirective e.2)
    fun e he => by
      obtain ⟨hword, type, htype, hdeclared⟩ := h.states e he
      obtain ⟨k, hk, hget⟩ := Option.bind_eq_some_iff.mp hdeclared
      obtain ⟨-, n, type', -, hblank⟩ := hs.states e.1 e.2 (Table.get?_of_mem he)
      exact state_printed htype hk (h.types (k, type) (Table.mem_of_get? hget)).1
        (by rw [hblank]; rfl) hword
  have hpwindows : Prints (s.db.windows.entries.map fun e => printWindow e.1 e.2)
      ((s.db.windows.entries.map fun e => windowDirective e.1 e.2).flatMap
        Directive.lexemes) := by
    obtain ⟨lines, hlines, hprints⟩ := Prints.mapM (fun l => [l])
      (l := s.db.windows.entries) (f := fun e => .ok (printWindow e.1 e.2))
      (d := fun e => windowDirective e.1 e.2)
      fun e he => ⟨_, rfl, window_printed (h.windows e he).1 e.2⟩
    rw [mapM_eq_ok fun e _ => rfl] at hlines
    obtain rfl := Except.ok.inj hlines
    simpa using hprints
  have hseries (κ : Kind) : ∃ lines,
      (κ.series.table s.db).entries.mapM (fun e => printSeries κ
        ((κ.series : Series R Re _ _).window e.2) ((κ.series : Series R Re _ _).name e.2)) =
          .ok lines ∧
      Prints (lines.flatMap fun l => [l]) ((κ.directivesOf s.db).flatMap Directive.lexemes) := by
    refine Prints.mapM _ fun e he => ?_
    obtain ⟨hword, w, hw, hdeclared⟩ := h.series κ e he
    obtain ⟨-, w', hblank⟩ := hs.series κ e.1 e.2 (Table.get?_of_mem he)
    have hname : (κ.series : Series R Re _ _).name e.2 = some e.1 := by
      rw [hblank, Series.name_blank]
    rw [hw, hname]
    refine series_printed κ (fun k hk => ?_) hword
    rcases hdeclared with hnone | hget
    · rw [hnone] at hk
      cases hk
    · rw [hk, Option.bind_some] at hget
      exact (h.windows (k, w) (Table.mem_of_get? hget)).1
  obtain ⟨counters, hcounters, hpcounters⟩ := hseries .counter
  obtain ⟨samples, hsamples, hpsamples⟩ := hseries .sample
  obtain ⟨rates, hrates, hprates⟩ := hseries .rate
  simp only [List.flatMap_singleton', List.flatMap_id]
    at hptypes hpstates hpcounters hpsamples hprates
  refine ⟨settings ++ types.flatten ++ spaced states ++
    spaced (s.db.windows.entries.map fun e => printWindow e.1 e.2) ++ spaced counters ++
    spaced samples ++ rates, ?_, ?_⟩
  · have hc : s.db.counters.entries.mapM (fun e => printSeries .counter e.2.window e.2.name) =
        .ok counters := hcounters
    have hsm : s.db.samples.entries.mapM (fun e => printSeries .sample e.2.window e.2.name) =
        .ok samples := hsamples
    have hr : s.db.rates.entries.mapM (fun e => printSeries .rate e.2.window e.2.name) =
        .ok rates := hrates
    simp only [dumpConfig, hsettings, htypes, hstates, hc, hsm, hr, ok_bind]
    rfl
  · simp only [directivesOf, List.flatMap_append]
    exact (((((hp.append hptypes).append hpstates.spaced).append hpwindows.spaced).append
      hpcounters.spaced).append hpsamples.spaced).append hprates

/-! ## What the dump says is what was configured -/

/-- A state without the time at which it was declared. -/
def State.undated (s : State) : State := { s with expiry := 0 }

/-- What a dump brings back: the settings that it prints, and the declarations except the
rules. -/
structure Server.Restored (s s' : Server R Re) : Prop where
  config : s'.config =
    { s.config with
      beacon := (defaults R Re).config.beacon
      nscaPort := (defaults R Re).config.nscaPort
      saveSize := (defaults R Re).config.saveSize }
  interval : s'.interval = (defaults R Re).interval
  types : ∀ k, s'.db.types.get? k = s.db.types.get? k
  windows : ∀ k, s'.db.windows.get? k = s.db.windows.get? k
  states : ∀ k, (s'.db.states.get? k).map State.undated = (s.db.states.get? k).map State.undated
  series : ∀ (κ : Kind) (k : CString), ((κ.series : Series R Re _ _).table s'.db).get? k =
    ((κ.series : Series R Re _ _).table s.db).get? k
  stateRules : s'.db.stateMatches = []
  rules : ∀ κ : Kind, (κ.series : Series R Re _ _).rules s'.db = []

theorem Digits.value_of (n : Int32) : (Digits.of n.toUInt32.toNat).value = n := by
  rw [Digits.value, Digits.of, CString.ofBytes_bytes, atoi_unsigned]

theorem Digits.value_freshness (n : UInt16) :
    (Digits.of n.toNat).value.toUInt32.toUInt16 = n := by
  have hlt : n.toNat < 2 ^ 16 := n.toNat_lt
  have hread := atoi_numeral (numeral_decimal n.toNat) (by omega) (by omega)
  rw [Digits.value, Digits.of, CString.ofBytes_bytes]
  apply UInt16.toNat_inj.mp
  have hnat := toNat_toUInt32_of_nonneg (x := atoi (decimal n.toNat)) (by omega)
  rw [UInt32.toNat_toUInt16]
  omega

theorem typeOf_printed {k : CString} {t : TypeDef} (ht : t.Wf) (hname : t.name = some k) :
    typeOf k [.freshness (.of t.freshness.toNat), .summary (.of t.status) (printedText t.summary)] =
      t := by
  obtain ⟨text, htext⟩ := ht.summary
  have hstatus : (Severity.of t.status).status = t.status := by
    rcases ht.status with h | h | h <;> rw [h] <;> rfl
  simp only [typeOf, List.foldl_cons, List.foldl_nil, Attribute.set, Digits.value_freshness,
    hstatus, htext, printedText, Option.getD_some]
  rw [← htext, ← hname]

section Apply

variable [Pcre Re] [HashOrder] (clock : Nat → Int32)

theorem apply_append (m : Meaning R Re) (ds ds' : List Directive) :
    apply clock m (ds ++ ds') = apply clock m ds >>= fun m => apply clock m ds' :=
  List.foldlM_append ..

/-- Directives that are carried out one by one. -/
theorem apply_loop {α : Type} {d : α → Directive} {g : Meaning R Re → α → Meaning R Re}
    {I : Meaning R Re → Prop} {l : List α}
    (hstep : ∀ a ∈ l, ∀ m, I m → (d a).apply clock m = .ok (g m a) ∧ I (g m a))
    {m : Meaning R Re} (hm : I m) : apply clock m (l.map d) = .ok (l.foldl g m) := by
  induction l generalizing m with
  | nil => rfl
  | cons a l ih =>
    obtain ⟨ha, hl⟩ := List.forall_mem_cons.mp hstep
    obtain ⟨happly, hI⟩ := ha m hm
    rw [List.map_cons, apply, List.foldlM_cons, happly, ok_bind, List.foldl_cons]
    exact ih hl hI

/-- A table, written entry by entry. -/
def rewrite {V : Type} (l : List (CString × V)) (t : Table CString V) : Table CString V :=
  l.foldl (fun t e => hashSet t e.1 e.2) t

theorem get?_rewrite {V : Type} (t : Table CString V) (k : CString) :
    (rewrite t.entries .empty).get? k = t.get? k := by
  have hget := get?_foldl_hashSet id t.nodup .empty k
  rw [Table.get?_empty, Option.or_none] at hget
  exact hget

theorem apply_types (m : Meaning R Re) {l : List (CString × TypeDef)}
    (hl : ∀ e ∈ l, e.2.Wf ∧ e.2.name = some e.1) :
    apply clock m (l.map fun e => typeDirective e.1 e.2) =
      .ok (m.setDb fun db => { db with types := rewrite l db.types }) := by
  rw [apply_loop clock (I := fun _ => True) (g := fun m e => m.setDb fun db =>
    { db with types := hashSet db.types e.1 e.2 }) (fun e he m _ => ?_) trivial]
  · exact congrArg Except.ok (List.foldl_hom
      (fun t => m.setDb fun db => { db with types := t }) fun _ _ => rfl)
  · refine ⟨?_, trivial⟩
    rw [typeDirective, Directive.apply, typeOf_printed (hl e he).1 (hl e he).2]

theorem apply_windows (m : Meaning R Re) {l : List (CString × Window)}
    (hl : ∀ e ∈ l, e.2.name = some e.1) :
    apply clock m (l.map fun e => windowDirective e.1 e.2) =
      .ok (m.setDb fun db => { db with windows := rewrite l db.windows }) := by
  rw [apply_loop clock (I := fun _ => True) (g := fun m e => m.setDb fun db =>
    { db with windows := hashSet db.windows e.1 e.2 }) (fun e he m _ => ?_) trivial]
  · exact congrArg Except.ok (List.foldl_hom
      (fun t => m.setDb fun db => { db with windows := t }) fun _ _ => rfl)
  · refine ⟨?_, trivial⟩
    rw [windowDirective, Directive.apply, Digits.value_of, ← hl e he]

theorem apply_series (κ : Kind) (m : Meaning R Re) {l : List (CString × κ.Record R)}
    (hl : ∀ e ∈ l, ∃ w, e.2 = (κ.series : Series R Re _ _).blank e.1 (some w) ∧
      (w.name = none ∨ w.name.bind m.server.db.windows.get? = some w)) :
    apply clock m (l.map fun e => seriesDirective κ ((κ.series : Series R Re _ _).window e.2)
        ((κ.series : Series R Re _ _).name e.2)) =
      .ok (m.setDb fun db => κ.series.setTable db (rewrite l (κ.series.table db))) := by
  rw [apply_loop clock (I := fun m' => m'.server.db.windows = m.server.db.windows)
    (g := fun m e => m.setDb fun db =>
      κ.series.setTable db (hashSet (κ.series.table db) e.1 e.2)) (fun e he m' hm' => ?_) rfl]
  · have hstart : m = m.setDb fun db => κ.series.setTable db (κ.series.table m.server.db) := by
      simp [Meaning.setDb]
    refine congrArg Except.ok ((congrArg (l.foldl _) hstart).trans (List.foldl_hom
      (fun t => m.setDb fun db => κ.series.setTable db t) fun t e => ?_))
    simp [Meaning.setDb]
  · obtain ⟨w, hblank, hdeclared⟩ := hl e he
    have hwindow : w.span.window m' = some w := by
      unfold Window.span
      rcases hdeclared with hnone | hget
      · simp only [hnone, Span.window, Digits.value_of]
        rw [← hnone]
      · obtain ⟨k, hk, hget⟩ := Option.bind_eq_some_iff.mp hget
        simp only [hk, Span.window, hm', hget]
    have hname : (κ.series : Series R Re _ _).name e.2 = some e.1 := by
      rw [hblank, Series.name_blank]
    have hspan : (κ.series : Series R Re _ _).window e.2 = some w := by
      rw [hblank, Series.window_blank]
    refine ⟨?_, by cases κ <;> exact hm'⟩
    simp only [seriesDirective, hspan, hname, Option.map_some, Option.getD_some, printedText,
      Directive.apply, hwindow, orBail, ok_bind]
    rw [hblank]
    rfl

theorem apply_states (m : Meaning R Re) {l : List (CString × State)}
    (hnodup : (l.map Prod.fst).Nodup)
    (hl : ∀ e ∈ l, ∃ n type, e.2 = State.blank n e.1 type ∧
      type.name.bind m.server.db.types.get? = some type) :
    ∃ n states, apply clock m (l.map fun e => stateDirective e.2) =
        .ok ({ m with readings := n }.setDb fun db => { db with states := states }) ∧
      ∀ k, (states.get? k).map State.undated =
        (((l.find? (·.1 = k)).map Prod.snd).or (m.server.db.states.get? k)).map State.undated := by
  induction l generalizing m with
  | nil => exact ⟨m.readings, m.server.db.states, rfl, fun k => rfl⟩
  | cons e l ih =>
    obtain ⟨hnotMem, hnodup⟩ := List.nodup_cons.mp hnodup
    obtain ⟨⟨n, type, hblank, hdeclared⟩, hrest⟩ := List.forall_mem_cons.mp hl
    obtain ⟨k, hk, hget⟩ := Option.bind_eq_some_iff.mp hdeclared
    let m₁ : Meaning R Re := { m with readings := m.readings + 1 }.setDb fun db =>
      { db with states := hashSet db.states e.1 (State.blank (clock m.readings) e.1 type) }
    have hstep : (stateDirective e.2).apply clock m = .ok m₁ := by
      have hd : stateDirective e.2 = .state (some k) (.name e.1) := by
        simp [stateDirective, hblank, State.blank, hk, printedText]
      simp only [hd, Directive.apply, Option.some_or, Option.bind_some, hget, orBail, ok_bind]
      rfl
    obtain ⟨n', states, happly, hstates⟩ := ih m₁ hnodup hrest
    refine ⟨n', states, ?_, fun k' => ?_⟩
    · rw [List.map_cons, apply, List.foldlM_cons, hstep, ok_bind]
      exact happly
    · have hset : m₁.server.db.states.get? k' =
          if k' = e.1 then some (State.blank (clock m.readings) e.1 type)
          else m.server.db.states.get? k' := get?_hashSet ..
      rw [hstates k', hset]
      by_cases hk' : e.1 = k'
      · have hnone : l.find? (·.1 = k') = none := by
          rw [List.find?_eq_none]
          intro e' he' heq
          exact hnotMem (List.mem_map.mpr ⟨e', he', by simpa [hk'] using heq⟩)
        simp only [hnone, hk', if_true, List.find?_cons_of_pos, decide_true, Option.map_none,
          Option.none_or, Option.map_some, Option.some_or]
        rw [hblank, hk']
        rfl
      · rw [if_neg (Ne.symm hk'), List.find?_cons_of_neg (by simpa using hk')]

/-- What a directive changes among the settings. -/
def Directive.change : Directive → Config → Config
  | .setting key text, c => key.set (some text) c
  | .gracePeriod n, c => { c with gracePeriod := n.value }
  | .maxEvents n, c => { c with eventsKeep := .number, eventsMax := n.value }
  | .maxAge seconds, c => { c with eventsKeep := .time, eventsMax := seconds }
  | .log level facility, c => { c with logLevel := some level, logFacility := some facility }
  | _, c => c

theorem settingsOf_change (c : Config) (m : Meaning R Re) :
    ∀ d ∈ settingsOf c, d.apply clock m = .ok (m.setConfig d.change) := by
  have hevents : (eventsDirective c).apply clock m =
      .ok (m.setConfig (eventsDirective c).change) := by
    unfold eventsDirective
    split <;> rfl
  simp only [settingsOf, List.forall_mem_cons]
  exact ⟨rfl, rfl, rfl, rfl, rfl, rfl, rfl, rfl, hevents, rfl, rfl, by simp⟩

omit [HashOrder] in
theorem settingsOf_changes {c : Config} (h : ∀ text ∈ c.words, ∃ u, text = some u ∧ Wordy u)
    (hevents : c.eventsKeep = .time → c.eventsMax / 60 * 60 = c.eventsMax) (c' : Config) :
    (settingsOf c).foldl (fun c' d => d.change c') c' =
      { c with beacon := c'.beacon, nscaPort := c'.nscaPort, saveSize := c'.saveSize } := by
  have htext : ∀ text ∈ c.words, some (printedText text) = text := by
    intro text ht
    obtain ⟨u, rfl, -⟩ := h text ht
    rfl
  simp only [Config.words, List.forall_mem_cons] at htext
  obtain ⟨h₁, h₂, h₃, h₄, h₅, h₆, h₇, h₈, h₉, h₁₀, -⟩ := htext
  have hkeep (c' : Config) : (eventsDirective c).change c' =
      { c' with eventsKeep := c.eventsKeep, eventsMax := c.eventsMax } := by
    unfold eventsDirective
    split
    · case h_1 hnumber => rw [Directive.change, Digits.value_of, hnumber]
    · case h_2 htime => rw [Directive.change, hevents htime, htime]
  simp only [settingsOf, List.foldl_cons, List.foldl_nil, hkeep]
  simp only [Directive.change, StringSetting.set, Digits.value_of, h₁, h₂, h₃, h₄, h₅, h₆, h₇, h₈,
    h₉, h₁₀]

theorem apply_settings (m : Meaning R Re) {c : Config}
    (h : ∀ text ∈ c.words, ∃ u, text = some u ∧ Wordy u)
    (hevents : c.eventsKeep = .time → c.eventsMax / 60 * 60 = c.eventsMax) :
    apply clock m (settingsOf c) = .ok (m.setConfig fun c' =>
      { c with beacon := c'.beacon, nscaPort := c'.nscaPort, saveSize := c'.saveSize }) := by
  have hloop := apply_loop clock (d := id) (I := fun _ => True) (m := m)
    (g := fun m d => m.setConfig d.change)
    (fun d hd m _ => ⟨settingsOf_change clock c m d hd, trivial⟩) trivial
  rw [List.map_id] at hloop
  have hfold : (settingsOf c).foldl (fun m d => m.setConfig d.change) m = m.setConfig fun c' =>
      (settingsOf c).foldl (fun c' d => d.change c') c' :=
    List.foldl_hom (fun c' => m.setConfig fun _ => c') fun _ _ => rfl
  rw [hloop, hfold]
  simp only [settingsOf_changes h hevents]

theorem apply_directivesOf {clock' : Nat → Int32} {s : Server R Re} (hs : Loaded clock' s.db)
    (h : Dumpable s) : ∃ m, apply clock (.start (defaults R Re)) (directivesOf s) = .ok m ∧
      s.Restored m.server := by
  have htypes (e) (he : e ∈ s.db.types.entries) : e.2.Wf ∧ e.2.name = some e.1 :=
    ⟨hs.types e.1 e.2 (Table.get?_of_mem he), (h.types e he).2.1⟩
  let m₂ : Meaning R Re := ((Meaning.start (defaults R Re)).setConfig fun c' =>
    { s.config with beacon := c'.beacon, nscaPort := c'.nscaPort, saveSize := c'.saveSize }).setDb
      fun db => { db with types := rewrite s.db.types.entries db.types }
  obtain ⟨n, states, hstates, hget⟩ := apply_states clock m₂ s.db.states.nodup
    fun e he => by
      obtain ⟨-, n, type, -, hblank⟩ := hs.states e.1 e.2 (Table.get?_of_mem he)
      obtain ⟨-, type', htype, hdeclared⟩ := h.states e he
      obtain rfl : type = type' := by
        rw [hblank] at htype
        exact Option.some.inj htype
      refine ⟨clock' n, type, hblank, ?_⟩
      obtain ⟨k, hk, hget⟩ := Option.bind_eq_some_iff.mp hdeclared
      rw [hk, Option.bind_some]
      exact (get?_rewrite s.db.types k).trans hget
  have hseries (κ : Kind) (m : Meaning R Re)
      (hm : m.server.db.windows = rewrite s.db.windows.entries .empty) :
      apply clock m (κ.directivesOf s.db) =
        .ok (m.setDb fun db => κ.series.setTable db
          (rewrite (κ.series.table s.db).entries (κ.series.table db))) := by
    refine apply_series clock κ m fun e he => ?_
    obtain ⟨-, w, hw, hdeclared⟩ := h.series κ e he
    obtain ⟨-, w', hblank⟩ := hs.series κ e.1 e.2 (Table.get?_of_mem he)
    obtain rfl : w' = w := by
      rw [hblank, Series.window_blank] at hw
      exact Option.some.inj hw
    refine ⟨w', hblank, hdeclared.imp_right fun hget => ?_⟩
    obtain ⟨k, hk, hget⟩ := Option.bind_eq_some_iff.mp hget
    rw [hk, Option.bind_some, hm, get?_rewrite]
    exact hget
  refine ⟨_, by
    simp only [directivesOf, apply_append, apply_settings clock _ h.settings h.events, ok_bind,
      apply_types clock _ htypes]
    rw [hstates, ok_bind, apply_windows clock _ fun e he => (h.windows e he).2, ok_bind,
      hseries .counter _ rfl, ok_bind, hseries .sample _ rfl, ok_bind, hseries .rate _ rfl], ?_⟩
  refine ⟨rfl, rfl, get?_rewrite s.db.types, get?_rewrite s.db.windows, fun k => ?_, fun κ k => ?_,
    rfl, fun κ => ?_⟩
  · refine (hget k).trans ?_
    rw [show m₂.server.db.states.get? k = none from rfl, Option.or_none]
    rfl
  · cases κ <;> exact get?_rewrite _ k
  · cases κ <;> rfl

/-- The lines as a file. -/
def dumpText (lines : List (List UInt8)) : List UInt8 := lines.flatMap (· ++ [NEWLINE])

omit [HashOrder] in
theorem Prints.written {lines : List (List UInt8)} {xs : List Lexeme} (h : Prints lines xs)
    (hshort : ∀ l ∈ lines, l.length < 8190) : Written (dumpText lines) xs := by
  obtain ⟨zs, hzs, rfl⟩ := h
  have hpieces : pieces NEWLINE (dumpText lines) = lines ∧ rest NEWLINE (dumpText lines) = [] := by
    clear hshort
    induction hzs with
    | nil => exact ⟨rfl, rfl⟩
    | @cons l z lines zs hl _ ih =>
      have hl' : NEWLINE ∉ l := fun hmem => (hl.plain _ hmem).2 rfl
      have hcons : dumpText (l :: lines) = l ++ NEWLINE :: dumpText lines := by simp [dumpText]
      rw [hcons, pieces_append_cons hl', rest_append_cons hl', ih.1, ih.2]
      exact ⟨rfl, rfl⟩
  refine ⟨hpieces.2, zs, ?_, rfl⟩
  rw [hpieces.1]
  clear hpieces
  induction hzs with
  | nil => exact .nil
  | cons hl _ ih =>
    obtain ⟨hlen, hrest⟩ := List.forall_mem_cons.mp hshort
    refine .cons ⟨⟨fun h => (hl.plain 0 h).1 rfl, fun h => (hl.plain _ h).2 rfl, hlen⟩, hl.yields⟩
      (ih hrest)

end Apply

end Dump

section Journal

open Reference

theorem journal_dumpable : Dumpable journal where
  settings := by
    have hwordy : journal.config.words.all (·.any fun u => decide (Wordy u)) := by decide +kernel
    intro text ht
    simpa [Option.any_eq_true] using List.all_eq_true.mp hwordy text ht
  events := by decide
  types := by
    have hall : journal.db.types.entries.all fun e => Marked ':' e.1 ∧ e.2.name = some e.1 ∧
        e.2.summary.any fun u => decide (Quotable u) := by decide +kernel
    intro e he
    simpa [Option.any_eq_true] using List.all_eq_true.mp hall e he
  windows := by
    have hall : journal.db.windows.entries.all fun e => Marked '@' e.1 ∧ e.2.name = some e.1 := by
      decide +kernel
    intro e he
    simpa [Option.any_eq_true] using List.all_eq_true.mp hall e he
  states := by
    have hall : journal.db.states.entries.all fun e => Wordy e.1 ∧
        e.2.type.any fun t => t.name.bind journal.db.types.get? = some t := by decide +kernel
    intro e he
    simpa [Option.any_eq_true] using List.all_eq_true.mp hall e he
  series := by
    have hall (κ : Kind) : (κ.series.table journal.db).entries.all fun e => Wordy e.1 ∧
        ((κ.series : Series Int CString _ _).window e.2).any fun w =>
          w.name.bind journal.db.windows.get? = some w := by
      cases κ <;> decide +kernel
    intro κ e he
    obtain ⟨hword, hwindow⟩ : Wordy e.1 ∧ ∃ w, (κ.series : Series Int CString _ _).window e.2 =
        some w ∧ w.name.bind journal.db.windows.get? = some w := by
      simpa [Option.any_eq_true] using List.all_eq_true.mp (hall κ) e he
    exact ⟨hword, hwindow.imp fun w hw => ⟨hw.1, .inr hw.2⟩⟩

-- a grace period of 15 behind 100 events comes back as 150
example : (match dumpConfig (.lit "/etc/bolo.conf")
      { journal with config := { journal.config with eventsMax := 100 } } with
    | .ok lines => (configure epoch 64 (defaults Int CString) (dumpText lines)).toOption.map
        fun s => (s.config.eventsMax, s.config.gracePeriod)
    | .error _ => none) = some (100, 150) := by decide +kernel

end Journal

end Bolo
