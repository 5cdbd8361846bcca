import Bolo.Config.Reference
import Bolo.Config.Tokens

/-!
# Directives and what they mean

The configuration language as syntax: a list of directives, with the tokens that each of them
is written in and the change that it makes to the server. `configure` on a file that spells
a list of directives, in any layout, makes these changes one after the other.
-/
namespace Bolo

open Library

variable {R Re : Type}

/-! ## Syntax -/

inductive StringSetting where
  | listener | controller | broadcast | user | group | pidfile | savefile | keysfile | beacon
  deriving DecidableEq, Repr

def StringSetting.keyword : StringSetting → Keyword
  | .listener => .listener
  | .controller => .controller
  | .broadcast => .broadcast
  | .user => .user
  | .group => .group
  | .pidfile => .pidfile
  | .savefile => .savefile
  | .keysfile => .keysfile
  | .beacon => .beacon

inductive NumberSetting where
  | sweep | saveSize | saveInterval | nscaPort
  deriving DecidableEq, Repr

def NumberSetting.keyword : NumberSetting → Keyword
  | .sweep => .sweep
  | .saveSize => .saveSize
  | .saveInterval => .saveInterval
  | .nscaPort => .nscaPort

/-- The status of a stale state. -/
inductive Severity where
  | warning | critical | unknown
  deriving DecidableEq, Repr

def Severity.word : Severity → CString
  | .warning => .lit "warning"
  | .critical => .lit "critical"
  | .unknown => .lit "unknown"

inductive Attribute where
  | freshness (n : Digits)
  | summary (severity : Severity) (text : CString)

/-- A datapoint, or a rule for those whose names match. -/
inductive Subject where
  | name (text : CString)
  | pattern (text : CString)

/-- The window of a datapoint: by name, in place or the one in use. -/
inductive Span where
  | named (name : CString)
  | seconds (n : Digits)
  | inUse

inductive Directive where
  | setting (key : StringSetting) (text : CString)
  | number (key : NumberSetting) (n : Digits)
  | gracePeriod (n : Digits)
  | maxEvents (n : Digits)
  | maxAge (seconds : Int32)
  | log (level facility : CString)
  | dumpfiles
  | useType (name : CString)
  | useWindow (name : CString)
  | window (name : CString) (n : Digits)
  | type (name : CString) (attributes : List Attribute)
  | state (type : Option CString) (subject : Subject)
  | series (κ : Kind) (span : Span) (subject : Subject)

/-! ## Tokens -/

def Attribute.lexemes : Attribute → List Lexeme
  | .freshness n => [(.keyword .freshness, []), (.number, n.text)]
  | .summary severity text => [closed .string severity.word, closed .string text]

def Subject.token : Subject → Token
  | .name _ => .string
  | .pattern _ => .match

def Subject.text : Subject → CString
  | .name text => text
  | .pattern text => text

def Subject.lexeme (s : Subject) : Lexeme := closed s.token s.text

def Span.lexemes : Span → List Lexeme
  | .named name => [closed .windowname name]
  | .seconds n => [(.number, n.text)]
  | .inUse => []

namespace Directive

def keyword : Directive → Keyword
  | .setting key _ => key.keyword
  | .number key _ => key.keyword
  | .gracePeriod _ => .gracePeriod
  | .maxEvents _ => .maxEvents
  | .maxAge _ => .maxEvents
  | .log _ _ => .log
  | .dumpfiles => .dumpfiles
  | .useType _ => .use
  | .useWindow _ => .use
  | .window _ _ => .window
  | .type _ _ => .type
  | .state _ _ => .state
  | .series .counter _ _ => .counter
  | .series .sample _ _ => .sample
  | .series .rate _ _ => .rate

def arguments : Directive → List Lexeme
  | .setting _ text => [closed .string text]
  | .number _ n => [(.number, n.text)]
  | .gracePeriod n => [(.number, n.text)]
  | .maxEvents n => [(.number, n.text)]
  | .maxAge seconds => [closed .time (decimalInt seconds.toInt)]
  | .log level facility => [closed .string level, closed .string facility]
  | .dumpfiles => []
  | .useType name => [closed .typename name]
  | .useWindow name => [closed .windowname name]
  | .window name n => [closed .windowname name, (.number, n.text)]
  | .type name attributes => closed .typename name :: (.openBrace, []) ::
      (attributes.flatMap Attribute.lexemes ++ [(.closeBrace, [])])
  | .state name subject => (name.map (closed .typename)).toList ++ [subject.lexeme]
  | .series _ span subject => span.lexemes ++ [subject.lexeme]

def lexemes (d : Directive) : List Lexeme := (.keyword d.keyword, []) :: d.arguments

end Directive

/-- Every number among the tokens is read as it is written. -/
def Clear : List UInt8 → List Lexeme → Prop
  | _, [] => True
  | left, x :: xs => (x.1 = .number → Unclouded left x.2) ∧ Clear (leave left x) xs

instance decidableClear (left : List UInt8) (xs : List Lexeme) : Decidable (Clear left xs) :=
  match xs with
  | [] => inferInstanceAs (Decidable True)
  | x :: xs =>
    let _ := decidableClear (leave left x) xs
    inferInstanceAs (Decidable (_ ∧ _))

theorem clear_append {left : List UInt8} {xs ys : List Lexeme} :
    Clear left (xs ++ ys) ↔ Clear left xs ∧ Clear (xs.foldl leave left) ys := by
  induction xs generalizing left with
  | nil => simp [Clear]
  | cons x xs ih => simp [Clear, ih, and_assoc]

/-! ## Meaning -/

/-- A configuration in the making. -/
structure Meaning (R Re : Type) where
  server : Server R Re
  defaultType : Option CString
  defaultWin : Option CString
  readings : Nat

/-- The configuration, as `configure` has it with the parser. -/
def Meaning.withParser (m : Meaning R Re) (p : Parser) : Conf R Re :=
  { parser := p, server := m.server, defaultType := m.defaultType, defaultWin := m.defaultWin
    readings := m.readings }

def Meaning.setConfig (m : Meaning R Re) (f : Config → Config) : Meaning R Re :=
  { m with server := { m.server with config := f m.server.config } }

def Meaning.setDb (m : Meaning R Re) (f : Db R Re → Db R Re) : Meaning R Re :=
  { m with server := { m.server with db := f m.server.db } }

def StringSetting.set (text : Option CString) (c : Config) : StringSetting → Config
  | .listener => { c with listener := text }
  | .controller => { c with controller := text }
  | .broadcast => { c with broadcast := text }
  | .user => { c with runasUser := text }
  | .group => { c with runasGroup := text }
  | .pidfile => { c with pidfile := text }
  | .savefile => { c with savefile := text }
  | .keysfile => { c with keysfile := text }
  | .beacon => { c with beacon := text }

def NumberSetting.set (n : Int32) (s : Server R Re) : NumberSetting → Server R Re
  | .sweep => { s with interval := { s.interval with sweep := n.toUInt32.toUInt16 } }
  | .saveSize => { s with config := { s.config with saveSize := n } }
  | .saveInterval => { s with interval := { s.interval with savestate := n.toUInt32.toUInt16 } }
  | .nscaPort => { s with config := { s.config with nscaPort := (n.toUInt32 &&& 0xffff).toUInt16 } }

def Severity.status : Severity → UInt8
  | .warning => WARNING
  | .critical => CRITICAL
  | .unknown => UNKNOWN

def Attribute.set (type : TypeDef) : Attribute → TypeDef
  | .freshness n => { type with freshness := n.value.toUInt32.toUInt16 }
  | .summary severity text => { type with status := severity.status, summary := some text }

/-- A type with its attributes. Without a summary it says how long nothing has been heard. -/
def typeOf (name : CString) (attributes : List Attribute) : TypeDef :=
  let type := attributes.foldl Attribute.set
    { name := some name, freshness := 300, status := WARNING, summary := none }
  { type with summary := some (type.summary.getD (defaultSummary type.freshness)) }

def Span.window (m : Meaning R Re) : Span → Option Window
  | .named name => m.server.db.windows.get? name
  | .seconds n => some { name := none, time := n.value }
  | .inUse => m.defaultWin.bind m.server.db.windows.get?

section Apply

variable [Double R] [Pcre Re] [HashOrder]

omit [Pcre Re] in
/-- A new datapoint with its window. -/
def Kind.declare (κ : Kind) (name : CString) (window : Window) (db : Db R Re) : Db R Re :=
  let S : Series R Re (κ.Record R) (κ.Value R) := κ.series
  S.setTable db (hashSet (S.table db) name (S.blank name (some window)))

/-- What a directive does. It fails where it names what is not there, or a pattern that does
not compile. -/
def Directive.apply (clock : Nat → Int32) (m : Meaning R Re) :
    Directive → Except Stop (Meaning R Re)
  | .setting key text => .ok (m.setConfig fun c => key.set (some text) c)
  | .number key n => .ok { m with server := key.set n.value m.server }
  | .gracePeriod n => .ok (m.setConfig fun c => { c with gracePeriod := n.value })
  | .maxEvents n =>
    .ok (m.setConfig fun c => { c with eventsKeep := .number, eventsMax := n.value })
  | .maxAge seconds =>
    .ok (m.setConfig fun c => { c with eventsKeep := .time, eventsMax := seconds })
  | .log level facility =>
    .ok (m.setConfig fun c => { c with logLevel := some level, logFacility := some facility })
  | .dumpfiles => .ok m
  | .useType name => .ok { m with defaultType := some name }
  | .useWindow name => .ok { m with defaultWin := some name }
  | .window name n => .ok (m.setDb fun db =>
      { db with windows := hashSet db.windows name { name := some name, time := n.value } })
  | .type name attributes => .ok (m.setDb fun db =>
      { db with types := hashSet db.types name (typeOf name attributes) })
  | .state name subject => do
    let type ← orBail ((name.or m.defaultType).bind m.server.db.types.get?)
    match subject with
    | .name text => .ok ({ m with readings := m.readings + 1 }.setDb fun db =>
        { db with states := hashSet db.states text (State.blank (clock m.readings) text type) })
    | .pattern text =>
      match (Pcre.compile text : Except CString Re) with
      | .error _ => .error .bail
      | .ok re => .ok (m.setDb fun db =>
          { db with stateMatches := db.stateMatches ++ [{ target := some type, re := re }] })
  | .series κ span subject => do
    let window ← orBail (span.window m)
    match subject with
    | .name text => .ok (m.setDb (κ.declare text window))
    | .pattern text =>
      match (Pcre.compile text : Except CString Re) with
      | .error _ => .error .bail
      | .ok re => .ok (m.setDb (κ.addRule { target := some window, re := re }))

/-- What a list of directives does. -/
def apply (clock : Nat → Int32) (m : Meaning R Re) (ds : List Directive) :
    Except Stop (Meaning R Re) := ds.foldlM (Directive.apply clock) m

/-! ## Reading -/

section Reading

variable {m : Meaning R Re} {p : Parser} {left : List UInt8} {rest : List Lexeme}

omit [Double R] [Pcre Re] [HashOrder] in
theorem serverString_read {text : CString} (hp : p.Sees left (closed .string text :: rest))
    (f : Config → Option CString → Config) :
    ∃ p', (m.withParser p).serverString f =
        .ok ((m.setConfig fun c => f c (some text)).withParser p') ∧
      p'.Sees (leave left (closed .string text)) rest := by
  obtain ⟨p', hexpect, hsees⟩ := hp.expect_closed
  refine ⟨p', ?_, hsees⟩
  simp only [Conf.serverString, Meaning.withParser, hexpect, ok_bind]
  rfl

omit [Double R] [Pcre Re] [HashOrder] in
theorem serverNumber_read {n : Digits} (hp : p.Sees left ((.number, n.text) :: rest))
    (hclear : Unclouded left n.text) (f : Int32 → Server R Re → Server R Re) :
    ∃ p', (m.withParser p).serverNumber f =
        .ok ({ m with server := f n.value m.server }.withParser p') ∧
      p'.Sees (leave left (.number, n.text)) rest := by
  obtain ⟨p', hexpect, hsees⟩ := hp.expectNumber hclear
  refine ⟨p', ?_, hsees⟩
  simp only [Conf.serverNumber, Meaning.withParser, hexpect, ok_bind]
  rfl

omit [Double R] [Pcre Re] [HashOrder] in
/-- The attributes of a type, up to the closing brace. -/
theorem typeBody_read {attributes : List Attribute} {fuel : Nat} (hfuel : attributes.length < fuel)
    (type : TypeDef)
    (hp : p.Sees left (attributes.flatMap Attribute.lexemes ++ (.closeBrace, []) :: rest))
    (hclear : Clear left (attributes.flatMap Attribute.lexemes)) :
    ∃ p', typeBody fuel type p = .ok (attributes.foldl Attribute.set type, p') ∧
      p'.Sees (leave ((attributes.flatMap Attribute.lexemes).foldl leave left) (.closeBrace, []))
        rest := by
  induction attributes generalizing fuel type p left with
  | nil =>
    obtain ⟨fuel, rfl⟩ := Nat.exists_eq_add_one_of_ne_zero (Nat.ne_of_gt hfuel)
    obtain ⟨p', hnext, hsees⟩ := hp.next
    refine ⟨p', ?_, hsees⟩
    simp only [typeBody, hnext, ok_bind]
    rfl
  | cons a attributes ih =>
    obtain ⟨fuel, rfl⟩ := Nat.exists_eq_add_one_of_ne_zero (Nat.ne_of_gt (Nat.zero_lt_of_lt hfuel))
    rw [List.length_cons] at hfuel
    rw [List.flatMap_cons, List.append_assoc] at hp
    rw [List.flatMap_cons, clear_append] at hclear
    cases a with
    | freshness n =>
      obtain ⟨p₁, hnext, hp₁⟩ := hp.next
      obtain ⟨p₂, hnumber, hp₂⟩ := hp₁.expectNumber (hclear.1.2.1 rfl)
      obtain ⟨p', hbody, hsees⟩ := ih (Nat.lt_of_succ_lt_succ hfuel) _ hp₂ hclear.2
      refine ⟨p', ?_, ?_⟩
      · simp only [typeBody, hnext, ok_bind, hnumber]
        exact hbody
      · rw [List.flatMap_cons, List.foldl_append]
        exact hsees
    | summary severity text =>
      obtain ⟨p₁, ⟨hnext, hword⟩, hp₁⟩ := hp.next_closed
      obtain ⟨p₂, hexpect, hp₂⟩ := hp₁.expect_closed
      obtain ⟨p', hbody, hsees⟩ := ih (Nat.lt_of_succ_lt_succ hfuel) _ hp₂ hclear.2
      have hstatus : typeStatus severity.word = some severity.status := by
        cases severity <;> decide
      refine ⟨p', ?_, ?_⟩
      · simp only [typeBody, hnext, ok_bind, hword, hstatus, orBail, hexpect]
        exact hbody
      · rw [List.flatMap_cons, List.foldl_append]
        exact hsees

omit [Double R] [Pcre Re] [HashOrder] in
/-- The type of a state, and the token of its subject. -/
theorem stateType_read {name : Option CString} {subject : Subject}
    (hp : p.Sees left ((name.map (closed .typename)).toList ++ subject.lexeme :: rest)) :
    ∃ p', (m.withParser p).stateType =
        .ok ((name.or m.defaultType).bind m.server.db.types.get?, subject.token, p') ∧
      p'.text = .ok subject.text ∧
      p'.Sees (((name.map (closed .typename)).toList ++ [subject.lexeme]).foldl leave left)
        rest := by
  cases name with
  | none =>
    obtain ⟨p', ⟨hnext, htext⟩, hsees⟩ := hp.next_closed
    refine ⟨p', ?_, htext, hsees⟩
    have hne : subject.token ≠ .typename := by cases subject <;> simp [Subject.token]
    simp only [Conf.stateType, Meaning.withParser, hnext, ok_bind, hne, if_false]
    rfl
  | some name =>
    obtain ⟨p₁, ⟨hnext₁, htext₁⟩, hp₁⟩ := hp.next_closed
    obtain ⟨p', ⟨hnext, htext⟩, hsees⟩ := hp₁.next_closed
    refine ⟨p', ?_, htext, hsees⟩
    simp only [Conf.stateType, Meaning.withParser, hnext₁, ok_bind, if_true, htext₁, hnext]
    rfl

omit [Double R] [Pcre Re] [HashOrder] in
/-- The window of a datapoint, and the token of its subject. -/
theorem seriesWindow_read {span : Span} {subject : Subject}
    (hp : p.Sees left (span.lexemes ++ subject.lexeme :: rest))
    (hclear : Clear left span.lexemes) :
    ∃ p', (m.withParser p).seriesWindow = .ok (span.window m, subject.token, p') ∧
      p'.text = .ok subject.text ∧
      p'.Sees ((span.lexemes ++ [subject.lexeme]).foldl leave left) rest := by
  cases span with
  | named name =>
    obtain ⟨p₁, ⟨hnext₁, htext₁⟩, hp₁⟩ := hp.next_closed
    obtain ⟨p', ⟨hnext, htext⟩, hsees⟩ := hp₁.next_closed
    refine ⟨p', ?_, htext, hsees⟩
    simp only [Conf.seriesWindow, Meaning.withParser, hnext₁, ok_bind, if_true, htext₁, hnext]
    rfl
  | seconds n =>
    obtain ⟨p₁, hnext₁, hp₁⟩ := hp.next
    obtain ⟨p', ⟨hnext, htext⟩, hsees⟩ := hp₁.next_closed
    refine ⟨p', ?_, htext, hsees⟩
    have hvalue := n.atoi_leave (hclear.1 rfl)
    simp only [Conf.seriesWindow, Meaning.withParser, hnext₁, ok_bind, hp₁.text_eq, hnext, hvalue]
    rfl
  | inUse =>
    obtain ⟨p', ⟨hnext, htext⟩, hsees⟩ := hp.next_closed
    refine ⟨p', ?_, htext, hsees⟩
    have hwindow : subject.token ≠ .windowname := by cases subject <;> simp [Subject.token]
    have hnumber : subject.token ≠ .number := by cases subject <;> simp [Subject.token]
    simp only [Conf.seriesWindow, Meaning.withParser, hnext, ok_bind, hwindow, hnumber, if_false]
    rfl

omit [Double R] [Pcre Re] in
theorem type_read {name : CString} {attributes : List Attribute} {fuel : Nat}
    (hfuel : attributes.length < fuel)
    (hp : p.Sees left ((Directive.type name attributes).arguments ++ rest))
    (hclear : Clear left (Directive.type name attributes).arguments) :
    ∃ p', (m.withParser p).type fuel = .ok ((m.setDb fun db =>
        { db with types := hashSet db.types name (typeOf name attributes) }).withParser p') ∧
      p'.Sees ((Directive.type name attributes).arguments.foldl leave left) rest := by
  simp only [Directive.arguments, List.cons_append, List.append_assoc, List.nil_append] at hp
  obtain ⟨p₁, hname, hp₁⟩ := hp.expect_closed
  obtain ⟨_, p₂, hbrace, hp₂⟩ := hp₁.expect_token
  have hattributes := (clear_append.mp hclear.2.2).1
  obtain ⟨p', hbody, hsees⟩ := typeBody_read hfuel
    { name := some name, freshness := 300, status := WARNING, summary := none } hp₂ hattributes
  refine ⟨p', ?_, ?_⟩
  · simp only [Conf.type, Meaning.withParser, hname, ok_bind, hbrace, hbody]
    rfl
  · simpa only [Directive.arguments, List.foldl_cons, List.foldl_append, List.foldl_nil] using hsees

theorem state_read {name : Option CString} {subject : Subject} (clock : Nat → Int32)
    (hp : p.Sees left ((Directive.state name subject).arguments ++ rest)) :
    ∃ p', (m.withParser p).state clock =
        ((Directive.state name subject).apply clock m).map (·.withParser p') ∧
      p'.Sees ((Directive.state name subject).arguments.foldl leave left) rest := by
  rw [Directive.arguments, List.append_assoc] at hp
  obtain ⟨p', htype, htext, hsees⟩ := stateType_read (m := m) hp
  refine ⟨p', ?_, hsees⟩
  simp only [Conf.state, Directive.apply, htype, ok_bind, htext]
  cases (name.or m.defaultType).bind m.server.db.types.get? with
  | none => cases subject <;> rfl
  | some type =>
    cases subject with
    | name text => rfl
    | pattern text =>
      simp only [Subject.token, Subject.text, orBail, ok_bind]
      cases (Pcre.compile text : Except CString Re) <;> rfl

theorem series_read {κ : Kind} {span : Span} {subject : Subject} (clock : Nat → Int32)
    (hp : p.Sees left ((Directive.series κ span subject).arguments ++ rest))
    (hclear : Clear left (Directive.series κ span subject).arguments) :
    ∃ p', (m.withParser p).series κ.series κ.addRule =
        ((Directive.series κ span subject).apply clock m).map (·.withParser p') ∧
      p'.Sees ((Directive.series κ span subject).arguments.foldl leave left) rest := by
  rw [Directive.arguments, List.append_assoc] at hp
  rw [Directive.arguments, clear_append] at hclear
  obtain ⟨p', hwindow, htext, hsees⟩ := seriesWindow_read (m := m) hp hclear.1
  refine ⟨p', ?_, hsees⟩
  simp only [Conf.series, Directive.apply, hwindow, ok_bind, htext]
  cases span.window m with
  | none => cases subject <;> rfl
  | some window =>
    cases subject with
    | name text => rfl
    | pattern text =>
      simp only [Subject.token, Subject.text, orBail, ok_bind]
      cases (Pcre.compile text : Except CString Re) <;> rfl

/-- How often the loops of a directive go round. -/
def Directive.size : Directive → Nat
  | .type _ attributes => attributes.length + 1
  | _ => 0

/-- A directive, from behind its keyword. -/
theorem directive_read (d : Directive) (clock : Nat → Int32) {fuel : Nat} (hfuel : d.size ≤ fuel)
    (hp : p.Sees left (d.arguments ++ rest)) (hclear : Clear left d.arguments) :
    ∃ p', (m.withParser p).directive clock fuel (.keyword d.keyword) =
        (d.apply clock m).map (·.withParser p') ∧
      p'.Sees (d.arguments.foldl leave left) rest := by
  cases d with
  | setting key text =>
    have hread := serverString_read (m := m) hp fun c text => key.set text c
    cases key <;> exact hread
  | number key n =>
    have hread := serverNumber_read (m := m) hp (hclear.1 rfl) fun n s => key.set n s
    cases key <;> exact hread
  | gracePeriod n =>
    obtain ⟨p', hnext, hsees⟩ := hp.next
    refine ⟨p', ?_, hsees⟩
    have hvalue := n.atoi_leave (hclear.1 rfl)
    simp only [Conf.directive, Directive.keyword, Conf.gracePeriod, Meaning.withParser, hnext,
      ok_bind, hsees.text_eq, hvalue]
    rfl
  | maxEvents n =>
    obtain ⟨p', hnext, hsees⟩ := hp.next
    refine ⟨p', ?_, hsees⟩
    have hvalue := n.atoi_leave (hclear.1 rfl)
    simp only [Conf.directive, Directive.keyword, Conf.maxEvents, Meaning.withParser, hnext,
      ok_bind, hsees.text_eq, hvalue]
    rfl
  | maxAge seconds =>
    obtain ⟨p', ⟨hnext, htext⟩, hsees⟩ := hp.next_closed
    refine ⟨p', ?_, hsees⟩
    simp only [Conf.directive, Directive.keyword, Conf.maxEvents, Meaning.withParser, hnext,
      ok_bind, htext, atoi_decimalInt]
    rfl
  | log level facility =>
    obtain ⟨p₁, hlevel, hp₁⟩ :=
      serverString_read (m := m) hp fun c text => { c with logLevel := text }
    obtain ⟨p', hfacility, hsees⟩ :=
      serverString_read hp₁ fun c text => { c with logFacility := text }
    refine ⟨p', ?_, hsees⟩
    simp only [Conf.directive, Directive.keyword, Conf.log, hlevel, ok_bind]
    exact hfacility
  | dumpfiles => exact ⟨p, rfl, hp⟩
  | useType name | useWindow name =>
    obtain ⟨p', ⟨hnext, htext⟩, hsees⟩ := hp.next_closed
    refine ⟨p', ?_, hsees⟩
    simp only [Conf.directive, Directive.keyword, Conf.use, Meaning.withParser, hnext, ok_bind,
      htext]
    rfl
  | window name n =>
    obtain ⟨p₁, hname, hp₁⟩ := hp.expect_closed
    obtain ⟨p', hnumber, hsees⟩ := hp₁.expectNumber (hclear.2.1 rfl)
    refine ⟨p', ?_, hsees⟩
    simp only [Conf.directive, Directive.keyword, Conf.window, Meaning.withParser, hname, ok_bind,
      hnumber]
    rfl
  | type name attributes => exact type_read (Nat.lt_of_succ_le hfuel) hp hclear
  | state name subject => exact state_read clock hp
  | series κ span subject =>
    have hread := series_read (m := m) clock hp hclear
    cases κ <;> exact hread

/-- The loop of `configure` over the tokens of directives. -/
theorem directives_read (clock : Nat → Int32) (ds : List Directive) {fuel : Nat}
    (hfuel : (ds.map fun d => d.size + 1).sum < fuel)
    (hp : p.Sees left (ds.flatMap Directive.lexemes))
    (hclear : Clear left (ds.flatMap Directive.lexemes)) :
    ∃ p', directives clock fuel (m.withParser p) = (apply clock m ds).map (·.withParser p') := by
  induction ds generalizing fuel m p left with
  | nil =>
    obtain ⟨fuel, rfl⟩ := Nat.exists_eq_add_one_of_ne_zero (Nat.ne_of_gt hfuel)
    obtain ⟨p', hlex, heof⟩ := hp.lex_nil
    refine ⟨p', ?_⟩
    have hlex' : lex (m.withParser p).parser = .ok (none, p') := hlex
    simp only [directives, hlex', orFault, ok_bind, heof, if_true]
    rfl
  | cons d ds ih =>
    obtain ⟨fuel, rfl⟩ :=
      Nat.exists_eq_add_one_of_ne_zero (Nat.ne_of_gt (Nat.zero_lt_of_lt hfuel))
    rw [List.map_cons, List.sum_cons] at hfuel
    rw [List.flatMap_cons, Directive.lexemes, List.cons_append] at hp
    rw [List.flatMap_cons, Directive.lexemes, List.cons_append] at hclear
    obtain ⟨hhead, hrest⟩ := clear_append.mp hclear.2
    obtain ⟨p₁, hlex, hp₁⟩ := hp.lex_cons
    have hsize : d.size ≤ fuel := by omega
    obtain ⟨p₂, hread, hp₂⟩ := directive_read (m := m) d clock hsize hp₁ hhead
    have hlex' : lex (m.withParser p).parser = .ok (some (.keyword d.keyword), p₁) := hlex
    have hstep : ({ m.withParser p with parser := p₁ } : Conf R Re) = m.withParser p₁ := rfl
    simp only [directives, hlex', orFault, ok_bind, hstep, hread, apply, List.foldlM_cons]
    cases happly : d.apply clock m with
    | error e => exact ⟨p, rfl⟩
    | ok m₁ => exact ih (by omega) hp₂ hrest

end Reading

/-- A file that is nothing but the lines of some tokens. -/
structure Written (file : List UInt8) (xs : List Lexeme) : Prop where
  ended : Library.rest NEWLINE file = []
  lines : ∃ zs, List.Forall₂ Spells (pieces NEWLINE file) zs ∧ xs = zs.flatten

omit [Double R] [Pcre Re] [HashOrder] in
/-- The tokens of a file can be computed. -/
theorem Written.of_lexemes {file : List UInt8} {xs : List Lexeme}
    (hended : Library.rest NEWLINE file = [])
    (h : ((pieces NEWLINE file).mapM lineLexemes).map List.flatten = some xs) :
    Written file xs := by
  obtain ⟨zs, hzs, rfl⟩ := Option.map_eq_some_iff.mp h
  refine ⟨hended, zs, ?_, rfl⟩
  generalize pieces NEWLINE file = lines at hzs
  clear h
  induction lines generalizing zs with
  | nil =>
    obtain rfl : [] = zs := Option.some.inj hzs
    exact .nil
  | cons l lines ih =>
    simp only [List.mapM_cons, Option.bind_eq_bind, Option.bind_eq_some_iff, Option.pure_def,
      Option.some.injEq] at hzs
    obtain ⟨xs, hxs, ys, hys, rfl⟩ := hzs
    exact .cons (spells_of_lineLexemes hxs) (ih ys hys)

omit [Double R] [Pcre Re] [HashOrder] in
theorem Written.sees {file : List UInt8} {xs : List Lexeme} (h : Written file xs) :
    (Parser.open file).Sees [] xs := by
  obtain ⟨hended, zs, hspells, rfl⟩ := h
  have hshort : ShortLines file := by
    refine shortLines_iff.mpr ⟨?_, by simp [hended]⟩
    generalize pieces NEWLINE file = lines at hspells
    induction hspells with
    | nil => simp
    | cons hl _ ih => exact List.forall_mem_cons.mpr ⟨hl.clean.short, ih⟩
  refine ⟨rfl, by decide, rfl, [], [], pieces NEWLINE file, zs, ⟨by simp, ?_⟩, by decide,
    .idle (.inl rfl), fgetsLines_ended hshort hended, hspells, rfl⟩
  exact ⟨List.replicate 8191 0, rfl⟩

/-- Where `configure` starts. -/
def Meaning.start (s : Server R Re) : Meaning R Re :=
  { server := { s with db := { Db.empty R Re with eventsCount := s.db.eventsCount } }
    defaultType := none, defaultWin := none, readings := 0 }

/-- A file that spells directives, in any layout and with comments on lines of their own or behind
the tokens of a line, is read as what they mean: `configure` makes the changes of the directives in
order, and bails out exactly if one of them cannot be made. The one condition is that no number is
read together with digits that an earlier token has left. -/
theorem configure_means (clock : Nat → Int32) (s : Server R Re) {file : List UInt8}
    {ds : List Directive} (hfile : Written file (ds.flatMap Directive.lexemes))
    (hclear : Clear [] (ds.flatMap Directive.lexemes)) {fuel : Nat}
    (hfuel : (ds.map fun d => d.size + 1).sum < fuel) :
    configure clock fuel s file = (apply clock (.start s) ds).map Meaning.server := by
  obtain ⟨p', hread⟩ := directives_read (m := .start s) clock ds hfuel hfile.sees hclear
  have hstart : configure clock fuel s file =
      (directives clock fuel ((Meaning.start s).withParser (.open file))).map Conf.server := rfl
  rw [hstart, hread]
  cases apply clock (.start s) ds <;> rfl

end Apply

section Hosts

open Reference

def sixty : Digits := ⟨CString.ascii "60", by decide, List.all_eq_true.mp (by decide)⟩

/-- What the configuration of `hosts` says. -/
def hostsDirectives : List Directive :=
  [.type (.lit ":ping") [.freshness sixty, .summary .critical (.lit "gone")],
   .state (some (.lit ":ping")) (.name (.lit "web")),
   .state (some (.lit ":ping")) (.pattern (.lit "db"))]

theorem configure_means_hosts : ∃ m, apply epoch (.start (defaults Int CString)) hostsDirectives =
    .ok m ∧ configure epoch 16 (defaults Int CString) (CString.ascii hostsFile) = .ok m.server := by
  obtain ⟨m, hm⟩ := exists_ok (x := apply epoch (.start (defaults Int CString)) hostsDirectives)
    (by decide +kernel)
  have hwritten : Written (CString.ascii hostsFile)
      (hostsDirectives.flatMap Directive.lexemes) :=
    .of_lexemes (by decide +kernel) (by decide +kernel)
  refine ⟨m, hm, ?_⟩
  rw [configure_means epoch _ hwritten (by decide +kernel) (by decide +kernel), hm]
  rfl

end Hosts

end Bolo
