import Bolo.Library.CString
import Bolo.Library.Lines

/-!
# Points of a time series, one to a line

The line protocol of time series databases, as far as it needs no escapes: measurement and
tags, the fields, and the time, each after a single space. A point whose texts are free of
the characters that separate is read back from its line.
-/
namespace Library.LineProtocol

abbrev Text := List UInt8

structure Point where
  measurement : Text
  tags : List (Text × Text)
  fields : List (Text × Text)
  time : Text
  deriving DecidableEq

/-- The characters that separate, and those that change how they are read. -/
def specials : List UInt8 := [COMMA, EQUALS, SPACE, NEWLINE, 34, 92]

/-- A text that can stand anywhere in a line. -/
def Bare (t : Text) : Prop := t ≠ [] ∧ ∀ b ∈ t, b ∉ specials

instance (t : Text) : Decidable (Bare t) := @instDecidableAnd _ _ _ (List.decidableBAll _ _)

def BarePair (e : Text × Text) : Prop := Bare e.1 ∧ Bare e.2

structure Point.Bare (p : Point) : Prop where
  measurement : LineProtocol.Bare p.measurement
  tags : ∀ e ∈ p.tags, BarePair e
  fields : ∀ e ∈ p.fields, BarePair e
  some_field : p.fields ≠ []
  time : LineProtocol.Bare p.time

/-! ## Writing and reading -/

def assign (e : Text × Text) : Text := [EQUALS].intercalate [e.1, e.2]

def list (es : List Text) : Text := [COMMA].intercalate es

/-- What stands between the spaces of a line. -/
def Point.parts (p : Point) : List Text :=
  [list (p.measurement :: p.tags.map assign), list (p.fields.map assign), p.time]

def Point.line (p : Point) : Text := [SPACE].intercalate p.parts ++ [NEWLINE]

def readAssign (t : Text) : Option (Text × Text) :=
  match t.splitOn EQUALS with
  | [k, v] => if k = [] ∨ v = [] then none else some (k, v)
  | _ => none

def readLine (t : Text) : Option Point :=
  match t.splitOn SPACE with
  | [series, fields, time] =>
    match series.splitOn COMMA with
    | measurement :: tags => do
      let tags ← tags.mapM readAssign
      let fields ← (fields.splitOn COMMA).mapM readAssign
      if measurement = [] ∨ time = [] then none
      else some { measurement := measurement, tags := tags, fields := fields, time := time }
    | [] => none
  | _ => none

/-- A datagram with one point. -/
def read (t : Text) : Option Point :=
  match t.splitOn NEWLINE with
  | [line, []] => readLine line
  | _ => none

/-! ## Round trip -/

theorem Bare.notMem {t : Text} (h : Bare t) {b : UInt8} (hb : b ∈ specials) : b ∉ t :=
  fun hmem => h.2 b hmem hb

theorem notMem_intercalate {sep b : UInt8} {es : List Text} (h : ∀ t ∈ es, b ∉ t)
    (hne : b ≠ sep) : b ∉ [sep].intercalate es := by
  rw [intercalate_eq]
  intro hb
  obtain ⟨t, ht, hbt⟩ := List.mem_flatMap.mp (List.dropLast_subset _ hb)
  rcases List.mem_append.mp hbt with hbt | hbt
  · exact h t ht hbt
  · exact hne (List.mem_singleton.mp hbt)

theorem notMem_assign {e : Text × Text} (h : BarePair e) {b : UInt8} (hb : b ∈ specials)
    (hne : b ≠ EQUALS) : b ∉ assign e := by
  refine notMem_intercalate (fun t ht => ?_) hne
  rcases (by simpa using ht : t = e.1 ∨ t = e.2) with rfl | rfl
  exacts [h.1.notMem hb, h.2.notMem hb]

theorem readAssign_assign {e : Text × Text} (h : BarePair e) : readAssign (assign e) = some e := by
  have hmem : EQUALS ∈ specials := by decide
  have hsplit : (assign e).splitOn EQUALS = [e.1, e.2] := by
    refine List.splitOn_intercalate _ (fun t ht => ?_) (by simp)
    rcases (by simpa using ht : t = e.1 ∨ t = e.2) with rfl | rfl
    exacts [h.1.notMem hmem, h.2.notMem hmem]
  simp only [readAssign, hsplit, h.1.1, h.2.1, or_self, if_false]

theorem mapM_readAssign {es : List (Text × Text)} (h : ∀ e ∈ es, BarePair e) :
    (es.map assign).mapM readAssign = some es := by
  induction es with
  | nil => rfl
  | cons e es ih =>
    rw [List.map_cons, List.mapM_cons, readAssign_assign (h e List.mem_cons_self),
      ih fun e' he' => h e' (List.mem_cons_of_mem _ he')]
    rfl

theorem splitOn_list {es : List Text} (h : ∀ t ∈ es, COMMA ∉ t) (hne : es ≠ []) :
    (list es).splitOn COMMA = es :=
  List.splitOn_intercalate _ h hne

theorem read_line {p : Point} (h : p.Bare) : read p.line = some p := by
  have hseries {b : UInt8} (hb : b ∈ specials) (hne : b ≠ EQUALS) :
      ∀ t ∈ p.measurement :: p.tags.map assign, b ∉ t := by
    intro t ht
    rcases List.mem_cons.mp ht with rfl | ht
    · exact h.measurement.notMem hb
    · obtain ⟨e, he, rfl⟩ := List.mem_map.mp ht
      exact notMem_assign (h.tags e he) hb hne
  have hfields {b : UInt8} (hb : b ∈ specials) (hne : b ≠ EQUALS) :
      ∀ t ∈ p.fields.map assign, b ∉ t := by
    intro t ht
    obtain ⟨e, he, rfl⟩ := List.mem_map.mp ht
    exact notMem_assign (h.fields e he) hb hne
  have hparts {b : UInt8} (hb : b ∈ specials) (hne : b ≠ EQUALS) (hcomma : b ≠ COMMA) :
      ∀ t ∈ p.parts, b ∉ t := by
    intro t ht
    rcases (by simpa [Point.parts] using ht : t = _ ∨ t = _ ∨ t = _) with rfl | rfl | rfl
    · exact notMem_intercalate (hseries hb hne) hcomma
    · exact notMem_intercalate (hfields hb hne) hcomma
    · exact h.time.notMem hb
  -- from the outside in: the newline, the spaces, the commas and the equals signs
  have hnewline : NEWLINE ∉ [SPACE].intercalate p.parts :=
    notMem_intercalate (hparts (by decide) (by decide) (by decide)) (by decide)
  have hline : p.line.splitOn NEWLINE = [[SPACE].intercalate p.parts, []] := by
    rw [Point.line, splitOn_append_cons hnewline]
    rfl
  have hspace : ([SPACE].intercalate p.parts).splitOn SPACE = p.parts :=
    List.splitOn_intercalate _ (hparts (by decide) (by decide) (by decide)) (by simp [Point.parts])
  have htags := splitOn_list (hseries (b := COMMA) (by decide) (by decide)) (by simp)
  have hlist := splitOn_list (hfields (b := COMMA) (by decide) (by decide))
    (by simpa using h.some_field)
  simp only [read, hline, readLine, hspace]
  simp only [Point.parts, htags, hlist, mapM_readAssign h.tags, mapM_readAssign h.fields,
    h.measurement.1, h.time.1, or_self, if_false, Option.bind_eq_bind, Option.bind_some]

end Library.LineProtocol
