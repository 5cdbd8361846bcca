import Bolo.Config.Loaded
import Bolo.Config.Reference
import Bolo.Savefile.Invariant

/-!
# Division by the length of a window

Nothing checks the number that a window is declared with: `window @w 0` and `counter 0 x` are
read, and so is a number that `atoi` makes negative. The kernel divides by it when a second
submission comes. A window enters the database through the declarations of counters, sample
sets and rates, in place, by name or by default. `declarations` lists what a file declares, so
that the windows of a configured kernel can be told from its file.
-/
namespace Bolo

open Library

variable {R Re : Type}

/-! ## What a file declares -/

/-- A declared counter, sample set or rate, or a rule for them, which has no name. -/
structure Declaration where
  kind : Kind
  name : Option CString
  window : Window
  deriving DecidableEq

/-- A name that is declared again loses what it was declared with; rules add up. -/
def Declaration.replaces (e d : Declaration) : Bool :=
  e.name.isSome && e.kind = d.kind && e.name = d.name

/-- The declarations that are still in force after all of them. -/
def inForce (ds : List Declaration) : List Declaration :=
  ds.foldl (fun st e => st.filter (fun d => !e.replaces d) ++ [e]) []

theorem mem_inForce_append {ds : List Declaration} {d e : Declaration} :
    d ∈ inForce (ds ++ [e]) ↔ (d ∈ inForce ds ∧ e.replaces d = false) ∨ d = e := by
  simp [inForce]

namespace Conf

/-- What the tokens after `counter`, `sample` or `rate` declare. -/
def declaration (c : Conf R Re) (κ : Kind) : Option Declaration :=
  match c.seriesWindow with
  | .ok (some window, .string, p) =>
    match p.text with
    | .ok name => some { kind := κ, name := some name, window := window }
    | .error _ => none
  | .ok (some window, .match, _) => some { kind := κ, name := none, window := window }
  | _ => none

def declared (c : Conf R Re) : Token → Option Declaration
  | .keyword .counter => c.declaration .counter
  | .keyword .sample => c.declaration .sample
  | .keyword .rate => c.declaration .rate
  | _ => none

end Conf

/-- The declarations read by `directives`, in order. -/
def declarations [Double R] [Pcre Re] [HashOrder] (clock : Nat → Int32) :
    Nat → Conf R Re → List Declaration
  | 0, _ => []
  | fuel + 1, c =>
    match lex c.parser with
    | .ok (some token, p) =>
      ({ c with parser := p }.declared token).toList ++
        match { c with parser := p }.directive clock fuel token with
        | .ok c' => declarations clock fuel c'
        | .error _ => []
    | _ => []

/-! ## What a database has windows from -/

section

variable [Double R]

/-- The windows of the database are those of the declarations in force. -/
structure Records (db : Db R Re) (ds : List Declaration) : Prop where
  series : ∀ (κ : Kind) name w, { kind := κ, name := some name, window := w } ∈ inForce ds ↔
    ∃ x, (κ.series.table db).get? name = some x ∧
      (κ.series : Series R Re _ _).window x = some w
  rules : ∀ (κ : Kind) w, { kind := κ, name := none, window := w } ∈ inForce ds ↔
    ∃ r ∈ κ.series.rules db, r.target = some w

namespace Records

variable {db db' : Db R Re} {ds : List Declaration}

theorem empty : Records (Db.empty R Re) [] where
  series κ name w := by cases κ <;> simp [inForce, Db.empty, Kind.series, counterSeries,
    sampleSeries, rateSeries]
  rules κ w := by cases κ <;> simp [inForce, Db.empty, Kind.series, counterSeries, sampleSeries,
    rateSeries]

theorem of_eq (h : Records db ds)
    (htable : ∀ κ : Kind, κ.series.table db' = κ.series.table db)
    (hrules : ∀ κ : Kind, κ.series.rules db' = κ.series.rules db) : Records db' ds where
  series κ name w := by rw [htable]; exact h.series κ name w
  rules κ w := by rw [hrules]; exact h.rules κ w

theorem declare [HashOrder] (h : Records db ds) (κ : Kind) (name : CString) (w : Window) :
    Records (κ.series.setTable db
      (hashSet (κ.series.table db) name ((κ.series : Series R Re _ _).blank name (some w))))
      (ds ++ [{ kind := κ, name := some name, window := w }]) where
  series κ' name' w' := by
    rw [mem_inForce_append, h.series]
    by_cases hκ : κ' = κ
    · subst hκ
      by_cases hname : name' = name
      · subst hname
        simp [Declaration.replaces, eq_comm]
      · simp [Declaration.replaces, hname, Ne.symm hname]
    · rw [Kind.table_setTable_ne hκ]
      simp [Declaration.replaces, hκ, Ne.symm hκ]
  rules κ' w' := by
    rw [mem_inForce_append, h.rules, Kind.rules_setTable_ne]
    simp [Declaration.replaces]

theorem addRule (h : Records db ds) (κ : Kind) (re : Re) (w : Window) :
    Records (κ.addRule { target := some w, re := re } db)
      (ds ++ [{ kind := κ, name := none, window := w }]) where
  series κ' name' w' := by
    have htable : κ'.series.table (κ.addRule { target := some w, re := re } db) =
        κ'.series.table db := by cases κ <;> cases κ' <;> rfl
    rw [mem_inForce_append, h.series, htable]
    simp [Declaration.replaces]
  rules κ' w' := by
    rw [mem_inForce_append, h.rules]
    by_cases hκ : κ' = κ
    · subst hκ
      have hrules : κ'.series.rules (κ'.addRule { target := some w, re := re } db) =
          κ'.series.rules db ++ [{ target := some w, re := re }] := by cases κ' <;> rfl
      rw [hrules]
      simp [Declaration.replaces, or_and_right, exists_or, eq_comm]
    · have hrules : κ'.series.rules (κ.addRule { target := some w, re := re } db) =
          κ'.series.rules db := by cases κ <;> cases κ' <;> first | rfl | exact absurd rfl hκ
      rw [hrules]
      simp [Declaration.replaces, hκ]

end Records

namespace Conf

variable {clock : Nat → Int32} {c c' : Conf R Re} {ds : List Declaration} [HashOrder]

omit [Double R] in
theorem window_db (h : c.window = .ok c') :
    ∃ windows, c'.server.db = { c.server.db with windows := windows } := by
  simp only [window, bind_eq_ok, pure_eq_ok] at h
  obtain ⟨_, -, _, -, rfl⟩ := h
  exact ⟨_, rfl⟩

omit [Double R] in
theorem type_db {fuel : Nat} (h : c.type fuel = .ok c') :
    ∃ types, c'.server.db = { c.server.db with types := types } := by
  simp only [type, bind_eq_ok, pure_eq_ok] at h
  obtain ⟨_, -, _, -, _, -, rfl⟩ := h
  exact ⟨_, rfl⟩

variable [Pcre Re]

omit [Double R] in
theorem state_db (h : c.state clock = .ok c') :
    ∃ states rules, c'.server.db =
      { c.server.db with states := states, stateMatches := rules } := by
  simp only [state, bind_eq_ok] at h
  obtain ⟨⟨type, token, p⟩, -, h⟩ := h
  split at h
  · simp only [bind_eq_ok, pure_eq_ok] at h
    obtain ⟨_, -, _, -, rfl⟩ := h
    exact ⟨_, _, rfl⟩
  · simp only [bind_eq_ok] at h
    obtain ⟨_, -, _, -, h⟩ := h
    split at h
    · simp at h
    · simp only [pure_eq_ok] at h
      exact h ▸ ⟨_, _, rfl⟩
  · simp at h

theorem series_records (hc : Records c.server.db ds) (κ : Kind)
    (h : c.series κ.series κ.addRule = .ok c') :
    Records c'.server.db (ds ++ (c.declaration κ).toList) := by
  simp only [series, bind_eq_ok] at h
  obtain ⟨⟨w, token, p⟩, hwindow, h⟩ := h
  by_cases hstring : token = .string
  · subst hstring
    simp only [bind_eq_ok, pure_eq_ok, orBail_eq_ok] at h
    obtain ⟨w, rfl, name, hname, rfl⟩ := h
    simp only [declaration, hwindow, hname]
    exact hc.declare κ name w
  by_cases hmatch : token = .match
  · subst hmatch
    simp only [bind_eq_ok, orBail_eq_ok] at h
    obtain ⟨w, rfl, text, -, h⟩ := h
    simp only [declaration, hwindow]
    split at h
    · simp at h
    · simp only [pure_eq_ok] at h
      exact h ▸ hc.addRule κ _ w
  · split at h <;> simp_all

theorem directive_records {fuel : Nat} {token : Token} (hc : Records c.server.db ds)
    (h : c.directive clock fuel token = .ok c') :
    Records c'.server.db (ds ++ (c.declared token).toList) := by
  have same (hdb : c'.server.db = c.server.db) : Records c'.server.db (ds ++ []) := by
    simpa [hdb] using hc
  unfold directive at h
  split at h
  iterate 9 exact same (serverString_db h)
  · exact same (Except.ok.inj h ▸ rfl)
  · exact same (gracePeriod_db h)
  · exact same (maxEvents_db h)
  iterate 4
    · refine same (serverNumber_db ?_ h)
      exact fun _ _ => rfl
  · exact same (log_db h)
  · exact same (use_db h)
  · obtain ⟨_, hdb⟩ := window_db h
    rw [hdb]
    simpa [declared] using hc.of_eq (by intro κ; cases κ <;> rfl) (by intro κ; cases κ <;> rfl)
  · obtain ⟨_, hdb⟩ := type_db h
    rw [hdb]
    simpa [declared] using hc.of_eq (by intro κ; cases κ <;> rfl) (by intro κ; cases κ <;> rfl)
  · obtain ⟨_, _, hdb⟩ := state_db h
    rw [hdb]
    simpa [declared] using hc.of_eq (by intro κ; cases κ <;> rfl) (by intro κ; cases κ <;> rfl)
  · exact series_records hc .counter h
  · exact series_records hc .sample h
  · exact series_records hc .rate h
  · simp at h

end Conf

section Runs

variable [Pcre Re] [HashOrder] {clock : Nat → Int32} {fuel : Nat}

theorem directives_records {c c' : Conf R Re} {ds : List Declaration}
    (hc : Records c.server.db ds) (h : directives clock fuel c = .ok c') :
    Records c'.server.db (ds ++ declarations clock fuel c) := by
  induction fuel generalizing c ds with
  | zero => simp [directives] at h
  | succ fuel ih =>
    simp only [directives, bind_eq_ok, orFault_eq_ok] at h
    obtain ⟨⟨token, p⟩, hlex, h⟩ := h
    split at h
    · case h_1 heq =>
        obtain ⟨rfl, rfl⟩ : token = none ∧ p = _ := by simpa using heq
        split at h
        · simp only [pure_eq_ok] at h
          simpa [declarations, hlex, ← h] using hc
        · simp at h
    · case h_2 token' p' heq =>
        obtain ⟨rfl, rfl⟩ : token = some token' ∧ p = p' := by simpa using heq
        simp only [bind_eq_ok] at h
        obtain ⟨c₁, hd, h⟩ := h
        have hc₁ := Conf.directive_records (c := { c with parser := p }) hc hd
        simpa [declarations, hlex, hd] using ih hc₁ h

/-! ## The length of a window -/

/-- Every window that a datapoint or a rule refers to has a positive length. -/
structure Db.Positive (db : Db R Re) : Prop where
  series : ∀ κ : Kind, (κ.series.table db).All fun _ x =>
    ∀ w, (κ.series : Series R Re _ _).window x = some w → 0 < w.time.toInt
  rules : ∀ κ : Kind, ∀ r ∈ κ.series.rules db, ∀ w, r.target = some w → 0 < w.time.toInt

omit [Pcre Re] [HashOrder] in
theorem Records.positive_iff {db : Db R Re} {ds : List Declaration} (h : Records db ds) :
    db.Positive ↔ ∀ d ∈ inForce ds, 0 < d.window.time.toInt := by
  constructor
  · rintro hpos ⟨κ, name, w⟩ hd
    cases name with
    | some name =>
      obtain ⟨x, hx, hw⟩ := (h.series κ name w).mp hd
      exact hpos.series κ name x hx w hw
    | none =>
      obtain ⟨r, hr, hw⟩ := (h.rules κ w).mp hd
      exact hpos.rules κ r hr w hw
  · intro hpos
    refine ⟨fun κ name x hx w hw => ?_, fun κ r hr w hw => ?_⟩
    · exact hpos _ ((h.series κ name w).mpr ⟨x, hx, hw⟩)
    · exact hpos _ ((h.rules κ w).mpr ⟨r, hr, hw⟩)

/-- The windows of an accepted file are positive, and no run of the kernel it configures divides
by zero, exactly if all the declarations in force have been given a positive number. -/
theorem windows_divide_iff {file : List UInt8} {s : Server R Re}
    (h : configure clock fuel (defaults R Re) file = .ok s) :
    (s.db.Positive ∧
        ∀ as : List Activity, Machine.run activity (boot s) as ≠ .error .divByZero) ↔
      ∀ d ∈ inForce (declarations clock fuel (Conf.start (defaults R Re) file)),
        0 < d.window.time.toInt := by
  have hloaded : Loaded clock s.db := Configured.loaded ⟨fuel, h⟩
  have hrecords : Records s.db
      (declarations clock fuel (Conf.start (defaults R Re) file)) := by
    simp only [configure, bind_eq_ok, pure_eq_ok] at h
    obtain ⟨c, hc, rfl⟩ := h
    exact directives_records Records.empty hc
  rw [← hrecords.positive_iff]
  refine ⟨And.left, fun hpos => ⟨hpos, fun as => ?_⟩⟩
  have hsafe : (boot s).db.Safe .divByZero :=
    hloaded.wf.safe (fun κ name x hx w hw _ => hpos.series κ name x hx w hw)
      fun κ r hr w hw _ => hpos.rules κ r hr w hw
  exact (activities_meets (by decide) hsafe as).ne_bad

end Runs

end

section Minutes

open Reference

theorem windows_divide_minutes : minutes.db.Positive ∧
    ∀ as : List Activity, Machine.run activity (boot minutes) as ≠ .error .divByZero := by
  exact (windows_divide_iff load_minutesFile).mpr (by decide +kernel)

/-- A counter with a window of no length. -/
def zeroHits : Server Int CString :=
  { defaults Int CString with
    db := { Db.empty Int CString with
      counters := hashSet .empty (.lit "hits")
        (.blank (.lit "hits") (some { name := none, time := 0 })) } }

/-- The file is accepted, and the second submission to the counter divides by zero. -/
theorem zeroHits_divides :
    configure epoch 64 (defaults Int CString) (CString.ascii "counter 0 hits\n") = .ok zeroHits ∧
      ¬zeroHits.db.Positive ∧
      Machine.run activity (boot zeroHits)
        [.message (.listener 60 (pdu .counter ["60", "hits", "1"])),
         .message (.listener 61 (pdu .counter ["61", "hits", "1"]))] = .error .divByZero := by
  refine ⟨by decide +kernel, fun hpos => ?_, rfl⟩
  have hlength := hpos.series .counter (.lit "hits") _ rfl { name := none, time := 0 } rfl
  simp at hlength

end Minutes

end Bolo
