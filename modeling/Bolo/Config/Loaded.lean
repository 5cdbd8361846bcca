import Bolo.Config.Configure
import Bolo.Kernel.Reports

/-!
# What a configuration sets up

Whatever the file says, a configuration that is read to its end leaves only records that
nothing has been submitted to yet, each with a complete type or a window, under its own
name. The lexer plays no part in this, except that a name has to fit in its buffer: it
holds for every sequence of tokens.
-/
namespace Bolo

open Library

variable {R Re : Type} [Double R]

/-- A database after any number of directives. -/
structure Loaded (clock : Nat → Int32) (db : Db R Re) : Prop where
  types : db.types.All fun _ t => t.Wf
  states : db.states.All fun name s => name.length < LINE_BUF_SIZE ∧
    ∃ n type, type.Wf ∧ s = State.blank (clock n) name type
  stateMatches : ∀ r ∈ db.stateMatches, ∃ t, r.target = some t ∧ t.Wf
  series : ∀ κ : Kind, (κ.series.table db).All fun name x => name.length < LINE_BUF_SIZE ∧
    ∃ w, x = (κ.series : Series R Re _ _).blank name (some w)
  rules : ∀ κ : Kind, ∀ r ∈ κ.series.rules db, ∃ w, r.target = some w
  events : db.events = []
  eventsCount : db.eventsCount = 0

namespace Loaded

variable {clock : Nat → Int32} {db : Db R Re}

theorem empty : Loaded clock (Db.empty R Re) where
  types := .empty
  states := .empty
  stateMatches := by simp [Db.empty]
  series κ := by cases κ <;> exact .empty
  rules κ := by cases κ <;> simp [Db.empty, Kind.series, counterSeries, sampleSeries, rateSeries]
  events := rfl
  eventsCount := rfl

theorem series_wf (h : Loaded clock db) (κ : Kind) :
    (κ.series.table db).All (κ.series : Series R Re _ _).Wf := by
  intro name x hx
  obtain ⟨-, w, rfl⟩ := h.series κ name x hx
  exact ⟨⟨w, by simp⟩, by simp⟩

theorem wf (h : Loaded clock db) : db.Wf where
  states name s hs := by
    obtain ⟨-, n, type, htype, rfl⟩ := h.states name s hs
    exact ⟨⟨type, rfl, htype⟩, rfl, ⟨_, rfl⟩⟩
  counters := h.series_wf .counter
  samples := h.series_wf .sample
  rates := h.series_wf .rate
  events := by simp [h.events]
  stateMatches := h.stateMatches
  counterMatches := h.rules .counter
  sampleMatches := h.rules .sample
  rateMatches := h.rules .rate

theorem fresh (h : Loaded clock db) : db.Fresh where
  wf := h.wf
  series κ name x hx := by
    obtain ⟨-, w, rfl⟩ := h.series κ name x hx
    simp
  states name s hs := by
    obtain ⟨-, n, type, -, rfl⟩ := h.states name s hs
    exact ⟨clock n, type, rfl⟩
  events := h.events
  eventsCount := h.eventsCount

/-- Nothing but the windowed datapoints and their rules bears on these. -/
theorem update (h : Loaded clock db) {types : Table CString TypeDef} {states : Table CString State}
    {stateMatches : List (Rule TypeDef Re)} {windows : Table CString Window}
    (htypes : types.All fun _ t => t.Wf)
    (hstates : states.All fun name s => name.length < LINE_BUF_SIZE ∧
      ∃ n type, type.Wf ∧ s = State.blank (clock n) name type)
    (hmatches : ∀ r ∈ stateMatches, ∃ t, r.target = some t ∧ t.Wf) :
    Loaded clock { db with
      types := types, states := states, stateMatches := stateMatches, windows := windows } where
  types := htypes
  states := hstates
  stateMatches := hmatches
  series κ := by cases κ <;> exact h.series _
  rules κ := by
    have hrules := h.rules κ
    cases κ <;> exact hrules
  events := h.events
  eventsCount := h.eventsCount

variable [HashOrder]

theorem setType (h : Loaded clock db) {name : CString} {type : TypeDef} (htype : type.Wf) :
    Loaded clock { db with types := hashSet db.types name type } :=
  h.update (All.hashSet h.types htype) h.states h.stateMatches

theorem setState (h : Loaded clock db) (n : Nat) {name : CString} {type : TypeDef}
    (hname : name.length < LINE_BUF_SIZE) (htype : type.Wf) :
    Loaded clock { db with states := hashSet db.states name (State.blank (clock n) name type) } :=
  h.update h.types (All.hashSet h.states ⟨hname, n, type, htype, rfl⟩) h.stateMatches

omit [HashOrder] in
theorem addStateRule (h : Loaded clock db) {type : TypeDef} (htype : type.Wf) (re : Re) :
    Loaded clock { db with stateMatches := db.stateMatches ++ [⟨some type, re⟩] } := by
  refine h.update h.types h.states fun r hr => ?_
  rcases List.mem_append.mp hr with hr | hr
  · exact h.stateMatches r hr
  · exact ⟨type, by simp [List.mem_singleton.mp hr], htype⟩

theorem setSeries (h : Loaded clock db) (κ : Kind) {name : CString}
    (hname : name.length < LINE_BUF_SIZE) (w : Window) :
    Loaded clock (κ.series.setTable db
      (hashSet (κ.series.table db) name ((κ.series : Series R Re _ _).blank name (some w)))) where
  types := by cases κ <;> exact h.types
  states := by cases κ <;> exact h.states
  stateMatches := by cases κ <;> exact h.stateMatches
  series κ' := by
    by_cases hκ : κ' = κ
    · subst hκ
      rw [Series.table_setTable]
      exact All.hashSet (h.series κ') ⟨hname, w, rfl⟩
    · rw [Kind.table_setTable_ne hκ]
      exact h.series κ'
  rules κ' := by
    rw [Kind.rules_setTable_ne]
    exact h.rules κ'
  events := by cases κ <;> exact h.events
  eventsCount := by cases κ <;> exact h.eventsCount

omit [HashOrder] in
theorem addRule (h : Loaded clock db) (κ : Kind) (w : Window) (re : Re) :
    Loaded clock (κ.addRule ⟨some w, re⟩ db) where
  types := by cases κ <;> exact h.types
  states := by cases κ <;> exact h.states
  stateMatches := by cases κ <;> exact h.stateMatches
  series κ' := by cases κ <;> cases κ' <;> exact h.series _
  rules κ' := by
    have hold := h.rules κ'
    have hnew : ∀ r ∈ κ'.series.rules db ++ [⟨some w, re⟩], ∃ w, r.target = some w := by
      intro r hr
      rcases List.mem_append.mp hr with hr | hr
      · exact hold r hr
      · exact ⟨w, by simp [List.mem_singleton.mp hr]⟩
    cases κ <;> cases κ' <;> first | exact hold | exact hnew
  events := by cases κ <;> exact h.events
  eventsCount := by cases κ <;> exact h.eventsCount

end Loaded

/-! ## Directives -/

namespace Conf

variable {clock : Nat → Int32} {c c' : Conf R Re}

omit [Double R] in
theorem serverString_db {f : Config → Option CString → Config}
    (h : c.serverString f = .ok c') : c'.server.db = c.server.db := by
  simp only [serverString, bind_eq_ok, pure_eq_ok] at h
  obtain ⟨_, -, rfl⟩ := h
  rfl

omit [Double R] in
theorem serverNumber_db {f : Int32 → Server R Re → Server R Re}
    (hf : ∀ n s, (f n s).db = s.db) (h : c.serverNumber f = .ok c') :
    c'.server.db = c.server.db := by
  simp only [serverNumber, bind_eq_ok, pure_eq_ok] at h
  obtain ⟨_, -, rfl⟩ := h
  exact hf _ _

omit [Double R] in
theorem gracePeriod_db (h : c.gracePeriod = .ok c') : c'.server.db = c.server.db := by
  simp only [gracePeriod, bind_eq_ok, pure_eq_ok] at h
  obtain ⟨_, -, _, -, rfl⟩ := h
  rfl

omit [Double R] in
theorem maxEvents_db (h : c.maxEvents = .ok c') : c'.server.db = c.server.db := by
  simp only [maxEvents, bind_eq_ok, pure_eq_ok] at h
  obtain ⟨_, -, _, -, _, -, rfl⟩ := h
  rfl

omit [Double R] in
theorem log_db (h : c.log = .ok c') : c'.server.db = c.server.db := by
  simp only [log, bind_eq_ok] at h
  obtain ⟨c₁, h₁, h₂⟩ := h
  exact (serverString_db h₂).trans (serverString_db h₁)

omit [Double R] in
theorem use_db (h : c.use = .ok c') : c'.server.db = c.server.db := by
  simp only [use, bind_eq_ok] at h
  obtain ⟨⟨token, p⟩, -, h⟩ := h
  split at h
  · simp only [bind_eq_ok, pure_eq_ok] at h
    obtain ⟨_, -, rfl⟩ := h
    rfl
  · simp only [bind_eq_ok, pure_eq_ok] at h
    obtain ⟨_, -, rfl⟩ := h
    rfl
  · simp at h

variable [HashOrder]

theorem window_loaded (hc : Loaded clock c.server.db) (h : c.window = .ok c') :
    Loaded clock c'.server.db := by
  simp only [window, bind_eq_ok, pure_eq_ok] at h
  obtain ⟨_, -, _, -, rfl⟩ := h
  exact hc.update hc.types hc.states hc.stateMatches

omit [HashOrder] in
/-- A type keeps one of the three statuses through all of its attributes. -/
theorem typeBody_status {fuel : Nat} {type type' : TypeDef} {p p' : Parser}
    (hs : type.status = WARNING ∨ type.status = CRITICAL ∨ type.status = UNKNOWN)
    (h : typeBody fuel type p = .ok (type', p')) :
    type'.status = WARNING ∨ type'.status = CRITICAL ∨ type'.status = UNKNOWN := by
  induction fuel generalizing type p with
  | zero => simp [typeBody] at h
  | succ fuel ih =>
    simp only [typeBody, bind_eq_ok] at h
    obtain ⟨⟨token, q⟩, -, h⟩ := h
    split at h
    · simp only [pure_eq_ok, Prod.mk.injEq] at h
      exact h.1 ▸ hs
    · simp only [bind_eq_ok] at h
      obtain ⟨n, -, h⟩ := h
      refine ih ?_ h
      exact hs
    · simp only [bind_eq_ok, orBail_eq_ok] at h
      obtain ⟨word, -, status, hstatus, text, -, h⟩ := h
      refine ih ?_ h
      unfold typeStatus at hstatus
      grind
    · simp at h

theorem type_loaded {fuel : Nat} (hc : Loaded clock c.server.db) (h : c.type fuel = .ok c') :
    Loaded clock c'.server.db := by
  simp only [type, bind_eq_ok, pure_eq_ok] at h
  obtain ⟨_, -, _, -, ⟨type, p⟩, hbody, rfl⟩ := h
  have hstatus := typeBody_status (.inl rfl) hbody
  exact hc.setType ⟨⟨_, rfl⟩, hstatus⟩

omit [HashOrder] in
theorem stateType_wf (hc : Loaded clock c.server.db) {type : TypeDef} {token : Token} {p : Parser}
    (h : c.stateType = .ok (some type, token, p)) : type.Wf := by
  simp only [stateType, bind_eq_ok] at h
  obtain ⟨⟨t, q⟩, -, h⟩ := h
  split at h
  · simp only [bind_eq_ok, pure_eq_ok, Prod.mk.injEq] at h
    obtain ⟨name, -, _, -, hget, -⟩ := h
    exact hc.types _ _ hget
  · simp only [pure_eq_ok, Prod.mk.injEq, Option.bind_eq_some_iff] at h
    obtain ⟨⟨name, -, hget⟩, -⟩ := h
    exact hc.types _ _ hget

theorem state_loaded [Pcre Re] (hc : Loaded clock c.server.db) (h : c.state clock = .ok c') :
    Loaded clock c'.server.db := by
  simp only [state, bind_eq_ok] at h
  obtain ⟨⟨type, token, p⟩, htype, h⟩ := h
  split at h
  · simp only [bind_eq_ok, pure_eq_ok, orBail_eq_ok] at h
    obtain ⟨type, rfl, name, hname, rfl⟩ := h
    exact hc.setState c.readings (Parser.text_length hname) (stateType_wf hc htype)
  · simp only [bind_eq_ok, orBail_eq_ok] at h
    obtain ⟨type, rfl, text, -, h⟩ := h
    split at h
    · simp at h
    · simp only [pure_eq_ok] at h
      exact h ▸ hc.addStateRule (stateType_wf hc htype) _
  · simp at h

theorem series_loaded [Pcre Re] (hc : Loaded clock c.server.db) (κ : Kind)
    (h : c.series κ.series κ.addRule = .ok c') : Loaded clock c'.server.db := by
  simp only [series, bind_eq_ok] at h
  obtain ⟨⟨w, token, p⟩, -, h⟩ := h
  split at h
  · simp only [bind_eq_ok, pure_eq_ok, orBail_eq_ok] at h
    obtain ⟨w, -, name, hname, rfl⟩ := h
    exact hc.setSeries κ (Parser.text_length hname) w
  · simp only [bind_eq_ok] at h
    obtain ⟨w, -, text, -, h⟩ := h
    split at h
    · simp at h
    · simp only [pure_eq_ok] at h
      exact h ▸ hc.addRule κ w _
  · simp at h

theorem directive_loaded [Pcre Re] {fuel : Nat} {token : Token} (hc : Loaded clock c.server.db)
    (h : c.directive clock fuel token = .ok c') : Loaded clock c'.server.db := by
  have same (hdb : c'.server.db = c.server.db) : Loaded clock c'.server.db := hdb ▸ hc
  unfold directive at h
  split at h
  iterate 9 exact same (serverString_db h)
  · exact Except.ok.inj h ▸ hc
  · exact same (gracePeriod_db h)
  · exact same (maxEvents_db h)
  iterate 4
    · refine same (serverNumber_db ?_ h)
      exact fun _ _ => rfl
  · exact same (log_db h)
  · exact same (use_db h)
  · exact window_loaded hc h
  · exact type_loaded hc h
  · exact state_loaded hc h
  · exact series_loaded hc .counter h
  · exact series_loaded hc .sample h
  · exact series_loaded hc .rate h
  · simp at h

end Conf

variable [Pcre Re] [HashOrder] {clock : Nat → Int32}

theorem directives_loaded {fuel : Nat} {c c' : Conf R Re} (hc : Loaded clock c.server.db)
    (h : directives clock fuel c = .ok c') : Loaded clock c'.server.db := by
  induction fuel generalizing c with
  | zero => simp [directives] at h
  | succ fuel ih =>
    simp only [directives, bind_eq_ok] at h
    obtain ⟨⟨token, p⟩, -, h⟩ := h
    split at h
    · split at h
      · simp only [pure_eq_ok] at h
        exact h ▸ hc
      · simp at h
    · simp only [bind_eq_ok] at h
      obtain ⟨c₁, hd, h⟩ := h
      refine ih (Conf.directive_loaded ?_ hd) h
      exact hc

/-- Every configuration that is read to its end sets up a database in order. -/
theorem configure_loaded {fuel : Nat} {file : List UInt8} {s₀ s : Server R Re}
    (hcount : s₀.db.eventsCount = 0) (h : configure clock fuel s₀ file = .ok s) :
    Loaded clock s.db := by
  simp only [configure, hcount, bind_eq_ok, pure_eq_ok] at h
  obtain ⟨c, hc, rfl⟩ := h
  exact directives_loaded .empty hc

theorem Configured.loaded {file : List UInt8} {s : Server R Re} (h : Configured clock file s) :
    Loaded clock s.db := by
  obtain ⟨fuel, h⟩ := h
  exact configure_loaded rfl h

end Bolo
