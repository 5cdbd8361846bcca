import Bolo.Config.Reread

/-!
# One file under other settings

`cmd_aggregator` and `cmd_spy` hand `configure` servers with different settings, at
different times. No directive looks at a setting, and only the expiry of a declared state
comes from the clock: both read the same declarations, or stop at the same error.
-/
namespace Bolo

open Library

variable {R Re : Type}

/-- Servers with the same declarations and the same size of the save file. -/
structure Server.Peers (s t : Server R Re) : Prop where
  db : t.db = { s.db with states := t.db.states }
  names : ∀ name, t.db.states.get? name = none ↔ s.db.states.get? name = none
  saveSize : t.config.saveSize = s.config.saveSize

namespace Conf

/-- Two readings that have come equally far. -/
structure Peers (c d : Conf R Re) : Prop where
  parser : d.parser = c.parser
  server : c.server.Peers d.server
  defaultType : d.defaultType = c.defaultType
  defaultWin : d.defaultWin = c.defaultWin

namespace Peers

variable {c d : Conf R Re} (h : Peers c d)
include h

/-- Both go on at `p`, with servers that still agree. -/
theorem goOn (p : Parser) {s t : Server R Re} {n m : Nat} (hs : s.Peers t) :
    Peers { c with parser := p, server := s, readings := n }
      { d with parser := p, server := t, readings := m } :=
  ⟨rfl, hs, h.defaultType, h.defaultWin⟩

theorem serverString {f : Config → Option CString → Config}
    (hf : ∀ config text, (f config text).saveSize = config.saveSize) :
    Agree Peers (c.serverString f) (d.serverString f) := by
  simp only [Conf.serverString, h.parser]
  refine .bind_left fun r => h.goOn _ ⟨h.server.db, h.server.names, ?_⟩
  exact (hf _ _).trans (h.server.saveSize.trans (hf _ _).symm)

theorem serverNumber {f : Int32 → Server R Re → Server R Re}
    (hf : ∀ n, (f n c.server).Peers (f n d.server)) :
    Agree Peers (c.serverNumber f) (d.serverNumber f) := by
  simp only [Conf.serverNumber, h.parser]
  exact .bind_left fun r => h.goOn _ (hf r.1)

theorem gracePeriod : Agree Peers c.gracePeriod d.gracePeriod := by
  simp only [Conf.gracePeriod, h.parser]
  exact .bind_left fun r => .bind_left fun text =>
    h.goOn _ ⟨h.server.db, h.server.names, h.server.saveSize⟩

theorem maxEvents : Agree Peers c.maxEvents d.maxEvents := by
  simp only [Conf.maxEvents, h.parser]
  exact .bind_left fun r => .bind_left fun keep => .bind_left fun text =>
    h.goOn _ ⟨h.server.db, h.server.names, h.server.saveSize⟩

theorem log : Agree Peers c.log d.log := by
  refine (h.serverString ?_).bind fun _ _ h' => h'.serverString ?_
  · exact fun _ _ => rfl
  · exact fun _ _ => rfl

theorem use : Agree Peers c.use d.use := by
  simp only [Conf.use, h.parser]
  refine .bind_left fun r => ?_
  obtain ⟨token, p⟩ := r
  cases token with
  | typename => exact .bind_left fun text => ⟨rfl, h.server, rfl, h.defaultWin⟩
  | windowname => exact .bind_left fun text => ⟨rfl, h.server, h.defaultType, rfl⟩
  | _ => exact rfl

/-- A change of the database that does not look at the states. -/
theorem setDb (p : Parser) {f : Db R Re → Db R Re}
    (hf : ∀ db t, f { db with states := t } = { f db with states := t }) :
    Peers ({ c with parser := p }.setDb f) ({ d with parser := p }.setDb f) := by
  have hstates (db : Db R Re) : (f db).states = db.states := by
    rw [show f db = { f db with states := db.states } from hf db db.states]
  refine h.goOn p ⟨?_, fun name => ?_, h.server.saveSize⟩
  · change f d.server.db = { f c.server.db with states := (f d.server.db).states }
    rw [hstates, ← hf, ← h.server.db]
  · change (f d.server.db).states.get? name = none ↔ (f c.server.db).states.get? name = none
    rw [hstates, hstates]
    exact h.server.names name

variable [HashOrder]

theorem window : Agree Peers c.window d.window := by
  simp only [Conf.window, h.parser]
  exact .bind_left fun r => .bind_left fun n => h.setDb _ fun _ _ => rfl

theorem type (fuel : Nat) : Agree Peers (c.type fuel) (d.type fuel) := by
  simp only [Conf.type, h.parser]
  exact .bind_left fun r => .bind_left fun r' => .bind_left fun type => h.setDb _ fun _ _ => rfl

omit [HashOrder] in
theorem stateType : d.stateType = c.stateType := by
  have htypes : d.server.db.types = c.server.db.types := by rw [h.server.db]
  simp only [Conf.stateType, h.parser, h.defaultType, htypes]

omit [HashOrder] in
theorem seriesWindow : d.seriesWindow = c.seriesWindow := by
  have hwindows : d.server.db.windows = c.server.db.windows := by rw [h.server.db]
  simp only [Conf.seriesWindow, h.parser, h.defaultWin, hwindows]

variable [Pcre Re]

theorem state (clock clock' : Nat → Int32) : Agree Peers (c.state clock) (d.state clock') := by
  simp only [Conf.state, h.stateType]
  refine .bind_left fun r => ?_
  obtain ⟨type, token, p⟩ := r
  cases token with
  | string =>
    refine .bind_left fun type => .bind_left fun name =>
      h.goOn p ⟨?_, fun n => ?_, h.server.saveSize⟩
    · rw [h.server.db]
    · change (hashSet d.server.db.states name _).get? n = none ↔
        (hashSet c.server.db.states name _).get? n = none
      rw [get?_hashSet, get?_hashSet]
      split
      · simp
      · exact h.server.names n
  | «match» =>
    refine .bind_left fun type => .bind_left fun text => ?_
    cases (Pcre.compile text : Except CString Re) with
    | error e => exact rfl
    | ok re => exact h.setDb p fun _ _ => rfl
  | _ => exact rfl

theorem series [Double R] (κ : Kind) :
    Agree Peers (c.series κ.series κ.addRule) (d.series κ.series κ.addRule) := by
  simp only [Conf.series, h.seriesWindow]
  refine .bind_left fun r => ?_
  obtain ⟨window, token, p⟩ := r
  cases token with
  | string =>
    refine .bind_left fun window => .bind_left fun name => h.setDb p fun _ _ => ?_
    cases κ <;> rfl
  | «match» =>
    refine .bind_left fun window => .bind_left fun text => ?_
    cases (Pcre.compile text : Except CString Re) with
    | error e => exact rfl
    | ok re =>
      refine h.setDb p fun _ _ => ?_
      cases κ <;> rfl
  | _ => exact rfl

theorem directive [Double R] (clock clock' : Nat → Int32) (fuel : Nat) (token : Token) :
    Agree Peers (c.directive clock fuel token) (d.directive clock' fuel token) := by
  have hserver := h.server
  unfold Conf.directive
  split
  iterate 9 exact h.serverString fun _ _ => rfl
  · exact h
  · exact h.gracePeriod
  · exact h.maxEvents
  · exact h.serverNumber fun n => ⟨hserver.db, hserver.names, hserver.saveSize⟩
  · exact h.serverNumber fun n => ⟨hserver.db, hserver.names, rfl⟩
  iterate 2 exact h.serverNumber fun n => ⟨hserver.db, hserver.names, hserver.saveSize⟩
  · exact h.log
  · exact h.use
  · exact h.window
  · exact h.type fuel
  · exact h.state clock clock'
  · exact h.series .counter
  · exact h.series .sample
  · exact h.series .rate
  · exact rfl

end Peers

end Conf

variable [Double R] [Pcre Re] [HashOrder] (clock clock' : Nat → Int32)

theorem directives_peers (fuel : Nat) {c d : Conf R Re} (h : c.Peers d) :
    Agree Conf.Peers (directives clock fuel c) (directives clock' fuel d) := by
  induction fuel generalizing c d with
  | zero => exact rfl
  | succ fuel ih =>
    simp only [directives, h.parser]
    refine .bind_left fun r => ?_
    obtain ⟨token, p⟩ := r
    have hp : Conf.Peers { c with parser := p } { d with parser := p } := h.goOn p h.server
    cases token with
    | none =>
      dsimp only
      split
      · exact hp
      · exact rfl
    | some token => exact (hp.directive clock clock' fuel token).bind fun _ _ h' => ih h'

/-- `configure` of one file into servers of different settings. -/
theorem configure_peers (fuel : Nat) (file : List UInt8) {s t : Server R Re}
    (hcount : t.db.eventsCount = s.db.eventsCount)
    (hsize : t.config.saveSize = s.config.saveSize) :
    Agree Server.Peers (configure clock fuel s file) (configure clock' fuel t file) := by
  have hstart : (Conf.start s file).Peers (Conf.start t file) :=
    ⟨rfl, ⟨by simp [Conf.start, hcount], fun _ => Iff.rfl, hsize⟩, rfl, rfl⟩
  exact (directives_peers clock clock' fuel hstart).bind fun _ _ h => Agree.ok_iff.mpr h.server

theorem Configured.peers {clock clock' : Nat → Int32} {file : List UInt8} {s s' : Server R Re}
    (h : Configured clock file s) (h' : Configured clock' file s') : s.Peers s' := by
  obtain ⟨heq, hnames⟩ := h.reread h'
  exact ⟨congrArg Server.db heq, hnames, by rw [heq]⟩

end Bolo
