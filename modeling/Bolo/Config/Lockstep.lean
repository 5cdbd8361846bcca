import Bolo.Config.Configure

/-!
# Two files read in lockstep

If two parsers return the same tokens with the same values for ever, `configure` cannot tell them
apart; and if they do so until the second file ends in an error, it ends in the same error on the
first. The relation between the two is a parameter: each use names one that a call of `lex` keeps.
-/
namespace Bolo

open Library

/-- Results of two calls of `lex`: the same token, after which the parsers are related by `S`, or
no token, and then they are related by `E`. -/
structure Step (E S : Parser → Parser → Prop) (a b : Option Token × Parser) : Prop where
  token : a.1 = b.1
  some : a.1.isSome → S a.2 b.2
  none : a.1 = none → E a.2 b.2

/-- `S` relates parsers of which the first goes on as the second does, unless that one ends
badly. -/
structure Tracks (bad : Stop → Prop) (E S : Parser → Parser → Prop) : Prop where
  value : ∀ {p q}, S p q → p.value = q.value
  lex : ∀ {p q}, S p q → Echoes (fun f => bad (.fault f)) (Step E S) (lex p) (lex q)

/-- The parsers agree on the end of the file, and the first one, if it is there, has nothing left
to lex. -/
def AtEnd (p q : Parser) : Prop := p.eof = q.eof ∧ (p.eof = true → ready p = .ok none)

/-- The first parser is at the end of the file only if the second is. -/
def NoSooner (p q : Parser) : Prop := q.eof = false → p.eof = false

/-- `S` relates parsers that go on alike. -/
abbrev Lockstep (S : Parser → Parser → Prop) : Prop := Tracks (fun _ => False) AtEnd S

theorem Echoes.orFault {A B : Type} {bad : Stop → Prop} {Q : A → B → Prop} {x : Except Fault A}
    {y : Except Fault B} (h : Echoes (fun f => bad (.fault f)) Q x y) :
    Echoes bad Q (Bolo.orFault x) (Bolo.orFault y) := by
  rcases h with ⟨f, hf, rfl⟩ | h
  · exact .inl ⟨.fault f, hf, rfl⟩
  · rcases h.split with ⟨e, rfl, rfl⟩ | ⟨a, b, rfl, rfl, h⟩
    · exact .inr rfl
    · exact .inr h

namespace Tracks

variable {bad : Stop → Prop} {E S : Parser → Parser → Prop} (hS : Tracks bad E S)
include hS

theorem next {p q : Parser} (h : S p q) :
    Echoes bad (fun a b => a.1 = b.1 ∧ S a.2 b.2) (next p) (next q) := by
  refine (Echoes.orFault (hS.lex h)).bind ?_
  rintro ⟨token, p'⟩ ⟨_, q'⟩ ⟨rfl, hsome, -⟩
  cases token with
  | none => exact .inr rfl
  | some token => exact .inr ⟨rfl, hsome rfl⟩

theorem text {p q : Parser} (h : S p q) : p.text = q.text := by
  rw [Parser.text, Parser.text, hS.value h]

theorem expect (token : Token) {p q : Parser} (h : S p q) :
    Echoes bad (fun a b => a.1 = b.1 ∧ S a.2 b.2) (expect token p) (expect token q) := by
  refine (hS.next h).bind_pair fun t p' q' h' => ?_
  dsimp only
  split
  · rw [hS.text h']
    exact .bind_left fun text => .inr ⟨rfl, h'⟩
  · exact .inr rfl

theorem expectNumber {p q : Parser} (h : S p q) :
    Echoes bad (fun a b => a.1 = b.1 ∧ S a.2 b.2) (expectNumber p) (expectNumber q) := by
  refine (hS.expect .number h).bind_pair fun text p' q' h' => ?_
  exact .inr ⟨rfl, h'⟩

theorem typeBody (fuel : Nat) (type : TypeDef) {p q : Parser} (h : S p q) :
    Echoes bad (fun a b => a.1 = b.1 ∧ S a.2 b.2) (typeBody fuel type p)
      (typeBody fuel type q) := by
  induction fuel generalizing type p q with
  | zero => exact .inr rfl
  | succ fuel ih =>
    refine (hS.next h).bind_pair fun token p' q' h' => ?_
    cases token with
    | closeBrace => exact .inr ⟨rfl, h'⟩
    | keyword k =>
      cases k with
      | freshness =>
        refine (hS.expectNumber h').bind_pair fun n p₁ q₁ h₁ => ?_
        exact ih _ h₁
      | _ => exact .inr rfl
    | string =>
      dsimp only
      rw [hS.text h']
      refine .bind_left fun word => .bind_left fun status => ?_
      exact (hS.expect .string h').bind_pair fun text p₁ q₁ h₁ => ih _ h₁
    | _ => exact .inr rfl

end Tracks

namespace Conf

variable {R Re : Type} {bad : Stop → Prop} {E S : Parser → Parser → Prop}

/-- Two readings that differ in the parser only. -/
structure Twin (S : Parser → Parser → Prop) (c d : Conf R Re) : Prop where
  eq : d = { c with parser := d.parser }
  parser : S c.parser d.parser

/-- A directive that cannot tell parsers in lockstep apart. -/
def Follows (bad : Stop → Prop) (S : Parser → Parser → Prop)
    (op : Conf R Re → Except Stop (Conf R Re)) : Prop :=
  ∀ c q, S c.parser q → Echoes bad (Twin S) (op c) (op { c with parser := q })

variable (hS : Tracks bad E S)
include hS

theorem serverString_follows (f : Config → Option CString → Config) :
    Follows bad S fun c : Conf R Re => c.serverString f := by
  intro c q h
  refine (hS.expect .string h).bind_pair fun text p' q' h' => ?_
  exact .inr ⟨rfl, h'⟩

theorem serverNumber_follows (f : Int32 → Server R Re → Server R Re) :
    Follows bad S fun c : Conf R Re => c.serverNumber f := by
  intro c q h
  refine (hS.expectNumber h).bind_pair fun n p' q' h' => ?_
  exact .inr ⟨rfl, h'⟩

theorem gracePeriod_follows : Follows bad S fun c : Conf R Re => c.gracePeriod := by
  intro c q h
  refine (hS.next h).bind_pair fun token p' q' h' => ?_
  dsimp only
  rw [hS.text h']
  exact .bind_left fun text => .inr ⟨rfl, h'⟩

theorem maxEvents_follows : Follows bad S fun c : Conf R Re => c.maxEvents := by
  intro c q h
  refine (hS.next h).bind_pair fun token p' q' h' => ?_
  dsimp only
  rw [hS.text h']
  exact .bind_left fun keep => .bind_left fun text => .inr ⟨rfl, h'⟩

theorem log_follows : Follows bad S fun c : Conf R Re => c.log := by
  intro c q h
  refine (serverString_follows hS _ c q h).bind ?_
  rintro c' d' ⟨heq, h'⟩
  rw [heq]
  exact serverString_follows hS _ c' d'.parser h'

theorem use_follows : Follows bad S fun c : Conf R Re => c.use := by
  intro c q h
  refine (hS.next h).bind_pair fun token p' q' h' => ?_
  dsimp only
  rw [hS.text h']
  cases token with
  | typename => exact .bind_left fun text => .inr ⟨rfl, h'⟩
  | windowname => exact .bind_left fun text => .inr ⟨rfl, h'⟩
  | _ => exact .inr rfl

variable [HashOrder]

theorem window_follows : Follows bad S fun c : Conf R Re => c.window := by
  intro c q h
  refine (hS.expect .windowname h).bind_pair fun name p' q' h' => ?_
  refine (hS.expectNumber h').bind_pair fun n p'' q'' h'' => ?_
  exact .inr ⟨rfl, h''⟩

theorem type_follows (fuel : Nat) : Follows bad S fun c : Conf R Re => c.type fuel := by
  intro c q h
  refine (hS.expect .typename h).bind_pair fun name p₁ q₁ h₁ => ?_
  refine (hS.expect .openBrace h₁).bind_pair fun brace p₂ q₂ h₂ => ?_
  refine (hS.typeBody fuel _ h₂).bind_pair fun type p₃ q₃ h₃ => ?_
  exact .inr ⟨rfl, h₃⟩

omit [HashOrder] in
theorem stateType_echoes (c : Conf R Re) {q : Parser} (h : S c.parser q) :
    Echoes bad (fun a b => a.1 = b.1 ∧ a.2.1 = b.2.1 ∧ S a.2.2 b.2.2) c.stateType
      ({ c with parser := q } : Conf R Re).stateType := by
  refine (hS.next h).bind_pair fun token p' q' h' => ?_
  dsimp only
  split
  · rw [hS.text h']
    refine .bind_left fun text => (hS.next h').bind_pair fun token p'' q'' h'' => ?_
    exact .inr ⟨rfl, rfl, h''⟩
  · exact .inr ⟨rfl, rfl, h'⟩

omit [HashOrder] in
theorem seriesWindow_echoes (c : Conf R Re) {q : Parser} (h : S c.parser q) :
    Echoes bad (fun a b => a.1 = b.1 ∧ a.2.1 = b.2.1 ∧ S a.2.2 b.2.2) c.seriesWindow
      ({ c with parser := q } : Conf R Re).seriesWindow := by
  refine (hS.next h).bind_pair fun token p' q' h' => ?_
  dsimp only
  rw [hS.text h']
  split
  · refine .bind_left fun text => (hS.next h').bind ?_
    rintro ⟨token, p''⟩ ⟨_, q''⟩ ⟨rfl, h''⟩
    exact .inr ⟨rfl, rfl, h''⟩
  split
  · refine .bind_left fun text => (hS.next h').bind ?_
    rintro ⟨token, p''⟩ ⟨_, q''⟩ ⟨rfl, h''⟩
    exact .inr ⟨rfl, rfl, h''⟩
  · exact .inr ⟨rfl, rfl, h'⟩

variable [Pcre Re]

theorem state_follows (clock : Nat → Int32) : Follows bad S fun c : Conf R Re => c.state clock := by
  intro c q h
  refine (stateType_echoes hS c h).bind ?_
  rintro ⟨type, token, p'⟩ ⟨_, _, q'⟩ ⟨rfl, rfl, h'⟩
  dsimp only
  rw [hS.text h']
  cases token with
  | string => exact .bind_left fun type => .bind_left fun name => .inr ⟨rfl, h'⟩
  | «match» =>
    refine .bind_left fun type => .bind_left fun text => ?_
    cases (Pcre.compile text : Except CString Re) with
    | error e => exact .inr rfl
    | ok re => exact .inr ⟨rfl, h'⟩
  | _ => exact .inr rfl

theorem series_follows {α V : Type} (s : Series R Re α V)
    (addRule : Rule Window Re → Db R Re → Db R Re) :
    Follows bad S fun c : Conf R Re => c.series s addRule := by
  intro c q h
  refine (seriesWindow_echoes hS c h).bind ?_
  rintro ⟨window, token, p'⟩ ⟨_, _, q'⟩ ⟨rfl, rfl, h'⟩
  dsimp only
  rw [hS.text h']
  cases token with
  | string => exact .bind_left fun window => .bind_left fun name => .inr ⟨rfl, h'⟩
  | «match» =>
    refine .bind_left fun window => .bind_left fun text => ?_
    cases (Pcre.compile text : Except CString Re) with
    | error e => exact .inr rfl
    | ok re => exact .inr ⟨rfl, h'⟩
  | _ => exact .inr rfl

variable [Double R]

theorem directive_follows (clock : Nat → Int32) (fuel : Nat) (token : Token) :
    Follows bad S fun c : Conf R Re => c.directive clock fuel token := by
  unfold directive
  split
  iterate 9 exact serverString_follows hS _
  · exact fun c q h => .inr ⟨rfl, h⟩
  · exact gracePeriod_follows hS
  · exact maxEvents_follows hS
  iterate 4 exact serverNumber_follows hS _
  · exact log_follows hS
  · exact use_follows hS
  · exact window_follows hS
  · exact type_follows hS fuel
  · exact state_follows hS clock
  iterate 3 exact series_follows hS _ _
  · exact fun _ _ _ => .inr rfl

end Conf

variable {R Re : Type} [Double R] [Pcre Re] [HashOrder] {S : Parser → Parser → Prop}

/-- The loop of `configure` on files in lockstep; where it ends well, nothing is left to lex. -/
theorem directives_lockstep (hS : Lockstep S) (clock : Nat → Int32) (fuel : Nat)
    {c d : Conf R Re} (h : c.Twin S d) :
    Agree (fun a b => b = { a with parser := b.parser } ∧ ready a.parser = .ok none)
      (directives clock fuel c) (directives clock fuel d) := by
  induction fuel generalizing c d with
  | zero => exact rfl
  | succ fuel ih =>
    obtain ⟨heq, hparser⟩ := h
    rw [heq]
    refine ((Echoes.orFault (hS.lex hparser)).agree fun _ => id).bind ?_
    rintro ⟨token, p⟩ ⟨_, q⟩ ⟨rfl, hsome, hnone⟩
    cases token with
    | none =>
      obtain ⟨heof, hready⟩ := hnone rfl
      dsimp only at heof hready ⊢
      rw [← heof]
      split
      · exact ⟨rfl, hready ‹_›⟩
      · exact rfl
    | some token =>
      have hop := Conf.directive_follows hS clock fuel token { c with parser := p } q (hsome rfl)
      exact (hop.agree fun _ => id).bind fun _ _ h' => ih h'

/-- Where the loop of `configure` fails on the second file, it fails on the first. -/
theorem directives_tracks {bad : Stop → Prop} (hS : Tracks bad NoSooner S)
    (clock : Nat → Int32) {stop : Stop} (hstop : ¬bad stop) (fuel : Nat) {c d : Conf R Re}
    (h : c.Twin S d)
    (hd : directives clock fuel d = .error stop) : directives clock fuel c = .error stop := by
  induction fuel generalizing c d with
  | zero => exact hd
  | succ fuel ih =>
    obtain ⟨heq, hparser⟩ := h
    rw [heq] at hd
    refine (Echoes.orFault (hS.lex hparser)).bind_error hstop ?_ hd
    rintro ⟨token, p⟩ ⟨_, q⟩ ⟨rfl, hsome, hnone⟩ hq
    cases token with
    | none =>
      dsimp only at hq ⊢
      split at hq
      · cases hq
      · case isFalse heof =>
          rw [hnone rfl (by simpa using heof)]
          exact hq
    | some token =>
      exact (Conf.directive_follows hS clock fuel token { c with parser := p } q
        (hsome rfl)).bind_error hstop (fun _ _ h' => ih h') hq

/-- `configure` on files in lockstep. -/
theorem configure_lockstep (hS : Lockstep S) {F G : List UInt8} (h : S (.open F) (.open G))
    (clock : Nat → Int32) (fuel : Nat) (s : Server R Re) :
    configure clock fuel s F = configure clock fuel s G ∧
      ∀ c, directives clock fuel (Conf.start s F) = .ok c → ready c.parser = .ok none := by
  have hagree := directives_lockstep hS clock fuel
    (c := Conf.start s F) (d := Conf.start s G) ⟨rfl, h⟩
  refine ⟨(hagree.bind fun c d h => ?_).eq, fun c hc => ?_⟩
  · exact congrArg (·.server) h.1.symm
  · obtain ⟨d, -, -, hready⟩ := hagree.of_ok hc
    exact hready

end Bolo
