import Bolo.Config.Configure

/-!
# Reading a configuration again

The clock and the fuel decide nothing but the expiry of the declared states: two readings
of one file set up the same rules and the same names. No directive looks at the table of
states, so replacing that table before a directive is replacing it afterwards.
-/
namespace Bolo

open Library

variable {R Re : Type}

namespace Conf

def withStates (c : Conf R Re) (t : Table CString State) : Conf R Re :=
  c.setDb fun db => { db with states := t }

/-- A directive that does not look at the states. -/
def Blind (op : Conf R Re → Except Stop (Conf R Re)) : Prop :=
  ∀ c t, op (c.withStates t) = (op c).map (·.withStates t)

namespace Blind

variable {op : Conf R Re → Except Stop (Conf R Re)}

theorem pure {f : Conf R Re → Conf R Re} (hf : ∀ c t, f (c.withStates t) = (f c).withStates t) :
    Blind fun c => .ok (f c) :=
  fun c t => congrArg Except.ok (hf c t)

theorem bail : Blind fun _ : Conf R Re => .error .bail := fun _ _ => rfl

theorem bind {α : Type} {x : Conf R Re → Except Stop α}
    {next : α → Conf R Re → Except Stop (Conf R Re)} (hx : ∀ c t, x (c.withStates t) = x c)
    (hnext : ∀ a, Blind (next a)) : Blind fun c => x c >>= fun a => next a c := by
  intro c t
  change (x (c.withStates t) >>= _) = Except.map _ (x c >>= _)
  rw [hx]
  cases x c with
  | error e => rfl
  | ok a => exact hnext a c t

theorem seq {op' : Conf R Re → Except Stop (Conf R Re)} (hop : Blind op) (hop' : Blind op') :
    Blind fun c => op c >>= op' := by
  intro c t
  change (op (c.withStates t) >>= _) = Except.map _ (op c >>= _)
  rw [hop]
  cases op c with
  | error e => rfl
  | ok d => exact hop' d t

theorem states_eq (hop : Blind op) {c d : Conf R Re} (h : op c = .ok d) :
    d.server.db.states = c.server.db.states := by
  have hd := hop c c.server.db.states
  rw [show c.withStates c.server.db.states = c from rfl, h] at hd
  rw [Except.ok.inj hd]
  rfl

end Blind

theorem serverString_blind (f : Config → Option CString → Config) :
    Blind fun c : Conf R Re => c.serverString f :=
  .bind (fun _ _ => rfl) fun _ => .pure fun _ _ => rfl

theorem serverNumber_blind {f : Int32 → Server R Re → Server R Re}
    (hf : ∀ n s t, f n { s with db := { s.db with states := t } } =
      { f n s with db := { (f n s).db with states := t } }) :
    Blind fun c : Conf R Re => c.serverNumber f := by
  refine .bind (fun _ _ => rfl) fun r => .pure fun c t => ?_
  exact congrArg (fun s => { c with parser := r.2, server := s }) (hf r.1 c.server t)

theorem gracePeriod_blind : Blind fun c : Conf R Re => c.gracePeriod :=
  .bind (fun _ _ => rfl) fun r => .bind (x := fun _ => r.2.text) (fun _ _ => rfl) fun _ =>
    .pure fun _ _ => rfl

theorem maxEvents_blind : Blind fun c : Conf R Re => c.maxEvents :=
  .bind (fun _ _ => rfl) fun r => .bind (x := fun _ => orBail _) (fun _ _ => rfl) fun _ =>
    .bind (x := fun _ => r.2.text) (fun _ _ => rfl) fun _ => .pure fun _ _ => rfl

theorem log_blind : Blind fun c : Conf R Re => c.log :=
  (serverString_blind _).seq (serverString_blind _)

theorem use_blind : Blind fun c : Conf R Re => c.use := by
  refine .bind (fun _ _ => rfl) fun r => ?_
  obtain ⟨token, p⟩ := r
  cases token with
  | typename => exact .bind (x := fun _ => p.text) (fun _ _ => rfl) fun _ => .pure fun _ _ => rfl
  | windowname => exact .bind (x := fun _ => p.text) (fun _ _ => rfl) fun _ => .pure fun _ _ => rfl
  | _ => exact .bail

variable [HashOrder]

theorem window_blind : Blind fun c : Conf R Re => c.window :=
  .bind (fun _ _ => rfl) fun r => .bind (x := fun _ => expectNumber r.2) (fun _ _ => rfl) fun _ =>
    .pure fun _ _ => rfl

theorem type_blind (fuel : Nat) : Blind fun c : Conf R Re => c.type fuel :=
  .bind (fun _ _ => rfl) fun r => .bind (x := fun _ => expect .openBrace r.2) (fun _ _ => rfl)
    fun r' => .bind (x := fun _ => typeBody fuel _ r'.2) (fun _ _ => rfl) fun _ =>
      .pure fun _ _ => rfl

theorem series_blind [Pcre Re] [Double R] (κ : Kind) :
    Blind fun c : Conf R Re => c.series κ.series κ.addRule := by
  refine .bind (fun _ _ => rfl) fun r => ?_
  obtain ⟨w, token, p⟩ := r
  cases token with
  | string =>
    refine .bind (x := fun _ => orBail w) (fun _ _ => rfl) fun _ =>
      .bind (x := fun _ => p.text) (fun _ _ => rfl) fun _ => .pure fun _ _ => ?_
    cases κ <;> rfl
  | «match» =>
    refine .bind (x := fun _ => orBail w) (fun _ _ => rfl) fun _ =>
      .bind (x := fun _ => p.text) (fun _ _ => rfl) fun text => ?_
    cases (Pcre.compile text : Except CString Re) with
    | error e => exact .bail
    | ok re =>
      refine .pure fun _ _ => ?_
      cases κ <;> rfl
  | _ => exact .bail

/-! ## Two readings -/

/-- Two readings, as far as they have come, that differ in the clock only. -/
structure Alike (c c' : Conf R Re) : Prop where
  eq : c' = c.withStates c'.server.db.states
  names : ∀ name, c'.server.db.states.get? name = none ↔ c.server.db.states.get? name = none

omit [HashOrder] in
theorem Blind.alike {op : Conf R Re → Except Stop (Conf R Re)} (hop : Blind op)
    {c c' d d' : Conf R Re} (h : Alike c c') (hd : op c = .ok d) (hd' : op c' = .ok d') :
    Alike d d' := by
  rw [h.eq, hop, hd] at hd'
  obtain rfl := Except.ok.inj hd'
  refine ⟨rfl, fun name => ?_⟩
  rw [hop.states_eq hd]
  exact h.names name

omit [HashOrder] in
theorem typeBody_unique {fuel fuel' : Nat} {type : TypeDef} {p : Parser} {r r' : TypeDef × Parser}
    (h : typeBody fuel type p = .ok r) (h' : typeBody fuel' type p = .ok r') : r = r' := by
  induction fuel generalizing fuel' type p with
  | zero => simp [typeBody] at h
  | succ fuel ih =>
    cases fuel' with
    | zero => simp [typeBody] at h'
    | succ fuel' =>
      simp only [typeBody, bind_eq_ok] at h h'
      obtain ⟨⟨token, q⟩, hq, h⟩ := h
      obtain ⟨⟨token', q'⟩, hq', h'⟩ := h'
      rw [hq] at hq'
      cases hq'
      cases token with
      | closeBrace =>
        simp only [pure_eq_ok] at h h'
        exact h.symm.trans h'
      | keyword k =>
        cases k with
        | freshness =>
          simp only [bind_eq_ok] at h h'
          obtain ⟨n, hn, h⟩ := h
          obtain ⟨n', hn', h'⟩ := h'
          rw [hn] at hn'
          cases hn'
          exact ih h h'
        | _ => simp at h
      | string =>
        simp only [bind_eq_ok] at h h'
        obtain ⟨word, hw, status, hs, text, ht, h⟩ := h
        obtain ⟨word', hw', status', hs', text', ht', h'⟩ := h'
        rw [hw] at hw'
        cases hw'
        rw [hs] at hs'
        cases hs'
        rw [ht] at ht'
        cases ht'
        exact ih h h'
      | _ => simp at h

theorem type_unique {fuel fuel' : Nat} {c d d' : Conf R Re} (h : c.type fuel = .ok d)
    (h' : c.type fuel' = .ok d') : d = d' := by
  simp only [type, bind_eq_ok, pure_eq_ok] at h h'
  obtain ⟨r₁, h₁, r₂, h₂, r₃, h₃, rfl⟩ := h
  obtain ⟨q₁, h₁', q₂, h₂', q₃, h₃', rfl⟩ := h'
  rw [h₁] at h₁'
  cases h₁'
  rw [h₂] at h₂'
  cases h₂'
  rw [typeBody_unique h₃ h₃']

variable [Pcre Re] {clock clock' : Nat → Int32} {fuel fuel' : Nat}

theorem state_alike {c c' d d' : Conf R Re} (h : Alike c c') (hd : c.state clock = .ok d)
    (hd' : c'.state clock' = .ok d') : Alike d d' := by
  obtain ⟨heq, hnames⟩ := h
  generalize c'.server.db.states = t at heq hnames
  subst heq
  simp only [state, bind_eq_ok] at hd hd'
  obtain ⟨⟨type, token, p⟩, htype, hd⟩ := hd
  obtain ⟨r', htype', hd'⟩ := hd'
  rw [show (c.withStates t).stateType = c.stateType from rfl, htype] at htype'
  cases htype'
  cases token with
  | string =>
    simp only [bind_eq_ok, pure_eq_ok] at hd hd'
    obtain ⟨ty, hty, name, hname, rfl⟩ := hd
    obtain ⟨ty', hty', name', hname', rfl⟩ := hd'
    rw [hty] at hty'
    cases hty'
    rw [hname] at hname'
    cases hname'
    refine ⟨rfl, fun n => ?_⟩
    change (hashSet t name _).get? n = none ↔ (hashSet c.server.db.states name _).get? n = none
    rw [get?_hashSet, get?_hashSet]
    split
    · simp
    · exact hnames n
  | «match» =>
    simp only [bind_eq_ok] at hd hd'
    obtain ⟨ty, hty, text, htext, hd⟩ := hd
    obtain ⟨ty', hty', text', htext', hd'⟩ := hd'
    rw [hty] at hty'
    cases hty'
    rw [htext] at htext'
    cases htext'
    cases hre : (Pcre.compile text : Except CString Re) with
    | error e => simp [hre] at hd
    | ok re =>
      simp only [hre, pure_eq_ok] at hd hd'
      subst hd hd'
      exact ⟨rfl, hnames⟩
  | _ => simp at hd

variable [Double R]

theorem directive_blind (clock : Nat → Int32) (fuel : Nat) {token : Token}
    (hstate : token ≠ .keyword .state) :
    Blind fun c : Conf R Re => c.directive clock fuel token := by
  unfold directive
  split
  iterate 9 exact serverString_blind _
  · exact .pure fun _ _ => rfl
  · exact gracePeriod_blind
  · exact maxEvents_blind
  iterate 4
    · refine serverNumber_blind ?_
      exact fun _ _ _ => rfl
  · exact log_blind
  · exact use_blind
  · exact window_blind
  · exact type_blind fuel
  · exact absurd rfl hstate
  · exact series_blind .counter
  · exact series_blind .sample
  · exact series_blind .rate
  · exact .bail

theorem directive_alike {token : Token} {c c' d d' : Conf R Re} (h : Alike c c')
    (hd : c.directive clock fuel token = .ok d) (hd' : c'.directive clock' fuel' token = .ok d') :
    Alike d d' := by
  by_cases hstate : token = .keyword .state
  · subst hstate
    exact state_alike h hd hd'
  have hblind : Blind fun c : Conf R Re => c.directive clock fuel token :=
    directive_blind clock fuel hstate
  refine hblind.alike h hd ?_
  by_cases htype : token = .keyword .type
  · subst htype
    have hsame := hblind c c'.server.db.states
    rw [← h.eq] at hsame
    beta_reduce at hsame
    rw [hd] at hsame
    rw [type_unique hd' hsame]
    exact hsame
  · rw [← hd']
    unfold directive
    split <;> first | rfl | contradiction

end Conf

variable [Pcre Re] [HashOrder] [Double R] {clock clock' : Nat → Int32}

theorem directives_alike {fuel fuel' : Nat} {c c' d d' : Conf R Re} (h : c.Alike c')
    (hd : directives clock fuel c = .ok d) (hd' : directives clock' fuel' c' = .ok d') :
    d.Alike d' := by
  induction fuel generalizing fuel' c c' with
  | zero => simp [directives] at hd
  | succ fuel ih =>
    cases fuel' with
    | zero => simp [directives] at hd'
    | succ fuel' =>
      have hparser : c'.parser = c.parser := by rw [h.eq]; rfl
      simp only [directives, bind_eq_ok, hparser] at hd hd'
      obtain ⟨⟨token, p⟩, hlex, hd⟩ := hd
      obtain ⟨r', hlex', hd'⟩ := hd'
      rw [hlex] at hlex'
      cases hlex'
      have hnext : Conf.Alike { c with parser := p } { c' with parser := p } :=
        ⟨congrArg (fun c : Conf R Re => { c with parser := p }) h.eq, h.names⟩
      cases token with
      | none =>
        by_cases heof : p.eof
        · simp only [heof, if_true, pure_eq_ok] at hd hd'
          exact hd ▸ hd' ▸ hnext
        · simp [heof] at hd
      | some token =>
        simp only [bind_eq_ok] at hd hd'
        obtain ⟨c₁, hc₁, hd⟩ := hd
        obtain ⟨c₁', hc₁', hd'⟩ := hd'
        exact ih (Conf.directive_alike hnext hc₁ hc₁') hd hd'

/-- Two readings of one file agree on all but the states, and declare the same ones. -/
theorem Configured.reread {file : List UInt8} {s s' : Server R Re} (h : Configured clock file s)
    (h' : Configured clock' file s') :
    s' = { s with db := { s.db with states := s'.db.states } } ∧
      ∀ name, s'.db.states.get? name = none ↔ s.db.states.get? name = none := by
  obtain ⟨fuel, h⟩ := h
  obtain ⟨fuel', h'⟩ := h'
  simp only [configure, bind_eq_ok, pure_eq_ok] at h h'
  obtain ⟨d, hd, rfl⟩ := h
  obtain ⟨d', hd', rfl⟩ := h'
  obtain ⟨heq, hnames⟩ := directives_alike ⟨rfl, fun _ => Iff.rfl⟩ hd hd'
  exact ⟨congrArg Conf.server heq, hnames⟩

end Bolo
