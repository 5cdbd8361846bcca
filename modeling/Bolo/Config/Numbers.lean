import Bolo.Config.Configure

/-!
# Numeric tokens

A number is copied into `value` without a terminator. The text left there is the number
if and only if the byte behind it is already zero, that is, if no earlier token left a
longer text in `value`.
-/
namespace Bolo

open Library

/-- The line to be lexed has no leading blanks. -/
def Parser.Trimmed (p : Parser) : Prop := isspace (p.buffer.get 0) = false

/-- The run of digits that the next token starts with. -/
def Parser.nextDigits (p : Parser) : List UInt8 :=
  match ready p with
  | .ok (some q) => q.buffer.span isdigit (q.buffer.span isspace 0).length
  | _ => []

/-- Parsers between two tokens of a file. -/
inductive Parser.Reached (file : List UInt8) : Parser → Prop
  | start : Reached file (.open file)
  | lex {p p' token} (hp : Reached file p) (h : Bolo.lex p = .ok (some token, p')) :
      Reached file p'

/-! ## Blanks -/

theorem trimmed_put {p : Parser} {l : List UInt8} {buffer : Buffer LINE_BUF_SIZE}
    (hl : ∀ c ∈ l.head?, isspace c = false) (hne : l ≠ [])
    (h : p.buffer.put 0 l = some buffer) : ({ p with buffer := buffer } : Parser).Trimmed := by
  unfold Parser.Trimmed Buffer.get
  rw [Buffer.put_zero h]
  cases l with
  | nil => exact absurd rfl hne
  | cons c l => simpa using hl c rfl

theorem uncomment_head (raw : List UInt8) : ∀ c ∈ (uncomment raw).head?, isspace c = false := by
  intro c hc
  unfold uncomment at hc
  have h := List.head?_dropWhile_not isspace
    (if ((raw.takeWhile (· ≠ 0)).dropWhile isspace).head? = some (chr '#') then
      ((raw.takeWhile (· ≠ 0)).dropWhile isspace).dropWhile (· ≠ chr '\n')
    else (raw.takeWhile (· ≠ 0)).dropWhile isspace)
  rw [hc] at h
  exact h

theorem getline_spec {p q : Parser} {lines : List (List UInt8)}
    (h : getline p lines = .ok (some q)) : q.Trimmed ∧ q.value = p.value := by
  induction lines generalizing p with
  | nil => simp [getline] at h
  | cons raw lines ih =>
    unfold getline at h
    split at h
    · exact ih h
    · case isFalse hne =>
        simp only [bind_eq_ok, inBounds_eq_ok] at h
        obtain ⟨buffer, hput, _, -, _, -, h⟩ := h
        split at h
        · have hq := ih h
          exact hq
        · simp only [pure_eq_ok, Option.some.injEq] at h
          subst h
          refine ⟨trimmed_put (p := { p with lines := lines, eof := reachesEof raw }) ?_ (by simp)
            hput, rfl⟩
          cases hu : uncomment raw with
          | nil => exact absurd hu hne
          | cons c l =>
            have := uncomment_head raw c (by simp [hu])
            simpa using this

theorem ready_spec {p q : Parser} (hp : p.Trimmed) (h : ready p = .ok (some q)) :
    q.Trimmed ∧ q.value = p.value := by
  simp only [ready, bind_eq_ok] at h
  obtain ⟨c, -, h⟩ := h
  split at h
  · exact getline_spec h
  · simp only [bind_eq_ok] at h
    obtain ⟨_, -, _, -, h⟩ := h
    split at h
    · exact getline_spec h
    · simp only [pure_eq_ok, Option.some.injEq] at h
      subst h
      exact ⟨hp, rfl⟩

theorem finish_spec {p p' : Parser} {token : Token} {t : Option Token} {b : Nat}
    (h : finish p token b = .ok (t, p')) :
    t = some token ∧ p'.value = p.value ∧ p'.Trimmed := by
  simp only [finish, bind_eq_ok, pure_eq_ok, inBounds_eq_ok, Prod.mk.injEq] at h
  obtain ⟨b', hb, e, he, buffer, hput, rfl, rfl⟩ := h
  refine ⟨rfl, rfl, trimmed_put ?_ (by simp) hput⟩
  obtain ⟨-, rfl⟩ := Buffer.scan_eq_some.mp hb
  obtain ⟨-, rfl⟩ := Buffer.scan_eq_some.mp he
  rw [Buffer.slice_span]
  -- the first byte of the rest is where the pointer over blanks stopped
  have hstop := Buffer.get_scan (b := p.buffer) isspace b
  cases hrest : p.buffer.span (fun _ => true) (b + (p.buffer.span isspace b).length) with
  | nil => simp [isspace]
  | cons c l =>
    rw [Buffer.get_of_span_cons hrest] at hstop
    rcases hstop with rfl | hc
    · simp [isspace]
    · simpa using hc

/-! ## Tokens that are no numbers -/

/-- What every branch of the lexer but one returns. -/
def Plain (r : Option Token × Parser) : Prop :=
  r.1 ≠ some .number ∧ (r.1.isSome → r.2.Trimmed)

theorem finish_plain {p : Parser} {token : Token} {b : Nat} {r : Option Token × Parser}
    (htoken : token ≠ .number) (h : finish p token b = .ok r) : Plain r := by
  obtain ⟨t, p'⟩ := r
  obtain ⟨rfl, -, htrim⟩ := finish_spec h
  exact ⟨by simpa using htoken, fun _ => htrim⟩

theorem lexQuoted_plain {p : Parser} {b : Nat} {r : Option Token × Parser}
    (h : lexQuoted p b = .ok r) : Plain r := by
  simp only [lexQuoted, bind_eq_ok] at h
  obtain ⟨c, -, h⟩ := h
  split at h
  · simp only [bind_eq_ok] at h
    obtain ⟨_, -, _, -, h⟩ := h
    exact finish_plain (by simp) h
  · simp only [pure_eq_ok] at h
    subst h
    exact ⟨by simp, by simp⟩

theorem lexName_plain {sigil : UInt8} {token : Token}
    {next : Nat → Except Fault (Option Token × Parser)} {p : Parser} {a b : Nat}
    {r : Option Token × Parser} (htoken : token ≠ .number)
    (hnext : ∀ {b r}, next b = .ok r → Plain r) (h : lexName sigil token next p a b = .ok r) :
    Plain r := by
  simp only [lexName, bind_eq_ok] at h
  obtain ⟨c, -, h⟩ := h
  split at h
  · simp only [bind_eq_ok] at h
    obtain ⟨e, -, c, -, h⟩ := h
    split at h
    · simp only [bind_eq_ok] at h
      obtain ⟨_, -, _, -, h⟩ := h
      exact finish_plain htoken h
    · exact hnext h
  · exact hnext h

theorem lexSigil_plain {p : Parser} {a b : Nat} {r : Option Token × Parser}
    (h : lexSigil p a b = .ok r) : Plain r :=
  lexName_plain (by simp) (lexName_plain (by simp) lexQuoted_plain) h

theorem lexWord_plain {p : Parser} {a b : Nat} {r : Option Token × Parser}
    (h : lexWord p a b = .ok r) : Plain r := by
  simp only [lexWord, bind_eq_ok] at h
  obtain ⟨c, -, h⟩ := h
  split at h
  · simp only [bind_eq_ok] at h
    obtain ⟨e, -, c, -, h⟩ := h
    split at h
    · simp only [bind_eq_ok] at h
      obtain ⟨_, -, _, -, h⟩ := h
      split at h
      · exact finish_plain (by simp) h
      · simp only [bind_eq_ok] at h
        obtain ⟨_, -, h⟩ := h
        exact finish_plain (by simp) h
    · exact lexSigil_plain h
  · exact lexSigil_plain h

theorem lexMatch_plain {p : Parser} {a : Nat} {r : Option Token × Parser}
    (h : lexMatch p a = .ok r) : Plain r := by
  simp only [lexMatch, bind_eq_ok] at h
  obtain ⟨c, -, h⟩ := h
  split at h
  · simp only [pure_eq_ok] at h
    subst h
    exact ⟨by simp, by simp⟩
  · simp only [bind_eq_ok] at h
    obtain ⟨_, -, _, -, h⟩ := h
    exact finish_plain (by simp) h

theorem lexText_plain {p : Parser} {a b : Nat} {r : Option Token × Parser}
    (h : lexText p a b = .ok r) : Plain r := by
  simp only [lexText, bind_eq_ok] at h
  obtain ⟨c, -, h⟩ := h
  split at h
  · simp only [bind_eq_ok] at h
    obtain ⟨c, -, h⟩ := h
    split at h
    · exact lexMatch_plain h
    · exact lexWord_plain h
  · exact lexWord_plain h

/-! ## Numbers -/

/-- A number is the run of digits, written over what `value` held. -/
structure Numbered (p : Parser) (a : Nat) (p' : Parser) : Prop where
  value : p.value.put 0 (p.buffer.slice 0 (a + (p.buffer.span isdigit a).length)) = some p'.value
  inside : a + (p.buffer.span isdigit a).length < LINE_BUF_SIZE
  trimmed : p'.Trimmed

theorem lexNumber_spec {p p' : Parser} {a : Nat} {t : Option Token}
    (h : lexNumber p a = .ok (t, p')) :
    Plain (t, p') ∨ t = some .number ∧ Numbered p a p' := by
  simp only [lexNumber, bind_eq_ok, inBounds_eq_ok] at h
  obtain ⟨b, hb, c, -, h⟩ := h
  split at h
  · simp only [bind_eq_ok, inBounds_eq_ok] at h
    obtain ⟨value, hvalue, h⟩ := h
    obtain ⟨rfl, hv, htrim⟩ := finish_spec h
    obtain ⟨hlt, rfl⟩ := Buffer.scan_eq_some.mp hb
    exact .inr ⟨rfl, hv ▸ hvalue, hlt, htrim⟩
  · split at h
    · simp only [bind_eq_ok, inBounds_eq_ok] at h
      obtain ⟨_, -, _, -, _, -, h⟩ := h
      exact .inl (finish_plain (by simp) h)
    · exact .inl (lexText_plain h)

theorem lexToken_spec {p p' : Parser} {t : Option Token} (h : lexToken p = .ok (t, p')) :
    Plain (t, p') ∨ t = some .number ∧ ∃ value, p.value.put 0 [0] = some value ∧
      isdigit (p.buffer.get (p.buffer.span isspace 0).length) ∧
      Numbered { p with value := value } (p.buffer.span isspace 0).length p' := by
  simp only [lexToken, bind_eq_ok, inBounds_eq_ok] at h
  obtain ⟨value, hvalue, a, ha, c, hc, h⟩ := h
  obtain ⟨-, rfl⟩ := Buffer.scan_eq_some.mp ha
  obtain ⟨-, rfl⟩ := Buffer.read_eq_some.mp hc
  simp only [Nat.zero_add] at h hc
  split at h
  · exact .inl (finish_plain (by simp) h)
  split at h
  · exact .inl (finish_plain (by simp) h)
  split at h
  · case isTrue hdigit =>
      rcases lexNumber_spec h with hplain | ⟨rfl, hnum⟩
      · exact .inl hplain
      · exact .inr ⟨rfl, value, hvalue, hdigit, hnum⟩
  · exact .inl (lexText_plain h)

theorem lex_trimmed {p p' : Parser} {token : Token} (h : lex p = .ok (some token, p')) :
    p'.Trimmed := by
  simp only [lex, bind_eq_ok] at h
  obtain ⟨r, -, h⟩ := h
  cases r with
  | none => simp [pure_eq_ok] at h
  | some q =>
    rcases lexToken_spec h with hplain | ⟨-, value, -, -, hnum⟩
    · exact hplain.2 rfl
    · exact hnum.trimmed

theorem Parser.Reached.trimmed {file : List UInt8} {p : Parser} (h : p.Reached file) :
    p.Trimmed := by
  cases h with
  | start => rfl
  | lex hp h => exact lex_trimmed h

/-- The text a numeric token leaves in `value`. -/
theorem lex_number {p p' : Parser} (hp : p.Trimmed) (h : lex p = .ok (some .number, p')) :
    p.nextDigits ≠ [] ∧ p.nextDigits.length < LINE_BUF_SIZE ∧
      p'.value.bytes = p.nextDigits ++ p.value.bytes.drop p.nextDigits.length := by
  simp only [lex, bind_eq_ok] at h
  obtain ⟨r, hr, h⟩ := h
  cases r with
  | none => simp [pure_eq_ok] at h
  | some q =>
    obtain ⟨hq, hvalue⟩ := ready_spec hp hr
    rcases lexToken_spec h with hplain | ⟨-, value, hzero, hdigit, hnum⟩
    · exact absurd rfl hplain.1
    have hblank : q.buffer.span isspace 0 = [] := by
      cases hs : q.buffer.span isspace 0 with
      | nil => rfl
      | cons c l =>
        have hspace := (Buffer.mem_span (b := q.buffer) (hs ▸ List.mem_cons_self)).2
        rw [← Buffer.get_of_span_cons hs, show isspace _ = false from hq] at hspace
        cases hspace
    have hnext : p.nextDigits = q.buffer.span isdigit 0 := by
      simp [Parser.nextDigits, hr, hblank]
    simp only [hblank, List.length_nil] at hdigit hnum
    obtain ⟨hput, hlt, -⟩ := hnum
    simp only [Nat.zero_add] at hlt
    rw [Buffer.slice_span, ← hnext] at hput
    have hne : p.nextDigits ≠ [] := by
      intro hnil
      have hstop := Buffer.get_scan (b := q.buffer) isdigit 0
      rw [← hnext, hnil] at hstop
      rcases hstop with h0 | h0
      · simp only [List.length_nil, Nat.add_zero] at h0
        rw [h0] at hdigit
        cases hdigit
      · simp [hdigit] at h0
    refine ⟨hne, hnext ▸ hlt, ?_⟩
    rw [Buffer.put_zero hput, Buffer.put_zero hzero, hvalue]
    obtain ⟨n, hn⟩ := Nat.exists_eq_succ_of_ne_zero (List.length_pos_iff.mpr hne).ne'
    simp [hn]

theorem nextDigits_digits (p : Parser) : ∀ c ∈ p.nextDigits, c ≠ 0 ∧ isdigit c = true := by
  intro c hc
  unfold Parser.nextDigits at hc
  split at hc
  · exact Buffer.mem_span hc
  · simp at hc

/-- What the token left in `value` is the run of digits that was lexed, and `atoi` reads the
number they write. -/
def Parser.NumberExact (p p' : Parser) : Prop :=
  ∃ s, p'.text = .ok s ∧ s.bytes = p.nextDigits ∧
    (digitsValue p.nextDigits < 2 ^ 31 → (atoi s).toInt = digitsValue p.nextDigits)

/-- Wherever the lexer returns a number, it says what is written there if and only if
`value` already ended behind that many bytes. -/
theorem number_exact_iff {file : List UInt8} {p p' : Parser} (hp : p.Reached file)
    (h : lex p = .ok (some .number, p')) :
    p.NumberExact p' ↔ p.value.get p.nextDigits.length = 0 := by
  obtain ⟨-, hlt, hbytes⟩ := lex_number hp.trimmed h
  have hdigits := nextDigits_digits p
  have hstr := Buffer.str_eq_iff hbytes (fun h0 => (hdigits 0 h0).1 rfl) hlt
  have hget : p.value.get p.nextDigits.length =
      (p.value.bytes.drop p.nextDigits.length).head?.getD 0 := by
    rw [List.head?_drop, Buffer.get]
  rw [hget, ← hstr]
  simp only [Parser.NumberExact, Parser.text, orFault_eq_ok, inBounds_eq_ok]
  constructor
  · rintro ⟨s, hs, hsl, -⟩
    exact ⟨s, hs, hsl⟩
  · rintro ⟨s, hs, hsl⟩
    refine ⟨s, hs, hsl, fun hrange => ?_⟩
    rw [← hsl] at hrange ⊢
    exact atoi_digits (fun c hc => (hdigits c (hsl ▸ hc)).2) hrange

theorem number_exact_sweep : ∃ p p', p.Reached (CString.ascii "sweep 60\n") ∧
    lex p = .ok (some .number, p') ∧
      (p.NumberExact p' ↔ p.value.get p.nextDigits.length = 0) := by
  have h : (do
      let r₁ ← lex (.open (CString.ascii "sweep 60\n"))
      let r₂ ← lex r₁.2
      return (r₁.1, r₂.1)) = .ok (some (.keyword .sweep), some .number) := by decide +kernel
  simp only [bind_eq_ok, pure_eq_ok, Prod.mk.injEq] at h
  obtain ⟨⟨_, p₁⟩, h₁, ⟨_, p₂⟩, h₂, rfl, rfl⟩ := h
  have hp : p₁.Reached (CString.ascii "sweep 60\n") := .lex .start h₁
  exact ⟨p₁, p₂, hp, h₂, number_exact_iff hp h₂⟩

/-- A shorter number after a longer one keeps the tail of the longer one: 4 is read as 40. -/
theorem number_keeps_tail : ∃ p p', p.Reached (CString.ascii "sweep 60\nsave.size 4\n") ∧
    lex p = .ok (some .number, p') ∧ p.nextDigits = CString.ascii "4" ∧
      p'.text = .ok (.lit "40") ∧ ¬p.NumberExact p' := by
  have h : (do
      let r₁ ← lex (.open (CString.ascii "sweep 60\nsave.size 4\n"))
      let r₂ ← lex r₁.2
      let r₃ ← lex r₂.2
      let r₄ ← lex r₃.2
      return ([r₁.1, r₂.1, r₃.1, r₄.1], r₃.2.nextDigits, r₄.2.value.str 0)) =
        .ok ([some (.keyword .sweep), some .number, some (.keyword .saveSize), some .number],
          CString.ascii "4", some (.lit "40")) := by decide +kernel
  simp only [bind_eq_ok, pure_eq_ok, Prod.mk.injEq, List.cons.injEq, and_true] at h
  obtain ⟨⟨_, p₁⟩, h₁, ⟨_, p₂⟩, h₂, ⟨_, p₃⟩, h₃, ⟨_, p₄⟩, h₄, ⟨rfl, rfl, rfl, rfl⟩, hdigits,
    hstr⟩ := h
  have htext : p₄.text = .ok (.lit "40") := by
    rw [Parser.text, orFault_eq_ok, inBounds_eq_ok]
    exact hstr
  refine ⟨p₃, p₄, .lex (.lex (.lex .start h₁) h₂) h₃, h₄, hdigits, htext, ?_⟩
  rintro ⟨s, hs, hbytes, -⟩
  obtain rfl := Except.ok.inj (htext.symm.trans hs)
  rw [hdigits] at hbytes
  revert hbytes
  decide

end Bolo
