import Bolo.Config.Configure
import Bolo.Config.Layout

/-!
# Lines as tokens

What the parser returns for the rest of a file, token by token. A token is given with the bytes
that are written to `value` for it. A number is copied there without a terminator, so what it
is read as also depends on what earlier tokens have left in `value`, which `Sees` keeps track
of.
-/
namespace Bolo

open Library

/-- A token, and what is written to `value` for it. -/
abbrev Lexeme := Token × List UInt8

/-- The bytes in `value` after a token. -/
def leave (left : List UInt8) (x : Lexeme) : List UInt8 := x.2 ++ (0 :: left.tail).drop x.2.length

/-- A text is a sequence of tokens, each of them determined by the text. A comment may follow. -/
inductive Yields : List UInt8 → List Lexeme → Prop
  | idle {w : List UInt8} : Idle w → Yields w []
  | cons {w v r : List UInt8} {e : Ending} {t : Token} {xs : List Lexeme} :
      lexeme w = .token e t v r → e ≠ .word → Yields r xs → Yields w ((t, v) :: xs)

/-- A line of a file and its tokens: none if it is blank or a comment. -/
structure Spells (l : List UInt8) (xs : List Lexeme) : Prop where
  clean : Clean l
  yields : Yields (skip (l ++ [NEWLINE])) xs

/-- What the parser is going to return, and what stands in `value`. -/
structure Parser.Sees (p : Parser) (left : List UInt8) (xs : List Lexeme) : Prop where
  value : p.value.bytes = left
  short : left.length < LINE_BUF_SIZE
  eof : p.eof = false
  text : ∃ w ys lines zs, p.Has w ∧ w.length + 1 < LINE_BUF_SIZE ∧ Yields w ys ∧
    p.lines = ended lines ∧ List.Forall₂ Spells lines zs ∧ xs = ys ++ zs.flatten

/-- The tokens of a text, for as long as the fuel lasts. -/
def lexemes : Nat → List UInt8 → Option (List Lexeme)
  | 0, w => if Idle w then some [] else none
  | fuel + 1, w =>
    if Idle w then some []
    else
      match lexeme w with
      | .token .closed t v r | .token .line t v r => (lexemes fuel r).map ((t, v) :: ·)
      | _ => none

theorem yields_of_lexemes {fuel : Nat} {w : List UInt8} {xs : List Lexeme}
    (h : lexemes fuel w = some xs) : Yields w xs := by
  fun_induction lexemes fuel w generalizing xs with
  | case1 w hidle | case3 fuel w hidle =>
    obtain rfl := Option.some.inj h
    exact .idle hidle
  | case2 => cases h
  | case4 fuel w hidle t v r hw ih | case5 fuel w hidle t v r hw ih =>
    obtain ⟨ys, hys, rfl⟩ := Option.map_eq_some_iff.mp h
    exact .cons hw (by simp) (ih hys)
  | case6 => cases h

/-- The tokens of a line. -/
def lineLexemes (l : List UInt8) : Option (List Lexeme) :=
  if 0 ∈ l ∨ NEWLINE ∈ l ∨ 8190 ≤ l.length then none
  else lexemes (l.length + 1) (skip (l ++ [NEWLINE]))

theorem spells_of_lineLexemes {l : List UInt8} {xs : List Lexeme} (h : lineLexemes l = some xs) :
    Spells l xs := by
  unfold lineLexemes at h
  split at h
  · cases h
  · case isFalse hclean =>
    simp only [not_or, Nat.not_le] at hclean
    exact ⟨⟨hclean.1, hclean.2.1, hclean.2.2⟩, yields_of_lexemes h⟩

example : (lineLexemes (CString.ascii "listener x # all interfaces")).map (·.map Prod.fst) =
    some [.keyword .listener, .string] := by
  decide +kernel

/-! ## Lengths -/

theorem length_escaped_le {stop : UInt8 → Bool} {q text rest : List UInt8} {keep : List UInt8}
    (h : escaped stop keep q = some (text, rest)) (hkeep : keep.length ≤ 1) :
    text.length + rest.length ≤ q.length := by
  fun_induction escaped stop keep q generalizing text rest with
  | case1 | case2 => grind
  | case3 => cases h
  | case4 d ds hstop ih =>
    obtain ⟨⟨text', rest'⟩, h', hr⟩ := Option.map_eq_some_iff.mp h
    have hlen := ih h'
    obtain ⟨rfl, rfl⟩ := Prod.mk.inj hr
    simp only [List.length_append, List.length_cons]
    omega
  | case5 c cs hstop hslash ih =>
    obtain ⟨⟨text', rest'⟩, h', hr⟩ := Option.map_eq_some_iff.mp h
    have hlen := ih h'
    obtain ⟨rfl, rfl⟩ := Prod.mk.inj hr
    simp only [List.length_cons]
    omega

theorem length_skip_le (l : List UInt8) : (skip l).length ≤ l.length := (skip_suffix l).length_le

/-- A token of a text with fewer than `n` bytes: what is written, and what is left. -/
def Lexed.Within (n : Nat) : Lexed → Prop
  | .token _ _ v r => v.length ≤ n ∧ r.length < n
  | _ => True

section Within

variable {n : Nat} {w r : List UInt8} (hw : w.length < n) (hr : r.length < n)

include hr in
theorem lexemeQuoted_within : (lexemeQuoted r).Within n := by
  unfold lexemeQuoted
  split
  · trivial
  · case h_2 c q =>
    rw [List.length_cons] at hr
    split
    · split
      · trivial
      · case h_2 text h =>
        have hlen := length_escaped_le h (by simp)
        simp only [Lexed.Within, List.length_append, List.length_cons, List.length_nil] at hlen ⊢
        omega
      · case h_3 text d rest h =>
        have hlen := length_escaped_le h (by simp)
        have hskip := length_skip_le (if d = 34 then rest else d :: rest)
        simp only [Lexed.Within, List.length_append, List.length_cons, List.length_nil] at hlen ⊢
        refine ⟨by omega, hskip.trans_lt ?_⟩
        split
        · omega
        · rw [List.length_cons]
          omega
    · trivial

theorem delimited_within {token : Token} {value tail : List UInt8} {otherwise : Lexed}
    (hvalue : value.length ≤ n) (htail : tail.length < n) (h : otherwise.Within n) :
    (delimited token value otherwise tail).Within n := by
  unfold delimited
  split
  · exact ⟨hvalue, htail⟩
  · case h_2 d tail =>
    have hskip := length_skip_le tail
    rw [List.length_cons] at htail
    split
    · exact ⟨hvalue, by omega⟩
    · exact h

include hw in
theorem before_within (tail : List UInt8) : (before w tail ++ [0]).length ≤ n := by
  simp only [before, List.length_append, List.length_take, List.length_singleton]
  omega

theorem dropWhile_within {c : UInt8} {q : List UInt8} (h : (c :: q).length < n)
    (f : UInt8 → Bool) : (q.dropWhile f).length < n := by
  have hle := (List.dropWhile_suffix f (l := q)).length_le
  rw [List.length_cons] at h
  omega

include hw hr in
theorem lexemeName_within {sigil : UInt8} {token : Token} {next : List UInt8 → Lexed}
    (hnext : ∀ r : List UInt8, r.length < n → (next r).Within n) :
    (lexemeName sigil token next w r).Within n := by
  unfold lexemeName
  split
  · exact hnext _ hr
  · split
    · exact delimited_within (before_within hw _) (dropWhile_within hr _) (hnext w hw)
    · exact hnext _ hr

include hw hr in
theorem lexemeSigil_within : (lexemeSigil w r).Within n :=
  lexemeName_within hw hr fun _ h => lexemeName_within hw h fun _ h => lexemeQuoted_within h

include hw hr in
theorem lexemeWord_within : (lexemeWord w r).Within n := by
  unfold lexemeWord
  split
  · exact lexemeSigil_within hw hr
  · split
    · refine delimited_within ?_ (dropWhile_within hr _) (lexemeSigil_within hw hw)
      unfold wordToken
      split
      · simp
      · exact before_within hw _
    · exact lexemeSigil_within hw hr

include hr in
theorem lexemeMatch_within : (lexemeMatch r).Within n := by
  unfold lexemeMatch
  split
  · trivial
  · trivial
  · case h_3 text c rest h =>
    have hlen := length_escaped_le h (by simp)
    have hskip := length_skip_le rest
    rw [List.length_cons] at hlen
    split
    · simp only [Lexed.Within, List.length_append, List.length_singleton]
      omega
    · trivial

include hw hr in
theorem lexemeText_within : (lexemeText w r).Within n := by
  unfold lexemeText
  split
  · exact lexemeWord_within hw hr
  · case h_2 c q =>
    split
    · split
      · refine lexemeMatch_within ?_
        simp only [List.length_cons, List.length_tail] at hr ⊢
        omega
      · exact lexemeWord_within hw hw
    · exact lexemeWord_within hw hr

include hw in
theorem lexemeNumber_within (hn : 12 ≤ n) : (lexemeNumber w).Within n := by
  have htake : (w.takeWhile isdigit).length ≤ n :=
    ((List.takeWhile_prefix _).length_le.trans_lt hw).le
  have hdrop := (List.dropWhile_suffix isdigit (l := w)).length_le
  unfold lexemeNumber
  split
  · exact ⟨htake, by simp only [List.length_nil]; omega⟩
  · case h_2 c r hrest =>
    have hskip := length_skip_le r
    rw [hrest, List.length_cons] at hdrop
    split
    · exact ⟨htake, by omega⟩
    · split
      · case h_1 mult _ =>
        have hlow := (atoi (.ofBytes (w.takeWhile isdigit)) * mult).le_toInt
        have hhigh := (atoi (.ofBytes (w.takeWhile isdigit)) * mult).toInt_lt
        have hlen := length_decimalInt_le (e := 10)
          (n := (atoi (.ofBytes (w.takeWhile isdigit)) * mult).toInt) (by omega) (by omega)
        rw [CString.length] at hlen
        simp only [Lexed.Within, List.length_append, List.length_singleton, List.length_nil]
        omega
      · exact lexemeText_within hw (by rw [List.length_cons]; omega)

include hw in
theorem lexeme_within (hn : 12 ≤ n) : (lexeme w).Within n := by
  unfold lexeme
  split
  · trivial
  · case h_2 c q =>
    have hskip := length_skip_le q
    have hq := hw
    rw [List.length_cons] at hq
    split
    · exact ⟨Nat.zero_le n, by omega⟩
    split
    · exact ⟨Nat.zero_le n, by omega⟩
    split
    · exact lexemeNumber_within hw hn
    · exact lexemeText_within hw hw

end Within

/-! ## The next token -/

theorem Idle.skip_eq {w : List UInt8} (h : Idle w) : skip w = w := by
  rcases h with rfl | h
  · rfl
  · obtain ⟨q, rfl⟩ := List.head?_eq_some_iff.mp h
    rfl

theorem Yields.skip_eq {w : List UInt8} {xs : List Lexeme} (h : Yields w xs) : skip w = w := by
  cases h with
  | idle hidle => exact hidle.skip_eq
  | cons hw _ _ => simpa using (lexeme_start hw []).1

theorem length_leave_lt {left v : List UInt8} {t : Token} (hleft : left.length < LINE_BUF_SIZE)
    (hv : v.length < LINE_BUF_SIZE) : (leave left (t, v)).length < LINE_BUF_SIZE := by
  simp only [leave, LINE_BUF_SIZE, List.length_append, List.length_drop, List.length_cons,
    List.length_tail] at *
  omega

/-- The token at the front of the text. -/
theorem lexToken_front {p : Parser} {w v r : List UInt8} {e : Ending} {t : Token} (hp : p.Has w)
    (hw : lexeme w = .token e t v r) (he : e ≠ .word) :
    ∃ p', lexToken p = .ok (some t, p') ∧ p'.Has r ∧
      p'.value.bytes = leave p.value.bytes (t, v) ∧ p'.lines = p.lines ∧ p'.eof = p.eof := by
  obtain ⟨value, p', hput, hlex, hhas, hput', hop⟩ :=
    lexToken_token hp hw fun hword => absurd hword he
  refine ⟨p', hlex, hhas he, ?_, hop.lines, hop.eof⟩
  rw [Buffer.put_zero hput', Buffer.put_zero hput, leave]
  simp

theorem ended_cons (l : List UInt8) (lines : List (List UInt8)) :
    ended (l :: lines) = (l ++ [NEWLINE]) :: ended lines := rfl

/-- The first token of the lines to come. -/
theorem getline_spells {lines : List (List UInt8)} {zs : List (List Lexeme)}
    (h : List.Forall₂ Spells lines zs) (p : Parser) :
    (zs.flatten = [] ∧ getline p (ended lines) = .ok none) ∨
      ∃ p' w ys lines' zs', getline p (ended lines) = .ok (some p') ∧ p'.Has w ∧
        w.length + 1 < LINE_BUF_SIZE ∧ Yields w ys ∧ ys ≠ [] ∧ p'.lines = ended lines' ∧
        List.Forall₂ Spells lines' zs' ∧ zs.flatten = ys ++ zs'.flatten ∧
        p'.value = p.value ∧ p'.eof = false := by
  induction h with
  | nil => exact .inl ⟨rfl, rfl⟩
  | @cons l xs lines zs hl hrest ih =>
    have hline := getline_line (p := p) (x := [NEWLINE]) (ended lines) hl.clean.nulFree
      hl.clean.single (.inr rfl) hl.clean.short
    have hlen : (skip (l ++ [NEWLINE])).length + 1 < LINE_BUF_SIZE := by
      have hskip := length_skip_le (l ++ [NEWLINE])
      have hshort := hl.clean.short
      rw [List.length_append, List.length_singleton] at hskip
      simp only [LINE_BUF_SIZE]
      omega
    rw [ended_cons, List.flatten_cons]
    have hyields := hl.yields
    generalize skip (l ++ [NEWLINE]) = w at hyields hline hlen
    cases hyields with
    | idle hidle =>
      rw [hline.1 hidle]
      exact ih
    | @cons _ v r e t ys hlexeme he hys =>
      have hidle : ¬Idle w := by simpa using (lexeme_start hlexeme []).2
      obtain ⟨p', hget, hhas, hvalue, hlines, heof⟩ := hline.2 hidle
      exact .inr ⟨p', w, (t, v) :: ys, lines, zs, hget, hhas, hlen, .cons hlexeme he hys, by simp,
        hlines, hrest, rfl, hvalue, heof.trans (reachesEof_newline l)⟩

/-- The parser returns the first token of its text. -/
theorem lexToken_sees {p : Parser} {w : List UInt8} {y : Lexeme} {ys : List Lexeme}
    {lines : List (List UInt8)} {zs : List (List Lexeme)} (hhas : p.Has w)
    (hlen : w.length + 1 < LINE_BUF_SIZE) (hyields : Yields w (y :: ys))
    (hlines : p.lines = ended lines) (hspells : List.Forall₂ Spells lines zs)
    (hshort : p.value.bytes.length < LINE_BUF_SIZE) (heof : p.eof = false) :
    ∃ p', lexToken p = .ok (some y.1, p') ∧
      p'.Sees (leave p.value.bytes y) (ys ++ zs.flatten) := by
  cases hyields with
  | @cons _ v r e t _ hw he hys =>
    obtain ⟨p', hlex, hhas', hvalue, hlines', heof'⟩ := lexToken_front hhas hw he
    have hwithin := lexeme_within (n := LINE_BUF_SIZE - 1) (w := w) (by omega) (by decide)
    rw [hw] at hwithin
    obtain ⟨hv, hr⟩ := hwithin
    have hpos : 0 < LINE_BUF_SIZE := by decide
    exact ⟨p', hlex, hvalue, length_leave_lt hshort (by omega), heof'.trans heof, r, ys, lines, zs,
      hhas', by omega, hys, hlines'.trans hlines, hspells, rfl⟩

namespace Parser.Sees

variable {p : Parser} {left : List UInt8}

/-- The parser returns what it sees. -/
theorem lex_cons {x : Lexeme} {xs : List Lexeme} (h : p.Sees left (x :: xs)) :
    ∃ p', lex p = .ok (some x.1, p') ∧ p'.Sees (leave left x) xs := by
  obtain ⟨rfl, hshort, heof, w, ys, lines, zs, hhas, hlen, hyields, hlines, hspells, hxs⟩ := h
  have hready := ready_text hhas hyields.skip_eq
  cases hyields with
  | idle hidle =>
    rw [if_pos hidle, hlines] at hready
    rcases getline_spells hspells p with ⟨hnil, -⟩ | ⟨p₁, w, ys, lines', zs', hget, hhas₁, hlen₁,
      hyields₁, hne, hlines₁, hspells₁, hflat, hvalue₁, heof₁⟩
    · rw [List.nil_append, hnil] at hxs
      cases hxs
    · obtain ⟨y, ys, rfl⟩ := List.exists_cons_of_ne_nil hne
      rw [List.nil_append, hflat, List.cons_append] at hxs
      obtain ⟨rfl, rfl⟩ := List.cons.inj hxs
      rw [← hvalue₁] at hshort ⊢
      obtain ⟨p', hlex, hsees⟩ :=
        lexToken_sees hhas₁ hlen₁ hyields₁ hlines₁ hspells₁ hshort heof₁
      refine ⟨p', ?_, hsees⟩
      rw [lex, hready, hget, ok_bind]
      exact hlex
  | @cons _ v r e t ys hw he hys =>
    have hidle : ¬Idle w := by simpa using (lexeme_start hw []).2
    rw [if_neg hidle] at hready
    rw [List.cons_append] at hxs
    obtain ⟨rfl, rfl⟩ := List.cons.inj hxs
    obtain ⟨p', hlex, hsees⟩ :=
      lexToken_sees hhas hlen (.cons hw he hys) hlines hspells hshort heof
    refine ⟨p', ?_, hsees⟩
    rw [lex, hready, ok_bind]
    exact hlex

/-- Where nothing is left to see, the file ends. -/
theorem lex_nil (h : p.Sees left []) : ∃ p', lex p = .ok (none, p') ∧ p'.eof = true := by
  obtain ⟨rfl, hshort, heof, w, ys, lines, zs, hhas, hlen, hyields, hlines, hspells, hxs⟩ := h
  obtain ⟨rfl, hnil⟩ := List.append_eq_nil_iff.mp hxs.symm
  have hready := ready_text hhas hyields.skip_eq
  cases hyields with
  | idle hidle =>
  rw [if_pos hidle, hlines] at hready
  rcases getline_spells hspells p with ⟨-, hget⟩ | ⟨p₁, w, ys, lines', zs', -, -, -, -, hne, -, -,
    hflat, -⟩
  · refine ⟨{ p with lines := [], eof := true }, ?_, rfl⟩
    rw [lex, hready, hget, ok_bind]
    rfl
  · rw [hnil] at hflat
    exact absurd (List.append_eq_nil_iff.mp hflat.symm).1 hne

/-- The macro `NEXT`. -/
theorem next {x : Lexeme} {xs : List Lexeme} (h : p.Sees left (x :: xs)) :
    ∃ p', Bolo.next p = .ok (x.1, p') ∧ p'.Sees (leave left x) xs := by
  obtain ⟨p', hlex, hsees⟩ := h.lex_cons
  refine ⟨p', ?_, hsees⟩
  simp only [Bolo.next, hlex]
  rfl

/-- The string in `value`. -/
theorem text_eq {xs : List Lexeme} (h : p.Sees left xs) : p.text = .ok (.ofBytes left) := by
  have hspan : (p.value.span (fun _ => true) 0).length < LINE_BUF_SIZE := by
    have hle := (p.value.span_prefix (fun _ => true) 0).length_le
    rw [List.drop_zero, h.value] at hle
    exact hle.trans_lt h.short
  simp [Parser.text, Buffer.str, Buffer.scan, hspan, h.value, orFault]

end Parser.Sees

/-! ## Strings and numbers -/

/-- A token that leaves a string in `value`. -/
def closed (t : Token) (u : CString) : Lexeme := (t, u.bytes ++ [0])

theorem ofBytes_closed (left : List UInt8) (t : Token) (u : CString) :
    CString.ofBytes (leave left (closed t u)) = u := by
  apply CString.ext
  simp only [leave, closed, List.append_assoc]
  rw [CString.bytes_ofBytes_append u.nulFree]
  simp [CString.ofBytes]

/-- A number as it is written. -/
structure Digits where
  text : List UInt8
  ne : text ≠ []
  digits : ∀ b ∈ text, isdigit b

/-- What a number means. -/
def Digits.value (n : Digits) : Int32 := atoi (.ofBytes n.text)

/-- No digit has been left behind the number. -/
def Unclouded (left digits : List UInt8) : Prop :=
  (left.drop digits.length).head?.any isdigit = false
  deriving Decidable

theorem Digits.nulFree (n : Digits) : 0 ∉ n.text := by
  intro h
  exact absurd (n.digits 0 h) (by decide)

theorem Digits.atoi_leave (n : Digits) {left : List UInt8} (h : Unclouded left n.text) :
    atoi (.ofBytes (leave left (.number, n.text))) = n.value := by
  have hdrop : (0 :: left.tail).drop n.text.length = left.drop n.text.length := by
    cases hlen : n.text with
    | nil => exact absurd hlen n.ne
    | cons b d => cases left <;> simp
  have hstale : ∀ c ∈ (CString.ofBytes (left.drop n.text.length)).bytes.head?,
      isdigit c = false := by
    intro c hc
    cases hrest : left.drop n.text.length with
    | nil => simp [hrest, CString.ofBytes] at hc
    | cons b l =>
      rw [hrest] at hc
      by_cases hb : b = 0
      · simp [CString.ofBytes, hb] at hc
      · obtain rfl : b = c := by simpa [CString.ofBytes, hb] using hc
        simpa [Unclouded, hrest] using h
  have hself : scanNumber (CString.ofBytes n.text).bytes = (false, n.text) := by
    rw [CString.bytes_ofBytes n.nulFree, scanNumber_digits n.digits]
  simp only [Digits.value, atoi, strtol, hself]
  rw [leave, hdrop, CString.bytes_ofBytes_append n.nulFree, scanNumber_append n.ne n.digits hstale]

/-! ## Expected tokens -/

namespace Parser.Sees

variable {p : Parser} {left : List UInt8} {xs : List Lexeme}

/-- A token with a string, and the string. -/
theorem next_closed {t : Token} {u : CString} (h : p.Sees left (closed t u :: xs)) :
    ∃ p', (Bolo.next p = .ok (t, p') ∧ p'.text = .ok u) ∧
      p'.Sees (leave left (closed t u)) xs := by
  obtain ⟨p', hnext, hsees⟩ := h.next
  exact ⟨p', ⟨hnext, by rw [hsees.text_eq, ofBytes_closed]⟩, hsees⟩

theorem expect_token {x : Lexeme} (h : p.Sees left (x :: xs)) :
    ∃ s p', expect x.1 p = .ok (s, p') ∧ p'.Sees (leave left x) xs := by
  obtain ⟨p', hnext, hsees⟩ := h.next
  refine ⟨.ofBytes (leave left x), p', ?_, hsees⟩
  simp only [expect, hnext, ok_bind, if_true, hsees.text_eq]
  rfl

theorem expect_closed {t : Token} {u : CString} (h : p.Sees left (closed t u :: xs)) :
    ∃ p', expect t p = .ok (u, p') ∧ p'.Sees (leave left (closed t u)) xs := by
  obtain ⟨p', hnext, hsees⟩ := h.next_closed
  refine ⟨p', ?_, hsees⟩
  simp only [expect, hnext.1, hnext.2, ok_bind, if_true]
  rfl

theorem expectNumber {n : Digits} (h : p.Sees left ((.number, n.text) :: xs))
    (hclear : Unclouded left n.text) :
    ∃ p', Bolo.expectNumber p = .ok (n.value, p') ∧ p'.Sees (leave left (.number, n.text)) xs := by
  obtain ⟨p', hnext, hsees⟩ := h.next
  refine ⟨p', ?_, hsees⟩
  simp only [Bolo.expectNumber, expect, hnext, ok_bind, if_true, hsees.text_eq]
  rw [← n.atoi_leave hclear]
  rfl

end Parser.Sees

end Bolo
