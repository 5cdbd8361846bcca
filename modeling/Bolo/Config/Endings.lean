import Bolo.Config.Lexemes

/-!
# What follows a token

The first token of a text stays what it is when a blank and more text follow, unless it takes the
rest of its line: a time does, and so does a string without a closing quote, which ends at a
newline. In a line with its newline no token is ended by the terminator.
-/
namespace Bolo

open Library

/-! ## Text after a blank -/

theorem skip_append (l x : List UInt8) : skip (skip l ++ x) = skip (l ++ x) := by
  induction l with
  | nil => rfl
  | cons c l ih =>
    cases hc : isspace c with
    | true => rw [skip_cons hc, ih, List.cons_append, skip_cons hc]
    | false =>
      have hskip : skip (c :: l) = c :: l := List.dropWhile_cons_of_neg (by simp [hc])
      rw [hskip]

theorem skip_skip (l : List UInt8) : skip (skip l) = skip l := by
  simpa using skip_append l []

section Blank

variable {b : UInt8} {y : List UInt8}

theorem dropWhile_append_blank {f : UInt8 → Bool} (hf : f b = false) (l : List UInt8) :
    (l ++ b :: y).dropWhile f = l.dropWhile f ++ b :: y := by
  induction l with
  | nil => simp [hf]
  | cons c l ih => grind [List.dropWhile_cons]

theorem takeWhile_append_blank {f : UInt8 → Bool} (hf : f b = false) (l : List UInt8) :
    (l ++ b :: y).takeWhile f = l.takeWhile f := by
  induction l with
  | nil => simp [hf]
  | cons c l ih => grind [List.takeWhile_cons]

section Escapes

variable {stop : UInt8 → Bool} {keep : List UInt8} {c : UInt8}

theorem escaped_stop (hstop : stop c = true) (cs : List UInt8) :
    escaped stop keep (c :: cs) = some ([], c :: cs) := by
  rw [escaped.eq_def]
  simp [hstop]

theorem escaped_slash (hstop : ¬stop 92 = true) (d : UInt8) (ds : List UInt8) :
    escaped stop keep (92 :: d :: ds) =
      (escaped stop keep ds).map fun r => (keep ++ d :: r.1, r.2) := by
  rw [escaped.eq_def]
  simp [hstop]

theorem escaped_cons (hstop : ¬stop c = true) (hslash : c ≠ 92) (cs : List UInt8) :
    escaped stop keep (c :: cs) = (escaped stop keep cs).map fun r => (c :: r.1, r.2) := by
  rw [escaped.eq_def]
  simp [hstop, hslash]

/-- A text that ends before the end of `q` ends there whatever follows, and one that ends with
`q` does if a stop byte follows. -/
theorem escaped_append {q x text rest : List UInt8}
    (h : escaped stop keep q = some (text, rest)) (hx : rest = [] → ∃ b ∈ x.head?, stop b = true) :
    escaped stop keep (q ++ x) = some (text, rest ++ x) := by
  fun_induction escaped stop keep q generalizing text rest with
  | case1 =>
    obtain ⟨rfl, rfl⟩ := Prod.mk.inj (Option.some.inj h)
    obtain ⟨b, hb, hstop⟩ := hx rfl
    cases x with
    | nil => cases hb
    | cons c x =>
      obtain rfl : c = b := by simpa using hb
      exact escaped_stop hstop x
  | case2 c cs hstop =>
    obtain ⟨rfl, rfl⟩ := Prod.mk.inj (Option.some.inj h)
    exact escaped_stop hstop _
  | case3 => cases h
  | case4 d ds hstop ih =>
    obtain ⟨⟨text', rest'⟩, h', hr⟩ := Option.map_eq_some_iff.mp h
    obtain ⟨rfl, rfl⟩ := Prod.mk.inj hr
    rw [List.cons_append, List.cons_append, escaped_slash hstop, ih h' hx]
    rfl
  | case5 c cs hstop hslash ih =>
    obtain ⟨⟨text', rest'⟩, h', hr⟩ := Option.map_eq_some_iff.mp h
    obtain ⟨rfl, rfl⟩ := Prod.mk.inj hr
    rw [List.cons_append, escaped_cons hstop hslash, ih h' hx]
    rfl

end Escapes

/-- What may follow a token and leave it as it is: anything, behind a blank; a newline or, for a
time, blanks only, if it takes the rest of the line. -/
def Spares (ending : Ending) (t : Token) (x : List UInt8) : Prop :=
  ending = .line → x = [NEWLINE] ∨ t = .time ∧ skip x = []

/-- `lexed'` is `lexed` with a blank and more text behind it. -/
def Extends (x : List UInt8) (lexed lexed' : Lexed) : Prop :=
  ∀ ending t v rest, lexed = .token ending t v rest → Spares ending t x →
    ∃ ending', ending' ≠ .word ∧ lexed' = .token ending' t v (skip (rest ++ x))

theorem Extends.fail (x : List UInt8) (lexed' : Lexed) : Extends x .fail lexed' := by
  rintro _ _ _ _ ⟨⟩

theorem Extends.closed (x v rest : List UInt8) (t : Token) {rest' : List UInt8}
    (h : rest' = skip (rest ++ x)) :
    Extends x (.token .closed t v rest) (.token .closed t v rest') := by
  rintro _ _ _ _ ⟨⟩ -
  exact ⟨.closed, by simp, by rw [h]⟩

theorem lexemeQuoted_extends (r : List UInt8) :
    Extends (b :: y) (lexemeQuoted r) (lexemeQuoted (r ++ b :: y)) := by
  cases r with
  | nil => exact .fail _ _
  | cons c q =>
    by_cases hc : c = 34
    · subst hc
      rw [List.cons_append, lexemeQuoted, lexemeQuoted, if_pos rfl, if_pos rfl]
      cases hesc : escaped stopsString [] q with
      | none => rintro _ _ _ _ ⟨⟩
      | some e =>
        obtain ⟨text, rest⟩ := e
        cases rest with
        | nil =>
          rintro _ _ _ _ ⟨⟩ hspares
          obtain hx | ⟨htime, -⟩ := hspares rfl
          · rw [hx, escaped_append hesc fun _ => ⟨NEWLINE, rfl, by decide⟩]
            exact ⟨.closed, by simp, rfl⟩
          · cases htime
        | cons d rest =>
          rw [escaped_append hesc (by simp)]
          dsimp only [List.cons_append]
          apply Extends.closed
          rw [skip_append]
          split <;> rfl
    · rw [lexemeQuoted, if_neg hc]
      exact .fail _ _

theorem before_append_append (w tail x : List UInt8) :
    before (w ++ x) (tail ++ x) = before w tail := by
  rw [before, before, List.length_append, List.length_append, Nat.add_sub_add_right,
    List.take_append_of_le_length (by omega)]

variable (hb : isspace b = true)
include hb

omit hb in
theorem isspace_cases {c : UInt8} (h : isspace c = true) :
    c = 9 ∨ c = 10 ∨ c = 11 ∨ c = 12 ∨ c = 13 ∨ c = 32 := by
  simp only [isspace, Bool.or_eq_true, Bool.and_eq_true, decide_eq_true_eq,
    UInt8.le_iff_toNat_le, ← UInt8.toNat_inj] at h ⊢
  have hnine : (9 : UInt8).toNat = 9 := rfl
  have hthirteen : (13 : UInt8).toNat = 13 := rfl
  have hten : (10 : UInt8).toNat = 10 := rfl
  have heleven : (11 : UInt8).toNat = 11 := rfl
  have htwelve : (12 : UInt8).toNat = 12 := rfl
  omega

/-- A blank is in none of the classes that tokens are made of. -/
theorem blank_classes : isName b = false ∧ isWord b = false ∧ isdigit b = false ∧
    (isalnum b || b = chr '/') = false ∧ b ≠ chr '/' ∧ b ≠ chr 'm' := by
  rcases isspace_cases hb with rfl | rfl | rfl | rfl | rfl | rfl <;> decide

theorem delimited_extends (t : Token) (v : List UInt8) {otherwise otherwise' : Lexed}
    (h : Extends (b :: y) otherwise otherwise') (tail : List UInt8) :
    Extends (b :: y) (delimited t v otherwise tail)
      (delimited t v otherwise' (tail ++ b :: y)) := by
  cases tail with
  | nil =>
    rintro _ _ _ _ ⟨⟩ -
    exact ⟨.closed, by simp, by simp only [List.nil_append, delimited, if_pos hb, skip_cons hb]⟩
  | cons d tail =>
    rw [List.cons_append, delimited, delimited]
    split
    · exact .closed _ _ _ _ (skip_append tail _).symm
    · exact h

theorem lexemeName_extends {sigil : UInt8} {t : Token} {next next' : List UInt8 → Lexed}
    (hsigil : isspace sigil = false) {w r : List UInt8}
    (hstart : Extends (b :: y) (next w) (next' (w ++ b :: y)))
    (hhere : Extends (b :: y) (next r) (next' (r ++ b :: y))) :
    Extends (b :: y) (lexemeName sigil t next w r)
      (lexemeName sigil t next' (w ++ b :: y) (r ++ b :: y)) := by
  cases r with
  | nil =>
    have hne : b ≠ sigil := by
      rintro rfl
      simp [hb] at hsigil
    rw [List.nil_append, lexemeName, lexemeName, if_neg hne]
    exact hhere
  | cons c q =>
    rw [List.cons_append, lexemeName, lexemeName]
    split
    · rw [dropWhile_append_blank (blank_classes hb).1, before_append_append]
      exact delimited_extends hb t _ hstart _
    · exact hhere

theorem lexemeSigil_extends (w r : List UInt8) :
    Extends (b :: y) (lexemeSigil w r) (lexemeSigil (w ++ b :: y) (r ++ b :: y)) := by
  have hname (r : List UInt8) : Extends (b :: y)
      (lexemeName (chr '@') .windowname lexemeQuoted w r)
      (lexemeName (chr '@') .windowname lexemeQuoted (w ++ b :: y) (r ++ b :: y)) :=
    lexemeName_extends hb (by decide) (lexemeQuoted_extends w) (lexemeQuoted_extends r)
  exact lexemeName_extends hb (by decide) (hname w) (hname r)

theorem lexemeWord_extends (w r : List UInt8) :
    Extends (b :: y) (lexemeWord w r) (lexemeWord (w ++ b :: y) (r ++ b :: y)) := by
  obtain ⟨-, hword, -, hstart, -⟩ := blank_classes hb
  cases r with
  | nil =>
    rw [List.nil_append, lexemeWord, lexemeWord, if_neg (by simp [hstart])]
    exact lexemeSigil_extends hb w []
  | cons c q =>
    rw [List.cons_append, lexemeWord, lexemeWord]
    split
    · rw [dropWhile_append_blank hword, before_append_append]
      exact delimited_extends hb _ _ (lexemeSigil_extends hb w w) _
    · exact lexemeSigil_extends hb w (c :: q)

omit hb in
theorem lexemeMatch_extends (q : List UInt8) :
    Extends (b :: y) (lexemeMatch q) (lexemeMatch (q ++ b :: y)) := by
  rw [lexemeMatch, lexemeMatch]
  cases hesc : escaped stopsPattern [92] q with
  | none => rintro _ _ _ _ ⟨⟩
  | some e =>
    obtain ⟨text, rest⟩ := e
    cases rest with
    | nil => exact .fail _ _
    | cons c rest =>
      rw [escaped_append hesc (by simp)]
      dsimp only [List.cons_append]
      split
      · exact .closed _ _ _ _ (skip_append rest _).symm
      · exact .fail _ _

theorem lexemeText_extends (w r : List UInt8) :
    Extends (b :: y) (lexemeText w r) (lexemeText (w ++ b :: y) (r ++ b :: y)) := by
  obtain ⟨-, -, -, -, hslash, hm⟩ := blank_classes hb
  cases r with
  | nil =>
    rw [List.nil_append, lexemeText, lexemeText, if_neg hm]
    exact lexemeWord_extends hb w []
  | cons c q =>
    rw [List.cons_append, lexemeText, lexemeText]
    split
    · cases q with
      | nil =>
        rw [List.nil_append, List.head?_cons, if_neg (by simp), if_neg (by simpa using hslash)]
        exact lexemeWord_extends hb w w
      | cons d q =>
        rw [List.cons_append, List.head?_cons, List.head?_cons, List.tail_cons, List.tail_cons]
        split
        · exact lexemeMatch_extends q
        · exact lexemeWord_extends hb w w
    · exact lexemeWord_extends hb w (c :: q)

theorem lexemeNumber_extends (w : List UInt8) :
    Extends (b :: y) (lexemeNumber w) (lexemeNumber (w ++ b :: y)) := by
  have hdigit := (blank_classes hb).2.2.1
  rw [lexemeNumber, lexemeNumber, takeWhile_append_blank hdigit, dropWhile_append_blank hdigit]
  cases w.dropWhile isdigit with
  | nil =>
    dsimp only [List.nil_append]
    rw [if_pos hb]
    exact .closed _ _ _ _ (by rw [List.nil_append, skip_cons hb])
  | cons c r =>
    dsimp only [List.cons_append]
    split
    · exact .closed _ _ _ _ (skip_append r _).symm
    cases unit c with
    | some mult =>
      rintro _ _ _ _ ⟨⟩ hspares
      have hskip : skip (b :: y) = [] := by
        obtain hx | ⟨-, hskip⟩ := hspares rfl
        · rw [hx]
          rfl
        · exact hskip
      exact ⟨.line, by simp, by rw [List.nil_append, hskip]⟩
    | none => exact lexemeText_extends hb w (c :: r)

/-- The first token of a text, with a blank and more text behind it. -/
theorem lexeme_extends (w : List UInt8) : Extends (b :: y) (lexeme w) (lexeme (w ++ b :: y)) := by
  cases w with
  | nil => exact .fail _ _
  | cons c q =>
    rw [List.cons_append, lexeme, lexeme]
    split
    · exact .closed _ _ _ _ (skip_append q _).symm
    split
    · exact .closed _ _ _ _ (skip_append q _).symm
    split
    · exact lexemeNumber_extends hb (c :: q)
    · exact lexemeText_extends hb (c :: q) (c :: q)

end Blank

/-! ## Lines with their newline -/

/-- Nothing is left, or the newline is still to come. -/
def Ended (w : List UInt8) : Prop := w = [] ∨ ∃ u, w = u ++ [NEWLINE]

theorem Ended.suffix {w l : List UInt8} (h : Ended w) (hl : l <:+ w) : Ended l := by
  obtain ⟨u, rfl⟩ := hl
  rcases List.eq_nil_or_concat l with rfl | ⟨l, c, rfl⟩
  · exact .inl rfl
  · rcases h with h | ⟨v, h⟩
    · simp at h
    · rw [List.concat_eq_append, ← List.append_assoc] at h
      exact .inr ⟨l, by rw [List.concat_eq_append, (List.append_inj' h rfl).2]⟩

theorem Ended.tail {w : List UInt8} {c : UInt8} (h : Ended (c :: w)) : Ended w :=
  h.suffix (List.suffix_cons c w)

theorem Ended.skip {w : List UInt8} (h : Ended w) : Ended (skip w) := h.suffix (skip_suffix w)

/-- A class without the newline does not reach the end of the line. -/
theorem Ended.dropWhile_ne_nil {w : List UInt8} {c : UInt8} {f : UInt8 → Bool}
    (h : Ended (c :: w)) (hc : c ≠ NEWLINE) (hf : f NEWLINE = false) : w.dropWhile f ≠ [] := by
  rcases h.tail with rfl | ⟨u, rfl⟩
  · rcases h with h | ⟨u, h⟩
    · cases h
    · rcases u with - | ⟨d, u⟩ <;> simp at h
      exact absurd h hc
  · rw [dropWhile_append_blank hf]
    simp

/-- The text determines what is lexed, and what it leaves ends with the newline. -/
def Whole (lexed : Lexed) : Prop :=
  lexed ≠ .dangling ∧ ∀ ending t v rest, lexed = .token ending t v rest →
    ending ≠ .word ∧ Ended rest ∧ skip rest = rest

theorem Whole.fail : Whole .fail := ⟨by simp, by simp⟩

theorem Whole.token {ending : Ending} {t : Token} {v : List UInt8} (rest : List UInt8)
    (h : ending ≠ .word) (hrest : Ended rest) : Whole (.token ending t v (skip rest)) := by
  refine ⟨by simp, ?_⟩
  rintro _ _ _ _ ⟨⟩
  exact ⟨h, hrest.skip, skip_skip rest⟩

theorem escaped_ended (stop : UInt8 → Bool) (keep : List UInt8) {q : List UInt8} (h : Ended q) :
    ∃ text rest, escaped stop keep q = some (text, rest) ∧ Ended rest := by
  fun_induction escaped stop keep q with
  | case1 => exact ⟨_, _, rfl, h⟩
  | case2 c cs hstop => exact ⟨_, _, rfl, h⟩
  | case3 => exact absurd rfl (h.dropWhile_ne_nil (f := fun _ => false) (by decide) rfl)
  | case4 d ds hstop ih =>
    obtain ⟨text, rest, hesc, hrest⟩ := ih h.tail.tail
    exact ⟨_, rest, by rw [hesc]; rfl, hrest⟩
  | case5 c cs hstop hslash ih =>
    obtain ⟨text, rest, hesc, hrest⟩ := ih h.tail
    exact ⟨_, rest, by rw [hesc]; rfl, hrest⟩

theorem lexemeQuoted_whole {r : List UInt8} (h : Ended r) : Whole (lexemeQuoted r) := by
  cases r with
  | nil => exact .fail
  | cons c q =>
    rw [lexemeQuoted]
    split
    · obtain ⟨text, rest, hesc, hrest⟩ := escaped_ended stopsString [] h.tail
      rw [hesc]
      cases rest with
      | nil => exact .token [] (by simp) (.inl rfl)
      | cons d rest =>
        refine .token _ (by simp) ?_
        split
        · exact hrest.tail
        · exact hrest
    · exact .fail

theorem delimited_whole {t : Token} {v tail : List UInt8} {otherwise : Lexed} (hne : tail ≠ [])
    (htail : Ended tail) (h : Whole otherwise) : Whole (delimited t v otherwise tail) := by
  cases tail with
  | nil => exact absurd rfl hne
  | cons d tail =>
    rw [delimited]
    split
    · exact .token _ (by simp) htail.tail
    · exact h

theorem lexemeName_whole {sigil : UInt8} {t : Token} {next : List UInt8 → Lexed}
    (hsigil : sigil ≠ NEWLINE) {w r : List UInt8} (hr : Ended r) (hstart : Whole (next w))
    (hhere : Whole (next r)) : Whole (lexemeName sigil t next w r) := by
  cases r with
  | nil => exact hhere
  | cons c q =>
    rw [lexemeName]
    split
    · case isTrue hc =>
        exact delimited_whole (hr.dropWhile_ne_nil (hc ▸ hsigil) (by decide))
          (hr.tail.suffix (List.dropWhile_suffix _)) hstart
    · exact hhere

theorem lexemeSigil_whole {w r : List UInt8} (hw : Ended w) (hr : Ended r) :
    Whole (lexemeSigil w r) := by
  have hname {r : List UInt8} (hr : Ended r) :
      Whole (lexemeName (chr '@') .windowname lexemeQuoted w r) :=
    lexemeName_whole (by decide) hr (lexemeQuoted_whole hw) (lexemeQuoted_whole hr)
  exact lexemeName_whole (by decide) hr (hname hw) (hname hr)

theorem lexemeWord_whole {w r : List UInt8} (hw : Ended w) (hr : Ended r) :
    Whole (lexemeWord w r) := by
  cases r with
  | nil => exact lexemeSigil_whole hw hr
  | cons c q =>
    rw [lexemeWord]
    split
    · case isTrue hc =>
        have hne : c ≠ NEWLINE := by
          rintro rfl
          exact absurd hc (by decide)
        exact delimited_whole (hr.dropWhile_ne_nil hne (by decide))
          (hr.tail.suffix (List.dropWhile_suffix _)) (lexemeSigil_whole hw hw)
    · exact lexemeSigil_whole hw hr

theorem lexemeMatch_whole {q : List UInt8} (h : Ended q) : Whole (lexemeMatch q) := by
  obtain ⟨text, rest, hesc, hrest⟩ := escaped_ended stopsPattern [92] h
  rw [lexemeMatch, hesc]
  cases rest with
  | nil => exact .fail
  | cons c rest =>
    dsimp only
    split
    · exact .token _ (by simp) hrest.tail
    · exact .fail

theorem lexemeText_whole {w r : List UInt8} (hw : Ended w) (hr : Ended r) :
    Whole (lexemeText w r) := by
  cases r with
  | nil => exact lexemeWord_whole hw hr
  | cons c q =>
    rw [lexemeText]
    split
    · split
      · exact lexemeMatch_whole (hr.tail.suffix (List.tail_suffix q))
      · exact lexemeWord_whole hw hw
    · exact lexemeWord_whole hw hr

theorem lexemeNumber_whole {w : List UInt8} (hw : Ended w) : Whole (lexemeNumber w) := by
  have hsuffix : Ended (w.dropWhile isdigit) := hw.suffix (List.dropWhile_suffix _)
  rw [lexemeNumber]
  cases htail : w.dropWhile isdigit with
  | nil => exact .token [] (by simp) (.inl rfl)
  | cons c r =>
    rw [htail] at hsuffix
    dsimp only
    split
    · exact .token _ (by simp) hsuffix.tail
    cases unit c with
    | some mult => exact .token [] (by simp) (.inl rfl)
    | none => exact lexemeText_whole hw hsuffix

theorem lexeme_blank {c : UInt8} (hc : isspace c = true) (q : List UInt8) :
    lexeme (c :: q) = .fail := by
  rcases isspace_cases hc with rfl | rfl | rfl | rfl | rfl | rfl <;> rfl

/-- In a line with its newline the text determines every token. -/
theorem lexeme_whole {w : List UInt8} (hw : Ended w) : Whole (lexeme w) := by
  cases w with
  | nil => exact .fail
  | cons c q =>
    rw [lexeme]
    split
    · exact .token _ (by simp) hw.tail
    split
    · exact .token _ (by simp) hw.tail
    split
    · exact lexemeNumber_whole hw
    · exact lexemeText_whole hw hw

end Bolo
