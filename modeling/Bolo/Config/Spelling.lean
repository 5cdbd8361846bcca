import Bolo.Config.Tokens

/-!
# Texts that are read as tokens

From the other side: a word, a name, a number or a quoted text that is written down with a blank
behind it is read as that token, and a line of such texts as those tokens.
-/
namespace Bolo

open Library

/-! ## Words of the language -/

/-- A text that is lexed as one word: it starts with a letter or a slash, is no pattern, and has
no blanks. -/
def Bareword (u : List UInt8) : Prop :=
  u.head?.any (fun c => isalpha c || c = chr '/') ∧ u.take 2 ≠ [chr 'm', chr '/'] ∧ u.all isWord
  deriving Decidable

/-- A word that is no keyword. -/
def Wordy (u : CString) : Prop := Bareword u.bytes ∧ keyword u = none
  deriving Decidable

/-- A name behind its sigil. -/
def Marked (sigil : Char) (u : CString) : Prop :=
  u.bytes.head? = some (chr sigil) ∧ u.bytes.tail.all isName
  deriving Decidable

/-- A text that can stand between quotes as it is. -/
def Quotable (u : CString) : Prop := u.bytes.all fun c => !stopsString c && c ≠ 92
  deriving Decidable

/-- A text that is a token whenever a blank follows. -/
structure Reads (u : List UInt8) (x : Lexeme) : Prop where
  plain : ∀ b ∈ u, b ≠ 0 ∧ b ≠ NEWLINE
  token : ∀ c, isspace c = true → ∀ r, lexeme (u ++ c :: r) = .token .closed x.1 x.2 (skip r)

theorem plain_of_all {u : List UInt8} (h : u.all fun b => b ≠ 0 && b ≠ NEWLINE) :
    ∀ b ∈ u, b ≠ 0 ∧ b ≠ NEWLINE := by
  intro b hb
  simpa using List.all_eq_true.mp h b hb

theorem isalpha_classes {c : UInt8} (h : (isalpha c || c = chr '/') = true) :
    c ≠ chr '\x7b' ∧ c ≠ chr '\x7d' ∧ isdigit c = false ∧ (isalnum c || c = chr '/') = true := by
  refine ⟨?_, ?_, ?_, ?_⟩
  · rintro rfl
    exact absurd h (by decide)
  · rintro rfl
    exact absurd h (by decide)
  · refine Bool.eq_false_iff.mpr fun hdigit => ?_
    have hbounds := isdigit_bounds hdigit
    simp only [isalpha, chr, Bool.or_eq_true, Bool.and_eq_true, decide_eq_true_eq,
      UInt8.le_iff_toNat_le, ← UInt8.toNat_inj] at h
    simp at h
    omega
  · rcases Bool.or_eq_true_iff.mp h with h | h
    · simp [isalnum, h]
    · simp [h]

theorem isWord_classes {c : UInt8} (h : isWord c = true) : c ≠ 0 ∧ c ≠ NEWLINE := by
  constructor <;> rintro rfl <;> exact absurd h (by decide)

theorem isName_classes {c : UInt8} (h : isName c = true) : c ≠ 0 ∧ c ≠ NEWLINE := by
  constructor <;> rintro rfl <;> exact absurd h (by decide)

theorem isdigit_classes {c : UInt8} (h : isdigit c = true) :
    c ≠ chr '\x7b' ∧ c ≠ chr '\x7d' ∧ c ≠ 0 ∧ c ≠ NEWLINE := by
  refine ⟨?_, ?_, ?_, ?_⟩ <;> rintro rfl <;> exact absurd h (by decide)

theorem dropWhile_stop {f : UInt8 → Bool} {u : List UInt8} (hu : ∀ d ∈ u, f d = true) {c : UInt8}
    (hc : f c = false) (r : List UInt8) : (u ++ c :: r).dropWhile f = c :: r := by
  rw [List.dropWhile_append_of_pos hu]
  exact List.dropWhile_cons_of_neg (by simp [hc])

theorem takeWhile_stop {f : UInt8 → Bool} {u : List UInt8} (hu : ∀ d ∈ u, f d = true) {c : UInt8}
    (hc : f c = false) (r : List UInt8) : (u ++ c :: r).takeWhile f = u := by
  rw [List.takeWhile_append_of_pos hu, List.takeWhile_cons_of_neg (by simp [hc]), List.append_nil]

theorem reads_word {u : List UInt8} (hu : Bareword u) : Reads u (wordToken u) := by
  obtain ⟨hstart, hmatch, hword⟩ := hu
  rw [List.all_eq_true] at hword
  refine ⟨fun b hb => isWord_classes (hword b hb), fun c hc r => ?_⟩
  cases u with
  | nil => simp at hstart
  | cons b q =>
    obtain ⟨hopen, hclose, hdigit, halnum⟩ := isalpha_classes (by simpa using hstart)
    have hq : ∀ d ∈ q, isWord d = true := fun d hd => hword d (List.mem_cons_of_mem _ hd)
    have htext : lexemeWord (b :: q ++ c :: r) (b :: (q ++ c :: r)) =
        .token .closed (wordToken (b :: q)).1 (wordToken (b :: q)).2 (skip r) := by
      simp only [lexemeWord, halnum, if_true, dropWhile_stop hq (blank_classes hc).2.1,
        before_append, delimited, hc]
    have hslash : b = chr 'm' → (q ++ c :: r).head? ≠ some (chr '/') := by
      rintro rfl
      cases q with
      | nil => simpa using (blank_classes hc).2.2.2.2.1
      | cons d q =>
        intro hd
        obtain rfl : d = chr '/' := by simpa using hd
        simp at hmatch
    rw [List.cons_append, lexeme, if_neg hopen, if_neg hclose, hdigit]
    simp only [Bool.false_eq_true, if_false, lexemeText]
    split
    · case isTrue hm =>
      rw [if_neg (hslash hm)]
      exact htext
    · exact htext

theorem reads_string {u : CString} (hu : Wordy u) : Reads u.bytes (closed .string u) := by
  have hread := reads_word hu.1
  rwa [wordToken, CString.ofBytes_bytes, hu.2] at hread

/-- What a sigil is not. -/
theorem sigil_classes {c : UInt8} (h : c = chr ':' ∨ c = chr '@') :
    c ≠ chr '\x7b' ∧ c ≠ chr '\x7d' ∧ isdigit c = false ∧ c ≠ chr 'm' ∧
      (isalnum c || c = chr '/') = false ∧ c ≠ 0 ∧ c ≠ NEWLINE := by
  rcases h with rfl | rfl <;> decide

/-- A text that starts with a sigil gets to the branches for names. -/
theorem lexeme_sigil {b : UInt8} (hb : b = chr ':' ∨ b = chr '@') (r : List UInt8) :
    lexeme (b :: r) = lexemeSigil (b :: r) (b :: r) := by
  obtain ⟨hopen, hclose, hdigit, hm, halnum, -⟩ := sigil_classes hb
  simp only [lexeme, hopen, hclose, hdigit, if_false, lexemeText, hm, lexemeWord, halnum,
    Bool.false_eq_true]

theorem delimited_name {t : Token} {otherwise : Lexed} {b : UInt8} {q : List UInt8}
    (hq : ∀ d ∈ q, isName d = true) {c : UInt8} (hc : isspace c = true) (r : List UInt8) :
    delimited t (before (b :: (q ++ c :: r)) ((q ++ c :: r).dropWhile isName) ++ [0]) otherwise
        ((q ++ c :: r).dropWhile isName) = .token .closed t (b :: q ++ [0]) (skip r) := by
  rw [dropWhile_stop hq (blank_classes hc).1, ← List.cons_append, before_append, delimited,
    if_pos hc]

theorem marked_plain {sigil : Char} {u : CString} (hu : Marked sigil u)
    (hsigil : chr sigil = chr ':' ∨ chr sigil = chr '@') :
    ∃ q, u.bytes = chr sigil :: q ∧ (∀ d ∈ q, isName d = true) ∧
      ∀ b ∈ u.bytes, b ≠ 0 ∧ b ≠ NEWLINE := by
  obtain ⟨q, hq⟩ := List.head?_eq_some_iff.mp hu.1
  have hname := List.all_eq_true.mp hu.2
  rw [hq, List.tail_cons] at hname
  refine ⟨q, hq, hname, ?_⟩
  rw [hq]
  exact List.forall_mem_cons.mpr
    ⟨(sigil_classes hsigil).2.2.2.2.2, fun b hb => isName_classes (hname b hb)⟩

theorem reads_typename {u : CString} (hu : Marked ':' u) : Reads u.bytes (closed .typename u) := by
  obtain ⟨q, hq, hname, hplain⟩ := marked_plain hu (.inl rfl)
  refine ⟨hplain, fun c hc r => ?_⟩
  rw [hq, List.cons_append, lexeme_sigil (.inl rfl), lexemeSigil, lexemeName, if_pos rfl,
    delimited_name hname hc, closed, hq]

theorem reads_windowname {u : CString} (hu : Marked '@' u) :
    Reads u.bytes (closed .windowname u) := by
  obtain ⟨q, hq, hname, hplain⟩ := marked_plain hu (.inr rfl)
  refine ⟨hplain, fun c hc r => ?_⟩
  rw [hq, List.cons_append, lexeme_sigil (.inr rfl), lexemeSigil, lexemeName,
    if_neg (by decide : chr '@' ≠ chr ':'), lexemeName, if_pos rfl, delimited_name hname hc,
    closed, hq]

/-- A number as `printf` writes it. -/
def Digits.of (n : Nat) : Digits where
  text := (decimal n).bytes
  ne := by simp [decimal_bytes]
  digits := isdigit_decimal n

theorem lexeme_digits (n : Digits) (r : List UInt8) :
    lexeme (n.text ++ r) = lexemeNumber (n.text ++ r) := by
  obtain ⟨b, d, hn⟩ := List.exists_cons_of_ne_nil n.ne
  have hb : isdigit b = true := n.digits b (by simp [hn])
  obtain ⟨hopen, hclose, -⟩ := isdigit_classes hb
  rw [hn, List.cons_append, lexeme, if_neg hopen, if_neg hclose, if_pos hb]

theorem Digits.plain (n : Digits) : ∀ b ∈ n.text, b ≠ 0 ∧ b ≠ NEWLINE := fun b hb =>
  (isdigit_classes (n.digits b hb)).2.2

theorem reads_number (n : Digits) : Reads n.text (.number, n.text) := by
  refine ⟨n.plain, fun c hc r => ?_⟩
  have hdigit := (blank_classes hc).2.2.1
  rw [lexeme_digits]
  simp only [lexemeNumber, dropWhile_stop n.digits hdigit, takeWhile_stop n.digits hdigit, hc,
    if_true]

theorem escaped_quotable {u : List UInt8} (hu : u.all fun c => !stopsString c && c ≠ 92)
    {c : UInt8} (hc : stopsString c = true) (r : List UInt8) :
    escaped stopsString [] (u ++ c :: r) = some (u, c :: r) := by
  induction u with
  | nil => exact escaped_stop hc r
  | cons b u ih =>
    simp only [List.all_cons, Bool.and_eq_true, decide_eq_true_eq, Bool.not_eq_true'] at hu
    rw [List.cons_append, escaped_cons (by simp [hu.1.1]) hu.1.2, ih (by simpa using hu.2)]
    rfl

theorem reads_quoted {u : CString} (hu : Quotable u) :
    Reads (CString.ascii "\"" ++ u.bytes ++ CString.ascii "\"") (closed .string u) := by
  have hquote : CString.ascii "\"" = [34] := by decide
  refine ⟨fun b hb => ?_, fun c hc r => ?_⟩
  · have hmem : b = 34 ∨ b ∈ u.bytes := by
      simp only [hquote, List.mem_append, List.mem_singleton] at hb
      tauto
    rcases hmem with rfl | hb
    · decide
    · refine ⟨ne_of_mem_of_not_mem hb u.nulFree, ?_⟩
      rintro rfl
      exact absurd (List.all_eq_true.mp hu _ hb) (by decide)
  · have hclass : ∀ w : List UInt8, lexeme (34 :: w) = lexemeQuoted (34 :: w) := fun _ => rfl
    rw [hquote, List.append_assoc, List.append_assoc, List.singleton_append, List.singleton_append,
      hclass, lexemeQuoted, if_pos rfl, escaped_quotable hu (by decide)]
    simp only [if_true, skip_cons hc]
    rfl

theorem reads_openBrace : Reads (CString.ascii "\x7b") (.openBrace, []) := by
  refine ⟨plain_of_all (by decide), fun c hc r => ?_⟩
  exact congrArg (Lexed.token .closed .openBrace []) (skip_cons hc r)

theorem reads_closeBrace : Reads (CString.ascii "\x7d") (.closeBrace, []) := by
  refine ⟨plain_of_all (by decide), fun c hc r => ?_⟩
  exact congrArg (Lexed.token .closed .closeBrace []) (skip_cons hc r)

/-! ## Lines -/

/-- Blank-separated tokens, the last of them up to the end of the line. -/
inductive Spaced : List UInt8 → List Lexeme → Prop
  | last {u : List UInt8} {x : Lexeme} {e : Ending} (plain : ∀ b ∈ u, b ≠ 0 ∧ b ≠ NEWLINE)
      (he : e ≠ .word) (hu : lexeme (u ++ [NEWLINE]) = .token e x.1 x.2 []) : Spaced u [x]
  | cons {u gap l : List UInt8} {x : Lexeme} {xs : List Lexeme} (hu : Reads u x)
      (hgap : gap ≠ [] ∧ gap.all (· = chr ' ')) (hl : Spaced l xs) :
      Spaced (u ++ (gap ++ l)) (x :: xs)

/-- The line has these tokens, or it has none and is blank or a comment. -/
structure Line (l : List UInt8) (xs : List Lexeme) : Prop where
  plain : ∀ b ∈ l, b ≠ 0 ∧ b ≠ NEWLINE
  yields : Yields (skip (l ++ [NEWLINE])) xs

theorem Reads.last {u : List UInt8} {x : Lexeme} (h : Reads u x) : Spaced u [x] :=
  .last h.plain (by simp) (h.token NEWLINE (by decide) [])

theorem skip_gap {gap : List UInt8} (h : gap.all (· = chr ' ')) (r : List UInt8) :
    skip (gap ++ r) = skip r := by
  refine List.dropWhile_append_of_pos fun b hb => ?_
  have hblank : b = chr ' ' := by simpa using List.all_eq_true.mp h b hb
  rw [hblank]
  rfl

theorem yields_token {w v r : List UInt8} {e : Ending} {t : Token} {xs : List Lexeme}
    (hw : lexeme w = .token e t v r) (he : e ≠ .word) (hr : Yields r xs) :
    Yields (skip w) ((t, v) :: xs) := by
  have hstart := (lexeme_start hw []).1
  rw [List.append_nil] at hstart
  rw [hstart]
  exact .cons hw he hr

theorem Spaced.yields {l : List UInt8} {xs : List Lexeme} (h : Spaced l xs) :
    Yields (skip (l ++ [NEWLINE])) xs := by
  induction h with
  | last _ he hu => exact yields_token hu he (.idle (.inl rfl))
  | @cons u gap l x xs hu hgap hl ih =>
    obtain ⟨c, g, rfl⟩ := List.exists_cons_of_ne_nil hgap.1
    simp only [List.all_cons, Bool.and_eq_true, decide_eq_true_eq] at hgap
    have hc : isspace c = true := by
      rw [hgap.2.1]
      rfl
    rw [← skip_gap hgap.2.2] at ih
    rw [List.append_assoc, List.append_assoc, List.cons_append]
    exact yields_token (hu.token c hc _) (by simp) ih

theorem gap_plain {gap : List UInt8} (h : gap.all (· = chr ' ')) :
    ∀ b ∈ gap, b ≠ 0 ∧ b ≠ NEWLINE := by
  intro b hb
  have hblank : b = chr ' ' := by simpa using List.all_eq_true.mp h b hb
  rw [hblank]
  decide

theorem Spaced.plain {l : List UInt8} {xs : List Lexeme} (h : Spaced l xs) :
    ∀ b ∈ l, b ≠ 0 ∧ b ≠ NEWLINE := by
  induction h with
  | last hplain _ _ => exact hplain
  | cons hu hgap hl ih =>
    simp only [List.forall_mem_append]
    exact ⟨hu.plain, gap_plain hgap.2, ih⟩

theorem Spaced.line {l : List UInt8} {xs : List Lexeme} (h : Spaced l xs) : Line l xs :=
  ⟨h.plain, h.yields⟩

/-- The line may be indented. -/
theorem Spaced.indented {gap l : List UInt8} {xs : List Lexeme} (h : Spaced l xs)
    (hgap : gap.all (· = chr ' ')) : Line (gap ++ l) xs := by
  refine ⟨List.forall_mem_append.mpr ⟨gap_plain hgap, h.plain⟩, ?_⟩
  rw [List.append_assoc, skip_gap hgap]
  exact h.yields

theorem line_blank : Line [] [] := ⟨by simp, .idle (.inl rfl)⟩

theorem line_comment {l : List UInt8} (hplain : ∀ b ∈ l, b ≠ 0 ∧ b ≠ NEWLINE)
    (hstart : l.head? = some (chr '#')) : Line l [] := by
  refine ⟨hplain, .idle (.inr ?_)⟩
  obtain ⟨q, rfl⟩ := List.head?_eq_some_iff.mp hstart
  rfl

/-- A keyword with the blanks behind it. -/
def Heads (t : List UInt8) (k : Keyword) : Prop :=
  Bareword (t.takeWhile (· ≠ chr ' ')) ∧
    wordToken (t.takeWhile (· ≠ chr ' ')) = (.keyword k, []) ∧
    t.dropWhile (· ≠ chr ' ') ≠ [] ∧ (t.dropWhile (· ≠ chr ' ')).all (· = chr ' ')
  deriving Decidable

theorem Spaced.headed {t l : List UInt8} {k : Keyword} {xs : List Lexeme} (h : Spaced l xs)
    (ht : Heads t k) : Spaced (t ++ l) ((.keyword k, []) :: xs) := by
  have hread := reads_word ht.1
  rw [ht.2.1] at hread
  rw [← List.takeWhile_append_dropWhile (p := (· ≠ chr ' ')) (l := t), List.append_assoc]
  exact .cons hread ht.2.2 h

/-- These lines have these tokens. -/
def Prints (lines : List (List UInt8)) (xs : List Lexeme) : Prop :=
  ∃ zs, List.Forall₂ Line lines zs ∧ xs = zs.flatten

theorem Prints.nil : Prints [] [] := ⟨[], .nil, rfl⟩

theorem Line.prints {l : List UInt8} {xs : List Lexeme} (h : Line l xs) : Prints [l] xs :=
  ⟨[xs], .cons h .nil, by simp⟩

theorem Prints.append {lines lines' : List (List UInt8)} {xs ys : List Lexeme}
    (h : Prints lines xs) (h' : Prints lines' ys) : Prints (lines ++ lines') (xs ++ ys) := by
  obtain ⟨zs, hzs, rfl⟩ := h
  obtain ⟨zs', hzs', rfl⟩ := h'
  exact ⟨zs ++ zs', List.rel_append hzs hzs', List.flatten_append.symm⟩

theorem Prints.cons {l : List UInt8} {lines : List (List UInt8)} {xs ys : List Lexeme}
    (h : Line l xs) (h' : Prints lines ys) : Prints (l :: lines) (xs ++ ys) := h.prints.append h'

/-- A line without tokens. -/
theorem Prints.idle {l : List UInt8} {lines : List (List UInt8)} {xs : List Lexeme}
    (h : Line l []) (h' : Prints lines xs) : Prints (l :: lines) xs := h.prints.append h'

end Bolo
