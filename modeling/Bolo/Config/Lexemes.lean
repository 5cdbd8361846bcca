import Bolo.Config.Lexer

/-!
# Lexemes of a text

What `lex` does with a line, as a function of its text alone. The lexer works in an array that
still holds earlier text behind the terminator, and most of its branches never look there: those
tokens are determined by the text. The others are a word or a name that nothing but the end of
the text ends, since `lex` steps over the byte that ends it, and a backslash at the end of the
text, which takes the terminator for the byte it escapes.
-/
namespace Bolo

open Library

/-! ## The lexer on a text -/

/-- How a token ends: before the end of the text or right there, at a byte of the text that has
to be there, or with the line. -/
inductive Ending where
  | closed
  | word
  | line
  deriving DecidableEq, Repr

/-- The start of a text: a token with the bytes that are written to `value` and the text that is
left, nothing that is a token, or a backslash that escapes the terminator. -/
inductive Lexed where
  | token (ending : Ending) (token : Token) (value rest : List UInt8)
  | fail
  | dangling
  deriving DecidableEq, Repr

def skip (l : List UInt8) : List UInt8 := l.dropWhile isspace

/-- Text up to a stop byte, two bytes at a time where a backslash stands, and what follows it.
`keep` is what becomes of the backslash. -/
def escaped (stop : UInt8 → Bool) (keep : List UInt8) :
    List UInt8 → Option (List UInt8 × List UInt8)
  | [] => some ([], [])
  | c :: cs =>
    if stop c then some ([], c :: cs)
    else if c = 92 then
      match cs with
      | [] => none
      | d :: ds => (escaped stop keep ds).map fun r => (keep ++ d :: r.1, r.2)
    else (escaped stop keep cs).map fun r => (c :: r.1, r.2)

def stopsString (c : UInt8) : Bool := c = 34 || c = chr '\r' || c = chr '\n'

def stopsPattern (c : UInt8) : Bool := isspace c || c = chr '/'

def lexemeQuoted : List UInt8 → Lexed
  | [] => .fail
  | c :: q =>
    if c = 34 then
      match escaped stopsString [] q with
      | none => .dangling
      | some (text, []) => .token .line .string (text ++ [0]) []
      | some (text, d :: rest) =>
        .token .closed .string (text ++ [0]) (skip (if d = 34 then rest else d :: rest))
    else .fail

/-- A word or a name has been read, and `tail` follows. -/
def delimited (token : Token) (value : List UInt8) (otherwise : Lexed) : List UInt8 → Lexed
  | [] => .token .word token value []
  | d :: tail => if isspace d then .token .closed token value (skip tail) else otherwise

/-- The text up to its tail. -/
def before (w tail : List UInt8) : List UInt8 := w.take (w.length - tail.length)

def isName (c : UInt8) : Bool := isalnum c || c = chr '-' || c = chr '_'

def isWord (c : UInt8) : Bool := isalnum c || ispunct c

/-- In what follows `w` is the text from the start of the token, and the last argument the text
from where the branch looks at it. -/
def lexemeName (sigil : UInt8) (token : Token) (next : List UInt8 → Lexed) (w : List UInt8) :
    List UInt8 → Lexed
  | [] => next []
  | c :: q =>
    if c = sigil then
      delimited token (before w (q.dropWhile isName) ++ [0]) (next w) (q.dropWhile isName)
    else next (c :: q)

def lexemeSigil (w r : List UInt8) : Lexed :=
  lexemeName (chr ':') .typename (lexemeName (chr '@') .windowname lexemeQuoted w) w r

/-- The token that a word is, and what it leaves in `value`. -/
def wordToken (text : List UInt8) : Token × List UInt8 :=
  match keyword (.ofBytes text) with
  | some k => (.keyword k, [])
  | none => (.string, text ++ [0])

def lexemeWord (w : List UInt8) : List UInt8 → Lexed
  | [] => lexemeSigil w []
  | c :: q =>
    if isalnum c || c = chr '/' then
      let word := wordToken (before w (q.dropWhile isWord))
      delimited word.1 word.2 (lexemeSigil w w) (q.dropWhile isWord)
    else lexemeSigil w (c :: q)

def lexemeMatch (q : List UInt8) : Lexed :=
  match escaped stopsPattern [92] q with
  | none => .dangling
  | some (_, []) => .fail
  | some (text, c :: rest) =>
    if c = chr '/' then .token .closed .match (text ++ [0]) (skip rest) else .fail

def lexemeText (w : List UInt8) : List UInt8 → Lexed
  | [] => lexemeWord w []
  | c :: q =>
    if c = chr 'm' then
      if q.head? = some (chr '/') then lexemeMatch q.tail else lexemeWord w w
    else lexemeWord w (c :: q)

def lexemeNumber (w : List UInt8) : Lexed :=
  let digits := w.takeWhile isdigit
  match w.dropWhile isdigit with
  | [] => .token .closed .number digits []
  | c :: r =>
    if isspace c then .token .closed .number digits (skip r)
    else
      match unit c with
      | some mult =>
        .token .line .time ((decimalInt (atoi (.ofBytes digits) * mult).toInt).bytes ++ [0]) []
      | none => lexemeText w (c :: r)

/-- The first token of a text that does not start with a blank. -/
def lexeme : List UInt8 → Lexed
  | [] => .fail
  | c :: q =>
    if c = chr '\x7b' then .token .closed .openBrace [] (skip q)
    else if c = chr '\x7d' then .token .closed .closeBrace [] (skip q)
    else if isdigit c then lexemeNumber (c :: q)
    else lexemeText (c :: q) (c :: q)

/-! ## The text in the buffer -/

/-- What is left of the line is `w`. -/
structure Parser.Has (p : Parser) (w : List UInt8) : Prop where
  nulFree : 0 ∉ w
  cells : ∃ junk, p.buffer.cells = w ++ 0 :: junk

/-- The lexer does with `p` what it does with the text, if the text determines it. Behind a last
word the lexer reads on in `junk`, what follows the terminator: the token is the one of the text
if there is another terminator, but what is left is not. -/
def Refines (p : Parser) (junk : List UInt8) (x : Except Fault (Option Token × Parser)) :
    Lexed → Prop
  | .token ending t value rest => (ending = .word → 0 ∈ junk) → ∃ p', x = .ok (some t, p') ∧
      (ending ≠ .word → p'.Has rest) ∧ p.value.put 0 value = some p'.value
  | .fail => ∃ p', x = .ok (none, p')
  | .dangling => True

theorem skip_suffix (l : List UInt8) : skip l <:+ l := List.dropWhile_suffix _

theorem cells_takeWhile {b : Buffer LINE_BUF_SIZE} {u x l : List UInt8} (f : UInt8 → Bool)
    (hb : b.cells = u ++ x ++ l) : b.cells = u ++ x.takeWhile f ++ x.dropWhile f ++ l := by
  rw [List.append_assoc u, List.takeWhile_append_dropWhile, hb]

theorem length_text_lt {b : Buffer LINE_BUF_SIZE} {u x l : List UInt8}
    (hb : b.cells = u ++ x ++ 0 :: l) : u.length + x.length < LINE_BUF_SIZE := by
  rw [← b.length_cells, hb, List.length_append, List.length_append, List.length_cons]
  omega

theorem finish_has {p : Parser} (token : Token) {pre rest junk : List UInt8}
    (hb : p.buffer.cells = pre ++ rest ++ 0 :: junk) (h0 : 0 ∉ rest) :
    ∃ p', finish p token pre.length = .ok (some token, p') ∧ p'.Has (skip rest) ∧
      p'.value = p.value := by
  have h0skip : 0 ∉ skip rest := fun h => h0 ((skip_suffix rest).mem h)
  have hskip : p.buffer.cells = pre ++ rest.takeWhile isspace ++ skip rest ++ 0 :: junk :=
    cells_takeWhile isspace hb
  have htrue : (skip rest).takeWhile (fun _ => true) = skip rest := by
    simp [List.takeWhile_eq_self_iff]
  have hend : p.buffer.scan (fun _ => true) (pre ++ rest.takeWhile isspace).length =
      some ((pre ++ rest.takeWhile isspace).length + (skip rest).length) := by
    refine (Buffer.scan_text hskip h0skip _).trans ?_
    rw [htrue]
    exact congrArg some List.length_append
  have hlen := length_text_lt hskip
  obtain ⟨buffer, hput, hcells⟩ := p.buffer.put_text_cells (skip rest) (by omega)
  refine ⟨{ p with buffer := buffer }, ?_, ⟨h0skip, hcells⟩, rfl⟩
  rw [finish, Buffer.scan_text hb h0 isspace]
  simp only [inBounds_some, ok_bind, hend]
  rw [Buffer.slice_cells hskip, hput]
  rfl

/-! ### Escapes -/

theorem unquote_stop {c : UInt8} (h : c = 0 ∨ stopsString c = true) (cs : List UInt8) :
    unquote (c :: cs) = ([], 0) := by
  rw [unquote.eq_def]
  simp_all [stopsString, or_assoc]

theorem unquote_slash (d : UInt8) (ds : List UInt8) :
    unquote (92 :: d :: ds) = (d :: (unquote ds).1, (unquote ds).2 + 2) := by
  rw [unquote.eq_def]
  simp [chr]

theorem unquote_cons {c : UInt8} (h0 : c ≠ 0) (hstop : ¬stopsString c = true) (hslash : c ≠ 92)
    (cs : List UInt8) : unquote (c :: cs) = (c :: (unquote cs).1, (unquote cs).2 + 1) := by
  rw [unquote.eq_def]
  simp_all [stopsString]

/-- A quoted text, followed by its terminator and more. -/
theorem unquote_escaped {q text rest l : List UInt8} (h0 : 0 ∉ q) (hl : l.head?.getD 0 = 0)
    (h : escaped stopsString [] q = some (text, rest)) : ∃ raw, q = raw ++ rest ∧
      text.length ≤ raw.length ∧ unquote (q ++ l) = (text, raw.length) := by
  fun_induction escaped stopsString [] q generalizing text rest with
  | case1 =>
    obtain ⟨rfl, rfl⟩ := Prod.mk.inj (Option.some.inj h)
    refine ⟨[], rfl, Nat.le_refl _, ?_⟩
    cases l with
    | nil => rfl
    | cons c l => exact unquote_stop (.inl hl) l
  | case2 c cs hstop =>
    obtain ⟨rfl, rfl⟩ := Prod.mk.inj (Option.some.inj h)
    exact ⟨[], rfl, Nat.le_refl _, unquote_stop (.inr hstop) _⟩
  | case3 => cases h
  | case4 d ds hstop ih =>
    obtain ⟨⟨text', rest'⟩, h', hr⟩ := Option.map_eq_some_iff.mp h
    obtain ⟨rfl, rfl⟩ := Prod.mk.inj hr
    obtain ⟨raw, hq, hlen, hun⟩ := ih (by grind) h'
    refine ⟨92 :: d :: raw, by simp [hq], by simp; omega, ?_⟩
    rw [List.cons_append, List.cons_append, unquote_slash, hun]
    rfl
  | case5 c cs hstop hslash ih =>
    obtain ⟨⟨text', rest'⟩, h', hr⟩ := Option.map_eq_some_iff.mp h
    obtain ⟨rfl, rfl⟩ := Prod.mk.inj hr
    obtain ⟨raw, hq, hlen, hun⟩ := ih (by grind) h'
    refine ⟨c :: raw, by simp [hq], by simpa using hlen, ?_⟩
    rw [List.cons_append, unquote_cons (by grind) hstop hslash, hun]
    rfl

theorem patternLength_stop {c : UInt8} (h : c = 0 ∨ stopsPattern c = true) (cs : List UInt8) :
    patternLength (c :: cs) = 0 := by
  rw [patternLength.eq_def]
  simp_all [stopsPattern, or_assoc]

theorem patternLength_slash (d : UInt8) (ds : List UInt8) :
    patternLength (92 :: d :: ds) = patternLength ds + 2 := by
  rw [patternLength.eq_def]
  simp [chr, isspace]

theorem patternLength_cons {c : UInt8} (h0 : c ≠ 0) (hstop : ¬stopsPattern c = true)
    (hslash : c ≠ 92) (cs : List UInt8) : patternLength (c :: cs) = patternLength cs + 1 := by
  rw [patternLength.eq_def]
  simp_all [stopsPattern]

/-- A pattern, followed by the terminator of the text and more. -/
theorem patternLength_escaped {q text rest l : List UInt8} (h0 : 0 ∉ q) (hl : l.head?.getD 0 = 0)
    (h : escaped stopsPattern [92] q = some (text, rest)) :
    q = text ++ rest ∧ patternLength (q ++ l) = text.length := by
  fun_induction escaped stopsPattern [92] q generalizing text rest with
  | case1 =>
    obtain ⟨rfl, rfl⟩ := Prod.mk.inj (Option.some.inj h)
    refine ⟨rfl, ?_⟩
    cases l with
    | nil => rfl
    | cons c l => exact patternLength_stop (.inl hl) l
  | case2 c cs hstop =>
    obtain ⟨rfl, rfl⟩ := Prod.mk.inj (Option.some.inj h)
    exact ⟨rfl, patternLength_stop (.inr hstop) _⟩
  | case3 => cases h
  | case4 d ds hstop ih =>
    obtain ⟨⟨text', rest'⟩, h', hr⟩ := Option.map_eq_some_iff.mp h
    obtain ⟨rfl, rfl⟩ := Prod.mk.inj hr
    obtain ⟨hq, hlen⟩ := ih (by grind) h'
    refine ⟨by simp [hq], ?_⟩
    rw [List.cons_append, List.cons_append, patternLength_slash, hlen]
    rfl
  | case5 c cs hstop hslash ih =>
    obtain ⟨⟨text', rest'⟩, h', hr⟩ := Option.map_eq_some_iff.mp h
    obtain ⟨rfl, rfl⟩ := Prod.mk.inj hr
    obtain ⟨hq, hlen⟩ := ih (by grind) h'
    refine ⟨by simp [hq], ?_⟩
    rw [List.cons_append, patternLength_cons (by grind) hstop hslash, hlen]
    rfl

/-! ### The branches of the lexer -/

section Branches

variable {p : Parser} {u r w junk : List UInt8}

theorem put_value (p : Parser) {text : List UInt8} (h : text.length < LINE_BUF_SIZE) :
    ∃ value, p.value.put 0 (text ++ [0]) = some value := by
  obtain ⟨value, hput, -⟩ := p.value.put_text_cells text h
  exact ⟨value, hput⟩

/-- Every token ends with `finish`. -/
theorem finish_refines {x : Except Fault (Option Token × Parser)} {lexed : Lexed}
    {buffer value : Buffer LINE_BUF_SIZE} {ending : Ending} {token : Token} {v rest l : List UInt8}
    (hx : x = finish { p with buffer := buffer, value := value } token u.length)
    (hlexed : lexed = .token ending token v (skip rest))
    (hb : buffer.cells = u ++ rest ++ 0 :: l) (h0 : 0 ∉ rest)
    (hvalue : p.value.put 0 v = some value) : Refines p junk x lexed := by
  subst hx hlexed
  intro _
  obtain ⟨p', hfinish, hhas, hv⟩ :=
    @finish_has { p with buffer := buffer, value := value } token u rest l hb h0
  exact ⟨p', hfinish, fun _ => hhas, hv ▸ hvalue⟩

theorem fail_refines {x : Except Fault (Option Token × Parser)} (h : x = .ok (none, p)) :
    Refines p junk x .fail := ⟨p, h⟩

theorem length_snoc (l : List UInt8) (c : UInt8) : (l ++ [c]).length = l.length + 1 := by simp

theorem lexQuoted_refines (hb : p.buffer.cells = u ++ r ++ 0 :: junk) (h0 : 0 ∉ r) :
    Refines p junk (lexQuoted p u.length) (lexemeQuoted r) := by
  have hread := Buffer.read_text hb
  cases r with
  | nil =>
    apply fail_refines
    simp [lexQuoted, hread, ok_bind, pure, Except.pure]
  | cons c q =>
    by_cases hquote : c = 34
    · subst hquote
      rw [lexemeQuoted, if_pos rfl]
      cases hesc : escaped stopsString [] q with
      | none => trivial
      | some e =>
        obtain ⟨text, rest⟩ := e
        have hq : p.buffer.cells = (u ++ [34]) ++ q ++ 0 :: junk := by simpa using hb
        obtain ⟨l, hl, hhead⟩ := Buffer.drop_bytes_cells hq (by grind)
        obtain ⟨raw, rfl, hlen, hunquote⟩ := unquote_escaped (by grind) hhead hesc
        rw [← hl, length_snoc] at hunquote
        have hrest : p.buffer.cells = (u ++ [34] ++ raw) ++ rest ++ 0 :: junk := by
          simpa using hb
        have hindex : (u ++ [34] ++ raw).length = u.length + 1 + raw.length := by
          rw [List.length_append, length_snoc]
        have hafter := Buffer.read_text hrest
        have hbound := length_text_lt hrest
        obtain ⟨value, hvalue⟩ := put_value p (show text.length < LINE_BUF_SIZE by omega)
        have hlex : lexQuoted p u.length = finish { p with value := value } .string
            (if rest.head?.getD 0 = 34 then (u ++ [34] ++ raw).length + 1
              else (u ++ [34] ++ raw).length) := by
          rw [hindex] at hafter ⊢
          simp [lexQuoted, hread, ok_bind, hunquote, hafter, hvalue]
        cases rest with
        | nil => exact finish_refines hlex rfl hrest (by simp) hvalue
        | cons d rest =>
          by_cases hd : d = 34
          · subst hd
            rw [List.head?_cons, Option.getD_some, if_pos rfl, ← length_snoc _ 34] at hlex
            exact finish_refines hlex rfl (by simpa using hrest) (by grind) hvalue
          · rw [List.head?_cons, Option.getD_some, if_neg hd] at hlex
            dsimp only
            rw [if_neg hd]
            exact finish_refines hlex rfl hrest (by grind) hvalue
    · rw [lexemeQuoted, if_neg hquote]
      apply fail_refines
      simp [lexQuoted, hread, ok_bind, pure, Except.pure, hquote]

@[simp] theorem before_append (u tail : List UInt8) : before (u ++ tail) tail = u := by
  rw [before, List.length_append, Nat.add_sub_cancel, List.take_left]

/-- A word or a name that ends at `tail`. -/
theorem delimited_refines {x : Except Fault (Option Token × Parser)} {token : Token}
    {otherwise : Lexed} {t tail v : List UInt8} {value : Buffer LINE_BUF_SIZE}
    (hb : p.buffer.cells = t ++ tail ++ 0 :: junk) (h0 : 0 ∉ tail)
    (hvalue : p.value.put 0 v = some value)
    (hclosed : ∀ buffer l, (tail.head?.getD 0 = 0 || isspace (tail.head?.getD 0)) = true →
      p.buffer.put t.length [0] = some buffer → buffer.cells = t ++ 0 :: l →
      x = finish { p with buffer := buffer, value := value } token (t.length + 1))
    (hother : ∀ d tail', tail = d :: tail' → (decide (d = 0) || isspace d) = false →
      Refines p junk x otherwise) :
    Refines p junk x (delimited token v otherwise tail) := by
  cases tail with
  | nil =>
    -- the terminator is stepped over, and what lies behind it is a text of its own
    intro hjunk
    obtain ⟨x', l, rfl, h0x⟩ := List.eq_append_cons_of_mem (hjunk rfl)
    obtain ⟨buffer, hput, hcells⟩ := Buffer.put_byte_cells
      (show p.buffer.cells = t ++ 0 :: (x' ++ 0 :: l) by simpa using hb) 0
    have hx := hclosed buffer _ rfl hput hcells
    rw [← length_snoc t 0] at hx
    obtain ⟨p', hfinish, -, hv⟩ :=
      @finish_has { p with buffer := buffer, value := value } token (t ++ [0]) x' l
        (by simpa using hcells) h0x
    exact ⟨p', hx.trans hfinish, fun hword => absurd rfl hword, hv ▸ hvalue⟩
  | cons d tail =>
    rw [delimited]
    split
    · case isTrue hspace =>
        obtain ⟨buffer, hput, hcells⟩ := Buffer.put_byte_cells
          (show p.buffer.cells = t ++ d :: (tail ++ 0 :: junk) by simpa using hb) 0
        have hx := hclosed buffer _ (by simp [hspace]) hput hcells
        rw [← length_snoc t 0] at hx
        exact finish_refines hx rfl (by simpa using hcells) (by grind) hvalue
    · case isFalse hspace =>
        have hne : d ≠ 0 := by grind
        exact hother d tail rfl (by simpa [hne] using hspace)

/-- The token and its terminator are copied to `value`. -/
theorem slice_closed {b : Buffer LINE_BUF_SIZE} {t l : List UInt8} (hb : b.cells = t ++ 0 :: l) :
    b.slice 0 (t.length + 1) = t ++ [0] := by
  rw [← length_snoc t 0]
  exact Buffer.slice_front (by simpa using hb)

/-- The text up to the end of a word that starts at `c`. -/
theorem before_takeWhile (u q : List UInt8) (c : UInt8) (f : UInt8 → Bool) :
    before (u ++ c :: q) (q.dropWhile f) = u ++ [c] ++ q.takeWhile f := by
  have hsplit : u ++ c :: q = (u ++ [c] ++ q.takeWhile f) ++ q.dropWhile f := by simp
  rw [hsplit, before_append]

/-- The bytes of a class behind the first byte of a word or a name. -/
theorem class_run {c : UInt8} {q : List UInt8} (f : UInt8 → Bool)
    (hb : p.buffer.cells = u ++ c :: q ++ 0 :: junk) (h0 : 0 ∉ c :: q) :
    p.buffer.cells = u ++ [c] ++ q.takeWhile f ++ q.dropWhile f ++ 0 :: junk ∧
      0 ∉ q.dropWhile f ∧ (u ++ [c] ++ q.takeWhile f).length < LINE_BUF_SIZE ∧
      p.buffer.scan f (u.length + 1) = some (u ++ [c] ++ q.takeWhile f).length ∧
      p.buffer.read (u ++ [c] ++ q.takeWhile f).length =
        some ((q.dropWhile f).head?.getD 0) := by
  have hq : p.buffer.cells = u ++ [c] ++ q ++ 0 :: junk := by simpa using hb
  have htail := cells_takeWhile f hq
  refine ⟨htail, fun h => ?_, ?_, ?_, Buffer.read_text htail⟩
  · exact h0 (List.mem_cons_of_mem _ ((List.dropWhile_suffix _).mem h))
  · exact Nat.lt_of_le_of_lt (Nat.le_add_right _ _) (length_text_lt htail)
  · exact length_snoc u c ▸ Buffer.scan_text hq (by grind) f

theorem lexName_refines {sigil : UInt8} {token : Token}
    {next : Nat → Except Fault (Option Token × Parser)} {nextLexed : List UInt8 → Lexed}
    (hsigil : sigil ≠ 0) (hb : p.buffer.cells = u ++ r ++ 0 :: junk) (h0 : 0 ∉ r)
    (hstart : Refines p junk (next 0) (nextLexed (u ++ r)))
    (hhere : Refines p junk (next u.length) (nextLexed r)) :
    Refines p junk (lexName sigil token next p 0 u.length)
      (lexemeName sigil token nextLexed (u ++ r) r) := by
  have hread := Buffer.read_text hb
  cases r with
  | nil =>
    have hlex : lexName sigil token next p 0 u.length = next u.length := by
      simp [lexName, hread, ok_bind, hsigil.symm]
    rw [hlex]
    exact hhere
  | cons c q =>
    by_cases hc : c = sigil
    · subst hc
      rw [lexemeName, if_pos rfl, before_takeWhile]
      obtain ⟨htail, h0tail, hbound, hrun, hafter⟩ := class_run isName hb h0
      have hscan : p.buffer.scan (fun c => isalnum c || c = chr '-' || c = chr '_')
          (u.length + 1) = some (u ++ [c] ++ q.takeWhile isName).length := hrun
      obtain ⟨value, hvalue⟩ := put_value p hbound
      refine delimited_refines htail h0tail hvalue ?_ ?_
      · intro buffer l hend hput hcells
        simp only [lexName, hread, inBounds_some, ok_bind, List.head?_cons, Option.getD_some,
          if_true, hscan, hafter, hend, hput, slice_closed hcells, hvalue]
      · intro d tail hd hend
        rw [hd] at hafter
        have hlex : lexName c token next p 0 u.length = next 0 := by
          simp only [lexName, hread, inBounds_some, ok_bind, List.head?_cons, Option.getD_some,
            if_true, hscan, hafter, hend, Bool.false_eq_true, if_false]
        rw [hlex]
        exact hstart
    · have hlex : lexName sigil token next p 0 u.length = next u.length := by
        simp [lexName, hread, ok_bind, hc]
      rw [hlex, lexemeName, if_neg hc]
      exact hhere

theorem lexSigil_refines (hb : p.buffer.cells = u ++ r ++ 0 :: junk) (h0 : 0 ∉ u ++ r) :
    Refines p junk (lexSigil p 0 u.length) (lexemeSigil (u ++ r) r) := by
  have h0r : 0 ∉ r := by grind
  have hquoted : Refines p junk (lexQuoted p 0) (lexemeQuoted (u ++ r)) :=
    lexQuoted_refines (u := []) (by simpa using hb) h0
  refine lexName_refines (by decide) hb h0r ?_ ?_
  · exact lexName_refines (u := []) (by decide) (by simpa using hb) h0 hquoted hquoted
  · exact lexName_refines (by decide) hb h0r hquoted (lexQuoted_refines hb h0r)

/-- The branch for words, behind its first byte. -/
theorem lexWord_word {c : UInt8} {q : List UInt8} {otherwise : Lexed}
    (hc : (isalnum c || c = chr '/') = true) (hb : p.buffer.cells = u ++ c :: q ++ 0 :: junk)
    (h0 : 0 ∉ u ++ c :: q) (hstart : Refines p junk (lexSigil p 0 0) otherwise) :
    Refines p junk (lexWord p 0 u.length)
      (delimited (wordToken (u ++ [c] ++ q.takeWhile isWord)).1
        (wordToken (u ++ [c] ++ q.takeWhile isWord)).2 otherwise (q.dropWhile isWord)) := by
  have hread : p.buffer.read u.length = some c := Buffer.read_text hb
  obtain ⟨htail, h0tail, hbound, hrun, hafter⟩ := class_run isWord hb (by grind)
  have hscan : p.buffer.scan (fun c => isalnum c || ispunct c) (u.length + 1) =
      some (u ++ [c] ++ q.takeWhile isWord).length := hrun
  have h0word : 0 ∉ u ++ [c] ++ q.takeWhile isWord := fun h => by
    have := (List.takeWhile_prefix (l := q) isWord).mem (a := 0)
    grind
  generalize u ++ [c] ++ q.takeWhile isWord = word at htail hbound hscan hafter h0word ⊢
  have hcstring : CString.ofBytes word = ⟨word, h0word⟩ :=
    CString.ext (CString.bytes_ofBytes h0word)
  have hother (d : UInt8) (tail : List UInt8) (hd : q.dropWhile isWord = d :: tail)
      (hend : (decide (d = 0) || isspace d) = false) :
      Refines p junk (lexWord p 0 u.length) otherwise := by
    rw [hd] at hafter
    have hlex : lexWord p 0 u.length = lexSigil p 0 0 := by
      simp only [lexWord, hread, inBounds_some, ok_bind, hc, if_true, hscan, hafter,
        List.head?_cons, Option.getD_some, hend, Bool.false_eq_true, if_false]
    rw [hlex]
    exact hstart
  cases hkey : keyword (.ofBytes word) with
  | some k =>
    have hkeep : p.value.put 0 [] = some p.value := by simp [Buffer.put]
    simp only [wordToken, hkey]
    refine delimited_refines htail h0tail hkeep (fun buffer l hend hput hcells => ?_) hother
    rw [hcstring] at hkey
    simp only [lexWord, hread, inBounds_some, ok_bind, hc, if_true, hscan, hafter, hend, hput,
      Buffer.str_cells hcells h0word, hkey]
  | none =>
    obtain ⟨value, hvalue⟩ := put_value p hbound
    simp only [wordToken, hkey]
    refine delimited_refines htail h0tail hvalue (fun buffer l hend hput hcells => ?_) hother
    rw [hcstring] at hkey
    simp only [lexWord, hread, inBounds_some, ok_bind, hc, if_true, hscan, hafter, hend, hput,
      Buffer.str_cells hcells h0word, hkey, slice_closed hcells, hvalue]

theorem lexWord_refines (hb : p.buffer.cells = u ++ r ++ 0 :: junk) (h0 : 0 ∉ u ++ r) :
    Refines p junk (lexWord p 0 u.length) (lexemeWord (u ++ r) r) := by
  have hsigil : Refines p junk (lexSigil p 0 u.length) (lexemeSigil (u ++ r) r) :=
    lexSigil_refines hb h0
  have hstart : Refines p junk (lexSigil p 0 0) (lexemeSigil (u ++ r) (u ++ r)) :=
    lexSigil_refines (u := []) (by simpa using hb) h0
  have hread := Buffer.read_text hb
  cases r with
  | nil =>
    have hlex : lexWord p 0 u.length = lexSigil p 0 u.length := by
      simp [lexWord, hread, ok_bind, isalnum, isalpha, isdigit, chr]
    rw [hlex]
    exact hsigil
  | cons c q =>
    by_cases hc : (isalnum c || c = chr '/') = true
    · rw [lexemeWord, if_pos hc, before_takeWhile]
      exact lexWord_word hc hb h0 hstart
    · have hlex : lexWord p 0 u.length = lexSigil p 0 u.length := by
        simp only [lexWord, hread, inBounds_some, ok_bind, List.head?_cons, Option.getD_some, hc,
          if_false, Bool.false_eq_true]
      rw [hlex, lexemeWord, if_neg hc]
      exact hsigil

theorem lexMatch_refines (hb : p.buffer.cells = u ++ r ++ 0 :: junk) (h0 : 0 ∉ r) :
    Refines p junk (lexMatch p u.length) (lexemeMatch r) := by
  rw [lexemeMatch]
  cases hesc : escaped stopsPattern [92] r with
  | none => trivial
  | some e =>
    obtain ⟨text, rest⟩ := e
    obtain ⟨l, hl, hhead⟩ := Buffer.drop_bytes_cells hb h0
    obtain ⟨rfl, hlen⟩ := patternLength_escaped h0 hhead hesc
    rw [← hl] at hlen
    have hrest : p.buffer.cells = (u ++ text) ++ rest ++ 0 :: junk := by simpa using hb
    have hafter := Buffer.read_text hrest
    have hbound := length_text_lt hrest
    rw [List.length_append] at hafter hbound
    cases rest with
    | nil =>
      apply fail_refines
      simp [lexMatch, hlen, hafter, ok_bind, pure, Except.pure, chr]
    | cons c rest =>
      by_cases hc : c = chr '/'
      · subst hc
        obtain ⟨buffer, hput, hcells⟩ := Buffer.put_byte_cells
          (show p.buffer.cells = (u ++ text) ++ chr '/' :: (rest ++ 0 :: junk) by
            simpa using hrest) 0
        obtain ⟨value, hvalue⟩ := put_value p (show text.length < LINE_BUF_SIZE by omega)
        have hslice : buffer.slice u.length (u.length + text.length + 1) = text ++ [0] := by
          have h := Buffer.slice_cells (u := u) (x := text ++ [0]) (l := rest ++ 0 :: junk)
            (by simpa using hcells)
          rwa [length_snoc, ← Nat.add_assoc] at h
        rw [List.length_append] at hput
        have hlex : lexMatch p u.length = finish { p with buffer := buffer, value := value }
            .match (u ++ text ++ [0]).length := by
          rw [length_snoc, List.length_append]
          simp only [lexMatch, hlen, hafter, inBounds_some, ok_bind, List.head?_cons,
            Option.getD_some, ne_eq, not_true_eq_false, if_false, hput, hslice, hvalue]
        exact finish_refines hlex (if_pos rfl) (by simpa using hcells) (by grind) hvalue
      · dsimp only
        rw [if_neg hc]
        apply fail_refines
        simp [lexMatch, hlen, hafter, ok_bind, pure, Except.pure, hc]

theorem lexText_refines (hb : p.buffer.cells = u ++ r ++ 0 :: junk) (h0 : 0 ∉ u ++ r) :
    Refines p junk (lexText p 0 u.length) (lexemeText (u ++ r) r) := by
  have hword := lexWord_refines hb h0
  have hstart : Refines p junk (lexWord p 0 0) (lexemeWord (u ++ r) (u ++ r)) :=
    lexWord_refines (u := []) (by simpa using hb) h0
  have hread := Buffer.read_text hb
  cases r with
  | nil =>
    have hlex : lexText p 0 u.length = lexWord p 0 u.length := by
      simp [lexText, hread, ok_bind, chr]
    rw [hlex]
    exact hword
  | cons c q =>
    by_cases hm : c = chr 'm'
    · subst hm
      have hq : p.buffer.cells = (u ++ [chr 'm']) ++ q ++ 0 :: junk := by simpa using hb
      have hnext := Buffer.read_text hq
      rw [length_snoc] at hnext
      rw [lexemeText, if_pos rfl]
      split
      · case isTrue hslash =>
          obtain ⟨q, rfl⟩ : ∃ q', q = chr '/' :: q' := by
            cases q with
            | nil => simp at hslash
            | cons d q => exact ⟨q, by simpa using hslash⟩
          have hlex : lexText p 0 u.length = lexMatch p (u ++ [chr 'm', chr '/']).length := by
            simp [lexText, hread, ok_bind, hnext]
          rw [hlex]
          exact lexMatch_refines (by simpa using hb) (by grind)
      · case isFalse hslash =>
          have hlex : lexText p 0 u.length = lexWord p 0 0 := by
            have hne : q.head?.getD 0 ≠ chr '/' := by
              cases q with
              | nil => decide
              | cons d q => simpa using hslash
            simp [lexText, hread, ok_bind, hnext, hne]
          rw [hlex]
          exact hstart
    · have hlex : lexText p 0 u.length = lexWord p 0 u.length := by
        simp [lexText, hread, ok_bind, hm]
      rw [hlex, lexemeText, if_neg hm]
      exact hword

theorem skip_cons {c : UInt8} (hc : isspace c = true) (l : List UInt8) :
    skip (c :: l) = skip l := List.dropWhile_cons_of_pos hc

theorem timeText_length (digits : List UInt8) (mult : Int32) :
    (decimalInt (atoi (.ofBytes digits) * mult).toInt).bytes.length < LINE_BUF_SIZE := by
  have hlow := (atoi (.ofBytes digits) * mult).le_toInt
  have hhigh := (atoi (.ofBytes digits) * mult).toInt_lt
  have hlen := length_decimalInt_le (n := (atoi (.ofBytes digits) * mult).toInt) (e := 10)
    (by omega) (by omega)
  rw [CString.length] at hlen
  exact Nat.lt_of_le_of_lt hlen (by decide)

/-- A unit after the digits. -/
theorem lexNumber_time {digits l : List UInt8} {c : UInt8} {mult : Int32}
    (hb : p.buffer.cells = digits ++ c :: l) (h0 : 0 ∉ digits)
    (hscan : p.buffer.scan isdigit 0 = some digits.length)
    (hend : (decide (c = 0) || isspace c) = false) (hunit : unit c = some mult) :
    Refines p junk (lexNumber p 0) (.token .line .time
      ((decimalInt (atoi (.ofBytes digits) * mult).toInt).bytes ++ [0]) []) := by
  have hcstring : CString.ofBytes digits = ⟨digits, h0⟩ := CString.ext (CString.bytes_ofBytes h0)
  obtain ⟨buffer, hput, hcells⟩ := Buffer.put_byte_cells hb 0
  have hstr := Buffer.str_cells hcells h0
  rw [← hcstring] at hstr
  obtain ⟨time, htime⟩ := put_value p (timeText_length digits mult)
  have hlex : lexNumber p 0 = finish { p with buffer := buffer, value := time } .time
      digits.length := by
    simp only [lexNumber, hscan, inBounds_some, ok_bind, Buffer.read_cells hb, hend,
      Bool.false_eq_true, if_false, hunit, hput, hstr, htime]
  have hrest : buffer.cells = digits ++ [] ++ 0 :: l := by simpa using hcells
  exact finish_refines hlex rfl hrest (by simp) htime

theorem lexNumber_refines (hb : p.buffer.cells = w ++ 0 :: junk) (h0 : 0 ∉ w) :
    Refines p junk (lexNumber p 0) (lexemeNumber w) := by
  have hsplit : p.buffer.cells = w.takeWhile isdigit ++ w.dropWhile isdigit ++ 0 :: junk :=
    cells_takeWhile (u := []) isdigit hb
  have hscan : p.buffer.scan isdigit 0 = some (w.takeWhile isdigit).length :=
    Buffer.scan_text (u := []) hb h0 isdigit
  have hafter := Buffer.read_text hsplit
  have hbound := length_text_lt hsplit
  have hslice : p.buffer.slice 0 (w.takeWhile isdigit).length = w.takeWhile isdigit :=
    Buffer.slice_front (by rw [hsplit, List.append_assoc])
  obtain ⟨value, hvalue, -⟩ := p.value.put_cells (i := 0) (l := w.takeWhile isdigit) (by omega)
  have hnumber {c : UInt8} (hc : c = 0 ∨ isspace c = true)
      (hhead : (w.dropWhile isdigit).head?.getD 0 = c) : lexNumber p 0 =
        finish { p with value := value } .number (w.takeWhile isdigit).length := by
    have hend : (decide (c = 0) || isspace c) = true := by simpa using hc
    simp only [lexNumber, hscan, inBounds_some, ok_bind, hafter, hhead, hend, if_true, hslice,
      hvalue]
  rw [lexemeNumber]
  cases htail : w.dropWhile isdigit with
  | nil =>
    rw [htail] at hsplit
    exact finish_refines (hnumber (.inl rfl) (by rw [htail]; rfl)) rfl hsplit (by simp) hvalue
  | cons c rest =>
    have h0tail : 0 ∉ c :: rest := fun h => h0 ((List.dropWhile_suffix _).mem (htail ▸ h))
    rw [htail] at hsplit hafter
    dsimp only
    split
    · case isTrue hspace =>
        have hlex := hnumber (.inr hspace) (by rw [htail]; rfl)
        exact finish_refines hlex (by rw [skip_cons hspace]) hsplit h0tail hvalue
    · case isFalse hspace =>
        have hend : (decide (c = 0) || isspace c) = false := by
          have hne : c ≠ 0 := by grind
          simpa [hne] using hspace
        cases hunit : unit c with
        | some mult =>
          exact lexNumber_time (by simpa using hsplit)
            (fun h => h0 ((List.takeWhile_prefix _).mem h)) hscan hend hunit
        | none =>
          have hlex : lexNumber p 0 = lexText p 0 (w.takeWhile isdigit).length := by
            simp only [lexNumber, hscan, inBounds_some, ok_bind, hafter, List.head?_cons,
              Option.getD_some, hend, Bool.false_eq_true, if_false, hunit]
          have hwhole : w = w.takeWhile isdigit ++ c :: rest := by
            rw [← htail, List.takeWhile_append_dropWhile]
          rw [hlex]
          have htext := lexText_refines hsplit (hwhole ▸ h0)
          rwa [← hwhole] at htext

end Branches

/-- The lexer and the text agree on the first token of a line that does not start with a
blank. -/
theorem lexToken_refines {p : Parser} {c : UInt8} {q : List UInt8} (h : p.Has (c :: q))
    (hc : isspace c = false) : ∃ junk value, p.buffer.cells = c :: q ++ 0 :: junk ∧
      p.value.put 0 [0] = some value ∧
      Refines { p with value := value } junk (lexToken p) (lexeme (c :: q)) := by
  obtain ⟨h0, junk, hb⟩ := h
  obtain ⟨value, hvalue, -⟩ := p.value.put_text_cells [] (by decide)
  refine ⟨junk, value, hb, hvalue, ?_⟩
  have hscan : p.buffer.scan isspace 0 = some 0 := by
    have h := Buffer.scan_text (u := []) hb h0 isspace
    rwa [List.takeWhile_cons_of_neg (by simp [hc])] at h
  have hread : p.buffer.read 0 = some c := Buffer.read_text (u := []) hb
  have hkeep : value.put 0 [] = some value := by simp [Buffer.put]
  have hbrace (token : Token) :
      Refines { p with value := value } junk (finish { p with value := value } token 1)
        (.token .closed token [] (skip q)) :=
    finish_refines (u := [c]) rfl rfl hb (by grind) hkeep
  have hlex : lexToken p = if c = chr '\x7b' then finish { p with value := value } .openBrace 1
      else if c = chr '\x7d' then finish { p with value := value } .closeBrace 1
      else if isdigit c then lexNumber { p with value := value } 0
      else lexText { p with value := value } 0 0 := by
    simp only [List.nil_append] at hvalue
    simp only [lexToken, hvalue, inBounds_some, ok_bind, hscan, hread, Nat.zero_add]
  rw [hlex, lexeme]
  split
  · exact hbrace .openBrace
  split
  · exact hbrace .closeBrace
  split
  · exact lexNumber_refines hb h0
  · exact lexText_refines (u := []) hb h0

end Bolo
