import Bolo.Library.CString

/-!
# JSON texts

A decoder of JSON texts given as bytes. A text is valid UTF-8; its strings are decoded to the
bytes of their characters, and a `\u` escape of one half of a surrogate pair stands for no
character. Numbers are kept as they are written. The decoder counts down a number that a text
cannot use up, one for each byte at most.
-/
namespace Library

/-! ## UTF-8 -/

namespace Utf8

/-- What is expected: a character, or what may follow its first bytes. -/
inductive State where
  | start | tail1 | tail2 | tail3 | afterE0 | afterED | afterF0 | afterF4
  deriving DecidableEq

def first (b : UInt8) : Option State :=
  if b < 0x80 then some .start
  else if 0xC2 ≤ b ∧ b ≤ 0xDF then some .tail1
  else if b = 0xE0 then some .afterE0
  else if b = 0xED then some .afterED
  else if 0xE1 ≤ b ∧ b ≤ 0xEF then some .tail2
  else if b = 0xF0 then some .afterF0
  else if 0xF1 ≤ b ∧ b ≤ 0xF3 then some .tail3
  else if b = 0xF4 then some .afterF4
  else none

def within (low high b : UInt8) (next : State) : Option State :=
  if low ≤ b ∧ b ≤ high then some next else none

def step : State → UInt8 → Option State
  | .start, b => first b
  | .tail1, b => within 0x80 0xBF b .start
  | .tail2, b => within 0x80 0xBF b .tail1
  | .tail3, b => within 0x80 0xBF b .tail2
  | .afterE0, b => within 0xA0 0xBF b .tail1
  | .afterED, b => within 0x80 0x9F b .tail1
  | .afterF0, b => within 0x90 0xBF b .tail2
  | .afterF4, b => within 0x80 0x8F b .tail2

def run : State → List UInt8 → Option State
  | q, [] => some q
  | q, b :: l => (step q b).bind (run · l)

def valid (l : List UInt8) : Bool := run .start l = some .start

theorem run_append (q : State) (l m : List UInt8) :
    run q (l ++ m) = (run q l).bind (run · m) := by
  induction l generalizing q with
  | nil => rfl
  | cons b l ih =>
    simp only [List.cons_append, run]
    cases step q b with
    | none => rfl
    | some q' => exact ih q'

/-- A byte below 128 is a character, and no part of another. -/
theorem step_ascii (q : State) {b : UInt8} (hb : b < 0x80) :
    step q b = if q = .start then some .start else none := by
  have hlow : ∀ low high next, 0x80 ≤ low → within low high b next = none := by
    intro low high next hle
    refine if_neg fun h => ?_
    simp only [UInt8.lt_iff_toNat_lt, UInt8.le_iff_toNat_le] at hb hle h
    omega
  cases q with
  | start => simp [step, first, hb]
  | _ => simp [step, hlow]

theorem run_ascii (q : State) {b : UInt8} (hb : b < 0x80) (l : List UInt8) :
    run q (b :: l) = if q = .start then run .start l else none := by
  rw [run, step_ascii q hb]
  split <;> rfl

/-- A text falls into characters at any byte below 128. -/
theorem valid_append_cons (l : List UInt8) {b : UInt8} (hb : b < 0x80) (m : List UInt8) :
    valid (l ++ b :: m) = true ↔ valid l = true ∧ valid m = true := by
  simp only [valid, decide_eq_true_eq, run_append]
  cases run .start l with
  | none => simp
  | some q =>
    simp only [Option.bind_some, run_ascii q hb, Option.some.injEq]
    split <;> simp [*]

theorem valid_cons {b : UInt8} (hb : b < 0x80) (l : List UInt8) :
    valid (b :: l) = true ↔ valid l = true := by
  have hnil : valid [] = true := by decide
  simpa [hnil] using valid_append_cons [] hb l

/-- The bytes of a character. -/
def encode (c : Nat) : List UInt8 :=
  if c < 0x80 then [.ofNat c]
  else if c < 0x800 then [.ofNat (0xC0 + c / 0x40), .ofNat (0x80 + c % 0x40)]
  else if c < 0x10000 then
    [.ofNat (0xE0 + c / 0x1000), .ofNat (0x80 + c / 0x40 % 0x40), .ofNat (0x80 + c % 0x40)]
  else
    [.ofNat (0xF0 + c / 0x40000), .ofNat (0x80 + c / 0x1000 % 0x40),
     .ofNat (0x80 + c / 0x40 % 0x40), .ofNat (0x80 + c % 0x40)]

theorem length_encode_le (c : Nat) : (encode c).length ≤ 4 := by
  unfold encode
  split
  · simp
  · split
    · simp
    · split <;> simp

end Utf8

/-! ## Values -/

inductive Json where
  | null
  | bool (b : Bool)
  | number (text : List UInt8)
  | string (text : List UInt8)
  | array (items : List Json)
  | object (members : List (List UInt8 × Json))

namespace Json

def string? : Json → Option (List UInt8)
  | .string text => some text
  | _ => none

/-- The members of an object with a given name, as strings. -/
def named (name : List UInt8) : Json → List (Option (List UInt8))
  | .object members => (members.filter (·.1 = name)).map (·.2.string?)
  | _ => []

theorem string?_of_named {name w : List UInt8} {members : List (List UInt8 × Json)}
    (h : (object members).named name = [some w]) :
    ∀ m ∈ members, m.1 = name → m.2.string? = some w := by
  intro m hm hname
  have hmem : m.2.string? ∈ (object members).named name :=
    List.mem_map_of_mem (List.mem_filter.mpr ⟨hm, by simpa using hname⟩)
  rw [h] at hmem
  exact List.mem_singleton.mp hmem

/-! ## Strings -/

def QUOTE : UInt8 := 34
def BACKSLASH : UInt8 := 92
def COLON : UInt8 := 58
def LBRACE : UInt8 := 123
def RBRACE : UInt8 := 125
def LBRACKET : UInt8 := 91
def RBRACKET : UInt8 := 93
def LOWER_U : UInt8 := 117

def hexDigit (b : UInt8) : Option Nat :=
  if 48 ≤ b ∧ b ≤ 57 then some (b.toNat - 48)
  else if 65 ≤ b ∧ b ≤ 70 then some (b.toNat - 55)
  else if 97 ≤ b ∧ b ≤ 102 then some (b.toNat - 87)
  else none

/-- A number of hexadecimal digits, read on from `n`. -/
def hexDigits : Nat → Nat → List UInt8 → Option (Nat × List UInt8)
  | 0, n, l => some (n, l)
  | _ + 1, _, [] => none
  | k + 1, n, b :: l => (hexDigit b).bind fun d => hexDigits k (16 * n + d) l

def escapes : List (UInt8 × UInt8) :=
  [(34, 34), (92, 92), (47, 47), (98, 8), (102, 12), (110, 10), (114, 13), (116, 9)]

/-- The second half of a surrogate pair. -/
def lowSurrogate (hi : Nat) : List UInt8 → Option (List UInt8 × List UInt8)
  | b :: c :: l =>
    if b = BACKSLASH ∧ c = LOWER_U then
      (hexDigits 4 0 l).bind fun r =>
        if 0xDC00 ≤ r.1 ∧ r.1 < 0xE000 then
          some (Utf8.encode (0x10000 + (hi - 0xD800) * 0x400 + (r.1 - 0xDC00)), r.2)
        else none
    else none
  | _ => none

/-- What a backslash stands for together with the bytes after it, and what follows. -/
def escape : List UInt8 → Option (List UInt8 × List UInt8)
  | [] => none
  | b :: l =>
    match escapes.lookup b with
    | some c => some ([c], l)
    | none =>
      if b = LOWER_U then
        (hexDigits 4 0 l).bind fun r =>
          if 0xD800 ≤ r.1 ∧ r.1 < 0xDC00 then lowSurrogate r.1 r.2
          else if 0xDC00 ≤ r.1 ∧ r.1 < 0xE000 then none
          else some (Utf8.encode r.1, r.2)
      else none

/-- One character that starts with `b`. -/
def character (b : UInt8) (l : List UInt8) : Option (List UInt8 × List UInt8) :=
  if b = BACKSLASH then escape l else if b < 0x20 then none else some ([b], l)

/-- A string after its opening quote, and what follows its closing quote. -/
def text : Nat → List UInt8 → Option (List UInt8 × List UInt8)
  | 0, _ => none
  | _ + 1, [] => none
  | n + 1, b :: l =>
    if b = QUOTE then some ([], l)
    else (character b l).bind fun c => (text n c.2).map fun s => (c.1 ++ s.1, s.2)

/-- A byte that stands for itself in a string. -/
def Plain (b : UInt8) : Prop := b ≠ QUOTE ∧ b ≠ BACKSLASH ∧ ¬b < 0x20

instance (b : UInt8) : Decidable (Plain b) := inferInstanceAs (Decidable (_ ∧ _ ∧ _))

theorem text_eq_some {n : Nat} {b : UInt8} {l w r : List UInt8} :
    text (n + 1) (b :: l) = some (w, r) ↔
      (b = QUOTE ∧ w = [] ∧ r = l) ∨
      (b ≠ QUOTE ∧ ∃ c l' w', character b l = some (c, l') ∧ text n l' = some (w', r) ∧
        w = c ++ w') := by
  by_cases hb : b = QUOTE
  · simp [text, hb, eq_comm]
  · simp only [text, hb, if_false, Option.bind_eq_some_iff, Option.map_eq_some_iff, Prod.exists,
      Prod.mk.injEq, false_and, false_or, ne_eq, not_false_eq_true, true_and]
    constructor
    · rintro ⟨c, l', hc, w', r', ht, rfl, rfl⟩
      exact ⟨c, l', w', hc, ht, rfl⟩
    · rintro ⟨c, l', w', hc, ht, rfl⟩
      exact ⟨c, l', hc, w', r, ht, rfl, rfl⟩

theorem character_plain {b : UInt8} (hb : Plain b) (l : List UInt8) :
    character b l = some ([b], l) := by
  simp [character, hb.2.1, hb.2.2]

theorem text_quote {n : Nat} {l w r : List UInt8} (h : text n (QUOTE :: l) = some (w, r)) :
    w = [] ∧ r = l := by
  cases n with
  | zero => cases h
  | succ n =>
    rcases text_eq_some.mp h with ⟨-, hw, hr⟩ | ⟨hne, -⟩
    · exact ⟨hw, hr⟩
    · exact absurd rfl hne

/-- Decoding a string of plain bytes. -/
theorem text_plain {k : List UInt8} (hk : ∀ b ∈ k, Plain b) {n : Nat} (hn : k.length < n)
    (l : List UInt8) : text n (k ++ QUOTE :: l) = some (k, l) := by
  induction k generalizing n with
  | nil =>
    obtain ⟨n, rfl⟩ := Nat.exists_eq_succ_of_ne_zero hn.ne'
    simp [text]
  | cons b k ih =>
    obtain ⟨n, rfl⟩ := Nat.exists_eq_succ_of_ne_zero (Nat.ne_zero_of_lt hn)
    simp only [List.forall_mem_cons] at hk
    rw [List.cons_append, text_eq_some]
    exact .inr ⟨hk.1.1, [b], _, k, character_plain hk.1 _, ih hk.2 (by simpa using hn), rfl⟩

theorem text_plain_inv {k : List UInt8} (hk : ∀ b ∈ k, Plain b) {n : Nat} {l w r : List UInt8}
    (h : text n (k ++ QUOTE :: l) = some (w, r)) : w = k ∧ r = l := by
  induction k generalizing n w with
  | nil => exact text_quote h
  | cons b k ih =>
    simp only [List.forall_mem_cons] at hk
    cases n with
    | zero => cases h
    | succ n =>
      rcases text_eq_some.mp h with ⟨hq, -⟩ | ⟨-, c, l', w', hc, ht, rfl⟩
      · exact absurd hq hk.1.1
      · obtain ⟨rfl, rfl⟩ : [b] = c ∧ k ++ QUOTE :: l = l' := by
          simpa [character_plain hk.1] using hc
        obtain ⟨rfl, rfl⟩ := ih hk.2 ht
        exact ⟨rfl, rfl⟩

/-! ## Numbers and structure -/

def digits (l : List UInt8) : Option (List UInt8) :=
  if l.takeWhile isdigit = [] then none else some (l.dropWhile isdigit)

/-- A number: sign, integer part, fraction and exponent. -/
def numeral (l : List UInt8) : Option (List UInt8 × List UInt8) := do
  let signless := if l.head? = some 45 then l.tail else l
  let whole ← if signless.head? = some 48 then some signless.tail else digits signless
  let fraction ← if whole.head? = some 46 then digits whole.tail else some whole
  let rest ←
    if fraction.head? = some 101 ∨ fraction.head? = some 69 then
      let e := fraction.tail
      digits (if e.head? = some 43 ∨ e.head? = some 45 then e.tail else e)
    else some fraction
  return (l.take (l.length - rest.length), rest)

def skipBlanks (l : List UInt8) : List UInt8 :=
  l.dropWhile fun b => b = 32 || b = 9 || b = 10 || b = 13

def expect (b : UInt8) : List UInt8 → Option (List UInt8)
  | c :: l => if c = b then some l else none
  | [] => none

def keyword (word : String) (v : Json) (l : List UInt8) : Option (Json × List UInt8) :=
  if CString.ascii word <+: l then some (v, l.drop word.length) else none

mutual

def value : Nat → List UInt8 → Option (Json × List UInt8)
  | 0, _ => none
  | _ + 1, [] => none
  | n + 1, b :: l =>
    if b = QUOTE then (text n l).map fun s => (.string s.1, s.2)
    else if b = LBRACE then
      match expect RBRACE (skipBlanks l) with
      | some l => some (.object [], l)
      | none => (members n (skipBlanks l)).map fun ms => (.object ms.1, ms.2)
    else if b = LBRACKET then
      match expect RBRACKET (skipBlanks l) with
      | some l => some (.array [], l)
      | none => (items n (skipBlanks l)).map fun vs => (.array vs.1, vs.2)
    else
      (keyword "null" .null (b :: l)).orElse fun _ =>
        (keyword "true" (.bool true) (b :: l)).orElse fun _ =>
          (keyword "false" (.bool false) (b :: l)).orElse fun _ =>
            (numeral (b :: l)).map fun s => (.number s.1, s.2)

/-- The members of an object, of which there is one at least. -/
def members : Nat → List UInt8 → Option (List (List UInt8 × Json) × List UInt8)
  | 0, _ => none
  | n + 1, l =>
    (expect QUOTE l).bind fun l =>
      (text n l).bind fun key =>
        (expect COLON (skipBlanks key.2)).bind fun l =>
          (value n (skipBlanks l)).bind fun v =>
            (moreMembers n (skipBlanks v.2)).map fun ms => ((key.1, v.1) :: ms.1, ms.2)

def moreMembers : Nat → List UInt8 → Option (List (List UInt8 × Json) × List UInt8)
  | 0, _ => none
  | _ + 1, [] => none
  | n + 1, b :: l =>
    if b = COMMA then members n (skipBlanks l)
    else if b = RBRACE then some ([], l)
    else none

/-- The items of an array, of which there is one at least. -/
def items : Nat → List UInt8 → Option (List Json × List UInt8)
  | 0, _ => none
  | n + 1, l =>
    (value n l).bind fun v =>
      (moreItems n (skipBlanks v.2)).map fun vs => (v.1 :: vs.1, vs.2)

def moreItems : Nat → List UInt8 → Option (List Json × List UInt8)
  | 0, _ => none
  | _ + 1, [] => none
  | n + 1, b :: l =>
    if b = COMMA then items n (skipBlanks l)
    else if b = RBRACKET then some ([], l)
    else none

end

/-- The value that a text stands for. -/
def parse (l : List UInt8) : Option Json :=
  if Utf8.valid l then
    (value (l.length + 1) (skipBlanks l)).bind fun v =>
      if skipBlanks v.2 = [] then some v.1 else none
  else none

@[simp] theorem skipBlanks_quote (l : List UInt8) : skipBlanks (QUOTE :: l) = QUOTE :: l := rfl

@[simp] theorem skipBlanks_colon (l : List UInt8) : skipBlanks (COLON :: l) = COLON :: l := rfl

/-- A member with a plain name and a string for its value. -/
theorem members_string {k : List UInt8} (hk : ∀ b ∈ k, Plain b) {m : Nat} (hm : k.length ≤ m)
    {l w l' r : List UInt8} {ms : List (List UInt8 × Json)} (hl : text m l = some (w, l'))
    (hms : moreMembers (m + 1) (skipBlanks l') = some (ms, r)) :
    members (m + 2) (QUOTE :: (k ++ QUOTE :: COLON :: QUOTE :: l)) =
      some ((k, .string w) :: ms, r) := by
  have hkey := text_plain hk (Nat.lt_succ_of_le hm) (COLON :: QUOTE :: l)
  have hvalue : value (m + 1) (QUOTE :: l) = some (.string w, l') := by
    rw [value, if_pos rfl, hl]
    rfl
  rw [members]
  simp only [expect, if_true, Option.bind_some, hkey, skipBlanks_colon, skipBlanks_quote, hvalue,
    hms, Option.map_some]

theorem members_string_inv {k : List UInt8} (hk : ∀ b ∈ k, Plain b) {n : Nat}
    {l r : List UInt8} {ms : List (List UInt8 × Json)}
    (h : members n (QUOTE :: (k ++ QUOTE :: COLON :: QUOTE :: l)) = some (ms, r)) :
    ∃ m w l' ms', text m l = some (w, l') ∧ moreMembers (m + 1) (skipBlanks l') = some (ms', r) ∧
      ms = (k, .string w) :: ms' := by
  cases n with
  | zero => cases h
  | succ n =>
    simp only [members, expect, if_true, Option.bind_some, Option.bind_eq_some_iff,
      Option.map_eq_some_iff, Prod.exists, Prod.mk.injEq] at h
    obtain ⟨key, l₁, hkey, l₂, hcolon, v, l₃, hv, ms', r', hms, rfl, rfl⟩ := h
    obtain ⟨rfl, rfl⟩ := text_plain_inv hk hkey
    obtain rfl := Option.some.inj hcolon
    cases n with
    | zero => cases hv
    | succ m =>
      simp only [skipBlanks_quote, value, if_true, Option.map_eq_some_iff, Prod.exists,
        Prod.mk.injEq] at hv
      obtain ⟨w, l', ht, rfl, rfl⟩ := hv
      exact ⟨m, w, l', ms', ht, hms, rfl⟩

end Json

end Library
