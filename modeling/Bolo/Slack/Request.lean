import Bolo.Data.Types
import Bolo.Library.Json

/-!
# Requests to Slack

`bolo2slack` posts a JSON object with four strings. The length of the text is computed first, by
`s_quotedlen`, which counts no backslash for a quote after a backslash; then the strings are
copied by `s_quotedcopy`, which writes one, and neither escapes a backslash. Nothing stops the
text between the strings from being written behind the end of the buffer.
-/
namespace Bolo.Slack

open Library Library.Json

/-! ## The writer -/

def quotedlenFrom (esc : Bool) : List UInt8 → Nat
  | [] => 0
  | b :: l =>
    (if !esc && b = QUOTE then 1 else 0) + (if b = 10 || b = 9 || b = 13 then 1 else 0) + 1 +
      quotedlenFrom (b = BACKSLASH) l

def quotedlen (s : CString) : Nat := quotedlenFrom false s.bytes

/-- Write at the end of what was written, into a buffer of `size` bytes. -/
def put (size : Nat) (json bytes : List UInt8) : Except Fault (List UInt8) :=
  if json.length + bytes.length ≤ size then .ok (json ++ bytes) else .error .outOfBounds

/-- The letter that is written after a backslash for a byte that needs one. -/
def letter (b : UInt8) : Option UInt8 :=
  if b = 10 then some 110 else if b = 13 then some 114 else if b = 9 then some 116
  else if b = QUOTE then some QUOTE else none

def quotedcopy (size len : Nat) : List UInt8 → List UInt8 → Except Fault (List UInt8)
  | [], json => .ok json
  | b :: src, json =>
    if json.length < len then
      match letter b with
      | some c => do
        let json ← put size json [BACKSLASH]
        if json.length = len then return json
        let json ← put size json [c]
        if json.length = len then return json
        quotedcopy size len src json
      | none => do
        let json ← put size json [b]
        quotedcopy size len src json
    else .ok json

structure Request where
  json : List UInt8
  len : Nat
  deriving DecidableEq

def newRequest (avatar username channel text : CString) : Except Fault Request := do
  let len := 1 + 14 + quotedlen avatar + 2 + 12 + quotedlen username + 2 +
    11 + quotedlen channel + 2 + 8 + quotedlen text + 1 + 1
  let json ← put (len + 1) [] [LBRACE]
  let json ← put (len + 1) json (CString.ascii "\"icon_emoji\":\"")
  let json ← quotedcopy (len + 1) len avatar.bytes json
  let json ← put (len + 1) json (CString.ascii "\",\"username\":\"")
  let json ← quotedcopy (len + 1) len username.bytes json
  let json ← put (len + 1) json (CString.ascii "\",\"channel\":\"")
  let json ← quotedcopy (len + 1) len channel.bytes json
  let json ← put (len + 1) json (CString.ascii "\",\"text\":\"")
  let json ← quotedcopy (len + 1) len text.bytes json
  let json ← put (len + 1) json [QUOTE]
  let json ← put (len + 1) json [RBRACE]
  return { json := json, len := len }

/-- Where to post, and about which states. -/
structure Options (Re : Type) where
  re : Re
  avatar : CString
  username : CString
  channel : CString

def message (name code summary : CString) : CString :=
  name ++ .lit " is now *" ++ code ++ .lit "*\n> " ++ summary ++ .lit "\n"

/-- `s_notify`, for the PDUs that are passed to it: the request that is posted. -/
def notify {Re : Type} [Pcre Re] (o : Options Re) (p : Pdu) : Except Fault (Option Request) :=
  if p.type = Tag.transition.text && p.size = 6 then do
    let name ← deref (p.string 1)
    let code ← deref (p.string 4)
    let summary ← deref (p.string 5)
    if Pcre.exec o.re name then
      let r ← newRequest o.avatar o.username o.channel (message name code summary)
      return some r
    else return none
  else return none

/-! ## What is written -/

def quote (b : UInt8) : List UInt8 :=
  match letter b with
  | some c => [BACKSLASH, c]
  | none => [b]

def quoted (l : List UInt8) : List UInt8 := l.flatMap quote

@[simp] theorem quoted_nil : quoted [] = [] := rfl

@[simp] theorem quoted_cons (b : UInt8) (l : List UInt8) : quoted (b :: l) = quote b ++ quoted l :=
  rfl

/-- The copy goes on until the string or the length ends. -/
theorem quotedcopy_eq {size len : Nat} (hsize : len ≤ size) (l json : List UInt8) :
    quotedcopy size len l json = .ok (json ++ (quoted l).take (len - json.length)) := by
  induction l generalizing json with
  | nil => simp [quotedcopy]
  | cons b l ih =>
    unfold quotedcopy
    split
    · case isTrue hlt =>
        obtain ⟨k, hk⟩ : ∃ k, len - json.length = k + 1 := ⟨len - json.length - 1, by omega⟩
        have hput : ∀ c : UInt8, put size json [c] = .ok (json ++ [c]) := fun c =>
          if_pos (by simp; omega)
        cases hb : letter b with
        | none =>
          have hrest : len - (json ++ [b]).length = k := by simp; omega
          simp only [hput, bind, Except.bind, ih, hrest, hk, quoted_cons, quote, hb]
          simp
        | some c =>
          simp only [hput, bind, Except.bind, pure, Except.pure, hk, quoted_cons, quote, hb]
          split
          · case isTrue hfull =>
              obtain rfl : k = 0 := by simp at hfull; omega
              simp
          · case isFalse hmore =>
              obtain ⟨k, rfl⟩ : ∃ k', k = k' + 1 := ⟨k - 1, by simp at hmore; omega⟩
              have hput' : put size (json ++ [BACKSLASH]) [c] = .ok (json ++ [BACKSLASH] ++ [c]) :=
                if_pos (by simp; omega)
              have hrest : len - (json ++ [BACKSLASH] ++ [c]).length = k := by simp; omega
              simp only [hput', ih, hrest]
              split
              · case isTrue hfull =>
                  obtain rfl : k = 0 := by simp at hfull; omega
                  simp
              · simp
    · case isFalse hge => simp [Nat.sub_eq_zero_of_le (not_lt.mp hge)]

/-- The length is right for a string without backslashes. -/
theorem quotedlenFrom_eq {l : List UInt8} (h : BACKSLASH ∉ l) :
    quotedlenFrom false l = (quoted l).length := by
  induction l with
  | nil => rfl
  | cons b l ih =>
    simp only [List.mem_cons, not_or] at h
    have hb : (if b = QUOTE then 1 else 0) + (if b = 10 ∨ b = 9 ∨ b = 13 then 1 else 0) + 1 =
        (quote b).length := by
      simp only [quote, letter]
      split_ifs <;> simp_all [QUOTE]
    simp [quotedlenFrom, Ne.symm h.1, ih h.2, ← hb, or_assoc]

/-! ## The text -/

/-- The text after the members that were written already. -/
def written : List (String × CString) → List UInt8
  | [] => [RBRACE]
  | (k, v) :: fields =>
    COMMA :: QUOTE :: (CString.ascii k ++ QUOTE :: COLON :: QUOTE ::
      (quoted v.bytes ++ QUOTE :: written fields))

def fields (avatar username channel text : CString) : List (String × CString) :=
  [("icon_emoji", avatar), ("username", username), ("channel", channel), ("text", text)]

theorem put_eq_ok {size : Nat} {json bytes json' : List UInt8} :
    put size json bytes = .ok json' ↔
      json.length + bytes.length ≤ size ∧ json' = json ++ bytes := by
  unfold put
  split <;> simp [*, eq_comm]

/-- A copy that leaves room has copied all of the string. -/
theorem copied_all {l json json' : List UInt8} {len : Nat}
    (h : json ++ (quoted l).take (len - json.length) = json') (hroom : json'.length < len) :
    json' = json ++ quoted l := by
  rw [← h, List.length_append, List.length_take] at hroom
  rw [← h, List.take_of_length_le (by omega)]

/-- A request of the announced length holds all four strings. -/
theorem newRequest_json {avatar username channel text : CString} {r : Request}
    (h : newRequest avatar username channel text = .ok r) (hlen : r.json.length = r.len) :
    r.json = LBRACE :: (written (fields avatar username channel text)).tail := by
  simp only [newRequest, bind_eq_ok, put_eq_ok, quotedcopy_eq (Nat.le_succ _), Except.ok.injEq,
    pure_eq_ok] at h
  obtain ⟨j₀, ⟨-, h₀⟩, j₁, ⟨-, h₁⟩, j₂, h₂, j₃, ⟨-, h₃⟩, j₄, h₄, j₅, ⟨-, h₅⟩, j₆, h₆, j₇, ⟨-, h₇⟩,
    j₈, h₈, j₉, ⟨-, h₉⟩, j₁₀, ⟨-, h₁₀⟩, rfl⟩ := h
  dsimp only at hlen ⊢
  generalize 1 + 14 + quotedlen avatar + 2 + 12 + quotedlen username + 2 + 11 + quotedlen channel +
    2 + 8 + quotedlen text + 1 + 1 = len at *
  -- there was room after each copy, from the last to the first
  have hlen₃ := congrArg List.length h₃
  have hlen₅ := congrArg List.length h₅
  have hlen₇ := congrArg List.length h₇
  have hlen₉ := congrArg List.length h₉
  have hlen₁₀ := congrArg List.length h₁₀
  have hlen₈' := congrArg List.length h₈
  have hlen₆' := congrArg List.length h₆
  have hlen₄' := congrArg List.length h₄
  simp only [List.length_append, List.length_cons, List.length_nil] at *
  have hall₈ := copied_all h₈ (by omega)
  have hall₆ := copied_all h₆ (by omega)
  have hall₄ := copied_all h₄ (by omega)
  have hall₂ := copied_all h₂ (by omega)
  rw [h₁₀, h₉, hall₈, h₇, hall₆, h₅, hall₄, h₃, hall₂, h₁, h₀]
  simp [written, fields, CString.ascii, QUOTE, COLON, COMMA, LBRACE, RBRACE]

theorem quotedcopy_fits {size len : Nat} (hsize : len ≤ size) {l json : List UInt8}
    (h : json.length + (quoted l).length ≤ len) :
    quotedcopy size len l json = .ok (json ++ quoted l) := by
  rw [quotedcopy_eq hsize, List.take_of_length_le (by omega)]

/-- A request for strings without backslashes has the announced length. -/
theorem newRequest_ok {avatar username channel text : CString}
    (h : ∀ f ∈ fields avatar username channel text, BACKSLASH ∉ f.2.bytes) :
    ∃ r, newRequest avatar username channel text = .ok r ∧ r.json.length = r.len := by
  simp only [fields, List.forall_mem_cons] at h
  have ha : quotedlen avatar = (quoted avatar.bytes).length := quotedlenFrom_eq h.1
  have hu : quotedlen username = (quoted username.bytes).length := quotedlenFrom_eq h.2.1
  have hc : quotedlen channel = (quoted channel.bytes).length := quotedlenFrom_eq h.2.2.1
  have ht : quotedlen text = (quoted text.bytes).length := quotedlenFrom_eq h.2.2.2.1
  have hemoji : (CString.ascii "\"icon_emoji\":\"").length = 14 := rfl
  have husername : (CString.ascii "\",\"username\":\"").length = 14 := rfl
  have hchannel : (CString.ascii "\",\"channel\":\"").length = 13 := rfl
  have htext : (CString.ascii "\",\"text\":\"").length = 10 := rfl
  rw [newRequest]
  simp only [ha, hu, hc, ht, bind_eq_ok, put_eq_ok, pure_eq_ok]
  refine ⟨_, ⟨_, ⟨?_, rfl⟩, _, ⟨?_, rfl⟩, _, quotedcopy_fits (Nat.le_succ _) ?_, _, ⟨?_, rfl⟩, _,
    quotedcopy_fits (Nat.le_succ _) ?_, _, ⟨?_, rfl⟩, _, quotedcopy_fits (Nat.le_succ _) ?_, _,
    ⟨?_, rfl⟩, _, quotedcopy_fits (Nat.le_succ _) ?_, _, ⟨?_, rfl⟩, _, ⟨?_, rfl⟩, rfl⟩, ?_⟩
  all_goals simp only [List.length_append, List.length_cons, List.length_nil, hemoji, husername,
    hchannel, htext]
  all_goals omega

/-! ## Decoding -/

/-- A byte that comes back from the text. -/
def Safe (b : UInt8) : Prop := b ≠ BACKSLASH ∧ (b < 0x20 → b = 9 ∨ b = 10 ∨ b = 13)

instance (b : UInt8) : Decidable (Safe b) := inferInstanceAs (Decidable (_ ∧ _))

/-- What follows a string in the text. -/
def Follows (t : List UInt8) : Prop := t = [RBRACE] ∨ ∃ t', t = COMMA :: QUOTE :: t'

theorem follows_written (fields : List (String × CString)) : Follows (written fields) := by
  cases fields with
  | nil => exact .inl rfl
  | cons f fields => exact .inr ⟨_, rfl⟩

theorem letter_cases {b c : UInt8} (h : letter b = some c) :
    (b = 10 ∧ c = 110) ∨ (b = 13 ∧ c = 114) ∨ (b = 9 ∧ c = 116) ∨ (b = QUOTE ∧ c = QUOTE) := by
  unfold letter at h
  split_ifs at h <;> simp_all

/-- What is written for a byte stands for it. -/
theorem escape_letter {b c : UInt8} (h : letter b = some c) (l : List UInt8) :
    escape (c :: l) = some ([b], l) := by
  rcases letter_cases h with ⟨rfl, rfl⟩ | ⟨rfl, rfl⟩ | ⟨rfl, rfl⟩ | ⟨rfl, rfl⟩ <;> rfl

/-- The first byte of the rest of a string in the text. -/
theorem quoted_eq_cons {v t l : List UInt8} {b : UInt8} (h : quoted v ++ QUOTE :: t = b :: l) :
    (v = [] ∧ b = QUOTE ∧ l = t) ∨
    (∃ v', v = b :: v' ∧ letter b = none ∧ l = quoted v' ++ QUOTE :: t) ∨
    (∃ d c v', v = d :: v' ∧ letter d = some c ∧ b = BACKSLASH ∧
      l = c :: (quoted v' ++ QUOTE :: t)) := by
  cases v with
  | nil =>
    obtain ⟨rfl, rfl⟩ := List.cons.inj h
    exact .inl ⟨rfl, rfl, rfl⟩
  | cons d v' =>
    rw [quoted_cons, quote] at h
    cases hd : letter d with
    | none =>
      simp only [hd, List.cons_append, List.cons.injEq] at h
      obtain ⟨rfl, rfl⟩ := h
      exact .inr (.inl ⟨v', rfl, hd, by simp⟩)
    | some c =>
      simp only [hd, List.cons_append, List.nil_append, List.cons.injEq] at h
      obtain ⟨rfl, rfl⟩ := h
      exact .inr (.inr ⟨d, c, v', rfl, hd, rfl, rfl⟩)

/-- Digits of an escape are bytes of the string itself. -/
theorem hexDigits_quoted {k n m : Nat} {v t l : List UInt8}
    (h : hexDigits k n (quoted v ++ QUOTE :: t) = some (m, l)) :
    ∃ p v', v = p ++ v' ∧ p.length = k ∧ l = quoted v' ++ QUOTE :: t := by
  induction k generalizing n v with
  | zero =>
    obtain ⟨-, rfl⟩ : n = m ∧ _ = l := by simpa [hexDigits] using h
    exact ⟨[], v, rfl, rfl, rfl⟩
  | succ k ih =>
    cases hl : quoted v ++ QUOTE :: t with
    | nil => simp at hl
    | cons b l' =>
      rw [hl] at h
      simp only [hexDigits, Option.bind_eq_some_iff] at h
      obtain ⟨d, hd, h⟩ := h
      rcases quoted_eq_cons hl with ⟨-, rfl, -⟩ | ⟨v', rfl, -, rfl⟩ | ⟨-, -, -, -, -, rfl, -⟩
      · exact absurd hd (by simp [show hexDigit QUOTE = none from rfl])
      · obtain ⟨p, v'', rfl, hlen, rfl⟩ := ih h
        exact ⟨b :: p, v'', rfl, by simp [hlen], rfl⟩
      · exact absurd hd (by simp [show hexDigit BACKSLASH = none from rfl])

theorem lowSurrogate_quoted {hi : Nat} {v t c l : List UInt8}
    (h : lowSurrogate hi (quoted v ++ QUOTE :: t) = some (c, l)) :
    ∃ p v', v = p ++ v' ∧ c.length ≤ p.length ∧ l = quoted v' ++ QUOTE :: t := by
  match hl : quoted v ++ QUOTE :: t with
  | [] => simp at hl
  | [b] => simp [hl, lowSurrogate] at h
  | b :: b' :: l' =>
    rw [hl, lowSurrogate] at h
    split at h
    · case isTrue hb =>
        obtain ⟨rfl, rfl⟩ := hb
        simp only [Option.bind_eq_some_iff, Prod.exists] at h
        obtain ⟨n, r, hdigits, h⟩ := h
        split at h
        · obtain ⟨rfl, rfl⟩ := Prod.mk.inj (Option.some.inj h)
          -- the backslash and the letter are bytes of the string
          obtain ⟨v', rfl, hrest⟩ : ∃ v', v = BACKSLASH :: v' ∧
              LOWER_U :: l' = quoted v' ++ QUOTE :: t := by
            rcases quoted_eq_cons hl with
              ⟨-, hq, -⟩ | ⟨v', hv, -, hrest⟩ | ⟨d, e, v', -, hd, -, hrest⟩
            · exact absurd hq (by decide)
            · exact ⟨v', hv, hrest⟩
            · obtain ⟨rfl, -⟩ := List.cons.inj hrest
              rcases letter_cases hd with ⟨-, h⟩ | ⟨-, h⟩ | ⟨-, h⟩ | ⟨-, h⟩ <;> cases h
          obtain ⟨v'', rfl, rfl⟩ : ∃ v'', v' = LOWER_U :: v'' ∧ l' = quoted v'' ++ QUOTE :: t := by
            rcases quoted_eq_cons hrest.symm with
              ⟨-, hq, -⟩ | ⟨v'', hv, -, hl'⟩ | ⟨-, -, -, -, -, hb, -⟩
            · exact absurd hq (by decide)
            · exact ⟨v'', hv, hl'⟩
            · exact absurd hb (by decide)
          obtain ⟨p, v₀, rfl, hp, rfl⟩ := hexDigits_quoted hdigits
          refine ⟨BACKSLASH :: LOWER_U :: p, v₀, rfl, ?_, rfl⟩
          have := Utf8.length_encode_le (0x10000 + (hi - 0xD800) * 0x400 + (n - 0xDC00))
          simp only [List.length_cons, hp]
          omega
        · cases h
    · cases h

/-- What a backslash of a string is taken for together with the bytes after it: as many bytes
of the string as it stands for at least, or the quote at its end, or another backslash that was
written for a byte of the string. -/
theorem escape_quoted {v t c l : List UInt8} (h : escape (quoted v ++ QUOTE :: t) = some (c, l)) :
    (v = [] ∧ c = [QUOTE] ∧ l = t) ∨
    (∃ p v', v = p ++ v' ∧ c.length ≤ p.length ∧ l = quoted v' ++ QUOTE :: t) ∨
    (∃ d e v', v = d :: v' ∧ letter d = some e ∧ c = [BACKSLASH] ∧
      l = e :: (quoted v' ++ QUOTE :: t)) := by
  cases hl : quoted v ++ QUOTE :: t with
  | nil => simp at hl
  | cons b l' =>
    rw [hl, escape] at h
    rcases quoted_eq_cons hl with
      ⟨rfl, rfl, rfl⟩ | ⟨v', rfl, -, rfl⟩ | ⟨d, e, v', rfl, hd, rfl, rfl⟩
    · obtain ⟨rfl, rfl⟩ : [QUOTE] = c ∧ l' = l := Prod.mk.inj (Option.some.inj h)
      exact .inl ⟨rfl, rfl, rfl⟩
    · refine .inr (.inl ?_)
      split at h
      · obtain ⟨rfl, rfl⟩ := Prod.mk.inj (Option.some.inj h)
        exact ⟨[b], v', rfl, le_rfl, rfl⟩
      · split at h
        · simp only [Option.bind_eq_some_iff, Prod.exists] at h
          obtain ⟨n, r, hdigits, h⟩ := h
          obtain ⟨p, v'', rfl, hp, rfl⟩ := hexDigits_quoted hdigits
          split at h
          · obtain ⟨p', v₀, rfl, hc, rfl⟩ := lowSurrogate_quoted h
            refine ⟨b :: p ++ p', v₀, by simp, ?_, rfl⟩
            simp only [List.length_append]
            omega
          · split at h
            · cases h
            · obtain ⟨rfl, rfl⟩ := Prod.mk.inj (Option.some.inj h)
              refine ⟨b :: p, v'', rfl, ?_, rfl⟩
              have := Utf8.length_encode_le n
              simp only [List.length_cons, hp]
              omega
        · cases h
    · obtain ⟨rfl, rfl⟩ : [BACKSLASH] = c ∧ e :: (quoted v' ++ QUOTE :: t) = l :=
        Prod.mk.inj (Option.some.inj h)
      exact .inr (.inr ⟨d, e, v', rfl, hd, rfl, rfl⟩)

/-- A list cut in two ways, the first cut being the shorter one behind `x`. -/
theorem append_split {c w x p v : List UInt8} (h : c ++ w = x ++ (p ++ v))
    (hle : c.length ≤ p.length) : ∃ y, w = y ++ v ∧ x ++ p = c ++ y := by
  rw [← List.append_assoc] at h
  rcases List.append_eq_append_iff.mp h with ⟨y, hy, hw⟩ | ⟨y, hc, hv⟩
  · exact ⟨y, hw, hy⟩
  · have hlen := congrArg List.length hc
    simp only [List.length_append] at hlen
    obtain rfl : y = [] := List.length_eq_zero_iff.mp (by omega)
    exact ⟨[], by simpa using hv.symm, by simpa using hc.symm⟩

/-- The quote at the end of a string, if a backslash comes before it. -/
theorem text_follows {n : Nat} {t w r : List UInt8} (ht : Follows t)
    (h : text n t = some (w, r)) : w = [COMMA] := by
  cases n with
  | zero => cases h
  | succ n =>
    rcases ht with rfl | ⟨t', rfl⟩
    · rcases text_eq_some.mp h with ⟨hq, -⟩ | ⟨-, c, l, w', hc, hend, -⟩
      · exact absurd hq (by decide)
      · obtain ⟨-, rfl⟩ := Prod.mk.inj (Option.some.inj hc)
        cases n <;> cases hend
    · have hplain : Json.Plain COMMA := by decide
      exact (text_plain_inv (List.forall_mem_singleton.mpr hplain) h).1

/-- Strings of fewer than `len` bytes come back as they are or not at all, even with something
in front of them. -/
def ComesBack (t r : List UInt8) (len : Nat) : Prop :=
  ∀ n v x, v.length < len → text n (quoted v ++ QUOTE :: t) = some (x ++ v, r) →
    x = [] ∧ (∀ b ∈ v, Safe b) ∧ r = t

section ComesBack

variable {t r v w x c : List UInt8} {len n : Nat}

/-- Bytes read for others that are as many at least leave more to come. -/
theorem ComesBack.lost (h : ComesBack t r len) {p : List UInt8} (hshort : v.length < len)
    (hc : c.length ≤ p.length) (hne : c ≠ p)
    (hw : text n (quoted v ++ QUOTE :: t) = some (w, r)) (heq : x ++ (p ++ v) = c ++ w) :
    False := by
  obtain ⟨y, rfl, hy⟩ := append_split heq.symm hc
  obtain ⟨rfl, -, -⟩ := h n v y hshort hw
  have hlen := congrArg List.length hy
  simp only [List.length_append, List.append_nil] at hlen
  obtain rfl : x = [] := List.length_eq_zero_iff.mp (by omega)
  exact hne (by simpa using hy.symm)

/-- A string with a backslash does not come back: what the backslash stands for is shorter than
the bytes that it takes. -/
theorem ComesBack.not_backslash (h : ComesBack t r (v.length + 1)) (ht : Follows t)
    {l : List UInt8} (hc : escape (quoted v ++ QUOTE :: t) = some (c, l))
    (hw : text n l = some (w, r)) : x ++ BACKSLASH :: v ≠ c ++ w := by
  intro heq
  rcases escape_quoted hc with ⟨rfl, rfl, rfl⟩ | ⟨p, v', rfl, hle, rfl⟩ |
    ⟨d, e, v', rfl, hd, rfl, rfl⟩
  · -- the quote that ends the string is taken for a part of it
    obtain rfl := text_follows ht hw
    have hlast := congrArg List.getLast? heq
    simp at hlast
    exact absurd hlast (by decide)
  · refine h.lost (p := BACKSLASH :: p) (by grind) (by grind) ?_ hw heq
    rintro rfl
    simp at hle
  · -- the backslash that was written for `d` is taken for the byte before it
    cases n with
    | zero => cases hw
    | succ n =>
      rcases text_eq_some.mp hw with ⟨-, rfl, -⟩ | ⟨hq, c, l, w, hc, hw, rfl⟩
      · have hshort := congrArg List.length heq
        simp at hshort
        omega
      · have hplain : Json.Plain e ∧ d ≠ e := by
          rcases letter_cases hd with ⟨rfl, rfl⟩ | ⟨rfl, rfl⟩ | ⟨rfl, rfl⟩ | ⟨-, rfl⟩
          · decide
          · decide
          · decide
          · exact absurd rfl hq
        obtain ⟨rfl, rfl⟩ : [e] = c ∧ _ = l :=
          Prod.mk.inj (Option.some.inj ((character_plain hplain.1 _).symm.trans hc))
        refine h.lost (c := [BACKSLASH, e]) (p := [BACKSLASH, d]) (by grind) le_rfl ?_ hw heq
        simpa using hplain.2.symm

/-- A byte that is read as it was is followed by the rest of the string. -/
theorem ComesBack.cons (h : ComesBack t r (v.length + 1)) {b : UInt8} (hb : Safe b)
    (hw : text n (quoted v ++ QUOTE :: t) = some (w, r)) (heq : x ++ b :: v = [b] ++ w) :
    x = [] ∧ (∀ c ∈ b :: v, Safe c) ∧ r = t := by
  obtain ⟨y, rfl, hy⟩ := append_split (p := [b]) heq.symm le_rfl
  obtain ⟨rfl, hall, rfl⟩ := h n v y (by omega) hw
  exact ⟨by simpa using hy, List.forall_mem_cons.mpr ⟨hb, hall⟩, rfl⟩

theorem comesBack (ht : Follows t) (r : List UInt8) (len : Nat) : ComesBack t r len := by
  induction len with
  | zero => exact fun n v x hlt => absurd hlt (by omega)
  | succ len ih =>
    intro n v x hlt h
    cases v with
    | nil =>
      obtain ⟨hnil, rfl⟩ := text_quote h
      exact ⟨by simpa using hnil, by simp, rfl⟩
    | cons b v =>
      have ih : ComesBack t r (v.length + 1) := fun n v' x hv' =>
        ih n v' x (by simp only [List.length_cons] at hlt; omega)
      cases n with
      | zero => cases h
      | succ n =>
        cases hb : letter b with
        | some c =>
          rw [quoted_cons, quote, hb, List.cons_append, List.cons_append, text_eq_some] at h
          rcases h with ⟨hq, -⟩ | ⟨-, c', l, w, hc, hw, heq⟩
          · exact absurd hq (by decide)
          · obtain ⟨rfl, rfl⟩ : [b] = c' ∧ _ = l :=
              Prod.mk.inj (Option.some.inj ((escape_letter hb _).symm.trans hc))
            refine ih.cons ?_ hw heq
            rcases letter_cases hb with ⟨rfl, -⟩ | ⟨rfl, -⟩ | ⟨rfl, -⟩ | ⟨rfl, -⟩ <;> decide
        | none =>
          rw [quoted_cons, quote, hb, List.cons_append, List.cons_append, text_eq_some] at h
          rcases h with ⟨rfl, -⟩ | ⟨-, c, l, w, hc, hw, heq⟩
          · exact absurd hb (by decide)
          · unfold character at hc
            split at hc
            · case isTrue hback =>
                subst hback
                exact absurd heq (ih.not_backslash ht hc hw)
            · split at hc
              · cases hc
              · case isFalse hback hlow =>
                  obtain ⟨rfl, rfl⟩ := Prod.mk.inj (Option.some.inj hc)
                  exact ih.cons ⟨hback, fun h => absurd h hlow⟩ hw heq

end ComesBack

/-- A string that comes back, even with something in front of it, has no backslash. -/
theorem text_quoted {n : Nat} {v t x r : List UInt8} (ht : Follows t)
    (h : text n (quoted v ++ QUOTE :: t) = some (x ++ v, r)) :
    x = [] ∧ (∀ b ∈ v, Safe b) ∧ r = t :=
  comesBack ht r (v.length + 1) n v x (by omega) h

/-- A string without backslashes and control characters comes back. -/
theorem text_safe {v : List UInt8} (hv : ∀ b ∈ v, Safe b) {n : Nat} (hn : v.length < n)
    (t : List UInt8) : text n (quoted v ++ QUOTE :: t) = some (v, t) := by
  induction v generalizing n with
  | nil =>
    obtain ⟨n, rfl⟩ := Nat.exists_eq_succ_of_ne_zero hn.ne'
    simp [text]
  | cons b v ih =>
    obtain ⟨n, rfl⟩ := Nat.exists_eq_succ_of_ne_zero (Nat.ne_zero_of_lt hn)
    obtain ⟨hb, hv⟩ := List.forall_mem_cons.mp hv
    have hrest := ih hv (by simpa using hn : v.length < n)
    cases hl : letter b with
    | some c =>
      rw [quoted_cons, quote, hl, List.cons_append, List.cons_append, text_eq_some]
      exact .inr ⟨by decide, [b], _, v, escape_letter hl _, hrest, rfl⟩
    | none =>
      have hplain : Json.Plain b := by
        refine ⟨?_, hb.1, fun hlow => ?_⟩
        · rintro rfl
          exact absurd hl (by decide)
        · rcases hb.2 hlow with rfl | rfl | rfl <;> exact absurd hl (by decide)
      rw [quoted_cons, quote, hl, List.cons_append, List.cons_append, text_eq_some]
      exact .inr ⟨hplain.1, [b], _, v, character_plain hplain _, hrest, rfl⟩

/-! ## The object -/

/-- The names of the members are plain texts. -/
def PlainNames (fields : List (String × CString)) : Prop :=
  ∀ f ∈ fields, ∀ b ∈ CString.ascii f.1, Json.Plain b ∧ b < 0x80

theorem skipBlanks_written (fields : List (String × CString)) :
    skipBlanks (written fields) = written fields := by
  cases fields <;> rfl

theorem length_le_quoted (l : List UInt8) : l.length ≤ (quoted l).length := by
  induction l with
  | nil => simp
  | cons b l ih =>
    have hb : 1 ≤ (quote b).length := by
      unfold quote
      split <;> simp
    simp only [quoted_cons, List.length_append, List.length_cons]
    omega

/-- The members of an object that is written as a whole. -/
theorem moreMembers_written {fields : List (String × CString)} (hnames : PlainNames fields)
    (hsafe : ∀ f ∈ fields, ∀ b ∈ f.2.bytes, Safe b) {n : Nat} (hn : (written fields).length < n) :
    moreMembers n (written fields) =
      some (fields.map fun f => (CString.ascii f.1, .string f.2.bytes), []) := by
  induction fields generalizing n with
  | nil =>
    obtain ⟨n, rfl⟩ := Nat.exists_eq_succ_of_ne_zero (Nat.ne_zero_of_lt hn)
    rfl
  | cons f fields ih =>
    obtain ⟨hname, hnames⟩ := List.forall_mem_cons.mp hnames
    obtain ⟨hv, hsafe⟩ := List.forall_mem_cons.mp hsafe
    have hquoted := length_le_quoted f.2.bytes
    obtain ⟨m, rfl⟩ : ∃ m, n = m + 3 := by
      refine ⟨n - 3, ?_⟩
      simp only [written, List.length_cons] at hn
      omega
    simp only [written, List.length_cons, List.length_append] at hn
    have hmore := ih hnames hsafe (n := m + 1) (by omega)
    rw [← skipBlanks_written] at hmore
    have htext := text_safe hv (n := m) (by omega) (written fields)
    have hmembers := members_string (fun b hb => (hname b hb).1) (by omega) htext hmore
    rw [written, moreMembers, if_pos rfl, skipBlanks_quote, hmembers]
    rfl

/-- Members that come back have no backslash in them. -/
theorem safe_of_moreMembers {fields : List (String × CString)} (hnames : PlainNames fields)
    {n : Nat} {ms : List (List UInt8 × Json)} {r : List UInt8}
    (h : moreMembers n (written fields) = some (ms, r))
    (hback : ∀ f ∈ fields, ∀ m ∈ ms, m.1 = CString.ascii f.1 → m.2.string? = some f.2.bytes) :
    ∀ f ∈ fields, ∀ b ∈ f.2.bytes, Safe b := by
  induction fields generalizing n ms with
  | nil => simp
  | cons f fields ih =>
    obtain ⟨hname, hnames⟩ := List.forall_mem_cons.mp hnames
    cases n with
    | zero => cases h
    | succ n =>
      rw [written, moreMembers, if_pos rfl, skipBlanks_quote] at h
      obtain ⟨m, w, l, ms', htext, hmore, rfl⟩ :=
        members_string_inv (fun b hb => (hname b hb).1) h
      have hfirst := hback f List.mem_cons_self _ List.mem_cons_self rfl
      obtain rfl : w = f.2.bytes := Option.some.inj hfirst
      obtain ⟨-, hv, rfl⟩ := text_quoted (x := []) (follows_written fields) htext
      rw [skipBlanks_written] at hmore
      refine List.forall_mem_cons.mpr ⟨hv, ih hnames hmore fun g hg m hm => ?_⟩
      exact hback g (List.mem_cons_of_mem _ hg) m (List.mem_cons_of_mem _ hm)

/-! ## Characters -/

/-- Escaping changes no character that takes more than a byte. -/
theorem run_quoted (q : Utf8.State) (l : List UInt8) : Utf8.run q (quoted l) = Utf8.run q l := by
  induction l generalizing q with
  | nil => rfl
  | cons b l ih =>
    rw [quoted_cons, quote]
    cases hb : letter b with
    | none =>
      simp only [List.singleton_append, Utf8.run]
      cases Utf8.step q b with
      | none => rfl
      | some q' => exact ih q'
    | some c =>
      have hascii : b < 0x80 ∧ c < 0x80 := by
        rcases letter_cases hb with ⟨rfl, rfl⟩ | ⟨rfl, rfl⟩ | ⟨rfl, rfl⟩ | ⟨rfl, rfl⟩ <;> decide
      have hback : BACKSLASH < 0x80 := by decide
      simp only [List.cons_append, List.nil_append, Utf8.run_ascii _ hback,
        Utf8.run_ascii _ hascii.1, Utf8.run_ascii _ hascii.2, ih, if_true]

theorem valid_written {fields : List (String × CString)} (hnames : PlainNames fields) :
    Utf8.valid (written fields) = true ↔ ∀ f ∈ fields, Utf8.valid f.2.bytes = true := by
  induction fields with
  | nil => simp [written, show Utf8.valid [RBRACE] = true from rfl]
  | cons f fields ih =>
    obtain ⟨hname, hnames⟩ := List.forall_mem_cons.mp hnames
    have hascii : Utf8.valid (CString.ascii f.1) = true := by
      generalize CString.ascii f.1 = k at hname
      induction k with
      | nil => rfl
      | cons b k ihk =>
        obtain ⟨hb, hk⟩ := List.forall_mem_cons.mp hname
        exact (Utf8.valid_cons hb.2 k).mpr (ihk hk)
    have hquoted : Utf8.valid (quoted f.2.bytes) = Utf8.valid f.2.bytes := by
      rw [Utf8.valid, Utf8.valid, run_quoted]
    have hq : QUOTE < 0x80 := by decide
    have hcolon : COLON < 0x80 := by decide
    have hcomma : COMMA < 0x80 := by decide
    rw [written, Utf8.valid_cons hcomma, Utf8.valid_cons hq, Utf8.valid_append_cons _ hq,
      Utf8.valid_cons hcolon, Utf8.valid_cons hq, Utf8.valid_append_cons _ hq, hquoted, hascii,
      ih hnames, List.forall_mem_cons]
    simp

/-! ## The request -/

/-- The object that the text opens. -/
theorem parse_written (f : String × CString) (fields : List (String × CString)) :
    parse (LBRACE :: (written (f :: fields)).tail) =
      if Utf8.valid (written (f :: fields)) then
        (moreMembers ((written (f :: fields)).length + 1) (written (f :: fields))).bind fun ms =>
          if skipBlanks ms.2 = [] then some (.object ms.1) else none
      else none := by
  generalize hl : CString.ascii f.1 ++ QUOTE :: COLON :: QUOTE ::
    (quoted f.2.bytes ++ QUOTE :: written fields) = l
  have hwritten : written (f :: fields) = COMMA :: QUOTE :: l := by rw [← hl]; rfl
  have hvalid : Utf8.valid (LBRACE :: QUOTE :: l) = Utf8.valid (COMMA :: QUOTE :: l) := by
    have hbrace : LBRACE < 0x80 := by decide
    have hcomma : COMMA < 0x80 := by decide
    rw [Bool.eq_iff_iff, Utf8.valid_cons hbrace, Utf8.valid_cons hcomma]
  have hvalue (n : Nat) : value (n + 1) (LBRACE :: QUOTE :: l) =
      (moreMembers (n + 1) (COMMA :: QUOTE :: l)).map fun ms => (.object ms.1, ms.2) := by
    rw [value, if_neg (by decide), if_pos rfl, moreMembers, if_pos rfl, skipBlanks_quote]
    rfl
  have hblank : skipBlanks (LBRACE :: QUOTE :: l) = LBRACE :: QUOTE :: l := rfl
  rw [hwritten, List.tail_cons, parse, hvalid, hblank, List.length_cons, hvalue]
  split
  · cases moreMembers _ (COMMA :: QUOTE :: l) <;> rfl
  · rfl

/-- The text of a request is JSON for the four strings. -/
def Represents (json : List UInt8) (avatar username channel text : CString) : Prop :=
  ∃ v, parse json = some v ∧ v.named (CString.ascii "icon_emoji") = [some avatar.bytes] ∧
    v.named (CString.ascii "username") = [some username.bytes] ∧
    v.named (CString.ascii "channel") = [some channel.bytes] ∧
    v.named (CString.ascii "text") = [some text.bytes]

/-- A string that can be sent: valid UTF-8 without backslashes, and of the control characters
only tabs and ends of lines. -/
def Sendable (s : CString) : Prop := Utf8.valid s.bytes = true ∧ ∀ b ∈ s.bytes, Safe b

-- The bytes of the string are looked at, not every byte that there is.
instance (s : CString) : Decidable (Sendable s) :=
  @instDecidableAnd _ _ _ (List.decidableBAll Safe s.bytes)

section Request

variable {avatar username channel text : CString}

theorem plainNames_fields : PlainNames (fields avatar username channel text) := by
  have hall : ((fields avatar username channel text).all fun f =>
      (CString.ascii f.1).all fun b => decide (Json.Plain b ∧ b < 0x80)) = true := by
    simp only [fields, List.all_cons]
    decide
  simpa only [PlainNames, List.all_eq_true, decide_eq_true_eq] using hall

theorem sendable_of_represents
    (h : Represents (LBRACE :: (written (fields avatar username channel text)).tail) avatar
      username channel text) : ∀ f ∈ fields avatar username channel text, Sendable f.2 := by
  obtain ⟨v, hparse, hv⟩ := h
  rw [fields, parse_written, ← fields] at hparse
  split at hparse
  · case isTrue hvalid =>
      simp only [Option.bind_eq_some_iff, Prod.exists] at hparse
      obtain ⟨ms, rest, hms, hparse⟩ := hparse
      split at hparse
      · obtain rfl := Option.some.inj hparse
        have hback : ∀ f ∈ fields avatar username channel text, ∀ m ∈ ms,
            m.1 = CString.ascii f.1 → m.2.string? = some f.2.bytes := by
          simp only [fields, List.forall_mem_cons]
          exact ⟨string?_of_named hv.1, string?_of_named hv.2.1, string?_of_named hv.2.2.1,
            string?_of_named hv.2.2.2, by simp⟩
        have hsafe := safe_of_moreMembers plainNames_fields hms hback
        exact fun f hf => ⟨(valid_written plainNames_fields).mp hvalid f hf, hsafe f hf⟩
      · cases hparse
  · cases hparse

theorem represents_of_sendable (h : ∀ f ∈ fields avatar username channel text, Sendable f.2) :
    Represents (LBRACE :: (written (fields avatar username channel text)).tail) avatar username
      channel text := by
  have hvalid := (valid_written plainNames_fields).mpr fun f hf => (h f hf).1
  have hms := moreMembers_written plainNames_fields (fun f hf => (h f hf).2) (Nat.lt_succ_self _)
  refine ⟨.object ((fields avatar username channel text).map fun f =>
    (CString.ascii f.1, .string f.2.bytes)), ?_, ?_⟩
  · rw [fields] at hvalid hms ⊢
    rw [parse_written, if_pos hvalid, hms, Option.bind_some]
    rfl
  · simp [named, fields, string?, CString.ascii]

theorem newRequest_represents (h : ∀ f ∈ fields avatar username channel text, Sendable f.2) :
    ∃ r, newRequest avatar username channel text = .ok r ∧ r.json.length = r.len ∧
      Represents r.json avatar username channel text := by
  obtain ⟨r, hr, hlen⟩ := newRequest_ok fun f hf hb => ((h f hf).2 _ hb).1 rfl
  refine ⟨r, hr, hlen, ?_⟩
  rw [newRequest_json hr hlen]
  exact represents_of_sendable h

end Request

/-- A request is written within its buffer, with the announced length, and as JSON for the four
strings exactly if all four can be sent. -/
theorem request_represents_iff (avatar username channel text : CString) :
    (∃ r, newRequest avatar username channel text = .ok r ∧ r.json.length = r.len ∧
      Represents r.json avatar username channel text) ↔
      ∀ s ∈ [avatar, username, channel, text], Sendable s := by
  have hsendable : (∀ s ∈ [avatar, username, channel, text], Sendable s) ↔
      ∀ f ∈ fields avatar username channel text, Sendable f.2 := by simp [fields]
  rw [hsendable]
  constructor
  · rintro ⟨r, hr, hlen, hjson⟩
    rw [newRequest_json hr hlen] at hjson
    exact sendable_of_represents hjson
  · exact newRequest_represents

/-- Quotes with backslashes before them, and a path: the first text is written past the end of
the buffer, the second is read as a text with a tab. -/
theorem request_misrepresents :
    newRequest (.lit ":robot_face:") (.lit "bolo") (.lit "#ops")
        (message (.lit "web") (.lit "CRITICAL") (.lit "\\\"up\\\" expected")) =
      .error .outOfBounds ∧
    ∃ r, newRequest (.lit ":robot_face:") (.lit "bolo") (.lit "#ops")
        (message (.lit "disk") (.lit "CRITICAL") (.lit "C:\\temp")) = .ok r ∧
      (parse r.json).map (named (CString.ascii "text")) =
        some [some (message (.lit "disk") (.lit "CRITICAL") (.lit "C:\temp")).bytes] := by
  refine ⟨by decide +kernel, ?_⟩
  obtain ⟨r, hr⟩ := exists_ok (x := newRequest (.lit ":robot_face:") (.lit "bolo") (.lit "#ops")
    (message (.lit "disk") (.lit "CRITICAL") (.lit "C:\\temp"))) (by decide +kernel)
  refine ⟨r, hr, ?_⟩
  have hparse : (newRequest (.lit ":robot_face:") (.lit "bolo") (.lit "#ops")
      (message (.lit "disk") (.lit "CRITICAL") (.lit "C:\\temp"))).map
        (fun r => (parse r.json).map (named (CString.ascii "text"))) =
      .ok (some [some (message (.lit "disk") (.lit "CRITICAL") (.lit "C:\temp")).bytes]) := by
    decide +kernel
  rw [hr] at hparse
  exact Except.ok.inj hparse

/-! ## Notifications -/

theorem Sendable.append {s t : CString} (hs : Sendable s) (ht : Sendable t) :
    Sendable (s ++ t) := by
  refine ⟨?_, ?_⟩
  · have hvalid := hs.1
    have hvalid' := ht.1
    simp only [Utf8.valid, decide_eq_true_eq, CString.bytes_append, Utf8.run_append] at *
    rw [hvalid, Option.bind_some, hvalid']
  · intro b hb
    exact (List.mem_append.mp hb).elim (hs.2 b) (ht.2 b)

theorem sendable_message {name code summary : CString} (hname : Sendable name)
    (hcode : Sendable code) (hsummary : Sendable summary) :
    Sendable (message name code summary) := by
  have hnow : Sendable (.lit " is now *") := by decide
  have hquote : Sendable (.lit "*\n> ") := by decide
  have hend : Sendable (.lit "\n") := by decide
  exact ((((hname.append hnow).append hcode).append hquote).append hsummary).append hend

/-- A transition of a state whose frames can be sent is announced as JSON of its message. -/
theorem notify_represents {Re : Type} [Pcre Re] {o : Options Re} {p : Pdu}
    {name code summary : CString} (hp : p.type = Tag.transition.text ∧ p.size = 6)
    (hname : p.string 1 = some name) (hcode : p.string 4 = some code)
    (hsummary : p.string 5 = some summary)
    (hmatch : Pcre.exec o.re name = true)
    (hsend : ∀ s ∈ [o.avatar, o.username, o.channel, name, code, summary], Sendable s) :
    ∃ r, notify o p = .ok (some r) ∧ r.json.length = r.len ∧
      Represents r.json o.avatar o.username o.channel (message name code summary) := by
  simp only [List.forall_mem_cons] at hsend
  obtain ⟨havatar, husername, hchannel, hn, hc, hs, -⟩ := hsend
  have hmessage := sendable_message hn hc hs
  have hfields : ∀ f ∈ fields o.avatar o.username o.channel (message name code summary),
      Sendable f.2 := by
    simp [fields, havatar, husername, hchannel, hmessage]
  obtain ⟨r, hr, hlen, hjson⟩ := newRequest_represents hfields
  refine ⟨r, ?_, hlen, hjson⟩
  simp [notify, hp, hname, hcode, hsummary, hmatch, hr, bind, Except.bind, pure, Except.pure]

end Bolo.Slack
