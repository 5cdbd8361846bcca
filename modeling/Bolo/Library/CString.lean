import Bolo.Library.Word
import Mathlib.Data.List.Infix
import Mathlib.Data.List.TakeWhile
import Mathlib.Tactic.Ring
import Mathlib.Data.Nat.Digits.Defs

/-!
# C strings and the number scanning of the C library

A `CString` is the text a `char *` points to: the bytes before the first NUL. Character
classes are those of the C locale, where no byte above 127 belongs to any class.

`strtol`, `strtoul` and `atoi` follow the C standard in base 10 on a 64-bit `long`:
leading blanks, one optional sign, the longest run of digits, and saturation on overflow.
-/
namespace Library

structure CString where
  bytes : List UInt8
  nulFree : (0 : UInt8) ∉ bytes
  deriving DecidableEq

namespace CString

/-- The string that starts at the given bytes and ends before their first NUL. -/
def ofBytes (l : List UInt8) : CString :=
  ⟨l.takeWhile (· ≠ 0), fun h => by simpa using List.mem_takeWhile_imp h⟩

@[ext] theorem ext {s t : CString} (h : s.bytes = t.bytes) : s = t := by
  cases s
  cases t
  simpa using h

theorem bytes_ofBytes {l : List UInt8} (h : (0 : UInt8) ∉ l) : (ofBytes l).bytes = l :=
  List.takeWhile_eq_self_iff.mpr fun _ hc => decide_eq_true fun h0 => h (h0 ▸ hc)

@[simp] theorem ofBytes_bytes (s : CString) : ofBytes s.bytes = s := ext (bytes_ofBytes s.nulFree)

theorem bytes_ofBytes_append {l : List UInt8} (hl : (0 : UInt8) ∉ l) (rest : List UInt8) :
    (ofBytes (l ++ rest)).bytes = l ++ (ofBytes rest).bytes :=
  List.takeWhile_append_of_pos fun _ hc => decide_eq_true fun h => hl (h ▸ hc)

theorem bytes_ofBytes_eq_nil {l : List UInt8} :
    (ofBytes l).bytes = [] ↔ l.head?.getD 0 = 0 := by
  cases l with
  | nil => simp [ofBytes]
  | cons c l => simp [ofBytes, List.takeWhile_cons]

def ascii (s : String) : List UInt8 := s.toList.map fun c => UInt8.ofNat c.toNat

def lit (s : String) : CString := ofBytes (ascii s)

def length (s : CString) : Nat := s.bytes.length

def isEmpty (s : CString) : Bool := s.bytes.isEmpty

def append (s t : CString) : CString :=
  ⟨s.bytes ++ t.bytes, by simp [s.nulFree, t.nulFree]⟩

instance : Append CString := ⟨append⟩

@[simp] theorem bytes_append (s t : CString) : (s ++ t).bytes = s.bytes ++ t.bytes := rfl

theorem takeWhile_bytes_append (s : CString) (l : List UInt8) :
    (s.bytes ++ 0 :: l).takeWhile (· ≠ 0) = s.bytes := by
  rw [List.takeWhile_append_of_pos]
  · simp
  · intro b hb
    exact decide_eq_true fun h => s.nulFree (h ▸ hb)

/-- Reading back a stored string stops at its terminator. -/
@[simp] theorem ofBytes_append (s : CString) (l : List UInt8) :
    ofBytes (s.bytes ++ 0 :: l) = s := by
  cases s with
  | mk b h =>
    unfold ofBytes
    congr 1
    exact takeWhile_bytes_append ⟨b, h⟩ l

end CString

/-! ## Comparison -/

/-- The sign of `strcmp`, which compares bytes as unsigned numbers. -/
def strcmp (s t : CString) : Int :=
  if s.bytes < t.bytes then -1 else if t.bytes < s.bytes then 1 else 0

/-- `strncmp(s, t, n) == 0` for texts that a NUL ends. -/
def strncmpEq (s t : List UInt8) (n : Nat) : Bool := (s ++ [0]).take n = (t ++ [0]).take n

theorem strcmp_le_zero {s t : CString} : strcmp s t ≤ 0 ↔ s.bytes ≤ t.bytes := by
  unfold strcmp
  by_cases h₁ : s.bytes < t.bytes
  · simpa [h₁] using List.le_of_lt h₁
  · by_cases h₂ : t.bytes < s.bytes
    · simp [h₁, h₂]
    · rw [if_neg h₁, if_neg h₂]
      exact iff_of_true (Int.le_refl 0) (List.not_lt.mp h₂)

theorem strcmp_eq_zero {s t : CString} : strcmp s t = 0 ↔ s = t := by
  constructor
  · intro h
    unfold strcmp at h
    split at h
    · simp at h
    split at h
    · simp at h
    case isFalse.isFalse h₁ h₂ =>
      exact CString.ext (List.le_antisymm h₂ h₁)
  · rintro rfl
    simp [strcmp, List.lt_irrefl]

/-! ## Character classes -/

def NEWLINE : UInt8 := 10
def SPACE : UInt8 := 32
def STAR : UInt8 := 42
def COMMA : UInt8 := 44
def EQUALS : UInt8 := 61

def isspace (b : UInt8) : Bool := b = 32 || (9 ≤ b && b ≤ 13)
def isdigit (b : UInt8) : Bool := 48 ≤ b && b ≤ 57
def isalpha (b : UInt8) : Bool := (65 ≤ b && b ≤ 90) || (97 ≤ b && b ≤ 122)
def isalnum (b : UInt8) : Bool := isalpha b || isdigit b
def ispunct (b : UInt8) : Bool := 33 ≤ b && b ≤ 126 && !isalnum b

def tolower (b : UInt8) : UInt8 := if 65 ≤ b && b ≤ 90 then b + 32 else b

/-- `strcasecmp(s, t) == 0`. -/
def strcasecmpEq (s t : CString) : Bool := s.bytes.map tolower = t.bytes.map tolower

theorem strcasecmpEq_of_ne {s t u : CString} (h : strcasecmpEq s t)
    (hne : strcasecmpEq t u = false) : strcasecmpEq s u = false := by
  simp only [strcasecmpEq, decide_eq_true_eq, decide_eq_false_iff_not] at *
  rwa [h]

/-! ## Numbers -/

def digitsValue (l : List UInt8) : Nat := l.foldl (fun n b => 10 * n + (b - 48).toNat) 0

/-- Sign and digits of the number a string starts with. -/
def scanNumber (l : List UInt8) : Bool × List UInt8 :=
  match l.dropWhile isspace with
  | [] => (false, [])
  | b :: l =>
    if b = 45 then (true, l.takeWhile isdigit)
    else if b = 43 then (false, l.takeWhile isdigit)
    else (false, (b :: l).takeWhile isdigit)

def strtol (s : CString) : Int64 :=
  let (neg, ds) := scanNumber s.bytes
  let n : Int := digitsValue ds
  Int64.ofInt (max (-2 ^ 63) (min (2 ^ 63 - 1) (if neg then -n else n)))

def strtoul (s : CString) : UInt64 :=
  let (neg, ds) := scanNumber s.bytes
  let n := digitsValue ds
  if 2 ^ 64 ≤ n then UInt64.ofNat (2 ^ 64 - 1)
  else if neg then -UInt64.ofNat n
  else UInt64.ofNat n

/-- Where `strtoul` stops, which is where it started if it found no digits. -/
def strtoulEnd (s : CString) : List UInt8 :=
  let l := s.bytes.dropWhile isspace
  let l := if l.head? = some 45 || l.head? = some 43 then l.tail else l
  if l.takeWhile isdigit = [] then s.bytes else l.dropWhile isdigit

def atoi (s : CString) : Int32 := (strtol s).toInt32

theorem isdigit_bounds {b : UInt8} (h : isdigit b) : 48 ≤ b.toNat ∧ b.toNat ≤ 57 := by
  simp only [isdigit, Bool.and_eq_true, decide_eq_true_eq, UInt8.le_iff_toNat_le] at h
  exact h

theorem isspace_of_isdigit {b : UInt8} (h : isdigit b) : isspace b = false := by
  have hbounds := isdigit_bounds h
  simp only [isspace, Bool.or_eq_false_iff, Bool.and_eq_false_iff, decide_eq_false_iff_not,
    UInt8.le_iff_toNat_le, ← UInt8.toNat_inj]
  change ¬b.toNat = 32 ∧ (¬9 ≤ b.toNat ∨ ¬b.toNat ≤ 13)
  omega

theorem scanNumber_digits {l : List UInt8} (h : ∀ b ∈ l, isdigit b) :
    scanNumber l = (false, l) := by
  unfold scanNumber
  cases l with
  | nil => rfl
  | cons b l =>
    obtain ⟨hlo, hhi⟩ := isdigit_bounds (h b (by simp))
    have hall : (b :: l).takeWhile isdigit = b :: l := List.takeWhile_eq_self_iff.mpr h
    have hspace : isspace b = false := isspace_of_isdigit (h b (by simp))
    have h45 : b ≠ 45 := by rintro rfl; exact absurd hlo (by decide)
    have h43 : b ≠ 43 := by rintro rfl; exact absurd hlo (by decide)
    simp [hspace, h45, h43, hall]

/-- Digits are read up to the first byte that is none. -/
theorem scanNumber_append {d l : List UInt8} (hne : d ≠ []) (hd : ∀ b ∈ d, isdigit b)
    (hl : ∀ c ∈ l.head?, isdigit c = false) : scanNumber (d ++ l) = (false, d) := by
  have htake : (d ++ l).takeWhile isdigit = d := by
    rw [List.takeWhile_append_of_pos hd]
    cases l with
    | nil => simp
    | cons c l => simp [hl c rfl]
  cases d with
  | nil => exact absurd rfl hne
  | cons b d =>
    obtain ⟨hlo, hhi⟩ := isdigit_bounds (hd b (by simp))
    have hspace : isspace b = false := isspace_of_isdigit (hd b (by simp))
    have h45 : b ≠ 45 := by rintro rfl; exact absurd hlo (by decide)
    have h43 : b ≠ 43 := by rintro rfl; exact absurd hlo (by decide)
    rw [List.cons_append] at htake ⊢
    simp [scanNumber, hspace, h45, h43, htake]

/-- A literal made of digits only and within the range of `int` is read as its value. -/
theorem atoi_digits {s : CString} (hd : ∀ b ∈ s.bytes, isdigit b)
    (hr : digitsValue s.bytes < 2 ^ 31) : (atoi s).toInt = digitsValue s.bytes := by
  simp only [atoi, strtol, scanNumber_digits hd]
  have hmax : max (-2 ^ 63 : Int) (min (2 ^ 63 - 1) (digitsValue s.bytes)) =
      digitsValue s.bytes := by omega
  simp only [Bool.false_eq_true, if_false, hmax]
  rw [Int64.toInt_toInt32, Int64.toInt_ofInt_of_le (by omega) (by omega)]
  exact Int.bmod_eq_of_le (by omega) (by omega)

private theorem digit_bounds {c : Char} (h : c.isDigit = true) :
    48 ≤ c.toNat ∧ c.toNat ≤ 57 := by
  simp only [Char.isDigit, Bool.and_eq_true, decide_eq_true_eq, ge_iff_le,
    UInt32.le_iff_toNat_le] at h
  exact h

def decimal (n : Nat) : CString :=
  .ofBytes ((Nat.toDigits 10 n).map fun c => UInt8.ofNat c.toNat)

theorem decimal_bytes (n : Nat) :
    (decimal n).bytes = (Nat.toDigits 10 n).map fun c => UInt8.ofNat c.toNat := by
  refine List.takeWhile_eq_self_iff.mpr fun b hb => ?_
  obtain ⟨c, hc, rfl⟩ := List.mem_map.mp hb
  have hbounds := digit_bounds (Nat.isDigit_of_mem_toDigits (by omega) (by omega) hc)
  refine decide_eq_true fun hzero => ?_
  have := congrArg UInt8.toNat hzero
  simp at this
  omega

theorem isdigit_decimal (n : Nat) : ∀ b ∈ (decimal n).bytes, isdigit b := by
  intro b hb
  rw [decimal_bytes] at hb
  obtain ⟨c, hc, rfl⟩ := List.mem_map.mp hb
  have hbounds := digit_bounds (Nat.isDigit_of_mem_toDigits (by omega) (by omega) hc)
  simp only [isdigit, Bool.and_eq_true, decide_eq_true_eq, UInt8.le_iff_toNat_le,
    UInt8.toNat_ofNat']
  change 48 ≤ c.toNat % 256 ∧ c.toNat % 256 ≤ 57
  omega

theorem digitsValue_decimal (n : Nat) : digitsValue (decimal n).bytes = n := by
  rw [decimal_bytes, digitsValue, List.foldl_map]
  refine Eq.trans ?_ (Nat.ofDigitChars_toDigits (b := 10) (n := n) (by omega) (by omega))
  refine List.foldl_ext _ _ _ fun acc c hc => ?_
  have hbounds := digit_bounds (Nat.isDigit_of_mem_toDigits (by omega) (by omega) hc)
  have hsub : (UInt8.ofNat c.toNat - 48).toNat = c.toNat - 48 := by
    rw [UInt8.toNat_sub_of_le]
    · simp only [UInt8.toNat_ofNat']
      change c.toNat % 256 - 48 = c.toNat - 48
      omega
    · simp only [UInt8.le_iff_toNat_le, UInt8.toNat_ofNat']
      change 48 ≤ c.toNat % 256
      omega
  rw [hsub]
  rfl

theorem decimal_inj {a b : Nat} : decimal a = decimal b ↔ a = b := by
  refine ⟨fun h => ?_, fun h => h ▸ rfl⟩
  rw [← digitsValue_decimal a, h, digitsValue_decimal]

/-- Reading back a printed number. -/
theorem strtoul_decimal {n : Nat} (h : n < 2 ^ 64) : (strtoul (decimal n)).toNat = n := by
  simp only [strtoul, scanNumber_digits (isdigit_decimal n), digitsValue_decimal]
  rw [if_neg (by omega)]
  exact UInt64.toNat_ofNat_of_lt' h

/-- A numeral: digits, with a sign or without. -/
inductive Numeral : List UInt8 → Int → Prop
  | digits {ds : List UInt8} : ds ≠ [] → (∀ b ∈ ds, isdigit b) → Numeral ds (digitsValue ds)
  | plus {ds : List UInt8} : ds ≠ [] → (∀ b ∈ ds, isdigit b) → Numeral (43 :: ds) (digitsValue ds)
  | minus {ds : List UInt8} : ds ≠ [] → (∀ b ∈ ds, isdigit b) →
      Numeral (45 :: ds) (-(digitsValue ds : Int))

theorem scanNumber_sign {sign : UInt8} (hsign : sign = 45 ∨ sign = 43) {l : List UInt8}
    (h : ∀ b ∈ l, isdigit b) : scanNumber (sign :: l) = (decide (sign = 45), l) := by
  have hall : l.takeWhile isdigit = l := List.takeWhile_eq_self_iff.mpr h
  have hspace : (sign :: l).dropWhile isspace = sign :: l :=
    List.dropWhile_cons_of_neg (by rcases hsign with rfl | rfl <;> decide)
  rcases hsign with rfl | rfl <;> simp [scanNumber, hspace, hall]

theorem strtol_numeral {s : CString} {n : Int} (h : Numeral s.bytes n) (hlo : -2 ^ 63 ≤ n)
    (hhi : n < 2 ^ 63) : (strtol s).toInt = n := by
  have hscan : ∃ neg ds, scanNumber s.bytes = (neg, ds) ∧
      n = if neg then -(digitsValue ds : Int) else digitsValue ds := by
    generalize s.bytes = l at h
    cases h with
    | digits _ hds => exact ⟨false, _, scanNumber_digits hds, rfl⟩
    | plus _ hds => exact ⟨false, _, scanNumber_sign (.inr rfl) hds, rfl⟩
    | minus _ hds => exact ⟨true, _, scanNumber_sign (.inl rfl) hds, rfl⟩
  obtain ⟨neg, ds, hscan, rfl⟩ := hscan
  simp only [strtol, hscan]
  rw [Int64.toInt_ofInt_of_le (by omega) (by omega)]
  omega

theorem atoi_numeral {s : CString} {n : Int} (h : Numeral s.bytes n) (hlo : -2 ^ 31 ≤ n)
    (hhi : n < 2 ^ 31) : (atoi s).toInt = n := by
  rw [atoi, Int64.toInt_toInt32, strtol_numeral h (by omega) (by omega)]
  exact Int.bmod_eq_of_le (by omega) (by omega)

theorem numeral_decimal (n : Nat) : Numeral (decimal n).bytes n := by
  have hne : (decimal n).bytes ≠ [] := by simp [decimal_bytes]
  simpa only [digitsValue_decimal] using Numeral.digits hne (isdigit_decimal n)

def decimalInt (n : Int) : CString :=
  if n < 0 then .lit "-" ++ decimal n.natAbs else decimal n.natAbs

theorem numeral_decimalInt (n : Int) : Numeral (decimalInt n).bytes n := by
  have hne : (decimal n.natAbs).bytes ≠ [] := by simp [decimal_bytes]
  unfold decimalInt
  split
  · have hminus := Numeral.minus hne (isdigit_decimal n.natAbs)
    rw [digitsValue_decimal, show -(n.natAbs : Int) = n by omega] at hminus
    exact hminus
  · have hplain := numeral_decimal n.natAbs
    rwa [show (n.natAbs : Int) = n by omega] at hplain

theorem length_decimal_le {n e : Nat} (he : 0 < e) (hn : n < 10 ^ e) :
    (decimal n).bytes.length ≤ e := by
  rw [decimal_bytes, List.length_map]
  exact Nat.toDigits_length 10 n e he hn

theorem length_decimalInt_le {n : Int} {e : Nat} (he : 0 < e) (hn : n.natAbs < 10 ^ e) :
    (decimalInt n).length ≤ e + 1 := by
  have hlen := length_decimal_le he hn
  unfold decimalInt
  split
  · have hminus : (CString.lit "-").bytes.length = 1 := by decide
    rw [CString.length, CString.bytes_append, List.length_append, hminus]
    omega
  · exact Nat.le_succ_of_le hlen

/-- Reading back a printed signed number. -/
theorem strtol_decimalInt {n : Int} (hlo : -2 ^ 63 ≤ n) (hhi : n < 2 ^ 63) :
    (strtol (decimalInt n)).toInt = n := strtol_numeral (numeral_decimalInt n) hlo hhi

theorem atoi_decimalInt (n : Int32) : atoi (decimalInt n.toInt) = n :=
  Int32.toInt_inj.mp (atoi_numeral (numeral_decimalInt _) n.le_toInt n.toInt_lt)

/-- Reading back an `int` that was printed with `%u`. -/
theorem strtol_unsigned (n : Int32) : (strtol (decimal n.toUInt32.toNat)).toInt32 = n := by
  have hlt : n.toUInt32.toNat < 2 ^ 32 := n.toUInt32.toNat_lt
  exact toInt32_of_toUInt32 (strtol_numeral (numeral_decimal _) (by omega) (by omega))

example : decimal 4096 = .lit "4096" := by decide
example : strtoul (.lit " -1") = 18446744073709551615 ∧ strtol (.lit "12x") = 12 := by decide

end Library
