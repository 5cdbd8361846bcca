import Bolo.Library.Outcome
import Mathlib.Data.List.Induction
import Mathlib.Tactic.Ring

/-!
# Packed binary data

Big-endian numbers of a given width, read back one field after the other, and memory
mappings that are read from a moving position.
-/
namespace Library

/-! ## Numbers -/

/-- The low `w` bytes of `n`, most significant first. -/
def be : Nat → Nat → List UInt8
  | 0, _ => []
  | w + 1, n => UInt8.ofNat (n / 256 ^ w) :: be w n

def ofBe (l : List UInt8) : Nat := l.foldl (fun n b => 256 * n + b.toNat) 0

@[simp] theorem length_be (w n : Nat) : (be w n).length = w := by
  induction w with
  | zero => rfl
  | succ w ih => simp [be, ih]

private theorem foldl_be (w n a : Nat) :
    (be w n).foldl (fun n b => 256 * n + b.toNat) a = a * 256 ^ w + n % 256 ^ w := by
  induction w generalizing a with
  | zero => simp [be, Nat.mod_one]
  | succ w ih =>
    have hbyte : (UInt8.ofNat (n / 256 ^ w)).toNat = n / 256 ^ w % 256 := by simp
    have hsplit : n % 256 ^ (w + 1) = n / 256 ^ w % 256 * 256 ^ w + n % 256 ^ w := by
      rw [Nat.pow_succ, Nat.mod_mul, Nat.mul_comm, Nat.add_comm]
    rw [be, List.foldl_cons, ih, hbyte, hsplit]
    ring

theorem ofBe_be {w n : Nat} (h : n < 256 ^ w) : ofBe (be w n) = n := by
  rw [ofBe, foldl_be, Nat.zero_mul, Nat.zero_add, Nat.mod_eq_of_lt h]

theorem be_concat (w n : Nat) : be (w + 1) n = be w (n / 256) ++ [UInt8.ofNat n] := by
  induction w with
  | zero => simp [be]
  | succ w ih =>
    rw [be, ih, be, List.cons_append, Nat.div_div_eq_div_mul, Nat.pow_succ, Nat.mul_comm]

theorem ofBe_concat (l : List UInt8) (b : UInt8) : ofBe (l ++ [b]) = 256 * ofBe l + b.toNat := by
  simp [ofBe]

theorem ofBe_lt (l : List UInt8) : ofBe l < 256 ^ l.length := by
  induction l using List.reverseRecOn with
  | nil => simp [ofBe]
  | append_singleton l b ih =>
    have hb := b.toNat_lt
    rw [ofBe_concat, List.length_append, List.length_singleton, Nat.pow_succ]
    omega

theorem be_ofBe (l : List UInt8) : be l.length (ofBe l) = l := by
  induction l using List.reverseRecOn with
  | nil => rfl
  | append_singleton l b ih =>
    have hb := b.toNat_lt
    have hdiv : (256 * ofBe l + b.toNat) / 256 = ofBe l := by omega
    have hmod : UInt8.ofNat (256 * ofBe l + b.toNat) = b := by
      apply UInt8.toNat_inj.mp
      simp
    rw [List.length_append, List.length_singleton, be_concat, ofBe_concat, hdiv, ih, hmod]

/-- One field of a packed structure, and the fields after it. -/
def uint (w : Nat) (l : List UInt8) : Nat × List UInt8 := (ofBe (l.take w), l.drop w)

theorem uint_be {w n : Nat} (h : n < 256 ^ w) (l : List UInt8) :
    uint w (be w n ++ l) = (n, l) := by
  rw [uint, List.take_left' (length_be w n), List.drop_left' (length_be w n), ofBe_be h]

theorem uint_byte (b : UInt8) (l : List UInt8) : uint 1 (b :: l) = (b.toNat, l) := by
  simp [uint, ofBe]

/-! ## Mappings -/

/-- A mapping from some position on: `size` bytes, those not listed being zero. -/
structure Mapping where
  bytes : List UInt8
  size : Nat
  deriving DecidableEq

/-- The next `n` bytes and what follows them. -/
def Mapping.take (m : Mapping) (n : Nat) : Option (List UInt8 × Mapping) :=
  if n ≤ m.size then
    some (m.bytes.take n ++ List.replicate (n - m.bytes.length) 0, ⟨m.bytes.drop n, m.size - n⟩)
  else none

theorem Mapping.take_append {l rest : List UInt8} {size n : Nat} (hn : l.length = n)
    (h : n ≤ size) :
    Mapping.take ⟨l ++ rest, size⟩ n = some (l, ⟨rest, size - n⟩) := by
  subst hn
  simp [Mapping.take, h]

/-- All bytes of a mapping. -/
def Mapping.cells (m : Mapping) : List UInt8 :=
  m.bytes ++ List.replicate (m.size - m.bytes.length) 0

/-- The bytes that are listed lie inside. -/
def Mapping.Fits (m : Mapping) : Prop := m.bytes.length ≤ m.size

instance (m : Mapping) : Decidable m.Fits := Nat.decLe _ _

theorem Mapping.Fits.length_cells {m : Mapping} (h : m.Fits) : m.cells.length = m.size := by
  rw [cells, List.length_append, List.length_replicate]
  exact Nat.add_sub_of_le h

/-- What is taken from a mapping and what is left make up its bytes. -/
theorem Mapping.Fits.take {m : Mapping} (h : m.Fits) {x l : List UInt8} (hm : m.cells = x ++ l) :
    ∃ m', m.take x.length = some (x, m') ∧ m'.cells = l ∧ m'.Fits := by
  have hsize : x.length + l.length = m.size := by
    rw [← h.length_cells, hm, List.length_append]
  have hx : m.cells.take x.length = x := by rw [hm, List.take_left]
  have hl : m.cells.drop x.length = l := by rw [hm, List.drop_left]
  unfold Fits at h
  refine ⟨⟨m.bytes.drop x.length, m.size - x.length⟩, ?_, ?_, ?_⟩
  · rw [Mapping.take, if_pos (by omega)]
    rw [cells, List.take_append, List.take_replicate, Nat.min_eq_left (by omega)] at hx
    rw [hx]
  · rw [cells, List.drop_append, List.drop_replicate] at hl
    change m.bytes.drop x.length ++
      List.replicate (m.size - x.length - (m.bytes.drop x.length).length) 0 = l
    rw [List.length_drop, ← hl]
    congr 2
    omega
  · change (m.bytes.drop x.length).length ≤ m.size - x.length
    rw [List.length_drop]
    omega

/-- As many bytes as the mapping has can be taken. -/
theorem Mapping.Fits.take_le {m : Mapping} (h : m.Fits) {n : Nat} (hn : n ≤ m.size) :
    ∃ m', m.take n = some (m.cells.take n, m') ∧ m'.cells = m.cells.drop n ∧ m'.Fits := by
  obtain ⟨m', htake, hcells, hfits⟩ := h.take (List.take_append_drop n m.cells).symm
  rw [List.length_take, h.length_cells, Nat.min_eq_left hn] at htake
  exact ⟨m', htake, hcells, hfits⟩

theorem Mapping.take_eq_none {m : Mapping} {n : Nat} : m.take n = none ↔ m.size < n := by
  unfold Mapping.take
  split <;> simp <;> omega

/-! ## Copies -/

/-- Bytes that are copied to a position. -/
structure Copy where
  offset : Nat
  bytes : List UInt8
  deriving DecidableEq

/-- Where a copy ends. -/
def Copy.stop (c : Copy) : Nat := c.offset + c.bytes.length

/-- Pieces copied one after the other, from `start` on. -/
def layOut (start : Nat) : List (List UInt8) → List Copy
  | [] => []
  | piece :: pieces => ⟨start, piece⟩ :: layOut (start + piece.length) pieces

theorem flatMap_layOut (start : Nat) (pieces : List (List UInt8)) :
    (layOut start pieces).flatMap Copy.bytes = pieces.flatten := by
  induction pieces generalizing start with
  | nil => rfl
  | cons piece pieces ih => rw [layOut, List.flatMap_cons, ih, List.flatten_cons]

/-- Copies stay below a limit if the last one does. -/
theorem layOut_le_iff (limit : Int) (start : Nat) (pieces : List (List UInt8)) :
    (start ≤ limit ∧ ∀ c ∈ layOut start pieces, (c.stop : Int) ≤ limit) ↔
      (start + pieces.flatten.length : Nat) ≤ limit := by
  induction pieces generalizing start with
  | nil => simp [layOut]
  | cons piece pieces ih =>
    have hrest := ih (start + piece.length)
    rw [layOut, List.forall_mem_cons, List.flatten_cons, List.length_append, ← Nat.add_assoc,
      ← hrest]
    change (_ ∧ ((start + piece.length : Nat) : Int) ≤ limit ∧ _) ↔ _
    constructor
    · exact fun h => h.2
    · exact fun h => ⟨by omega, h⟩

end Library
