import Bolo.Library.CString
import Mathlib.Data.List.Induction

/-!
# Character arrays

A `Buffer N` is a `char` array of `N` bytes; the bytes that are not listed are zero.
Reading, scanning or writing outside of it fails. What lies behind the terminator of the
string in a buffer stays there until it is overwritten.
-/
namespace Library

structure Buffer (N : Nat) where
  bytes : List UInt8
  fits : bytes.length ≤ N
  deriving DecidableEq

namespace Buffer

variable {N : Nat} (b : Buffer N)

def zero (N : Nat) : Buffer N := ⟨[], by simp⟩

/-- The byte at index `i`, for an index within the array. -/
def get (i : Nat) : UInt8 := b.bytes[i]?.getD 0

def read (i : Nat) : Option UInt8 := if i < N then some (b.get i) else none

/-- Bytes `i` to `j`, without the last. -/
def slice (i j : Nat) : List UInt8 := (List.range' i (j - i)).map b.get

/-- How far a pointer at index `i` moves over non-zero bytes in the class `f`. -/
def span (f : UInt8 → Bool) (i : Nat) : List UInt8 :=
  (b.bytes.drop i).takeWhile fun c => c ≠ 0 && f c

/-- `while (*p && f(*p)) p++` from index `i`. -/
def scan (f : UInt8 → Bool) (i : Nat) : Option Nat :=
  let j := i + (b.span f i).length
  if j < N then some j else none

def put (i : Nat) (l : List UInt8) : Option (Buffer N) :=
  if h : i + l.length ≤ N then
    some ⟨b.bytes.take i ++ List.replicate (i - b.bytes.length) 0 ++ l ++
      b.bytes.drop (i + l.length), by
        have := b.fits
        simp only [List.length_append, List.length_take, List.length_replicate, List.length_drop]
        omega⟩
  else none

/-- `strchr` from index `i`, for a byte other than NUL. -/
def strchr (i : Nat) (c : UInt8) : Option (Option Nat) :=
  (b.scan (· ≠ c) i).map fun j => if b.get j = c then some j else none

/-- `memmove` of the bytes from index `i` on to the start of the array, `n` of them. -/
def moveDown (i n : Nat) : Option (Buffer N) :=
  if i + n ≤ N then b.put 0 (b.slice i (i + n)) else none

/-- The string at index `i`, if it ends within the array. -/
def str (i : Nat) : Option CString :=
  (b.scan (fun _ => true) i).map fun _ => .ofBytes (b.bytes.drop i)

variable {b}

theorem read_eq_some {i : Nat} {c : UInt8} : b.read i = some c ↔ i < N ∧ b.get i = c := by
  simp [read]

theorem scan_eq_some {f : UInt8 → Bool} {i j : Nat} :
    b.scan f i = some j ↔ j < N ∧ i + (b.span f i).length = j := by
  unfold scan
  simp only [Option.ite_none_right_eq_some, Option.some.injEq]
  constructor <;> rintro ⟨h, rfl⟩ <;> exact ⟨h, rfl⟩

/-- Writing at the start keeps everything behind. -/
theorem put_zero {l : List UInt8} {b' : Buffer N} (h : b.put 0 l = some b') :
    b'.bytes = l ++ b.bytes.drop l.length := by
  unfold put at h
  split at h
  · simp only [Option.some.injEq] at h
    simp [← h]
  · simp at h

theorem span_true (i : Nat) :
    b.span (fun _ => true) i = (CString.ofBytes (b.bytes.drop i)).bytes := by
  simp [span, CString.ofBytes]

theorem str_eq_some {i : Nat} {s : CString} (h : b.str i = some s) :
    s = .ofBytes (b.bytes.drop i) := by
  obtain ⟨j, -, rfl⟩ := Option.map_eq_some_iff.mp h
  rfl

theorem str_length {s : CString} (h : b.str 0 = some s) : s.length < N := by
  obtain ⟨j, hj, rfl⟩ := Option.map_eq_some_iff.mp h
  obtain ⟨hlt, rfl⟩ := scan_eq_some.mp hj
  simpa [span_true, CString.length] using hlt

variable (b) in
theorem span_prefix (f : UInt8 → Bool) (i : Nat) : b.span f i <+: b.bytes.drop i :=
  List.takeWhile_prefix _

theorem mem_span {f : UInt8 → Bool} {i : Nat} {c : UInt8} (h : c ∈ b.span f i) :
    c ≠ 0 ∧ f c = true := by
  simpa using List.mem_takeWhile_imp h

theorem get_of_span_cons {f : UInt8 → Bool} {i : Nat} {c : UInt8} {l : List UInt8}
    (h : b.span f i = c :: l) : b.get i = c := by
  obtain ⟨l', hl'⟩ := h ▸ b.span_prefix f i
  rw [get, ← List.head?_drop, ← hl']
  rfl

variable (b) in
/-- The bytes a pointer has moved over. -/
theorem slice_span (f : UInt8 → Bool) (i : Nat) :
    b.slice i (i + (b.span f i).length) = b.span f i := by
  refine List.ext_getElem (by simp [slice]) fun j h₁ h₂ => ?_
  have hj : (b.bytes.drop i)[j]? = some (b.span f i)[j] := by
    rw [List.getElem?_eq_some_iff]
    exact ⟨_, ((b.span_prefix f i).getElem h₂).symm⟩
  rw [List.getElem?_drop] at hj
  simp [slice, get, hj]

theorem getElem?_takeWhile_length {α : Type} (g : α → Bool) (l : List α) :
    ∀ c ∈ l[(l.takeWhile g).length]?, g c = false := by
  induction l with
  | nil => simp
  | cons c l ih =>
    by_cases hc : g c = true
    · simpa [List.takeWhile_cons_of_pos hc] using ih
    · simpa [List.takeWhile_cons_of_neg hc] using hc

/-- A pointer that has moved over its class stands on a byte outside of it. -/
theorem get_scan (f : UInt8 → Bool) (i : Nat) :
    b.get (i + (b.span f i).length) = 0 ∨ f (b.get (i + (b.span f i).length)) = false := by
  have h := getElem?_takeWhile_length (fun c => c ≠ 0 && f c) (b.bytes.drop i)
  unfold get span
  rw [← List.getElem?_drop]
  cases hc : (b.bytes.drop i)[((b.bytes.drop i).takeWhile fun c => c ≠ 0 && f c).length]? with
  | none => exact .inl rfl
  | some c =>
    rw [hc] at h
    simpa [or_iff_not_imp_left] using h

/-- The string in a buffer that starts with `l` is `l` if and only if it ends there. -/
theorem str_eq_iff {l rest : List UInt8} (hbytes : b.bytes = l ++ rest) (hl : (0 : UInt8) ∉ l)
    (hlen : l.length < N) : (∃ s, b.str 0 = some s ∧ s.bytes = l) ↔ rest.head?.getD 0 = 0 := by
  have hbytes' : (CString.ofBytes b.bytes).bytes = l ++ (CString.ofBytes rest).bytes := by
    rw [hbytes, CString.bytes_ofBytes_append hl]
  rw [← CString.bytes_ofBytes_eq_nil]
  constructor
  · rintro ⟨s, hs, hsl⟩
    obtain rfl := str_eq_some hs
    rw [List.drop_zero, hbytes'] at hsl
    simpa using hsl
  · intro hnil
    rw [hnil, List.append_nil] at hbytes'
    refine ⟨.ofBytes b.bytes, ?_, hbytes'⟩
    rw [str, Option.map_eq_some_iff]
    refine ⟨l.length, scan_eq_some.mpr ⟨hlen, ?_⟩, rfl⟩
    rw [span_true, List.drop_zero, hbytes', Nat.zero_add]

/-! ## The whole array -/

variable (b) in
/-- All bytes of the array. -/
def cells : List UInt8 := b.bytes ++ List.replicate (N - b.bytes.length) 0

@[simp] theorem length_cells : b.cells.length = N := by
  have := b.fits
  simp only [cells, List.length_append, List.length_replicate]
  omega

theorem get_eq_cells (i : Nat) : b.get i = b.cells[i]?.getD 0 := by
  unfold get cells
  by_cases h : i < b.bytes.length
  · rw [List.getElem?_append_left h]
  · rw [List.getElem?_append_right (by omega), List.getElem?_eq_none (by omega)]
    rw [List.getElem?_replicate]
    split <;> rfl

theorem slice_eq_cells {i j : Nat} (h : j ≤ N) : b.slice i j = (b.cells.drop i).take (j - i) := by
  refine List.ext_getElem? fun n => ?_
  simp only [slice, List.getElem?_map, List.getElem?_take]
  by_cases hn : n < j - i
  · rw [if_pos hn, List.getElem?_drop, List.getElem?_range' hn, Option.map_some, Nat.one_mul,
      get_eq_cells, List.getElem?_eq_getElem (by rw [length_cells]; omega)]
    rfl
  · rw [if_neg hn, List.getElem?_eq_none (by simpa using hn)]
    rfl

private theorem takeWhile_append_zeros {f : UInt8 → Bool} (hf : f 0 = false) (l : List UInt8)
    (n : Nat) : (l ++ List.replicate n 0).takeWhile f = l.takeWhile f := by
  have hzeros : (List.replicate n (0 : UInt8)).takeWhile f = [] := by
    cases n <;> simp [List.replicate_succ, hf]
  rw [List.takeWhile_append, hzeros, List.append_nil]
  split
  · case isTrue h => exact ((List.takeWhile_prefix f).eq_of_length h).symm
  · rfl

theorem span_eq_cells (f : UInt8 → Bool) (i : Nat) :
    b.span f i = (b.cells.drop i).takeWhile fun c => c ≠ 0 && f c := by
  rw [cells, List.drop_append, List.drop_replicate, takeWhile_append_zeros (by simp)]
  rfl

/-- A write changes the bytes written to. -/
theorem put_cells {i : Nat} {l : List UInt8} (h : i + l.length ≤ N) :
    ∃ b', b.put i l = some b' ∧
      b'.cells = b.cells.take i ++ l ++ b.cells.drop (i + l.length) := by
  refine ⟨_, dif_pos h, ?_⟩
  have hfits := b.fits
  have htake : b.cells.take i = b.bytes.take i ++ List.replicate (i - b.bytes.length) 0 := by
    rw [cells, List.take_append, List.take_replicate, Nat.min_eq_left (by omega)]
  have hdrop : b.cells.drop (i + l.length) = b.bytes.drop (i + l.length) ++
      List.replicate (N - b.bytes.length - (i + l.length - b.bytes.length)) 0 := by
    rw [cells, List.drop_append, List.drop_replicate]
  rw [htake, hdrop, cells]
  simp only [List.append_assoc, List.length_append, List.length_take, List.length_replicate,
    List.length_drop]
  congr 5
  omega

variable (b) in
/-- The last byte is a terminator. -/
def Sealed : Prop := b.cells.getLast? = some 0

theorem zero_sealed (h : 0 < N) : (zero N).Sealed := by
  simp [Sealed, cells, zero, List.getLast?_replicate, h.ne']

/-- Strings are written to the array and no other bytes. -/
theorem Sealed.put {b' : Buffer N} {i : Nat} {l : List UInt8} (h : b.Sealed)
    (hput : b.put i (l ++ [0]) = some b') : b'.Sealed := by
  have hlen : i + (l ++ [0]).length ≤ N := by
    by_contra hlen
    rw [Buffer.put, dif_neg hlen] at hput
    cases hput
  obtain ⟨b'', hput', hcells⟩ := b.put_cells hlen
  obtain rfl := Option.some.inj (hput.symm.trans hput')
  rw [Sealed, hcells, List.getLast?_append, List.getLast?_append, List.getLast?_drop, h]
  split <;> simp

/-- There is another terminator behind a text that leaves room for it. -/
theorem Sealed.mem {x l : List UInt8} (h : b.Sealed) (hb : b.cells = x ++ 0 :: l)
    (hx : x.length + 1 < N) : 0 ∈ l := by
  cases l with
  | nil =>
    rw [← b.length_cells, hb] at hx
    simp at hx
  | cons c l =>
    rw [Sealed, hb, ← List.singleton_append, ← List.append_assoc, List.getLast?_append] at h
    exact List.mem_of_getLast? (by simpa [List.getLast?_cons] using h)

section Text

variable {u x l : List UInt8} {c d : UInt8}

/-- A pointer moves over a run of bytes in its class. -/
theorem scan_cells {f : UInt8 → Bool} (hb : b.cells = u ++ x ++ d :: l)
    (hx : ∀ e ∈ x, e ≠ 0 ∧ f e = true) (hd : d = 0 ∨ f d = false) :
    b.scan f u.length = some (u.length + x.length) ∧
      b.get (u.length + x.length) = d := by
  have hlen : u.length + x.length < N := by
    rw [← b.length_cells, hb]
    simp only [List.length_append, List.length_cons]
    omega
  have hspan : b.span f u.length = x := by
    rw [span_eq_cells, hb, List.append_assoc, List.drop_left,
      List.takeWhile_append_of_pos fun e he => by simpa using hx e he]
    rcases hd with rfl | hd
    · simp
    · simp [hd]
  refine ⟨scan_eq_some.mpr ⟨hlen, by rw [hspan]⟩, ?_⟩
  rw [get_eq_cells, hb, ← List.length_append, List.getElem?_append_right (Nat.le_refl _),
    Nat.sub_self]
  rfl

/-- The first `c` of a text. -/
theorem strchr_found (hb : b.cells = u ++ x ++ c :: l) (h0 : 0 ∉ x) (hc : c ∉ x) :
    b.strchr u.length c = some (some (u.length + x.length)) := by
  obtain ⟨hscan, hget⟩ := scan_cells (f := (· ≠ c)) hb
    (fun e he => ⟨ne_of_mem_of_not_mem he h0, by simpa using ne_of_mem_of_not_mem he hc⟩)
    (.inr (by simp))
  rw [strchr, hscan, Option.map_some, hget, if_pos rfl]

/-- A text without `c`. -/
theorem strchr_absent (hb : b.cells = u ++ x ++ 0 :: l) (h0 : 0 ∉ x) (hc : c ∉ x)
    (hne : c ≠ 0) : b.strchr u.length c = some none := by
  obtain ⟨hscan, hget⟩ := scan_cells (f := (· ≠ c)) hb
    (fun e he => ⟨ne_of_mem_of_not_mem he h0, by simpa using ne_of_mem_of_not_mem he hc⟩)
    (.inl rfl)
  rw [strchr, hscan, Option.map_some, hget, if_neg (Ne.symm hne)]

theorem read_cells (hb : b.cells = u ++ d :: l) : b.read u.length = some d := by
  have hlen : u.length < N := by
    rw [← b.length_cells, hb, List.length_append, List.length_cons]
    omega
  rw [read_eq_some, get_eq_cells, hb, List.getElem?_append_right (Nat.le_refl _), Nat.sub_self]
  exact ⟨hlen, rfl⟩

theorem slice_cells (hb : b.cells = u ++ x ++ l) :
    b.slice u.length (u.length + x.length) = x := by
  have hlen : u.length + x.length ≤ N := by
    rw [← b.length_cells, hb, List.length_append, List.length_append]
    omega
  rw [slice_eq_cells hlen, hb, List.append_assoc, List.drop_left, Nat.add_sub_cancel_left,
    List.take_left]

theorem slice_front (hb : b.cells = x ++ l) : b.slice 0 x.length = x := by
  simpa using slice_cells (u := []) hb

theorem read_text (hb : b.cells = u ++ x ++ 0 :: l) :
    b.read u.length = some (x.head?.getD 0) := by
  cases x with
  | nil => exact read_cells (by simpa using hb)
  | cons c x => exact read_cells (by simpa using hb)

/-- How far a pointer moves in a text. -/
theorem scan_text (hb : b.cells = u ++ x ++ 0 :: l) (h0 : 0 ∉ x) (f : UInt8 → Bool) :
    b.scan f u.length = some (u ++ x.takeWhile f).length := by
  have hsplit : b.cells = u ++ x.takeWhile f ++ (x.dropWhile f ++ 0 :: l) := by
    rw [hb, List.append_assoc, List.append_assoc, ← List.append_assoc (x.takeWhile f),
      List.takeWhile_append_dropWhile]
  have hin : ∀ e ∈ x.takeWhile f, e ≠ 0 ∧ f e = true := fun e he =>
    ⟨ne_of_mem_of_not_mem ((List.takeWhile_prefix f).mem he) h0, List.mem_takeWhile_imp he⟩
  have hstop := List.head?_dropWhile_not f x
  rw [List.length_append]
  cases htail : x.dropWhile f with
  | nil =>
    rw [htail, List.nil_append] at hsplit
    exact (scan_cells hsplit hin (.inl rfl)).1
  | cons d tail =>
    rw [htail] at hsplit hstop
    exact (scan_cells hsplit hin (.inr hstop)).1

/-- One byte is replaced. -/
theorem put_byte_cells (hb : b.cells = u ++ d :: l) (c : UInt8) :
    ∃ b', b.put u.length [c] = some b' ∧ b'.cells = u ++ c :: l := by
  have hlen : u.length + 1 ≤ N := by
    rw [← b.length_cells, hb, List.length_append, List.length_cons]
    omega
  obtain ⟨b', hput, hcells⟩ := b.put_cells (i := u.length) (l := [c]) hlen
  refine ⟨b', hput, ?_⟩
  rw [hcells, hb, List.take_left, List.length_singleton, List.drop_length_add_append]
  simp

/-- A text is continued. -/
theorem put_next_cells (hb : b.cells = u ++ l) (hx : x.length ≤ l.length) :
    ∃ b', b.put u.length x = some b' ∧ b'.cells = u ++ x ++ l.drop x.length := by
  have hlen : u.length + x.length ≤ N := by
    rw [← b.length_cells, hb, List.length_append]
    omega
  obtain ⟨b', hput, hcells⟩ := b.put_cells hlen
  refine ⟨b', hput, ?_⟩
  rw [hcells, hb, List.take_left, List.drop_length_add_append]

/-- A string is copied to the start of the array. -/
theorem put_text_cells (x : List UInt8) (h : x.length < N) :
    ∃ b', b.put 0 (x ++ [0]) = some b' ∧ ∃ l, b'.cells = x ++ 0 :: l := by
  obtain ⟨b', hput, hcells⟩ := b.put_cells (i := 0) (l := x ++ [0])
    (by rw [List.length_append, List.length_singleton]; omega)
  exact ⟨b', hput, _, by rw [hcells, List.take_zero, List.nil_append, List.append_assoc,
    List.singleton_append]⟩

/-- The bytes that are listed reach as far as the text does. -/
theorem drop_bytes_cells (hb : b.cells = u ++ x ++ 0 :: l) (h0 : 0 ∉ x) :
    ∃ l', b.bytes.drop u.length = x ++ l' ∧ l'.head?.getD 0 = 0 := by
  have htext : (b.bytes.drop u.length).takeWhile (· ≠ 0) = x := by
    have hspan := b.span_eq_cells (fun _ => true) u.length
    simp only [span, hb, List.append_assoc, List.drop_left, Bool.and_true] at hspan
    exact hspan.trans (CString.takeWhile_bytes_append ⟨x, h0⟩ l)
  refine ⟨(b.bytes.drop u.length).dropWhile (· ≠ 0), ?_, ?_⟩
  · conv_lhs => rw [← List.takeWhile_append_dropWhile (p := (· ≠ 0)) (l := b.bytes.drop u.length),
      htext]
  · have hstop := List.head?_dropWhile_not (· ≠ (0 : UInt8)) (b.bytes.drop u.length)
    cases hhead : ((b.bytes.drop u.length).dropWhile (· ≠ 0)).head? with
    | none => rfl
    | some c =>
      rw [hhead] at hstop
      simpa using hstop

/-- The string at any index. -/
theorem str_at_cells (hb : b.cells = u ++ x ++ 0 :: l) (h0 : 0 ∉ x) :
    b.str u.length = some ⟨x, h0⟩ := by
  obtain ⟨l', hdrop, hend⟩ := drop_bytes_cells hb h0
  obtain ⟨hscan, -⟩ := scan_cells (f := fun _ => true) hb
    (fun e he => ⟨ne_of_mem_of_not_mem he h0, rfl⟩) (.inl rfl)
  rw [str, hscan, Option.map_some, hdrop, Option.some.injEq]
  refine CString.ext ?_
  rw [CString.bytes_ofBytes_append h0, CString.bytes_ofBytes_eq_nil.mpr hend, List.append_nil]

theorem str_cells (hb : b.cells = x ++ 0 :: l) (h0 : 0 ∉ x) : b.str 0 = some ⟨x, h0⟩ :=
  str_at_cells (u := []) hb h0

/-- A pointer leaves the array if every byte ahead is in its class. -/
theorem scan_overrun {f : UInt8 → Bool} (hb : b.cells = u ++ x)
    (hx : ∀ e ∈ x, e ≠ 0 ∧ f e = true) : b.scan f u.length = none := by
  have hspan : b.span f u.length = x := by
    rw [span_eq_cells, hb, List.drop_left, List.takeWhile_eq_self_iff]
    exact fun e he => by simpa using hx e he
  have hlen : u.length + x.length = N := by rw [← b.length_cells, hb, List.length_append]
  rw [scan, hspan, if_neg (by omega)]

theorem moveDown_cells {n : Nat} (hb : b.cells = u ++ l) (hn : n ≤ l.length) :
    ∃ b', b.moveDown u.length n = some b' ∧ b'.cells = l.take n ++ b.cells.drop n := by
  have hlen : u.length + l.length = N := by rw [← b.length_cells, hb, List.length_append]
  have hslice : b.slice u.length (u.length + n) = l.take n := by
    rw [slice_eq_cells (by omega), hb, List.drop_left]
    congr 1
    omega
  obtain ⟨b', hput, hcells⟩ := b.put_cells (i := 0) (l := l.take n)
    (by rw [List.length_take]; omega)
  refine ⟨b', ?_, ?_⟩
  · rw [moveDown, if_pos (by omega), hslice, hput]
  · rw [hcells, List.length_take, Nat.min_eq_left hn]
    simp

end Text

end Buffer

end Library
