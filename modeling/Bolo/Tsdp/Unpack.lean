import Bolo.Tsdp.Pdu

/-!
# Unpacking

`tsdp_unpack` and what it should answer. The block it takes for the PDU has the size of a frame,
so that `nframes` and `octets` lie behind its end; a frame that ends where the buffer ends is
answered like one that is cut short; and the bytes of a frame are written through a pointer that
was never set.
-/
namespace Bolo.Tsdp

open Library

/-! ## `unpack.c` -/

/-- The byte as an `int`. -/
def octet (b : UInt8) : Int32 := .ofNat b.toNat

def finalBit (b : UInt8) : Bool := b &&& 0x80 != 0

/-- The size in the two bytes before the data of a frame. -/
def frameSize (b l : UInt8) : Nat := ((b &&& 0x0f).toNat <<< 8) + l.toNat

/-- The loop that stores bytes through `frame->data`. -/
def store (data : Pointer (List UInt8)) (bytes : List UInt8) :
    Except Fault (Pointer (List UInt8)) :=
  if bytes = [] then .ok data
  else
    match data with
    | .to block =>
      if bytes.length ≤ block.length then .ok (.to (bytes ++ block.drop bytes.length))
      else .error .outOfBounds
    | _ => .error .invalidPointer

/-- Give up: the PDU is destroyed and `*pdu` set to NULL. -/
def bail (pdu : Pdu) (code : Int32) : Except Fault (Int32 × Option Pdu) := do
  destroy pdu
  return (code, none)

theorem length_drop_lt (b l : UInt8) (rest : List UInt8) (n : Nat) :
    (rest.drop n).length < (b :: l :: rest).length := by
  rw [List.length_drop, List.length_cons, List.length_cons]
  omega

/-- The loop over the bytes that are left when `j` frames have been read. -/
def readFrames (malloc : Nat → Block) (j : Nat) (pdu : Pdu) :
    List UInt8 → Except Fault (Int32 × Option Pdu)
  | [] => .ok (0, some pdu)
  | [_] => bail pdu (-E2SMALL)
  | b :: l :: rest =>
    let block := malloc (j + 1)
    let size := frameSize b l
    if rest.length ≤ size then bail pdu (-E2SMALL)
    else do
      let data ← store (block.pointer 8) (rest.take size)
      let frame : Frame := { type := octet ((b >>> 4) &&& 0x3), size := .ofNat size, data := data }
      pdu.reach 28
      let pdu := { pdu with
        frames := pdu.frames.link (.node frame (block.chain 16))
        nframes := pdu.nframes + 1 }
      if finalBit b then
        if rest.drop size ≠ [] then bail pdu (-EEARLYFF)
        else readFrames malloc (j + 1) pdu (rest.drop size)
      else if rest.drop size = [] then bail pdu (-ENOFF)
      else readFrames malloc (j + 1) pdu (rest.drop size)
termination_by bytes => bytes.length
decreasing_by all_goals exact length_drop_lt _ _ _ _

/-- A setter has been called on `*pdu`: go on, or give up with its code. -/
def orBail (result : Int32 × Option Pdu) (next : Pdu → Except Fault (Int32 × Option Pdu)) :
    Except Fault (Int32 × Option Pdu) :=
  match result.2 with
  | none => .ok (result.1, none)
  | some pdu => if result.1 ≠ 0 then bail pdu result.1 else next pdu

/-- `malloc 0` is the block for the PDU, `malloc (j + 1)` the one for frame `j`; `out` is what
`*pdu` is before the call. -/
def unpack (malloc : Nat → Block) (out : Option Pdu) (buf : List UInt8) :
    Except Fault (Int32 × Option Pdu) :=
  match buf with
  | [] => .ok (-EINVAL, out)
  | b₀ :: b₁ :: b₂ :: b₃ :: rest => do
    let pdu := Pdu.fresh sizeofFrame (malloc 0)
    pdu.reach 32
    let pdu := { pdu with octets := .ofNat buf.length }
    orBail (setVersion (some pdu) (octet ((b₀ >>> 4) &&& 0xf))) fun pdu =>
      orBail (setOpcode (some pdu) (octet (b₀ &&& 0xf))) fun pdu =>
        orBail (setFlags (some pdu) (octet b₁)) fun pdu =>
          orBail (setPayloads (some pdu) ((octet b₂ <<< 8) ||| octet b₃)) fun pdu =>
            readFrames malloc 0 pdu rest
  | _ => .ok (-E2SMALL, out)

/-! ## What is well formed -/

/-- The bytes are tiled by frames, and the last one alone has the final bit. -/
inductive Tiles : List UInt8 → Prop
  | last {b l : UInt8} {body : List UInt8} : finalBit b = true → body.length = frameSize b l →
      Tiles (b :: l :: body)
  | more {b l : UInt8} {body rest : List UInt8} : finalBit b = false →
      body.length = frameSize b l → Tiles rest → Tiles (b :: l :: (body ++ rest))

/-- The version and the opcode in the first byte. -/
def validHeader (b : UInt8) : Bool :=
  octet ((b >>> 4) &&& 0xf) = VERSION && validOpcode (octet (b &&& 0xf))

def WellFormed (buf : List UInt8) : Prop :=
  ∃ b₀ b₁ b₂ b₃ rest, buf = b₀ :: b₁ :: b₂ :: b₃ :: rest ∧ validHeader b₀ = true ∧
    (rest = [] ∨ Tiles rest)

/-- The first error in the bytes of the frames, 0 if there is none. -/
def flaw : List UInt8 → Int32
  | [] => 0
  | [_] => E2SMALL
  | b :: l :: rest =>
    if rest.length < frameSize b l then E2SMALL
    else if finalBit b then
      if rest.length = frameSize b l then 0 else EEARLYFF
    else if rest.length = frameSize b l then ENOFF
    else flaw (rest.drop (frameSize b l))
termination_by bytes => bytes.length
decreasing_by exact length_drop_lt _ _ _ _

/-- The answer a buffer deserves. -/
def verdict : List UInt8 → Int32
  | [] => -EINVAL
  | b₀ :: _ :: _ :: _ :: rest => if validHeader b₀ then -flaw rest else -EINVAL
  | _ => -E2SMALL

theorem tiles_cons_iff {b l : UInt8} {rest : List UInt8} : Tiles (b :: l :: rest) ↔
    (finalBit b = true ∧ rest.length = frameSize b l) ∨
      (finalBit b = false ∧ frameSize b l ≤ rest.length ∧
        Tiles (rest.drop (frameSize b l))) := by
  constructor
  · intro h
    cases h with
    | last hfinal hlen => exact .inl ⟨hfinal, hlen⟩
    | more hfinal hlen hrest =>
      exact .inr ⟨hfinal, by simp [hlen], by simpa [← hlen] using hrest⟩
  · rintro (⟨hfinal, hlen⟩ | ⟨hfinal, hle, hrest⟩)
    · exact .last hfinal hlen
    · rw [← List.take_append_drop (frameSize b l) rest]
      exact .more hfinal (by simpa using hle) hrest

theorem not_tiles_short {bytes : List UInt8} (h : bytes.length < 2) : ¬Tiles bytes := by
  intro htiles
  cases htiles <;> simp only [List.length_cons] at h <;> omega

theorem flaw_eq_zero_iff (bytes : List UInt8) : flaw bytes = 0 ↔ bytes = [] ∨ Tiles bytes := by
  fun_induction flaw bytes with
  | case1 => simp
  | case2 b =>
    have hshort : ¬Tiles [b] := not_tiles_short (by simp)
    simp [hshort, E2SMALL]
  | case3 b l rest hlt =>
    have hnot : ¬Tiles (b :: l :: rest) := by grind [tiles_cons_iff]
    simp [hnot, E2SMALL]
  | case4 b l rest hge hfinal hlen =>
    simp [tiles_cons_iff, hfinal, hlen]
  | case5 b l rest hge hfinal hlen =>
    simp [tiles_cons_iff, hfinal, hlen, EEARLYFF]
  | case6 b l rest hge hfinal hlen =>
    have hshort : ¬Tiles (rest.drop (frameSize b l)) := not_tiles_short (by simp [hlen])
    simp [tiles_cons_iff, hfinal, hshort, ENOFF]
  | case7 b l rest hge hfinal hlen ih =>
    have hmore : rest.drop (frameSize b l) ≠ [] := by
      simp only [ne_eq, List.drop_eq_nil_iff]
      omega
    simp [tiles_cons_iff, hfinal, ih, hmore, Nat.le_of_not_lt hge]

theorem verdict_eq_zero_iff (buf : List UInt8) : verdict buf = 0 ↔ WellFormed buf := by
  have hneg (x : Int32) : -x = 0 ↔ x = 0 := by grind
  unfold verdict
  split
  · simp [WellFormed, EINVAL]
  · split <;> simp [WellFormed, *, EINVAL, flaw_eq_zero_iff]
  · simp [WellFormed, E2SMALL]
    grind

/-! ## The answers of `tsdp_unpack` -/

/-- Destroying a PDU with the first `j` frames is defined: the pointer after the last of them
and the data of each were NULL when they were allocated. -/
def Destroyable (malloc : Nat → Block) (j : Nat) : Prop :=
  (malloc j).null 16 = true ∧ ∀ i < j, (malloc (i + 1)).null 8 = true

/-- Bytes after `j` frames for which the loop gives up as it should: empty frames without the
final bit, up to one that is cut short or has the final bit too early. -/
inductive Answered (malloc : Nat → Block) : Nat → List UInt8 → Prop
  | cut {j : Nat} {b : UInt8} : Destroyable malloc j → Answered malloc j [b]
  | overrun {j : Nat} {b l : UInt8} {rest : List UInt8} : rest.length < frameSize b l →
      Destroyable malloc j → Answered malloc j (b :: l :: rest)
  | early {j : Nat} {b l : UInt8} {rest : List UInt8} : finalBit b = true → frameSize b l = 0 →
      rest ≠ [] → Destroyable malloc (j + 1) → Answered malloc j (b :: l :: rest)
  | empty {j : Nat} {b l : UInt8} {rest : List UInt8} : finalBit b = false → frameSize b l = 0 →
      rest ≠ [] → Answered malloc (j + 1) rest → Answered malloc j (b :: l :: rest)

theorem answered_cons_iff {malloc : Nat → Block} {j : Nat} {b l : UInt8} {rest : List UInt8} :
    Answered malloc j (b :: l :: rest) ↔
      (rest.length < frameSize b l ∧ Destroyable malloc j) ∨
        (frameSize b l = 0 ∧ rest ≠ [] ∧
          if finalBit b then Destroyable malloc (j + 1) else Answered malloc (j + 1) rest) := by
  constructor
  · intro h
    cases h with
    | overrun hlt hd => exact .inl ⟨hlt, hd⟩
    | early hfinal hsize hrest hd => exact .inr ⟨hsize, hrest, by simpa [hfinal] using hd⟩
    | empty hfinal hsize hrest h => exact .inr ⟨hsize, hrest, by simpa [hfinal] using h⟩
  · rintro (⟨hlt, hd⟩ | ⟨hsize, hrest, h⟩)
    · exact .overrun hlt hd
    · cases hfinal : finalBit b with
      | true => exact .early hfinal hsize hrest (by simpa [hfinal] using h)
      | false => exact .empty hfinal hsize hrest (by simpa [hfinal] using h)

theorem bail_exact_iff {pdu : Pdu} {code code' : Int32} :
    (∃ p, bail pdu code = .ok (code', p) ∧ (code' ≠ 0 → p = none)) ↔
      code = code' ∧ destroy pdu = .ok () := by
  simp only [bail, bind_eq_ok, pure_eq_ok, Prod.mk.injEq]
  grind

/-- What the loop knows of the memory: the PDU holds the first `j` frames. -/
structure Holds (malloc : Nat → Block) (j : Nat) (pdu : Pdu) : Prop where
  room : 28 ≤ pdu.room
  next : pdu.frames.ends = (malloc j).null 16
  data : (∀ f ∈ pdu.frames.nodes, f.data ≠ .wild) ↔ ∀ i < j, (malloc (i + 1)).null 8 = true

theorem Holds.destroy_iff {malloc : Nat → Block} {j : Nat} {pdu : Pdu} (h : Holds malloc j pdu) :
    destroy pdu = .ok () ↔ Destroyable malloc j := by
  rw [destroy, destroyFrames_eq_ok, h.next, h.data, Destroyable]

/-- An empty frame is linked as it was allocated. -/
theorem Holds.link {malloc : Nat → Block} {j : Nat} {pdu : Pdu} (h : Holds malloc j pdu)
    (type size : Int32) : Holds malloc (j + 1) { pdu with
      frames := pdu.frames.link (.node
        { type := type, size := size, data := (malloc (j + 1)).pointer 8 }
        ((malloc (j + 1)).chain 16))
      nframes := pdu.nframes + 1 } where
  room := h.room
  next := by simp [Chain.ends]
  data := by
    simp only [Chain.nodes_link, Chain.nodes, Block.nodes_chain, List.forall_mem_append, h.data,
      List.forall_mem_singleton, ne_eq, Block.pointer_eq_wild, Bool.not_eq_false]
    constructor
    · rintro ⟨hall, hlast⟩ i hi
      obtain hi | rfl : i < j ∨ i = j := by omega
      · exact hall i hi
      · exact hlast
    · intro hall
      exact ⟨fun i hi => hall i (by omega), hall j (by omega)⟩

section Loop

variable {malloc : Nat → Block} {b l : UInt8} {rest : List UInt8}

theorem readFrames_overrun {j : Nat} {pdu : Pdu} (hle : rest.length ≤ frameSize b l) :
    readFrames malloc j pdu (b :: l :: rest) = bail pdu (-E2SMALL) := by
  rw [readFrames, if_pos hle]

/-- The pointer that the bytes of a frame are stored through is not a valid one. -/
theorem readFrames_bytes {j : Nat} {pdu : Pdu} (hlt : frameSize b l < rest.length)
    (hsize : frameSize b l ≠ 0) :
    readFrames malloc j pdu (b :: l :: rest) = .error .invalidPointer := by
  have hbytes : rest.take (frameSize b l) ≠ [] := by
    simp only [ne_eq, List.take_eq_nil_iff, not_or]
    exact ⟨hsize, List.ne_nil_of_length_pos (by omega)⟩
  have hstore : store ((malloc (j + 1)).pointer 8) (rest.take (frameSize b l)) =
      .error .invalidPointer := by
    rw [store, if_neg hbytes]
    cases hnull : (malloc (j + 1)).null 8 <;> simp [Block.pointer, hnull]
  rw [readFrames, if_neg (by omega), hstore]
  rfl

/-- An empty frame that is not at the end of the buffer. -/
theorem readFrames_empty {j : Nat} {pdu : Pdu} (h : Holds malloc j pdu) (hrest : rest ≠ [])
    (hsize : frameSize b l = 0) : ∃ pdu', Holds malloc (j + 1) pdu' ∧
      readFrames malloc j pdu (b :: l :: rest) =
        if finalBit b then bail pdu' (-EEARLYFF) else readFrames malloc (j + 1) pdu' rest := by
  refine ⟨_, h.link (octet ((b >>> 4) &&& 0x3)) (.ofNat (frameSize b l)), ?_⟩
  have hlen : ¬rest.length ≤ frameSize b l := by
    have := List.length_pos_of_ne_nil hrest
    omega
  rw [readFrames, if_neg hlen]
  simp [hsize, hrest, store, ok_bind, Pdu.reach_of_le h.room]

/-- The loop answers as it should exactly for the bytes that are described above. -/
theorem readFrames_exact_iff {j : Nat} {pdu : Pdu} (h : Holds malloc j pdu)
    (bytes : List UInt8) :
    (∃ p, readFrames malloc j pdu bytes = .ok (-flaw bytes, p) ∧ (-flaw bytes ≠ 0 → p = none)) ↔
      bytes = [] ∨ Answered malloc j bytes := by
  fun_induction flaw bytes generalizing j pdu with
  | case1 => simp [readFrames]
  | case2 b =>
    have hcut : Answered malloc j [b] ↔ Destroyable malloc j :=
      ⟨fun ha => by cases ha; assumption, .cut⟩
    rw [readFrames, bail_exact_iff, h.destroy_iff]
    simp [hcut]
  | case3 b l rest hlt =>
    rw [readFrames_overrun (by omega), bail_exact_iff, h.destroy_iff]
    grind [answered_cons_iff]
  | case4 b l rest hge hfinal hlen =>
    rw [readFrames_overrun (by omega), bail_exact_iff]
    have hne : -E2SMALL ≠ -0 := by decide
    grind [answered_cons_iff]
  | case5 b l rest hge hfinal hlen =>
    by_cases hsize : frameSize b l = 0
    · have hrest : rest ≠ [] := by grind
      obtain ⟨pdu', h', heq⟩ := readFrames_empty h hrest hsize
      rw [heq, if_pos hfinal, bail_exact_iff, h'.destroy_iff]
      grind [answered_cons_iff]
    · rw [readFrames_bytes (by omega) hsize]
      grind [answered_cons_iff]
  | case6 b l rest hge hfinal hlen =>
    rw [readFrames_overrun (by omega), bail_exact_iff]
    have hne : -E2SMALL ≠ -ENOFF := by decide
    grind [answered_cons_iff]
  | case7 b l rest hge hfinal hlen ih =>
    by_cases hsize : frameSize b l = 0
    · have hrest : rest ≠ [] := by grind
      obtain ⟨pdu', h', heq⟩ := readFrames_empty h hrest hsize
      rw [hsize, List.drop_zero] at ih ⊢
      rw [heq, if_neg hfinal, ih h']
      grind [answered_cons_iff]
    · rw [readFrames_bytes (by omega) hsize]
      grind [answered_cons_iff]

end Loop

/-! ### The header -/

theorem and_mask {x : Int32} {k : Nat} (hk : k ≤ 31) (hx : x.toBitVec.toNat < 2 ^ k) :
    x = x &&& .ofNat (2 ^ k - 1) := by
  apply Int32.toBitVec_inj.mp
  apply BitVec.eq_of_toNat_eq
  have hmask : 2 ^ k - 1 < 2 ^ 32 := by
    have := Nat.pow_le_pow_right (n := 2) (by omega) hk
    omega
  have hcut : (Int32.ofNat (2 ^ k - 1)).toBitVec.toNat = 2 ^ k - 1 := by
    simpa using Nat.mod_eq_of_lt hmask
  rw [Int32.toBitVec_and, BitVec.toNat_and, hcut, Nat.and_two_pow_sub_one_eq_mod,
    Nat.mod_eq_of_lt hx]

theorem octet_toNat (b : UInt8) : (octet b).toBitVec.toNat = b.toNat := by
  have := b.toNat_lt
  simp [octet]

section Setters

variable (pdu : Pdu) (next : Pdu → Except Fault (Int32 × Option Pdu))

theorem orBail_setVersion (version : Int32) : orBail (setVersion (some pdu) version) next =
    if version = VERSION then next { pdu with version := version } else bail pdu (-EINVAL) := by
  by_cases h : version = VERSION <;> simp [setVersion, orBail, h, EINVAL]

theorem orBail_setOpcode (opcode : Int32) : orBail (setOpcode (some pdu) opcode) next =
    if validOpcode opcode then next { pdu with opcode := opcode } else bail pdu (-EINVAL) := by
  cases h : validOpcode opcode <;> simp [setOpcode, orBail, h, EINVAL]

theorem orBail_setFlags (b : UInt8) :
    orBail (setFlags (some pdu) (octet b)) next = next { pdu with flags := octet b } := by
  have hmask : octet b = octet b &&& 0xff :=
    and_mask (k := 8) (by omega) (by rw [octet_toNat]; exact b.toNat_lt)
  rw [setFlags, if_neg (by simpa using hmask), ← hmask]
  rfl

theorem orBail_setPayloads (b₂ b₃ : UInt8) :
    orBail (setPayloads (some pdu) ((octet b₂ <<< 8) ||| octet b₃)) next =
      next { pdu with payloads := (octet b₂ <<< 8) ||| octet b₃ } := by
  have hmask : (octet b₂ <<< 8) ||| octet b₃ = ((octet b₂ <<< 8) ||| octet b₃) &&& 0xffff := by
    have hshift : (octet b₂ <<< 8).toBitVec = (octet b₂).toBitVec <<< 8 := rfl
    have hhigh := b₂.toNat_lt
    have hlow := b₃.toNat_lt
    apply and_mask (k := 16) (by omega)
    rw [Int32.toBitVec_or, BitVec.toNat_or, hshift, BitVec.toNat_shiftLeft, octet_toNat,
      octet_toNat, Nat.shiftLeft_eq]
    apply Nat.or_lt_two_pow <;> omega
  rw [setPayloads, if_neg (by simpa using hmask), ← hmask]
  rfl

end Setters

section Header

variable {malloc : Nat → Block} {out : Option Pdu} {b₀ b₁ b₂ b₃ : UInt8} {rest : List UInt8}

theorem unpack_tight (h : (malloc 0).slack < 8) :
    unpack malloc out (b₀ :: b₁ :: b₂ :: b₃ :: rest) = .error .outOfBounds := by
  have hreach : (Pdu.fresh sizeofFrame (malloc 0)).reach 32 = .error .outOfBounds := by
    have hroom : ¬32 ≤ 24 + (malloc 0).slack := by omega
    simp [Pdu.reach, Pdu.fresh, sizeofFrame, hroom]
  rw [unpack, hreach]
  rfl

theorem unpack_header (h : 8 ≤ (malloc 0).slack) : ∃ pdu, Holds malloc 0 pdu ∧
    unpack malloc out (b₀ :: b₁ :: b₂ :: b₃ :: rest) =
      if validHeader b₀ then readFrames malloc 0 pdu rest else bail pdu (-EINVAL) := by
  have hroom : 32 ≤ (Pdu.fresh sizeofFrame (malloc 0)).room := by
    simp [Pdu.fresh, sizeofFrame]
    omega
  have hholds {pdu : Pdu} (hr : pdu.room = (Pdu.fresh sizeofFrame (malloc 0)).room)
      (hf : pdu.frames = (malloc 0).chain 16) : Holds malloc 0 pdu :=
    ⟨by omega, by simp [hf], by simp [hf]⟩
  simp only [unpack, Pdu.reach_of_le hroom, ok_bind, orBail_setVersion, orBail_setOpcode,
    orBail_setFlags, orBail_setPayloads]
  by_cases hversion : octet ((b₀ >>> 4) &&& 0xf) = VERSION
  · cases hopcode : validOpcode (octet (b₀ &&& 0xf)) with
    | true =>
      have hheader : validHeader b₀ = true := by simp [validHeader, hversion, hopcode]
      simp only [hheader, hversion, if_true]
      refine ⟨_, ?_, rfl⟩
      exact hholds rfl rfl
    | false =>
      have hheader : validHeader b₀ = false := by simp [validHeader, hopcode]
      simp only [hheader, hversion, if_true, Bool.false_eq_true, if_false]
      refine ⟨_, ?_, rfl⟩
      exact hholds rfl rfl
  · have hheader : validHeader b₀ = false := by simp [validHeader, hversion]
    simp only [hheader, hversion, Bool.false_eq_true, if_false]
    refine ⟨_, ?_, rfl⟩
    exact hholds rfl rfl

end Header

/-- Buffers that are answered as they should be. A buffer without a whole header leaves `*pdu` as
it was. For any other one the allocator has to give eight bytes more than it is asked for, and
what is destroyed has to have been clear. -/
inductive Handled (malloc : Nat → Block) (out : Option Pdu) : List UInt8 → Prop
  | short {buf : List UInt8} : buf.length < 4 → out = none → Handled malloc out buf
  | header {b₀ b₁ b₂ b₃ : UInt8} {rest : List UInt8} : 8 ≤ (malloc 0).slack →
      validHeader b₀ = false → (malloc 0).null 16 = true →
      Handled malloc out (b₀ :: b₁ :: b₂ :: b₃ :: rest)
  | frames {b₀ b₁ b₂ b₃ : UInt8} {rest : List UInt8} : 8 ≤ (malloc 0).slack →
      validHeader b₀ = true → rest = [] ∨ Answered malloc 0 rest →
      Handled malloc out (b₀ :: b₁ :: b₂ :: b₃ :: rest)

theorem handled_short_iff {malloc : Nat → Block} {out : Option Pdu} {buf : List UInt8}
    (h : buf.length < 4) : Handled malloc out buf ↔ out = none := by
  refine ⟨fun hh => ?_, .short h⟩
  cases hh with
  | short _ hout => exact hout
  | header => simp at h; omega
  | frames => simp at h; omega

theorem handled_cons_iff {malloc : Nat → Block} {out : Option Pdu} {b₀ b₁ b₂ b₃ : UInt8}
    {rest : List UInt8} : Handled malloc out (b₀ :: b₁ :: b₂ :: b₃ :: rest) ↔
      8 ≤ (malloc 0).slack ∧ if validHeader b₀ then rest = [] ∨ Answered malloc 0 rest
        else (malloc 0).null 16 = true := by
  constructor
  · intro h
    cases h with
    | short hlen _ => simp at hlen; omega
    | header hslack hvalid hnull => exact ⟨hslack, by simpa [hvalid] using hnull⟩
    | frames hslack hvalid hrest => exact ⟨hslack, by simpa [hvalid] using hrest⟩
  · rintro ⟨hslack, h⟩
    cases hvalid : validHeader b₀ with
    | true => exact .frames hslack hvalid (by simpa [hvalid] using h)
    | false => exact .header hslack hvalid (by simpa [hvalid] using h)

/-- The answer is the verdict. -/
theorem exact_iff_verdict {buf : List UInt8} {x : Except Fault (Int32 × Option Pdu)} :
    (∃ code p, x = .ok (code, p) ∧ (code = 0 ↔ WellFormed buf) ∧
        (code ≠ 0 → code = verdict buf ∧ p = none)) ↔
      ∃ p, x = .ok (verdict buf, p) ∧ (verdict buf ≠ 0 → p = none) := by
  have hzero := verdict_eq_zero_iff buf
  grind

/-- `tsdp_unpack` accepts exactly the well-formed buffers, and gives the matching error for the
others, for these alone. -/
theorem unpack_exact_iff (malloc : Nat → Block) (out : Option Pdu) (buf : List UInt8) :
    (∃ code p, unpack malloc out buf = .ok (code, p) ∧ (code = 0 ↔ WellFormed buf) ∧
        (code ≠ 0 → code = verdict buf ∧ p = none)) ↔ Handled malloc out buf := by
  rw [exact_iff_verdict]
  match buf with
  | [] | [_] | [_, _] | [_, _, _] =>
    simp [unpack, verdict, handled_short_iff, EINVAL, E2SMALL]
  | b₀ :: b₁ :: b₂ :: b₃ :: rest =>
    rw [handled_cons_iff]
    by_cases hslack : 8 ≤ (malloc 0).slack
    · obtain ⟨pdu, hholds, hunpack⟩ := unpack_header hslack
      rw [hunpack, verdict]
      split
      · rw [readFrames_exact_iff hholds]
        simp [hslack]
      · rw [bail_exact_iff, hholds.destroy_iff]
        simp [Destroyable, hslack]
    · rw [unpack_tight (by omega)]
      simp [hslack]

/-- A submission with one frame, an empty one. -/
def oneFrame : List UInt8 := [0x11, 0x00, 0x00, 0x00, 0x80, 0x00]

/-- An allocator that clears its blocks and has bytes to spare. -/
def generous (_ : Nat) : Block := { Block.cleared with slack := 8 }

/-- The frame ends where the buffer ends and is refused as too short. -/
theorem last_frame_refused :
    unpack generous none oneFrame = .ok (-E2SMALL, none) ∧
      ¬∃ code p, unpack generous none oneFrame = .ok (code, p) ∧
        (code = 0 ↔ WellFormed oneFrame) ∧ (code ≠ 0 → code = verdict oneFrame ∧ p = none) := by
  have hwell : WellFormed oneFrame :=
    ⟨0x11, 0, 0, 0, [0x80, 0x00], rfl, by decide, .inr (.last (by decide) (by decide))⟩
  have hunpack : unpack generous none oneFrame = .ok (-E2SMALL, none) := by
    obtain ⟨pdu, hholds, heq⟩ :=
      @unpack_header generous none 0x11 0x00 0x00 0x00 [0x80, 0x00] (by decide)
    rw [oneFrame, heq, if_pos (by decide), readFrames_overrun (by decide), bail,
      hholds.destroy_iff.mpr ⟨rfl, fun _ _ => rfl⟩]
    rfl
  refine ⟨hunpack, ?_⟩
  rintro ⟨code, p, hcode, hzero, -⟩
  rw [hunpack] at hcode
  obtain ⟨rfl, -⟩ := Prod.mk.inj (Except.ok.inj hcode)
  exact absurd (hzero.mpr hwell) (by decide)

end Bolo.Tsdp
