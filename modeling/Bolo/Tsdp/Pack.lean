import Bolo.Tsdp.Frames
import Bolo.Tsdp.Unpack

/-!
# Packing

`tsdp_pack` and the round trip through `tsdp_unpack`. The count of octets is never kept up to
date, and `*buf[i]` is the first byte behind the `i`-th of the caller's pointers, of which there
is one, so nothing after the first byte of a PDU can be written.
-/
namespace Bolo.Tsdp

open Library

/-! ## `pack.c` -/

/-- What is left of an `int` in a byte. -/
def byte (x : Int32) : UInt8 := x.toUInt32.toUInt8

/-- `*buf[i] = v`, where `bytes` is what `*buf` points to. -/
def put (bytes : List UInt8) (i : Nat) (v : UInt8) : Except Fault (List UInt8) :=
  if i = 0 then .ok (bytes.set 0 v) else .error .outOfBounds

/-- The inner loop: the data of a frame from position `i` on. -/
def putAll (bytes : List UInt8) (i : Nat) : List UInt8 → Except Fault (List UInt8)
  | [] => .ok bytes
  | v :: data => do
    let bytes ← put bytes i v
    putAll bytes (i + 1) data

/-- The loop over the frames, which does not go on to the next one. -/
def packFrames (octets : Nat) (frame : Frame) (next : Chain Frame) (bytes : List UInt8) (i : Nat) :
    Except Fault (Int32 × Option (List UInt8)) :=
  let size := frame.size.toInt.toNat
  if octets < i + 2 + size then .ok (-E2SMALL, none)
  else do
    let more : Int32 := if next = .null then 0 else 0x8
    let bytes ← put bytes i
      (byte (((frame.type &&& 0x7) <<< 4) ||| more ||| ((frame.size &&& 0xf00) >>> 8)))
    let bytes ← put bytes (i + 1) (byte (frame.size &&& 0x0ff))
    let data ← copy frame.data size
    let bytes ← putAll bytes (i + 2) data
    packFrames octets frame next bytes (i + 2 + size)
termination_by octets - i
decreasing_by omega

/-- `out` is what `*buf` is before the call. -/
def pack (out : Option (List UInt8)) :
    Option Pdu → Except Fault (Int32 × Option (List UInt8))
  | none => .ok (-EINVAL, out)
  | some pdu => do
    pdu.reach 32
    if pdu.octets < 4 then return (-E2SMALL, out)
    let bytes := List.replicate pdu.octets.toInt.toNat 0
    let bytes ← put bytes 0 (byte (((pdu.version &&& 0xf) <<< 4) ||| (pdu.opcode &&& 0xf)))
    let bytes ← put bytes 1 (byte (pdu.flags &&& 0xff))
    let bytes ← put bytes 2 (byte ((pdu.payloads &&& 0xff00) >>> 8))
    let bytes ← put bytes 3 (byte (pdu.payloads &&& 0x00ff))
    match pdu.frames with
    | .null => return (0, some bytes)
    | .wild => .error .invalidPointer
    | .node frame next => packFrames pdu.octets.toInt.toNat frame next bytes 4

/-- No PDU is ever packed: it counts too few octets, or its second byte has no place. -/
theorem pack_ne_zero (out buf : Option (List UInt8)) (pdu : Pdu) :
    pack out (some pdu) ≠ .ok (0, buf) := by
  intro h
  simp only [pack, bind_eq_ok] at h
  obtain ⟨-, -, h⟩ := h
  split at h
  · simp [pure_eq_ok, E2SMALL] at h
  · simp [bind_eq_ok, put] at h

/-! ## The round trip -/

/-- A PDU made by the calls that are described. -/
def Built (block : Block) (opcode flags payloads : Int32) (calls : List Call) (pdu : Pdu) :
    Prop :=
  ∃ pdu₁ pdu₂ pdu₃, create block none VERSION opcode = (0, some pdu₁) ∧
    setFlags (some pdu₁) flags = (0, some pdu₂) ∧
    setPayloads (some pdu₂) payloads = (0, some pdu₃) ∧ extendAll pdu₃ calls = .ok pdu

/-- A PDU is built, packed and unpacked, and comes back as it was asked for. -/
def RoundTrips (block : Block) (opcode : Opcode) (flags payloads : Int32) (calls : List Call)
    (malloc : Nat → Block) : Prop :=
  ∃ pdu buf pdu', Built block opcode.code flags payloads calls pdu ∧
    pack none (some pdu) = .ok (0, some buf) ∧ unpack malloc none buf = .ok (0, some pdu') ∧
    pdu'.version = VERSION ∧ pdu'.opcode = opcode.code ∧ pdu'.flags = flags ∧
    pdu'.payloads = payloads ∧ pdu'.frames.nodes = calls.map Call.frame

/-- Whatever is asked for and whatever the memory holds, nothing makes the round trip. -/
theorem never_round_trips (block : Block) (opcode : Opcode) (flags payloads : Int32)
    (calls : List Call) (malloc : Nat → Block) :
    ¬RoundTrips block opcode flags payloads calls malloc := by
  rintro ⟨pdu, buf, pdu', -, hpack, -⟩
  exact pack_ne_zero none (some buf) pdu hpack

/-- The smallest PDU there is, in cleared memory. -/
theorem submission_not_packed :
    Built .cleared Opcode.submit.code 0 0 [] submission ∧
      pack none (some submission) = .ok (-E2SMALL, none) ∧
      ¬RoundTrips .cleared .submit 0 0 [] generous := by
  refine ⟨⟨submission, submission, submission, by decide, by decide, by decide, rfl⟩, by decide, ?_⟩
  rintro ⟨pdu, buf, pdu', -, hpack, -⟩
  exact pack_ne_zero none (some buf) pdu hpack

end Bolo.Tsdp
