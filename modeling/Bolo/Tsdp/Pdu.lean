import Bolo.Library.Chain
import Bolo.Library.Outcome

/-!
# PDUs of the time series data protocol

`tsdp/create.c`, `set.c`, `get.c`, `extend.c` and `destroy.c`. The library does not clear what
`malloc` hands out and does not write all of it, so what a block holds before it is written is
an input of the functions that allocate one.

Offsets are those of `internal.h` where an `int` has four bytes and a pointer eight: a frame
is `type` 0, `size` 4, `data` 8, `next` 16, in all 24 bytes; a PDU is `version` 0, `opcode` 4,
`flags` 8, `payloads` 12, `frames` 16, `nframes` 24, `octets` 28, in all 32 bytes. The out
parameters of a function are part of its result.
-/
namespace Bolo.Tsdp

open Library

/-! ## Constants of `tsdp.h` -/

def VERSION : Int32 := 1
def RESERVED_OP : Int32 := 0xfa
def RESERVED_TYPE : Int32 := 0xfb

def EINVAL : Int32 := 22
def E2SMALL : Int32 := 1
def EEARLYFF : Int32 := 2
def ENOFF : Int32 := 3
def EBADTYPE : Int32 := 4

inductive Opcode where
  | heartbeat
  | submit
  | broadcast
  | forget
  | replay
  | subscriber
  deriving DecidableEq, Repr

def Opcode.code : Opcode → Int32
  | .heartbeat => 0
  | .submit => 0x01
  | .broadcast => 0x02
  | .forget => 0x03
  | .replay => 0x04
  | .subscriber => 0x05

inductive FrameType where
  | nil
  | uint
  | float
  | string
  | tstamp
  deriving DecidableEq, Repr

def FrameType.code : FrameType → Int32
  | .nil => 0
  | .uint => 0x01
  | .float => 0x02
  | .string => 0x03
  | .tstamp => 0x04

def validOpcode (x : Int32) : Bool := x &&& RESERVED_OP == 0

def validType (x : Int32) : Bool := x &&& RESERVED_TYPE == 0

/-- The reserved bits reach into the codes: half of the defined opcodes and types are not
valid. -/
theorem validOpcode_code (op : Opcode) :
    validOpcode op.code = true ↔ op ≠ .broadcast ∧ op ≠ .forget := by
  cases op <;> decide

theorem validType_code (t : FrameType) : validType t.code = true ↔ t = .nil ∨ t = .tstamp := by
  cases t <;> decide

/-! ## Memory -/

/-- Undefined behaviour the library can run into. -/
inductive Fault where
  | invalidPointer
  | outOfBounds
  deriving DecidableEq, Repr

/-- What `malloc` hands out: how many bytes more than it was asked for the block has, and what
it holds at each offset, as an `int` and as a pointer. A pointer that nobody wrote is NULL or
wild. -/
structure Block where
  slack : Nat
  int : Nat → Int32
  null : Nat → Bool

structure Frame where
  type : Int32
  size : Int32
  data : Pointer (List UInt8)
  deriving DecidableEq, Repr

/-- A PDU in a block of `room` bytes. -/
structure Pdu where
  room : Nat
  version : Int32
  opcode : Int32
  flags : Int32
  payloads : Int32
  frames : Chain Frame
  nframes : Int32
  octets : Int32
  deriving DecidableEq, Repr

def sizeofFrame : Nat := 24
def sizeofPdu : Nat := 32

namespace Block

/-- A block of zeros with no byte to spare. -/
def cleared : Block := { slack := 0, int := fun _ => 0, null := fun _ => true }

def pointer (b : Block) (offset : Nat) : Pointer (List UInt8) :=
  if b.null offset then .null else .wild

def chain (b : Block) (offset : Nat) : Chain Frame :=
  if b.null offset then .null else .wild

@[simp] theorem pointer_eq_wild {b : Block} {offset : Nat} :
    b.pointer offset = .wild ↔ b.null offset = false := by
  simp [pointer]

@[simp] theorem nodes_chain (b : Block) (offset : Nat) : (b.chain offset).nodes = [] := by
  unfold chain
  split <;> rfl

@[simp] theorem ends_chain (b : Block) (offset : Nat) :
    (b.chain offset).ends = b.null offset := by
  cases h : b.null offset <;> simp [chain, h, Chain.ends]

end Block

namespace Pdu

/-- A block of the given size, taken for a PDU. -/
def fresh (bytes : Nat) (b : Block) : Pdu :=
  { room := bytes + b.slack
    version := b.int 0
    opcode := b.int 4
    flags := b.int 8
    payloads := b.int 12
    frames := b.chain 16
    nframes := b.int 24
    octets := b.int 28 }

/-- A field that ends at the given offset is accessed. -/
def reach (pdu : Pdu) (offset : Nat) : Except Fault Unit :=
  if offset ≤ pdu.room then .ok () else .error .outOfBounds

theorem reach_of_le {pdu : Pdu} {offset : Nat} (h : offset ≤ pdu.room) :
    pdu.reach offset = .ok () := if_pos h

end Pdu

/-! ## `create.c` and `set.c` -/

def create (malloc : Block) (out : Option Pdu) (version opcode : Int32) : Int32 × Option Pdu :=
  if version ≠ VERSION ∨ validOpcode opcode = false then (-EINVAL, out)
  else
    (0, some { Pdu.fresh sizeofPdu malloc with
      version := version
      opcode := opcode
      payloads := 0
      flags := 0 })

def setVersion : Option Pdu → Int32 → Int32 × Option Pdu
  | none, _ => (-EINVAL, none)
  | some pdu, version =>
    if version ≠ VERSION then (-EINVAL, some pdu) else (0, some { pdu with version := version })

def setOpcode : Option Pdu → Int32 → Int32 × Option Pdu
  | none, _ => (-EINVAL, none)
  | some pdu, opcode =>
    if validOpcode opcode = false then (-EINVAL, some pdu)
    else (0, some { pdu with opcode := opcode })

def setFlags : Option Pdu → Int32 → Int32 × Option Pdu
  | none, _ => (-EINVAL, none)
  | some pdu, flags =>
    if flags ≠ flags &&& 0xff then (-EINVAL, some pdu)
    else (0, some { pdu with flags := flags &&& 0xff })

def setPayloads : Option Pdu → Int32 → Int32 × Option Pdu
  | none, _ => (-EINVAL, none)
  | some pdu, payloads =>
    if payloads ≠ payloads &&& 0xffff then (-EINVAL, some pdu)
    else (0, some { pdu with payloads := payloads &&& 0xffff })

/-! ## `extend.c` and `destroy.c` -/

/-- Bytes whose number is an `int`. -/
structure Payload where
  bytes : List UInt8
  fits : bytes.length < 2 ^ 31

def Payload.len (p : Payload) : Int32 := .ofNat p.bytes.length

theorem Payload.toInt_len (p : Payload) : p.len.toInt = p.bytes.length :=
  Int32.toInt_ofNat_of_lt p.fits

/-- The loop of `tsdp_extend`. `frame` is the address of `pdu->frames` throughout, so each round
drops the first frame of the PDU. -/
def walk : Chain Frame → Except Fault (Chain Frame)
  | .null => .ok .null
  | .wild => .error .invalidPointer
  | .node _ next => walk next

def extend (malloc : Block) (pdu : Pdu) (type : Int32) (payload : Payload) : Except Fault Pdu := do
  let _ ← walk pdu.frames
  pdu.reach 28
  return { pdu with
    frames := .node { type := type, size := payload.len, data := .to payload.bytes }
      (malloc.chain 16)
    nframes := pdu.nframes + 1 }

def free {A : Type} : Pointer A → Except Fault Unit
  | .null => .ok ()
  | .wild => .error .invalidPointer
  | .to _ => .ok ()

def destroyFrames : Chain Frame → Except Fault Unit
  | .null => .ok ()
  | .wild => .error .invalidPointer
  | .node frame next => do
    free frame.data
    destroyFrames next

def destroy (pdu : Pdu) : Except Fault Unit := destroyFrames pdu.frames

theorem destroyFrames_eq_ok {c : Chain Frame} :
    destroyFrames c = .ok () ↔ c.ends = true ∧ ∀ f ∈ c.nodes, f.data ≠ .wild := by
  induction c with
  | null => simp [destroyFrames, Chain.ends, Chain.nodes]
  | wild => simp [destroyFrames, Chain.ends]
  | node frame next ih =>
    have hfree : free frame.data = .ok () ↔ frame.data ≠ .wild := by
      cases frame.data <;> simp [free]
    simp only [destroyFrames, bind_eq_ok, exists_and_right, hfree, ih, Chain.ends, Chain.nodes,
      List.forall_mem_cons, exists_const]
    tauto

/-! ## `get.c` -/

def nthframe (pdu : Pdu) (n : Int32) : Except Fault (Chain Frame) :=
  match pdu.frames.follow n.toInt.toNat with
  | none => .error .invalidPointer
  | some frame => .ok frame

/-- The frame whose fields a getter reads, if the pointer is not NULL. -/
def find (pdu : Pdu) (n : Int32) : Except Fault (Option Frame) := do
  match ← nthframe pdu n with
  | .null => return none
  | .wild => .error .invalidPointer
  | .node frame _ => return some frame

def getSize : Option Pdu → Except Fault Int32
  | none => .ok (-EINVAL)
  | some pdu => do
    pdu.reach 28
    return pdu.nframes

def getFrameField (field : Frame → Int32) : Option Pdu → Int32 → Except Fault Int32
  | none, _ => .ok (-EINVAL)
  | some pdu, n => do
    pdu.reach 28
    if pdu.nframes < n then return -EINVAL
    match ← find pdu n with
    | none => return -EINVAL
    | some frame => return field frame

def getFrameType : Option Pdu → Int32 → Except Fault Int32 := getFrameField Frame.type

def getFrameSize : Option Pdu → Int32 → Except Fault Int32 := getFrameField Frame.size

/-- `memcpy` of `len` bytes. -/
def copy (data : Pointer (List UInt8)) (len : Nat) : Except Fault (List UInt8) :=
  match data with
  | .to bytes => if len ≤ bytes.length then .ok (bytes.take len) else .error .outOfBounds
  | _ => if len = 0 then .ok [] else .error .invalidPointer

/-- The code, and the length and the bytes where it is 0. -/
def getFrameValue : Option Pdu → Int32 → Int32 → Except Fault (Int32 × Option (Int32 × List UInt8))
  | none, _, _ => .ok (-EINVAL, none)
  | some pdu, n, type => do
    pdu.reach 28
    if pdu.nframes < n ∨ validType type = false then return (-EINVAL, none)
    match ← find pdu n with
    | none => return (-EINVAL, none)
    | some frame =>
      if frame.type ≠ type then return (-EBADTYPE, none)
      let data ← copy frame.data frame.size.toInt.toNat
      return (0, some (frame.size, data))

end Bolo.Tsdp
