import Bolo.Tsdp.Pdu

/-!
# The frames of a PDU

What `tsdp_extend` appends and the getters of `get.c` find again. Every call drops the frames
before it, and neither the new PDU nor the new frame is cleared, so the frame list is one only
as long as it has at most one frame and the memory was clear by chance.
-/
namespace Bolo.Tsdp

open Library

/-- A call of `tsdp_extend`, with the block that it gets for the frame. -/
structure Call where
  block : Block
  type : Int32
  payload : Payload

def extendAll (pdu : Pdu) (calls : List Call) : Except Fault Pdu :=
  calls.foldlM (fun pdu c => extend c.block pdu c.type c.payload) pdu

/-- The getters see the appended frames in order, and nothing after them. -/
structure AppendOnly (pdu : Pdu) (calls : List Call) : Prop where
  size : ∃ k, getSize (some pdu) = .ok k ∧ k.toInt = calls.length
  frame : ∀ (n : Int32) c, 0 ≤ n.toInt → calls[n.toInt.toNat]? = some c →
    getFrameType (some pdu) n = .ok c.type ∧ getFrameSize (some pdu) n = .ok c.payload.len ∧
      getFrameValue (some pdu) n c.type = .ok (0, some (c.payload.len, c.payload.bytes))
  beyond : ∀ n : Int32, (calls.length : Int) ≤ n.toInt →
    getFrameType (some pdu) n = .ok (-EINVAL) ∧ getFrameSize (some pdu) n = .ok (-EINVAL) ∧
      ∀ type, getFrameValue (some pdu) n type = .ok (-EINVAL, none)

theorem walk_eq_ok {c d : Chain Frame} : walk c = .ok d ↔ c.ends = true ∧ d = .null := by
  induction c with
  | null => simp [walk, Chain.ends, eq_comm]
  | wild => simp [walk, Chain.ends]
  | node frame next ih => simpa [walk, Chain.ends] using ih

theorem extend_eq_ok {malloc : Block} {pdu pdu' : Pdu} {type : Int32} {payload : Payload}
    (hroom : 28 ≤ pdu.room) :
    extend malloc pdu type payload = .ok pdu' ↔ pdu.frames.ends = true ∧ pdu' = { pdu with
      frames := .node { type := type, size := payload.len, data := .to payload.bytes }
        (malloc.chain 16)
      nframes := pdu.nframes + 1 } := by
  simp only [extend, Pdu.reach_of_le hroom, bind_eq_ok, walk_eq_ok, pure_eq_ok]
  grind

/-! ## Getters -/

section Getters

variable {pdu : Pdu} {n : Int32}

theorem getFrameField_beyond (field : Frame → Int32) (hroom : 28 ≤ pdu.room)
    (h : pdu.nframes < n ∨ find pdu n = .ok none) :
    getFrameField field (some pdu) n = .ok (-EINVAL) := by
  simp only [getFrameField, Pdu.reach_of_le hroom, ok_bind]
  split
  · rfl
  · rw [h.resolve_left ‹_›]
    rfl

theorem getFrameValue_beyond (hroom : 28 ≤ pdu.room)
    (h : pdu.nframes < n ∨ find pdu n = .ok none) (type : Int32) :
    getFrameValue (some pdu) n type = .ok (-EINVAL, none) := by
  simp only [getFrameValue, Pdu.reach_of_le hroom, ok_bind]
  split
  · rfl
  · rw [h.resolve_left fun hn => ‹¬_› (Or.inl hn)]
    rfl

theorem getFrameField_found (field : Frame → Int32) {frame : Frame} (hroom : 28 ≤ pdu.room)
    (hn : ¬pdu.nframes < n) (h : find pdu n = .ok (some frame)) :
    getFrameField field (some pdu) n = .ok (field frame) := by
  simp only [getFrameField, Pdu.reach_of_le hroom, ok_bind, if_neg hn, h]
  rfl

theorem getFrameValue_found {frame : Frame} {bytes : List UInt8} (hroom : 28 ≤ pdu.room)
    (hn : ¬pdu.nframes < n) (h : find pdu n = .ok (some frame)) (hdata : frame.data = .to bytes)
    (hlen : frame.size.toInt.toNat = bytes.length) :
    getFrameValue (some pdu) n frame.type =
      if validType frame.type then .ok (0, some (frame.size, bytes)) else .ok (-EINVAL, none) := by
  simp only [getFrameValue, Pdu.reach_of_le hroom, ok_bind, hn, h, hdata, hlen, copy]
  cases validType frame.type <;> simp [pure, Except.pure, ok_bind]

theorem find_null (h : pdu.frames = .null) : find pdu n = .ok none := by
  simp [find, nthframe, h, ok_bind, pure, Except.pure]

theorem find_first {frame : Frame} {next : Chain Frame} (h : pdu.frames = .node frame next)
    (hn : n.toInt ≤ 0) : find pdu n = .ok (some frame) := by
  have hsteps : n.toInt.toNat = 0 := by omega
  simp [find, nthframe, h, hsteps, ok_bind, pure, Except.pure]

theorem find_second {frame : Frame} {malloc : Block}
    (h : pdu.frames = .node frame (malloc.chain 16)) (hn : 0 < n.toInt) :
    find pdu n = if malloc.null 16 then .ok none else .error .invalidPointer := by
  obtain ⟨m, hm⟩ : ∃ m, n.toInt.toNat = m + 1 := ⟨n.toInt.toNat - 1, by omega⟩
  simp only [find, nthframe, h, hm, Chain.follow, Block.chain]
  -- the second pointer is NULL or wild, and the walk stops there
  cases malloc.null 16 with
  | true => simp [ok_bind, pure, Except.pure]
  | false => cases m <;> rfl

end Getters

/-! ## Runs of `tsdp_extend` -/

def Call.frame (c : Call) : Frame :=
  { type := c.type, size := c.payload.len, data := .to c.payload.bytes }

/-- All that is left is the frame of the last call. -/
theorem extendAll_last {pdu pdu' : Pdu} {calls : List Call} (hroom : 28 ≤ pdu.room)
    (h : extendAll pdu calls = .ok pdu') : pdu'.room = pdu.room ∧
      ∀ c, calls.getLast? = some c → pdu'.frames = .node c.frame (c.block.chain 16) := by
  induction calls generalizing pdu with
  | nil =>
    obtain rfl : pdu = pdu' := Except.ok.inj h
    simp
  | cons c calls ih =>
    simp only [extendAll, List.foldlM_cons, bind_eq_ok, extend_eq_ok hroom] at h
    obtain ⟨pdu₁, ⟨-, rfl⟩, h⟩ := h
    obtain ⟨hroom', hlast⟩ := ih (by exact hroom) h
    refine ⟨hroom', fun d hd => ?_⟩
    cases calls with
    | nil =>
      obtain rfl : c = d := by simpa using hd
      obtain rfl := Except.ok.inj h
      rfl
    | cons c' calls => exact hlast d (by simpa using hd)

/-- With a second call the frame list has no second frame. -/
theorem AppendOnly.length_le_one {pdu pdu' : Pdu} {calls : List Call} (hroom : 28 ≤ pdu.room)
    (h : extendAll pdu calls = .ok pdu') (happend : AppendOnly pdu' calls) :
    calls.length ≤ 1 := by
  by_contra hlen
  obtain ⟨hroom', hlast⟩ := extendAll_last hroom h
  have hne : calls ≠ [] := by
    rintro rfl
    simp at hlen
  have hsecond := (happend.frame 1 calls[1] (by decide) (List.getElem?_eq_getElem _)).2.1
  have hfind := find_second (n := 1) (hlast _ (List.getLast?_eq_some_getLast hne)) (by decide)
  have hlenSecond := calls[1].payload.toInt_len
  rw [getFrameSize, getFrameField, Pdu.reach_of_le (hroom'.symm ▸ hroom), ok_bind, hfind] at hsecond
  -- a length is not negative, and an error is
  have herror : Except.ok (-EINVAL) ≠ (.ok calls[1].payload.len : Except Fault Int32) := by
    intro heq
    have hneg : (-EINVAL).toInt = -22 := by decide
    rw [← Except.ok.inj heq, hneg] at hlenSecond
    omega
  split at hsecond
  · exact herror hsecond
  · split at hsecond
    · exact herror hsecond
    · cases hsecond

/-- What `tsdp_create` gives. -/
theorem create_eq_zero {malloc : Block} {out : Option Pdu} {version opcode : Int32} {pdu : Pdu}
    (h : create malloc out version opcode = (0, some pdu)) :
    pdu.room = 32 + malloc.slack ∧ pdu.frames = malloc.chain 16 ∧ pdu.nframes = malloc.int 24 := by
  simp only [create] at h
  split at h
  · simp [EINVAL] at h
  · obtain rfl := Option.some.inj (Prod.mk.inj h).2
    exact ⟨rfl, rfl, rfl⟩

theorem getSize_some {pdu : Pdu} (hroom : 28 ≤ pdu.room) :
    getSize (some pdu) = .ok pdu.nframes := by
  simp [getSize, Pdu.reach_of_le hroom, ok_bind, pure, Except.pure]

theorem appendOnly_nil_iff {pdu : Pdu} {malloc : Block} (hroom : 28 ≤ pdu.room)
    (hframes : pdu.frames = malloc.chain 16) :
    AppendOnly pdu [] ↔ pdu.nframes = 0 ∧ malloc.null 16 = true := by
  constructor
  · intro h
    obtain ⟨k, hk, hzero⟩ := h.size
    obtain rfl := Except.ok.inj ((getSize_some hroom).symm.trans hk)
    have hnframes : pdu.nframes = 0 := Int32.toInt_inj.mp hzero
    refine ⟨hnframes, ?_⟩
    by_contra hnull
    have hfirst := (h.beyond 0 (by simp)).1
    have hwild : pdu.frames = .wild := by simp [hframes, Block.chain, hnull]
    simp [getFrameType, getFrameField, Pdu.reach_of_le hroom, ok_bind, hnframes, find, nthframe,
      hwild] at hfirst
    cases hfirst
  · rintro ⟨hnframes, hnull⟩
    have hfind (n : Int32) : find pdu n = .ok none :=
      find_null (by simp [hframes, Block.chain, hnull])
    exact {
      size := ⟨0, by rw [getSize_some hroom, hnframes], rfl⟩
      frame := by simp
      beyond := fun n _ => ⟨getFrameField_beyond _ hroom (.inr (hfind n)),
        getFrameField_beyond _ hroom (.inr (hfind n)),
        getFrameValue_beyond hroom (.inr (hfind n))⟩ }

theorem appendOnly_singleton_iff {pdu : Pdu} {c : Call} (hroom : 28 ≤ pdu.room)
    (hframes : pdu.frames = .node c.frame (c.block.chain 16)) :
    AppendOnly pdu [c] ↔
      pdu.nframes = 1 ∧ validType c.type = true ∧ c.block.null 16 = true := by
  have hlen : c.payload.len.toInt.toNat = c.payload.bytes.length := by
    rw [c.payload.toInt_len]
    rfl
  have hvalue (n : Int32) (hbound : ¬pdu.nframes < n) (hn : n.toInt ≤ 0) :
      getFrameValue (some pdu) n c.type = if validType c.type then
        .ok (0, some (c.payload.len, c.payload.bytes)) else .ok (-EINVAL, none) :=
    getFrameValue_found hroom hbound (find_first hframes hn) rfl hlen
  constructor
  · intro h
    obtain ⟨k, hk, hone⟩ := h.size
    obtain rfl := Except.ok.inj ((getSize_some hroom).symm.trans hk)
    have hnframes : pdu.nframes = 1 := Int32.toInt_inj.mp hone
    refine ⟨hnframes, ?_, ?_⟩
    · have hzero := (h.frame 0 c (by decide) rfl).2.2
      by_contra hvalid
      have hread := (hvalue 0 (by rw [hnframes]; decide) (by decide)).symm.trans hzero
      rw [if_neg hvalid] at hread
      cases hread
    · by_contra hnull
      have hsecond := (h.beyond 1 (by simp)).1
      rw [getFrameType, getFrameField, Pdu.reach_of_le hroom, ok_bind, hnframes,
        if_neg (by decide), find_second hframes (by decide), if_neg hnull] at hsecond
      cases hsecond
  · rintro ⟨hnframes, hvalid, hnull⟩
    refine ⟨⟨1, by rw [getSize_some hroom, hnframes], rfl⟩, ?_, ?_⟩
    · intro n d hn hd
      obtain ⟨hlt, rfl⟩ := List.getElem?_eq_some_iff.mp hd
      rw [List.length_singleton] at hlt
      have hfirst : n.toInt ≤ 0 := by omega
      have hbound : ¬pdu.nframes < n := by
        rw [hnframes, Int32.lt_iff_toInt_lt]
        have hone : (1 : Int32).toInt = 1 := rfl
        omega
      have hfind := find_first hframes hfirst
      simp only [List.getElem_singleton]
      refine ⟨getFrameField_found _ hroom hbound hfind, getFrameField_found _ hroom hbound hfind,
        ?_⟩
      exact (hvalue n hbound hfirst).trans (if_pos hvalid)
    · intro n hn
      have hbeyond : pdu.nframes < n ∨ find pdu n = .ok none := by
        right
        rw [find_second hframes (by simp at hn; omega), if_pos hnull]
      exact ⟨getFrameField_beyond _ hroom hbeyond, getFrameField_beyond _ hroom hbeyond,
        getFrameValue_beyond hroom hbeyond⟩

/-- The frame list of a new PDU behaves as a list exactly if the memory of the PDU was clear
and there is at most one frame, of a type that is valid, whose memory was clear as well. -/
theorem append_only_iff {malloc : Block} {out : Option Pdu} {version opcode : Int32} {pdu : Pdu}
    (h : create malloc out version opcode = (0, some pdu)) (calls : List Call) :
    (∃ pdu', extendAll pdu calls = .ok pdu' ∧ AppendOnly pdu' calls) ↔
      malloc.int 24 = 0 ∧ malloc.null 16 = true ∧
        (calls = [] ∨ ∃ c, calls = [c] ∧ validType c.type = true ∧ c.block.null 16 = true) := by
  obtain ⟨hroom, hframes, hnframes⟩ := create_eq_zero h
  have hroom : 28 ≤ pdu.room := by omega
  match calls with
  | [] =>
    have hnil : extendAll pdu [] = .ok pdu := rfl
    simp [hnil, appendOnly_nil_iff hroom hframes, hnframes]
  | [c] =>
    have hone : extendAll pdu [c] = extend c.block pdu c.type c.payload := by
      simp [extendAll]
    simp only [hone, extend_eq_ok hroom, hframes, Block.ends_chain]
    constructor
    · rintro ⟨pdu', ⟨hnull, rfl⟩, happend⟩
      obtain ⟨hsize, hvalid, hnext⟩ :=
        (appendOnly_singleton_iff (by exact hroom) (by rfl)).mp happend
      have hzero : pdu.nframes = 0 := Int32.add_eq_right.mp hsize
      exact ⟨hnframes ▸ hzero, hnull, .inr ⟨c, rfl, hvalid, hnext⟩⟩
    · rintro ⟨hzero, hnull, hcalls⟩
      obtain ⟨d, hd, hvalid, hnext⟩ := hcalls.resolve_left (by simp)
      obtain rfl : c = d := by simpa using hd
      refine ⟨_, ⟨hnull, rfl⟩, ?_⟩
      rw [appendOnly_singleton_iff (by exact hroom) (by rfl)]
      exact ⟨by simp [hnframes, hzero], hvalid, hnext⟩
  | c :: c' :: calls =>
    refine iff_of_false ?_ (by simp)
    rintro ⟨pdu', hrun, happend⟩
    simpa using happend.length_le_one hroom hrun

/-- A submission in cleared memory, before its first frame. -/
def submission : Pdu :=
  { room := 32, version := 1, opcode := 1, flags := 0, payloads := 0, frames := .null,
    nframes := 0, octets := 0 }

/-- A time stamp of one byte. -/
def stamp (b : UInt8) : Call :=
  { block := .cleared
    type := FrameType.tstamp.code
    payload := { bytes := [b], fits := by simp } }

theorem append_only_stamp :
    create .cleared none VERSION Opcode.submit.code = (0, some submission) ∧
      ∃ pdu, extendAll submission [stamp 7] = .ok pdu ∧ AppendOnly pdu [stamp 7] := by
  have h : create .cleared none VERSION Opcode.submit.code = (0, some submission) := by decide
  exact ⟨h, (append_only_iff h [stamp 7]).mpr
    ⟨rfl, rfl, .inr ⟨stamp 7, rfl, by decide, rfl⟩⟩⟩

/-- After a second stamp the first frame holds the second one. -/
theorem first_stamp_lost :
    create .cleared none VERSION Opcode.submit.code = (0, some submission) ∧
      ¬∃ pdu, extendAll submission [stamp 7, stamp 9] = .ok pdu ∧
        AppendOnly pdu [stamp 7, stamp 9] := by
  refine ⟨by decide, ?_⟩
  rintro ⟨pdu, hrun, happend⟩
  have hread : (extendAll submission [stamp 7, stamp 9] >>= fun pdu =>
      getFrameValue (some pdu) 0 FrameType.tstamp.code) = .ok (0, some (1, [9])) := by decide
  rw [hrun, ok_bind] at hread
  have hfirst := (happend.frame 0 (stamp 7) (by decide) rfl).2.2
  exact absurd (hread.symm.trans hfirst) (by decide)

end Bolo.Tsdp
