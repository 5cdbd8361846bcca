import Bolo.Data.Types
import Bolo.Library.Buffer
import Bolo.Library.Lines
import Bolo.Library.Machine

/-!
# The agent's side of a collector's pipe

`s_sink` of `dbolo` reads what a collector prints and hands every line of it to
`bolo_stream_pdu`. What is left of the last line stays in the buffer of the command until
more of it arrives.

The world is the stream that the collector has written. A read takes any number of bytes
from its front, up to the room in the buffer; one that takes none ends a call of `s_sink`,
and the next call goes on where it stopped.
-/
namespace Bolo.Dbolo

open Library

/-- `command_t`, as far as `s_sink` uses it. -/
structure Command where
  nread : Nat
  buffer : Buffer 8192

/-- The inner loop of `s_sink`. A newline behind the first `nread` bytes would make the count
wrap, and with it the next read miss the buffer. -/
def drain (cmd : Command) : Except Fault (Command × List CString) :=
  match cmd.buffer.strchr 0 NEWLINE with
  | none => .error .outOfBounds
  | some none => .ok (cmd, [])
  | some (some nl) =>
    if _h : nl + 1 ≤ cmd.nread then do
      let b ← inBounds (cmd.buffer.put nl [0])
      let line ← inBounds (b.str 0)
      let b ← inBounds (b.moveDown (nl + 1) (8192 - (nl + 1)))
      let r ← drain { nread := cmd.nread - (nl + 1), buffer := b }
      return (r.1, line :: r.2)
    else .error .outOfBounds
termination_by cmd.nread

/-- One pass of the outer loop, after `data` was read behind the first `nread` bytes. -/
def sink (cmd : Command) (data : List UInt8) : Except Fault (Command × List CString) := do
  let b ← inBounds (cmd.buffer.put cmd.nread data)
  let b ← inBounds (b.put (cmd.nread + data.length) [0])
  drain { nread := cmd.nread + data.length, buffer := b }

/-- A read of up to `n` bytes from the stream, and what `s_sink` does with them. -/
def pull (s : Command × List UInt8) (n : Nat) :
    Except Fault ((Command × List UInt8) × List CString) :=
  if s.1.nread ≤ 8191 then
    let data := s.2.take (min n (8191 - s.1.nread))
    if data = [] then .ok (s, [])
    else do
      let r ← sink s.1 data
      return ((r.1, s.2.drop data.length), r.2)
  else .error .outOfBounds

/-! ## What the buffer holds -/

/-- The first `nread` bytes of the buffer are `t`. -/
def Command.Front (cmd : Command) (t : List UInt8) : Prop :=
  cmd.nread = t.length ∧ t <+: cmd.buffer.cells

/-- The text `t` at the front of the buffer, with its terminator. -/
def Command.Holds (cmd : Command) (t : List UInt8) : Prop :=
  cmd.nread = t.length ∧ ∃ junk, cmd.buffer.cells = t ++ 0 :: junk

theorem Command.Holds.front {cmd : Command} {t : List UInt8} (h : cmd.Holds t) : cmd.Front t := by
  obtain ⟨hn, junk, hcells⟩ := h
  exact ⟨hn, hcells ▸ List.prefix_append _ _⟩

/-- The inner loop takes every line off the text and leaves the rest. -/
theorem drain_spec {t : List UInt8} (h0 : 0 ∉ t) {cmd : Command} (h : cmd.Holds t) :
    ∃ cmd' out, drain cmd = .ok (cmd', out) ∧ cmd'.Holds (rest NEWLINE t) ∧
      out.map CString.bytes = pieces NEWLINE t := by
  induction t using split_induction NEWLINE generalizing cmd with
  | hrest t ht =>
    obtain ⟨hn, junk, hcells⟩ := h
    have hchr : cmd.buffer.strchr 0 NEWLINE = some none :=
      Buffer.strchr_absent (u := []) hcells h0 ht (by decide)
    rw [rest_of_notMem ht, pieces_of_notMem ht]
    exact ⟨cmd, [], by rw [drain, hchr], ⟨hn, junk, hcells⟩, rfl⟩
  | hpiece x t hx ih =>
    obtain ⟨hn, junk, hcells⟩ := h
    have h0x : 0 ∉ x := fun hm => h0 (by simp [hm])
    have h0t : 0 ∉ t := fun hm => h0 (by simp [hm])
    have hlen : x.length + 1 + t.length + 1 + junk.length = 8192 := by
      rw [← cmd.buffer.length_cells, hcells]
      simp only [List.length_append, List.length_cons]
      omega
    have hchr : cmd.buffer.strchr 0 NEWLINE = some (some x.length) := by
      have hfound := Buffer.strchr_found (b := cmd.buffer) (u := []) (l := t ++ 0 :: junk)
        (by simpa using hcells) h0x hx
      simpa using hfound
    -- the newline becomes the terminator of the line
    obtain ⟨b₁, hput, hcells₁⟩ := cmd.buffer.put_cells (i := x.length) (l := [0])
      (by simp only [List.length_singleton]; omega)
    have hline : b₁.cells = x ++ 0 :: (t ++ 0 :: junk) := by simp [hcells₁, hcells]
    have hstr := Buffer.str_cells hline h0x
    -- and what follows moves to the front
    obtain ⟨b₂, hmove, hcells₂⟩ := Buffer.moveDown_cells (b := b₁) (u := x ++ [0])
      (l := t ++ 0 :: junk) (n := 8192 - (x.length + 1)) (by simpa using hline)
      (by simp only [List.length_append, List.length_cons]; omega)
    have hmoved : ∃ junk', b₂.cells = t ++ 0 :: junk' := by
      rw [hcells₂, List.take_of_length_le
        (by simp only [List.length_append, List.length_cons]; omega)]
      exact ⟨_, by rw [List.append_assoc, List.cons_append]⟩
    rw [List.length_append, List.length_cons] at hn
    have hholds₂ : Command.Holds { nread := cmd.nread - (x.length + 1), buffer := b₂ } t :=
      ⟨by change cmd.nread - (x.length + 1) = t.length; omega, hmoved⟩
    obtain ⟨cmd', out, hdrain, hholds, hout⟩ := ih h0t hholds₂
    refine ⟨cmd', ⟨x, h0x⟩ :: out, ?_, ?_, ?_⟩
    · rw [List.length_append, List.length_singleton] at hmove
      rw [drain, hchr]
      simp only
      rw [dif_pos (by omega), hput]
      simp only [inBounds_some, bind, Except.bind, hstr, hmove, hdrain]
      rfl
    · rwa [rest_append_cons hx]
    · rw [pieces_append_cons hx, List.map_cons, hout]

/-- A pass of the outer loop delivers the lines that the new data completes. -/
theorem sink_spec {cmd : Command} {t data : List UInt8} (h : cmd.Front t) (h0 : 0 ∉ t ++ data)
    (hlen : t.length + data.length ≤ 8191) :
    ∃ cmd' out, sink cmd data = .ok (cmd', out) ∧ cmd'.Holds (rest NEWLINE (t ++ data)) ∧
      out.map CString.bytes = pieces NEWLINE (t ++ data) := by
  obtain ⟨hn, tail, hcells⟩ := h
  obtain ⟨b₁, hput₁, hcells₁⟩ := cmd.buffer.put_cells (i := cmd.nread) (l := data) (by omega)
  obtain ⟨b₂, hput₂, hcells₂⟩ := b₁.put_cells (i := cmd.nread + data.length) (l := [0])
    (by simp only [List.length_singleton]; omega)
  have hholds : Command.Holds ⟨cmd.nread + data.length, b₂⟩ (t ++ data) := by
    refine ⟨by simp [hn], ?_⟩
    rw [hcells₂, hcells₁, ← hcells, hn, List.take_left,
      List.take_left' (by simp), List.append_assoc _ [0]]
    exact ⟨_, rfl⟩
  obtain ⟨cmd', out, hdrain, hrest⟩ := drain_spec h0 hholds
  refine ⟨cmd', out, ?_, hrest⟩
  simp only [sink, hput₁, hput₂, inBounds_some, bind, Except.bind, hdrain]

/-! ## Whole streams -/

/-- What is behind `s_sink` after it has read `consumed`: the lines are delivered, and the rest
is in the buffer. -/
structure Caught (stream consumed : List UInt8) (s : Command × List UInt8) (out : List CString) :
    Prop where
  stream_eq : stream = consumed ++ s.2
  lines_eq : out.map CString.bytes = pieces NEWLINE consumed
  front : s.1.Front (rest NEWLINE consumed)
  holds : consumed ≠ [] → s.1.Holds (rest NEWLINE consumed)

namespace Caught

variable {stream consumed : List UInt8} {s : Command × List UInt8} {out : List CString}

theorem room (h : Caught stream consumed s out) : s.1.nread ≤ 8191 := by
  by_cases hc : consumed = []
  · have hn : s.1.nread = (rest NEWLINE consumed).length := h.front.1
    have hrest : rest NEWLINE ([] : List UInt8) = [] := rest_of_notMem (by simp)
    rw [hc, hrest, List.length_nil] at hn
    omega
  · obtain ⟨hn, junk, hcells⟩ := h.holds hc
    have hlen := congrArg List.length hcells
    rw [Buffer.length_cells, List.length_append, List.length_cons] at hlen
    omega

/-- A read takes as much of the stream as it asks for and as there is room for. -/
theorem pull (h0 : 0 ∉ stream) (h : Caught stream consumed s out) (n : Nat) :
    ∃ cmd out', pull s n = .ok ((cmd, s.2.drop (min n (8191 - s.1.nread))), out') ∧
      Caught stream (consumed ++ s.2.take (min n (8191 - s.1.nread)))
        (cmd, s.2.drop (min n (8191 - s.1.nread))) (out ++ out') := by
  have hroom := h.room
  unfold Dbolo.pull
  rw [if_pos hroom]
  have hsplit := List.take_append_drop (min n (8191 - s.1.nread)) s.2
  have hdlen := List.length_take_le (min n (8191 - s.1.nread)) s.2
  generalize s.2.take (min n (8191 - s.1.nread)) = data at hsplit hdlen ⊢
  generalize s.2.drop (min n (8191 - s.1.nread)) = left at hsplit ⊢
  have hdrop : s.2.drop data.length = left := by
    rw [← hsplit]
    exact List.drop_left
  by_cases hdata : data = []
  · subst hdata
    rw [List.nil_append] at hsplit
    exact ⟨s.1, [], by rw [if_pos rfl, hsplit], by simpa [hsplit] using h⟩
  · have h0' : 0 ∉ rest NEWLINE consumed ++ data := by
      intro hm
      refine h0 (h.stream_eq ▸ ?_)
      rcases List.mem_append.mp hm with hm | hm
      · exact List.mem_append_left _ ((rest_suffix consumed).subset hm)
      · exact List.mem_append_right _ (hsplit ▸ List.mem_append_left _ hm)
    have hn : s.1.nread = (rest NEWLINE consumed).length := h.front.1
    obtain ⟨cmd, lines, hsink, hholds, hlines⟩ := sink_spec h.front h0' (by omega)
    refine ⟨cmd, lines, ?_, ?_, ?_, ?_, fun _ => ?_⟩
    · simp only [if_neg hdata, hsink, bind, Except.bind, pure, Except.pure, hdrop]
    · rw [List.append_assoc, hsplit]
      exact h.stream_eq
    · rw [List.map_append, h.lines_eq, hlines, ← pieces_append]
    · rw [rest_append]
      exact hholds.front
    · rw [rest_append]
      exact hholds

/-- A line that fits the buffer with its newline can always be read to its end. -/
theorem progress (h : Caught stream consumed s out)
    (hfit : ∀ line ∈ pieces NEWLINE stream, line.length + 1 ≤ 8191) (hmore : NEWLINE ∈ s.2) :
    s.1.nread < 8191 := by
  obtain ⟨x, y, hxy, hx⟩ := List.eq_append_cons_of_mem hmore
  have hrest : NEWLINE ∉ rest NEWLINE consumed ++ x := by
    simp [notMem_rest, hx]
  have hline : rest NEWLINE consumed ++ x ∈ pieces NEWLINE stream := by
    rw [h.stream_eq, hxy, pieces_append, ← List.append_assoc (rest NEWLINE consumed),
      pieces_append_cons hrest]
    simp
  have hlen := hfit _ hline
  have hn : s.1.nread = (rest NEWLINE consumed).length := h.front.1
  rw [List.length_append] at hlen
  omega

/-- The same for what follows the last line. -/
theorem progress_rest (h : Caught stream consumed s out)
    (hfit : (rest NEWLINE stream).length ≤ 8191) (hmore : s.2 ≠ []) (hlast : NEWLINE ∉ s.2) :
    s.1.nread < 8191 := by
  have hrest : rest NEWLINE stream = rest NEWLINE consumed ++ s.2 := by
    rw [h.stream_eq, rest_append, rest_of_notMem (by simp [notMem_rest, hlast])]
  have hpos := List.length_pos_of_ne_nil hmore
  have hn : s.1.nread = (rest NEWLINE consumed).length := h.front.1
  rw [hrest, List.length_append] at hfit
  omega

/-- With no newline left in the pipe, every line has been delivered. -/
theorem lines_of_used (h : Caught stream consumed s out) (hused : NEWLINE ∉ s.2) :
    out.map CString.bytes = pieces NEWLINE stream := by
  have hnone : NEWLINE ∉ rest NEWLINE consumed ++ s.2 := by simp [notMem_rest, hused]
  rw [h.lines_eq, h.stream_eq, pieces_append, pieces_of_notMem hnone, List.append_nil]

end Caught

/-- What a run of reads leaves of the stream: each read for at least one byte gets one, unless the
buffer is full. -/
def Pending (stream : List UInt8) (cuts : List Nat) (pending : List UInt8) : Prop :=
  NEWLINE ∈ pending ∨ (rest NEWLINE stream).length ≤ 8191 ∧ pending ≠ [] →
    pending.length + cuts.countP (0 < ·) ≤ stream.length

theorem Pending.used {stream pending : List UInt8} {cuts : List Nat}
    (h : Pending stream cuts pending) (hcuts : stream.length ≤ cuts.countP (0 < ·)) :
    ¬(NEWLINE ∈ pending ∨ (rest NEWLINE stream).length ≤ 8191 ∧ pending ≠ []) := by
  intro hmore
  have hlong := h hmore
  have hne : pending ≠ [] := hmore.elim List.ne_nil_of_mem And.right
  have hpos := List.length_pos_of_ne_nil hne
  omega

/-- The reads of a run: what they have consumed, and how far they have come where the lines
fit. -/
theorem caught_run (stream : CString) (buffer : Buffer 8192) (cuts : List Nat) :
    ∃ cmd pending out consumed,
      Machine.run pull (⟨0, buffer⟩, stream.bytes) cuts = .ok ((cmd, pending), out) ∧
      Caught stream.bytes consumed (cmd, pending) out ∧
      ((∀ line ∈ pieces NEWLINE stream.bytes, line.length + 1 ≤ 8191) →
        Pending stream.bytes cuts pending) := by
  have hstart : Caught stream.bytes [] (⟨0, buffer⟩, stream.bytes) [] := by
    have hrest : rest NEWLINE ([] : List UInt8) = [] := rest_of_notMem (by simp)
    exact ⟨rfl, rfl, ⟨by rw [hrest]; rfl, by simp [hrest]⟩, fun h => absurd rfl h⟩
  obtain ⟨⟨cmd, pending⟩, out, hrun, consumed, h, hpending⟩ := Machine.run_complete
    (P := fun s cuts out => ∃ consumed, Caught stream.bytes consumed s out ∧
      ((∀ line ∈ pieces NEWLINE stream.bytes, line.length + 1 ≤ 8191) →
        Pending stream.bytes cuts s.2))
    (Q := fun _ _ => True) (l := []) (o := [])
    (fun s n cuts out hs _ => by
      obtain ⟨consumed, h, hpending⟩ := hs
      obtain ⟨cmd, out', hpull, h'⟩ := h.pull stream.nulFree n
      refine ⟨_, out', hpull, _, h', fun hfit hmore => ?_⟩
      have hsub : s.2.drop (min n (8191 - s.1.nread)) ⊆ s.2 := List.drop_subset _ _
      -- what is left now was left before, and there was room for it
      have hbefore : NEWLINE ∈ s.2 ∨ (rest NEWLINE stream.bytes).length ≤ 8191 ∧ s.2 ≠ [] :=
        hmore.imp (fun hm => hsub hm) fun hm => ⟨hm.1, fun hnil => hm.2 (by simp [hnil])⟩
      have hroom : s.1.nread < 8191 := by
        by_cases hline : NEWLINE ∈ s.2
        · exact h.progress hfit hline
        · obtain ⟨hlen, hne⟩ := hbefore.resolve_left hline
          exact h.progress_rest hlen hne hline
      have hlong := hpending hfit hbefore
      have hne : s.2.drop (min n (8191 - s.1.nread)) ≠ [] := by
        rcases hmore with hm | hm
        · exact List.ne_nil_of_mem hm
        · exact hm.2
      have hpos := List.length_pos_of_ne_nil hne
      rw [List.countP_append, List.countP_singleton]
      rw [List.length_drop] at hpos ⊢
      simp only [decide_eq_true_eq]
      split <;> omega)
    ⟨[], hstart, fun _ _ => by simp⟩ (fun _ _ _ _ _ _ _ => trivial)
  exact ⟨cmd, pending, out, consumed, hrun, h, hpending⟩

/-- However a stream is cut into reads, no access misses the buffer, the lines read so far
have been delivered, each once and in order, and the rest is at the front of the buffer with
its length in `nread` and a NUL behind it. A further read takes what it asks for, up to the room in
the buffer. As long as the lines fit the buffer, as many reads as the stream has bytes deliver all
of them, and read the stream to its end if what follows the last line fits too. -/
theorem sink_lines (stream : CString) (buffer : Buffer 8192) (cuts : List Nat) :
    ∃ cmd pending out consumed,
      Machine.run pull (⟨0, buffer⟩, stream.bytes) cuts = .ok ((cmd, pending), out) ∧
      stream.bytes = consumed ++ pending ∧
      out.map CString.bytes = pieces NEWLINE consumed ∧
      cmd.nread = (rest NEWLINE consumed).length ∧
      (consumed ≠ [] → ∃ junk, cmd.buffer.cells = rest NEWLINE consumed ++ 0 :: junk) ∧
      (∀ n, ∃ cmd' out', pull (cmd, pending) n =
        .ok ((cmd', pending.drop (min n (8191 - cmd.nread))), out')) ∧
      ((∀ line ∈ pieces NEWLINE stream.bytes, line.length + 1 ≤ 8191) →
        (NEWLINE ∈ pending → cmd.nread < 8191) ∧
        (stream.length ≤ cuts.countP (0 < ·) →
          out.map CString.bytes = pieces NEWLINE stream.bytes ∧
          ((rest NEWLINE stream.bytes).length ≤ 8191 → consumed = stream.bytes))) := by
  obtain ⟨cmd, pending, out, consumed, hrun, h, hpending⟩ := caught_run stream buffer cuts
  refine ⟨cmd, pending, out, consumed, hrun, h.stream_eq, h.lines_eq, h.front.1,
    fun hc => (h.holds hc).2, fun n => ?_, fun hfit => ⟨h.progress hfit, fun hcuts => ?_⟩⟩
  · obtain ⟨cmd', out', hpull, -⟩ := h.pull stream.nulFree n
    exact ⟨cmd', out', hpull⟩
  have hused := (hpending hfit).used hcuts
  refine ⟨h.lines_of_used fun hmore => hused (.inl hmore), fun hlast => ?_⟩
  have hnil : pending = [] := by
    by_contra hne
    exact hused (.inr ⟨hlast, hne⟩)
  rw [h.stream_eq, hnil, List.append_nil]

end Bolo.Dbolo
