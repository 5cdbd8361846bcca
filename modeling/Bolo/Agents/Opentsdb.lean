import Bolo.Data.Types
import Bolo.Library.Buffer
import Bolo.Library.Lines
import Bolo.Library.Machine

/-!
# The OpenTSDB gateway

The event loop of `opentsdb2bolo`: a table of clients, each with a buffer for the line it is
sending. Every line goes to `s_send`.

A read stores its bytes at the start of the buffer, over what is left of the last line, and
the search for a newline starts behind that. So the lines come out right as long as every
read ends with one.
-/
namespace Bolo.Opentsdb

open Library

/-- `client_t`; a descriptor of -1 marks a free slot. -/
structure Client where
  fd : Option Nat
  buffer : Buffer 8192
  nread : Nat
  deriving DecidableEq

/-- The loop that sends the lines, from the newline `eol` on. A newline behind the first
`nread` bytes makes the count wrap, and with it the number of bytes that are moved. -/
def sendLines (nread : Nat) (b : Buffer 8192) :
    Option Nat → Except Fault ((Nat × Buffer 8192) × List CString)
  | none => .ok ((nread, b), [])
  | some eol =>
    if _h : eol + 1 ≤ nread then do
      let b ← inBounds (b.put eol [0])
      let line ← inBounds (b.str 0)
      let b ← inBounds (b.moveDown (eol + 1) (nread - (eol + 1)))
      let next ← inBounds (b.strchr 0 NEWLINE)
      let r ← sendLines (nread - (eol + 1)) b next
      return (r.1, line :: r.2)
    else .error .outOfBounds
termination_by nread

/-- What `read` returned for a client is handled; nothing is the end of its stream. -/
def receive (c : Client) (data : List UInt8) : Except Fault (Client × List CString) := do
  let b ← inBounds (c.buffer.put 0 data)
  let closing := data = [] ∧ c.nread ≠ 0
  let b ← if closing then inBounds (b.put c.nread [NEWLINE]) else .ok b
  let nread := if closing then c.nread + 1 else c.nread
  let b ← inBounds (b.put (nread + data.length) [0])
  let eol ← inBounds (b.strchr nread NEWLINE)
  let r ← sendLines (nread + data.length) b eol
  return ({ fd := if data = [] then none else c.fd, nread := r.1.1, buffer := r.1.2 }, r.2)

/-- The client gets the first free slot, if there is one. -/
def connect (fd : Nat) : List Client → List Client
  | [] => []
  | c :: cs =>
    if c.fd = none then { c with fd := some fd, nread := 0 } :: cs else c :: connect fd cs

def dispatch (fd : Nat) (data : List UInt8) :
    List Client → Except Fault (List Client × List CString)
  | [] => .ok ([], [])
  | c :: cs =>
    if c.fd = some fd then do
      let r ← receive c data
      return (r.1 :: cs, r.2)
    else do
      let r ← dispatch fd data cs
      return (c :: r.1, r.2)

/-- What `epoll_wait` reports: a connection, or a client and what it sent. -/
inductive Event where
  | accept (fd : Nat)
  | readable (fd : Nat) (data : List UInt8)
  deriving DecidableEq

/-- A pass of the event loop; its outputs are the strings sent, with the client's descriptor. -/
def serve (cs : List Client) : Event → Except Fault (List Client × List (Nat × CString))
  | .accept fd => .ok (connect fd cs, [])
  | .readable fd data => do
    let r ← dispatch fd data cs
    return (r.1, r.2.map fun line => (fd, line))

def startup (maxconn : Nat) : List Client :=
  List.replicate maxconn { fd := none, buffer := .zero 8192, nread := 0 }

/-! ## Whole lines -/

/-- One pass of the loop: the line goes out, and the text behind it moves to the front. -/
theorem sendLines_pass {x t tail : List UInt8} (h0 : 0 ∉ x)
    {b : Buffer 8192} (hb : b.cells = x ++ NEWLINE :: (t ++ tail)) :
    ∃ b' : Buffer 8192, b'.cells = t ++ (x ++ 0 :: (t ++ tail)).drop t.length ∧
      ∀ {next r out}, b'.strchr 0 NEWLINE = some next →
        sendLines t.length b' next = .ok (r, out) →
        sendLines (x.length + 1 + t.length) b (some x.length) = .ok (r, ⟨x, h0⟩ :: out) := by
  have hlen : x.length + 1 + t.length + tail.length = 8192 := by
    rw [← b.length_cells, hb]
    simp only [List.length_append, List.length_cons]
    omega
  obtain ⟨b₁, hput, hcells₁⟩ := b.put_cells (i := x.length) (l := [0])
    (by simp only [List.length_singleton]; omega)
  have hline : b₁.cells = x ++ 0 :: (t ++ tail) := by simp [hcells₁, hb]
  have hstr := Buffer.str_cells hline h0
  obtain ⟨b₂, hmove, hcells₂⟩ := Buffer.moveDown_cells (b := b₁) (u := x ++ [0])
    (l := t ++ tail) (n := t.length) (by simpa using hline) (by simp)
  rw [List.take_left, hline] at hcells₂
  rw [List.length_append, List.length_singleton] at hmove
  refine ⟨b₂, hcells₂, fun {next r out} hnext hrest => ?_⟩
  have hleft : x.length + 1 + t.length - (x.length + 1) = t.length := by omega
  rw [sendLines, dif_pos (by omega), hput]
  simp only [inBounds_some, bind, Except.bind, hstr, hleft, hmove, hnext, hrest]
  rfl

/-- Text that ends with a newline is sent line by line, and nothing is left. -/
theorem sendLines_spec {x t tail : List UInt8} (hx : NEWLINE ∉ x) (h0 : 0 ∉ x ++ NEWLINE :: t)
    (ht : rest NEWLINE t = []) {b : Buffer 8192} (hb : b.cells = x ++ NEWLINE :: (t ++ tail)) :
    ∃ b' out, sendLines (x.length + 1 + t.length) b (some x.length) = .ok ((0, b'), out) ∧
      out.map CString.bytes = x :: pieces NEWLINE t := by
  induction t using split_induction NEWLINE generalizing x b tail with
  | hrest t hnone =>
    obtain rfl : t = [] := by rwa [rest_of_notMem hnone] at ht
    have h0x : 0 ∉ x := fun hm => h0 (by simp [hm])
    obtain ⟨b', hcells, hpass⟩ := sendLines_pass h0x hb
    -- the terminator of the last line is what ends the search
    have hend : b'.strchr 0 NEWLINE = some none :=
      Buffer.strchr_absent (u := []) (by simpa using hcells) h0x hx (by decide)
    refine ⟨b', _, hpass hend (by rw [sendLines]; rfl), ?_⟩
    simp [pieces_of_notMem hnone]
  | hpiece y t hy ih =>
    have h0x : 0 ∉ x := fun hm => h0 (by simp [hm])
    have h0t : 0 ∉ y ++ NEWLINE :: t := fun hm => h0 (by simp [hm])
    have h0y : 0 ∉ y := fun hm => h0t (by simp [hm])
    obtain ⟨b', hcells, hpass⟩ := sendLines_pass h0x hb
    rw [List.append_assoc y, List.cons_append] at hcells
    have hnext := Buffer.strchr_found (b := b') (u := []) hcells h0y hy
    rw [rest_append_cons hy] at ht
    obtain ⟨b'', out, hsend, hout⟩ := ih hy h0t ht hcells
    have hlen : (y ++ NEWLINE :: t).length = y.length + 1 + t.length := by
      simp only [List.length_append, List.length_cons]
      omega
    refine ⟨b'', _, hpass (by simpa using hnext) (by rw [hlen]; exact hsend), ?_⟩
    rw [List.map_cons, hout, pieces_append_cons hy]

theorem receive_spec {c : Client} {data : List UInt8} (hc : c.nread = 0) (h0 : 0 ∉ data)
    (hdata : rest NEWLINE data = []) (hlen : data.length ≤ 8189) :
    ∃ c' out, receive c data = .ok (c', out) ∧ c'.nread = 0 ∧
      c'.fd = (if data = [] then none else c.fd) ∧ out.map CString.bytes = pieces NEWLINE data := by
  obtain ⟨b₁, hput₁, hcells₁⟩ := c.buffer.put_cells (i := 0) (l := data) (by omega)
  obtain ⟨b₂, hput₂, hcells₂⟩ := b₁.put_cells (i := data.length) (l := [0])
    (by simp only [List.length_singleton]; omega)
  have hb : b₂.cells = data ++ 0 :: b₁.cells.drop (data.length + 1) := by
    rw [hcells₂, hcells₁]
    simp
  suffices ∃ eol b out, b₂.strchr 0 NEWLINE = some eol ∧
      sendLines data.length b₂ eol = .ok ((0, b), out) ∧
      out.map CString.bytes = pieces NEWLINE data by
    obtain ⟨eol, b, out, heol, hsend, hout⟩ := this
    refine ⟨⟨if data = [] then none else c.fd, b, 0⟩, out, ?_, rfl, rfl, hout⟩
    simp only [receive, hc, hput₁, ne_eq, not_true_eq_false, and_false, if_false, Nat.zero_add,
      hput₂, heol, inBounds_some, bind, Except.bind, hsend]
    rfl
  by_cases hmem : NEWLINE ∈ data
  · obtain ⟨x, t, rfl, hx⟩ := List.eq_append_cons_of_mem hmem
    rw [rest_append_cons hx] at hdata
    rw [List.append_assoc, List.cons_append] at hb
    have heol := Buffer.strchr_found (b := b₂) (u := []) hb
      (fun hm => h0 (by simp [hm])) hx
    obtain ⟨b, out, hsend, hout⟩ := sendLines_spec hx h0 hdata hb
    refine ⟨some x.length, b, out, by simpa using heol, ?_, ?_⟩
    · rw [← hsend]
      congr 1
      simp only [List.length_append, List.length_cons]
      omega
    · rw [hout, pieces_append_cons hx]
  · obtain rfl : data = [] := by rwa [rest_of_notMem hmem] at hdata
    have heol : b₂.strchr 0 NEWLINE = some none :=
      Buffer.strchr_absent (u := []) hb h0 hmem (by decide)
    exact ⟨none, b₂, [], heol, by rw [sendLines]; rfl, by simp [pieces_of_notMem hmem]⟩

/-! ## The table of clients -/

/-- The descriptors of connected clients. -/
def fds (cs : List Client) : List Nat := cs.filterMap Client.fd

@[simp] theorem fds_append_cons (l : List Client) (c : Client) (r : List Client) :
    fds (l ++ c :: r) = fds l ++ (c.fd.toList ++ fds r) := by
  cases h : c.fd <;> simp [fds, h]

/-- No two clients share a descriptor, and none of those with property `p` waits for the rest of
a line. -/
structure Ready (p : Nat → Prop) (cs : List Client) : Prop where
  nodup : (fds cs).Nodup
  idle : ∀ c ∈ cs, ∀ fd, c.fd = some fd → p fd → c.nread = 0

theorem connect_cases (fd : Nat) (cs : List Client) : connect fd cs = cs ∨
    ∃ l c r, cs = l ++ c :: r ∧ c.fd = none ∧
      connect fd cs = l ++ { c with fd := some fd, nread := 0 } :: r := by
  induction cs with
  | nil => exact .inl rfl
  | cons c cs ih =>
    unfold connect
    split
    · case isTrue hfree => exact .inr ⟨[], c, cs, rfl, hfree, rfl⟩
    · rcases ih with heq | ⟨l, d, r, rfl, hfree, heq⟩
      · exact .inl (by rw [heq])
      · exact .inr ⟨c :: l, d, r, rfl, hfree, by rw [heq]; rfl⟩

theorem dispatch_cases (fd : Nat) (data : List UInt8) (cs : List Client) :
    (fd ∉ fds cs ∧ dispatch fd data cs = .ok (cs, [])) ∨
      ∃ l c r, cs = l ++ c :: r ∧ c.fd = some fd ∧
        dispatch fd data cs = (receive c data).map fun p => (l ++ p.1 :: r, p.2) := by
  induction cs with
  | nil => exact .inl ⟨by simp [fds], rfl⟩
  | cons c cs ih =>
    unfold dispatch
    split
    · case isTrue hfd =>
        refine .inr ⟨[], c, cs, rfl, hfd, ?_⟩
        cases receive c data <;> rfl
    · case isFalse hfd =>
        rcases ih with ⟨hnone, heq⟩ | ⟨l, d, r, rfl, hd, heq⟩
        · exact .inl ⟨by simpa [fds, hfd] using hnone, by rw [heq]; rfl⟩
        · refine .inr ⟨c :: l, d, r, rfl, hd, ?_⟩
          rw [heq]
          cases receive d data <;> rfl

section Table

variable {p : Nat → Prop} {cs l r : List Client} {c c' : Client}

/-- Only the client that takes another's place has to be looked at. -/
theorem Ready.replace (h : Ready p (l ++ c :: r)) (hnodup : (fds (l ++ c' :: r)).Nodup)
    (hidle : ∀ fd, c'.fd = some fd → p fd → c'.nread = 0) : Ready p (l ++ c' :: r) := by
  refine ⟨hnodup, fun d hd => ?_⟩
  rcases List.mem_append.mp hd with hd | hd
  · exact h.idle d (by simp [hd])
  · rcases List.mem_cons.mp hd with rfl | hd
    · exact hidle
    · exact h.idle d (by simp [hd])

theorem Ready.connect (h : Ready p cs) {fd : Nat} (hfd : fd ∉ fds cs) :
    Ready p (connect fd cs) ∧ fds cs ⊆ fds (connect fd cs) := by
  rcases connect_cases fd cs with heq | ⟨l, c, r, rfl, hfree, heq⟩
  · rw [heq]
    exact ⟨h, List.Subset.refl _⟩
  · have hnodup := h.nodup
    simp only [fds_append_cons, hfree, Option.toList_none, List.nil_append] at hnodup hfd
    rw [heq]
    refine ⟨h.replace ?_ fun _ _ _ => rfl, ?_⟩
    · simpa using List.nodup_middle.mpr (List.nodup_cons.mpr ⟨hfd, hnodup⟩)
    · simp [hfree]

/-- The slot stays with its client until the end of the stream. -/
theorem receive_fd {data : List UInt8} {out : List CString}
    (h : receive c data = .ok (c', out)) : c'.fd = if data = [] then none else c.fd := by
  obtain ⟨b, -, h⟩ := bind_eq_ok.mp h
  dsimp only at h
  split at h <;> obtain ⟨b, -, h⟩ := bind_eq_ok.mp h <;>
    simp only [bind_eq_ok, pure_eq_ok, Prod.mk.injEq] at h <;>
    obtain ⟨_, -, _, -, _, -, rfl, -⟩ := h <;> rfl

/-- What a read may return if no line is to be lost. -/
def Whole (data : List UInt8) : Prop := 0 ∉ data ∧ rest NEWLINE data = []

instance (data : List UInt8) : Decidable (Whole data) :=
  inferInstanceAs (Decidable (0 ∉ data ∧ rest NEWLINE data = []))

/-- Data for one client concerns no other. -/
theorem Ready.dispatch (h : Ready p cs) {fd : Nat} {data : List UInt8}
    (hdata : p fd → Whole data ∧ (fd ∈ fds cs → data.length ≤ 8189)) :
    (p fd → ∃ r, dispatch fd data cs = .ok r) ∧
      ∀ cs' out, dispatch fd data cs = .ok (cs', out) → Ready p cs' ∧
        (∀ g ∈ fds cs, (g = fd → data ≠ []) → g ∈ fds cs') ∧
        (p fd → fd ∈ fds cs → out.map CString.bytes = pieces NEWLINE data) := by
  rcases dispatch_cases fd data cs with ⟨hnone, heq⟩ | ⟨l, c, r, rfl, hfd, heq⟩
  · rw [heq]
    refine ⟨fun _ => ⟨_, rfl⟩, fun cs' out hok => ?_⟩
    obtain ⟨rfl, rfl⟩ := Prod.mk.inj (Except.ok.inj hok)
    exact ⟨h, fun g hg _ => hg, fun _ hmem => absurd hmem hnone⟩
  · have hheld : fd ∈ fds (l ++ c :: r) := by simp [hfd]
    have hspec (hp : p fd) := receive_spec (h.idle c (by simp) fd hfd hp) (hdata hp).1.1
      (hdata hp).1.2 ((hdata hp).2 hheld)
    refine ⟨fun hp => ?_, fun cs' out hok => ?_⟩
    · obtain ⟨c', out, hreceive, -⟩ := hspec hp
      exact ⟨_, by rw [heq, hreceive]; rfl⟩
    · rw [heq] at hok
      obtain ⟨⟨c', out'⟩, hreceive, hpair⟩ := map_eq_ok.mp hok
      obtain ⟨rfl, rfl⟩ := Prod.mk.inj hpair
      have hfd' := receive_fd hreceive
      have hnodup := h.nodup
      have hgood (hp : p fd) : c'.nread = 0 ∧ out'.map CString.bytes = pieces NEWLINE data := by
        obtain ⟨c'', out'', hreceive', hnread, -, hout⟩ := hspec hp
        obtain ⟨rfl, rfl⟩ := Prod.mk.inj (Except.ok.inj (hreceive.symm.trans hreceive'))
        exact ⟨hnread, hout⟩
      refine ⟨h.replace ?_ fun g hg hp => ?_, fun g hg hne => ?_, fun hp _ => (hgood hp).2⟩
      · rw [fds_append_cons, hfd'] at *
        split
        · exact hnodup.sublist (by simp)
        · exact hnodup
      · have hg' : g = fd := by
          rw [hfd', hfd] at hg
          split at hg <;> simp_all
        exact (hgood (hg' ▸ hp)).1
      · rw [fds_append_cons, hfd', hfd] at *
        split
        · case isTrue hnil => simp_all
        · exact hg

end Table

/-! ## Runs -/

/-- What the system guarantees: a new descriptor is not in use, and a read returns no more than
it was asked for. With more than 8189 bytes in the buffer the count that it is asked for wraps. -/
def Event.Possible (cs : List Client) : Event → Prop
  | .accept fd => fd ∉ fds cs
  | .readable fd data =>
    ∀ c ∈ cs, c.fd = some fd → c.nread ≤ 8189 → data.length ≤ 8190 - c.nread - 1

instance (cs : List Client) : (e : Event) → Decidable (e.Possible cs)
  | .accept fd => inferInstanceAs (Decidable (fd ∉ fds cs))
  | .readable fd _ => inferInstanceAs (Decidable (∀ c ∈ cs, c.fd = some fd → _ ≤ _ → _ ≤ _))

/-- Reads of the clients with property `p` return whole lines. -/
def Event.WholeFor (p : Nat → Prop) : Event → Prop
  | .accept _ => True
  | .readable fd data => p fd → Whole data

instance (p : Nat → Prop) [DecidablePred p] : (e : Event) → Decidable (e.WholeFor p)
  | .accept _ => inferInstanceAs (Decidable True)
  | .readable fd data => inferInstanceAs (Decidable (p fd → Whole data))

/-- The stream of one client. -/
def received (fd : Nat) : List Event → List UInt8
  | [] => []
  | .accept _ :: es => received fd es
  | .readable g data :: es => if g = fd then data ++ received fd es else received fd es

/-- The strings that were sent for one client. -/
def sentFor (fd : Nat) (out : List (Nat × CString)) : List (List UInt8) :=
  out.filterMap fun o => if o.1 = fd then some o.2.bytes else none

/-- The line that a stream does not end, if it is not empty. -/
def unterminated (stream : List UInt8) : List (List UInt8) :=
  if rest NEWLINE stream = [] then [] else [rest NEWLINE stream]

theorem received_append (fd : Nat) (es es' : List Event) :
    received fd (es ++ es') = received fd es ++ received fd es' := by
  induction es with
  | nil => rfl
  | cons e es ih =>
    cases e with
    | accept g => exact ih
    | readable g data =>
      simp only [List.cons_append, received]
      split <;> simp [ih]

theorem sentFor_append (fd : Nat) (out out' : List (Nat × CString)) :
    sentFor fd (out ++ out') = sentFor fd out ++ sentFor fd out' := by
  simp [sentFor]

theorem sentFor_map (fd g : Nat) (lines : List CString) :
    sentFor fd (lines.map fun line => (g, line)) =
      if g = fd then lines.map CString.bytes else [] := by
  unfold sentFor
  split
  · case isTrue h => simp [List.filterMap_map, h]
  · case isFalse h => simp [List.filterMap_map, h]

/-- A pass of the loop on whole lines sends them for the client they came from. Only a read of a
client without the property can fail. -/
theorem Ready.step {p : Nat → Prop} {cs : List Client} (h : Ready p cs) {e : Event}
    (hpossible : e.Possible cs) (hwhole : e.WholeFor p) :
    ((∀ fd data, e = .readable fd data → p fd) → ∃ r, serve cs e = .ok r) ∧
      ∀ cs' out, serve cs e = .ok (cs', out) → Ready p cs' ∧ ∀ fd ∈ fds cs,
        (p fd → sentFor fd out = pieces NEWLINE (received fd [e])) ∧
        (e ≠ .readable fd [] → fd ∈ fds cs') := by
  cases e with
  | accept g =>
    refine ⟨fun _ => ⟨_, rfl⟩, fun cs' out hserve => ?_⟩
    obtain ⟨rfl, rfl⟩ := Prod.mk.inj (Except.ok.inj hserve)
    obtain ⟨hready, hheld⟩ := h.connect hpossible
    exact ⟨hready, fun fd hfd => ⟨fun _ => rfl, fun _ => hheld hfd⟩⟩
  | readable g data =>
    have hlen : p g → g ∈ fds cs → data.length ≤ 8189 := by
      intro hp hg
      obtain ⟨c, hc, hfd⟩ := List.mem_filterMap.mp hg
      have hidle := h.idle c hc g hfd hp
      have := hpossible c hc hfd (by omega)
      omega
    obtain ⟨hok, hspec⟩ := h.dispatch fun hp => ⟨hwhole hp, hlen hp⟩
    refine ⟨fun hg => ?_, fun cs' out hserve => ?_⟩
    · obtain ⟨r, hdispatch⟩ := hok (hg g data rfl)
      exact ⟨_, by rw [serve, hdispatch]; rfl⟩
    · obtain ⟨⟨cs'', lines⟩, hdispatch, hpair⟩ := bind_eq_ok.mp hserve
      obtain ⟨rfl, rfl⟩ := Prod.mk.inj (pure_eq_ok.mp hpair)
      obtain ⟨hready, hheld, hlines⟩ := hspec cs'' lines hdispatch
      refine ⟨hready, fun fd hfd => ⟨fun hp => ?_, fun hne => hheld fd hfd ?_⟩⟩
      · rw [sentFor_map]
        by_cases hg : g = fd
        · subst hg
          simp [received, hlines hp hfd]
        · simp [received, hg, pieces_of_notMem]
      · rintro rfl rfl
        exact hne rfl

theorem ready_startup (p : Nat → Prop) (maxconn : Nat) : Ready p (startup maxconn) := by
  refine ⟨?_, fun c hc fd hfd => ?_⟩
  · have hnone : fds (startup maxconn) = [] := by simp [fds, startup]
    rw [hnone]
    exact List.nodup_nil
  · rw [List.eq_of_mem_replicate hc] at hfd
    simp at hfd

/-- The loop runs on as long as every read returns whole lines. -/
theorem Ready.run {cs : List Client} (h : Ready (fun _ => True) cs) {es : List Event}
    (hes : Machine.Along serve (fun cs e => e.Possible cs ∧ e.WholeFor fun _ => True) cs es) :
    ∃ r, Machine.run serve cs es = .ok r := by
  obtain ⟨cs', out, hrun, -⟩ := Machine.run_complete (P := fun cs _ _ => Ready (fun _ => True) cs)
    (l := []) (o := []) (fun cs e _ _ h hq => by
      obtain ⟨hok, hspec⟩ := h.step hq.1 hq.2
      obtain ⟨⟨cs', out⟩, hserve⟩ := hok fun _ _ _ => trivial
      exact ⟨cs', out, hserve, (hspec cs' out hserve).1⟩) h hes
  exact ⟨_, hrun⟩

/-- What is known about a connected client after the events `es` and the strings `out`. -/
structure Session (fd : Nat) (cs : List Client) (es : List Event) (out : List (Nat × CString)) :
    Prop where
  ready : Ready (· = fd) cs
  connected : fd ∈ fds cs
  rest_eq : rest NEWLINE (received fd es) = []
  lines_eq : sentFor fd out = pieces NEWLINE (received fd es)

/-- The client that was just accepted starts anew, whatever was in its slot before. -/
theorem session_accept {p : Nat → Prop} {fd : Nat} {cs : List Client} (h : Ready p cs)
    (hfresh : fd ∉ fds cs) (hheld : fd ∈ fds (connect fd cs)) :
    Session fd (connect fd cs) [] [] := by
  have hready : Ready (· = fd) cs := by
    refine ⟨h.nodup, fun c hc g hg heq => absurd ?_ hfresh⟩
    exact List.mem_filterMap.mpr ⟨c, hc, heq ▸ hg⟩
  exact ⟨(hready.connect hfresh).1, hheld, rfl, rfl⟩

theorem Session.step {fd : Nat} {cs cs' : List Client} {es : List Event}
    {out out' : List (Nat × CString)} (h : Session fd cs es out) {e : Event}
    (hpossible : e.Possible cs) (hwhole : e.WholeFor (· = fd)) (hopen : e ≠ .readable fd [])
    (hserve : serve cs e = .ok (cs', out')) : Session fd cs' (es ++ [e]) (out ++ out') := by
  obtain ⟨hready, hclient⟩ := (h.ready.step hpossible hwhole).2 cs' out' hserve
  obtain ⟨hlines, hheld⟩ := hclient fd h.connected
  have hrest : rest NEWLINE (received fd [e]) = [] := by
    cases e with
    | accept g => rfl
    | readable g data =>
      simp only [received, List.append_nil]
      split
      · case isTrue hg => exact (hwhole hg).2
      · rfl
  refine ⟨hready, hheld hopen, ?_, ?_⟩
  · rw [received_append, rest_append, h.rest_eq, List.nil_append, hrest]
  · rw [sentFor_append, received_append, pieces_append, h.rest_eq, List.nil_append, h.lines_eq,
      hlines rfl]

/-- A read of the client itself does not fail. -/
theorem Session.serve_ok {fd : Nat} {cs : List Client} {es : List Event}
    {out : List (Nat × CString)} (h : Session fd cs es out) {data : List UInt8}
    (hpossible : (Event.readable fd data).Possible cs) (hwhole : Whole data) :
    ∃ r, serve cs (.readable fd data) = .ok r := by
  refine (h.ready.step hpossible fun _ => hwhole).1 fun g _ heq => ?_
  exact (Event.readable.inj heq).1.symm

theorem Session.eof {fd : Nat} {cs : List Client} {es : List Event}
    {out : List (Nat × CString)} (h : Session fd cs es out) :
    ∃ cs' out', serve cs (.readable fd []) = .ok (cs', out') ∧
      sentFor fd out' = unterminated (received fd es) := by
  have hpossible : (Event.readable fd []).Possible cs := by
    intro c _ _ _
    simp
  have hwhole : Whole [] := by decide
  obtain ⟨⟨cs', out'⟩, hserve⟩ := h.serve_ok hpossible hwhole
  obtain ⟨-, hclient⟩ := (h.ready.step hpossible fun _ => hwhole).2 cs' out' hserve
  refine ⟨cs', out', hserve, ?_⟩
  rw [(hclient fd h.connected).1 rfl, unterminated, if_pos h.rest_eq]
  simp [received, pieces_of_notMem]

/-- What is sent for a client whose reads return whole lines are, at any time from its
acceptance on, the lines of its stream so far, whatever other clients do meanwhile, and nothing
more at its end. Its own reads never fail, and none does if all clients are like that. -/
theorem lines_sent {maxconn fd : Nat} {before during : List Event}
    (hpossible : Machine.Along serve (fun cs e => e.Possible cs) (startup maxconn)
      (before ++ [.accept fd] ++ during))
    (hopen : .readable fd [] ∉ during) (hwhole : ∀ e ∈ during, e.WholeFor (· = fd)) :
    (∀ done todo cs₀ out₀ cs out, during = done ++ todo →
      Machine.run serve (startup maxconn) (before ++ [.accept fd]) = .ok (cs₀, out₀) →
      fd ∈ fds cs₀ → Machine.run serve cs₀ done = .ok (cs, out) →
      sentFor fd out = pieces NEWLINE (received fd done) ∧
      (∃ cs' out', serve cs (.readable fd []) = .ok (cs', out') ∧
        sentFor fd out' = unterminated (received fd done)) ∧
      ∀ data, todo.head? = some (.readable fd data) → ∃ r, serve cs (.readable fd data) = .ok r) ∧
    ((∀ e ∈ before ++ [.accept fd] ++ during, e.WholeFor fun _ => True) →
      ∃ r, Machine.run serve (startup maxconn) (before ++ [.accept fd] ++ during) = .ok r) := by
  constructor
  · rintro done todo cs₀ out₀ cs' out' rfl hrun hheld hdone
    obtain ⟨cs, out, _, hbefore, haccept, -⟩ := Machine.run_append.mp hrun
    have hfresh : fd ∉ fds cs :=
      hpossible before (.accept fd) (done ++ todo) cs out (by simp) hbefore
    obtain ⟨rfl, -⟩ := Prod.mk.inj (Except.ok.inj (Machine.run_singleton.mp haccept))
    have hready : Ready (fun _ => False) cs :=
      Machine.run_along (fun _ e _ _ h hq hserve =>
          ((h.step hq (by cases e <;> simp [Event.WholeFor])).2 _ _ hserve).1)
        (ready_startup _ maxconn) hpossible.left.left hbefore
    have hsession := Machine.run_relates (P := Session fd) (l := []) (o := [])
      (fun _ e _ _ _ _ h hq hserve => h.step hq.1 (hwhole e (by simp [hq.2]))
        (fun heq => hopen (by simp [← heq, hq.2])) hserve)
      (session_accept hready hfresh hheld) (hpossible.right hrun).left.mem hdone
    refine ⟨hsession.lines_eq, hsession.eof, fun data hnext => ?_⟩
    obtain ⟨todo, rfl⟩ := List.head?_eq_some_iff.mp hnext
    exact hsession.serve_ok (hpossible.right hrun done _ todo cs' out' rfl hdone)
      (hwhole (.readable fd data) (by simp) rfl)
  · intro hall
    refine (ready_startup _ maxconn).run ?_
    exact hpossible.mem.mono fun cs e h => ⟨h.1, hall e h.2⟩

/-- Two clients, one of which sends its line in two parts. -/
theorem lines_sent_two : ∃ cs₀ out₀ cs out,
    Machine.run serve (startup 2) [.accept 5, .accept 6] = .ok (cs₀, out₀) ∧
      Machine.run serve cs₀ [.readable 6 (CString.ascii "a\nb\n"), .readable 5 (CString.ascii "x"),
        .readable 6 (CString.ascii "c\n")] = .ok (cs, out) ∧
      sentFor 6 out = [CString.ascii "a", CString.ascii "b", CString.ascii "c"] := by
  have hpossible : Machine.Along serve (fun cs e => e.Possible cs) (startup 2)
      ([.accept 5] ++ [.accept 6] ++ [.readable 6 (CString.ascii "a\nb\n"),
        .readable 5 (CString.ascii "x"), .readable 6 (CString.ascii "c\n")]) :=
    .of_check (by decide +kernel)
  have hheld : (Machine.run serve (startup 2) [.accept 5, .accept 6]).map
      (fun r => decide (6 ∈ fds r.1)) = .ok true := by decide +kernel
  obtain ⟨⟨cs₀, out₀⟩, hrun, hmem⟩ := map_eq_ok.mp hheld
  have hdone : ((Machine.run serve (startup 2) [.accept 5, .accept 6]).bind fun r =>
      Machine.run serve r.1 [.readable 6 (CString.ascii "a\nb\n"),
        .readable 5 (CString.ascii "x"), .readable 6 (CString.ascii "c\n")]).isOk := by
    decide +kernel
  rw [hrun] at hdone
  obtain ⟨⟨cs, out⟩, hrest⟩ := exists_ok hdone
  refine ⟨cs₀, out₀, cs, out, hrun, hrest, ?_⟩
  rw [((lines_sent hpossible (by decide) (by decide +kernel)).1 _ [] cs₀ out₀ cs out
    (List.append_nil _).symm hrun (by simpa using hmem) hrest).1]
  decide +kernel

/-- A line that arrives in two reads loses its first part, and a line that the end of the stream
ends is not sent. -/
theorem split_line_mangled :
    (Machine.Along serve (fun cs e => e.Possible cs) (startup 1)
        [.accept 5, .readable 5 (CString.ascii "a"), .readable 5 (CString.ascii "b\n")] ∧
      ∃ cs out, Machine.run serve (startup 1) [.accept 5, .readable 5 (CString.ascii "a"),
          .readable 5 (CString.ascii "b\n")] = .ok (cs, out) ∧
        sentFor 5 out = [CString.ascii "b"] ∧
        pieces NEWLINE (received 5 [.accept 5, .readable 5 (CString.ascii "a"),
          .readable 5 (CString.ascii "b\n")]) = [CString.ascii "ab"]) ∧
    ∃ cs out, Machine.run serve (startup 1) [.accept 5, .readable 5 (CString.ascii "a"),
        .readable 5 []] = .ok (cs, out) ∧
      sentFor 5 out = [] ∧ unterminated (CString.ascii "a") = [CString.ascii "a"] := by
  have hsplit : (Machine.run serve (startup 1) [.accept 5, .readable 5 (CString.ascii "a"),
      .readable 5 (CString.ascii "b\n")]).map (fun r => sentFor 5 r.2) =
        .ok [CString.ascii "b"] := by
    decide +kernel
  have hend : (Machine.run serve (startup 1) [.accept 5, .readable 5 (CString.ascii "a"),
      .readable 5 []]).map (fun r => sentFor 5 r.2) = .ok [] := by
    decide +kernel
  refine ⟨⟨.of_check (by decide +kernel), ?_⟩, ?_⟩
  · obtain ⟨⟨cs, out⟩, hrun, hsent⟩ := map_eq_ok.mp hsplit
    exact ⟨cs, out, hrun, hsent, by decide +kernel⟩
  · obtain ⟨⟨cs, out⟩, hrun, hsent⟩ := map_eq_ok.mp hend
    exact ⟨cs, out, hrun, hsent, by decide⟩

end Bolo.Opentsdb
