import Bolo.Config.Reading
import Bolo.Kernel.Keys

/-!
# Reading the keys file

`read_keys` takes lines into one buffer and cuts each of them in place: a NUL is written behind
the key, and the scan goes on behind that NUL. For a line that ends with its key, that is
behind the terminator `fgets` has set, where the buffer holds what it held before.
-/
namespace Bolo

open Library

section Model

variable [HashOrder]

/-- The loop body from the NUL behind the key on. -/
def readValue (buf : Buffer LINE_BUF_SIZE) (keys : Table CString (Option CString))
    (key value : Nat) :
    Except Fault (Buffer LINE_BUF_SIZE × Table CString (Option CString)) := do
  let value ← inBounds (buf.scan isspace value)
  if (← inBounds (buf.read value)) ≠ EQUALS then return (buf, keys)
  let value ← inBounds (buf.scan isspace (value + 1))
  let nl ← inBounds (buf.scan (· ≠ NEWLINE) value)
  let buf ← inBounds (buf.put nl [0])
  let text ← inBounds (buf.str value)
  return (buf, hashSet keys (← inBounds (buf.str key)) (some text))

/-- The loop body. -/
def readKey (buf : Buffer LINE_BUF_SIZE) (keys : Table CString (Option CString)) :
    Except Fault (Buffer LINE_BUF_SIZE × Table CString (Option CString)) := do
  let key ← inBounds (buf.scan isspace 0)
  if (← inBounds (buf.read key)) = chr '#' then return (buf, keys)
  let value ← inBounds (buf.scan (fun c => !isspace c) key)
  let buf ← inBounds (buf.put value [0])
  readValue buf keys key (value + 1)

/-- One turn of the loop: `fgets` puts the line and a NUL into the buffer. -/
def readKeysLine (buf : Buffer LINE_BUF_SIZE) (keys : Table CString (Option CString))
    (line : List UInt8) :
    Except Fault (Buffer LINE_BUF_SIZE × Table CString (Option CString)) := do
  let buf ← inBounds (buf.put 0 (line ++ [0]))
  readKey buf keys

def readKeysLines (buf : Buffer LINE_BUF_SIZE) (keys : Table CString (Option CString)) :
    List (List UInt8) → Except Fault (Table CString (Option CString))
  | [] => .ok keys
  | line :: lines => do
    let (buf, keys) ← readKeysLine buf keys line
    readKeysLines buf keys lines

/-- `read_keys`, from the contents of the file. The buffer starts with whatever is there. -/
def readKeys (buf : Buffer LINE_BUF_SIZE) (keys : Table CString (Option CString))
    (file : List UInt8) : Except Fault (Table CString (Option CString)) :=
  readKeysLines buf keys (fgetsLines 0 [] file)

end Model

/-! ## The scan of the buffer -/

def Blank (l : List UInt8) : Prop := ∀ b ∈ l, isspace b = true

/-- Bytes the scan for the end of the key moves over. -/
def Solid (l : List UInt8) : Prop := ∀ b ∈ l, b ≠ 0 ∧ isspace b = false

instance (l : List UInt8) : Decidable (Blank l) := List.decidableBAll _ _

instance (l : List UInt8) : Decidable (Solid l) := List.decidableBAll _ _

theorem ne_zero_of_isspace {b : UInt8} (h : isspace b = true) : b ≠ 0 := by
  rintro rfl
  simp [isspace] at h

theorem blank_takeWhile (l : List UInt8) : Blank (l.takeWhile isspace) :=
  fun _ hb => List.mem_takeWhile_imp hb

theorem Solid.nulFree {l : List UInt8} (h : Solid l) : 0 ∉ l := fun h0 => (h 0 h0).1 rfl

theorem Blank.moves {l : List UInt8} (h : Blank l) : ∀ b ∈ l, b ≠ 0 ∧ isspace b = true :=
  fun b hb => ⟨ne_zero_of_isspace (h b hb), h b hb⟩

section Scan

variable [HashOrder] {buf : Buffer LINE_BUF_SIZE} (keys : Table CString (Option CString))
  {lead k gap pad v l : List UInt8} {c d : UInt8}

theorem readKey_comment (hb : buf.cells = lead ++ chr '#' :: l) (hlead : Blank lead) :
    readKey buf keys = .ok (buf, keys) := by
  obtain ⟨hscan, -⟩ := Buffer.scan_cells (u := []) (f := isspace) (x := lead) hb hlead.moves
    (.inr (by decide))
  have hread := Buffer.read_cells hb
  rw [List.length_nil, Nat.zero_add] at hscan
  simp [readKey, hscan, hread, bind, Except.bind, pure, Except.pure]

/-- Behind a key that does not make the line a comment, a NUL is written. -/
theorem readKey_word (hb : buf.cells = lead ++ k ++ c :: l) (hlead : Blank lead) (hk : Solid k)
    (hhash : k.head? ≠ some (chr '#')) (hc : c = 0 ∨ isspace c = true ∧ k ≠ []) :
    ∃ buf', buf'.cells = lead ++ k ++ 0 :: l ∧
      readKey buf keys = readValue buf' keys lead.length ((lead ++ k).length + 1) := by
  obtain ⟨e, l', he, hstop, hne⟩ : ∃ e l', k ++ c :: l = e :: l' ∧ (e = 0 ∨ isspace e = false) ∧
      e ≠ chr '#' := by
    cases k with
    | nil =>
      obtain rfl : c = 0 := by simpa using hc
      exact ⟨0, l, rfl, .inl rfl, by decide⟩
    | cons e k => exact ⟨e, k ++ c :: l, rfl, .inr (hk e (by simp)).2, by simpa using hhash⟩
  have hfront : buf.cells = lead ++ e :: l' := by rw [hb, List.append_assoc, he]
  obtain ⟨hscan, -⟩ := Buffer.scan_cells (u := []) (f := isspace) (x := lead) hfront hlead.moves
    hstop
  rw [List.length_nil, Nat.zero_add] at hscan
  have hread := Buffer.read_cells hfront
  obtain ⟨hword, -⟩ := Buffer.scan_cells (f := fun c => !isspace c) hb
    (fun b hb => ⟨(hk b hb).1, by simp [(hk b hb).2]⟩) (hc.imp_right fun h => by simp [h.1])
  obtain ⟨buf', hput, hcells⟩ := Buffer.put_byte_cells hb 0
  rw [← List.length_append] at hword
  refine ⟨buf', hcells, ?_⟩
  simp only [readKey, hscan, hread, hword, hput, inBounds_some, ok_bind, if_neg hne]

theorem readValue_other (hb : buf.cells = l ++ gap ++ d :: pad) (hgap : Blank gap)
    (hd : d = 0 ∨ isspace d = false) (hne : d ≠ EQUALS) (key : Nat) :
    readValue buf keys key l.length = .ok (buf, keys) := by
  obtain ⟨hscan, -⟩ := Buffer.scan_cells (f := isspace) hb hgap.moves hd
  have hread := Buffer.read_cells hb
  rw [List.length_append] at hread
  simp [readValue, hscan, hread, hne, bind, Except.bind, pure, Except.pure]

/-- The scan leaves the buffer if nothing but blanks lies ahead. -/
theorem readValue_overrun (hb : buf.cells = l ++ gap) (hgap : Blank gap) (key : Nat) :
    readValue buf keys key l.length = .error .outOfBounds := by
  rw [readValue, Buffer.scan_overrun hb hgap.moves]
  rfl

theorem readValue_sets (h0k : 0 ∉ k) (h0v : 0 ∉ v)
    (hb : buf.cells = lead ++ k ++ 0 :: (gap ++ EQUALS :: (pad ++ v ++ d :: l)))
    (hgap : Blank gap) (hpad : Blank pad) (hnewline : NEWLINE ∉ v) (hd : d = 0 ∨ d = NEWLINE)
    (hv : ∀ b ∈ (v ++ [d]).head?, b = 0 ∨ isspace b = false) :
    ∃ buf', readValue buf keys lead.length ((lead ++ k).length + 1) =
      .ok (buf', hashSet keys ⟨k, h0k⟩ (some ⟨v, h0v⟩)) := by
  -- the equals sign
  have hb₀ : buf.cells = (lead ++ k ++ [0]) ++ gap ++ EQUALS :: (pad ++ v ++ d :: l) := by
    simp [hb]
  obtain ⟨hscan₀, -⟩ := Buffer.scan_cells (f := isspace) hb₀ hgap.moves (.inr (by decide))
  have hread := Buffer.read_cells hb₀
  -- the value
  obtain ⟨e, l', he, hstop⟩ : ∃ e l', v ++ d :: l = e :: l' ∧ (e = 0 ∨ isspace e = false) := by
    cases v with
    | nil => exact ⟨d, l, rfl, hv d rfl⟩
    | cons e v => exact ⟨e, v ++ d :: l, rfl, hv e rfl⟩
  have hb₁ : buf.cells = (lead ++ k ++ [0] ++ gap ++ [EQUALS]) ++ pad ++ e :: l' := by
    simp [hb, ← he]
  obtain ⟨hscan₁, -⟩ := Buffer.scan_cells (f := isspace) hb₁ hpad.moves hstop
  -- its end
  have hb₂ : buf.cells = (lead ++ k ++ [0] ++ gap ++ [EQUALS] ++ pad) ++ v ++ d :: l := by
    simp [hb]
  obtain ⟨hscan₂, -⟩ := Buffer.scan_cells (f := (· ≠ NEWLINE)) hb₂
    (fun b hbv => ⟨ne_of_mem_of_not_mem hbv h0v, by simpa using ne_of_mem_of_not_mem hbv hnewline⟩)
    (hd.imp_right fun h => by simp [h])
  obtain ⟨buf', hput, hcells⟩ := Buffer.put_byte_cells hb₂ 0
  have htext := Buffer.str_at_cells hcells h0v
  have hkey : buf'.str lead.length = some ⟨k, h0k⟩ :=
    Buffer.str_at_cells (l := gap ++ EQUALS :: (pad ++ v ++ 0 :: l)) (by simp [hcells]) h0k
  rw [← List.length_append] at hscan₀ hscan₁ hscan₂
  rw [List.length_append, List.length_singleton] at hscan₀ hscan₁
  refine ⟨buf', ?_⟩
  simp only [readValue, hscan₀, hscan₁, hscan₂, hread, hput, htext, hkey, inBounds_some, ok_bind,
    ne_eq, not_true_eq_false, if_false]
  rfl

/-- Behind the equals sign, the text up to its newline is the value. -/
theorem readValue_equals {t junk : List UInt8} (h0k : 0 ∉ k)
    (hb : buf.cells = lead ++ k ++ 0 :: (gap ++ EQUALS :: (t ++ 0 :: junk))) (hgap : Blank gap) :
    ∃ buf' pad ending, ∃ v : CString, t = pad ++ v.bytes ++ ending ∧ Blank pad ∧
      NEWLINE ∉ v.bytes ∧ (∀ b ∈ v.bytes.head?, isspace b = false) ∧
      (∀ b ∈ ending.head?, b = 0 ∨ b = NEWLINE) ∧
      readValue buf keys lead.length ((lead ++ k).length + 1) =
        .ok (buf', hashSet keys ⟨k, h0k⟩ (some v)) := by
  obtain ⟨pad, hpad, rfl | ⟨e, t', rfl, he⟩⟩ := exists_run isspace t
  · have hb' : buf.cells = lead ++ k ++ 0 :: (gap ++ EQUALS :: (t ++ [] ++ 0 :: junk)) := by
      rw [hb, List.append_nil]
    obtain ⟨buf', hread⟩ := readValue_sets keys h0k (by simp) hb' hgap hpad (by simp) (.inl rfl)
      (by simp)
    exact ⟨buf', t, [], ⟨[], by simp⟩, by simp, hpad, by simp, by simp, by simp, hread⟩
  · -- the value starts with `e`, or is empty if `e` is a NUL
    obtain ⟨v, hv, hrest⟩ := exists_run (fun b => b ≠ 0 && b ≠ NEWLINE) (e :: t')
    have h0v : 0 ∉ v := fun h => by simpa using hv 0 h
    have hnewline : NEWLINE ∉ v := fun h => by simpa using hv NEWLINE h
    rcases hrest with rfl | ⟨d, l, hsplit, hd⟩
    · obtain ⟨buf', hread⟩ := readValue_sets keys h0k h0v hb hgap hpad hnewline (.inl rfl)
        (by simp [he])
      exact ⟨buf', pad, [], ⟨_, h0v⟩, by simp, hpad, hnewline, by simp [he], by simp, hread⟩
    · have hhead : ∀ b ∈ (v ++ [d]).head?, isspace b = false := by
        cases v <;> simp_all
      have hb' : buf.cells = lead ++ k ++ 0 :: (gap ++ EQUALS ::
          (pad ++ v ++ d :: (l ++ 0 :: junk))) := by
        rw [hb, hsplit]
        simp
      obtain ⟨buf', hread⟩ := readValue_sets keys h0k h0v hb' hgap hpad hnewline (by grind)
        fun b hb => .inr (hhead b hb)
      refine ⟨buf', pad, d :: l, ⟨v, h0v⟩, by simp [hsplit], hpad, hnewline, ?_, by grind, hread⟩
      intro b hb
      exact hhead b (by cases v <;> simp_all)

/-! ## One line -/

/-- The line replaces the front of the buffer. -/
theorem fgets_cells (buf : Buffer LINE_BUF_SIZE) {line : List UInt8}
    (h : line.length < LINE_BUF_SIZE) :
    ∃ buf', buf'.cells = line ++ 0 :: buf.cells.drop (line.length + 1) ∧
      ∀ keys, readKeysLine buf keys line = readKey buf' keys := by
  obtain ⟨buf', hput, hcells⟩ := buf.put_cells (i := 0) (l := line ++ [0])
    (by rw [List.length_append, List.length_singleton]; omega)
  refine ⟨buf', ?_, fun keys => ?_⟩
  · rw [hcells, List.length_append, List.length_singleton, Nat.zero_add]
    simp
  · rw [readKeysLine, hput]
    rfl

variable (buf)

theorem readKeysLine_comment (hlead : Blank lead)
    (hlen : (lead ++ chr '#' :: l).length < LINE_BUF_SIZE) :
    ∃ buf', readKeysLine buf keys (lead ++ chr '#' :: l) = .ok (buf', keys) := by
  obtain ⟨buf', hcells, hread⟩ := fgets_cells buf hlen
  refine ⟨buf', ?_⟩
  rw [hread, readKey_comment keys (by rw [hcells, List.append_assoc, List.cons_append]) hlead]

/-- The first word of a line, up to a byte of the line. -/
structure FirstWord (line lead k : List UInt8) (c : UInt8) (more : List UInt8) : Prop where
  eq : line = lead ++ k ++ c :: more
  lead : Blank lead
  solid : Solid k
  hash : k.head? ≠ some (chr '#')
  stop : c = 0 ∨ isspace c = true ∧ k ≠ []

variable {line more t : List UInt8}

theorem FirstWord.readKeysLine (h : FirstWord line lead k c more)
    (hlen : line.length < LINE_BUF_SIZE) :
    ∃ buf' junk, buf'.cells = lead ++ k ++ 0 :: (more ++ 0 :: junk) ∧
      readKeysLine buf keys line = readValue buf' keys lead.length ((lead ++ k).length + 1) := by
  obtain ⟨buf₁, hcells, hread⟩ := fgets_cells buf hlen
  generalize buf.cells.drop _ = junk at hcells
  rw [h.eq, List.append_assoc, List.cons_append] at hcells
  obtain ⟨buf', hcells', hword⟩ := readKey_word keys hcells h.lead h.solid h.hash h.stop
  exact ⟨buf', junk, hcells', (hread keys).trans hword⟩

/-- Without an equals sign next, the line is left. -/
theorem FirstWord.skips (h : FirstWord line lead k c more) (hlen : line.length < LINE_BUF_SIZE)
    (hmore : (more.dropWhile isspace).head? ≠ some EQUALS) :
    ∃ buf', Bolo.readKeysLine buf keys line = .ok (buf', keys) := by
  obtain ⟨buf', junk, hcells, hread⟩ := h.readKeysLine buf keys hlen
  refine ⟨buf', hread.trans ?_⟩
  have hpos : (lead ++ k).length + 1 = (lead ++ k ++ [0]).length := by
    simp only [List.length_append, List.length_singleton]
  rw [hpos]
  obtain ⟨gap, hgap, rfl | ⟨d, l, rfl, hd⟩⟩ := exists_run isspace more
  · have hb : buf'.cells = lead ++ k ++ [0] ++ more ++ 0 :: junk := by simp [hcells]
    exact readValue_other keys hb hgap (.inl rfl) (by decide) _
  · have hb : buf'.cells = lead ++ k ++ [0] ++ gap ++ d :: (l ++ 0 :: junk) := by simp [hcells]
    rw [List.dropWhile_append_of_pos hgap, List.dropWhile_cons_of_neg (by simp [hd])] at hmore
    exact readValue_other keys hb hgap (.inr hd) (by simpa using hmore) _

/-- With one, the line sets the word to some part of it. -/
theorem FirstWord.sets (h : FirstWord line lead k c (gap ++ EQUALS :: t)) (h0k : 0 ∉ k)
    (hgap : Blank gap) (hlen : line.length < LINE_BUF_SIZE) :
    ∃ buf' pad ending, ∃ v : CString, t = pad ++ v.bytes ++ ending ∧ Blank pad ∧
      NEWLINE ∉ v.bytes ∧ (∀ b ∈ v.bytes.head?, isspace b = false) ∧
      (∀ b ∈ ending.head?, b = 0 ∨ b = NEWLINE) ∧
      Bolo.readKeysLine buf keys line = .ok (buf', hashSet keys ⟨k, h0k⟩ (some v)) := by
  obtain ⟨buf₁, junk, hcells, hread⟩ := h.readKeysLine buf keys hlen
  rw [List.append_assoc gap, List.cons_append] at hcells
  obtain ⟨buf', pad, ending, v, ht, hpad, hnewline, hhead, hending, hvalue⟩ :=
    readValue_equals keys h0k hcells hgap
  exact ⟨buf', pad, ending, v, ht, hpad, hnewline, hhead, hending, hread.trans hvalue⟩

omit [HashOrder] in
/-- A buffer full of blanks. -/
theorem exists_blank_buffer : ∃ buf : Buffer LINE_BUF_SIZE, Blank buf.cells := by
  refine ⟨⟨List.replicate LINE_BUF_SIZE SPACE, by simp⟩, fun b hb => ?_⟩
  have hmem : b ∈ List.replicate LINE_BUF_SIZE SPACE := by simpa [Buffer.cells] using hb
  rw [List.eq_of_mem_replicate hmem]
  decide

/-- A line that ends with its first word is read beyond the buffer, if that has only blanks. -/
theorem readKeysLine_overrun {buf : Buffer LINE_BUF_SIZE} (hbuf : Blank buf.cells)
    (hlead : Blank lead) (hk : Solid k) (hhash : k.head? ≠ some (chr '#'))
    (hlen : (lead ++ k).length < LINE_BUF_SIZE) :
    readKeysLine buf keys (lead ++ k) = .error .outOfBounds := by
  obtain ⟨buf₁, hcells, hread⟩ := fgets_cells buf hlen
  obtain ⟨buf', hcells', hword⟩ := readKey_word keys hcells hlead hk hhash (.inl rfl)
  rw [hread, hword]
  have hpos : (lead ++ k).length + 1 = (lead ++ k ++ [0]).length := by
    simp only [List.length_append, List.length_singleton]
  rw [hpos]
  rw [← List.singleton_append, ← List.append_assoc] at hcells'
  exact readValue_overrun keys hcells' (fun b hb => hbuf b (List.mem_of_mem_drop hb)) _

end Scan

/-! ## What a line says -/

/-- A line of a file, with its newline if it has one, that `fgets` does not cut. -/
structure IsLine (line : List UInt8) : Prop where
  newline : ∃ x, NEWLINE ∉ x ∧ x.length < 8191 ∧ (line = x ∨ line = x ++ [NEWLINE])

/-- The line sets `k` to `v`: blanks, the key, blanks, an equals sign, blanks, and the value up to
the newline. -/
structure Says (line : List UInt8) (k v : CString) : Prop where
  shape : ∃ lead gap pad ending, line = lead ++ k.bytes ++ gap ++ EQUALS :: (pad ++ v.bytes ++
    ending) ∧ Blank lead ∧ Blank gap ∧ gap ≠ [] ∧ Blank pad ∧ (ending = [] ∨ ending = [NEWLINE])
  key_ne : k.bytes ≠ []
  key_solid : ∀ b ∈ k.bytes, isspace b = false
  key_hash : k.bytes.head? ≠ some (chr '#')
  value_newline : NEWLINE ∉ v.bytes
  value_start : ∀ b ∈ v.bytes.head?, isspace b = false

/-- The scan does not leave the line: it is a comment, or its first word is followed by a blank
or a NUL of the line; and there is no NUL if the line goes on with an equals sign. -/
def SelfContained (line : List UInt8) : Prop :=
  (line.dropWhile isspace).head? = some (chr '#') ∨
    ∃ k c more, line.dropWhile isspace = k ++ c :: more ∧ Solid k ∧ (c = 0 ∨ isspace c = true) ∧
      ((more.dropWhile isspace).head? = some EQUALS → 0 ∉ line)

/-- The store after a line that is read on its own. -/
def Sets [HashOrder] (line : List UInt8) (keys keys' : Table CString (Option CString)) : Prop :=
  (∃ k v, Says line k v ∧ keys' = hashSet keys k (some v)) ∨
    (∀ k v, ¬Says line k v) ∧ keys' = keys

section Line

variable {line lead k more : List UInt8} {c : UInt8} {key value : CString}

theorem IsLine.length_lt (h : IsLine line) : line.length < LINE_BUF_SIZE := by
  obtain ⟨x, -, hlen, rfl | rfl⟩ := h.newline
  · simp only [LINE_BUF_SIZE]
    omega
  · simp only [LINE_BUF_SIZE, List.length_append, List.length_singleton]
    omega

theorem solid_bytes (s : CString) (h : ∀ b ∈ s.bytes, isspace b = false) : Solid s.bytes :=
  fun b hb => ⟨ne_of_mem_of_not_mem hb s.nulFree, h b hb⟩

theorem dropWhile_blank {l : List UInt8} (hlead : Blank lead)
    (hl : ∀ b ∈ l.head?, isspace b = false) : (lead ++ l).dropWhile isspace = l := by
  rw [List.dropWhile_append_of_pos hlead]
  cases l with
  | nil => rfl
  | cons b l => exact List.dropWhile_cons_of_neg (by simp [hl b rfl])

theorem zero_notMem_blank {l : List UInt8} (h : Blank l) : 0 ∉ l := fun h0 => by
  simpa [isspace] using h 0 h0

theorem head_equals {gap : List UInt8} (hgap : Blank gap) (t : List UInt8) :
    ((gap ++ EQUALS :: t).dropWhile isspace).head? = some EQUALS := by
  rw [dropWhile_blank hgap (by simp; decide)]
  rfl

/-- Behind blanks, the value is found up to the newline. -/
theorem value_eq {pad v ending : List UInt8} (hpad : Blank pad)
    (hv : ∀ b ∈ v.head?, isspace b = false) (hnewline : NEWLINE ∉ v)
    (hending : ending = [] ∨ ending = [NEWLINE]) :
    ((pad ++ v ++ ending).dropWhile isspace).takeWhile (· ≠ NEWLINE) = v := by
  cases v with
  | nil =>
    have hblank : Blank (pad ++ ending) := by
      rw [Blank, List.forall_mem_append]
      refine ⟨hpad, ?_⟩
      rcases hending with rfl | rfl
      · simp
      · simpa using by decide
    rw [List.append_nil, List.dropWhile_eq_nil_iff.mpr hblank]
    rfl
  | cons b v =>
    rw [List.append_assoc, dropWhile_blank hpad (by simpa using hv), List.takeWhile_append_of_pos
      fun c hc => by simpa using ne_of_mem_of_not_mem hc hnewline]
    rcases hending with rfl | rfl <;> simp

/-- The first word of a line that says something is its key, and an equals sign comes next. -/
theorem Says.firstWord (h : Says line key value) : ∃ lead g gap t,
    FirstWord line lead key.bytes g (gap ++ EQUALS :: t) ∧ isspace g = true ∧ Blank gap ∧
      (t.dropWhile isspace).takeWhile (· ≠ NEWLINE) = value.bytes ∧ 0 ∉ line := by
  obtain ⟨lead, gap, pad, ending, hline, hlead, hgap, hne, hpad, hending⟩ := h.shape
  obtain ⟨g, gap, rfl⟩ := List.exists_cons_of_ne_nil hne
  have hg := hgap g (by simp)
  have hgap' : Blank gap := fun b hb => hgap b (by simp [hb])
  refine ⟨lead, g, gap, pad ++ value.bytes ++ ending, ⟨by simp [hline], hlead,
    solid_bytes key h.key_solid, h.key_hash, .inr ⟨hg, h.key_ne⟩⟩, hg, hgap',
    value_eq hpad h.value_start h.value_newline hending, ?_⟩
  have hend : (0 : UInt8) ∉ ending := by rcases hending with rfl | rfl <;> simp [NEWLINE]
  rw [hline]
  simp only [List.mem_append, List.mem_cons, not_or]
  exact ⟨⟨⟨zero_notMem_blank hlead, key.nulFree⟩, (ne_zero_of_isspace hg).symm,
    zero_notMem_blank hgap'⟩, by decide, ⟨zero_notMem_blank hpad, value.nulFree⟩, hend⟩

theorem FirstWord.text (h : FirstWord line lead k c more) :
    line.dropWhile isspace = k ++ c :: more := by
  rw [h.eq, List.append_assoc]
  refine dropWhile_blank h.lead fun b hb => ?_
  cases k with
  | nil =>
    obtain rfl : c = 0 := by simpa using h.stop
    obtain rfl : 0 = b := by simpa using hb
    decide
  | cons e k => exact (h.solid b (by simp_all)).2

theorem FirstWord.selfContained (h : FirstWord line lead k c more)
    (h0 : (more.dropWhile isspace).head? = some EQUALS → 0 ∉ line) : SelfContained line :=
  .inr ⟨k, c, more, h.text, h.solid, h.stop.imp_right And.left, h0⟩

/-- A line that is no comment ends with its first word, or goes on. -/
theorem firstWord_cases (line : List UInt8)
    (hhash : (line.dropWhile isspace).head? ≠ some (chr '#')) :
    ∃ lead k, Blank lead ∧ Solid k ∧ k.head? ≠ some (chr '#') ∧
      (line = lead ++ k ∨ ∃ c more, FirstWord line lead k c more) := by
  obtain ⟨k, hk, hrest⟩ := exists_run (fun b => b ≠ 0 && !isspace b) (line.dropWhile isspace)
  have hlead := blank_takeWhile line
  have hsplit := List.takeWhile_append_dropWhile (p := isspace) (l := line)
  have hsolid : Solid k := fun b hb => by simpa using hk b hb
  have hhead := List.head?_dropWhile_not isspace line
  rcases hrest with htext | ⟨c, more, htext, hc⟩
  · rw [htext] at hsplit hhash
    exact ⟨_, k, hlead, hsolid, hhash, .inl hsplit.symm⟩
  · rw [htext] at hsplit hhash hhead
    have hstop : c = 0 ∨ isspace c = true := by
      simpa [or_iff_not_imp_left] using hc
    have hhash' : k.head? ≠ some (chr '#') := by
      cases k with
      | nil => simp
      | cons b k => simpa using hhash
    refine ⟨_, k, hlead, hsolid, hhash', .inr ⟨c, more, ?_, hlead, hsolid, hhash', ?_⟩⟩
    · rw [List.append_assoc, hsplit]
    · refine hstop.imp_right fun hspace => ⟨hspace, ?_⟩
      rintro rfl
      simp [hspace] at hhead

/-- The first word is the same however it is found. -/
theorem FirstWord.unique {k' more' : List UInt8} {c' : UInt8}
    (h : FirstWord line lead k c more) (htext : line.dropWhile isspace = k' ++ c' :: more')
    (hk : Solid k') (hc : c' = 0 ∨ isspace c' = true) : k = k' ∧ c = c' ∧ more = more' := by
  rw [h.text] at htext
  refine run_unique (f := fun b => b ≠ 0 && !isspace b) (fun b hb => ?_) (fun b hb => ?_) ?_ ?_
    htext
  · simpa using h.solid b hb
  · simpa using hk b hb
  · rcases h.stop with rfl | ⟨h, -⟩ <;> simp_all
  · rcases hc with rfl | h <;> simp_all

theorem Says.selfContained (h : Says line key value) : SelfContained line := by
  obtain ⟨lead, g, gap, t, hword, -, -, -, h0⟩ := h.firstWord
  exact hword.selfContained fun _ => h0

theorem not_says_comment (h : (line.dropWhile isspace).head? = some (chr '#')) :
    ¬Says line key value := by
  intro hentry
  obtain ⟨lead, g, gap, t, hword, -⟩ := hentry.firstWord
  obtain ⟨b, l, hkey⟩ := List.exists_cons_of_ne_nil hentry.key_ne
  have hhash := hentry.key_hash
  rw [hword.text, hkey] at h
  rw [hkey] at hhash
  exact hhash h

/-- A line says one thing at most. -/
theorem Says.unique {key' value' : CString} (h : Says line key value)
    (h' : Says line key' value') : key = key' ∧ value = value' := by
  obtain ⟨lead, g, gap, t, hword, hg, hgap, hvalue, -⟩ := h.firstWord
  obtain ⟨lead', g', gap', t', hword', hg', hgap', hvalue', -⟩ := h'.firstWord
  obtain ⟨hkey, -, hmore⟩ := hword.unique hword'.text hword'.solid (.inr hg')
  obtain ⟨-, -, rfl⟩ := run_unique hgap hgap' (by decide) (by decide) hmore
  exact ⟨CString.ext hkey, CString.ext (hvalue.symm.trans hvalue')⟩

theorem exists_equals (h : (more.dropWhile isspace).head? = some EQUALS) :
    ∃ gap t, more = gap ++ EQUALS :: t ∧ Blank gap := by
  obtain ⟨t, ht⟩ := List.head?_eq_some_iff.mp h
  refine ⟨more.takeWhile isspace, t, ?_, blank_takeWhile more⟩
  rw [← ht, List.takeWhile_append_dropWhile]

/-- Nothing follows the newline of a line. -/
theorem IsLine.eq_nil {a b : List UInt8} (h : IsLine (a ++ NEWLINE :: b)) : b = [] := by
  obtain ⟨x, hx, -, heq | heq⟩ := h.newline
  · exact absurd (by simp [← heq]) hx
  · by_contra hb
    have hfront : a ++ NEWLINE :: b.dropLast = x := by
      have := congrArg List.dropLast heq
      simpa [List.dropLast_append_of_ne_nil, List.dropLast_cons_of_ne_nil hb] using this
    exact hx (by simp [← hfront])

/-- A line without a NUL says what is taken from it. -/
theorem FirstWord.entry {gap pad ending : List UInt8} {h0k : 0 ∉ k}
    (h : FirstWord line lead k c (gap ++ EQUALS :: (pad ++ value.bytes ++ ending)))
    (hline : IsLine line) (hgap : Blank gap) (hpad : Blank pad) (hnewline : NEWLINE ∉ value.bytes)
    (hstart : ∀ b ∈ value.bytes.head?, isspace b = false)
    (hending : ∀ b ∈ ending.head?, b = 0 ∨ b = NEWLINE) (h0 : 0 ∉ line) :
    Says line ⟨k, h0k⟩ value := by
  have heq := h.eq
  obtain ⟨hc, hne⟩ : isspace c = true ∧ k ≠ [] :=
    h.stop.resolve_left fun hc => h0 (by simp [heq, hc])
  refine ⟨⟨lead, c :: gap, pad, ending, by simp [heq], h.lead, ?_, by simp, hpad, ?_⟩, hne,
    fun b hb => (h.solid b hb).2, h.hash, hnewline, hstart⟩
  · exact List.forall_mem_cons.mpr ⟨hc, hgap⟩
  · cases ending with
    | nil => exact .inl rfl
    | cons b rest =>
      obtain rfl : b = NEWLINE := (hending b rfl).resolve_left fun hb => h0 (by simp [heq, hb])
      have hlast : IsLine ((lead ++ k ++ c :: (gap ++ EQUALS :: (pad ++ value.bytes))) ++
          NEWLINE :: rest) := by
        have hsame : line = (lead ++ k ++ c :: (gap ++ EQUALS :: (pad ++ value.bytes))) ++
            NEWLINE :: rest := by simp [heq]
        rwa [← hsame]
      rw [hlast.eq_nil]
      exact .inr rfl

variable [HashOrder]

theorem sets_comment (hlen : line.length < LINE_BUF_SIZE)
    (hhash : (line.dropWhile isspace).head? = some (chr '#')) (buf : Buffer LINE_BUF_SIZE)
    (keys : Table CString (Option CString)) :
    ∃ buf' keys', readKeysLine buf keys line = .ok (buf', keys') ∧ Sets line keys keys' := by
  obtain ⟨l, hl⟩ := List.head?_eq_some_iff.mp hhash
  have hsplit := List.takeWhile_append_dropWhile (p := isspace) (l := line)
  rw [hl] at hsplit
  obtain ⟨buf', hread⟩ := readKeysLine_comment buf keys (blank_takeWhile line) (hsplit ▸ hlen)
  rw [hsplit] at hread
  exact ⟨buf', keys, hread, .inr ⟨fun _ _ => not_says_comment hhash, rfl⟩⟩

/-- A line with a first word is read as it says, if it has no NUL where it sets something. -/
theorem FirstWord.sets_line (h : FirstWord line lead k c more) (hline : IsLine line)
    (h0 : (more.dropWhile isspace).head? = some EQUALS → 0 ∉ line) (buf : Buffer LINE_BUF_SIZE)
    (keys : Table CString (Option CString)) :
    ∃ buf' keys', Bolo.readKeysLine buf keys line = .ok (buf', keys') ∧ Sets line keys keys' := by
  by_cases hequals : (more.dropWhile isspace).head? = some EQUALS
  · obtain ⟨gap, t, rfl, hgap⟩ := exists_equals hequals
    obtain ⟨buf', pad, ending, v, rfl, hpad, hnewline, hstart, hending, hread⟩ :=
      h.sets buf keys h.solid.nulFree hgap hline.length_lt
    refine ⟨buf', _, hread, .inl ⟨_, v, ?_, rfl⟩⟩
    exact h.entry hline hgap hpad hnewline hstart hending (h0 hequals)
  · obtain ⟨buf', hread⟩ := h.skips buf keys hline.length_lt hequals
    refine ⟨buf', keys, hread, .inr ⟨fun key value hentry => ?_, rfl⟩⟩
    obtain ⟨lead', g, gap, t, hword, hg, hgap, -⟩ := hentry.firstWord
    obtain ⟨-, -, rfl⟩ := h.unique hword.text hword.solid (.inr hg)
    exact hequals (head_equals hgap t)

theorem SelfContained.sets (h : SelfContained line) (hline : IsLine line)
    (buf : Buffer LINE_BUF_SIZE) (keys : Table CString (Option CString)) :
    ∃ buf' keys', readKeysLine buf keys line = .ok (buf', keys') ∧ Sets line keys keys' := by
  by_cases hhash : (line.dropWhile isspace).head? = some (chr '#')
  · exact sets_comment hline.length_lt hhash buf keys
  · obtain ⟨k', c', more', htext, hk', hc', h0⟩ := h.resolve_left hhash
    obtain ⟨lead, k, hlead, hk, hhash', rfl | ⟨c, more, hword⟩⟩ := firstWord_cases line hhash
    · -- the stop would be a byte of the word
      rw [dropWhile_blank hlead fun b hb => (hk b (List.mem_of_mem_head? hb)).2] at htext
      have hmem := hk c' (by simp [htext])
      simp [hmem] at hc'
    · obtain ⟨rfl, rfl, rfl⟩ := hword.unique htext hk' hc'
      exact hword.sets_line hline h0 buf keys

/-- A line that is read the same after any text, with any store, is self-contained. -/
theorem selfContained_of_sets (hline : IsLine line)
    (h : ∀ buf keys, ∃ buf' keys', readKeysLine buf keys line = .ok (buf', keys') ∧
      Sets line keys keys') : SelfContained line := by
  have hlen := hline.length_lt
  by_cases hhash : (line.dropWhile isspace).head? = some (chr '#')
  · exact .inl hhash
  · obtain ⟨lead, k, hlead, hk, hhash', rfl | ⟨c, more, hword⟩⟩ := firstWord_cases line hhash
    · obtain ⟨buf, hbuf⟩ := exists_blank_buffer
      obtain ⟨buf', keys', hread, -⟩ := h buf .empty
      rw [readKeysLine_overrun .empty hbuf hlead hk hhash' hlen] at hread
      simp at hread
    · refine hword.selfContained fun hequals h0 => ?_
      obtain ⟨gap, t, rfl, hgap⟩ := exists_equals hequals
      -- something is set, but nothing was said
      obtain ⟨buf', keys', hread, hsets⟩ := h (.zero _) .empty
      obtain ⟨_, _, _, v, -, -, -, -, -, hread'⟩ :=
        hword.sets (.zero _) .empty hk.nulFree hgap hlen
      obtain ⟨-, rfl⟩ : _ ∧ _ = keys' := by simpa [hread'] using hread
      rcases hsets with ⟨key, value, hentry, -⟩ | ⟨-, hempty⟩
      · obtain ⟨_, _, _, _, -, -, -, -, hnul⟩ := hentry.firstWord
        exact hnul h0
      · have hget := congrArg (Table.get? · ⟨k, hk.nulFree⟩) hempty
        simp at hget

end Line

/-! ## The file -/

section File

variable [HashOrder]

/-- The store after lines that are read each on its own, in order. -/
inductive SetsAll : Table CString (Option CString) → List (List UInt8) →
    Table CString (Option CString) → Prop
  | nil {keys} : SetsAll keys [] keys
  | cons {keys keys₁ keys₂ line lines} (hline : Sets line keys keys₁)
      (hlines : SetsAll keys₁ lines keys₂) : SetsAll keys (line :: lines) keys₂

theorem Sets.of_entry {line : List UInt8} {k v : CString}
    {keys keys' : Table CString (Option CString)} (h : Sets line keys keys')
    (hentry : Says line k v) : keys' = hashSet keys k (some v) := by
  rcases h with ⟨k', v', hentry', rfl⟩ | ⟨hnone, -⟩
  · obtain ⟨rfl, rfl⟩ := hentry.unique hentry'
    rfl
  · exact absurd hentry (hnone k v)

theorem Sets.of_comment {line : List UInt8} {keys keys' : Table CString (Option CString)}
    (h : Sets line keys keys') (hhash : (line.dropWhile isspace).head? = some (chr '#')) :
    keys' = keys := by
  rcases h with ⟨k, v, hentry, -⟩ | ⟨-, heq⟩
  · exact absurd hentry (not_says_comment hhash)
  · exact heq

theorem readKeysLines_sets {lines : List (List UInt8)} (hlines : ∀ line ∈ lines, IsLine line)
    (h : ∀ line ∈ lines, SelfContained line) (buf : Buffer LINE_BUF_SIZE)
    (keys : Table CString (Option CString)) :
    ∃ keys', readKeysLines buf keys lines = .ok keys' ∧ SetsAll keys lines keys' := by
  induction lines generalizing buf keys with
  | nil => exact ⟨keys, rfl, .nil⟩
  | cons line lines ih =>
    rw [List.forall_mem_cons] at hlines h
    obtain ⟨buf₁, keys₁, hread, hsets⟩ := h.1.sets hlines.1 buf keys
    obtain ⟨keys', hrest, hall⟩ := ih hlines.2 h.2 buf₁ keys₁
    refine ⟨keys', ?_, .cons hsets hall⟩
    rw [readKeysLines, hread, ok_bind]
    exact hrest

omit [HashOrder] in
theorem isLine_linesOf {file : List UInt8} (h : ∀ l ∈ file.splitOn NEWLINE, l.length < 8191) :
    ∀ line ∈ linesOf file, IsLine line := by
  have hpart : ∀ x ∈ file.splitOn NEWLINE, NEWLINE ∉ x ∧ x.length < 8191 := fun x hx =>
    ⟨notMem_splitOn file x hx, h x hx⟩
  rw [← pieces_append_rest, List.forall_mem_append] at hpart
  intro line hline
  rcases List.mem_append.mp hline with hline | hline
  · obtain ⟨x, hx, rfl⟩ := List.mem_map.mp hline
    exact ⟨x, (hpart.1 x hx).1, (hpart.1 x hx).2, .inr rfl⟩
  · have hlast := hpart.2 (rest NEWLINE file) (by simp)
    split at hline
    · simp at hline
    · obtain rfl : line = rest NEWLINE file := by simpa using hline
      exact ⟨_, hlast.1, hlast.2, .inl rfl⟩

end File

end Bolo
