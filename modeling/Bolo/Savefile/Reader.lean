import Bolo.Config.Reference
import Bolo.Config.Loaded
import Bolo.Savefile.Invariant
import Bolo.Savefile.RoundTrip

/-!
# Which save files are read safely

The model of `binf_read` fails where a range it copies leaves the mapping, where the length of
the strings comes out negative, and where a string starts behind the bytes that were copied.
`Readable` describes the contents for which none of this happens.
-/
namespace Bolo

open Library

variable {R Re : Type}

/-! ## The format -/

/-- The size of the body, for a known type of record. -/
def bodySize : Nat → Option Nat
  | 1 => some 7
  | 2 => some 13
  | 3 => some 69
  | 4 => some 4
  | 5 => some 25
  | _ => none

/-- The length field of a record header. -/
def recordLen (head : List UInt8) : Nat := ofBe (head.take 2)

/-- The type in the flags of a record header. -/
def recordType (head : List UInt8) : Nat := ofBe ((head.drop 2).take 2) % 16

/-- A record with two strings. -/
def TwoStrings (type : Nat) : Prop := type = RECORD_TYPE_STATE ∨ type = RECORD_TYPE_EVENT

/-- The reader takes a second string of one byte for none at all, also in a rate. -/
def Rejected (type : Nat) (strings : List UInt8) : Prop :=
  (TwoStrings type ∨ type = RECORD_TYPE_RATE) ∧
    (CString.ofBytes strings).length + 2 = strings.length

/-- `n` records and a trailer, or records up to one that the reader gives up on. -/
def ReadableRecords : Nat → List UInt8 → Prop
  | 0, l => 2 ≤ l.length
  | n + 1, l => ∃ head tail, l = head ++ tail ∧ head.length = 4 ∧
    (bodySize (recordType head) = none ∨
      ∃ body strings rest, tail = body ++ (strings ++ rest) ∧
        bodySize (recordType head) = some body.length ∧
        recordLen head = 4 + body.length + strings.length ∧
        (TwoStrings (recordType head) → 0 ∈ strings) ∧
        (¬Rejected (recordType head) strings → ReadableRecords n rest))

/-- Another kind of file, another version, or as many records as the header counts. -/
def Readable (l : List UInt8) : Prop :=
  l.take 4 ≠ CString.ascii "BOLO" ∨ ofBe ((l.drop 4).take 2) ≠ 1 ∨
    ReadableRecords (ofBe ((l.drop 12).take 4)) (l.drop 16)

/-- The header of the first record is fixed by the bytes. -/
theorem records_succ {n : Nat} {head tail : List UInt8} (hhead : head.length = 4) :
    ReadableRecords (n + 1) (head ++ tail) ↔ bodySize (recordType head) = none ∨
      ∃ body strings rest, tail = body ++ (strings ++ rest) ∧
        bodySize (recordType head) = some body.length ∧
        recordLen head = 4 + body.length + strings.length ∧
        (TwoStrings (recordType head) → 0 ∈ strings) ∧
        (¬Rejected (recordType head) strings → ReadableRecords n rest) := by
  constructor
  · rintro ⟨head', tail', heq, hhead', h⟩
    obtain ⟨rfl, rfl⟩ := List.append_inj heq (hhead.trans hhead'.symm)
    exact h
  · exact fun h => ⟨head, tail, rfl, hhead, h⟩

/-- So are its body and strings. -/
theorem records_succ_inside {n : Nat} {head body strings rest : List UInt8}
    (hhead : head.length = 4) (hsize : bodySize (recordType head) = some body.length)
    (hlen : recordLen head = 4 + body.length + strings.length) :
    ReadableRecords (n + 1) (head ++ (body ++ (strings ++ rest))) ↔
      (TwoStrings (recordType head) → 0 ∈ strings) ∧
        (¬Rejected (recordType head) strings → ReadableRecords n rest) := by
  rw [records_succ hhead]
  constructor
  · rintro (hnone | ⟨body', strings', rest', heq, hsize', hlen', h⟩)
    · simp [hsize] at hnone
    · have hbody : body.length = body'.length := by simpa [hsize] using hsize'
      obtain ⟨rfl, htail⟩ := List.append_inj heq hbody
      obtain ⟨rfl, rfl⟩ := List.append_inj htail (by omega)
      exact h
  · exact fun h => .inr ⟨body, strings, rest, rfl, hsize, hlen, h⟩

/-! ## One record -/

section Record

variable [Double R] {buf : List UInt8}

theorem ofBytes_length_lt (h : 0 ∈ buf) : (CString.ofBytes buf).length < buf.length := by
  obtain ⟨a, b, rfl, ha⟩ := List.eq_append_cons_of_mem h
  rw [show CString.ofBytes (a ++ 0 :: b) = ⟨a, ha⟩ from CString.ofBytes_append ⟨a, ha⟩ b]
  simp [CString.length]

theorem secondString_error (h : 0 ∉ buf) : secondString buf = .error .outOfBounds := by
  have hlen : afterName buf = buf.length + 1 := by
    rw [afterName, CString.length, CString.bytes_ofBytes h]
  rw [secondString, if_neg (by omega), if_neg (by omega)]

theorem secondString_none (h : (CString.ofBytes buf).length + 2 = buf.length) :
    secondString buf = .ok none := by
  rw [secondString, afterName, if_pos h]

theorem secondString_some (h : 0 ∈ buf) (hne : (CString.ofBytes buf).length + 2 ≠ buf.length) :
    ∃ s, secondString buf = .ok (some s) := by
  have hlt := ofBytes_length_lt h
  exact ⟨_, by rw [secondString, afterName, if_neg hne, if_pos (Nat.succ_le_of_lt hlt)]⟩

/-- What is made of the body and the strings. -/
def finishRecord (type : Nat) (body buf : List UInt8) : Except Fault (Option (Payload R)) :=
  match type with
  | 1 => (secondString buf).map fun r => r.map fun summary =>
      .state { readState body with name := some (.ofBytes buf), summary := some summary }
  | 2 => .ok (some (.counter { readCounter body with name := some (.ofBytes buf) }))
  | 3 => .ok (some (.sample { readSample body with name := some (.ofBytes buf) }))
  | 4 => (secondString buf).map fun r => r.map fun extra =>
      .event { readEvent body with name := some (.ofBytes buf), extra := some extra }
  | 5 => .ok (if afterName buf + 1 = buf.length then none
      else some (.rate { readRate body with name := some (.ofBytes buf) }))
  | _ => .ok none

omit [Double R] in
theorem secondString_bind (buf : List UInt8) (m : Mapping) (f : CString → Payload R) :
    (do match ← secondString buf with
        | none => return (none, m)
        | some text => return (some (f text), m)) = do
      let p ← (secondString buf).map (Option.map f)
      return (p, m) := by
  cases secondString buf with
  | error e => rfl
  | ok text => cases text <;> rfl

theorem readFields_eq {type size : Nat} (h : bodySize type = some size) (len : Nat) (m : Mapping) :
    (readFields type len m : Except Fault (Option (Payload R) × Mapping)) = do
      let (body, m) ← inBounds (m.take size)
      let (buf, m) ← readStrings len size m
      let p ← finishRecord type body buf
      return (p, m) := by
  unfold bodySize at h
  split at h
  · obtain rfl := Option.some.inj h
    exact bind_congr fun ⟨body, m⟩ => bind_congr fun ⟨buf, m⟩ => secondString_bind buf m _
  · obtain rfl := Option.some.inj h
    rfl
  · obtain rfl := Option.some.inj h
    rfl
  · obtain rfl := Option.some.inj h
    exact bind_congr fun ⟨body, m⟩ => bind_congr fun ⟨buf, m⟩ => secondString_bind buf m _
  · obtain rfl := Option.some.inj h
    refine bind_congr fun ⟨body, m⟩ => bind_congr fun ⟨buf, m⟩ => ?_
    simp only [finishRecord]
    split <;> rfl
  · simp at h

theorem readFields_unknown {type : Nat} (h : bodySize type = none) (len : Nat) (m : Mapping) :
    (readFields type len m : Except Fault (Option (Payload R) × Mapping)) = .ok (none, m) := by
  unfold bodySize at h
  split at h
  iterate 5 simp at h
  unfold readFields
  split
  all_goals first | rfl | contradiction

theorem finishRecord_error {type : Nat} (body : List UInt8) (htwo : TwoStrings type) (h : 0 ∉ buf) :
    (finishRecord type body buf : Except Fault (Option (Payload R))) = .error .outOfBounds := by
  rcases htwo with rfl | rfl <;>
    simp [finishRecord, RECORD_TYPE_STATE, RECORD_TYPE_EVENT, secondString_error h, Except.map]

theorem finishRecord_none {type : Nat} (body : List UInt8) (h : Rejected type buf) :
    (finishRecord type body buf : Except Fault (Option (Payload R))) = .ok none := by
  obtain ⟨(rfl | rfl) | rfl, hlen⟩ := h
  · simp [finishRecord, RECORD_TYPE_STATE, secondString_none hlen, Except.map]
  · simp [finishRecord, RECORD_TYPE_EVENT, secondString_none hlen, Except.map]
  · simp [finishRecord, RECORD_TYPE_RATE, afterName, hlen]

theorem finishRecord_some {type size : Nat} (hsize : bodySize type = some size)
    (body : List UInt8) (htwo : TwoStrings type → 0 ∈ buf) (h : ¬Rejected type buf) :
    ∃ p : Payload R, finishRecord type body buf = .ok (some p) ∧ p.Complete := by
  have hsecond (htype : TwoStrings type) : ∃ t, secondString buf = .ok (some t) :=
    secondString_some (htwo htype) fun hlen => h ⟨.inl htype, hlen⟩
  unfold bodySize at hsize
  split at hsize
  · obtain ⟨t, ht⟩ := hsecond (.inl rfl)
    exact ⟨_, by rw [finishRecord, ht]; rfl, by simp [Payload.Complete, Payload.texts]⟩
  · exact ⟨_, rfl, by simp [Payload.Complete, Payload.texts]⟩
  · exact ⟨_, rfl, by simp [Payload.Complete, Payload.texts]⟩
  · obtain ⟨t, ht⟩ := hsecond (.inr rfl)
    exact ⟨_, by rw [finishRecord, ht]; rfl, by simp [Payload.Complete, Payload.texts]⟩
  · have hlen : ¬afterName buf + 1 = buf.length := fun hlen => h ⟨.inr rfl, hlen⟩
    exact ⟨_, by rw [finishRecord, if_neg hlen], by simp [Payload.Complete, Payload.texts]⟩
  · simp at hsize

/-- The record as bytes: header, body, strings, and what follows them. -/
theorem sReadRecord_eq {m : Mapping} (hm : m.Fits) {head tail : List UInt8}
    (hcells : m.cells = head ++ tail) (hhead : head.length = 4) :
    ∃ m₁, m₁.cells = tail ∧ m₁.Fits ∧
      (sReadRecord m : Except Fault (Option (Payload R) × Mapping)) =
        readFields (recordType head) (recordLen head) m₁ := by
  obtain ⟨m₁, htake, hrest, hfits⟩ := hm.take hcells
  refine ⟨m₁, hrest, hfits, ?_⟩
  rw [sReadRecord, ← hhead, htake]
  rfl

/-- The fields of a record that lies inside the mapping. -/
theorem readFields_inside {m : Mapping} (hm : m.Fits) {type len : Nat}
    {body strings rest : List UInt8} (hcells : m.cells = body ++ (strings ++ rest))
    (hsize : bodySize type = some body.length) (hlen : len = 4 + body.length + strings.length) :
    ∃ m', m'.cells = rest ∧ m'.Fits ∧
      (readFields type len m : Except Fault (Option (Payload R) × Mapping)) =
        (finishRecord type body strings).map fun p => (p, m') := by
  obtain ⟨m₁, hbody, hcells₁, hfits₁⟩ := hm.take hcells
  obtain ⟨m', hstrings, hcells', hfits'⟩ := hfits₁.take hcells₁
  refine ⟨m', hcells', hfits', ?_⟩
  have hwant : len - 4 - body.length = strings.length := by omega
  rw [readFields_eq hsize, hbody, inBounds_some, ok_bind]
  simp only [readStrings, if_neg (show ¬len < 4 + body.length by omega), hwant, hstrings,
    inBounds_some, ok_bind]
  cases finishRecord (R := R) type body strings <;> rfl

/-- A record that does not is not read safely. -/
theorem readFields_outside {m : Mapping} (hm : m.Fits) {type len size : Nat}
    (hsize : bodySize type = some size)
    (h : ¬∃ body strings rest, m.cells = body ++ (strings ++ rest) ∧ body.length = size ∧
      len = 4 + size + strings.length) :
    (readFields type len m : Except Fault (Option (Payload R) × Mapping)) =
      .error .outOfBounds := by
  have hlength := hm.length_cells
  rw [readFields_eq hsize]
  by_cases hbody : m.size < size
  · rw [Mapping.take_eq_none.mpr hbody]
    rfl
  · obtain ⟨m₁, htake, hcells₁, hfits₁⟩ := hm.take_le (Nat.le_of_not_lt hbody)
    rw [htake, inBounds_some, ok_bind]
    by_cases hwant : len < 4 + size
    · simp only [readStrings, if_pos hwant]
      rfl
    · -- the strings cannot fit, or the record would lie inside
      have hroom : m₁.size < len - 4 - size := by
        by_contra hroom
        have hlength₁ := hfits₁.length_cells
        refine h ⟨m.cells.take size, m₁.cells.take (len - 4 - size),
          m₁.cells.drop (len - 4 - size), ?_, ?_, ?_⟩
        · rw [List.take_append_drop, hcells₁, List.take_append_drop]
        · rw [List.length_take]
          omega
        · rw [List.length_take]
          omega
      simp only [readStrings, if_neg hwant, Mapping.take_eq_none.mpr hroom]
      rfl

end Record

/-! ## The file -/

section File

variable [Double R] [Pcre Re] [HashOrder]

/-- Merging a complete record into a well-formed database succeeds. -/
theorem restoreRecord_ok {db : Db R Re} (h : db.Wf) (now : Int32) {p : Payload R}
    (hp : p.Complete) : ∃ db', restoreRecord now db p = .ok db' ∧ db'.Wf := by
  have hmeets := restoreRecord_meets h.safe_null now hp
  have hok : ∃ db', restoreRecord now db p = .ok db' := by
    cases p with
    | state s =>
      obtain ⟨name, hname⟩ := hp s.name (by simp [Payload.texts])
      obtain ⟨r, hr, -⟩ := Meets.exists_ok fun bad =>
        (findState_meets h.stateMatches h.states now name : Meets bad _ _)
      simp only [restoreRecord, restoreState, hname, deref, ok_bind, hr]
      cases r <;> exact ⟨_, rfl⟩
    | counter c =>
      obtain ⟨name, hname⟩ := hp c.name (by simp [Payload.texts])
      exact ⟨_, by simp only [restoreRecord, restoreCounter, hname, deref, ok_bind]; rfl⟩
    | sample s =>
      obtain ⟨name, hname⟩ := hp s.name (by simp [Payload.texts])
      exact ⟨_, by simp only [restoreRecord, restoreSample, hname, deref, ok_bind]; rfl⟩
    | event ev => exact ⟨_, rfl⟩
    | rate r =>
      obtain ⟨name, hname⟩ := hp r.name (by simp [Payload.texts])
      exact ⟨_, by simp only [restoreRecord, restoreRate, hname, deref, ok_bind]; rfl⟩
  obtain ⟨db', hdb'⟩ := hok
  exact ⟨db', hdb', (hmeets.result hdb').wf⟩

/-- The loop runs through, and a trailer can be read where it has read all records. -/
def ReadsOn (clock : Nat → Int32) (n i : Nat) (m : Mapping) (db : Db R Re) : Prop :=
  ∃ r db', readRecords clock n i m db = .ok (r, db') ∧ ∀ m', r = some m' → 2 ≤ m'.size

section Loop

variable {clock : Nat → Int32} {n i : Nat} {m m' : Mapping} {db : Db R Re}

theorem not_readsOn {e : Fault} (h : (sReadRecord m : Except Fault (Option (Payload R) × Mapping)) =
    .error e) : ¬ReadsOn clock (n + 1) i m db := by
  rintro ⟨r, db', hread, -⟩
  rw [readRecords, h] at hread
  simp [bind, Except.bind] at hread

theorem readsOn_none (h : (sReadRecord m : Except Fault (Option (Payload R) × Mapping)) =
    .ok (none, m')) : ReadsOn clock (n + 1) i m db :=
  ⟨none, db, by rw [readRecords, h, ok_bind]; rfl, by simp⟩

theorem readsOn_some {p : Payload R} (h : sReadRecord m = .ok (some p, m')) (hp : p.Complete)
    (hdb : db.Wf) : ∃ db' : Db R Re, db'.Wf ∧
      (ReadsOn clock (n + 1) i m db ↔ ReadsOn clock n (i + 1) m' db') := by
  obtain ⟨db', hrestore, hwf⟩ := restoreRecord_ok hdb (clock i) hp
  refine ⟨db', hwf, ?_⟩
  have hstep : readRecords clock (n + 1) i m db = readRecords clock n (i + 1) m' db' := by
    rw [readRecords, h, ok_bind]
    simp only [hrestore, ok_bind]
  rw [ReadsOn, ReadsOn, hstep]

/-- The first record lies inside: it is rejected, or the loop goes on behind it. -/
theorem readsOn_inside {head body strings rest : List UInt8} (hdb : db.Wf) (hfits : m.Fits)
    (hcells : m.cells = head ++ (body ++ (strings ++ rest))) (hhead : head.length = 4)
    (hsize : bodySize (recordType head) = some body.length)
    (hlen : recordLen head = 4 + body.length + strings.length)
    (ih : ∀ (i : Nat) (m : Mapping) (db : Db R Re), m.Fits → db.Wf →
      (ReadsOn clock n i m db ↔ ReadableRecords n m.cells)) :
    ReadsOn clock (n + 1) i m db ↔ ReadableRecords (n + 1) m.cells := by
  obtain ⟨m₁, hcells₁, hfits₁, hread⟩ := sReadRecord_eq (R := R) hfits hcells hhead
  obtain ⟨m', hcells', hfits', hfields⟩ := readFields_inside (R := R) hfits₁ hcells₁ hsize hlen
  rw [hfields] at hread
  rw [hcells, records_succ_inside hhead hsize hlen]
  by_cases htwo : TwoStrings (recordType head) → 0 ∈ strings
  · by_cases hrejected : Rejected (recordType head) strings
    · rw [finishRecord_none body hrejected] at hread
      exact iff_of_true (readsOn_none hread) ⟨htwo, fun h => absurd hrejected h⟩
    · obtain ⟨p, hfinish, hp⟩ := finishRecord_some (R := R) hsize body htwo hrejected
      rw [hfinish] at hread
      obtain ⟨db', hwf, hiff⟩ := readsOn_some hread hp hdb
      rw [hiff, ih _ _ _ hfits' hwf, hcells']
      exact ⟨fun h => ⟨htwo, fun _ => h⟩, fun h => h.2 hrejected⟩
  · rw [Classical.not_imp] at htwo
    rw [finishRecord_error body htwo.1 htwo.2] at hread
    exact iff_of_false (not_readsOn hread) fun h => htwo.2 (h.1 htwo.1)

/-- It does not: the reader leaves the mapping. -/
theorem readsOn_outside {head tail : List UInt8} {size : Nat} (hfits : m.Fits)
    (hcells : m.cells = head ++ tail) (hhead : head.length = 4)
    (hsize : bodySize (recordType head) = some size)
    (houtside : ¬∃ body strings rest, tail = body ++ (strings ++ rest) ∧ body.length = size ∧
      recordLen head = 4 + size + strings.length) :
    ReadsOn clock (n + 1) i m db ↔ ReadableRecords (n + 1) m.cells := by
  obtain ⟨m₁, hcells₁, hfits₁, hread⟩ := sReadRecord_eq (R := R) hfits hcells hhead
  rw [readFields_outside hfits₁ hsize (by rwa [hcells₁])] at hread
  refine iff_of_false (not_readsOn hread) fun h => houtside ?_
  rw [hcells, records_succ hhead] at h
  rcases h with hnone | ⟨body, strings, rest, hparts, hsize', hlen, -⟩
  · simp [hsize] at hnone
  · obtain rfl : size = body.length := by simpa [hsize] using hsize'
    exact ⟨body, strings, rest, hparts, rfl, hlen⟩

/-- There is no room for its header. -/
theorem readsOn_short (hfits : m.Fits) (hroom : m.size < 4) :
    ReadsOn clock (n + 1) i m db ↔ ReadableRecords (n + 1) m.cells := by
  have hread : (sReadRecord m : Except Fault (Option (Payload R) × Mapping)) =
      .error .outOfBounds := by
    rw [sReadRecord, Mapping.take_eq_none.mpr hroom]
    rfl
  refine iff_of_false (not_readsOn hread) ?_
  rintro ⟨head, tail, heq, hhead, -⟩
  have hlength := hfits.length_cells
  rw [heq, List.length_append] at hlength
  omega

end Loop

theorem readsOn_iff (clock : Nat → Int32) (n i : Nat) {m : Mapping} (hm : m.Fits) {db : Db R Re}
    (hdb : db.Wf) : ReadsOn clock n i m db ↔ ReadableRecords n m.cells := by
  induction n generalizing i m db with
  | zero => simp [ReadsOn, readRecords, ReadableRecords, hm.length_cells]
  | succ n ih =>
    by_cases hroom : m.size < 4
    · exact readsOn_short hm hroom
    · have hlength := hm.length_cells
      have hhead : (m.cells.take 4).length = 4 := by rw [List.length_take]; omega
      have hcells : m.cells = m.cells.take 4 ++ m.cells.drop 4 := (List.take_append_drop ..).symm
      cases hsize : bodySize (recordType (m.cells.take 4)) with
      | none =>
        obtain ⟨m₁, -, -, hread⟩ := sReadRecord_eq (R := R) hm hcells hhead
        rw [readFields_unknown hsize] at hread
        refine iff_of_true (readsOn_none hread) ?_
        rw [hcells]
        exact (records_succ hhead).mpr (.inl hsize)
      | some size =>
        by_cases hinside : ∃ body strings rest, m.cells.drop 4 = body ++ (strings ++ rest) ∧
            body.length = size ∧ recordLen (m.cells.take 4) = 4 + size + strings.length
        · obtain ⟨body, strings, rest, hparts, rfl, hlen⟩ := hinside
          rw [hparts] at hcells
          exact readsOn_inside hdb hm hcells hhead hsize hlen fun i m db hm hdb => ih i hm hdb
        · exact readsOn_outside hm hcells hhead hsize hinside

omit [Double R] [Pcre Re] [HashOrder] in
/-- A mapping of some size has room for the header. -/
theorem sixteen_le_mapSize {dbSize : Int32} (h : 0 < mapSize dbSize) : 16 ≤ mapSize dbSize := by
  have hsize : mapSize dbSize = (dbSize.toInt * 2 ^ 20).bmod (2 ^ 32) := by
    have hmul : (dbSize * 1024 * 1024).toInt =
        ((dbSize.toInt * 1024).bmod (2 ^ 32) * 1024).bmod (2 ^ 32) := by
      rw [Int32.toInt_mul, Int32.toInt_mul]
      rfl
    rw [mapSize, hmul, Int.bmod_mul_bmod]
    congr 1
    omega
  rw [hsize, Int.bmod_def] at h ⊢
  omega

/-- Whatever the file holds, `binf_read` returns 0 or an error without leaving the mapping or the
strings of a record, if and only if the contents are readable. -/
theorem restore_safe_iff (clock : Nat → Int32) {dbSize : Int32} (hmapped : 0 < mapSize dbSize)
    {m : Mapping} (hm : m.Fits) (hsize : (m.size : Int) = mapSize dbSize) {db : Db R Re}
    (hdb : db.Wf) :
    (∃ r db', binfRead clock m db = .ok (r, db') ∧ (r = 0 ∨ r = 1 ∨ r = -1)) ↔
      Readable m.cells := by
  have hroom := sixteen_le_mapSize hmapped
  obtain ⟨m₁, htake, hcells₁, hfits₁⟩ := hm.take_le (n := 16) (by omega)
  have hrecords := readsOn_iff clock (ofBe ((m.cells.drop 12).take 4)) 1 hfits₁ hdb
  rw [hcells₁] at hrecords
  have hmagic : (m.cells.take 16).take 4 = m.cells.take 4 := by simp [List.take_take]
  have hversion : ((m.cells.take 16).drop 4).take 2 = (m.cells.drop 4).take 2 := by
    simp [List.drop_take, List.take_take]
  have hcount : ((m.cells.take 16).drop 12).take 4 = (m.cells.drop 12).take 4 := by
    simp [List.drop_take, List.take_take]
  simp only [Readable, binfRead, htake, inBounds_some, ok_bind, uint, List.drop_drop, hmagic,
    hversion]
  by_cases hbolo : m.cells.take 4 = CString.ascii "BOLO"
  · by_cases hone : ofBe ((m.cells.drop 4).take 2) = 1
    · simp only [hbolo, hone, ne_eq, not_true_eq_false, if_false, false_or, ← hrecords, hcount]
      constructor
      · rintro ⟨r, db', hread, -⟩
        simp only [bind_eq_ok] at hread
        obtain ⟨⟨left, db₁⟩, hloop, hread⟩ := hread
        refine ⟨left, db₁, hloop, ?_⟩
        rintro m' rfl
        by_contra hshort
        simp [Mapping.take_eq_none.mpr (Nat.lt_of_not_le hshort), inBounds, bind, Except.bind]
          at hread
      · rintro ⟨left, db₁, hloop, htrailer⟩
        simp only [hloop, ok_bind]
        cases left with
        | none => exact ⟨-1, db₁, rfl, .inr (.inr rfl)⟩
        | some m' =>
          have htrail : m'.take 2 = some _ := if_pos (htrailer m' rfl)
          simp only [htrail, inBounds_some, ok_bind, pure_eq_ok, Prod.mk.injEq]
          split
          · exact ⟨0, db₁, ⟨rfl, rfl⟩, .inl rfl⟩
          · exact ⟨1, db₁, ⟨rfl, rfl⟩, .inr (.inl rfl)⟩
    · simp only [hbolo, hone, ne_eq, not_true_eq_false, not_false_eq_true, if_false, if_true,
        false_or, true_or, iff_true]
      exact ⟨-1, db, rfl, .inr (.inr rfl)⟩
  · simp only [hbolo, ne_eq, not_false_eq_true, if_true, true_or, iff_true]
    exact ⟨-1, db, rfl, .inr (.inr rfl)⟩

end File

section Counter

open Reference

/-- The record of a counter `hits`. -/
def hitsRecord : List UInt8 :=
  [0, 22, 0, 2] ++ (List.replicate 13 0 ++ (CString.ascii "hits" ++ [0]))

/-- A file of one MiB with that record. -/
def hitsFile : Mapping := ⟨header 5 1 ++ hitsRecord, 2 ^ 20⟩

theorem restore_safe_hits : ∃ r db', binfRead epoch hitsFile minutes.db = .ok (r, db') ∧
    (r = 0 ∨ r = 1 ∨ r = -1) := by
  have hmapped : 0 < mapSize 1 := by decide
  have hfits : hitsFile.Fits := by decide
  refine (restore_safe_iff epoch hmapped hfits (by decide) minutes_configured.loaded.wf).mpr
    (.inr (.inr ?_))
  have hcells : hitsFile.cells.drop 16 = [0, 22, 0, 2] ++ (List.replicate 13 0 ++
      (CString.ascii "hits" ++ [0] ++ List.replicate (2 ^ 20 - 38) 0)) := by
    have hlen : hitsFile.bytes.length = 38 := by decide
    rw [Mapping.cells, hlen]
    refine (List.drop_left' (length_header 5 1)).trans ?_
    simp only [List.append_assoc]
    rfl
  have hcount : ofBe ((hitsFile.cells.drop 12).take 4) = 1 := by decide
  rw [hcount, hcells, records_succ_inside rfl rfl (by decide)]
  refine ⟨fun _ => by decide, fun _ => ?_⟩
  rw [ReadableRecords, List.length_replicate]
  decide

/-- A record whose length does not cover its own header. -/
theorem restore_overreads : Configured epoch (CString.ascii minutesFile) minutes ∧
    mapSize 1 = 2 ^ 20 ∧
    binfRead epoch ⟨header 5 1 ++ [0, 0, 0, 2], 2 ^ 20⟩ minutes.db = .error .outOfBounds :=
  ⟨minutes_configured, by decide, rfl⟩

end Counter

end Bolo
