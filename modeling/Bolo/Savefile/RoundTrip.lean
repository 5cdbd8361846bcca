import Bolo.Savefile.Format

/-!
# Records survive the save file

Every record that fits its 16-bit length, and whose second string is not empty, is read
back from exactly the bytes it was written to. By induction over the records the reader
stays in step with the writer to the end of the file.
-/
namespace Bolo

open Library

variable {R Re : Type} [Double R]

/-- A `double` after it was saved and restored. -/
def storedDouble (x : R) : R := (readDouble (doubleBytes x) : R × List UInt8).1

/-- What is read back from a record. -/
def Payload.stored : Payload R → Payload R
  | .state s => .state { s with type := none, expiry := 0 }
  | .counter c => .counter { c with window := none }
  | .sample s => .sample { s with
      window := none, min := storedDouble s.min, max := storedDouble s.max,
      sum := storedDouble s.sum, mean := storedDouble s.mean, mean_ := storedDouble s.mean_,
      var := storedDouble s.var, var_ := storedDouble s.var_ }
  | .event ev => .event ev
  | .rate r => .rate { r with window := none }

/-- A record with all of its strings, the second of which must not be empty. -/
def Payload.Full : Payload R → Prop
  | .state s => (∃ t, s.name = some t) ∧ ∃ t, s.summary = some t ∧ t.bytes ≠ []
  | .counter c => ∃ t, c.name = some t
  | .sample s => ∃ t, s.name = some t
  | .event ev => (∃ t, ev.name = some t) ∧ ∃ t, ev.extra = some t ∧ t.bytes ≠ []
  | .rate r => ∃ t, r.name = some t

/-! ## Bodies -/

@[simp] theorem length_be32 (x : Int32) : (be32 x).length = 4 := length_be ..

@[simp] theorem length_be64 (x : UInt64) : (be64 x).length = 8 := length_be ..

@[simp] theorem length_doubleBytes (x : R) : (doubleBytes x).length = 8 := by simp [doubleBytes]

theorem uint_be32 (x : Int32) (l : List UInt8) : uint 4 (be32 x ++ l) = (x.toUInt32.toNat, l) :=
  uint_be (by simpa using x.toUInt32.toNat_lt) l

theorem uint_be64 (x : UInt64) (l : List UInt8) : uint 8 (be64 x ++ l) = (x.toNat, l) :=
  uint_be (by simpa using x.toNat_lt) l

@[simp] theorem toInt32_toUInt32_toNat (x : Int32) : toInt32 x.toUInt32.toNat = x := by
  simp [toInt32]

theorem readDouble_append (x : R) (l : List UInt8) :
    readDouble (doubleBytes x ++ l) = (storedDouble x, l) := by
  have htake : (doubleBytes x ++ l).take 8 = doubleBytes x := List.take_left' (by simp)
  have hdrop : (doubleBytes x ++ l).drop 8 = l := List.drop_left' (by simp)
  have hself : (doubleBytes x).take 8 = doubleBytes x := List.take_of_length_le (by simp)
  simp only [readDouble, storedDouble, htake, hdrop, hself]

omit [Double R] in
theorem readState_body (s : State) :
    readState (be32 s.lastSeen ++ [s.status, s.stale, s.ignore]) =
      { s with type := none, name := none, expiry := 0, summary := none } := by
  simp [readState, uint_be32, uint_byte]

omit [Double R] in
theorem readCounter_body (c : Counter) :
    readCounter (be32 c.lastSeen ++ (be64 c.value ++ [c.ignore])) =
      { c with window := none, name := none } := by
  simp [readCounter, uint_be32, uint_be64, uint_byte]

theorem readSample_body (s : Sample R) :
    (Payload.sample { (readSample (Payload.sample s).body : Sample R) with name := s.name }) =
      (Payload.sample s).stored := by
  simp [Payload.body, Payload.stored, readSample, uint_be32, uint_be64, uint_byte,
    readDouble_append]

omit [Double R] in
theorem readEvent_body (ev : Event) :
    readEvent (be32 ev.timestamp) = { ev with name := none, extra := none } := by
  have h := uint_be32 ev.timestamp []
  rw [List.append_nil] at h
  simp [readEvent, h]

omit [Double R] in
theorem readRate_body (r : Rate) :
    readRate (be32 r.firstSeen ++ (be32 r.lastSeen ++ (be64 r.first ++ (be64 r.last ++
      [r.ignore])))) = { r with window := none, name := none } := by
  simp [readRate, uint_be32, uint_be64, uint_byte]

/-! ## Records -/

theorem readFields_head {len type : Nat} (hlen : len < 2 ^ 16) (htype : type < 2 ^ 16)
    {tail : List UInt8} {size : Nat} (hsize : 4 ≤ size) :
    (sReadRecord ⟨be 2 len ++ (be 2 type ++ tail), size⟩ : Except Fault (Option (Payload R) × _)) =
      readFields (type % 16) len ⟨tail, size - 4⟩ := by
  have htake : Mapping.take ⟨be 2 len ++ (be 2 type ++ tail), size⟩ 4 =
      some (be 2 len ++ be 2 type, ⟨tail, size - 4⟩) := by
    rw [← List.append_assoc]
    exact Mapping.take_append (by simp) hsize
  have hsecond : uint 2 (be 2 type) = (type, []) := by
    simpa using uint_be (w := 2) (by simpa using htype) []
  simp only [sReadRecord, htake, inBounds_some, bind, Except.bind]
  rw [uint_be (by simpa using hlen)]
  simp only [hsecond]

omit [Double R] in
theorem readStrings_append {len size : Nat} {strings rest : List UInt8} {room : Nat}
    (hlen : len = 4 + size + strings.length) (hroom : strings.length ≤ room) :
    readStrings len size ⟨strings ++ rest, room⟩ =
      .ok (strings, ⟨rest, room - strings.length⟩) := by
  have hwant : len - 4 - size = strings.length := by omega
  rw [readStrings, if_neg (by omega), hwant, Mapping.take_append rfl hroom, inBounds_some]

omit [Double R] in
@[simp] theorem ofBytes_terminated (t : CString) (ts : List CString) :
    CString.ofBytes (terminated (t :: ts)) = t := by
  simp [terminated]

omit [Double R] in
theorem secondString_terminated (t u : CString) (hu : u.bytes ≠ []) :
    secondString (terminated [t, u]) = .ok (some u) := by
  have hlen : (terminated [t, u]).length = t.length + u.length + 2 := by
    simp [terminated, CString.length]
    omega
  have hpos : 0 < u.length := List.length_pos_iff.mpr hu
  have hdrop : (terminated [t, u]).drop (t.length + 1) = u.bytes ++ [0] := by
    simp only [terminated, List.flatMap_cons, List.flatMap_nil, List.append_nil]
    exact List.drop_left' (by simp [CString.length])
  rw [secondString, afterName, ofBytes_terminated, hlen, if_neg (by omega), if_pos (by omega),
    hdrop, CString.ofBytes_append]

/-- The strings of a record, once they are known to be there. -/
structure Payload.Strings (p : Payload R) (ts : List CString) : Prop where
  deref : p.texts = ts.map some
  read : ∀ rest room, (p.body ++ terminated ts).length ≤ room →
    readFields p.type p.size ⟨p.body ++ (terminated ts ++ rest), room⟩ =
      .ok (some p.stored, ⟨rest, room - (p.body ++ terminated ts).length⟩)

omit [Double R] in
theorem length_terminated (ts : List CString) :
    (terminated ts).length = (ts.map fun t => t.length + 1).sum := by
  induction ts with
  | nil => rfl
  | cons t ts ih =>
    simp only [terminated] at ih
    simp [terminated, ih, CString.length]
    omega

theorem Payload.size_eq {p : Payload R} {ts : List CString} (h : p.texts = ts.map some) :
    p.size = 4 + p.body.length + (terminated ts).length := by
  rw [Payload.size, h, length_terminated, List.map_map]
  rfl

/-- Body and strings, cut off one after the other. -/
theorem Payload.cut {p : Payload R} {ts : List CString} {n : Nat} (htexts : p.texts = ts.map some)
    (hn : p.body.length = n) (rest : List UInt8) {room : Nat}
    (hroom : (p.body ++ terminated ts).length ≤ room) :
    Mapping.take ⟨p.body ++ (terminated ts ++ rest), room⟩ n =
        some (p.body, ⟨terminated ts ++ rest, room - n⟩) ∧
      readStrings p.size n ⟨terminated ts ++ rest, room - n⟩ =
        .ok (terminated ts, ⟨rest, room - (p.body ++ terminated ts).length⟩) := by
  rw [List.length_append] at hroom ⊢
  refine ⟨Mapping.take_append hn (by omega), ?_⟩
  rw [readStrings_append (hn ▸ Payload.size_eq htexts) (by omega), hn, Nat.sub_sub]

theorem Payload.Full.strings {p : Payload R} (h : p.Full) : ∃ ts, p.Strings ts := by
  cases p with
  | state s =>
    obtain ⟨⟨t, ht⟩, u, hu, hne⟩ := h
    refine ⟨[t, u], by simp [texts, ht, hu], fun rest room hroom => ?_⟩
    obtain ⟨hbody, hstrings⟩ := cut (n := 7) (by simp [texts, ht, hu]) (by simp [body]) rest hroom
    change readFields 1 _ _ = _
    simp only [readFields, hbody, hstrings, inBounds_some, bind, Except.bind, pure, Except.pure,
      secondString_terminated t u hne, ofBytes_terminated]
    simp [body, readState_body, stored, ht, hu]
  | counter c =>
    obtain ⟨t, ht⟩ := h
    refine ⟨[t], by simp [texts, ht], fun rest room hroom => ?_⟩
    obtain ⟨hbody, hstrings⟩ := cut (n := 13) (by simp [texts, ht]) (by simp [body]) rest hroom
    change readFields 2 _ _ = _
    simp only [readFields, hbody, hstrings, inBounds_some, bind, Except.bind, pure, Except.pure,
      ofBytes_terminated]
    simp [body, readCounter_body, stored, ht]
  | sample s =>
    obtain ⟨t, ht⟩ := h
    refine ⟨[t], by simp [texts, ht], fun rest room hroom => ?_⟩
    obtain ⟨hbody, hstrings⟩ := cut (n := 69) (by simp [texts, ht]) (by simp [body]) rest hroom
    change readFields 3 _ _ = _
    simp only [readFields, hbody, hstrings, inBounds_some, bind, Except.bind, pure, Except.pure,
      ofBytes_terminated]
    rw [← readSample_body, ht]
  | event ev =>
    obtain ⟨⟨t, ht⟩, u, hu, hne⟩ := h
    refine ⟨[t, u], by simp [texts, ht, hu], fun rest room hroom => ?_⟩
    obtain ⟨hbody, hstrings⟩ := cut (n := 4) (by simp [texts, ht, hu]) (by simp [body]) rest hroom
    change readFields 4 _ _ = _
    simp only [readFields, hbody, hstrings, inBounds_some, bind, Except.bind, pure, Except.pure,
      secondString_terminated t u hne, ofBytes_terminated]
    simp [body, readEvent_body, stored, ← ht, ← hu]
  | rate r =>
    obtain ⟨t, ht⟩ := h
    refine ⟨[t], by simp [texts, ht], fun rest room hroom => ?_⟩
    obtain ⟨hbody, hstrings⟩ := cut (n := 25) (by simp [texts, ht]) (by simp [body]) rest hroom
    have haccept : afterName (terminated [t]) + 1 ≠ (terminated [t]).length := by
      rw [afterName, ofBytes_terminated, length_terminated]
      simp
    change readFields 5 _ _ = _
    simp only [readFields, hbody, hstrings, inBounds_some, bind, Except.bind, pure, Except.pure,
      ofBytes_terminated, if_neg haccept]
    simp [body, readRate_body, stored, ht]

omit [Double R] in
theorem Payload.type_lt (p : Payload R) : p.type < 16 := by
  cases p <;> simp [type, RECORD_TYPE_STATE, RECORD_TYPE_COUNTER, RECORD_TYPE_SAMPLE,
    RECORD_TYPE_EVENT, RECORD_TYPE_RATE]

/-- Strings are read if none of them is missing. -/
theorem mapM_deref_eq_ok {α : Type} {l : List (Option α)} {ts : List α} :
    l.mapM deref = .ok ts ↔ l = ts.map some := by
  induction l generalizing ts with
  | nil =>
    rw [List.mapM_nil, pure_eq_ok]
    cases ts <;> simp
  | cons t l ih =>
    simp only [List.mapM_cons, bind_eq_ok, pure_eq_ok, deref_eq_ok, ih]
    constructor
    · rintro ⟨a, rfl, b, rfl, rfl⟩
      rfl
    · intro h
      obtain ⟨a, b, rfl, rfl, rfl⟩ := List.map_eq_cons_iff.mp h.symm
      exact ⟨a, rfl, b, rfl, rfl⟩

/-- The bytes of a record, and the record from the bytes. -/
theorem sReadRecord_sWriteRecord {p : Payload R} (hfull : p.Full) (hshort : p.size < 2 ^ 16) :
    ∃ bytes, sWriteRecord p = .ok bytes ∧ bytes.length = p.size ∧
      ∀ rest room, bytes.length ≤ room →
        sReadRecord ⟨bytes ++ rest, room⟩ = .ok (some p.stored, ⟨rest, room - bytes.length⟩) := by
  obtain ⟨ts, htexts, hread⟩ := hfull.strings
  have hsize := Payload.size_eq htexts
  have htype := p.type_lt
  have hderef := mapM_deref_eq_ok.mpr htexts
  refine ⟨be 2 p.size ++ (be 2 p.type ++ (p.body ++ terminated ts)), ?_, ?_, ?_⟩
  · simp only [sWriteRecord, hderef, bind, Except.bind, pure, Except.pure,
      Nat.mod_eq_of_lt hshort]
  · simp only [List.length_append, length_be]
    omega
  · intro rest room hroom
    have hleft : room - 4 - (p.body ++ terminated ts).length =
        room - (be 2 p.size ++ (be 2 p.type ++ (p.body ++ terminated ts))).length := by
      simp only [List.length_append, length_be]
      omega
    simp only [List.length_append, length_be] at hroom
    rw [← hleft, List.append_assoc, List.append_assoc, List.append_assoc,
      readFields_head hshort (by omega) (by omega), Nat.mod_eq_of_lt htype,
      hread rest (room - 4) (by rw [List.length_append]; omega)]

/-! ## The file -/

/-- The reader in step with the writer: it reads the records one after the other, each from
exactly the bytes that were written for it. -/
inductive InStep : List (Payload R) → Mapping → Mapping → Prop
  | done (m : Mapping) : InStep [] m m
  | record {p : Payload R} {ps : List (Payload R)} {bytes rest : List UInt8} {room : Nat}
      {m : Mapping} (hwrite : sWriteRecord p = .ok bytes) (hroom : bytes.length ≤ room)
      (hread : sReadRecord ⟨bytes ++ rest, room⟩ =
        .ok (some p.stored, ⟨rest, room - bytes.length⟩))
      (hrest : InStep ps ⟨rest, room - bytes.length⟩ m) :
      InStep (p :: ps) ⟨bytes ++ rest, room⟩ m

/-- What the writer's loop has written can be read in step. -/
theorem inStep_mapM {ps : List (Payload R)} (hps : ∀ p ∈ ps, p.Full ∧ p.size < 2 ^ 16) :
    ∃ records, ps.mapM sWriteRecord = .ok records ∧
      records.flatten.length = (ps.map Payload.size).sum ∧
      ∀ rest room, records.flatten.length ≤ room →
        InStep ps ⟨records.flatten ++ rest, room⟩ ⟨rest, room - records.flatten.length⟩ := by
  induction ps with
  | nil => exact ⟨[], rfl, rfl, fun rest room _ => .done _⟩
  | cons p ps ih =>
    obtain ⟨hfull, hshort⟩ := hps p (by simp)
    obtain ⟨bytes, hwrite, hlen, hread⟩ := sReadRecord_sWriteRecord hfull hshort
    obtain ⟨records, hmap, hsum, hsteps⟩ := ih fun q hq => hps q (by simp [hq])
    refine ⟨bytes :: records, ?_, by simp [hlen, hsum], fun rest room hroom => ?_⟩
    · simp [List.mapM_cons, hwrite, hmap, bind, Except.bind, pure, Except.pure]
    · simp only [List.flatten_cons, List.length_append] at hroom ⊢
      rw [List.append_assoc, ← Nat.sub_sub]
      exact .record hwrite (by omega) (hread _ room (by omega)) (hsteps rest _ (by omega))

theorem length_header (now : Int32) (count : Nat) : (header now count).length = 16 := by
  simp [header, CString.ascii]

/-- The fields of the header. -/
theorem header_fields (now : Int32) {count : Nat} (h : count < 2 ^ 32) :
    (header now count).take 4 = CString.ascii "BOLO" ∧
      (header now count).drop 4 = be 2 1 ++ (be 2 0 ++ (be32 now ++ be 4 count)) := by
  rw [header, Nat.mod_eq_of_lt h]
  exact ⟨List.take_left' (by simp [CString.ascii]), List.drop_left' (by simp [CString.ascii])⟩

theorem length_le_size (ps : List (Payload R)) : ps.length ≤ (ps.map Payload.size).sum := by
  induction ps with
  | nil => simp
  | cons p ps ih =>
    simp only [List.length_cons, List.map_cons, List.sum_cons, Payload.size]
    omega

/-- A header that counts the records of `db`, these records, and two zero bytes. -/
structure FileOf (now : Int32) (db : Db R Re) (m : Mapping) : Prop where
  count : db.payloads.length < 2 ^ 32
  records : ∃ m₁ room, m.take 16 = some (header now db.payloads.length, m₁) ∧
    InStep db.payloads m₁ ⟨[0, 0], room⟩ ∧ 2 ≤ room

/-- A file is only written where the database fits. -/
theorem binfWrite_fits {now dbSize : Int32} {db : Db R Re} {m : Mapping}
    (hps : ∀ p ∈ db.payloads, p.Full ∧ p.size < 2 ^ 16)
    (h : binfWrite now dbSize db = .ok (some m)) :
    (16 + (db.payloads.map Payload.size).sum + 2 : Nat) ≤ mapSize dbSize ∧
      m.size = (mapSize dbSize).toNat := by
  obtain ⟨records, hmap, hsum, -⟩ := inStep_mapM hps
  unfold binfWrite at h
  split at h
  · simp at h
  · simp only [hmap, bind, Except.bind, pure, Except.pure, List.length_append, length_header,
      hsum] at h
    split at h
    · case isTrue hfit =>
        obtain rfl := Option.some.inj (Except.ok.inj h)
        exact ⟨by simpa [Nat.add_assoc] using hfit, rfl⟩
    · simp at h

/-- A database that fits is written to a file. -/
theorem binfWrite_spec (now : Int32) {dbSize : Int32} {db : Db R Re}
    (hps : ∀ p ∈ db.payloads, p.Full ∧ p.size < 2 ^ 16)
    (hfit : (16 + (db.payloads.map Payload.size).sum + 2 : Nat) ≤ mapSize dbSize) :
    ∃ m, binfWrite now dbSize db = .ok (some m) ∧ FileOf now db m := by
  obtain ⟨records, hmap, hsum, hsteps⟩ := inStep_mapM hps
  have hsize : mapSize dbSize < 2 ^ 31 := Int32.toInt_lt _
  have hcount : db.payloads.length < 2 ^ 32 := by
    have := length_le_size db.payloads
    omega
  have hlen : (header now db.payloads.length ++ (records.flatten ++ [0, 0])).length =
      16 + (db.payloads.map Payload.size).sum + 2 := by
    simp only [List.length_append, length_header, hsum, List.length_cons, List.length_nil]
    omega
  refine ⟨⟨header now db.payloads.length ++ (records.flatten ++ [0, 0]), (mapSize dbSize).toNat⟩,
    ?_, hcount, _, _, Mapping.take_append (length_header now db.payloads.length) (by omega),
    hsteps [0, 0] _ (by omega), by omega⟩
  rw [binfWrite, if_neg (by omega)]
  simp only [hmap, bind, Except.bind, pure, Except.pure, hlen, if_pos hfit]

variable [Pcre Re] [HashOrder]

/-- Merge records one after the other. -/
def restoreAll (clock : Nat → Int32) : Nat → Db R Re → List (Payload R) → Except Fault (Db R Re)
  | _, db, [] => .ok db
  | i, db, p :: ps => do restoreAll clock (i + 1) (← restoreRecord (clock i) db p) ps

/-- The reader's loop merges every record that it reads. -/
theorem InStep.readRecords {ps : List (Payload R)} {m m' : Mapping} (h : InStep ps m m')
    (clock : Nat → Int32) (i : Nat) (db : Db R Re) :
    readRecords clock ps.length i m db =
      (restoreAll clock i db (ps.map Payload.stored)).map fun db' => (some m', db') := by
  induction h generalizing i db with
  | done m => simp [Bolo.readRecords, restoreAll, Except.map]
  | @record p ps _ _ _ _ hwrite hroom hread hrest ih =>
    simp only [List.length_cons, Bolo.readRecords, hread, bind, Except.bind, List.map_cons,
      restoreAll]
    cases restoreRecord (clock i) db p.stored with
    | error e => rfl
    | ok db₁ => exact ih (i + 1) db₁

/-- Reading such a file merges exactly the records it was made of. -/
theorem FileOf.binfRead {now : Int32} {db : Db R Re} {m : Mapping} (h : FileOf now db m)
    (clock : Nat → Int32) (db₀ : Db R Re) :
    binfRead clock m db₀ =
      (restoreAll clock 1 db₀ (db.payloads.map Payload.stored)).map fun db' => (0, db') := by
  obtain ⟨m₁, room, htake, hsteps, hroom⟩ := h.records
  obtain ⟨hmagic, hdrop⟩ := header_fields now h.count
  have hlast : uint 4 (be 4 db.payloads.length) = (db.payloads.length, []) := by
    simpa using uint_be (w := 4) (by simpa using h.count) []
  have htrailer : Mapping.take ⟨[0, 0], room⟩ 2 = some ([0, 0], ⟨[], room - 2⟩) := by
    simpa using Mapping.take_append (l := [0, 0]) rfl hroom
  simp only [Bolo.binfRead, htake, inBounds_some, bind, Except.bind, pure, Except.pure, hmagic,
    hdrop, uint_be (w := 2) (n := 1) (by decide), uint_be (w := 2) (n := 0) (by decide), uint_be32,
    hlast, ne_eq, not_true_eq_false, if_false]
  rw [hsteps.readRecords clock 1 db₀]
  cases restoreAll clock 1 db₀ (db.payloads.map Payload.stored) with
  | error e => rfl
  | ok db' => simp only [Except.map, htrailer, inBounds_some, if_true]

end Bolo
