import Bolo.Config.Reference
import Bolo.Config.Loaded
import Bolo.Savefile.Invariant
import Bolo.Savefile.RoundTrip

/-!
# Where the save file is written

`binf_write` maps as many bytes as `save.size` says and copies header, records and trailer to
them one after the other. Nothing compares the position with the size of the mapping.
-/
namespace Bolo

open Library

variable {R Re : Type} [Double R]

/-! ## The copies -/

/-- What `s_write_record` copies: the record header, the body, and each string with its NUL. The
lengths are taken first, so that nothing is copied if a string is missing. -/
def Payload.pieces (p : Payload R) : Except Fault (List (List UInt8)) := do
  let texts ← p.texts.mapM deref
  return (be 2 (p.size % 2 ^ 16) ++ be 2 p.type) :: p.body :: texts.map fun t => t.bytes ++ [0]

/-- The loops of `binf_write` and the trailer. -/
def writeCopies (soFar : Nat) : List (Payload R) → List Copy
  | [] => [⟨soFar, [0, 0]⟩]
  | p :: ps =>
    match p.pieces with
    | .error _ => []
    | .ok pieces => layOut soFar pieces ++ writeCopies (soFar + pieces.flatten.length) ps

/-- The copies `binf_write` makes, `none` where it returns -1. -/
def binfCopies (now dbSize : Int32) (db : Db R Re) : Option (List Copy) :=
  if mapSize dbSize ≤ 0 then none
  else some (⟨0, header now db.payloads.length⟩ :: writeCopies 16 db.payloads)

theorem sWriteRecord_eq (p : Payload R) : sWriteRecord p = p.pieces.map List.flatten := by
  unfold sWriteRecord Payload.pieces
  cases p.texts.mapM deref with
  | error e => rfl
  | ok texts =>
    simp only [ok_bind, pure, Except.pure, Except.map, List.flatten_cons, terminated,
      List.flatMap, List.append_assoc]

theorem pieces_eq {p : Payload R} {ts : List CString} (h : p.texts = ts.map some) :
    ∃ pieces, p.pieces = .ok pieces ∧ pieces.flatten.length = p.size := by
  have hsize := Payload.size_eq h
  refine ⟨_, by rw [Payload.pieces, mapM_deref_eq_ok.mpr h, ok_bind]; rfl, ?_⟩
  simp only [terminated, List.flatMap] at hsize
  simp only [List.flatten_cons, List.length_append, length_be]
  omega

theorem pieces_error {p : Payload R} (h : ∀ ts : List CString, p.texts ≠ ts.map some) :
    ∃ e, p.pieces = .error e := by
  unfold Payload.pieces
  cases hd : p.texts.mapM deref with
  | error e => exact ⟨e, rfl⟩
  | ok ts => exact absurd (mapM_deref_eq_ok.mp hd) (h ts)

/-! ## How far they go -/

omit [Double R] in
instance (p : Payload R) : Decidable p.Complete :=
  decidable_of_iff (p.texts.all Option.isSome = true) (by
    simp [Payload.Complete, Option.isSome_iff_exists])

omit [Double R] in
theorem complete_iff {p : Payload R} : p.Complete ↔ ∃ ts : List CString, p.texts = ts.map some := by
  constructor
  · intro h
    obtain ⟨ts, hts⟩ := exists_mapM_ok_iff.mpr fun t ht => by
      obtain ⟨s, rfl⟩ := h t ht
      exact ⟨s, (rfl : deref (some s) = .ok s)⟩
    exact ⟨ts, mapM_deref_eq_ok.mp hts⟩
  · rintro ⟨ts, hts⟩ t ht
    rw [hts] at ht
    obtain ⟨s, -, rfl⟩ := List.mem_map.mp ht
    exact ⟨s, rfl⟩

/-- The bytes of the records and the trailer, up to a record with a missing string. -/
def recordsSize : List (Payload R) → Nat
  | [] => 2
  | p :: ps => if p.Complete then p.size + recordsSize ps else 0

theorem writeCopies_le_iff (limit : Int) (soFar : Nat) (ps : List (Payload R)) :
    (soFar ≤ limit ∧ ∀ c ∈ writeCopies soFar ps, (c.stop : Int) ≤ limit) ↔
      (soFar + recordsSize ps : Nat) ≤ limit := by
  induction ps generalizing soFar with
  | nil =>
    simp only [writeCopies, recordsSize, List.mem_singleton, forall_eq, Copy.stop,
      List.length_cons, List.length_nil]
    omega
  | cons p ps ih =>
    unfold recordsSize writeCopies
    by_cases hp : p.Complete
    · obtain ⟨ts, hts⟩ := complete_iff.mp hp
      obtain ⟨pieces, hpieces, hlen⟩ := pieces_eq hts
      have hrecord := layOut_le_iff limit soFar pieces
      have hrest := ih (soFar + pieces.flatten.length)
      simp only [hp, hpieces, if_true, List.forall_mem_append]
      rw [← and_assoc, hrecord, hrest, hlen, Nat.add_assoc]
    · obtain ⟨e, he⟩ := pieces_error fun ts hts => hp (complete_iff.mpr ⟨ts, hts⟩)
      simp [hp, he]

theorem binfCopies_le_iff (now dbSize : Int32) (db : Db R Re) (limit : Int) :
    (∀ copies, binfCopies now dbSize db = some copies → ∀ c ∈ copies, (c.stop : Int) ≤ limit) ↔
      mapSize dbSize ≤ 0 ∨ (16 + recordsSize db.payloads : Nat) ≤ limit := by
  unfold binfCopies
  split
  · case isTrue h => simp [h]
  · case isFalse h =>
      have hrecords := writeCopies_le_iff limit 16 db.payloads
      have hstop : (⟨0, header now db.payloads.length⟩ : Copy).stop = 16 := by
        rw [Copy.stop, length_header]
      simp only [Option.some.injEq, forall_eq', List.forall_mem_cons, hstop, h, false_or]
      exact hrecords

/-! ## The mapping they make -/

theorem recordsSize_eq {ps : List (Payload R)} (h : ∀ p ∈ ps, p.Complete) :
    recordsSize ps = (ps.map Payload.size).sum + 2 := by
  induction ps with
  | nil => rfl
  | cons p ps ih =>
    rw [List.forall_mem_cons] at h
    rw [recordsSize, if_pos h.1, ih h.2, List.map_cons, List.sum_cons, Nat.add_assoc]

/-- The copies of complete records hold what is written for them. -/
theorem writeCopies_bytes {ps : List (Payload R)} (h : ∀ p ∈ ps, p.Complete) (soFar : Nat) :
    ∃ records, ps.mapM sWriteRecord = .ok records ∧
      (writeCopies soFar ps).flatMap Copy.bytes = records.flatten ++ [0, 0] ∧
      records.flatten.length + 2 = recordsSize ps := by
  induction ps generalizing soFar with
  | nil => exact ⟨[], rfl, rfl, rfl⟩
  | cons p ps ih =>
    rw [List.forall_mem_cons] at h
    obtain ⟨ts, hts⟩ := complete_iff.mp h.1
    obtain ⟨pieces, hpieces, hlen⟩ := pieces_eq hts
    obtain ⟨records, hmap, hbytes, hsize⟩ := ih h.2 (soFar + pieces.flatten.length)
    refine ⟨pieces.flatten :: records, ?_, ?_, ?_⟩
    · rw [List.mapM_cons, sWriteRecord_eq, hpieces, hmap]
      rfl
    · simp only [writeCopies, hpieces, List.flatMap_append, flatMap_layOut, hbytes,
        List.flatten_cons, List.append_assoc]
    · rw [recordsSize, if_pos h.1, List.flatten_cons, List.length_append, hlen]
      omega

/-- The file is what the copies make it, as long as they stay inside. -/
theorem binfWrite_copies {now dbSize : Int32} {db : Db R Re}
    (h : ∀ p ∈ db.payloads, p.Complete) :
    binfWrite now dbSize db =
      match binfCopies now dbSize db with
      | none => .ok none
      | some copies =>
        if ∀ c ∈ copies, (c.stop : Int) ≤ mapSize dbSize then
          .ok (some ⟨copies.flatMap Copy.bytes, (mapSize dbSize).toNat⟩)
        else .error .outOfBounds := by
  obtain ⟨records, hmap, hbytes, hsize⟩ := writeCopies_bytes h 16
  have hinside := binfCopies_le_iff now dbSize db (mapSize dbSize)
  unfold binfWrite
  unfold binfCopies at hinside ⊢
  by_cases hmapped : mapSize dbSize ≤ 0
  · simp only [if_pos hmapped]
  · have hlen : (header now db.payloads.length ++ (records.flatten ++ [0, 0])).length =
        16 + recordsSize db.payloads := by
      rw [List.length_append, length_header, List.length_append, ← hsize]
      rfl
    simp only [hmapped, if_false, Option.some.injEq, forall_eq', false_or] at hinside ⊢
    simp only [hmap, ok_bind, hlen, hinside, List.flatMap_cons, hbytes]
    rfl

/-! ## The limit -/

/-- Every copy ends below the limit that `save.size` sets, or inside the mapping, if and only if
nothing is mapped or the database is that small. -/
theorem savefile_inside_iff (now dbSize : Int32) (db : Db R Re) :
    ((∀ copies, binfCopies now dbSize db = some copies →
        ∀ c ∈ copies, (c.stop : Int) ≤ dbSize.toInt * 2 ^ 20) ↔
      mapSize dbSize ≤ 0 ∨ (16 + recordsSize db.payloads : Nat) ≤ dbSize.toInt * 2 ^ 20) ∧
    ((∀ copies, binfCopies now dbSize db = some copies →
        ∀ c ∈ copies, (c.stop : Int) ≤ mapSize dbSize) ↔
      mapSize dbSize ≤ 0 ∨ (16 + recordsSize db.payloads : Nat) ≤ mapSize dbSize) :=
  ⟨binfCopies_le_iff .., binfCopies_le_iff ..⟩

section FourMiB

open Reference

/-- An event with a long text. -/
def longEvent (extra : CString) : Pdu :=
  { type := Tag.event.text, frames := [.lit "70", .lit "deploy", extra] }

theorem reactor_longEvent (extra : CString) : ∃ k es,
    reactor (boot journal) (.listener 71 (longEvent extra)) = .ok (k, es) ∧
      k.db.events = [⟨70, some (.lit "deploy"), some extra⟩] ∧
      k.server.config.saveSize = 4 := ⟨_, _, rfl, rfl, rfl⟩

/-- A text of four MiB alone fills the mapping of the default size. -/
theorem longEvent_overruns {extra : CString} (hlen : extra.length = 2 ^ 22) : ∃ k es copies,
    reactor (boot journal) (.listener 71 (longEvent extra)) = .ok (k, es) ∧
      k.server.config.saveSize = 4 ∧ binfCopies 72 4 k.db = some copies ∧
      ∃ c ∈ copies, 4 * 2 ^ 20 < c.stop := by
  obtain ⟨k, es, hrun, hevents, hsize⟩ := reactor_longEvent extra
  have hwf : k.db.Wf := reactor_wf (k := boot journal) journal_configured.loaded.wf hrun
  have hsum := recordsSize_eq hwf.complete
  have hmem : Payload.event ⟨70, some (.lit "deploy"), some extra⟩ ∈ k.db.payloads := by
    simp [Db.payloads, hevents]
  have hle := List.le_sum_of_mem (List.mem_map_of_mem (f := Payload.size) hmem)
  have hlong : 2 ^ 22 < (Payload.event (R := Int)
      ⟨70, some (.lit "deploy"), some extra⟩).size := by
    simp only [Payload.size, Payload.texts, List.map_cons, List.sum_cons, Option.elim_some, hlen]
    omega
  have hfar : ¬(mapSize 4 ≤ 0 ∨ (16 + recordsSize k.db.payloads : Nat) ≤ (4 * 2 ^ 20 : Int)) := by
    have hmapped : mapSize 4 = 2 ^ 22 := by decide
    omega
  rw [← binfCopies_le_iff 72] at hfar
  push Not at hfar
  obtain ⟨copies, hcopies, c, hc, hstop⟩ := hfar
  exact ⟨k, es, copies, hrun, hsize, hcopies, c, hc, by omega⟩

/-- Four MiB of text. -/
@[irreducible] def fourMiB : CString :=
  ⟨List.replicate (2 ^ 22) 120, fun h => absurd (List.eq_of_mem_replicate h) (by decide)⟩

theorem length_fourMiB : fourMiB.length = 2 ^ 22 := by
  rw [fourMiB, CString.length, List.length_replicate]

theorem savefile_overruns : Configured epoch (CString.ascii journalFile) journal ∧ ∃ k es copies,
    reactor (boot journal) (.listener 71 (longEvent fourMiB)) = .ok (k, es) ∧
      k.server.config.saveSize = 4 ∧ binfCopies 72 4 k.db = some copies ∧
      ∃ c ∈ copies, 4 * 2 ^ 20 < c.stop :=
  ⟨journal_configured, longEvent_overruns length_fourMiB⟩

end FourMiB

end Bolo
