import Bolo.Config.Reference
import Bolo.Kernel.KeysFile

/-!
# The keys file

Lines that keep the scanner of `read_keys` within them are read independently of each other,
and those that `save_keys` writes are of this kind: the store comes back without its deleted
keys. A blank line, or a last line that ends with its first word, is read on into what earlier
lines have left in the buffer.
-/
namespace Bolo

open Library

/-! ## Independent lines -/

/-- A line is read as it stands, whatever was read before it, if and only if it is
self-contained, and a file of such lines sets what they say, in order. -/
theorem keys_lines_iff [HashOrder] {file : List UInt8}
    (hshort : ∀ l ∈ file.splitOn NEWLINE, l.length < 8191) :
    (∀ line ∈ linesOf file,
      ((∀ buf keys, ∃ buf' keys', readKeysLine buf keys line = .ok (buf', keys') ∧
        Sets line keys keys') ↔ SelfContained line)) ∧
    ((∀ line ∈ linesOf file, SelfContained line) → ∀ buf keys, ∃ keys',
      readKeys buf keys file = .ok keys' ∧ SetsAll keys (linesOf file) keys') := by
  have hlines := isLine_linesOf hshort
  refine ⟨fun line hline => ⟨?_, ?_⟩, fun h buf keys => ?_⟩
  · exact selfContained_of_sets (hlines line hline)
  · exact fun h => h.sets (hlines line hline)
  · rw [readKeys, fgetsLines_linesOf hshort]
    exact readKeysLines_sets hlines h buf keys

section Lines

open Reference

/-- A comment, a key, and a key in a last line without newline. -/
def keysText : List UInt8 := CString.ascii "# keys\na = 1\n  b\t=x y"

theorem linesOf_keysText : linesOf keysText =
    [CString.ascii "# keys\n", CString.ascii "a = 1\n", CString.ascii "  b\t=x y"] := by
  decide +kernel

theorem keys_lines_text : ∃ keys, readKeys (.zero _) .empty keysText = .ok keys ∧
    SetsAll .empty (linesOf keysText) keys := by
  refine (keys_lines_iff ?_).2 ?_ (.zero _) .empty
  · have hparts : keysText.splitOn NEWLINE =
        [CString.ascii "# keys", CString.ascii "a = 1", CString.ascii "  b\t=x y"] := by
      decide +kernel
    simp only [hparts, List.forall_mem_cons, List.not_mem_nil, false_implies, implies_true]
    decide +kernel
  · rw [linesOf_keysText]
    simp only [List.forall_mem_cons, List.not_mem_nil, false_implies, implies_true, and_true]
    refine ⟨.inl (by decide +kernel), .inr ⟨CString.ascii "a", SPACE, CString.ascii "= 1\n", ?_⟩,
      .inr ⟨CString.ascii "b", 9, CString.ascii "=x y", ?_⟩⟩
    · exact ⟨by decide +kernel, by decide, by decide, fun _ => by decide +kernel⟩
    · exact ⟨by decide +kernel, by decide, by decide, fun _ => by decide +kernel⟩

/-- No line of the file says anything, and yet the empty key is set: the second line is read on
into the comment. -/
theorem blank_line_sets :
    (readKeys (.zero _) .empty (CString.ascii "# =evil\n\n")).map (Table.get? · (.lit "")) =
        .ok (some (some (.lit "evil"))) ∧
      ∀ line ∈ linesOf (CString.ascii "# =evil\n\n"), ∀ k v, ¬Says line k v := by
  refine ⟨by decide +kernel, ?_⟩
  have hlines : linesOf (CString.ascii "# =evil\n\n") =
      [CString.ascii "# =evil\n", CString.ascii "\n"] := by
    decide +kernel
  rw [hlines]
  simp only [List.forall_mem_cons, List.not_mem_nil, false_implies, implies_true, and_true]
  refine ⟨fun k v => not_says_comment (by decide +kernel), fun k v h => ?_⟩
  obtain ⟨lead, g, gap, t, hword, -⟩ := h.firstWord
  have htext : (CString.ascii "\n").dropWhile isspace = [] := by decide +kernel
  rw [hword.text] at htext
  simp at htext

end Lines

/-! ## What was saved -/

/-- An entry that a line of the file can carry. -/
structure FitsLine (k v : CString) : Prop where
  key_ne : k.bytes ≠ []
  key_solid : ∀ b ∈ k.bytes, isspace b = false
  key_hash : k.bytes.head? ≠ some (chr '#')
  value_newline : NEWLINE ∉ v.bytes
  value_start : ∀ b ∈ v.bytes.head?, isspace b = false
  short : k.length + v.length + 4 ≤ 8191

instance (k v : CString) : Decidable (FitsLine k v) :=
  decidable_of_iff (k.bytes ≠ [] ∧ Solid k.bytes ∧ k.bytes.head? ≠ some (chr '#') ∧
      NEWLINE ∉ v.bytes ∧ v.bytes.head?.all (!isspace ·) ∧ k.length + v.length + 4 ≤ 8191)
    ⟨fun ⟨hne, hsolid, hhash, hnewline, hstart, hshort⟩ => ⟨hne, fun b hb => (hsolid b hb).2,
        hhash, hnewline, fun b hb => by simpa [show v.bytes.head? = some b from hb] using hstart,
        hshort⟩,
      fun h => ⟨h.key_ne, solid_bytes k h.key_solid, h.key_hash, h.value_newline,
        by cases hv : v.bytes.head? <;> simp_all [h.value_start], h.short⟩⟩

/-- The line of an entry, without its newline. -/
def entryText (e : CString × CString) : List UInt8 := e.1.bytes ++ CString.ascii " = " ++ e.2.bytes

theorem keyLine_eq (e : CString × CString) : keyLine e = entryText e ++ [NEWLINE] := rfl

theorem newline_of_isspace {b : UInt8} (h : isspace b = false) : NEWLINE ≠ b := by
  rintro rfl
  simp [isspace, NEWLINE] at h

namespace FitsLine

variable {k v : CString} (h : FitsLine k v)
include h

theorem entry : Says (keyLine (k, v)) k v where
  shape := ⟨[], [SPACE], [SPACE], [NEWLINE], by simp [keyLine_eq, entryText]; rfl, by simp [Blank],
    by decide, by simp, by decide, .inr rfl⟩
  key_ne := h.key_ne
  key_solid := h.key_solid
  key_hash := h.key_hash
  value_newline := h.value_newline
  value_start := h.value_start

theorem newline_notMem : NEWLINE ∉ entryText (k, v) := by
  have hkey : NEWLINE ∉ k.bytes := fun hmem => newline_of_isspace (h.key_solid _ hmem) rfl
  have hequals : NEWLINE ∉ CString.ascii " = " := by decide
  simp only [entryText, List.mem_append, not_or]
  exact ⟨⟨hkey, hequals⟩, h.value_newline⟩

theorem length_lt : (entryText (k, v)).length < 8191 := by
  have hequals : (CString.ascii " = ").length = 3 := by decide
  have hshort := h.short
  simp only [entryText, List.length_append, hequals, CString.length] at hshort ⊢
  omega

end FitsLine

/-- A comment with a number in it. -/
def commentText (before : String) (n : Nat) (after : String) : List UInt8 :=
  CString.ascii before ++ (decimal n).bytes ++ CString.ascii after

theorem commentText_spec {n : Nat} (hn : n < 2 ^ 64) {before after : String}
    (hb : (CString.ascii before).length ≤ 20 ∧ NEWLINE ∉ CString.ascii before ∧
      (CString.ascii before).head? = some (chr '#'))
    (ha : (CString.ascii after).length ≤ 20 ∧ NEWLINE ∉ CString.ascii after) :
    NEWLINE ∉ commentText before n after ∧ (commentText before n after).length < 8191 ∧
      ((commentText before n after ++ [NEWLINE]).dropWhile isspace).head? = some (chr '#') := by
  have hdigits : NEWLINE ∉ (decimal n).bytes := fun h => by
    simpa [isdigit, NEWLINE] using isdigit_decimal n NEWLINE h
  have hlen := length_decimal_le (n := n) (e := 20) (by decide) (by omega)
  refine ⟨?_, ?_, ?_⟩
  · simp only [commentText, List.mem_append, not_or]
    exact ⟨⟨hb.2.1, hdigits⟩, ha.2⟩
  · simp only [commentText, List.length_append]
    omega
  · obtain ⟨l, hl⟩ := List.head?_eq_some_iff.mp hb.2.2
    simp only [commentText, hl, List.cons_append]
    rw [List.dropWhile_cons_of_neg (by decide)]
    rfl

/-- Lines of entries set them one after the other. -/
theorem setsAll_entries [HashOrder] {pairs : List (CString × CString)}
    (hpairs : ∀ e ∈ pairs, FitsLine e.1 e.2) {footer : List UInt8}
    (hfooter : (footer.dropWhile isspace).head? = some (chr '#'))
    {keys keys' : Table CString (Option CString)}
    (h : SetsAll keys (pairs.map keyLine ++ [footer]) keys') :
    keys' = pairs.foldl (fun t e => hashSet t e.1 (some e.2)) keys := by
  induction pairs generalizing keys with
  | nil =>
    cases h with
    | cons hline hrest =>
      cases hrest
      exact hline.of_comment hfooter
  | cons e pairs ih =>
    rw [List.forall_mem_cons] at hpairs
    cases h with
    | cons hline hrest =>
      obtain rfl := hline.of_entry hpairs.1.entry
      exact ih hpairs.2 hrest

/-- The lines of a saved store, without their newlines. -/
def savedLines (ms : UInt64) (keys : Table CString (Option CString)) : List (List UInt8) :=
  commentText "# generated " ms.toNat "" :: ((livePairs keys.entries).map entryText ++
    [commentText "# " ((livePairs keys.entries).length % 2 ^ 64) " keys"])

theorem saveKeys_lines (ms : UInt64) (keys : Table CString (Option CString)) :
    (saveKeys ms keys).bytes = (savedLines ms keys).flatMap (· ++ [NEWLINE]) := by
  have hlit : CString.ascii "" = [] ∧ CString.ascii "\n" = [NEWLINE] ∧
      CString.ascii " keys\n" = CString.ascii " keys" ++ [NEWLINE] := by decide
  rw [saveKeys_bytes]
  simp only [savedLines, commentText, List.flatMap_cons, List.flatMap_append, List.flatMap_nil,
    List.flatMap_map, hlit, List.append_assoc, List.append_nil]
  rfl

/-- The live entries, found by key. -/
theorem find?_livePairs (keys : Table CString (Option CString)) (k : CString) :
    ((livePairs keys.entries).find? (·.1 = k)).map (fun e => some e.2) =
      (keys.get? k).filter Option.isSome := by
  cases hfind : (livePairs keys.entries).find? (·.1 = k) with
  | some e =>
    obtain rfl : e.1 = k := by simpa using List.find?_some hfind
    rw [mem_livePairs.mp (List.mem_of_find?_eq_some hfind)]
    rfl
  | none =>
    rcases hget : keys.get? k with _ | _ | v
    · rfl
    · rfl
    · have hmem := List.find?_eq_none.mp hfind (k, v) (mem_livePairs.mpr hget)
      simp at hmem

section Saved

variable (ms : UInt64) {keys : Table CString (Option CString)}

theorem header_spec : NEWLINE ∉ commentText "# generated " ms.toNat "" ∧
    (commentText "# generated " ms.toNat "").length < 8191 ∧
    ((commentText "# generated " ms.toNat "" ++ [NEWLINE]).dropWhile isspace).head? =
      some (chr '#') :=
  commentText_spec ms.toNat_lt (by decide) (by decide)

theorem footer_spec (n : Nat) : NEWLINE ∉ commentText "# " (n % 2 ^ 64) " keys" ∧
    (commentText "# " (n % 2 ^ 64) " keys").length < 8191 ∧
    ((commentText "# " (n % 2 ^ 64) " keys" ++ [NEWLINE]).dropWhile isspace).head? =
      some (chr '#') :=
  commentText_spec (Nat.mod_lt _ (by decide)) (by decide) (by decide)

variable (h : ∀ k v, keys.get? k = some (some v) → FitsLine k v)
include h

theorem fitsLine_livePairs : ∀ e ∈ livePairs keys.entries, FitsLine e.1 e.2 :=
  fun e he => h e.1 e.2 (mem_livePairs.mp he)

/-- Every saved line is short and self-contained. -/
theorem savedLines_spec : ∀ x ∈ savedLines ms keys, NEWLINE ∉ x ∧ x.length < 8191 ∧
    SelfContained (x ++ [NEWLINE]) := by
  obtain ⟨hnewline, hlen, hhash⟩ := header_spec ms
  obtain ⟨hnewline', hlen', hhash'⟩ := footer_spec (livePairs keys.entries).length
  simp only [savedLines, List.forall_mem_cons, List.forall_mem_append, List.forall_mem_map]
  refine ⟨⟨hnewline, hlen, .inl hhash⟩, fun e he => ?_, ⟨hnewline', hlen', .inl hhash'⟩, by simp⟩
  have hentry := fitsLine_livePairs h e he
  exact ⟨hentry.newline_notMem, hentry.length_lt, hentry.entry.selfContained⟩

theorem setsAll_savedLines [HashOrder] {keys' : Table CString (Option CString)}
    (hsets : SetsAll .empty (ended (savedLines ms keys)) keys') :
    keys' = (livePairs keys.entries).foldl (fun t e => hashSet t e.1 (some e.2)) .empty := by
  obtain ⟨-, -, hhash⟩ := header_spec ms
  obtain ⟨-, -, hhash'⟩ := footer_spec (livePairs keys.entries).length
  have hlines : ended (savedLines ms keys) =
      (commentText "# generated " ms.toNat "" ++ [NEWLINE]) ::
        ((livePairs keys.entries).map keyLine ++
          [commentText "# " ((livePairs keys.entries).length % 2 ^ 64) " keys" ++
            [NEWLINE]]) := by
    simp only [ended, savedLines, List.map_cons, List.map_append, List.map_map, List.map_nil]
    rfl
  rw [hlines] at hsets
  cases hsets with
  | cons hheader hrest =>
    obtain rfl := hheader.of_comment hhash
    exact setsAll_entries (fitsLine_livePairs h) hhash' hrest

/-- A store whose entries fit into lines is read back into an empty one without its deleted
keys, whatever the buffer holds at first. -/
theorem keys_round_trip [HashOrder] (buf : Buffer LINE_BUF_SIZE) : ∃ keys',
    readKeys buf .empty (saveKeys ms keys).bytes = .ok keys' ∧
      ∀ k, keys'.get? k = (keys.get? k).filter Option.isSome := by
  have hlines := savedLines_spec ms h
  have hread : fgetsLines 0 [] (saveKeys ms keys).bytes = ended (savedLines ms keys) := by
    rw [saveKeys_lines]
    exact fgetsLines_flatMap (fun x hx => (hlines x hx).1) fun x hx => (hlines x hx).2.1
  have hisLine : ∀ line ∈ ended (savedLines ms keys), IsLine line :=
    List.forall_mem_map.mpr fun x hx => ⟨x, (hlines x hx).1, (hlines x hx).2.1, .inr rfl⟩
  have hself : ∀ line ∈ ended (savedLines ms keys), SelfContained line :=
    List.forall_mem_map.mpr fun x hx => (hlines x hx).2.2
  obtain ⟨keys', hkeys', hsets⟩ := readKeysLines_sets hisLine hself buf .empty
  refine ⟨keys', by rw [readKeys, hread, hkeys'], fun k => ?_⟩
  rw [setsAll_savedLines ms h hsets,
    get?_foldl_hashSet (fun v => some v) (livePairs_nodup keys), Table.get?_empty, Option.or_none,
    find?_livePairs]

end Saved

section Stored

open Reference

/-- A value, a deleted key, and an empty value. -/
def stored : Table CString (Option CString) :=
  hashSet (hashSet (hashSet .empty (.lit "a") (some (.lit "= 1 #"))) (.lit "b") none)
    (.lit "c") (some (.lit ""))

theorem keys_round_trip_stored : ∃ keys,
    readKeys (.zero _) .empty (saveKeys 1000 stored).bytes = .ok keys ∧
      keys.get? (.lit "a") = some (some (.lit "= 1 #")) ∧ keys.get? (.lit "b") = none ∧
      keys.get? (.lit "c") = some (some (.lit "")) := by
  have hfits : ∀ k v, stored.get? k = some (some v) → FitsLine k v := by
    intro k v hget
    simp only [stored, get?_hashSet, Table.get?_empty] at hget
    split at hget
    · case isTrue hk =>
        obtain rfl : CString.lit "" = v := by simpa using hget
        rw [hk]
        decide
    · split at hget
      · simp at hget
      · split at hget
        · case isTrue hk =>
            obtain rfl : CString.lit "= 1 #" = v := by simpa using hget
            rw [hk]
            decide
        · simp at hget
  obtain ⟨keys, hread, hget⟩ := keys_round_trip 1000 hfits (.zero _)
  exact ⟨keys, hread, (hget _).trans (by decide), (hget _).trans (by decide),
    (hget _).trans (by decide)⟩

end Stored

end Bolo
