import Bolo.Config.Reading
import Bolo.Config.Reference
import Bolo.Kernel.Series

/-!
# The map of RRD files

`bolo2rrd` keeps one file for each metric name, under the SHA-1 of the name. The map from
names to files is written as lines of three fields, path, name and type, and a line is cut at
its first and its last blank, so that names may hold blanks. A line whose type is its name is
taken for one of an older format that had no types.
-/
namespace Bolo.Rrd

open Library

/-- The digest of a text, in hexadecimal digits. -/
class Sha1 where
  hex : CString → CString
  length_hex : ∀ s, (hex s).length = 40
  isxdigit_hex : ∀ s, ∀ b ∈ (hex s).bytes, isdigit b || (97 ≤ b && b ≤ 102)

def SLASH : UInt8 := 47

/-- A file of the map. The type is missing once it points into a PDU that was freed. -/
structure RrdFile where
  parents : CString × CString
  abspath : CString
  relpath : CString
  name : CString
  type : Option CString
  deriving DecidableEq

/-- Positions past the end of the digest count as its NUL. -/
def rrdfileParse (root name type sha1 : CString) : RrdFile :=
  let c (i : Nat) : UInt8 := sha1.bytes[i]?.getD 0
  let relpath := CString.ofBytes ([c 0, c 1, SLASH, c 2, c 3, SLASH] ++ sha1.bytes)
  { name := name
    type := some type
    parents := (.ofBytes (root.bytes ++ [SLASH, c 0, c 1]),
      .ofBytes (root.bytes ++ [SLASH, c 0, c 1, SLASH, c 2, c 3]))
    relpath := relpath
    abspath := root ++ .lit "/" ++ relpath ++ .lit ".rrd" }

def rrdFilename [Sha1] (root metric type : CString) : RrdFile :=
  rrdfileParse root metric type (Sha1.hex metric)

/-- The line of a file, without its newline. -/
def RrdFile.line (file : RrdFile) : Except Fault (List UInt8) := do
  let type ← deref file.type
  return file.relpath.bytes ++ SPACE :: (file.name.bytes ++ SPACE :: type.bytes)

/-- What `rrdmap_write` leaves in the file. -/
def rrdmapWrite (map : Table CString RrdFile) : Except Fault (List UInt8) := do
  let lines ← map.entries.mapM fun e => e.2.line
  return lines.flatMap (· ++ [NEWLINE])

/-- `strchr`, and its result overwritten by a NUL: the text before and after. -/
def strchrCut (b : UInt8) (s : CString) : Option (CString × CString) :=
  (cutFirst b s.bytes).map fun r => (.ofBytes r.1, .ofBytes r.2)

/-- `strrchr`, and its result overwritten by a NUL: the text before and after. -/
def strrchrCut (b : UInt8) (s : CString) : Option (CString × CString) :=
  (cutLast b s.bytes).map fun r => (.ofBytes r.1, .ofBytes r.2)

/-- The loop body of `rrdmap_read`. -/
def rrdmapLine (root : CString) (raw : List UInt8) : Option RrdFile := do
  let buf := CString.ofBytes raw
  let buf := ((strrchrCut NEWLINE buf).map Prod.fst).getD buf
  let (buf, type) ← strrchrCut SPACE buf
  let (buf, name) ← strchrCut SPACE buf
  let type := if name = type then .lit "UNDEFINED" else type
  let (_, sha1) ← strrchrCut SLASH buf
  return rrdfileParse root name type sha1

/-- `rrdmap_read`, from the contents of the file; a file that cannot be opened reads as empty. -/
def rrdmapRead [HashOrder] (root : CString) (file : List UInt8) (map : Table CString RrdFile) :
    Table CString RrdFile :=
  (fgetsLines 0 [] file).foldl (fun map raw =>
    match rrdmapLine root raw with
    | some file => hashSet map file.name file
    | none => map) map

/-! ## One line -/

theorem strchrCut_append {b : UInt8} {s t u : CString} (h : u.bytes = s.bytes ++ b :: t.bytes)
    (hs : b ∉ s.bytes) : strchrCut b u = some (s, t) := by
  simp [strchrCut, h, cutFirst_append hs]

theorem strrchrCut_append {b : UInt8} {s t u : CString} (h : u.bytes = s.bytes ++ b :: t.bytes)
    (ht : b ∉ t.bytes) : strrchrCut b u = some (s, t) := by
  simp [strrchrCut, h, cutLast_append _ ht]

/-- A line cut into its fields. -/
theorem rrdmapLine_eq {root dir sha1 name type : CString} {raw : List UInt8}
    (hraw : raw = dir.bytes ++ SLASH :: (sha1.bytes ++ SPACE :: (name.bytes ++ SPACE ::
      (type.bytes ++ [NEWLINE]))))
    (hdir : SPACE ∉ dir.bytes) (hsha1 : SPACE ∉ sha1.bytes) (hslash : SLASH ∉ sha1.bytes)
    (htype : SPACE ∉ type.bytes) :
    rrdmapLine root raw =
      some (rrdfileParse root name (if name = type then .lit "UNDEFINED" else type) sha1) := by
  have h0 : (0 : UInt8) ∉ raw := by
    subst hraw
    simp [dir.nulFree, sha1.nulFree, name.nulFree, type.nulFree, SLASH, SPACE, NEWLINE]
  have hbuf := CString.bytes_ofBytes h0
  -- the fields, from the end of the line to its start
  have hline : strrchrCut NEWLINE (.ofBytes raw) =
      some (dir ++ .ofBytes [SLASH] ++ sha1 ++ .ofBytes [SPACE] ++ name ++ .ofBytes [SPACE] ++ type,
        .ofBytes []) :=
    strrchrCut_append (by rw [hbuf, hraw]; simp; rfl) (by simp [CString.ofBytes])
  have hlast : strrchrCut SPACE
      (dir ++ .ofBytes [SLASH] ++ sha1 ++ .ofBytes [SPACE] ++ name ++ .ofBytes [SPACE] ++ type) =
        some (dir ++ .ofBytes [SLASH] ++ sha1 ++ .ofBytes [SPACE] ++ name, type) :=
    strrchrCut_append (by simp; rfl) htype
  have hfirst : strchrCut SPACE (dir ++ .ofBytes [SLASH] ++ sha1 ++ .ofBytes [SPACE] ++ name) =
      some (dir ++ .ofBytes [SLASH] ++ sha1, name) :=
    strchrCut_append (by simp; rfl) (by simp [hdir, hsha1]; decide)
  have hpath : strrchrCut SLASH (dir ++ .ofBytes [SLASH] ++ sha1) = some (dir, sha1) :=
    strrchrCut_append (by simp; rfl) hslash
  simp [rrdmapLine, hline, hlast, hfirst, hpath]

/-! ## The file -/

section Restore

variable [HashOrder] [Sha1]

/-- The entries of the map were made by `rrd_filename`, for names without a newline and with
lines that fit the buffer of `rrdmap_read`. -/
structure Writable (root : CString) (map : Table CString RrdFile) : Prop where
  created : ∀ name file, map.get? name = some file →
    ∃ κ : Kind, file = rrdFilename root name κ.tag.text
  oneLine : ∀ name file, map.get? name = some file → NEWLINE ∉ name.bytes
  short : ∀ name file line, map.get? name = some file → file.line = .ok line →
    line.length < 8191

/-- What is read back for a file: the type of a metric that is named like it is lost. -/
def RrdFile.restored (file : RrdFile) : RrdFile :=
  { file with type := if file.type = some file.name then some (.lit "UNDEFINED") else file.type }

omit [HashOrder] in
theorem notMem_hex {b : UInt8} (hb : b = SPACE ∨ b = SLASH ∨ b = NEWLINE) (s : CString) :
    b ∉ (Sha1.hex s).bytes := by
  intro h
  have hdigit := Sha1.isxdigit_hex s b h
  rcases hb with rfl | rfl | rfl <;> exact absurd hdigit (by decide)

omit [HashOrder] in
/-- The two directories of a digest are made of its digits. -/
theorem relpath_rrdFilename (root name type : CString) :
    ∃ dir : CString, (rrdFilename root name type).relpath.bytes =
        dir.bytes ++ SLASH :: (Sha1.hex name).bytes ∧
      SPACE ∉ dir.bytes ∧ NEWLINE ∉ dir.bytes := by
  have hspace := notMem_hex (.inl rfl) name
  have hnewline := notMem_hex (.inr (.inr rfl)) name
  have hnul := (Sha1.hex name).nulFree
  have hlen : (Sha1.hex name).bytes.length = 40 := Sha1.length_hex name
  obtain ⟨a, b, c, d, l, hl⟩ : ∃ a b c d l, (Sha1.hex name).bytes = a :: b :: c :: d :: l := by
    match (Sha1.hex name).bytes, hlen with
    | a :: b :: c :: d :: l, _ => exact ⟨a, b, c, d, l, rfl⟩
  rw [hl] at hspace hnewline hnul
  simp only [List.mem_cons, not_or] at hspace hnewline hnul
  have h0 : (0 : UInt8) ∉ [a, b, SLASH, c, d] := by
    simp [SLASH]
    tauto
  have hdir := CString.bytes_ofBytes h0
  refine ⟨.ofBytes [a, b, SLASH, c, d], ?_, ?_, ?_⟩
  · have h1 : (0 : UInt8) ∉ [a, b, SLASH, c, d, SLASH] ++ (Sha1.hex name).bytes := by
      simp [SLASH, (Sha1.hex name).nulFree]
      tauto
    rw [hdir]
    simp only [rrdFilename, rrdfileParse, hl] at h1 ⊢
    exact CString.bytes_ofBytes h1
  · rw [hdir]
    simp only [List.mem_cons, not_or, List.not_mem_nil, not_false_eq_true]
    exact ⟨hspace.1, hspace.2.1, by decide, hspace.2.2.1, hspace.2.2.2.1, trivial⟩
  · rw [hdir]
    simp only [List.mem_cons, not_or, List.not_mem_nil, not_false_eq_true]
    exact ⟨hnewline.1, hnewline.2.1, by decide, hnewline.2.2.1, hnewline.2.2.2.1, trivial⟩

omit [HashOrder] in
/-- The line of a file that `rrd_filename` made is read back. -/
theorem line_rrdFilename (root : CString) {name : CString} (hname : NEWLINE ∉ name.bytes)
    (κ : Kind) :
    ∃ line, (rrdFilename root name κ.tag.text).line = .ok line ∧ NEWLINE ∉ line ∧
      rrdmapLine root (line ++ [NEWLINE]) = some (rrdFilename root name κ.tag.text).restored := by
  obtain ⟨dir, hpath, hspace, hnewline⟩ := relpath_rrdFilename root name κ.tag.text
  have htype : SPACE ∉ κ.tag.text.bytes ∧ NEWLINE ∉ κ.tag.text.bytes := by
    cases κ <;> decide
  have hsha1 := notMem_hex (.inr (.inr rfl)) name
  refine ⟨_, rfl, ?_, ?_⟩
  · rw [hpath]
    have hsep : NEWLINE ≠ SLASH ∧ NEWLINE ≠ SPACE := by decide
    simp [rrdFilename, rrdfileParse, hnewline, hsha1, hname, htype.2, hsep]
  · have hraw : (rrdFilename root name κ.tag.text).relpath.bytes ++ SPACE :: (name.bytes ++
        SPACE :: κ.tag.text.bytes) ++ [NEWLINE] = dir.bytes ++ SLASH ::
          ((Sha1.hex name).bytes ++ SPACE :: (name.bytes ++ SPACE ::
            (κ.tag.text.bytes ++ [NEWLINE]))) := by
      simp [hpath]
    refine (rrdmapLine_eq hraw hspace (notMem_hex (.inl rfl) name)
      (notMem_hex (.inr (.inl rfl)) name) htype.1).trans ?_
    simp only [rrdFilename, rrdfileParse, RrdFile.restored, Option.some.injEq, eq_comm (a := name)]
    split <;> rfl

/-- The map as it is read back. -/
theorem rrdmapRead_rrdmapWrite {root : CString} {map : Table CString RrdFile}
    (h : Writable root map) : ∃ file, rrdmapWrite map = .ok file ∧
      ∀ name, (rrdmapRead root file .empty).get? name =
        (map.get? name).map RrdFile.restored := by
  -- the lines of the entries, and what each is read back as
  have hentry : ∀ e ∈ map.entries, ∃ line, e.2.line = .ok line ∧ NEWLINE ∉ line ∧
      line.length < 8191 ∧ e.2.name = e.1 ∧
      rrdmapLine root (line ++ [NEWLINE]) = some e.2.restored := by
    intro e he
    have hget := Table.get?_of_mem (k := e.1) (v := e.2) he
    obtain ⟨κ, hκ⟩ := h.created e.1 e.2 hget
    obtain ⟨line, hline, hone, hread⟩ := line_rrdFilename root (h.oneLine _ _ hget) κ
    rw [← hκ] at hline hread
    exact ⟨line, hline, hone, h.short _ _ _ hget hline, by rw [hκ]; rfl, hread⟩
  choose! line hline hone hshort hname hread using hentry
  refine ⟨(map.entries.map line).flatMap (· ++ [NEWLINE]), ?_, fun name => ?_⟩
  · rw [rrdmapWrite, mapM_eq_ok hline]
    rfl
  · have hlines : fgetsLines 0 [] ((map.entries.map line).flatMap (· ++ [NEWLINE])) =
        ended (map.entries.map line) :=
      fgetsLines_flatMap (List.forall_mem_map.mpr hone) (List.forall_mem_map.mpr hshort)
    have hfold : rrdmapRead root ((map.entries.map line).flatMap (· ++ [NEWLINE])) .empty =
        map.entries.foldl (fun t e => hashSet t e.1 e.2.restored) .empty := by
      rw [rrdmapRead, hlines, ended, List.map_map, List.foldl_map]
      refine List.foldl_ext _ _ _ fun t e he => ?_
      simp only [Function.comp_apply, hread e he]
      rw [← hname e he]
      rfl
    rw [hfold, get?_foldl_hashSet RrdFile.restored map.nodup, Table.get?_empty, Option.or_none,
      Table.get?, Option.map_map]
    rfl

omit [HashOrder] [Sha1] in
theorem RrdFile.restored_eq_self_iff {file : RrdFile}
    (h : file.type ≠ some (.lit "UNDEFINED")) :
    file.restored = file ↔ file.type ≠ some file.name := by
  constructor
  · intro heq htype
    have hnew := congrArg RrdFile.type heq
    simp only [restored, htype, if_true] at hnew
    exact h (htype.trans hnew.symm)
  · intro htype
    simp [restored, htype]

/-- The map comes back from its file exactly if no metric is named like its type. -/
theorem map_restored_iff {root : CString} {map : Table CString RrdFile} (h : Writable root map) :
    ∃ file, rrdmapWrite map = .ok file ∧
      ((∀ name, (rrdmapRead root file .empty).get? name = map.get? name) ↔
        ∀ name entry, map.get? name = some entry → entry.type ≠ some name) := by
  obtain ⟨file, hwrite, hread⟩ := rrdmapRead_rrdmapWrite h
  refine ⟨file, hwrite, forall_congr' fun name => ?_⟩
  rw [hread name]
  cases hget : map.get? name with
  | none => simp
  | some entry =>
    obtain ⟨κ, hκ⟩ := h.created name entry hget
    have hname : entry.name = name := by rw [hκ]; rfl
    have htype : entry.type ≠ some (.lit "UNDEFINED") := by
      have hne : ∀ κ : Kind, κ.tag.text ≠ .lit "UNDEFINED" := by decide
      rw [hκ]
      exact fun heq => hne κ (Option.some.inj heq)
    have hself := RrdFile.restored_eq_self_iff htype
    rw [hname] at hself
    simpa using hself

end Restore

section Examples

open Reference

/-- A digit for the length of a text. -/
def digest (s : CString) : UInt8 := 48 + UInt8.ofNat (s.length % 10)

theorem isdigit_digest (s : CString) : isdigit (digest s) = true := by
  have hall : ∀ n < 10, isdigit (48 + UInt8.ofNat n) = true := by decide
  exact hall _ (Nat.mod_lt _ (by omega))

scoped instance : Sha1 where
  hex s := ⟨List.replicate 40 (digest s), fun h => by
    have hdigit := isdigit_digest s
    rw [← List.eq_of_mem_replicate h] at hdigit
    exact absurd hdigit (by decide)⟩
  length_hex s := List.length_replicate
  isxdigit_hex s b hb := by
    rw [List.eq_of_mem_replicate hb, isdigit_digest]
    rfl

def metrics (name : String) (κ : Kind) : Table CString RrdFile :=
  hashSet .empty (.lit name) (rrdFilename (.lit "/rrd") (.lit name) κ.tag.text)

theorem get?_metrics {name : String} {κ : Kind} {n : CString} {file : RrdFile}
    (h : (metrics name κ).get? n = some file) :
    n = .lit name ∧ file = rrdFilename (.lit "/rrd") (.lit name) κ.tag.text := by
  rw [metrics, get?_hashSet] at h
  split at h
  · exact ⟨‹_›, (Option.some.inj h).symm⟩
  · cases h

theorem writable_metrics {name : String} {κ : Kind} (hname : NEWLINE ∉ (CString.lit name).bytes)
    (hshort : ∀ line, (rrdFilename (.lit "/rrd") (.lit name) κ.tag.text).line = .ok line →
      line.length < 8191) : Writable (.lit "/rrd") (metrics name κ) := by
  refine ⟨fun n file h => ?_, fun n file h => ?_, fun n file line h hline => ?_⟩
  · obtain ⟨rfl, rfl⟩ := get?_metrics h
    exact ⟨κ, rfl⟩
  · obtain ⟨rfl, rfl⟩ := get?_metrics h
    exact hname
  · obtain ⟨rfl, rfl⟩ := get?_metrics h
    exact hshort line hline

theorem map_restored_disk : ∃ file, rrdmapWrite (metrics "disk free" .sample) = .ok file ∧
    ∀ name, (rrdmapRead (.lit "/rrd") file .empty).get? name =
      (metrics "disk free" .sample).get? name := by
  have hwritable : Writable (.lit "/rrd") (metrics "disk free" .sample) := by
    refine writable_metrics (by decide) fun line hline => ?_
    obtain rfl := Except.ok.inj hline
    decide
  obtain ⟨file, hwrite, hiff⟩ := map_restored_iff hwritable
  refine ⟨file, hwrite, hiff.mpr fun name file h => ?_⟩
  obtain ⟨rfl, rfl⟩ := get?_metrics h
  decide

/-- A counter named COUNTER comes back as a file of no type. -/
theorem type_lost : Writable (.lit "/rrd") (metrics "COUNTER" .counter) ∧
    ∃ file, rrdmapWrite (metrics "COUNTER" .counter) = .ok file ∧
      ((metrics "COUNTER" .counter).get? (.lit "COUNTER")).map RrdFile.type =
        some (some (.lit "COUNTER")) ∧
      ((rrdmapRead (.lit "/rrd") file .empty).get? (.lit "COUNTER")).map RrdFile.type =
        some (some (.lit "UNDEFINED")) := by
  have hwritable : Writable (.lit "/rrd") (metrics "COUNTER" .counter) := by
    refine writable_metrics (by decide) fun line hline => ?_
    obtain rfl := Except.ok.inj hline
    decide
  obtain ⟨file, hwrite, hread⟩ := rrdmapRead_rrdmapWrite hwritable
  refine ⟨hwritable, file, hwrite, by decide +kernel, ?_⟩
  rw [hread]
  decide +kernel

end Examples

end Bolo.Rrd
