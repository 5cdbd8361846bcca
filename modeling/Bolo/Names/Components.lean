import Bolo.Library.Lines
import Bolo.Names.Name

/-!
# Components of a name

The parser reads one component at a time, and what it makes of one does not depend on the
others. A component that is not `*` and the part it becomes determine each other. So
parsing is splitting at the commas, and printing is joining.
-/
namespace Bolo

open Library

/-! ## One component -/

/-- The text of a part. -/
def Part.text (p : Part) : List UInt8 :=
  p.name.elim [] CString.bytes ++ EQUALS :: p.value.elim [] CString.bytes

def Part.key (p : Part) : List UInt8 := p.name.elim [] CString.bytes

/-- The part that is read from the component `k=v`. -/
def Part.of (k v : List UInt8) : Part :=
  { name := some (.ofBytes k), value := some (.ofBytes v), wildcard := v = [] ∨ v = [STAR] }

def Part.lit (k v : String) : Part := .of (CString.ascii k) (CString.ascii v)

/-- A part as the parser makes it. An empty value counts as a wildcard. -/
structure Part.Parsed (p : Part) : Prop where
  name : ∃ k, p.name = some k ∧ EQUALS ∉ k.bytes ∧ COMMA ∉ k.bytes
  value : ∃ v, p.value = some v ∧ COMMA ∉ v.bytes ∧
    p.wildcard = decide (v.bytes = [] ∨ v.bytes = [STAR])

namespace Name

/-- What a component is read as: nothing valid, a `*`, or a part. -/
def component (c : List UInt8) : Option (Option Part) :=
  if EQUALS ∈ c then
    some (some (.of (c.takeWhile (· ≠ EQUALS)) (c.drop ((c.takeWhile (· ≠ EQUALS)).length + 1))))
  else if c = [STAR] then some none
  else none

def parseComponents : List (List UInt8) → Option (List Part × Bool)
  | [] => some ([], false)
  | c :: cs => do
    let part ← component c
    (parseComponents cs).map fun r => (part.toList ++ r.1, part.isNone || r.2)

theorem takeWhile_key {k : List UInt8} (hk : EQUALS ∉ k) (l : List UInt8) :
    (k ++ EQUALS :: l).takeWhile (· ≠ EQUALS) = k := by
  rw [List.takeWhile_append_of_pos fun c hc => by simpa using ne_of_mem_of_not_mem hc hk]
  simp

theorem component_part {k : List UInt8} (hk : EQUALS ∉ k) (v : List UInt8) :
    component (k ++ EQUALS :: v) = some (some (.of k v)) := by
  rw [component, if_pos (by simp), takeWhile_key hk, ← List.drop_drop, List.drop_left]
  rfl

theorem component_bare {c : List UInt8} (he : EQUALS ∉ c) :
    component c = if c = [STAR] then some none else none := if_neg he

theorem component_text {p : Part} (h : p.Parsed) : component p.text = some (some p) := by
  obtain ⟨⟨k, hname, hk, -⟩, v, hvalue, -, hwild⟩ := h
  rw [Part.text, hname, hvalue, Option.elim_some, Option.elim_some, component_part hk]
  cases p
  simp_all [Part.of]

theorem component_eq_part {c : List UInt8} {p : Part} (h0 : 0 ∉ c) (hc : COMMA ∉ c)
    (h : component c = some (some p)) : p.Parsed ∧ p.text = c := by
  by_cases he : EQUALS ∈ c
  · obtain ⟨k, v, rfl, hk⟩ := List.eq_append_cons_of_mem he
    simp only [List.mem_append, List.mem_cons, not_or] at h0 hc
    rw [component_part hk] at h
    obtain rfl := Option.some.inj (Option.some.inj h)
    have hkb : (CString.ofBytes k).bytes = k := CString.bytes_ofBytes h0.1
    have hvb : (CString.ofBytes v).bytes = v := CString.bytes_ofBytes h0.2.2
    refine ⟨⟨⟨_, rfl, hkb.symm ▸ hk, hkb.symm ▸ hc.1⟩, _, rfl, hvb.symm ▸ hc.2.2, ?_⟩, ?_⟩
    · simp [Part.of, hvb]
    · simp [Part.text, Part.of, hkb, hvb]
  · rw [component, if_neg he] at h
    split at h <;> simp at h

theorem component_eq_star {c : List UInt8} : component c = some none ↔ c = [STAR] := by
  constructor
  · intro h
    by_cases he : EQUALS ∈ c
    · simp [component, he] at h
    · by_contra hc
      simp [component_bare he, hc] at h
  · rintro rfl
    rfl

/-! ## The loop -/

section Loop

variable {slots : Nat} (hs : slots ≠ 0) {x k v : List UInt8}

theorem takeWhile_bare (hc : COMMA ∉ x) (he : EQUALS ∉ x) (l : List UInt8) :
    (x ++ l).takeWhile (fun c => c ≠ EQUALS && c ≠ COMMA) =
      x ++ l.takeWhile (fun c => c ≠ EQUALS && c ≠ COMMA) := by
  refine List.takeWhile_append_of_pos fun c hmem => ?_
  simp [ne_of_mem_of_not_mem hmem hc, ne_of_mem_of_not_mem hmem he]

theorem dropWhile_bare (hc : COMMA ∉ x) (he : EQUALS ∉ x) (l : List UInt8) :
    (x ++ l).dropWhile (fun c => c ≠ EQUALS && c ≠ COMMA) =
      l.dropWhile (fun c => c ≠ EQUALS && c ≠ COMMA) := by
  refine List.dropWhile_append_of_pos fun c hmem => ?_
  simp [ne_of_mem_of_not_mem hmem hc, ne_of_mem_of_not_mem hmem he]

include hs in
theorem parseLoop_bare (hc : COMMA ∉ x) (he : EQUALS ∉ x) (after : Option (List UInt8)) :
    parseLoop slots (x ++ after.elim [] (COMMA :: ·)) = if x = [STAR] then
        after.elim (some ([], true)) fun l => (parseLoop slots l).map fun r => (r.1, true)
      else none := by
  have htake : (x ++ after.elim [] (COMMA :: ·)).takeWhile (fun c => c ≠ EQUALS && c ≠ COMMA) =
      x := by
    rw [takeWhile_bare hc he]
    cases after <;> simp
  have hdrop : (x ++ after.elim [] (COMMA :: ·)).dropWhile (fun c => c ≠ EQUALS && c ≠ COMMA) =
      after.elim [] (COMMA :: ·) := by
    rw [dropWhile_bare hc he]
    cases after <;> simp
  rw [parseLoop, if_neg hs, htake]
  split <;> rename_i hb <;> rw [hdrop] at hb
  · cases after with
    | none => rfl
    | some l => cases hb
  · cases after with
    | none => cases hb
    | some l =>
      obtain ⟨rfl, rfl⟩ := List.cons.inj hb
      rw [if_pos rfl, Option.elim_some]

theorem takeWhile_value (hv : COMMA ∉ v) (l : List UInt8) :
    (v ++ l).takeWhile (· ≠ COMMA) = v ++ l.takeWhile (· ≠ COMMA) :=
  List.takeWhile_append_of_pos fun c hmem => by simp [ne_of_mem_of_not_mem hmem hv]

theorem dropWhile_value (hv : COMMA ∉ v) (l : List UInt8) :
    (v ++ l).dropWhile (· ≠ COMMA) = l.dropWhile (· ≠ COMMA) :=
  List.dropWhile_append_of_pos fun c hmem => by simp [ne_of_mem_of_not_mem hmem hv]

/-- The comparison stops after the value, so it holds of an empty value as well. -/
theorem strncmpEq_star (h0 : 0 ∉ v) (l : List UInt8) :
    strncmpEq (v ++ l) [STAR] v.length = decide (v = [] ∨ v = [STAR]) := by
  rw [strncmpEq, List.append_assoc, List.take_left]
  match v with
  | [] => rfl
  | [c] => simp
  | [c, d] =>
    have hd : d ≠ 0 := fun h => h0 (by simp [h])
    simp [hd]
  | c :: d :: e :: v => simp

include hs in
theorem parseLoop_part (hk : EQUALS ∉ k) (hkc : COMMA ∉ k) (hv : COMMA ∉ v) (h0 : 0 ∉ v)
    (after : Option (List UInt8)) :
    parseLoop slots (k ++ EQUALS :: v ++ after.elim [] (COMMA :: ·)) =
      after.elim (some ([.of k v], false)) fun l =>
        (parseLoop (slots - 1) l).map fun r => (.of k v :: r.1, r.2) := by
  rw [List.append_assoc, List.cons_append]
  have hdrop := dropWhile_bare hkc hk (EQUALS :: (v ++ after.elim [] (COMMA :: ·)))
  have htail : (v ++ after.elim [] (COMMA :: ·)).dropWhile (· ≠ COMMA) =
      after.elim [] (COMMA :: ·) := by
    rw [dropWhile_value hv]
    cases after <;> simp
  have hvalue : (v ++ after.elim [] (COMMA :: ·)).takeWhile (· ≠ COMMA) = v := by
    rw [takeWhile_value hv]
    cases after <;> simp
  rw [parseLoop, if_neg hs, takeWhile_bare hkc hk]
  split <;> rename_i hb <;> rw [hdrop] at hb
  · cases hb
  · obtain ⟨rfl, rfl⟩ := List.cons.inj hb
    rw [if_neg (by decide), hvalue]
    dsimp only
    rw [strncmpEq_star h0]
    split <;> rename_i hl <;> rw [htail] at hl
    · cases after with
      | none => simp [Part.of]
      | some l => cases hl
    · cases after with
      | none => cases hl
      | some l =>
        obtain ⟨rfl, rfl⟩ := List.cons.inj hl
        simp [Part.of]

include hs in
/-- A component at the end or before a comma is read on its own, and takes a slot if it is a
part. -/
theorem parseLoop_component (hx : COMMA ∉ x) (h0 : 0 ∉ x) (after : Option (List UInt8)) :
    parseLoop slots (x ++ after.elim [] (COMMA :: ·)) = (component x).bind fun part =>
      after.elim (some (part.toList, part.isNone)) fun l =>
        (parseLoop (slots - part.toList.length) l).map fun r =>
          (part.toList ++ r.1, part.isNone || r.2) := by
  by_cases he : EQUALS ∈ x
  · obtain ⟨k, v, rfl, hk⟩ := List.eq_append_cons_of_mem he
    simp only [List.mem_append, List.mem_cons, not_or] at h0 hx
    rw [parseLoop_part hs hk hx.1 hx.2.2 h0.2.2, component_part hk]
    rfl
  · rw [parseLoop_bare hs hx he, component_bare he]
    split <;> rfl

end Loop

/-- The slots suffice, since every component takes one at most. -/
theorem parseLoop_eq {a : List UInt8} (h0 : 0 ∉ a) {slots : Nat}
    (hs : (a.splitOn COMMA).length ≤ slots) :
    parseLoop slots a = parseComponents (a.splitOn COMMA) := by
  induction a using split_induction COMMA generalizing slots with
  | hrest x hx =>
    rw [List.splitOn_eq_singleton hx, List.length_singleton] at hs
    have hne : slots ≠ 0 := by omega
    have hstep := parseLoop_component hne hx h0 none
    rw [Option.elim_none, List.append_nil] at hstep
    rw [List.splitOn_eq_singleton hx, hstep, parseComponents]
    cases component x <;> simp [parseComponents]
  | hpiece x l hx ih =>
    rw [splitOn_append_cons hx, List.length_cons] at hs
    simp only [List.mem_append, List.mem_cons, not_or] at h0
    have hne : slots ≠ 0 := by omega
    have hstep := parseLoop_component hne hx h0.1 (some l)
    rw [Option.elim_some] at hstep
    rw [splitOn_append_cons hx, hstep, parseComponents]
    cases component x with
    | none => rfl
    | some part =>
      have hlen : part.toList.length ≤ 1 := by cases part <;> simp
      have hslots : (l.splitOn COMMA).length ≤ slots - part.toList.length := by omega
      have hrest := ih h0.2.2 hslots
      simp [hrest]

/-! ## The components of a string -/

def components (l : List UInt8) : List (List UInt8) := if l = [] then [] else l.splitOn COMMA

/-- The components that a name with the parts `ps` is written with. -/
def written (ps : List Part) (wildcard : Bool) : List (List UInt8) :=
  ps.map Part.text ++ if wildcard then [[STAR]] else []

theorem mem_components {l c : List UInt8} (h : c ∈ components l) : c ⊆ l ∧ COMMA ∉ c := by
  unfold components at h
  split at h
  · simp at h
  · exact ⟨subset_of_mem_splitOn h, notMem_splitOn l c h⟩

theorem intercalate_components (l : List UInt8) : [COMMA].intercalate (components l) = l := by
  unfold components
  split
  · simp_all
  · exact List.intercalate_splitOn COMMA

theorem components_intercalate {cs : List (List UInt8)} (hc : ∀ c ∈ cs, COMMA ∉ c)
    (hne : ∀ c ∈ cs, c ≠ []) : components ([COMMA].intercalate cs) = cs := by
  cases cs with
  | nil => rfl
  | cons c cs =>
    have hnil : [COMMA].intercalate (c :: cs) ≠ [] := by
      cases cs with
      | nil => simpa using hne
      | cons d cs => simp [List.intercalate_cons_cons]
    rw [components, if_neg hnil, List.splitOn_intercalate COMMA hc (by simp)]

theorem text_spec {p : Part} (h : p.Parsed) : COMMA ∉ p.text ∧ EQUALS ∈ p.text ∧ 0 ∉ p.text := by
  obtain ⟨⟨k, hname, hk, hkc⟩, v, hvalue, hv, -⟩ := h
  have hk0 := k.nulFree
  have hv0 := v.nulFree
  have hne : COMMA ≠ EQUALS ∧ (0 : UInt8) ≠ EQUALS := by decide
  simp_all [Part.text]

theorem components_written {ps : List Part} (h : ∀ p ∈ ps, p.Parsed) (wildcard : Bool) :
    components ([COMMA].intercalate (written ps wildcard)) = written ps wildcard := by
  refine components_intercalate ?_ ?_ <;> intro c hc <;> rcases List.mem_append.mp hc with hc | hc
  · obtain ⟨p, hp, rfl⟩ := List.mem_map.mp hc
    exact (text_spec (h p hp)).1
  · cases wildcard <;> simp_all [COMMA, STAR]
  · obtain ⟨p, hp, rfl⟩ := List.mem_map.mp hc
    exact List.ne_nil_of_mem (text_spec (h p hp)).2.1
  · cases wildcard <;> simp_all

/-! ## What is parsed -/

theorem parseComponents_spec {cs : List (List UInt8)} {r : List Part × Bool}
    (hcs : ∀ c ∈ cs, 0 ∉ c ∧ COMMA ∉ c) (h : parseComponents cs = some r) :
    (∀ p ∈ r.1, p.Parsed) ∧ r.1.map Part.text = cs.filter (· ≠ [STAR]) ∧
      r.2 = decide ([STAR] ∈ cs) := by
  induction cs generalizing r with
  | nil =>
    obtain rfl := Option.some.inj h
    simp
  | cons c cs ih =>
    obtain ⟨part, hpart, hrest⟩ := Option.bind_eq_some_iff.mp h
    obtain ⟨r', hr', rfl⟩ := Option.map_eq_some_iff.mp hrest
    obtain ⟨hparsed, htext, hwild⟩ := ih (fun c hc => hcs c (by simp [hc])) hr'
    cases part with
    | none =>
      obtain rfl := component_eq_star.mp hpart
      exact ⟨hparsed, by simpa using htext, by simp⟩
    | some p =>
      obtain ⟨h0, hc⟩ := hcs c (by simp)
      obtain ⟨hp, rfl⟩ := component_eq_part h0 hc hpart
      have hne : p.text ≠ [STAR] := by
        intro hstar
        simp [component_eq_star.mpr hstar] at hpart
      refine ⟨List.forall_mem_cons.mpr ⟨hp, hparsed⟩, ?_, ?_⟩
      · simpa [hne] using htext
      · simp [hwild, hne.symm]

theorem parseComponents_written {ps : List Part} (h : ∀ p ∈ ps, p.Parsed) (wildcard : Bool) :
    parseComponents (written ps wildcard) = some (ps, wildcard) := by
  induction ps with
  | nil => cases wildcard <;> rfl
  | cons p ps ih =>
    have hrest := ih fun p hp => h p (by simp [hp])
    have htail : written (p :: ps) wildcard = p.text :: written ps wildcard := rfl
    simp [htail, parseComponents, component_text (h p (by simp)), hrest]

theorem parse_eq (s : CString) : parse s = (parseComponents (components s.bytes)).map fun r =>
    { size := r.1.length, wildcard := r.2
      parts :=
        qsort (r.1 ++ List.replicate ((components s.bytes).length - r.1.length) .blank) } := by
  unfold parse components
  split
  · simp [parseComponents, qsort, msort_of_lt]
  · dsimp only
    rw [parseLoop_eq s.nulFree (count_add_one s.bytes).ge, count_add_one]

end Name

end Bolo
