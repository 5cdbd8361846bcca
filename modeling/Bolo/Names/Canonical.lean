import Bolo.Library.Outcome
import Bolo.Names.Components

/-!
# The canonical form of a name

`bolo name fix` prints what it parses. The result has the components of its input in the
order of their keys with one `*` at the end. It is parsed as the same name, and depends on
the order of the input's components only where keys are repeated.
-/
namespace Bolo

open Library

/-- A part that can be printed. -/
structure Part.Filled (p : Part) : Prop where
  name : p.name.isSome
  value : p.value.isSome

theorem Part.Parsed.filled {p : Part} (h : p.Parsed) : p.Filled := by
  obtain ⟨⟨k, hname, -⟩, v, hvalue, -⟩ := h
  exact ⟨by simp [hname], by simp [hvalue]⟩

namespace Name

/-! ## Sorting -/

theorem sSort_le_zero {a b : Part} (ha : a.name.isSome) (hb : b.name.isSome) :
    sSort a b ≤ 0 ↔ a.key ≤ b.key := by
  obtain ⟨x, hx⟩ := Option.isSome_iff_exists.mp ha
  obtain ⟨y, hy⟩ := Option.isSome_iff_exists.mp hb
  simpa [sSort, Part.key, hx, hy] using strcmp_le_zero

/-- The unused slots stay at the end. -/
theorem qsort_spec {ps : List Part} (h : ∀ p ∈ ps, p.name.isSome) (n : Nat) :
    ∃ sorted, qsort (ps ++ List.replicate n .blank) = sorted ++ List.replicate n .blank ∧
      sorted.Perm ps ∧ sorted.Pairwise (·.key ≤ ·.key) := by
  have htie : ∀ a b : Part, b.name = none → decide (sSort a b ≤ 0) := by
    intro a b hb
    cases ha : a.name <;> simp [sSort, ha, hb]
  have hagree : ∀ a b : Part, ¬a.name = none → ¬b.name = none →
      decide (sSort a b ≤ 0) = decide (a.key ≤ b.key) := by
    intro a b ha hb
    rw [decide_eq_decide]
    exact sSort_le_zero (Option.isSome_iff_ne_none.mpr ha) (Option.isSome_iff_ne_none.mpr hb)
  have htrans : ∀ a b c : Part, decide (a.key ≤ b.key) → decide (b.key ≤ c.key) →
      decide (a.key ≤ c.key) := by
    simp only [decide_eq_true_eq]
    exact fun a b c => List.le_trans
  have htotal : ∀ a b : Part, decide (a.key ≤ b.key) || decide (b.key ≤ a.key) := by
    simpa using fun a b : Part => List.le_total a.key b.key
  obtain ⟨sorted, hsort, hperm, hpairwise⟩ := msort_append htie hagree htrans htotal
    (fun p hp => Option.isSome_iff_ne_none.mp (h p hp))
    fun p (hp : p ∈ List.replicate n Part.blank) => List.eq_of_mem_replicate hp ▸ rfl
  exact ⟨sorted, hsort, hperm, by simpa using hpairwise⟩

theorem qsort_of_sorted {ps : List Part} (h : ∀ p ∈ ps, p.name.isSome)
    (hsorted : ps.Pairwise (·.key ≤ ·.key)) (n : Nat) :
    qsort (ps ++ List.replicate n .blank) = ps ++ List.replicate n .blank := by
  refine msort_of_pairwise (List.pairwise_append.mpr ⟨?_, ?_, ?_⟩)
  · refine hsorted.imp_of_mem fun ha hb hab => ?_
    simpa using (sSort_le_zero (h _ ha) (h _ hb)).mpr hab
  · exact List.pairwise_replicate.mpr (.inr (by decide))
  · intro a _ b hb
    rw [List.eq_of_mem_replicate hb]
    cases a.name <;> simp [sSort, Part.blank]

/-! ## Parsing -/

/-- The name is a sorted array of parts. -/
structure Holds (name : Name) (ps : List Part) : Prop where
  used : name.used = .ok ps
  sorted : ps.Pairwise (·.key ≤ ·.key)

theorem used_eq_ok {name : Name} {ps : List Part} : name.used = .ok ps ↔
    name.size ≤ name.parts.length ∧ name.parts.take name.size = ps := by
  unfold used
  split <;> simp_all

theorem Holds.size {name : Name} {ps : List Part} (h : name.Holds ps) : name.size = ps.length := by
  obtain ⟨hsize, rfl⟩ := used_eq_ok.mp h.used
  rw [List.length_take]
  omega

theorem used_append (size : Nat) (wildcard : Bool) (ps free : List Part) (h : size = ps.length) :
    used { size := size, wildcard := wildcard, parts := ps ++ free } = .ok ps := by
  simp [used_eq_ok, h]

/-- The components that become parts. -/
def named (s : CString) : List (List UInt8) := (components s.bytes).filter (· ≠ [STAR])

def MatchesAll (s : CString) : Prop := [STAR] ∈ components s.bytes

instance (s : CString) : Decidable (MatchesAll s) :=
  inferInstanceAs (Decidable ([STAR] ∈ components s.bytes))

/-- A valid string is read as its components, the `*` apart, in some order. -/
theorem parse_spec {s : CString} {q : Name} (h : parse s = some q) :
    ∃ ps, q.Holds ps ∧ (∀ p ∈ ps, p.Parsed) ∧
      (ps.map Part.text).Perm (named s) ∧ q.wildcard = decide (MatchesAll s) := by
  rw [parse_eq] at h
  obtain ⟨r, hr, rfl⟩ := Option.map_eq_some_iff.mp h
  have hcs : ∀ c ∈ components s.bytes, 0 ∉ c ∧ COMMA ∉ c := fun c hc =>
    ⟨fun h0 => s.nulFree ((mem_components hc).1 h0), (mem_components hc).2⟩
  obtain ⟨hparsed, htext, hwild⟩ := parseComponents_spec hcs hr
  obtain ⟨ps, hps, hperm, hsorted⟩ :=
    qsort_spec (fun p hp => (hparsed p hp).filled.name) ((components s.bytes).length - r.1.length)
  refine ⟨ps, ⟨?_, hsorted⟩, fun p hp => hparsed p (hperm.subset hp), ?_, hwild⟩
  · rw [hps]
    exact used_append _ _ _ _ hperm.length_eq.symm
  · rw [named, ← htext]
    exact hperm.map _

/-- A string that has its components in order is read as they stand. -/
theorem parse_of_components {t : CString} {ps : List Part} {wildcard : Bool}
    (hparsed : ∀ p ∈ ps, p.Parsed) (hsorted : ps.Pairwise (·.key ≤ ·.key))
    (ht : components t.bytes = written ps wildcard) :
    ∃ q, parse t = some q ∧ q.Holds ps ∧ q.wildcard = wildcard := by
  rw [parse_eq, ht, parseComponents_written hparsed, Option.map_some]
  refine ⟨_, rfl, ⟨?_, hsorted⟩, rfl⟩
  rw [qsort_of_sorted (fun p hp => (hparsed p hp).filled.name) hsorted]
  exact used_append _ _ _ _ rfl

/-! ## Printing -/

theorem partText_eq {p : Part} (h : p.Filled) : partText p = .ok (p.text ++ [COMMA]) := by
  obtain ⟨k, hk⟩ := Option.isSome_iff_exists.mp h.name
  obtain ⟨v, hv⟩ := Option.isSome_iff_exists.mp h.value
  refine bind_eq_ok.mpr ⟨k, by rw [hk]; rfl, bind_eq_ok.mpr ⟨v, by rw [hv]; rfl, ?_⟩⟩
  simp [Part.text, hk, hv, pure_eq_ok]

theorem partLength_eq {p : Part} (h : p.Filled) :
    partLength p = .ok (p.text ++ [COMMA]).length := by
  obtain ⟨k, hk⟩ := Option.isSome_iff_exists.mp h.name
  obtain ⟨v, hv⟩ := Option.isSome_iff_exists.mp h.value
  refine bind_eq_ok.mpr ⟨k, by rw [hk]; rfl, bind_eq_ok.mpr ⟨v, by rw [hv]; rfl, ?_⟩⟩
  simp [Part.text, hk, hv, pure_eq_ok, CString.length]
  omega

/-- The buffer that `bolo_name_string` allocates is just large enough. -/
theorem string_eq {name : Name} {ps : List Part} (hused : name.used = .ok ps)
    (h : ∀ p ∈ ps, p.Filled) :
    name.string = .ok (.ofBytes ([COMMA].intercalate (written ps name.wildcard))) := by
  have htext : (ps.map fun p => p.text ++ [COMMA]).flatten ++
      (if name.wildcard then [STAR, COMMA] else []) =
      (written ps name.wildcard).flatMap (· ++ [COMMA]) := by
    cases name.wildcard <;> simp [written, List.flatMap_def, Function.comp_def]
  have hlen : (ps.map fun p => (p.text ++ [COMMA]).length).sum +
      (if name.wildcard then 2 else 0) =
      ((written ps name.wildcard).flatMap (· ++ [COMMA])).length := by
    rw [← htext]
    cases name.wildcard <;> simp [List.length_flatten, Function.comp_def]
  refine bind_eq_ok.mpr ⟨ps, hused, bind_eq_ok.mpr
    ⟨_, mapM_eq_ok fun p hp => partLength_eq (h p hp), ?_⟩⟩
  rw [hlen, intercalate_eq]
  dsimp only
  split
  · rename_i hzero
    rw [List.length_eq_zero_iff.mp hzero]
    rfl
  · refine bind_eq_ok.mpr ⟨_, mapM_eq_ok fun p hp => partText_eq (h p hp), ?_⟩
    rw [htext]
    exact if_pos le_rfl

theorem nul_notMem_written {ps : List Part} (h : ∀ p ∈ ps, p.Parsed) (wildcard : Bool) :
    0 ∉ [COMMA].intercalate (written ps wildcard) := by
  rw [intercalate_eq]
  intro h0
  obtain ⟨c, hc, h0c⟩ := List.mem_flatMap.mp (List.dropLast_subset _ h0)
  rcases List.mem_append.mp hc with hc | hc
  · obtain ⟨p, hp, rfl⟩ := List.mem_map.mp hc
    have hp0 := (text_spec (h p hp)).2.2
    simp_all [COMMA]
  · cases wildcard <;> simp_all [COMMA, STAR]

/-- What is printed has the components it is printed from. -/
theorem string_spec {name : Name} {ps : List Part} (hused : name.used = .ok ps)
    (h : ∀ p ∈ ps, p.Parsed) :
    ∃ t, name.string = .ok t ∧ components t.bytes = written ps name.wildcard := by
  refine ⟨_, string_eq hused fun p hp => (h p hp).filled, ?_⟩
  rw [CString.bytes_ofBytes (nul_notMem_written h _), components_written h]

theorem string_of_components {name : Name} {ps : List Part} {t : CString}
    (hused : name.used = .ok ps) (h : ∀ p ∈ ps, p.Parsed)
    (ht : components t.bytes = written ps name.wildcard) : name.string = .ok t := by
  rw [string_eq hused fun p hp => (h p hp).filled, ← ht, intercalate_components,
    CString.ofBytes_bytes]

/-! ## The canonical form -/

/-- `bolo name fix` on one argument, `none` where it says that this is not a name. -/
def fix (s : CString) : Except Fault (Option CString) :=
  match parse s with
  | none => .ok none
  | some name => return some (← name.string)

def Valid (s : CString) : Prop := (parse s).isSome

instance (s : CString) : Decidable (Valid s) := inferInstanceAs (Decidable ((parse s).isSome))

def componentKey (c : List UInt8) : CString := .ofBytes (c.takeWhile (· ≠ EQUALS))

structure Canonical (s t : CString) : Prop where
  reparsed : ∀ name, parse s = some name → ∃ name' ps, parse t = some name' ∧
    name.used = .ok ps ∧ name'.used = .ok ps ∧ name'.size = name.size ∧
    name'.wildcard = name.wildcard
  fixed : fix t = .ok (some t)
  ordered : ∃ cs, components t.bytes = cs ++ (if MatchesAll s then [[STAR]] else []) ∧
    [STAR] ∉ cs ∧ cs.Perm (named s) ∧
    cs.Pairwise fun c d => strcmp (componentKey c) (componentKey d) ≤ 0
  unique : ∀ s', Valid s' → (named s').Perm (named s) → ((named s).map componentKey).Nodup →
    (MatchesAll s' ↔ MatchesAll s) → fix s' = .ok (some t)

theorem fix_eq {s t : CString} {name : Name} (h : parse s = some name) (ht : name.string = .ok t) :
    fix s = .ok (some t) := by
  simp only [fix, h, ht]
  rfl

theorem componentKey_text {p : Part} (h : p.Parsed) :
    componentKey p.text = .ofBytes p.key ∧ (componentKey p.text).bytes = p.key := by
  obtain ⟨⟨k, hname, hk, -⟩, -⟩ := h
  rw [componentKey, Part.text, Part.key, hname, Option.elim_some, takeWhile_key hk]
  exact ⟨rfl, by rw [CString.ofBytes_bytes]⟩

/-- Parts are determined by their texts. -/
theorem filterMap_component {ps : List Part} (h : ∀ p ∈ ps, p.Parsed) :
    (ps.map Part.text).filterMap (fun c => (component c).join) = ps := by
  induction ps with
  | nil => rfl
  | cons p ps ih =>
    rw [List.map_cons, List.filterMap_cons_some (b := p), ih fun p hp => h p (by simp [hp])]
    rw [component_text (h p (by simp))]
    rfl

theorem eq_of_texts_perm {ps ps' : List Part} (h : ∀ p ∈ ps, p.Parsed) (h' : ∀ p ∈ ps', p.Parsed)
    (hsorted : ps.Pairwise (·.key ≤ ·.key)) (hsorted' : ps'.Pairwise (·.key ≤ ·.key))
    (hnodup : (ps.map Part.key).Nodup) (hperm : (ps'.map Part.text).Perm (ps.map Part.text)) :
    ps' = ps := by
  have hps : ps'.Perm ps := by
    have := hperm.filterMap fun c => (component c).join
    rwa [filterMap_component h, filterMap_component h'] at this
  refine hps.eq_of_pairwise (fun a b ha hb hab hba => ?_) hsorted' hsorted
  exact List.inj_on_of_nodup_map hnodup (hps.subset ha) hb (List.le_antisymm hab hba)

theorem texts_ordered {ps : List Part} (h : ∀ p ∈ ps, p.Parsed)
    (hsorted : ps.Pairwise (·.key ≤ ·.key)) :
    (ps.map Part.text).Pairwise fun c d => strcmp (componentKey c) (componentKey d) ≤ 0 := by
  refine List.pairwise_map.mpr (hsorted.imp_of_mem fun ha hb hab => ?_)
  rwa [strcmp_le_zero, (componentKey_text (h _ ha)).2, (componentKey_text (h _ hb)).2]

theorem star_notMem_texts {ps : List Part} (h : ∀ p ∈ ps, p.Parsed) :
    [STAR] ∉ ps.map Part.text := by
  intro hstar
  obtain ⟨p, hp, htext⟩ := List.mem_map.mp hstar
  have hpart := component_text (h p hp)
  simp [component_eq_star.mpr htext] at hpart

theorem keys_nodup {ps : List Part} {cs : List (List UInt8)} (h : ∀ p ∈ ps, p.Parsed)
    (hperm : (ps.map Part.text).Perm cs) (hnodup : (cs.map componentKey).Nodup) :
    (ps.map Part.key).Nodup := by
  have hkey : ∀ p ∈ ps, (componentKey ∘ Part.text) p = (CString.ofBytes ∘ Part.key) p :=
    fun p hp => (componentKey_text (h p hp)).1
  have hnodup' := (hperm.map componentKey).nodup_iff.mpr hnodup
  rw [List.map_map, List.map_congr_left hkey, ← List.map_map] at hnodup'
  exact hnodup'.of_map _

/-- Fixing a name gives its canonical form. -/
theorem fix_canonical {s : CString} (hs : Valid s) : ∃ t, fix s = .ok (some t) ∧ Canonical s t := by
  obtain ⟨name, hname⟩ := Option.isSome_iff_exists.mp hs
  obtain ⟨ps, hholds, hparsed, hperm, hwild⟩ := parse_spec hname
  obtain ⟨t, hstring, ht⟩ := string_spec hholds.used hparsed
  obtain ⟨name', hname', hholds', hwild'⟩ := parse_of_components hparsed hholds.sorted ht
  refine ⟨t, fix_eq hname hstring, ?_, ?_, ?_, ?_⟩
  · intro q hq
    obtain rfl := Option.some.inj (hname.symm.trans hq)
    exact ⟨name', ps, hname', hholds.used, hholds'.used, by rw [hholds.size, hholds'.size], hwild'⟩
  · exact fix_eq hname' (string_of_components hholds'.used hparsed (hwild' ▸ ht))
  · refine ⟨ps.map Part.text, ?_, star_notMem_texts hparsed, hperm,
      texts_ordered hparsed hholds.sorted⟩
    simp [ht, written, hwild]
  · intro s' hs' hperm' hnodup hall
    obtain ⟨q, hq⟩ := Option.isSome_iff_exists.mp hs'
    obtain ⟨ps', hqholds, hqparsed, hqperm, hqwild⟩ := parse_spec hq
    have heq := eq_of_texts_perm hparsed hqparsed hholds.sorted hqholds.sorted
      (keys_nodup hparsed hperm hnodup) (hqperm.trans (hperm'.trans hperm.symm))
    subst heq
    refine fix_eq hq (string_of_components hqholds.used hqparsed ?_)
    rw [ht, hwild, hqwild, decide_eq_decide.mpr hall]

theorem fix_canonical_swapped : Valid (.lit "x=y,*,a=b,*") ∧
    fix (.lit "x=y,*,a=b,*") = .ok (some (.lit "a=b,x=y,*")) ∧
    fix (.lit "a=b,*,x=y") = fix (.lit "x=y,*,a=b,*") := by
  refine ⟨by decide +kernel, by decide +kernel, ?_⟩
  obtain ⟨t, ht, hcanonical⟩ := fix_canonical (s := .lit "x=y,*,a=b,*") (by decide +kernel)
  rw [ht]
  exact hcanonical.unique _ (by decide +kernel) (by decide +kernel) (by decide +kernel)
    (by decide +kernel)

end Name

end Bolo
