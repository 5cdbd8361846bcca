import Bolo.Names.Canonical

/-!
# Names that are edited

A name is coherent if every part's flag says whether its value is `*` and it can be printed
and read back. `bolo_name_set` stores no value for `*` and keeps the flag of a part that is
there already, and the parser flags an empty value, so this is not so in general. It holds
of every name that is built without these cases.
-/
namespace Bolo

open Library

/-- A part as the parser makes it from a component with a value. -/
structure Part.Coherent (p : Part) : Prop where
  parsed : p.Parsed
  value : p.value ≠ some (.lit "")

namespace Name

/-! ## What the edits do -/

section Edits

variable {name : Name} {ps : List Part} (hname : name.Holds ps) (hps : ∀ p ∈ ps, p.name.isSome)

theorem find_cases (key : CString) (hps : ∀ p ∈ ps, p.name.isSome) :
    (find key ps = .ok none ∧ ∀ p ∈ ps, p.name ≠ some key) ∨
      ∃ l p r, ps = l ++ p :: r ∧ p.name = some key ∧ (∀ p' ∈ l, p'.name ≠ some key) ∧
        find key ps = .ok (some l.length) := by
  induction ps with
  | nil => exact .inl ⟨rfl, by simp⟩
  | cons p ps ih =>
    obtain ⟨x, hx⟩ := Option.isSome_iff_exists.mp (hps p (by simp))
    by_cases hkey : x = key
    · refine .inr ⟨[], p, ps, rfl, by rw [hx, hkey], by simp, ?_⟩
      rw [find, hx, deref_some, ok_bind, if_pos (strcmp_eq_zero.mpr hkey)]
      rfl
    · have hne : p.name ≠ some key := by simpa [hx] using hkey
      have hstep : find key (p :: ps) = (find key ps).map fun i => i.map (· + 1) := by
        rw [find, hx, deref_some, ok_bind, if_neg fun h => hkey (strcmp_eq_zero.mp h)]
        cases find key ps <;> rfl
      rcases ih fun p hp => hps p (by simp [hp]) with ⟨hfind, hall⟩ | ⟨l, q, r, rfl, hq, hl, hfind⟩
      · exact .inl ⟨by rw [hstep, hfind]; rfl, List.forall_mem_cons.mpr ⟨hne, hall⟩⟩
      · refine .inr ⟨p :: l, q, r, rfl, hq, List.forall_mem_cons.mpr ⟨hne, hl⟩, ?_⟩
        rw [hstep, hfind]
        rfl

theorem modify_append_cons (l : List Part) (p : Part) (r : List Part) (f : Part → Part) :
    (l ++ p :: r).modify l.length f = l ++ f p :: r := by
  induction l with
  | nil => rfl
  | cons q l ih => simp [List.modify_succ_cons, ih]

/-- No value is stored for these. -/
def isWild (value : Option CString) : Bool := value = none ∨ value = some (.lit "*")

def stored (value : Option CString) : Option CString := if isWild value then none else value

include hname hps in
/-- Setting a key changes the value of the first part that has it, or adds a part. -/
theorem set_spec (key : CString) (value : Option CString) :
    ∃ name' ps', name.set key value = .ok name' ∧ name'.Holds ps' ∧
      name'.wildcard = name.wildcard ∧
      ((∃ l p r, ps = l ++ p :: r ∧ p.name = some key ∧ (∀ p' ∈ l, p'.name ≠ some key) ∧
          ps' = l ++ { p with value := stored value } :: r) ∨
        (∀ p ∈ ps, p.name ≠ some key) ∧
          ps'.Perm
            ({ name := some key, value := stored value, wildcard := isWild value } :: ps)) := by
  rcases find_cases key hps with ⟨hfind, hall⟩ | ⟨l, p, r, rfl, hp, hl, hfind⟩
  · have hnames : ∀ p ∈ ps ++ [⟨some key, stored value, isWild value⟩], p.name.isSome := by
      simpa [or_imp, forall_and] using hps
    obtain ⟨ps', hsort, hperm, hsorted⟩ := qsort_spec hnames 0
    rw [List.replicate_zero, List.append_nil, List.append_nil] at hsort
    refine ⟨{ name with size := name.size + 1, parts := ps' }, ps', ?_, ⟨?_, hsorted⟩, rfl,
      .inr ⟨hall, hperm.trans (List.perm_append_singleton _ _)⟩⟩
    · rw [set, hname.used, ok_bind, hfind, ok_bind, ← hsort]
      rfl
    · have hlen : name.size + 1 = ps'.length := by rw [hperm.length_eq, hname.size]; simp
      simpa using used_append _ name.wildcard ps' [] hlen
  · refine ⟨{ name with parts := name.parts.modify l.length fun p =>
        { p with value := stored value } }, l ++ { p with value := stored value } :: r, ?_,
      ⟨?_, ?_⟩, rfl, .inl ⟨l, p, r, rfl, hp, hl, rfl⟩⟩
    · rw [set, hname.used, ok_bind, hfind, ok_bind]
      rfl
    · obtain ⟨hsize, htake⟩ := used_eq_ok.mp hname.used
      refine used_eq_ok.mpr ⟨by rwa [List.length_modify], ?_⟩
      rw [List.take_modify, htake, modify_append_cons]
    · have hkeys := List.pairwise_map.mpr hname.sorted
      refine List.pairwise_map.mp (?_ : (List.map Part.key _).Pairwise (· ≤ ·))
      simpa [Part.key] using hkeys

include hname hps in
/-- Unsetting a key removes the first part that has it. -/
theorem unset_spec (key : CString) : ∃ name' ps', name.unset key = .ok name' ∧ name'.Holds ps' ∧
    name'.wildcard = name.wildcard ∧
    ((∃ l p r, ps = l ++ p :: r ∧ p.name = some key ∧ ps' = l ++ r) ∨
      (∀ p ∈ ps, p.name ≠ some key) ∧ ps' = ps) := by
  rcases find_cases key hps with ⟨hfind, hall⟩ | ⟨l, p, r, rfl, hp, -, hfind⟩
  · refine ⟨name, ps, ?_, hname, rfl, .inr ⟨hall, rfl⟩⟩
    rw [unset, hname.used, ok_bind, hfind, ok_bind]
    rfl
  · have hsub : (l ++ r).Sublist (l ++ p :: r) := (List.sublist_cons_self p r).append_left l
    refine ⟨{ name with
        size := name.size - 1
        parts := (l ++ p :: r).eraseIdx l.length ++ .blank :: name.parts.drop name.size },
      l ++ r, ?_, ⟨?_, hname.sorted.sublist hsub⟩, rfl, .inl ⟨l, p, r, rfl, hp, rfl⟩⟩
    · rw [unset, hname.used, ok_bind, hfind, ok_bind]
      rfl
    · have hsize : name.size - 1 = (l ++ r).length := by simp [hname.size]
      rw [List.eraseIdx_append_of_length_le le_rfl, Nat.sub_self, List.eraseIdx_cons_zero]
      exact used_append _ _ _ _ hsize

end Edits

/-! ## Coherence -/

/-- Every part's flag says whether its value is `*`, and the name can be printed and is then
read back. -/
structure Coherent (name : Name) (ps : List Part) : Prop where
  used : name.used = .ok ps
  flags : ∀ p ∈ ps, ∃ v, p.value = some v ∧ (p.wildcard ↔ v = .lit "*")
  reparsed : ∃ t name', name.string = .ok t ∧ parse t = some name' ∧ name'.used = .ok ps ∧
    name'.size = name.size ∧ name'.wildcard = name.wildcard

theorem eq_star_iff {v : CString} : v = .lit "*" ↔ v.bytes = [STAR] := CString.ext_iff

theorem eq_empty_iff {v : CString} : v = .lit "" ↔ v.bytes = [] := CString.ext_iff

theorem coherent_iff {name : Name} {ps : List Part} :
    name.Coherent ps ↔ name.Holds ps ∧ ∀ p ∈ ps, p.Coherent := by
  constructor
  · rintro ⟨hused, hflags, t, name', -, hparse, hused', -⟩
    -- what is read back is sorted and was parsed
    obtain ⟨ps', hholds, hparsed, -⟩ := parse_spec hparse
    obtain rfl := Except.ok.inj (hused'.symm.trans hholds.used)
    refine ⟨⟨hused, hholds.sorted⟩, fun p hp => ⟨hparsed p hp, fun hempty => ?_⟩⟩
    obtain ⟨v, hv, hflag⟩ := hflags p hp
    obtain ⟨-, w, hw, -, hwild⟩ := hparsed p hp
    obtain rfl := Option.some.inj (hv.symm.trans hempty)
    obtain rfl := Option.some.inj (hv.symm.trans hw)
    have hwildcard : p.wildcard = true := by rw [hwild]; decide
    exact absurd (hflag.mp hwildcard) (by decide)
  · rintro ⟨hholds, hcoherent⟩
    have hparsed : ∀ p ∈ ps, p.Parsed := fun p hp => (hcoherent p hp).parsed
    obtain ⟨t, hstring, ht⟩ := string_spec hholds.used hparsed
    obtain ⟨name', hparse, hholds', hwild⟩ := parse_of_components hparsed hholds.sorted ht
    refine ⟨hholds.used, fun p hp => ?_, t, name', hstring, hparse, hholds'.used,
      by rw [hholds.size, hholds'.size], hwild⟩
    obtain ⟨⟨-, v, hv, -, hflag⟩, hvalue⟩ := hcoherent p hp
    have hne : v.bytes ≠ [] := fun h => hvalue (by rw [hv, eq_empty_iff.mpr h])
    exact ⟨v, hv, by simp [hflag, hne, eq_star_iff]⟩

/-! ## Edits that keep a name coherent -/

/-- A value that is stored and parsed as such, a key that is parsed as such, and no flag that
would stay behind. -/
structure SetClean (name : Name) (key : CString) (value : Option CString) : Prop where
  storable : ∃ v, value = some v ∧ v ≠ .lit "" ∧ v ≠ .lit "*" ∧ COMMA ∉ v.bytes
  parsable : EQUALS ∉ key.bytes ∧ COMMA ∉ key.bytes
  unflagged : ∀ ps p, name.used = .ok ps → ps.find? (fun p => p.name = some key) = some p →
    p.wildcard = false

theorem stored_eq_some {value : Option CString} {v : CString} :
    stored value = some v ↔ value = some v ∧ v ≠ .lit "*" := by
  unfold stored
  cases value with
  | none => simp
  | some w =>
    by_cases hw : w = .lit "*"
    · simp [isWild, hw, eq_comm]
    · simp [isWild, hw]
      rintro rfl
      exact hw

theorem part_coherent_iff {key : CString} {value : Option CString} {wildcard : Bool} :
    Part.Coherent { name := some key, value := stored value, wildcard := wildcard } ↔
      (∃ v, value = some v ∧ v ≠ .lit "" ∧ v ≠ .lit "*" ∧ COMMA ∉ v.bytes) ∧
        (EQUALS ∉ key.bytes ∧ COMMA ∉ key.bytes) ∧ wildcard = false := by
  constructor
  · rintro ⟨⟨⟨k, hk, hkey⟩, v, hv, hcomma, hwild⟩, hvalue⟩
    obtain rfl := Option.some.inj hk
    obtain ⟨rfl, hstar⟩ := stored_eq_some.mp hv
    have hempty : v ≠ .lit "" := fun h => hvalue (by rw [hv, h])
    refine ⟨⟨v, rfl, hempty, hstar, hcomma⟩, hkey, ?_⟩
    rw [Ne, eq_star_iff] at hstar
    rw [Ne, eq_empty_iff] at hempty
    simpa [hstar, hempty] using hwild
  · rintro ⟨⟨v, rfl, hempty, hstar, hcomma⟩, hkey, rfl⟩
    have hv : stored (some v) = some v := stored_eq_some.mpr ⟨rfl, hstar⟩
    refine ⟨⟨⟨key, rfl, hkey⟩, v, hv, hcomma, ?_⟩, by simpa [hv] using hempty⟩
    rw [Ne, eq_star_iff] at hstar
    rw [Ne, eq_empty_iff] at hempty
    simp [hstar, hempty]

/-- Only the first part with the key counts, which is the one that is changed. -/
theorem setClean_iff {name : Name} {ps : List Part} {key : CString} {value : Option CString}
    {found : Option Part} (hused : name.used = .ok ps)
    (hfound : ps.find? (fun p => p.name = some key) = found) :
    name.SetClean key value ↔ (∃ v, value = some v ∧ v ≠ .lit "" ∧ v ≠ .lit "*" ∧ COMMA ∉ v.bytes) ∧
      (EQUALS ∉ key.bytes ∧ COMMA ∉ key.bytes) ∧ ∀ p, found = some p → p.wildcard = false := by
  constructor
  · intro h
    exact ⟨h.storable, h.parsable, fun p hp => h.unflagged ps p hused (hfound.trans hp)⟩
  · rintro ⟨hvalue, hkey, hflag⟩
    refine ⟨hvalue, hkey, fun ps' p hused' hp => ?_⟩
    obtain rfl := Except.ok.inj (hused.symm.trans hused')
    exact hflag p (hfound.symm.trans hp)

theorem setClean_iff_of_mem {name : Name} {l r : List Part} {p : Part} {key : CString}
    {value : Option CString} (hused : name.used = .ok (l ++ p :: r)) (hp : p.name = some key)
    (hl : ∀ p' ∈ l, p'.name ≠ some key) :
    name.SetClean key value ↔ Part.Coherent { p with value := stored value } := by
  have hfound : (l ++ p :: r).find? (fun p => p.name = some key) = some p := by
    refine List.find?_eq_some_iff_append.mpr ⟨by simpa using hp, l, r, rfl, ?_⟩
    simpa using hl
  rw [setClean_iff hused hfound, hp, part_coherent_iff]
  simp

theorem setClean_iff_of_new {name : Name} {ps : List Part} {key : CString}
    {value : Option CString} (hused : name.used = .ok ps) (hnew : ∀ p ∈ ps, p.name ≠ some key) :
    name.SetClean key value ↔
      Part.Coherent { name := some key, value := stored value, wildcard := isWild value } := by
  have hfound : ps.find? (fun p => p.name = some key) = none := by simpa using hnew
  rw [setClean_iff hused hfound, part_coherent_iff]
  -- a value that is stored leaves the flag of a new part off
  have hflag : (∃ v, value = some v ∧ v ≠ .lit "" ∧ v ≠ .lit "*" ∧ COMMA ∉ v.bytes) →
      isWild value = false := by
    rintro ⟨v, rfl, -, hstar, -⟩
    simpa [isWild] using hstar
  grind

/-- On a coherent name, `bolo_name_set` keeps it so exactly if the call is clean. -/
theorem set_coherent_iff {name : Name} {ps : List Part} (h : name.Coherent ps) (key : CString)
    (value : Option CString) : ∃ name' ps', name.set key value = .ok name' ∧
      name'.used = .ok ps' ∧ (name'.Coherent ps' ↔ name.SetClean key value) := by
  obtain ⟨hholds, hcoherent⟩ := coherent_iff.mp h
  have hnames : ∀ p ∈ ps, p.name.isSome := fun p hp => (hcoherent p hp).parsed.filled.name
  obtain ⟨name', ps', hset, hholds', -, hcases⟩ := set_spec hholds hnames key value
  refine ⟨name', ps', hset, hholds'.used, ?_⟩
  rw [coherent_iff, and_iff_right hholds']
  -- every part but the one that is set was coherent before
  rcases hcases with ⟨l, p, r, rfl, hp, hl, rfl⟩ | ⟨hnew, hperm⟩
  · rw [setClean_iff_of_mem hholds.used hp hl]
    simp only [List.mem_append, List.mem_cons] at hcoherent ⊢
    exact ⟨fun h => h _ (.inr (.inl rfl)), fun hpart q hq => by grind⟩
  · rw [setClean_iff_of_new hholds.used hnew]
    refine ⟨fun h => h _ (hperm.symm.subset (by simp)), fun hpart q hq => ?_⟩
    rcases List.mem_cons.mp (hperm.subset hq) with rfl | hq
    · exact hpart
    · exact hcoherent q hq

/-- The calls of a concatenation are clean, each on the name that the earlier ones left. -/
def SetsClean (name : Name) : List Part → Prop
  | [] => True
  | p :: ps => ∃ key name', p.name = some key ∧ name.SetClean key p.value ∧
      name.set key p.value = .ok name' ∧ SetsClean name' ps

/-- Every component has a value after its `=`. -/
def Valued (s : CString) : Prop := ∀ c ∈ components s.bytes, c.dropWhile (· ≠ EQUALS) ≠ [EQUALS]

instance (s : CString) : Decidable (Valued s) :=
  inferInstanceAs (Decidable (∀ c ∈ components s.bytes, c.dropWhile (· ≠ EQUALS) ≠ [EQUALS]))

/-- Names that are made from parsed ones by clean edits. -/
inductive Built : Name → Prop
  | parse {s : CString} {name : Name} : parse s = some name → Valued s → Built name
  | set {name name' : Name} {key : CString} {value : Option CString} : Built name →
      name.SetClean key value → name.set key value = .ok name' → Built name'
  | unset {name name' : Name} {key : CString} : Built name → name.unset key = .ok name' →
      Built name'
  | concat {name other name' : Name} {qs : List Part} : Built name → other.used = .ok qs →
      name.SetsClean qs → name.concat other = .ok name' → Built name'

theorem coherent_of_valued {s : CString} {name : Name} (h : parse s = some name) (hs : Valued s) :
    ∃ ps, name.Coherent ps := by
  obtain ⟨ps, hholds, hparsed, hperm, -⟩ := parse_spec h
  refine ⟨ps, coherent_iff.mpr ⟨hholds, fun p hp => ⟨hparsed p hp, fun hempty => ?_⟩⟩⟩
  have hmem : p.text ∈ components s.bytes :=
    List.mem_of_mem_filter (hperm.subset (List.mem_map_of_mem hp))
  obtain ⟨⟨k, hk, hequals, -⟩, -⟩ := hparsed p hp
  refine hs _ hmem ?_
  rw [Part.text, hk, hempty, Option.elim_some, Option.elim_some,
    List.dropWhile_append_of_pos fun c hc => by simp [ne_of_mem_of_not_mem hc hequals]]
  rfl

theorem set_coherent {name name' : Name} {key : CString} {value : Option CString}
    (h : ∃ ps, name.Coherent ps) (hclean : name.SetClean key value)
    (hset : name.set key value = .ok name') : ∃ ps, name'.Coherent ps := by
  obtain ⟨ps, hps⟩ := h
  obtain ⟨name'', ps', hset', -, hiff⟩ := set_coherent_iff hps key value
  obtain rfl := Except.ok.inj (hset.symm.trans hset')
  exact ⟨ps', hiff.mpr hclean⟩

theorem setAll_coherent {qs : List Part} {name name' : Name} (h : ∃ ps, name.Coherent ps)
    (hclean : name.SetsClean qs) (hset : name.setAll qs = .ok name') :
    ∃ ps, name'.Coherent ps := by
  induction qs generalizing name with
  | nil =>
    obtain rfl := Except.ok.inj hset
    exact h
  | cons q qs ih =>
    obtain ⟨key, next, hkey, hfirst, hnext, hrest⟩ := hclean
    rw [setAll, hkey, deref_some, ok_bind, hnext, ok_bind] at hset
    exact ih (set_coherent h hfirst hnext) hrest hset

theorem unset_coherent {name name' : Name} {key : CString} (h : ∃ ps, name.Coherent ps)
    (hunset : name.unset key = .ok name') : ∃ ps, name'.Coherent ps := by
  obtain ⟨ps, hps⟩ := h
  obtain ⟨hholds, hcoherent⟩ := coherent_iff.mp hps
  obtain ⟨name'', ps', hunset', hholds', -, hcases⟩ :=
    unset_spec hholds (fun p hp => (hcoherent p hp).parsed.filled.name) key
  obtain rfl := Except.ok.inj (hunset.symm.trans hunset')
  refine ⟨ps', coherent_iff.mpr ⟨hholds', fun p hp => hcoherent p ?_⟩⟩
  rcases hcases with ⟨l, q, r, rfl, -, rfl⟩ | ⟨-, rfl⟩
  · exact ((List.sublist_cons_self q r).append_left l).subset hp
  · exact hp

/-- A name that is built by clean edits is coherent, and the next call of `bolo_name_set` keeps
it so exactly if that is clean. -/
theorem built_coherent {name : Name} (h : Built name) :
    ∃ ps, name.Coherent ps ∧ ∀ key value, ∃ name' ps', name.set key value = .ok name' ∧
      name'.used = .ok ps' ∧ (name'.Coherent ps' ↔ name.SetClean key value) := by
  have hcoherent : ∃ ps, name.Coherent ps := by
    induction h with
    | parse hparse hvalued => exact coherent_of_valued hparse hvalued
    | set _ hclean hset ih => exact set_coherent ih hclean hset
    | unset _ hunset ih => exact unset_coherent ih hunset
    | concat _ hused hclean hconcat ih =>
      rw [concat, hused, ok_bind] at hconcat
      exact setAll_coherent ih hclean hconcat
  obtain ⟨ps, hps⟩ := hcoherent
  exact ⟨ps, hps, set_coherent_iff hps⟩

theorem built_coherent_edited :
    ∃ ps, Coherent ⟨2, true, [.lit "c" "e", .lit "x" "y"]⟩ ps := by
  have hparsed : Built ⟨2, true, [.lit "a" "b", .lit "c" "d", .blank]⟩ :=
    .parse (s := .lit "c=d,*,a=b") (by decide +kernel) (by decide)
  have hset : SetClean ⟨2, true, [.lit "a" "b", .lit "c" "d", .blank]⟩ (.lit "c")
      (some (.lit "e")) := by
    refine ⟨⟨_, rfl, by decide, by decide, by decide⟩, by decide, fun ps p hused hfind => ?_⟩
    obtain rfl := Except.ok.inj hused
    obtain rfl := Option.some.inj (hfind.symm.trans (show _ = some (.lit "c" "d") by decide))
    rfl
  have hedited : Built ⟨2, true, [.lit "a" "b", .lit "c" "e", .blank]⟩ :=
    .set hparsed hset (by decide +kernel)
  have hunset : unset ⟨2, true, [.lit "a" "b", .lit "c" "e", .blank]⟩ (.lit "a") =
      .ok ⟨1, true, [.lit "c" "e", .blank, .blank]⟩ := by decide +kernel
  have hadd : SetClean ⟨1, true, [.lit "c" "e", .blank, .blank]⟩ (.lit "x") (some (.lit "y")) := by
    refine ⟨⟨_, rfl, by decide, by decide, by decide⟩, by decide, fun ps p hused hfind => ?_⟩
    obtain rfl := Except.ok.inj hused
    exact absurd (hfind.symm.trans (show _ = none by decide)) (by simp)
  have hconcat : concat ⟨1, true, [.lit "c" "e", .blank, .blank]⟩ ⟨1, false, [.lit "x" "y"]⟩ =
      .ok ⟨2, true, [.lit "c" "e", .lit "x" "y"]⟩ := by decide +kernel
  have hsets : SetsClean ⟨1, true, [.lit "c" "e", .blank, .blank]⟩ [.lit "x" "y"] :=
    ⟨.lit "x", ⟨2, true, [.lit "c" "e", .lit "x" "y"]⟩, rfl, hadd, by decide +kernel, trivial⟩
  obtain ⟨ps, hps, -⟩ := built_coherent (((hedited.unset hunset).concat rfl hsets) hconcat)
  exact ⟨ps, hps⟩

/-- A `*` leaves no value to print, and an empty value is flagged. -/
theorem star_unprintable :
    (∃ name name', parse (.lit "a=b") = some name ∧
      name.set (.lit "a") (some (.lit "*")) = .ok name' ∧ name'.string = .error .nullDeref) ∧
    ∃ name, parse (.lit "a=") = some name ∧
      name.used = .ok [⟨some (.lit "a"), some (.lit ""), true⟩] :=
  ⟨⟨⟨1, false, [⟨some (.lit "a"), some (.lit "b"), false⟩]⟩,
      ⟨1, false, [⟨some (.lit "a"), none, false⟩]⟩, by decide +kernel⟩,
    ⟨1, false, [⟨some (.lit "a"), some (.lit ""), true⟩]⟩, by decide +kernel⟩

end Name

end Bolo
