import Bolo.Names.Coherence
import Mathlib.Logic.Function.Basic

/-!
# A name as a finite map

The parts of a name whose keys are distinct stand for a finite map from keys to values. The
array is kept in the order of the keys by sorting it after an insertion and closing the gap
after a removal, and on the map `bolo_name_set`, `bolo_name_unset` and `bolo_name_concat` are
an insertion, a removal and a union in which the second name wins.
-/
namespace Bolo.Name

open Library

/-! ## Maps -/

section Maps

variable {K V : Type} [DecidableEq K]

def insert (m : K → Option V) (key : K) (value : V) : K → Option V :=
  Function.update m key (some value)

def erase (m : K → Option V) (key : K) : K → Option V := Function.update m key none

omit [DecidableEq K] in
/-- The union in which the second map wins. -/
def union (m n : K → Option V) : K → Option V := fun key => (n key).or (m key)

omit [DecidableEq K] in
theorem union_assoc (m n o : K → Option V) : union (union m n) o = union m (union n o) :=
  funext fun _ => Option.or_assoc.symm

end Maps

/-- What the parts `ps` hold under a key. -/
def valueIn (ps : List Part) (key : CString) : Option CString :=
  (ps.find? fun p => p.name = some key).bind Part.value

/-- The map that a name stands for. -/
def toMap (name : Name) : CString → Option CString := valueIn (name.parts.take name.size)

/-! ## Arrays that stand for maps -/

/-- Parts with distinct keys, each with a value other than `*`. -/
structure Entries (ps : List Part) : Prop where
  nodup : (ps.map Part.name).Nodup
  filled : ∀ p ∈ ps, ∃ key value, p.name = some key ∧ p.value = some value ∧ value ≠ .lit "*"

section Entries

variable {ps : List Part}

theorem Entries.named (h : Entries ps) : ∀ p ∈ ps, p.name.isSome := by
  intro p hp
  obtain ⟨key, value, hname, -⟩ := h.filled p hp
  simp [hname]

theorem Entries.perm {ps' : List Part} (h : Entries ps) (hperm : ps'.Perm ps) : Entries ps' :=
  ⟨(hperm.map _).nodup_iff.mpr h.nodup, fun p hp => h.filled p (hperm.subset hp)⟩

theorem entries_cons {p : Part} : Entries (p :: ps) ↔
    ((∀ q ∈ ps, q.name ≠ p.name) ∧
      ∃ key value, p.name = some key ∧ p.value = some value ∧ value ≠ .lit "*") ∧ Entries ps := by
  constructor
  · intro h
    obtain ⟨hnew, hnodup⟩ := List.nodup_cons.mp h.nodup
    refine ⟨⟨fun q hq heq => hnew ?_, h.filled p (by simp)⟩, hnodup,
      fun q hq => h.filled q (by simp [hq])⟩
    exact heq ▸ List.mem_map_of_mem hq
  · rintro ⟨⟨hnew, hp⟩, h⟩
    refine ⟨List.nodup_cons.mpr ⟨fun hmem => ?_, h.nodup⟩, List.forall_mem_cons.mpr ⟨hp, h.filled⟩⟩
    obtain ⟨q, hq, heq⟩ := List.mem_map.mp hmem
    exact hnew q hq heq

theorem valueIn_eq_some (h : Entries ps) {key value : CString} :
    valueIn ps key = some value ↔ ∃ p ∈ ps, p.name = some key ∧ p.value = some value := by
  rw [valueIn, Option.bind_eq_some_iff]
  constructor
  · rintro ⟨p, hfind, hvalue⟩
    exact ⟨p, List.mem_of_find?_eq_some hfind, by simpa using List.find?_some hfind, hvalue⟩
  · rintro ⟨p, hp, hname, hvalue⟩
    obtain ⟨q, hq⟩ : ∃ q, ps.find? (fun p => p.name = some key) = some q := by
      rw [← Option.isSome_iff_exists, List.find?_isSome]
      exact ⟨p, hp, by simpa using hname⟩
    have hqname : q.name = some key := by simpa using List.find?_some hq
    obtain rfl : q = p :=
      List.inj_on_of_nodup_map h.nodup (List.mem_of_find?_eq_some hq) hp (hqname.trans hname.symm)
    exact ⟨q, hq, hvalue⟩

theorem valueIn_cons {p : Part} {key value : CString} (hname : p.name = some key)
    (hvalue : p.value = some value) (ps : List Part) :
    valueIn (p :: ps) = insert (valueIn ps) key value := by
  funext k
  rw [insert, Function.update_apply]
  by_cases hk : k = key
  · simp [valueIn, hname, hvalue, hk]
  · simp [valueIn, hname, hk, Ne.symm hk]

theorem valueIn_eq_none {key : CString} (h : ∀ p ∈ ps, p.name ≠ some key) :
    valueIn ps key = none := by
  have hfind : ps.find? (fun p => p.name = some key) = none := by simpa using h
  rw [valueIn, hfind]
  rfl

/-- The order of the parts does not matter. -/
theorem valueIn_perm {ps' : List Part} (h : Entries ps) (hperm : ps'.Perm ps) :
    valueIn ps' = valueIn ps := by
  funext key
  refine Option.ext fun value => ?_
  simp only [valueIn_eq_some h, valueIn_eq_some (h.perm hperm), hperm.mem_iff]

/-- One part among the others. -/
theorem Entries.middle {l r : List Part} {p : Part} {key : CString} (h : Entries (l ++ p :: r))
    (hp : p.name = some key) : Entries (l ++ r) ∧ (∀ q ∈ l ++ r, q.name ≠ some key) ∧
      ∃ value, valueIn (l ++ p :: r) = insert (valueIn (l ++ r)) key value := by
  have hentries := h.perm (List.perm_middle (a := p)).symm
  obtain ⟨⟨hnew, k, value, hk, hvalue, -⟩, hrest⟩ := entries_cons.mp hentries
  refine ⟨hrest, hp ▸ hnew, value, ?_⟩
  rw [valueIn_perm hentries List.perm_middle, valueIn_cons hp hvalue]

end Entries

/-- The name is an array of such parts, in the order of their keys. -/
structure Sound (name : Name) (ps : List Part) : Prop where
  holds : name.Holds ps
  entries : Entries ps

section Sound

variable {name : Name} {ps : List Part}

theorem Sound.toMap_eq (h : name.Sound ps) : name.toMap = valueIn ps := by
  rw [toMap, (used_eq_ok.mp h.holds.used).2]

/-- The keys increase in the order of `strcmp`. -/
def Increasing (ps : List Part) : Prop :=
  ps.Pairwise fun p q => ∃ x y, p.name = some x ∧ q.name = some y ∧ strcmp x y < 0

theorem Sound.increasing (h : name.Sound ps) : Increasing ps := by
  have hne : ps.Pairwise fun p q => p.name ≠ q.name := List.pairwise_map.mp h.entries.nodup
  refine (h.holds.sorted.and hne).imp_of_mem ?_
  rintro p q hp hq ⟨hle, hne⟩
  obtain ⟨x, -, hx, -⟩ := h.entries.filled p hp
  obtain ⟨y, -, hy, -⟩ := h.entries.filled q hq
  refine ⟨x, y, hx, hy, ?_⟩
  have hle' : strcmp x y ≤ 0 := strcmp_le_zero.mpr (by simpa [Part.key, hx, hy] using hle)
  have hne' : strcmp x y ≠ 0 := fun h0 => hne (by rw [hx, hy, strcmp_eq_zero.mp h0])
  omega

theorem stored_some {value : CString} (h : value ≠ .lit "*") :
    stored (some value) = some value := stored_eq_some.mpr ⟨rfl, h⟩

/-- A name whose parts are given up to their order. -/
theorem Sound.of_perm {qs : List Part} (h : name.Holds ps) (hperm : ps.Perm qs)
    (hqs : Entries qs) : name.Sound ps ∧ name.toMap = valueIn qs := by
  have hsound : name.Sound ps := ⟨h, hqs.perm hperm⟩
  exact ⟨hsound, hsound.toMap_eq.trans (valueIn_perm hqs hperm)⟩

theorem Sound.set (h : name.Sound ps) (key : CString) {value : CString}
    (hvalue : value ≠ .lit "*") :
    ∃ name' ps', name.set key (some value) = .ok name' ∧ name'.Sound ps' ∧
      name'.toMap = insert name.toMap key value ∧ name'.wildcard = name.wildcard := by
  obtain ⟨name', ps', hset, hholds, hwild, hcases⟩ :=
    set_spec h.holds h.entries.named key (some value)
  rw [stored_some hvalue] at hcases
  -- either way, the parts are a new one and the others
  obtain ⟨p, rest, hname, hp, hperm, hentries, hmap⟩ : ∃ p rest, p.name = some key ∧
      p.value = some value ∧ ps'.Perm (p :: rest) ∧ Entries (p :: rest) ∧
      insert (valueIn rest) key value = insert (valueIn ps) key value := by
    rcases hcases with ⟨l, p, r, rfl, hp, -, rfl⟩ | ⟨hnew, hperm⟩
    · obtain ⟨hrest, hnew, v, hmap⟩ := h.entries.middle hp
      refine ⟨{ p with value := some value }, l ++ r, hp, rfl, List.perm_middle, ?_, ?_⟩
      · exact entries_cons.mpr ⟨⟨hp ▸ hnew, key, value, hp, rfl, hvalue⟩, hrest⟩
      · rw [hmap, insert, insert, insert, Function.update_idem]
    · exact ⟨_, ps, rfl, rfl, hperm, entries_cons.mpr
        ⟨⟨hnew, key, value, rfl, rfl, hvalue⟩, h.entries⟩, rfl⟩
  obtain ⟨hsound, htoMap⟩ := Sound.of_perm hholds hperm hentries
  refine ⟨name', ps', hset, hsound, ?_, hwild⟩
  rw [htoMap, valueIn_cons hname hp, hmap, h.toMap_eq]

theorem Sound.unset (h : name.Sound ps) (key : CString) :
    ∃ name' ps', name.unset key = .ok name' ∧ name'.Sound ps' ∧
      name'.toMap = erase name.toMap key ∧ name'.wildcard = name.wildcard := by
  obtain ⟨name', ps', hunset, hholds, hwild, hcases⟩ := unset_spec h.holds h.entries.named key
  obtain ⟨hentries, hmap⟩ : Entries ps' ∧ valueIn ps' = erase (valueIn ps) key := by
    rcases hcases with ⟨l, p, r, rfl, hp, rfl⟩ | ⟨hnew, rfl⟩
    · obtain ⟨hrest, hnew, v, hmap⟩ := h.entries.middle hp
      refine ⟨hrest, ?_⟩
      rw [hmap, erase, insert, Function.update_idem, Function.update_eq_self_iff.mpr]
      exact (valueIn_eq_none hnew).symm
    · refine ⟨h.entries, ?_⟩
      rw [erase, Function.update_eq_self_iff.mpr]
      exact (valueIn_eq_none hnew).symm
  have hsound : name'.Sound ps' := ⟨hholds, hentries⟩
  exact ⟨name', ps', hunset, hsound, by rw [hsound.toMap_eq, hmap, h.toMap_eq], hwild⟩

/-- The loop of `bolo_name_concat`, over parts that it has not come to. -/
theorem Sound.setAll {qs : List Part} (h : name.Sound ps) (hqs : Entries qs) :
    ∃ name' ps', name.setAll qs = .ok name' ∧ name'.Sound ps' ∧
      name'.toMap = union name.toMap (valueIn qs) ∧ name'.wildcard = name.wildcard := by
  induction qs generalizing name ps with
  | nil => exact ⟨name, ps, rfl, h, rfl, rfl⟩
  | cons q qs ih =>
    obtain ⟨⟨hnew, key, value, hname, hvalue, hstar⟩, hrest⟩ := entries_cons.mp hqs
    obtain ⟨next, ps₁, hset, hnext, hmap₁, hwild₁⟩ := h.set key hstar
    obtain ⟨name', ps', hsetAll, hsound, hmap, hwild⟩ := ih hnext hrest
    refine ⟨name', ps', ?_, hsound, ?_, hwild.trans hwild₁⟩
    · rw [Name.setAll, hname, deref_some, ok_bind, hvalue, hset, ok_bind, hsetAll]
    · rw [hmap, hmap₁, valueIn_cons hname hvalue]
      funext k
      have hnone := valueIn_eq_none (hname ▸ hnew)
      by_cases hk : k = key
      · simp [union, insert, hk, hnone]
      · simp [union, insert, hk]

theorem Sound.concat {other : Name} {qs : List Part} (h : name.Sound ps)
    (hother : other.Sound qs) :
    ∃ name' ps', name.concat other = .ok name' ∧ name'.Sound ps' ∧
      name'.toMap = union name.toMap other.toMap ∧ name'.wildcard = name.wildcard := by
  obtain ⟨name', ps', hsetAll, hsound, hmap, hwild⟩ := h.setAll hother.entries
  refine ⟨name', ps', ?_, hsound, by rw [hmap, hother.toMap_eq], hwild⟩
  rw [Name.concat, hother.holds.used, ok_bind, hsetAll]

end Sound

/-! ## Sequences of edits -/

/-- The keys of a name are distinct, and no value is `*`. -/
structure Plain (name : Name) : Prop where
  keys : ((name.parts.take name.size).map Part.name).Nodup
  values : ∀ p ∈ name.parts.take name.size, p.value ≠ some (.lit "*")

theorem sound_of_parse {s : CString} {name : Name} (h : parse s = some name)
    (hplain : name.Plain) : ∃ ps, name.Sound ps := by
  obtain ⟨ps, hholds, hparsed, -⟩ := parse_spec h
  have htake := (used_eq_ok.mp hholds.used).2
  refine ⟨ps, hholds, htake ▸ hplain.keys, fun p hp => ?_⟩
  obtain ⟨⟨key, hkey, -⟩, value, hvalue, -⟩ := hparsed p hp
  refine ⟨key, value, hkey, hvalue, fun hstar => ?_⟩
  exact hplain.values p (htake ▸ hp) (by rw [hvalue, hstar])

/-- Names that are made from parsed ones by edits that store no `*`. -/
inductive Reached : Name → Prop
  | parse {s : CString} {name : Name} : parse s = some name → name.Plain → Reached name
  | set {name name' : Name} {key value : CString} : Reached name → value ≠ .lit "*" →
      name.set key (some value) = .ok name' → Reached name'
  | unset {name name' : Name} {key : CString} : Reached name → name.unset key = .ok name' →
      Reached name'
  | concat {name other name' : Name} : Reached name → Reached other →
      name.concat other = .ok name' → Reached name'

theorem Reached.sound {name : Name} (h : Reached name) : ∃ ps, name.Sound ps := by
  induction h with
  | parse hparse hplain => exact sound_of_parse hparse hplain
  | set _ hvalue hset ih =>
    obtain ⟨ps, hps⟩ := ih
    obtain ⟨name', ps', hset', hsound, -⟩ := hps.set _ hvalue
    exact ⟨ps', Except.ok.inj (hset'.symm.trans hset) ▸ hsound⟩
  | unset _ hunset ih =>
    obtain ⟨ps, hps⟩ := ih
    obtain ⟨name', ps', hunset', hsound, -⟩ := hps.unset _
    exact ⟨ps', Except.ok.inj (hunset'.symm.trans hunset) ▸ hsound⟩
  | concat _ _ hconcat ih ihOther =>
    obtain ⟨ps, hps⟩ := ih
    obtain ⟨qs, hqs⟩ := ihOther
    obtain ⟨name', ps', hconcat', hsound, -⟩ := hps.concat hqs
    exact ⟨ps', Except.ok.inj (hconcat'.symm.trans hconcat) ▸ hsound⟩

inductive Edit where
  | set (key value : CString)
  | unset (key : CString)
  | concat (other : Name)

namespace Edit

def apply (name : Name) : Edit → Except Fault Name
  | .set key value => name.set key (some value)
  | .unset key => name.unset key
  | .concat other => name.concat other

/-- What the edit does to the map of a name. -/
def effect (m : CString → Option CString) : Edit → CString → Option CString
  | .set key value => insert m key value
  | .unset key => erase m key
  | .concat other => union m other.toMap

def Allowed : Edit → Prop
  | .set _ value => value ≠ .lit "*"
  | .unset _ => True
  | .concat other => Reached other

theorem apply_spec {name : Name} {ps : List Part} (h : name.Sound ps) {e : Edit}
    (he : e.Allowed) : ∃ name' ps', e.apply name = .ok name' ∧ name'.Sound ps' ∧
      name'.toMap = e.effect name.toMap ∧ name'.wildcard = name.wildcard := by
  cases e with
  | set key value => exact h.set key he
  | unset key => exact h.unset key
  | concat other =>
    obtain ⟨qs, hqs⟩ := Reached.sound he
    exact h.concat hqs

end Edit

/-- The parts of the name, in the order of their keys, are the entries of the map. -/
structure Represents (name : Name) (m : CString → Option CString) : Prop where
  parts : ∃ ps, name.used = .ok ps ∧ Increasing ps ∧
    (∀ p ∈ ps, ∃ key value, p.name = some key ∧ p.value = some value) ∧
    ∀ key value, m key = some value ↔ ∃ p ∈ ps, p.name = some key ∧ p.value = some value

theorem Sound.represents {name : Name} {ps : List Part} (h : name.Sound ps) :
    name.Represents name.toMap := by
  refine ⟨ps, h.holds.used, h.increasing, fun p hp => ?_, fun key value => ?_⟩
  · obtain ⟨key, value, hkey, hvalue, -⟩ := h.entries.filled p hp
    exact ⟨key, value, hkey, hvalue⟩
  · rw [h.toMap_eq, valueIn_eq_some h.entries]

theorem edits_sound {name : Name} {ps : List Part} (h : name.Sound ps) {edits : List Edit}
    (he : ∀ e ∈ edits, e.Allowed) :
    ∃ name' ps', edits.foldlM Edit.apply name = .ok name' ∧ name'.Sound ps' ∧
      name'.toMap = edits.foldl Edit.effect name.toMap ∧ name'.wildcard = name.wildcard := by
  induction edits generalizing name ps with
  | nil => exact ⟨name, ps, rfl, h, rfl, rfl⟩
  | cons e edits ih =>
    obtain ⟨hfirst, hrest⟩ := List.forall_mem_cons.mp he
    obtain ⟨next, ps₁, happly, hnext, hmap₁, hwild₁⟩ := Edit.apply_spec h hfirst
    obtain ⟨name', ps', hrun, hsound, hmap, hwild⟩ := ih hnext hrest
    refine ⟨name', ps', ?_, hsound, by rw [hmap, hmap₁, List.foldl_cons], hwild.trans hwild₁⟩
    rw [List.foldlM_cons, happly, ok_bind, hrun]

/-- Edits of a name are edits of the map that it stands for, and leave its match-all flag alone.
It does not matter for the map which of two concatenations is made first. -/
theorem edits_refine {name : Name} (h : Reached name) {edits : List Edit}
    (he : ∀ e ∈ edits, e.Allowed) :
    name.Represents name.toMap ∧
    (∃ name', edits.foldlM Edit.apply name = .ok name' ∧
      name'.Represents (edits.foldl Edit.effect name.toMap) ∧ name'.wildcard = name.wildcard) ∧
    ∀ b c, Reached b → Reached c → ∃ ab abc bc abc', name.concat b = .ok ab ∧
      ab.concat c = .ok abc ∧ b.concat c = .ok bc ∧ name.concat bc = .ok abc' ∧
      ∃ m, abc.Represents m ∧ abc'.Represents m := by
  obtain ⟨ps, hps⟩ := h.sound
  refine ⟨hps.represents, ?_, fun b c hb hc => ?_⟩
  · obtain ⟨name', ps', hrun, hsound, hmap, hwild⟩ := edits_sound hps he
    exact ⟨name', hrun, hmap ▸ hsound.represents, hwild⟩
  · obtain ⟨qs, hqs⟩ := hb.sound
    obtain ⟨rs, hrs⟩ := hc.sound
    obtain ⟨ab, _, hab, habSound, habMap, -⟩ := hps.concat hqs
    obtain ⟨abc, _, habc, habcSound, habcMap, -⟩ := habSound.concat hrs
    obtain ⟨bc, _, hbc, hbcSound, hbcMap, -⟩ := hqs.concat hrs
    obtain ⟨abc', _, habc', habcSound', habcMap', -⟩ := hps.concat hbcSound
    have hsame : abc'.toMap = abc.toMap := by
      rw [habcMap', hbcMap, habcMap, habMap, union_assoc]
    exact ⟨ab, abc, bc, abc', hab, habc, hbc, habc', abc.toMap, habcSound.represents,
      hsame ▸ habcSound'.represents⟩

theorem edits_refine_web :
    ∃ name name', parse (.lit "host=web,*,disk=root") = some name ∧
      [Edit.set (.lit "disk") (.lit "home"), .unset (.lit "host")].foldlM Edit.apply name =
        .ok name' ∧ name'.wildcard = true := by
  have hparse : parse (.lit "host=web,*,disk=root") =
      some ⟨2, true, [.lit "disk" "root", .lit "host" "web", .blank]⟩ := by decide +kernel
  have hreached := Reached.parse hparse ⟨by decide, by decide⟩
  have hallowed : ∀ e ∈ [Edit.set (.lit "disk") (.lit "home"), .unset (.lit "host")], e.Allowed :=
    List.forall_mem_cons.mpr ⟨show CString.lit "home" ≠ .lit "*" by decide,
      List.forall_mem_singleton.mpr trivial⟩
  obtain ⟨-, ⟨name', hrun, -, hwild⟩, -⟩ := edits_refine hreached hallowed
  exact ⟨_, name', hparse, hrun, hwild⟩

end Bolo.Name
