import Bolo.Names.Canonical

/-!
# Matching is inclusion

`bolo_name_match` walks two sorted arrays at once and moves past a part of the first name
only if the second has a `*`. On names whose keys are distinct this decides whether every
part of the second name is met by the first and, without a `*`, no key is left over.
-/
namespace Bolo

open Library

theorem Part.key_inj {p q : Part} (hp : p.name.isSome) (hq : q.name.isSome) :
    p.key = q.key ↔ p.name = q.name := by
  obtain ⟨x, hx⟩ := Option.isSome_iff_exists.mp hp
  obtain ⟨y, hy⟩ := Option.isSome_iff_exists.mp hq
  simp [Part.key, hx, hy, CString.ext_iff]

/-- A part with the same key whose value is the wanted one, if one is wanted. -/
def Part.Meets (p q : Part) : Prop := p.name = q.name ∧ (q.wildcard ∨ p.value = q.value)

namespace Name

/-- The parts `bs`, with or without a `*`, describe the parts `as`. -/
structure Includes (as bs : List Part) (wildcard : Bool) : Prop where
  met : ∀ q ∈ bs, ∃ p ∈ as, p.Meets q
  known : wildcard ∨ ∀ p ∈ as, ∃ q ∈ bs, p.name = q.name

/-! ## One step of the loop -/

theorem matchLoop_cons {p q : Part} (hp : p.Filled) (hq : q.Filled) (w : Bool)
    (as bs : List Part) :
    matchLoop w (p :: as) (q :: bs) =
      if p.name = q.name then
        if q.wildcard ∨ p.value = q.value then matchLoop w as bs else .ok 1
      else if w then matchLoop w as (q :: bs) else .ok 1 := by
  obtain ⟨x, hx⟩ := Option.isSome_iff_exists.mp hp.name
  obtain ⟨y, hy⟩ := Option.isSome_iff_exists.mp hq.name
  obtain ⟨u, hu⟩ := Option.isSome_iff_exists.mp hp.value
  obtain ⟨v, hv⟩ := Option.isSome_iff_exists.mp hq.value
  rw [matchLoop, hx, hy, hu, hv]
  change (if strcmp x y = 0 then (if q.wildcard then matchLoop w as bs
    else if strcmp u v ≠ 0 then .ok 1 else matchLoop w as bs)
    else if w then matchLoop w as (q :: bs) else .ok 1) = _
  simp only [strcmp_eq_zero, ne_eq, Option.some.injEq]
  by_cases hwild : q.wildcard <;> by_cases hvalue : u = v <;> simp [hwild, hvalue]

theorem matchLoop_self {ps : List Part} (h : ∀ p ∈ ps, p.Filled) (w : Bool) :
    matchLoop w ps ps = .ok 0 := by
  induction ps with
  | nil => rfl
  | cons p ps ih =>
    have hp := h p (by simp)
    rw [matchLoop_cons hp hp, if_pos rfl, if_pos (.inr rfl), ih fun p hp => h p (by simp [hp])]

/-- The loop returns. -/
theorem matchLoop_returns {as bs : List Part} (has : ∀ p ∈ as, p.Filled) (hbs : ∀ q ∈ bs, q.Filled)
    (w : Bool) : ∃ r, matchLoop w as bs = .ok r := by
  induction as generalizing bs with
  | nil => cases bs <;> exact ⟨_, rfl⟩
  | cons p as ih =>
    cases bs with
    | nil => exact ⟨_, rfl⟩
    | cons q bs =>
      have has' : ∀ p ∈ as, p.Filled := fun p hp => has p (by simp [hp])
      rw [matchLoop_cons (has p (by simp)) (hbs q (by simp))]
      split
      · split
        · exact ih has' fun q hq => hbs q (by simp [hq])
        · exact ⟨1, rfl⟩
      · split
        · exact ih has' hbs
        · exact ⟨1, rfl⟩

/-! ## One step of the inclusion -/

section Includes

variable {p q : Part} {as bs : List Part} {w : Bool}

theorem includes_of_name_eq (hname : p.name = q.name) (has : ((p :: as).map Part.name).Nodup)
    (hbs : ((q :: bs).map Part.name).Nodup) :
    Includes (p :: as) (q :: bs) w ↔ (q.wildcard ∨ p.value = q.value) ∧ Includes as bs w := by
  simp only [List.map_cons, List.nodup_cons, List.mem_map, not_exists, not_and] at has hbs
  constructor
  · rintro ⟨hmet, hknown⟩
    refine ⟨?_, ?_, ?_⟩
    · obtain ⟨p', hp', hsame, hvalue⟩ := hmet q (by simp)
      rcases List.mem_cons.mp hp' with rfl | hp'
      · exact hvalue
      · exact absurd (hsame.trans hname.symm) (has.1 p' hp')
    · intro q' hq'
      obtain ⟨p', hp', hmeets⟩ := hmet q' (by simp [hq'])
      rcases List.mem_cons.mp hp' with rfl | hp'
      · exact absurd (hmeets.1.symm.trans hname) (hbs.1 q' hq')
      · exact ⟨p', hp', hmeets⟩
    · refine hknown.imp_right fun hknown p' hp' => ?_
      obtain ⟨q', hq', hsame⟩ := hknown p' (by simp [hp'])
      rcases List.mem_cons.mp hq' with rfl | hq'
      · exact absurd (hsame.trans hname.symm) (has.1 p' hp')
      · exact ⟨q', hq', hsame⟩
  · rintro ⟨hvalue, hmet, hknown⟩
    refine ⟨?_, ?_⟩
    · intro q' hq'
      rcases List.mem_cons.mp hq' with rfl | hq'
      · exact ⟨p, by simp, hname, hvalue⟩
      · obtain ⟨p', hp', hmeets⟩ := hmet q' hq'
        exact ⟨p', by simp [hp'], hmeets⟩
    · refine hknown.imp_right fun hknown p' hp' => ?_
      rcases List.mem_cons.mp hp' with rfl | hp'
      · exact ⟨q, by simp, hname⟩
      · obtain ⟨q', hq', hsame⟩ := hknown p' hp'
        exact ⟨q', by simp [hq'], hsame⟩

/-- If the first parts differ, then nothing in the second name speaks of `p`: its key would come
after that of `q`, which is then not met. -/
theorem name_ne_of_met (hp : ∀ p' ∈ p :: as, p'.name.isSome) (hq : ∀ q' ∈ q :: bs, q'.name.isSome)
    (has : (p :: as).Pairwise (·.key ≤ ·.key)) (hbs : (q :: bs).Pairwise (·.key ≤ ·.key))
    (hne : p.name ≠ q.name) (hmet : ∃ p' ∈ p :: as, p'.name = q.name) :
    ∀ q' ∈ q :: bs, p.name ≠ q'.name := by
  intro q' hq' hsame
  obtain ⟨p', hp', hname⟩ := hmet
  have hle : p.key ≤ q.key := by
    rw [← (Part.key_inj (hp p' hp') (hq q (by simp))).mpr hname]
    rcases List.mem_cons.mp hp' with rfl | hp'
    · exact List.le_refl _
    · exact List.rel_of_pairwise_cons has hp'
  have hge : q.key ≤ p.key := by
    rw [(Part.key_inj (hp p (by simp)) (hq q' hq')).mpr hsame]
    rcases List.mem_cons.mp hq' with rfl | hq'
    · exact List.le_refl _
    · exact List.rel_of_pairwise_cons hbs hq'
  exact hne ((Part.key_inj (hp p (by simp)) (hq q (by simp))).mp (List.le_antisymm hle hge))

theorem includes_of_name_ne (hp : ∀ p' ∈ p :: as, p'.name.isSome)
    (hq : ∀ q' ∈ q :: bs, q'.name.isSome)
    (has : (p :: as).Pairwise (·.key ≤ ·.key)) (hbs : (q :: bs).Pairwise (·.key ≤ ·.key))
    (hne : p.name ≠ q.name) :
    Includes (p :: as) (q :: bs) w ↔ w ∧ Includes as (q :: bs) w := by
  constructor
  · rintro ⟨hmet, hknown⟩
    have hfree : ∀ q' ∈ q :: bs, p.name ≠ q'.name := by
      obtain ⟨p', hp', hmeets⟩ := hmet q (by simp)
      exact name_ne_of_met hp hq has hbs hne ⟨p', hp', hmeets.1⟩
    have hw : w = true := by
      refine hknown.resolve_right fun hknown => ?_
      obtain ⟨q', hq', hsame⟩ := hknown p (by simp)
      exact hfree q' hq' hsame
    refine ⟨hw, fun q' hq' => ?_, .inl hw⟩
    obtain ⟨p', hp', hmeets⟩ := hmet q' hq'
    rcases List.mem_cons.mp hp' with rfl | hp'
    · exact absurd hmeets.1 (hfree q' hq')
    · exact ⟨p', hp', hmeets⟩
  · rintro ⟨hw, hmet, -⟩
    refine ⟨fun q' hq' => ?_, .inl hw⟩
    obtain ⟨p', hp', hmeets⟩ := hmet q' hq'
    exact ⟨p', by simp [hp'], hmeets⟩

end Includes

/-! ## The whole loop -/

theorem matchLoop_spec {as bs : List Part} (has : ∀ p ∈ as, p.Filled) (hbs : ∀ q ∈ bs, q.Filled)
    (hasorted : as.Pairwise (·.key ≤ ·.key)) (hbsorted : bs.Pairwise (·.key ≤ ·.key))
    (hadistinct : (as.map Part.name).Nodup) (hbdistinct : (bs.map Part.name).Nodup) (w : Bool) :
    matchLoop w as bs = .ok 0 ↔ Includes as bs w := by
  induction as generalizing bs with
  | nil =>
    cases bs with
    | nil => exact iff_of_true rfl ⟨by simp, .inr (by simp)⟩
    | cons q bs =>
      refine iff_of_false (by simp [matchLoop]) fun h => ?_
      obtain ⟨p, hp, -⟩ := h.met q (by simp)
      cases hp
  | cons p as ih =>
    cases bs with
    | nil =>
      cases w with
      | false =>
        refine iff_of_false (by simp [matchLoop]) fun h => ?_
        obtain ⟨q, hq, -⟩ := h.known.resolve_left (by simp) p (by simp)
        cases hq
      | true => exact iff_of_true rfl ⟨by simp, .inl rfl⟩
    | cons q bs =>
      have has' : ∀ p ∈ as, p.Filled := fun p hp => has p (by simp [hp])
      have hadistinct' := (List.nodup_cons.mp hadistinct).2
      rw [matchLoop_cons (has p (by simp)) (hbs q (by simp))]
      by_cases hname : p.name = q.name
      · rw [if_pos hname, includes_of_name_eq hname hadistinct hbdistinct]
        by_cases hvalue : q.wildcard ∨ p.value = q.value
        · rw [if_pos hvalue, ih has' (fun q hq => hbs q (by simp [hq])) hasorted.of_cons
            hbsorted.of_cons hadistinct' (List.nodup_cons.mp hbdistinct).2]
          exact (and_iff_right hvalue).symm
        · rw [if_neg hvalue]
          exact iff_of_false (by simp) fun h => hvalue h.1
      · rw [if_neg hname, includes_of_name_ne (fun p hp => (has p hp).name)
          (fun q hq => (hbs q hq).name) hasorted hbsorted hname]
        cases w with
        | false => simp
        | true => simpa using ih has' hbs hasorted.of_cons hbsorted hadistinct' hbdistinct

/-! ## Matching names -/

theorem nameMatch_eq {a b : Name} {as bs : List Part} (ha : a.used = .ok as)
    (hb : b.Holds bs) : a.nameMatch b =
      if bs = [] ∧ b.wildcard then .ok 0 else matchLoop b.wildcard as bs := by
  rw [nameMatch, hb.size, ha, hb.used]
  simp only [List.length_eq_zero_iff]
  rfl

/-- Matching returns, every name matches itself, and on distinct keys matching is inclusion. -/
theorem match_inclusion {s t : CString} {a b : Name} (ha : parse s = some a)
    (hb : parse t = some b) : ∃ as bs, a.used = .ok as ∧ b.used = .ok bs ∧
      (∃ r, a.nameMatch b = .ok r) ∧ a.nameMatch a = .ok 0 ∧
      ((as.map Part.name).Nodup → (bs.map Part.name).Nodup →
        (a.nameMatch b = .ok 0 ↔ Includes as bs b.wildcard)) := by
  obtain ⟨as, haholds, haparsed, -⟩ := parse_spec ha
  obtain ⟨bs, hbholds, hbparsed, -⟩ := parse_spec hb
  have hafilled : ∀ p ∈ as, p.Filled := fun p hp => (haparsed p hp).filled
  have hbfilled : ∀ q ∈ bs, q.Filled := fun q hq => (hbparsed q hq).filled
  refine ⟨as, bs, haholds.used, hbholds.used, ?_, ?_, fun hadistinct hbdistinct => ?_⟩
  · rw [nameMatch_eq haholds.used hbholds]
    split
    · exact ⟨0, rfl⟩
    · exact matchLoop_returns hafilled hbfilled _
  · rw [nameMatch_eq haholds.used haholds, matchLoop_self hafilled]
    split <;> rfl
  · rw [nameMatch_eq haholds.used hbholds]
    split
    · rename_i hall
      exact iff_of_true rfl ⟨by simp [hall.1], .inl hall.2⟩
    · exact matchLoop_spec hafilled hbfilled haholds.sorted hbholds.sorted hadistinct hbdistinct _

theorem match_inclusion_skip :
    Includes [.lit "a" "b", .lit "c" "d", .lit "e" "f"] [.lit "a" "b", .lit "e" "*"] true := by
  obtain ⟨as, bs, has, hbs, -, -, hiff⟩ := match_inclusion
    (s := .lit "a=b,e=f,c=d") (a := ⟨3, false, [.lit "a" "b", .lit "c" "d", .lit "e" "f"]⟩)
    (t := .lit "e=*,a=b,*") (b := ⟨2, true, [.lit "a" "b", .lit "e" "*", .blank]⟩)
    (by decide +kernel) (by decide +kernel)
  obtain rfl := Except.ok.inj has
  obtain rfl := Except.ok.inj hbs
  exact (hiff (by decide +kernel) (by decide +kernel)).mp (by decide +kernel)

end Name

end Bolo
