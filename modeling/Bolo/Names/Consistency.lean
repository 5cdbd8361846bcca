import Bolo.Names.Grammar
import Mathlib.Data.List.Chain

/-!
# The comparison that sorts the parts

`bolo_name_parse` hands all its slots to `qsort`, and those of the `*` components have no name.
`s_sort` calls such a slot equal to every other, also to two parts that it does not call equal
to each other. So it orders the slots only if there is no such slot, or nothing to order.
-/
namespace Bolo.Name

open Library

/-- The array that `bolo_name_parse` hands to `qsort`, if it comes that far. -/
def sorting (name : CString) : Option (List Part) :=
  if name.bytes = [] then none
  else
    let n := name.bytes.count COMMA + 1
    (parseLoop n name.bytes).map fun r => r.1 ++ List.replicate (n - r.1.length) .blank

/-- What `qsort` may expect of `s_sort` on the elements of an array. -/
structure Consistent (ps : List Part) : Prop where
  opposite : ∀ a ∈ ps, ∀ b ∈ ps, sSort a b ≤ 0 ↔ 0 ≤ sSort b a
  total : ∀ a ∈ ps, ∀ b ∈ ps, sSort a b ≤ 0 ∨ sSort b a ≤ 0
  trans : ∀ a ∈ ps, ∀ b ∈ ps, ∀ c ∈ ps, sSort a b ≤ 0 → sSort b c ≤ 0 → sSort a c ≤ 0

/-- The parts of an array are in the order of their keys, wherever its blank slots are. -/
def Ordered (ps : List Part) : Prop :=
  (ps.filterMap Part.name).Pairwise fun x y => strcmp x y ≤ 0

theorem parts_of_sorting {s : CString} {ps : List Part} (h : sorting s = some ps) :
    ∃ q, parse s = some q ∧ q.parts = qsort ps := by
  unfold sorting at h
  split at h
  · simp at h
  · case isFalse hne =>
      obtain ⟨r, hr, rfl⟩ := Option.map_eq_some_iff.mp h
      refine ⟨{ size := r.1.length, wildcard := r.2, parts := _ }, ?_, rfl⟩
      rw [parse, if_neg hne]
      exact congrArg (Option.map _) hr

/-! ## Slots without a name -/

theorem strcmp_opposite (x y : CString) : strcmp x y ≤ 0 ↔ 0 ≤ strcmp y x := by
  unfold strcmp
  by_cases hlt : x.bytes < y.bytes
  · simp [hlt, List.lt_asymm hlt]
  · by_cases hgt : y.bytes < x.bytes
    · simp [hlt, hgt]
    · simp [hlt, hgt]

theorem sSort_blank (a : Part) : sSort a .blank = 0 ∧ sSort .blank a = 0 := by
  cases h : a.name <;> simp [sSort, Part.blank, h]

theorem sSort_opposite (a b : Part) : sSort a b ≤ 0 ↔ 0 ≤ sSort b a := by
  cases ha : a.name with
  | none => simp [sSort, ha]
  | some x =>
    cases hb : b.name with
    | none => simp [sSort, ha, hb]
    | some y => simpa [sSort, ha, hb] using strcmp_opposite x y

theorem sSort_total (a b : Part) : sSort a b ≤ 0 ∨ sSort b a ≤ 0 := by
  have hopposite := sSort_opposite a b
  omega

section Slots

variable {ps : List Part} {n : Nat}

theorem sSort_trans (h : ∀ p ∈ ps, p.name.isSome) {a b c : Part} (ha : a ∈ ps) (hb : b ∈ ps)
    (hc : c ∈ ps) (hab : sSort a b ≤ 0) (hbc : sSort b c ≤ 0) : sSort a c ≤ 0 := by
  rw [sSort_le_zero (h a ha) (h b hb)] at hab
  rw [sSort_le_zero (h b hb) (h c hc)] at hbc
  exact (sSort_le_zero (h a ha) (h c hc)).mpr (List.le_trans hab hbc)

/-- Nothing tells parts of one name and blank slots apart. -/
theorem sSort_same (h : ∀ p ∈ ps, ∀ q ∈ ps, p.name = q.name) {a b : Part}
    (ha : a ∈ ps ++ List.replicate n .blank) (hb : b ∈ ps ++ List.replicate n .blank) :
    sSort a b = 0 := by
  rcases List.mem_append.mp ha with ha | ha
  · rcases List.mem_append.mp hb with hb | hb
    · cases hname : b.name with
      | none => simp [sSort, h a ha b hb, hname]
      | some x =>
        simp only [sSort, h a ha b hb, hname]
        exact strcmp_eq_zero.mpr rfl
    · exact List.eq_of_mem_replicate hb ▸ (sSort_blank a).1
  · exact List.eq_of_mem_replicate ha ▸ (sSort_blank b).2

/-- A blank slot goes between any two parts, so that all of them have to tie. -/
theorem consistent_iff (h : ∀ p ∈ ps, p.name.isSome) :
    Consistent (ps ++ List.replicate n .blank) ↔
      n = 0 ∨ ∀ p ∈ ps, ∀ q ∈ ps, p.name = q.name := by
  constructor
  · intro hconsistent
    refine or_iff_not_imp_left.mpr fun hn p hp q hq => ?_
    have hp' : p ∈ ps ++ List.replicate n .blank := List.mem_append_left _ hp
    have hq' : q ∈ ps ++ List.replicate n .blank := List.mem_append_left _ hq
    have hblank : Part.blank ∈ ps ++ List.replicate n .blank :=
      List.mem_append_right _ (List.mem_replicate.mpr ⟨hn, rfl⟩)
    have hpq := hconsistent.trans p hp' .blank hblank q hq' (sSort_blank p).1.le
      (sSort_blank q).2.le
    have hqp := hconsistent.trans q hq' .blank hblank p hp' (sSort_blank q).1.le
      (sSort_blank p).2.le
    obtain ⟨x, hx⟩ := Option.isSome_iff_exists.mp (h p hp)
    obtain ⟨y, hy⟩ := Option.isSome_iff_exists.mp (h q hq)
    rw [sSort_le_zero (h p hp) (h q hq), Part.key, Part.key, hx, hy] at hpq
    rw [sSort_le_zero (h q hq) (h p hp), Part.key, Part.key, hx, hy] at hqp
    rw [hx, hy, CString.ext (List.le_antisymm hpq hqp)]
  · rintro hcases
    refine ⟨fun a _ b _ => sSort_opposite a b, fun a _ b _ => sSort_total a b, ?_⟩
    intro a ha b hb c hc hab hbc
    rcases hcases with rfl | hsame
    · rw [List.replicate_zero, List.append_nil] at ha hb hc
      exact sSort_trans h ha hb hc hab hbc
    · exact (sSort_same hsame ha hc).le

/-- However the slots are arranged, if neighbours are in order then all parts are. -/
theorem ordered_of_isChain (h : ∀ p ∈ ps, p.name.isSome)
    (hcases : n = 0 ∨ ∀ p ∈ ps, ∀ q ∈ ps, p.name = q.name) {qs : List Part}
    (hperm : qs.Perm (ps ++ List.replicate n .blank)) (hchain : qs.IsChain (sSort · · ≤ 0)) :
    Ordered qs := by
  rcases hcases with rfl | hsame
  · rw [List.replicate_zero, List.append_nil] at hperm
    have hkeys : qs.IsChain (·.key ≤ ·.key) := hchain.imp_of_mem_imp fun a b ha hb hab =>
      (sSort_le_zero (h a (hperm.subset ha)) (h b (hperm.subset hb))).mp hab
    have htrans : IsTrans Part (·.key ≤ ·.key) := ⟨fun _ _ _ => List.le_trans⟩
    refine List.pairwise_filterMap.mpr (hkeys.pairwise.imp fun {a b} hab x hx y hy => ?_)
    rw [Part.key, Part.key, hx, hy] at hab
    exact strcmp_le_zero.mpr hab
  · refine List.pairwise_of_forall_mem_list fun x hx y hy => ?_
    obtain ⟨p, hp, hpx⟩ := List.mem_filterMap.mp hx
    obtain ⟨q, hq, hqy⟩ := List.mem_filterMap.mp hy
    have hzero := sSort_same hsame (hperm.subset hp) (hperm.subset hq)
    simp only [sSort, hpx, hqy] at hzero
    exact hzero.le

end Slots

/-! ## Names -/

section Items

variable {items : List Item}

/-- Each `*` leaves a slot blank. -/
theorem length_filterMap_eq : (items.filterMap Item.part).length = items.length ↔
    .star ∉ items := by
  induction items with
  | nil => simp
  | cons i items ih =>
    have hle := List.length_filterMap_le Item.part items
    cases i with
    | star =>
      simp only [List.filterMap_cons, Item.part, List.length_cons, List.mem_cons, true_or,
        not_true_eq_false, iff_false]
      omega
    | pair key value => simpa [List.filterMap_cons, Item.part] using ih

theorem filterMap_part_same : (∀ p ∈ items.filterMap Item.part,
    ∀ q ∈ items.filterMap Item.part, p.name = q.name) ↔
      ∀ e ∈ itemPairs items, ∀ f ∈ itemPairs items, e.1 = f.1 := by
  have hnames : (items.filterMap Item.part).map Part.name =
      (itemPairs items).map fun e => some e.1 := by
    rw [itemPairs, List.map_filterMap, List.map_filterMap]
    refine List.filterMap_congr fun i _ => ?_
    cases i <;> simp [Item.part, Item.pair?, Part.of]
  calc (∀ p ∈ items.filterMap Item.part, ∀ q ∈ items.filterMap Item.part, p.name = q.name) ↔
        ∀ x ∈ (items.filterMap Item.part).map Part.name,
          ∀ y ∈ (items.filterMap Item.part).map Part.name, x = y := by
        simp only [List.forall_mem_map]
    _ ↔ ∀ e ∈ itemPairs items, ∀ f ∈ itemPairs items, e.1 = f.1 := by
        simp only [hnames, List.forall_mem_map, Option.some.injEq]

theorem sorting_items {s : CString} (h : ∀ i ∈ items, i.Valid) (hs : itemsText items = s.bytes)
    (hne : items ≠ []) : sorting s = some (items.filterMap Item.part ++
      List.replicate (items.length - (items.filterMap Item.part).length) .blank) := by
  have htext : s.bytes ≠ [] := hs ▸ itemsText_ne_nil h hne
  have hcomponents : s.bytes.splitOn COMMA = items.map Item.text := by
    rw [← components_itemsText h, hs, components, if_neg htext]
  have hlen : s.bytes.count COMMA + 1 = items.length := by
    rw [count_add_one, hcomponents, List.length_map]
  simp only [sorting, if_neg htext, hlen]
  rw [parseLoop_eq s.nulFree (by rw [hcomponents, List.length_map]), hcomponents,
    parseComponents_items h, Option.map_some]

/-- The slots that an accepted string is read into. -/
theorem items_of_sorting {s : CString} {ps : List Part} (h : sorting s = some ps) :
    ∃ items : List Item, (∀ i ∈ items, i.Valid) ∧ itemsText items = s.bytes ∧ items ≠ [] := by
  obtain ⟨q, hq, -⟩ := parts_of_sorting h
  obtain ⟨items, hvalid, hs⟩ := exists_items hq
  refine ⟨items, hvalid, hs, ?_⟩
  rintro rfl
  have hnil : s.bytes = [] := hs.symm
  simp [sorting, hnil] at h

end Items

/-- `s_sort` orders the slots of a name, and whatever algorithm goes by it brings the parts in
order, if and only if there is no `*` or all keys are the same. -/
theorem sorting_consistent_iff (s : CString) :
    (∀ ps, sorting s = some ps → Consistent ps ∧
      ∀ qs : List Part, qs.Perm ps → qs.IsChain (sSort · · ≤ 0) → Ordered qs) ↔
    ∀ items, (∀ i ∈ items, i.Valid) → itemsText items = s.bytes → .star ∉ items ∨
      ∀ e ∈ itemPairs items, ∀ f ∈ itemPairs items, e.1 = f.1 := by
  have hslots {items : List Item} (hvalid : ∀ i ∈ items, i.Valid)
      (hs : itemsText items = s.bytes) (hne : items ≠ []) :
      ∃ ps n, sorting s = some (ps ++ List.replicate n .blank) ∧ (∀ p ∈ ps, p.name.isSome) ∧
        ((n = 0 ∨ ∀ p ∈ ps, ∀ q ∈ ps, p.name = q.name) ↔ .star ∉ items ∨
          ∀ e ∈ itemPairs items, ∀ f ∈ itemPairs items, e.1 = f.1) := by
    refine ⟨_, _, sorting_items hvalid hs hne, fun p hp => part_filled hp, ?_⟩
    have hle := List.length_filterMap_le Item.part items
    rw [filterMap_part_same, ← length_filterMap_eq]
    refine or_congr_left ?_
    omega
  constructor
  · intro h items hvalid hs
    by_cases hne : items = []
    · exact .inl (by simp [hne])
    · obtain ⟨ps, n, hsorting, hnamed, hiff⟩ := hslots hvalid hs hne
      exact hiff.mp ((consistent_iff hnamed).mp (h _ hsorting).1)
  · intro h ps hps
    obtain ⟨items, hvalid, hs, hne⟩ := items_of_sorting hps
    obtain ⟨ps', n, hsorting, hnamed, hiff⟩ := hslots hvalid hs hne
    obtain rfl := Option.some.inj (hps.symm.trans hsorting)
    have hcases := hiff.mpr (h items hvalid hs)
    exact ⟨(consistent_iff hnamed).mpr hcases, fun qs hperm hchain =>
      ordered_of_isChain hnamed hcases hperm hchain⟩

/-- `b` and the slot of the `*`, and that slot and `a`, compare equal, and `b` comes after `a`. -/
theorem star_not_transitive : ∃ ps, sorting (.lit "b=1,*,a=2") = some ps ∧
    .lit "b" "1" ∈ ps ∧ .blank ∈ ps ∧ .lit "a" "2" ∈ ps ∧
      sSort (.lit "b" "1") .blank ≤ 0 ∧ sSort .blank (.lit "a" "2") ≤ 0 ∧
        ¬sSort (.lit "b" "1") (.lit "a" "2") ≤ 0 :=
  ⟨[.lit "b" "1", .lit "a" "2", .blank], by decide +kernel, by decide, by decide, by decide,
    by decide, by decide, by decide⟩

end Bolo.Name
