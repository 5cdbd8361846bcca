import Mathlib.Data.List.Basic
import Mathlib.Tactic.Ring

/-!
# Top-down merge sort

The algorithm behind the C library's `qsort`: halve the array, sort the halves, merge them
and prefer the left one on ties. The comparison need not be an order on all elements. The
main result allows for elements at the end of the array that compare equal to everything,
such as unused slots.
-/
namespace Library

variable {α : Type} {r s : α → α → Bool}

/-- `List.merge` by recursion on the left list, which evaluates in proofs: what does not wait
for `a` goes before it. -/
def mergeLists (r : α → α → Bool) : List α → List α → List α
  | [], m => m
  | a :: l, m =>
    m.takeWhile (fun b => !r a b) ++ a :: mergeLists r l (m.dropWhile fun b => !r a b)

theorem mergeLists_eq (l m : List α) : mergeLists r l m = l.merge m r := by
  induction l generalizing m with
  | nil => simp [mergeLists]
  | cons a l ih =>
    induction m with
    | nil => simp [mergeLists, ih]
    | cons b m ihm =>
      by_cases hab : r a b
      · rw [List.cons_merge_cons_pos _ _ _ hab, ← ih]
        simp [mergeLists, hab]
      · rw [List.cons_merge_cons_neg _ _ _ hab, ← ihm]
        simp [mergeLists, hab]

def msort (r : α → α → Bool) (l : List α) : List α :=
  if _h : l.length < 2 then l
  else mergeLists r (msort r (l.take (l.length / 2))) (msort r (l.drop (l.length / 2)))
termination_by l.length
decreasing_by
  · rw [List.length_take]; omega
  · rw [List.length_drop]; omega

theorem msort_of_lt {l : List α} (h : l.length < 2) : msort r l = l := by
  rw [msort, dif_pos h]

theorem msort_of_le {l : List α} (h : 2 ≤ l.length) :
    msort r l = (msort r (l.take (l.length / 2))).merge (msort r (l.drop (l.length / 2))) r := by
  rw [msort, dif_neg (by omega), mergeLists_eq]

/-- An array in order stays as it is. -/
theorem msort_of_pairwise {l : List α} (h : l.Pairwise (r · ·)) : msort r l = l := by
  induction l using msort.induct with
  | case1 l hlt => exact msort_of_lt hlt
  | case2 l hge ih₁ ih₂ =>
    have hsplit : (l.take (l.length / 2) ++ l.drop (l.length / 2)).Pairwise (r · ·) := by
      rwa [List.take_append_drop]
    obtain ⟨hl, hr, hlr⟩ := List.pairwise_append.mp hsplit
    rw [msort_of_le (by omega), ih₁ hl, ih₂ hr,
      List.merge_of_le fun a b ha hb => hlr a ha b hb, List.take_append_drop]

/-- Elements that everything on the left precedes stay behind. -/
theorem merge_append_right {l m t : List α} (h : ∀ a ∈ l, ∀ b ∈ t, r a b) :
    l.merge (m ++ t) r = l.merge m r ++ t := by
  induction l generalizing m with
  | nil => simp
  | cons a l ih =>
    have hl : ∀ a ∈ l, ∀ b ∈ t, r a b := fun a ha => h a (by simp [ha])
    induction m with
    | nil =>
      rw [List.nil_append, List.merge_right]
      exact List.merge_of_le fun a b ha hb => h a ha b hb
    | cons b m ihm =>
      by_cases hab : r a b
      · simp only [List.cons_append, List.cons_merge_cons_pos _ _ _ hab]
        exact congrArg _ (ih (m := b :: m) hl)
      · simp only [List.cons_append, List.cons_merge_cons_neg _ _ _ hab, ihm]

section Blanks

variable {blank : α → Prop} (htie : ∀ a b, blank b → r a b)
  (hagree : ∀ a b, ¬blank a → ¬blank b → r a b = s a b)
  (htrans : ∀ a b c, s a b → s b c → s a c) (htotal : ∀ a b, s a b || s b a)

include hagree htrans htotal in
theorem merge_sorted {l m : List α} (hl : ∀ a ∈ l, ¬blank a) (hm : ∀ b ∈ m, ¬blank b)
    (hls : l.Pairwise (s · ·)) (hms : m.Pairwise (s · ·)) : (l.merge m r).Pairwise (s · ·) := by
  have hmap := List.map_merge (f := id) (r := r) (s := s)
    fun a ha b hb => hagree a b (hl a ha) (hm b hb)
  rw [show l.merge m r = l.merge m s by simpa using hmap]
  exact List.pairwise_merge htrans htotal l m hls hms

include htie hagree htrans htotal in
/-- Sorting an array whose last elements are blank, which tie with everything, sorts the others
and leaves those where they are. -/
theorem msort_append {l t : List α} (hl : ∀ a ∈ l, ¬blank a) (ht : ∀ b ∈ t, blank b) :
    ∃ l', msort r (l ++ t) = l' ++ t ∧ l'.Perm l ∧ l'.Pairwise (s · ·) := by
  induction hn : (l ++ t).length using Nat.strongRecOn generalizing l t with
  | ind n ih =>
    rw [List.length_append] at hn
    by_cases hlt : n < 2
    · refine ⟨l, msort_of_lt (by rw [List.length_append]; omega), .refl _, ?_⟩
      match l with
      | [] => exact .nil
      | [a] => exact List.pairwise_singleton _ _
      | a :: b :: l => simp only [List.length_cons] at hn; omega
    · rw [msort_of_le (by rw [List.length_append]; omega), List.length_append, hn,
        List.take_append, List.drop_append]
      generalize hk : n / 2 = k
      by_cases hkl : k ≤ l.length
      · -- the blanks are all in the right half
        have hzero : k - l.length = 0 := by omega
        rw [hzero, List.take_zero, List.drop_zero]
        obtain ⟨a, ha, hpa, hsa⟩ := ih (l.take k ++ []).length
          (by rw [List.append_nil, List.length_take]; omega) (l := l.take k) (t := [])
          (fun a ha => hl a (List.mem_of_mem_take ha)) (by simp) rfl
        obtain ⟨b, hb, hpb, hsb⟩ := ih (l.drop k ++ t).length
          (by rw [List.length_append, List.length_drop]; omega) (l := l.drop k)
          (fun a ha => hl a (List.mem_of_mem_drop ha)) ht rfl
        rw [ha, hb, List.append_nil, merge_append_right fun x _ y hy => htie x y (ht y hy)]
        refine ⟨a.merge b r, rfl, ?_, merge_sorted hagree htrans htotal ?_ ?_ hsa hsb⟩
        · refine (List.merge_perm_append r).trans ((hpa.append hpb).trans ?_)
          rw [List.take_append_drop]
        · exact fun x hx => hl x (List.mem_of_mem_take (hpa.subset hx))
        · exact fun x hx => hl x (List.mem_of_mem_drop (hpb.subset hx))
      · -- the right half is blank
        rw [List.take_of_length_le (by omega : l.length ≤ k),
          List.drop_of_length_le (by omega : l.length ≤ k), List.nil_append]
        obtain ⟨a, ha, hpa, hsa⟩ := ih (l ++ t.take (k - l.length)).length
          (by rw [List.length_append, List.length_take]; omega) hl
          (fun b hb => ht b (List.mem_of_mem_take hb)) rfl
        have hblank : msort r (t.drop (k - l.length)) = t.drop (k - l.length) := by
          refine msort_of_pairwise (List.pairwise_of_forall_mem_list fun x _ y hy => ?_)
          exact htie x y (ht y (List.mem_of_mem_drop hy))
        rw [ha, hblank, List.merge_of_le fun x y _ hy => htie x y (ht y (List.mem_of_mem_drop hy))]
        exact ⟨a, by rw [List.append_assoc, List.take_append_drop], hpa, hsa⟩

end Blanks

end Library
