import Mathlib.Data.List.Basic
import Mathlib.Data.List.TakeWhile
import Mathlib.Tactic.Ring

/-!
# Splitting a stream at a separator

`pieces` are the parts of a stream that a separator ends, `rest` is what follows the last
one. Cutting the stream anywhere and carrying the rest over to the next part gives the same
pieces. `wordsBy` are the parts of a line between blanks of any kind and number.
-/
namespace Library

variable {α : Type} [DecidableEq α] (sep : α)

def pieces (l : List α) : List (List α) := (l.splitOn sep).dropLast

def rest (l : List α) : List α := (l.splitOn sep).getLastD []

variable {sep}

theorem pieces_of_notMem {l : List α} (h : sep ∉ l) : pieces sep l = [] := by
  simp [pieces, List.splitOn_eq_singleton h]

theorem rest_of_notMem {l : List α} (h : sep ∉ l) : rest sep l = l := by
  simp [rest, List.splitOn_eq_singleton h]

theorem pieces_append_rest (l : List α) : pieces sep l ++ [rest sep l] = l.splitOn sep := by
  have hne : l.splitOn sep ≠ [] := List.splitOnP_ne_nil _ _
  rw [pieces, rest, List.getLastD_eq_getLast?, List.getLast?_eq_some_getLast hne]
  exact List.dropLast_append_getLast hne

theorem splitOn_append_cons {x : List α} (hx : sep ∉ x) (l : List α) :
    (x ++ sep :: l).splitOn sep = x :: l.splitOn sep := by
  have hne : ∀ c ∈ x, (c == sep) = false := fun c hc => beq_false_of_ne (ne_of_mem_of_not_mem hc hx)
  exact List.splitOnP_append_cons_of_forall_mem hne sep (by simp) l

theorem pieces_append_cons {x : List α} (hx : sep ∉ x) (l : List α) :
    pieces sep (x ++ sep :: l) = x :: pieces sep l := by
  have hne : l.splitOn sep ≠ [] := List.splitOnP_ne_nil _ _
  rw [pieces, splitOn_append_cons hx, List.dropLast_cons_of_ne_nil hne]
  rfl

theorem rest_append_cons {x : List α} (hx : sep ∉ x) (l : List α) :
    rest sep (x ++ sep :: l) = rest sep l := by
  rw [rest, splitOn_append_cons hx, rest]
  cases h : l.splitOn sep with
  | nil => exact absurd h (List.splitOnP_ne_nil _ _)
  | cons y ys => rfl

variable (sep) in
/-- A stream is either without separator, or a piece and a shorter stream. -/
theorem split_induction {P : List α → Prop} (hrest : ∀ l, sep ∉ l → P l)
    (hpiece : ∀ x l, sep ∉ x → P l → P (x ++ sep :: l)) (l : List α) : P l := by
  induction hn : l.length using Nat.strongRecOn generalizing l with
  | ind n ih =>
    by_cases h : sep ∈ l
    · obtain ⟨x, y, rfl, hx⟩ := List.eq_append_cons_of_mem h
      refine hpiece x y hx (ih y.length ?_ y rfl)
      simp only [List.length_append, List.length_cons] at hn
      omega
    · exact hrest l h

theorem notMem_rest (l : List α) : sep ∉ rest sep l := by
  induction l using split_induction sep with
  | hrest l h => rwa [rest_of_notMem h]
  | hpiece x l hx ih => rwa [rest_append_cons hx]

theorem count_add_one (l : List α) : l.count sep + 1 = (l.splitOn sep).length := by
  induction l using split_induction sep with
  | hrest l h => rw [List.count_eq_zero.mpr h, List.splitOn_eq_singleton h, List.length_singleton]
  | hpiece x l hx ih =>
    rw [splitOn_append_cons hx, List.count_append, List.count_eq_zero.mpr hx, List.count_cons_self,
      List.length_cons]
    omega

theorem notMem_splitOn (l : List α) : ∀ x ∈ l.splitOn sep, sep ∉ x := by
  induction l using split_induction sep with
  | hrest l h => simpa [List.splitOn_eq_singleton h] using h
  | hpiece x l hx ih =>
    rw [splitOn_append_cons hx]
    intro y hy
    rcases List.mem_cons.mp hy with rfl | hy
    · exact hx
    · exact ih y hy

theorem subset_of_mem_splitOn {l x : List α} (h : x ∈ l.splitOn sep) : x ⊆ l := by
  induction l using split_induction sep with
  | hrest l hl =>
    rw [List.splitOn_eq_singleton hl, List.mem_singleton] at h
    exact h ▸ List.Subset.refl _
  | hpiece y l hy ih =>
    rw [splitOn_append_cons hy] at h
    rcases List.mem_cons.mp h with rfl | h
    · exact List.subset_append_left _ _
    · exact fun c hc => List.mem_append_right _ (List.mem_cons_of_mem _ (ih h hc))

/-- The parts make up the stream. -/
theorem flatMap_pieces_append_rest (l : List α) :
    (pieces sep l).flatMap (fun x => x ++ [sep]) ++ rest sep l = l := by
  induction l using split_induction sep with
  | hrest l h => simp [pieces_of_notMem h, rest_of_notMem h]
  | hpiece x l hx ih => simp [pieces_append_cons hx, rest_append_cons hx, ih]

theorem rest_suffix (l : List α) : rest sep l <:+ l := ⟨_, flatMap_pieces_append_rest l⟩

theorem pieces_append (l m : List α) :
    pieces sep (l ++ m) = pieces sep l ++ pieces sep (rest sep l ++ m) := by
  induction l using split_induction sep with
  | hrest l h => simp [pieces_of_notMem h, rest_of_notMem h]
  | hpiece x l hx ih =>
    rw [List.append_assoc, List.cons_append, pieces_append_cons hx, pieces_append_cons hx,
      rest_append_cons hx, ih, List.cons_append]

theorem rest_append (l m : List α) : rest sep (l ++ m) = rest sep (rest sep l ++ m) := by
  induction l using split_induction sep with
  | hrest l h => rw [rest_of_notMem h]
  | hpiece x l hx ih =>
    rw [List.append_assoc, List.cons_append, rest_append_cons hx, rest_append_cons hx, ih]

theorem pieces_append_sep (l m : List α) :
    pieces sep (l ++ sep :: m) = pieces sep l ++ rest sep l :: pieces sep m := by
  rw [pieces_append, pieces_append_cons (notMem_rest l)]

theorem rest_append_sep (l m : List α) : rest sep (l ++ sep :: m) = rest sep m := by
  rw [rest_append, rest_append_cons (notMem_rest l)]

theorem pieces_append_of_notMem (l : List α) {x : List α} (hx : sep ∉ x) :
    pieces sep (l ++ x) = pieces sep l := by
  have hrest : sep ∉ rest sep l ++ x := by simp [notMem_rest, hx]
  rw [pieces_append, pieces_of_notMem hrest, List.append_nil]

theorem rest_append_of_notMem (l : List α) {x : List α} (hx : sep ∉ x) :
    rest sep (l ++ x) = rest sep l ++ x := by
  have hrest : sep ∉ rest sep l ++ x := by simp [notMem_rest, hx]
  rw [rest_append, rest_of_notMem hrest]

omit [DecidableEq α] in
/-- A separator after every part, but for the last one. -/
theorem intercalate_eq (parts : List (List α)) :
    [sep].intercalate parts = (parts.flatMap (· ++ [sep])).dropLast := by
  induction parts with
  | nil => rfl
  | cons x parts ih =>
    cases parts with
    | nil => simp
    | cons y parts =>
      rw [List.intercalate_cons_cons, ih, List.flatMap_cons (x := x),
        List.dropLast_append_of_ne_nil (by simp)]

/-! ## Cutting at one separator -/

variable (sep) in
/-- What comes before the first separator, and after it. -/
def cutFirst (l : List α) : Option (List α × List α) :=
  if sep ∈ l then some (l.takeWhile (· ≠ sep), (l.dropWhile (· ≠ sep)).tail) else none

variable (sep) in
/-- What comes before the last separator, and after it. -/
def cutLast (l : List α) : Option (List α × List α) :=
  (cutFirst sep l.reverse).map fun r => (r.2.reverse, r.1.reverse)

theorem cutFirst_append {x : List α} (hx : sep ∉ x) (y : List α) :
    cutFirst sep (x ++ sep :: y) = some (x, y) := by
  have hne : ∀ c ∈ x, decide (c ≠ sep) = true := fun c hc => by
    simpa using ne_of_mem_of_not_mem hc hx
  rw [cutFirst, if_pos (by simp), List.takeWhile_append_of_pos hne,
    List.dropWhile_append_of_pos hne]
  simp

theorem cutFirst_eq_some {l x y : List α} :
    cutFirst sep l = some (x, y) ↔ l = x ++ sep :: y ∧ sep ∉ x := by
  refine ⟨fun h => ?_, fun ⟨hl, hx⟩ => hl ▸ cutFirst_append hx y⟩
  by_cases hmem : sep ∈ l
  · obtain ⟨u, v, rfl, hu⟩ := List.eq_append_cons_of_mem hmem
    rw [cutFirst_append hu] at h
    obtain ⟨rfl, rfl⟩ := Prod.mk.inj (Option.some.inj h)
    exact ⟨rfl, hu⟩
  · simp [cutFirst, hmem] at h

theorem eq_of_cutLast {l x y : List α} (h : cutLast sep l = some (x, y)) :
    l = x ++ sep :: y := by
  obtain ⟨r, hr, hxy⟩ := Option.map_eq_some_iff.mp h
  obtain ⟨rfl, rfl⟩ := Prod.mk.inj hxy
  rw [← List.reverse_reverse l, (cutFirst_eq_some.mp hr).1]
  simp

theorem cutLast_append (x : List α) {y : List α} (hy : sep ∉ y) :
    cutLast sep (x ++ sep :: y) = some (x, y) := by
  have hrev : sep ∉ y.reverse := by simpa using hy
  have hcut := cutFirst_append hrev x.reverse
  simp only [cutLast, List.reverse_append, List.reverse_cons, List.append_assoc,
    List.singleton_append, hcut]
  simp

/-! ## Words -/

section Words

omit [DecidableEq α]

variable (blank : α → Bool)

def wordsBy (l : List α) : List (List α) := (l.splitOnP blank).filter fun w => !w.isEmpty

variable {blank}

theorem wordsBy_nil : wordsBy blank ([] : List α) = [] := by
  simp [wordsBy]

theorem wordsBy_cons_blank {b : α} (hb : blank b = true) (l : List α) :
    wordsBy blank (b :: l) = wordsBy blank l := by
  simp [wordsBy, List.splitOnP_cons_eq_if_modifyHead, hb]

theorem wordsBy_dropWhile (l : List α) :
    wordsBy blank (l.dropWhile blank) = wordsBy blank l := by
  induction l with
  | nil => rfl
  | cons b l ih =>
    by_cases hb : blank b = true
    · rw [List.dropWhile_cons_of_pos hb, ih, wordsBy_cons_blank hb]
    · rw [List.dropWhile_cons_of_neg hb]

/-- The first word of a line that starts with one, and the words after it. -/
theorem wordsBy_cons {b : α} (hb : blank b = false) (l : List α) :
    wordsBy blank (b :: l) = (b :: l).takeWhile (fun c => !blank c) ::
      wordsBy blank ((b :: l).dropWhile fun c => !blank c) := by
  have hword : ∀ c ∈ (b :: l).takeWhile (fun c => !blank c), blank c = false := fun c hc => by
    simpa using List.mem_takeWhile_imp hc
  have hne : (b :: l).takeWhile (fun c => !blank c) ≠ [] := by simp [hb]
  have hline := List.takeWhile_append_dropWhile (p := fun c => !blank c) (l := b :: l)
  cases hrest : (b :: l).dropWhile (fun c => !blank c) with
  | nil =>
    rw [hrest, List.append_nil] at hline
    rw [hline] at hword ⊢
    simp [wordsBy, List.splitOnP_eq_singleton hword]
  | cons d rest =>
    have hd : blank d = true := by
      have hneg := List.head?_dropWhile_not (fun c => !blank c) (b :: l)
      simpa [hrest] using hneg
    rw [hrest] at hline
    conv_lhs => rw [← hline]
    rw [wordsBy, List.splitOnP_append_cons_of_forall_mem hword d hd, wordsBy_cons_blank hd]
    simp [wordsBy, hne]

theorem wordsBy_eq_nil {l : List α} : wordsBy blank l = [] ↔ l.dropWhile blank = [] := by
  rw [← wordsBy_dropWhile]
  cases h : l.dropWhile blank with
  | nil => simp [wordsBy_nil]
  | cons b rest =>
    have hb : blank b = false := by
      have hneg := List.head?_dropWhile_not blank l
      simpa [h] using hneg
    simp [wordsBy_cons hb]

theorem ne_nil_of_mem_wordsBy {l w : List α} (h : w ∈ wordsBy blank l) : w ≠ [] := by
  have hfilter := (List.mem_filter.mp h).2
  simpa [List.isEmpty_iff] using hfilter

end Words

example : pieces 0 [1, 0, 2, 3, 0, 4] = [[1], [2, 3]] ∧ rest 0 [1, 0, 2, 3, 0, 4] = [4] := by
  decide

/-- A list is a run of `f`, or a run, a stop and what follows. -/
theorem exists_run {β : Type} (f : β → Bool) (l : List β) :
    ∃ x, (∀ b ∈ x, f b = true) ∧ (l = x ∨ ∃ d y, l = x ++ d :: y ∧ f d = false) := by
  refine ⟨l.takeWhile f, fun b hb => List.mem_takeWhile_imp hb, ?_⟩
  have hsplit : l.takeWhile f ++ l.dropWhile f = l := List.takeWhile_append_dropWhile
  have hstop := List.head?_dropWhile_not f l
  cases h : l.dropWhile f with
  | nil => exact .inl (by rw [h, List.append_nil] at hsplit; exact hsplit.symm)
  | cons d y => exact .inr ⟨d, y, by rw [← h, hsplit], by rw [h] at hstop; simpa using hstop⟩

theorem run_unique {β : Type} {f : β → Bool} {x x' y y' : List β} {d d' : β}
    (hx : ∀ b ∈ x, f b = true) (hx' : ∀ b ∈ x', f b = true) (hd : f d = false)
    (hd' : f d' = false) (h : x ++ d :: y = x' ++ d' :: y') : x = x' ∧ d = d' ∧ y = y' := by
  have htake {x y : List β} {d : β} (hx : ∀ b ∈ x, f b = true) (hd : f d = false) :
      (x ++ d :: y).takeWhile f = x := by
    rw [List.takeWhile_append_of_pos hx, List.takeWhile_cons_of_neg (by simp [hd]), List.append_nil]
  have hrun := htake hx' hd' (y := y')
  rw [← h, htake hx hd] at hrun
  subst hrun
  simpa using h

end Library
