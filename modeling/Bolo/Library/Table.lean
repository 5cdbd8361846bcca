import Bolo.Library.Outcome
import Mathlib.Data.List.Induction
import Mathlib.Data.List.Nodup

/-!
# Finite maps with an iteration order

A `Table` is a list of key/value pairs without repeated keys. The list order is the
order in which a loop over the table visits it. A new key may enter at any position;
an existing key keeps its place. Nothing below depends on where new keys go.

`sweep` is a loop over the table that rewrites every value in place, may fail, and
emits outputs. Its two specification lemmas say what one key sees of the whole loop.

`IsLast P l a` says that `a` is the last element of `l` with the property `P`. A table into
which the elements of a list are written holds, under each key, the last one with that key.
-/
namespace Library

structure Table (K V : Type) where
  entries : List (K × V)
  nodup : (entries.map Prod.fst).Nodup

namespace Table

variable {K V : Type}

instance [DecidableEq K] [DecidableEq V] : DecidableEq (Table K V) := fun s t =>
  decidable_of_iff (s.entries = t.entries) (by cases s; cases t; simp)

theorem eq_of_entries {s t : Table K V} (h : s.entries = t.entries) : s = t := by
  cases s
  cases t
  simp_all

def empty : Table K V := ⟨[], by simp⟩

/-! ## Loops over the entries -/

section Entries

variable {F O : Type} (f : V → Except F (V × List O))

def sweepEntries : List (K × V) → Except F (List (K × V) × List O)
  | [] => .ok ([], [])
  | (k, v) :: l => do
    let (v', out) ← f v
    let (l', outs) ← sweepEntries l
    return ((k, v') :: l', out ++ outs)

/-- What a completed loop says about its first entry and about the rest. -/
theorem sweepEntries_cons {k : K} {v : V} {l m : List (K × V)} {os : List O}
    (h : sweepEntries f ((k, v) :: l) = .ok (m, os)) :
    ∃ v' out l' outs, f v = .ok (v', out) ∧ sweepEntries f l = .ok (l', outs) ∧
      m = (k, v') :: l' ∧ os = out ++ outs := by
  simp only [sweepEntries, bind_eq_ok, pure_eq_ok, Prod.exists, Prod.mk.injEq] at h
  obtain ⟨v', out, hf, l', outs, hl, rfl, rfl⟩ := h
  exact ⟨v', out, l', outs, hf, hl, rfl, rfl⟩

theorem sweepEntries_keys {l m : List (K × V)} {os : List O}
    (h : sweepEntries f l = .ok (m, os)) : m.map Prod.fst = l.map Prod.fst := by
  induction l generalizing m os with
  | nil => simp only [sweepEntries, Except.ok.injEq, Prod.mk.injEq] at h; simp [← h.1]
  | cons e l ih =>
    obtain ⟨v', out, l', outs, -, hl, rfl, -⟩ := sweepEntries_cons f h
    simp [ih hl]

/-- Visit every entry in iteration order, replacing its value by what `f` returns. -/
def sweep (t : Table K V) : Except F (Table K V × List O) :=
  match h : sweepEntries f t.entries with
  | .error e => .error e
  | .ok (m, os) => .ok (⟨m, (sweepEntries_keys f h) ▸ t.nodup⟩, os)

theorem sweep_ok {t t' : Table K V} {os : List O} :
    sweep f t = .ok (t', os) ↔ sweepEntries f t.entries = .ok (t'.entries, os) := by
  unfold sweep
  split
  case h_1 e h => simp [h]
  case h_2 m os' h =>
    refine Iff.trans ?_ (Eq.congr_left h).symm
    simp only [Except.ok.injEq, Prod.mk.injEq]
    exact and_congr_left fun _ => ⟨fun h => h ▸ rfl, fun h => by cases t'; cases h; rfl⟩

/-- What every body emits and what survives appending, the whole loop emits. -/
theorem sweep_outputs {Q : List O → Prop} (hnil : Q []) (happend : ∀ a b, Q a → Q b → Q (a ++ b))
    (hf : ∀ v v' out, f v = .ok (v', out) → Q out) {t t' : Table K V} {os : List O}
    (h : sweep f t = .ok (t', os)) : Q os := by
  rw [sweep_ok] at h
  generalize t.entries = l, t'.entries = m at h
  induction l generalizing m os with
  | nil =>
    simp only [sweepEntries, Except.ok.injEq, Prod.mk.injEq] at h
    exact h.2 ▸ hnil
  | cons e l ih =>
    obtain ⟨v', out, l', outs, hv, hl, -, rfl⟩ := sweepEntries_cons f h
    exact happend _ _ (hf _ _ _ hv) (ih _ hl)

private theorem sweepEntries_mem {l m : List (K × V)} {os : List O}
    (h : sweepEntries f l = .ok (m, os)) {k : K} {v : V} (hm : (k, v) ∈ l) :
    ∃ v' out, f v = .ok (v', out) ∧ (k, v') ∈ m := by
  induction l generalizing m os with
  | nil => cases hm
  | cons e l ih =>
    obtain ⟨v', out, l', outs, hf, hl, rfl, -⟩ := sweepEntries_cons f h
    rcases List.mem_cons.mp hm with rfl | hm
    · exact ⟨v', out, hf, List.mem_cons_self ..⟩
    · obtain ⟨w, o, hw, hmem⟩ := ih hl hm
      exact ⟨w, o, hw, List.mem_cons_of_mem _ hmem⟩

theorem sweepEntries_meets {bad : F} {l : List (K × V)}
    (h : ∀ k v, (k, v) ∈ l → Meets bad (fun _ => True) (f v)) :
    Meets bad (fun _ => True) (sweepEntries f l) := by
  induction l with
  | nil => trivial
  | cons e l ih =>
    refine (h e.1 e.2 (by simp)).bind fun r _ => ?_
    exact (ih fun k v hm => h k v (by simp [hm])).bind fun r' _ => trivial

/-- A loop body that fires only when `b` holds. -/
def gate (b : Bool) (v : V) : Except F (V × List O) := if b then f v else .ok (v, [])

theorem sweepEntries_gate_false (l : List (K × V)) :
    sweepEntries (gate f false) l = .ok (l, []) := by
  induction l with
  | nil => rfl
  | cons e l ih => simp [sweepEntries, gate, ih, bind, Except.bind, pure, Except.pure]

/-- A loop that is skipped is a loop whose body never fires. -/
theorem sweep_gate (b : Bool) (t : Table K V) :
    sweep (gate f b) t = if b then sweep f t else .ok (t, []) := by
  cases b with
  | false => exact (sweep_ok _).mpr (sweepEntries_gate_false f t.entries)
  | true => rfl

end Entries

private theorem enter_perm (l : List (K × V)) (i : Nat) (e : K × V) :
    (l.take i ++ e :: l.drop i).Perm (e :: l) := by
  refine List.perm_middle.trans ?_
  rw [List.take_append_drop]

variable [DecidableEq K]

def get? (t : Table K V) (k : K) : Option V :=
  (t.entries.find? (fun e => e.1 = k)).map Prod.snd

@[simp] theorem get?_empty (k : K) : (empty : Table K V).get? k = none := rfl

theorem mem_of_get? {t : Table K V} {k : K} {v : V} (h : t.get? k = some v) :
    (k, v) ∈ t.entries := by
  obtain ⟨⟨k', v'⟩, hf, rfl⟩ := Option.map_eq_some_iff.mp h
  have hk : k' = k := by simpa using List.find?_some hf
  exact hk ▸ List.mem_of_find?_eq_some hf

theorem find?_of_mem {l : List (K × V)} (hn : (l.map Prod.fst).Nodup) {k : K} {v : V}
    (h : (k, v) ∈ l) : l.find? (fun e => e.1 = k) = some (k, v) := by
  induction l with
  | nil => cases h
  | cons e l ih =>
    have hn' := List.nodup_cons.mp hn
    rcases List.mem_cons.mp h with rfl | hl
    · simp
    · have hne : e.1 ≠ k := by
        rintro rfl
        exact hn'.1 (List.mem_map.mpr ⟨_, hl, rfl⟩)
      simp [hne, ih hn'.2 hl]

theorem get?_of_mem {t : Table K V} {k : K} {v : V} (h : (k, v) ∈ t.entries) :
    t.get? k = some v := by
  simp [get?, find?_of_mem t.nodup h]

theorem mem_iff_get? {t : Table K V} {k : K} {v : V} : (k, v) ∈ t.entries ↔ t.get? k = some v :=
  ⟨get?_of_mem, mem_of_get?⟩

theorem get?_eq_none_iff {t : Table K V} {k : K} :
    t.get? k = none ↔ k ∉ t.entries.map Prod.fst := by
  constructor
  · intro h hk
    obtain ⟨⟨k', v⟩, hm, rfl⟩ := List.mem_map.mp hk
    simp [get?_of_mem hm] at h
  · intro h
    cases hg : t.get? k with
    | none => rfl
    | some v => exact absurd (List.mem_map.mpr ⟨_, mem_of_get? hg, rfl⟩) h

/-- What a loop over the entries finds under one key. -/
theorem filterMap_entries {W : Type} (t : Table K V) (k : K) (f : V → Option W) :
    t.entries.filterMap (fun e => if e.1 = k then f e.2 else none) =
      ((t.get? k).bind f).toList := by
  obtain ⟨l, hnodup⟩ := t
  induction l with
  | nil => rfl
  | cons e l ih =>
    obtain ⟨hnotMem, hrest⟩ := List.nodup_cons.mp hnodup
    have ih := ih hrest
    simp only [get?] at ih ⊢
    by_cases hk : e.1 = k
    · have hnone : l.filterMap (fun e => if e.1 = k then f e.2 else none) = [] := by
        rw [List.filterMap_eq_nil_iff]
        intro e' he'
        refine if_neg fun heq => hnotMem ?_
        exact List.mem_map.mpr ⟨e', he', heq.trans hk.symm⟩
      cases hf : f e.2 <;> simp [hk, hf, hnone]
    · simpa [hk] using ih

/-! ## Writing one key -/

/-- Overwrite `k` in place, or enter it before position `i`. -/
def set (i : Nat) (t : Table K V) (k : K) (v : V) : Table K V :=
  if h : k ∈ t.entries.map Prod.fst then
    ⟨t.entries.map (fun e => if e.1 = k then (k, v) else e), by
      have he : (t.entries.map (fun e => if e.1 = k then (k, v) else e)).map Prod.fst =
          t.entries.map Prod.fst := by
        rw [List.map_map]
        refine List.map_congr_left fun e _ => ?_
        by_cases hk : e.1 = k <;> simp [hk]
      exact he ▸ t.nodup⟩
  else
    ⟨t.entries.take i ++ (k, v) :: t.entries.drop i, by
      rw [((enter_perm t.entries i (k, v)).map Prod.fst).nodup_iff]
      exact List.nodup_cons.mpr ⟨h, t.nodup⟩⟩

theorem mem_set_iff {i : Nat} {t : Table K V} {k k' : K} {v v' : V} :
    (k', v') ∈ (t.set i k v).entries ↔
      (k' = k ∧ v' = v) ∨ (k' ≠ k ∧ (k', v') ∈ t.entries) := by
  unfold set
  split
  case isTrue h =>
    constructor
    · intro hm
      obtain ⟨e, he, heq⟩ := List.mem_map.mp hm
      by_cases hk : e.1 = k
      · rw [if_pos hk] at heq
        exact .inl (by simpa [eq_comm] using heq)
      · rw [if_neg hk] at heq
        subst heq
        exact .inr ⟨hk, he⟩
    · rintro (⟨rfl, rfl⟩ | ⟨hne, hm⟩)
      · obtain ⟨e, he, rfl⟩ := List.mem_map.mp h
        exact List.mem_map.mpr ⟨e, he, if_pos rfl⟩
      · exact List.mem_map.mpr ⟨_, hm, if_neg hne⟩
  case isFalse h =>
    rw [(enter_perm t.entries i (k, v)).mem_iff, List.mem_cons]
    constructor
    · rintro (heq | hm)
      · exact .inl (by simpa using heq)
      · exact .inr ⟨fun hk => h (hk ▸ List.mem_map.mpr ⟨_, hm, rfl⟩), hm⟩
    · rintro (⟨rfl, rfl⟩ | ⟨_, hm⟩)
      · exact .inl rfl
      · exact .inr hm

theorem get?_set (i : Nat) (t : Table K V) (k k' : K) (v : V) :
    (t.set i k v).get? k' = if k' = k then some v else t.get? k' := by
  by_cases hk : k' = k
  · simpa [hk] using get?_of_mem (mem_set_iff.mpr (.inl ⟨rfl, rfl⟩))
  · rw [if_neg hk]
    refine Option.ext fun v' => ?_
    simp only [← mem_iff_get?, mem_set_iff]
    simp [hk]

@[simp] theorem get?_set_self (i : Nat) (t : Table K V) (k : K) (v : V) :
    (t.set i k v).get? k = some v := by simp [get?_set]

/-! ## Dropping and rewriting keys -/

def filter (p : K → Bool) (t : Table K V) : Table K V :=
  ⟨t.entries.filter (fun e => p e.1), (List.filter_sublist.map _).nodup t.nodup⟩

theorem get?_filter (p : K → Bool) (t : Table K V) (k : K) :
    (t.filter p).get? k = if p k then t.get? k else none := by
  refine Option.ext fun v => ?_
  rw [← mem_iff_get?]
  by_cases hp : p k <;> simp [filter, hp, mem_iff_get?]

def mapValues (f : K → V → V) (t : Table K V) : Table K V :=
  ⟨t.entries.map (fun e => (e.1, f e.1 e.2)), by
    simpa [List.map_map, Function.comp_def] using t.nodup⟩

theorem get?_mapValues (f : K → V → V) (t : Table K V) (k : K) :
    (t.mapValues f).get? k = (t.get? k).map (f k) := by
  refine Option.ext fun v => ?_
  rw [← mem_iff_get?]
  simp only [mapValues, List.mem_map, Prod.mk.injEq, Prod.exists, Option.map_eq_some_iff,
    ← mem_iff_get?]
  constructor
  · rintro ⟨k', v', hm, rfl, rfl⟩
    exact ⟨v', hm, rfl⟩
  · rintro ⟨v', hm, rfl⟩
    exact ⟨k, v', hm, rfl, rfl⟩

/-! ## Properties of every entry -/

def All (P : K → V → Prop) (t : Table K V) : Prop := ∀ k v, t.get? k = some v → P k v

section All

variable {P : K → V → Prop} {t u : Table K V}

theorem All.empty : (Table.empty : Table K V).All P := by
  intro k v h
  simp at h

/-- Writing a good value keeps all values good, whichever way the table is written. -/
theorem All.write {k : K} {v : V} (h : t.All P) (hv : P k v)
    (hu : ∀ j, u.get? j = if j = k then some v else t.get? j) : u.All P := by
  intro j w hj
  rw [hu] at hj
  by_cases hjk : j = k
  · obtain rfl : v = w := by simpa [hjk] using hj
    exact hjk ▸ hv
  · exact h j w (by simpa [hjk] using hj)

theorem All.filter (h : t.All P) (p : K → Bool) : (t.filter p).All P := by
  intro k v hk
  rw [get?_filter] at hk
  split at hk
  · exact h k v hk
  · cases hk

theorem All.mapValues (h : t.All P) {f : K → V → V} (hf : ∀ k v, P k v → P k (f k v)) :
    (t.mapValues f).All P := by
  intro k v hk
  rw [get?_mapValues] at hk
  obtain ⟨w, hw, rfl⟩ := Option.map_eq_some_iff.mp hk
  exact hf k w (h k w hw)

end All

/-! ## Loops over the table, seen from one key -/

section Sweep

variable {F O : Type} (f : V → Except F (V × List O))

/-- A completed loop replaced each value by the loop body's result, and no key came or went. -/
theorem get?_sweep {t t' : Table K V} {os : List O} (h : sweep f t = .ok (t', os)) (k : K) :
    (t.get? k = none ∧ t'.get? k = none) ∨
      ∃ v v' out, t.get? k = some v ∧ f v = .ok (v', out) ∧ t'.get? k = some v' := by
  have hs := (sweep_ok f).mp h
  cases hg : t.get? k with
  | none =>
    refine .inl ⟨rfl, ?_⟩
    rw [get?_eq_none_iff] at hg ⊢
    rwa [sweepEntries_keys f hs]
  | some v =>
    obtain ⟨v', out, hf, hm⟩ := sweepEntries_mem f hs (mem_of_get? hg)
    exact .inr ⟨v, v', out, rfl, hf, get?_of_mem hm⟩

/-- Every output of a completed loop comes from one iteration of its body. -/
theorem mem_sweep {t t' : Table K V} {os : List O} (h : sweep f t = .ok (t', os)) {o : O}
    (ho : o ∈ os) : ∃ k v v' out, t.get? k = some v ∧ f v = .ok (v', out) ∧ o ∈ out := by
  have hentries : ∀ {l m : List (K × V)} {os : List O}, sweepEntries f l = .ok (m, os) →
      o ∈ os → ∃ k v v' out, (k, v) ∈ l ∧ f v = .ok (v', out) ∧ o ∈ out := by
    intro l
    induction l with
    | nil =>
      intro m os hs ho
      simp only [sweepEntries, Except.ok.injEq, Prod.mk.injEq] at hs
      simp [← hs.2] at ho
    | cons e l ih =>
      intro m os hs ho
      obtain ⟨v', out, l', outs, hf, hl, rfl, rfl⟩ := sweepEntries_cons f hs
      rcases List.mem_append.mp ho with ho | ho
      · exact ⟨e.1, e.2, v', out, by simp, hf, ho⟩
      · obtain ⟨k, v, w, out', hm, hw, hout⟩ := ih hl ho
        exact ⟨k, v, w, out', by simp [hm], hw, hout⟩
  obtain ⟨k, v, v', out, hm, hf, hout⟩ := hentries ((sweep_ok f).mp h) ho
  exact ⟨k, v, v', out, get?_of_mem hm, hf, hout⟩

private theorem sweepEntries_outputs (about : K → O → Bool) {l m : List (K × V)} {os : List O}
    (hn : (l.map Prod.fst).Nodup) (h : sweepEntries f l = .ok (m, os))
    (own : ∀ k v v' out, (k, v) ∈ l → f v = .ok (v', out) →
      ∀ o ∈ out, ∀ k', about k' o = true ↔ k' = k) (k : K) :
    os.filter (about k) =
      match l.find? (fun e => e.1 = k) with
      | none => []
      | some e => match f e.2 with | .ok (_, out) => out | .error _ => [] := by
  induction l generalizing m os with
  | nil => simp only [sweepEntries, Except.ok.injEq, Prod.mk.injEq] at h; simp [← h.2]
  | cons e l ih =>
    obtain ⟨v', out, l', outs, hf, hl, rfl, rfl⟩ := sweepEntries_cons f h
    have hn' := List.nodup_cons.mp hn
    have hrest := ih hn'.2 hl fun k v v' o hm => own k v v' o (List.mem_cons_of_mem _ hm)
    have hown := own e.1 e.2 v' out (List.mem_cons_self ..) hf
    rw [List.filter_append, hrest]
    by_cases hk : e.1 = k
    · -- the first entry is `k`'s own: its outputs all stay, and the rest holds no `k`
      have hall : out.filter (about k) = out := by
        rw [List.filter_eq_self]
        exact fun o ho => (hown o ho k).mpr hk.symm
      have hnone : l.find? (fun e => e.1 = k) = none := by
        rw [List.find?_eq_none]
        intro e' he' heq
        exact hn'.1 (List.mem_map.mpr ⟨e', he', by simpa [hk] using heq⟩)
      simp [hk, hall, hnone, hf]
    · have hempty : out.filter (about k) = [] := by
        rw [List.filter_eq_nil_iff]
        exact fun o ho habout => hk ((hown o ho k).mp habout).symm
      simp [hk, hempty]

/-- If the loop body's outputs always name the entry they come from, then the outputs
naming `k` are exactly those of `k`'s own iteration. -/
theorem filter_sweep (about : K → O → Bool) {t t' : Table K V} {os : List O}
    (h : sweep f t = .ok (t', os))
    (own : ∀ k v v' out, t.get? k = some v → f v = .ok (v', out) →
      ∀ o ∈ out, ∀ k', about k' o = true ↔ k' = k) (k : K) :
    os.filter (about k) =
      match t.get? k with
      | none => []
      | some v => match f v with | .ok (_, out) => out | .error _ => [] := by
  have hs := sweepEntries_outputs f about t.nodup ((sweep_ok f).mp h)
    (fun k v v' out hm => own k v v' out (get?_of_mem hm)) k
  rw [hs, get?]
  cases t.entries.find? (fun e => e.1 = k) <;> rfl

/-- One iteration of a loop, seen from what the table holds under one key. -/
def visit : Option V → Except F (Option V × List O)
  | none => .ok (none, [])
  | some v => do
    let (v', out) ← f v
    return (some v', out)

/-- One key sees of a completed loop exactly its own iteration. -/
theorem visit_of_sweep (about : K → O → Bool) {t t' : Table K V} {os : List O}
    (h : sweep f t = .ok (t', os))
    (own : ∀ k v v' out, t.get? k = some v → f v = .ok (v', out) →
      ∀ o ∈ out, ∀ k', about k' o = true ↔ k' = k) (k : K) :
    visit f (t.get? k) = .ok (t'.get? k, os.filter (about k)) := by
  rw [filter_sweep f about h own k]
  rcases get?_sweep f h k with ⟨hk, hk'⟩ | ⟨v, v', out, hk, hf, hk'⟩
  · simp [hk, hk', visit]
  · simp [hk, hk', hf, visit, bind, Except.bind, pure, Except.pure]

/-- A loop keeps what its body keeps for each entry. -/
theorem sweep_meets {bad : F} {P : K → V → Prop} {t : Table K V}
    (h : ∀ k v, t.get? k = some v → Meets bad (fun r => P k r.1) (f v)) :
    Meets bad (fun r => r.1.All P) (sweep f t) := by
  have hentries := sweepEntries_meets f (l := t.entries) fun k v hm =>
    (h k v (get?_of_mem hm)).mono fun _ _ => trivial
  cases hs : sweep f t with
  | error e =>
    -- the loop fails only where its body fails
    unfold sweep at hs
    split at hs
    case h_1 e' he => cases hs; rwa [he] at hentries
    case h_2 => cases hs
  | ok r =>
    intro k v hg
    rcases get?_sweep f hs k with ⟨-, hnone⟩ | ⟨w, w', out, hw, hf, hw'⟩
    · rw [hnone] at hg
      cases hg
    · obtain rfl : w' = v := by simpa [hw'] using hg
      exact (h k w hw).result hf

end Sweep

end Table

/-! ## Last elements -/

section Last

variable {A : Type} {P : A → Prop} {l : List A} {a b : A}

def IsLast (P : A → Prop) (l : List A) (a : A) : Prop :=
  ∃ before after, l = before ++ a :: after ∧ P a ∧ ∀ b ∈ after, ¬P b

theorem not_isLast_nil : ¬IsLast P [] a := by
  rintro ⟨before, after, h, -⟩
  simp at h

theorem IsLast.mem (h : IsLast P l a) : a ∈ l := by
  obtain ⟨before, after, rfl, -⟩ := h
  simp

theorem IsLast.prop (h : IsLast P l a) : P a := by
  obtain ⟨before, after, -, h, -⟩ := h
  exact h

theorem isLast_append : IsLast P (l ++ [b]) a ↔ (P b ∧ a = b) ∨ (¬P b ∧ IsLast P l a) := by
  constructor
  · rintro ⟨before, after, heq, ha, hafter⟩
    rcases List.eq_nil_or_concat after with rfl | ⟨rest, e, rfl⟩
    · obtain ⟨-, hb⟩ := List.append_inj' heq rfl
      obtain rfl : b = a := by simpa using hb
      exact .inl ⟨ha, rfl⟩
    · rw [List.concat_eq_append, ← List.cons_append, ← List.append_assoc] at heq
      obtain ⟨rfl, hb⟩ := List.append_inj' heq rfl
      obtain rfl : b = e := by simpa using hb
      exact .inr ⟨hafter b (by simp), before, rest, rfl, ha, fun c hc => hafter c (by simp [hc])⟩
  · rintro (⟨hb, rfl⟩ | ⟨hb, before, after, rfl, ha, hafter⟩)
    · exact ⟨l, [], rfl, hb, by simp⟩
    · refine ⟨before, after ++ [b], by simp, ha, fun c hc => ?_⟩
      rcases List.mem_append.mp hc with hc | hc
      · exact hafter c hc
      · exact List.mem_singleton.mp hc ▸ hb

theorem exists_isLast (h : ∃ a ∈ l, P a) : ∃ a, IsLast P l a := by
  induction l using List.reverseRecOn with
  | nil => simp at h
  | append_singleton l b ih =>
    by_cases hb : P b
    · exact ⟨b, isLast_append.mpr (.inl ⟨hb, rfl⟩)⟩
    · obtain ⟨a, ha, hP⟩ := h
      have ha : a ∈ l := by
        rcases List.mem_append.mp ha with ha | ha
        · exact ha
        · exact absurd (List.mem_singleton.mp ha ▸ hP) hb
      obtain ⟨c, hc⟩ := ih ⟨a, ha, hP⟩
      exact ⟨c, isLast_append.mpr (.inr ⟨hb, hc⟩)⟩

theorem IsLast.congr {Q : A → Prop} (h : IsLast P l a) (hPQ : ∀ b ∈ l, P b ↔ Q b) :
    IsLast Q l a := by
  obtain ⟨before, after, rfl, ha, hafter⟩ := h
  refine ⟨before, after, rfl, (hPQ a (by simp)).mp ha, fun b hb hQ => ?_⟩
  exact hafter b hb ((hPQ b (by simp [hb])).mpr hQ)

end Last

end Library
