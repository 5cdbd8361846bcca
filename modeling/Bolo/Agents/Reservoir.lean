import Bolo.Agents.Samples

/-!
# The reservoir of a sample set

A sample set that is full goes on with `rand() / RAND_MAX * ++nsamples` as the slot of the next
value. The quotient is one of integers: it is 1 if `rand()` is `RAND_MAX`, and 0 otherwise. So the
slot is 0 or the number of values so far, cut to an `int`.

`addSample` does not look at the values. It is run here on their positions in the stream, to see
which of them are left in the end.
-/
namespace Bolo.Subscriber

open Library

variable {R : Type}

/-! ## The slot of a value -/

/-- `rand() / RAND_MAX * ++nsamples`, as an `int`. -/
def drawnIndex (randMax r : Nat) (nsamples : UInt64) : Int32 :=
  (UInt64.ofNat (r / randMax) * (nsamples + 1)).toUInt32.toInt32

/-- What `addSample` makes of the result of `rand()`. -/
theorem drawnIndex_eq {randMax r : Nat} (hmax : 0 < randMax) (hr : r ≤ randMax)
    (nsamples : UInt64) : drawnIndex randMax r nsamples =
      if decide (r = randMax) then (nsamples + 1).toUInt32.toInt32 else 0 := by
  by_cases heq : r = randMax
  · subst heq
    rw [drawnIndex, Nat.div_self hmax, decide_eq_true rfl, if_pos rfl]
    simp
  · rw [drawnIndex, Nat.div_eq_of_lt (by omega), decide_eq_false heq, if_neg (by simp)]
    simp

/-- What `addSample` does to a set that is full, in the words of the source. -/
theorem addSample_drawn {x : Metric R} (hfull : MAX_SAMPLES ≤ x.nsamples.toNat) (v : R)
    {randMax r : Nat} (hmax : 0 < randMax) (hr : r ≤ randMax) :
    addSample x v (decide (r = randMax)) =
      let i := drawnIndex randMax r x.nsamples
      if i < 0 then .error .outOfBounds
      else .ok { x with
        nsamples := x.nsamples + 1
        samples := if i < 256 then x.samples.setIfInBounds i.toInt.toNat v else x.samples } := by
  rw [addSample, dif_neg (not_lt.mpr hfull), drawnIndex_eq hmax hr]

/-- The slot that the next value is written to, if any. -/
def slotOf (nsamples : UInt64) (top : Bool) : Except Fault (Option Nat) :=
  if nsamples.toNat < MAX_SAMPLES then .ok (some nsamples.toNat)
  else
    let i : Int32 := if top then (nsamples + 1).toUInt32.toInt32 else 0
    if i < 0 then .error .outOfBounds
    else .ok (if i < 256 then some i.toInt.toNat else none)

/-- The set after a value was written to the slot `s`. -/
def Metric.write (x : Metric R) (v : R) (s : Option Nat) : Metric R where
  type := x.type
  count := x.count
  nsamples := x.nsamples + 1
  samples := match s with
    | some i => x.samples.setIfInBounds i v
    | none => x.samples

theorem collect_eq (x : Metric R) (v : R × Bool) :
    collect x v = (slotOf x.nsamples v.2).map (x.write v.1) := by
  unfold collect addSample slotOf
  split
  · case isTrue hlt =>
    have hset : x.samples.set x.nsamples.toNat v.1 =
        x.samples.setIfInBounds x.nsamples.toNat v.1 := by
      ext j hj
      rw [Vector.getElem_set, Vector.getElem_setIfInBounds]
    simp only [Except.map, Metric.write, hset]
  · simp only
    generalize (if v.2 then (x.nsamples + 1).toUInt32.toInt32 else 0) = i
    split
    · rfl
    · split <;> rfl

/-! ## Positions instead of values -/

section Positions

variable {α β : Type}

def Metric.map (f : α → β) (x : Metric α) : Metric β :=
  ⟨x.type, x.count, x.nsamples, x.samples.map f⟩

theorem Metric.write_map (f : α → β) (x : Metric α) (v : α) (s : Option Nat) :
    (x.map f).write (f v) s = (x.write v s).map f := by
  cases s with
  | none => rfl
  | some i =>
    have hset : (x.samples.map f).setIfInBounds i (f v) = (x.samples.setIfInBounds i v).map f := by
      ext j hj
      simp only [Vector.getElem_setIfInBounds, Vector.getElem_map]
      split <;> rfl
    simp only [Metric.write, Metric.map, hset]

theorem collect_map (f : α → β) (x : Metric α) (v : α) (top : Bool) :
    collect (x.map f) (f v, top) = (collect x (v, top)).map (Metric.map f) := by
  rw [collect_eq, collect_eq]
  change (slotOf x.nsamples top).map _ = _
  cases slotOf x.nsamples top with
  | error e => rfl
  | ok s => exact congrArg Except.ok (x.write_map f v s)

/-- The values that are collected may be replaced by others, all along. -/
theorem foldlM_map (f : α → β) (x : Metric α) (es : List (α × Bool)) :
    (es.map fun e => (f e.1, e.2)).foldlM collect (x.map f) =
      (es.foldlM collect x).map (Metric.map f) := by
  induction es generalizing x with
  | nil => rfl
  | cons e es ih =>
    rw [List.map_cons, List.foldlM_cons, List.foldlM_cons, collect_map]
    cases collect x e with
    | error _ => rfl
    | ok y => exact ih y

/-- A sample set with no values. -/
def noValues : Metric (Option Nat) :=
  { type := .sample, count := 0, nsamples := 0, samples := Vector.replicate MAX_SAMPLES none }

/-- The positions of the values that are left of a stream, by what `rand()` gives for each. -/
def positions (tops : List Bool) : Except Fault (Metric (Option Nat)) :=
  (tops.zipIdx.map fun e => (some e.2, e.1)).foldlM collect noValues

theorem positions_concat (tops : List Bool) (top : Bool) : positions (tops ++ [top]) =
    positions tops >>= fun y => collect y (some tops.length, top) := by
  rw [positions, List.zipIdx_append, List.map_append, List.foldlM_append]
  refine congrArg _ (funext fun y => ?_)
  simp

theorem getElem?_concat_iff {tops : List Bool} {top t : Bool} {k : Nat} :
    (tops ++ [top])[k]? = some t ↔ tops[k]? = some t ∨ k = tops.length ∧ top = t := by
  rcases lt_trichotomy k tops.length with hlen | rfl | hlen
  · rw [List.getElem?_append_left hlen, or_iff_left fun h => hlen.ne h.1]
  · simp
  · have hnone : tops[k]? = none := List.getElem?_eq_none (by omega)
    have hnone' : (tops ++ [top])[k]? = none :=
      List.getElem?_eq_none (by rw [List.length_append, List.length_singleton]; omega)
    simp [hnone, hnone', hlen.ne']

/-- Some value after the `j`th is written to the slot `j`. -/
def Overwritten (tops : List Bool) (j : Nat) : Prop :=
  ∃ k top, j < k ∧ tops[k]? = some top ∧ slotOf (.ofNat k) top = .ok (some j)

theorem overwritten_concat {tops : List Bool} {top : Bool} {j : Nat} :
    Overwritten (tops ++ [top]) j ↔ Overwritten tops j ∨
      j < tops.length ∧ slotOf (.ofNat tops.length) top = .ok (some j) := by
  simp only [Overwritten, getElem?_concat_iff]
  constructor
  · rintro ⟨k, t, hlt, hk | ⟨rfl, rfl⟩, hslot⟩
    · exact .inl ⟨k, t, hlt, hk, hslot⟩
    · exact .inr ⟨hlt, hslot⟩
  · rintro (⟨k, t, hlt, hk, hslot⟩ | ⟨hlt, hslot⟩)
    · exact ⟨k, t, hlt, .inl hk, hslot⟩
    · exact ⟨_, top, hlt, .inr ⟨rfl, rfl⟩, hslot⟩

/-- What is left of a stream: the slot `j` has lost its first value if it was overwritten. -/
structure Left (tops : List Bool) (y : Metric (Option Nat)) : Prop where
  nsamples : y.nsamples = .ofNat tops.length
  slot : ∀ j (hj : j < MAX_SAMPLES), j < tops.length →
    (y.samples[j] ≠ some j ↔ Overwritten tops j)

theorem slotOf_refill {k : Nat} (hk : k % 2 ^ 64 < MAX_SAMPLES) (top : Bool) :
    slotOf (.ofNat k) top = .ok (some (k % 2 ^ 64)) := by
  have hnat : (UInt64.ofNat k).toNat = k % 2 ^ 64 := UInt64.toNat_ofNat'
  rw [slotOf, hnat, if_pos hk]

theorem slotOf_of_lt {k : Nat} (hk : k < MAX_SAMPLES) (top : Bool) :
    slotOf (.ofNat k) top = .ok (some k) := by
  have hmax : MAX_SAMPLES = 256 := rfl
  have hmod : k % 2 ^ 64 = k := by omega
  rw [slotOf_refill (by rwa [hmod]), hmod]

theorem Left.concat {tops : List Bool} {y : Metric (Option Nat)} (h : Left tops y) {top : Bool}
    {s : Option Nat} (hs : slotOf (.ofNat tops.length) top = .ok s) :
    Left (tops ++ [top]) (y.write (some tops.length) s) := by
  constructor
  · rw [List.length_append, List.length_singleton, UInt64.ofNat_add, ← h.nsamples]
    rfl
  · intro j hj hlen
    rw [overwritten_concat, hs, Except.ok.injEq]
    rw [List.length_append, List.length_singleton] at hlen
    by_cases hlast : j = tops.length
    · -- the value is the first one in its slot
      subst hlast
      obtain rfl : some tops.length = s := Except.ok.inj ((slotOf_of_lt hj top).symm.trans hs)
      have hnone : ¬Overwritten tops tops.length := by
        rintro ⟨k, _, hlt, hk, _⟩
        have := (List.getElem?_eq_some_iff.mp hk).1
        omega
      simp [Metric.write, hnone]
    · have hlt : j < tops.length := by omega
      rw [← h.slot j hj hlt]
      cases s with
      | none => simp [Metric.write]
      | some i =>
        by_cases hi : i = j
        · subst hi
          simp [Metric.write, hlt, Ne.symm hlast]
        · simp [Metric.write, hi]

/-- No value is written outside of the array. -/
def Inside (tops : List Bool) : Prop :=
  ∀ k top, tops[k]? = some top → ∃ s, slotOf (.ofNat k) top = .ok s

theorem inside_concat {tops : List Bool} {top : Bool} :
    Inside (tops ++ [top]) ↔ Inside tops ∧ ∃ s, slotOf (.ofNat tops.length) top = .ok s := by
  simp only [Inside, getElem?_concat_iff]
  constructor
  · intro h
    exact ⟨fun k t hk => h k t (.inl hk), h _ _ (.inr ⟨rfl, rfl⟩)⟩
  · rintro ⟨h, hlast⟩ k t (hk | ⟨rfl, rfl⟩)
    · exact h k t hk
    · exact hlast

/-- A stream that is read to its end. -/
theorem positions_left {tops : List Bool} {y : Metric (Option Nat)} (h : positions tops = .ok y) :
    Inside tops ∧ Left tops y := by
  induction tops using List.reverseRecOn generalizing y with
  | nil =>
    obtain rfl : noValues = y := Except.ok.inj h
    exact ⟨by simp [Inside], rfl, by simp⟩
  | append_singleton tops top ih =>
    rw [positions_concat, bind_eq_ok] at h
    obtain ⟨y₀, hy₀, hlast⟩ := h
    obtain ⟨hinside, hleft⟩ := ih hy₀
    rw [collect_eq, hleft.nsamples] at hlast
    cases hs : slotOf (.ofNat tops.length) top with
    | error e =>
      simp only [hs] at hlast
      cases hlast
    | ok s =>
      simp only [hs] at hlast
      obtain rfl := Except.ok.inj hlast
      exact ⟨inside_concat.mpr ⟨hinside, s, hs⟩, hleft.concat hs⟩

theorem Inside.positions {tops : List Bool} (h : Inside tops) :
    ∃ y, positions tops = .ok y ∧ Left tops y := by
  induction tops using List.reverseRecOn with
  | nil => exact ⟨noValues, rfl, rfl, by simp⟩
  | append_singleton tops top ih =>
    obtain ⟨hinside, s, hs⟩ := inside_concat.mp h
    obtain ⟨y, hy, hleft⟩ := ih hinside
    refine ⟨_, ?_, hleft.concat hs⟩
    rw [positions_concat, hy, ok_bind, collect_eq, hleft.nsamples]
    simp only [hs]
    rfl

end Positions

/-! ## The slots that can be reached -/

/-- A value that does not come with `RAND_MAX` is written to the first slot. -/
theorem slotOf_false {k : Nat} (hk : MAX_SAMPLES ≤ k % 2 ^ 64) :
    slotOf (.ofNat k) false = .ok (some 0) := by
  have hnat : (UInt64.ofNat k).toNat = k % 2 ^ 64 := UInt64.toNat_ofNat'
  have hlow : ¬(0 : Int32) < 0 := by decide
  have hhigh : (0 : Int32) < 256 := by decide
  rw [slotOf, hnat, if_neg (not_lt.mpr hk)]
  simp only [Bool.false_eq_true, if_false, hlow, hhigh, if_true]
  rfl

/-- One that does is written to the slot with the number of values, if there is one. -/
theorem slotOf_true {k : Nat} (hk : MAX_SAMPLES ≤ k % 2 ^ 64) : slotOf (.ofNat k) true =
    if (k + 1) % 2 ^ 32 < 2 ^ 31 then
      .ok (if (k + 1) % 2 ^ 32 < 256 then some ((k + 1) % 2 ^ 32) else none)
    else .error .outOfBounds := by
  have hnat : (UInt64.ofNat k).toNat = k % 2 ^ 64 := UInt64.toNat_ofNat'
  have hword : (UInt64.ofNat k + 1).toUInt32.toNat = (k + 1) % 2 ^ 32 := by
    have hone : (1 : UInt64).toNat = 1 := rfl
    rw [UInt64.toNat_toUInt32, UInt64.toNat_add, hnat, hone]
    omega
  have hint := toInt_toInt32 (UInt64.ofNat k + 1).toUInt32
  have h256 : (256 : Int32).toInt = 256 := by decide
  rw [hword] at hint
  rw [slotOf, hnat, if_neg (not_lt.mpr hk)]
  simp only [if_true, Int32.lt_iff_toInt_lt, Int32.toInt_zero, h256, hint]
  by_cases hsmall : (k + 1) % 2 ^ 32 < 2 ^ 31
  · rw [if_pos hsmall, if_pos hsmall, if_neg (by omega)]
    by_cases hslot : (k + 1) % 2 ^ 32 < 256
    · rw [if_pos (by omega), if_pos hslot]
      rfl
    · rw [if_neg (by omega), if_neg hslot]
  · rw [if_neg hsmall, if_neg hsmall, if_pos (by omega)]

theorem slotOf_total (k : Nat) : ∃ s, slotOf (.ofNat k) false = .ok s := by
  rcases lt_or_ge (k % 2 ^ 64) MAX_SAMPLES with hk | hk
  · exact ⟨_, slotOf_refill hk false⟩
  · exact ⟨_, slotOf_false hk⟩

/-- The values that can be written to a slot after its first: any to the first slot, and to
another one the `2 ^ 32 + j`th value. -/
theorem le_of_slotOf {k j : Nat} {top : Bool} (hlt : j < k)
    (h : slotOf (.ofNat k) top = .ok (some j)) : j = 0 ∨ 2 ^ 32 + j ≤ k + 1 := by
  have hmax : MAX_SAMPLES = 256 := rfl
  rcases lt_or_ge (k % 2 ^ 64) MAX_SAMPLES with hk | hk
  · rw [slotOf_refill hk, Except.ok.injEq, Option.some.injEq] at h
    omega
  · cases top with
    | false =>
      rw [slotOf_false hk, Except.ok.injEq, Option.some.injEq] at h
      exact .inl h.symm
    | true =>
      rw [slotOf_true hk] at h
      split at h
      · rw [Except.ok.injEq] at h
        split at h
        · rw [Option.some.injEq] at h
          omega
        · cases h
      · cases h

section Choice

variable {n : Nat} {g : Nat → Bool}

/-- The results of `rand()` for a stream of `n` values, by position. -/
def choices (n : Nat) (g : Nat → Bool) : List Bool := (List.range n).map g

theorem length_choices : (choices n g).length = n := by simp [choices]

theorem getElem?_choices {k : Nat} {top : Bool} :
    (choices n g)[k]? = some top ↔ k < n ∧ g k = top := by
  rw [choices, List.getElem?_map]
  by_cases hk : k < n
  · rw [List.getElem?_range hk]
    simp [hk]
  · rw [List.getElem?_eq_none (by simpa using hk)]
    simp [hk]

theorem inside_choices (h : ∀ k < n, ∃ s, slotOf (.ofNat k) (g k) = .ok s) :
    Inside (choices n g) := by
  intro k top hk
  obtain ⟨hlt, rfl⟩ := getElem?_choices.mp hk
  exact h k hlt

end Choice

/-- A slot other than the first is overwritten only in streams of more than `2 ^ 32` values. -/
theorem overwritten_iff {n j : Nat} (hn : MAX_SAMPLES < n) (hj : j < MAX_SAMPLES) :
    (∃ tops : List Bool, tops.length = n ∧ Inside tops ∧ Overwritten tops j) ↔
      j = 0 ∨ 2 ^ 32 + j ≤ n := by
  have hmax : MAX_SAMPLES = 256 := rfl
  constructor
  · rintro ⟨tops, rfl, -, k, top, hlt, hk, hslot⟩
    have hlen := (List.getElem?_eq_some_iff.mp hk).1
    rcases le_of_slotOf hlt hslot with hzero | hlarge
    · exact .inl hzero
    · exact .inr (by omega)
  · intro h
    by_cases hzero : j = 0
    · subst hzero
      refine ⟨choices n fun _ => false, length_choices, inside_choices fun k _ => slotOf_total k,
        MAX_SAMPLES, false, by decide, getElem?_choices.mpr ⟨hn, rfl⟩, ?_⟩
      exact slotOf_false (by decide)
    · -- `RAND_MAX` comes with the one value that is counted as `2 ^ 32 + j`
      have hlarge := h.resolve_left hzero
      have hfull : MAX_SAMPLES ≤ (2 ^ 32 + j - 1) % 2 ^ 64 := by omega
      have hslot : slotOf (.ofNat (2 ^ 32 + j - 1)) true = .ok (some j) := by
        have hword : (2 ^ 32 + j - 1 + 1) % 2 ^ 32 = j := by omega
        rw [slotOf_true hfull, hword, if_pos (by omega), if_pos (by omega)]
      refine ⟨choices n fun k => decide (k = 2 ^ 32 + j - 1), length_choices,
        inside_choices fun k _ => ?_, 2 ^ 32 + j - 1, true, by omega,
        getElem?_choices.mpr ⟨by omega, by simp⟩, hslot⟩
      by_cases hk : k = 2 ^ 32 + j - 1
      · subst hk
        exact ⟨_, by simpa using hslot⟩
      · rw [decide_eq_false hk]
        exact slotOf_total k

/-- The first slot is kept only in streams of less than `2 ^ 31` values, and every slot is
overwritten when the number of values is 0 again. -/
theorem kept_iff {n j : Nat} (hj : j < MAX_SAMPLES) :
    (∃ tops : List Bool, tops.length = n ∧ Inside tops ∧ ¬Overwritten tops j) ↔
      (j = 0 → n < 2 ^ 31) ∧ n ≤ 2 ^ 64 + j := by
  have hmax : MAX_SAMPLES = 256 := rfl
  constructor
  · rintro ⟨tops, rfl, hinside, hkept⟩
    constructor
    · rintro rfl
      by_contra hlarge
      obtain ⟨top, htop⟩ : ∃ top, tops[2 ^ 31 - 1]? = some top :=
        ⟨_, List.getElem?_eq_getElem (by omega)⟩
      have hfull : MAX_SAMPLES ≤ (2 ^ 31 - 1) % 2 ^ 64 := by decide
      cases top with
      | false => exact hkept ⟨_, _, by decide, htop, slotOf_false hfull⟩
      | true =>
        obtain ⟨s, hs⟩ := hinside _ _ htop
        rw [slotOf_true hfull, if_neg (by decide)] at hs
        cases hs
    · by_contra hlarge
      obtain ⟨top, htop⟩ : ∃ top, tops[2 ^ 64 + j]? = some top :=
        ⟨_, List.getElem?_eq_getElem (by omega)⟩
      have hmod : (2 ^ 64 + j) % 2 ^ 64 = j := by omega
      have hslot := slotOf_refill (k := 2 ^ 64 + j) (by omega) top
      rw [hmod] at hslot
      exact hkept ⟨_, _, by omega, htop, hslot⟩
  · rintro ⟨hzero, hle⟩
    refine ⟨choices n fun _ => decide (j = 0), length_choices, inside_choices fun k hk => ?_, ?_⟩
    · by_cases hj0 : j = 0
      · have hn := hzero hj0
        rw [decide_eq_true hj0]
        rcases lt_or_ge (k % 2 ^ 64) MAX_SAMPLES with hsmall | hfull
        · exact ⟨_, slotOf_refill hsmall true⟩
        · exact ⟨_, by rw [slotOf_true hfull, if_pos (by omega)]⟩
      · rw [decide_eq_false hj0]
        exact slotOf_total k
    · rintro ⟨k, top, hlt, hk, hslot⟩
      obtain ⟨hkn, rfl⟩ := getElem?_choices.mp hk
      rcases lt_or_ge (k % 2 ^ 64) MAX_SAMPLES with hsmall | hfull
      · rw [slotOf_refill hsmall, Except.ok.injEq, Option.some.injEq] at hslot
        omega
      · by_cases hj0 : j = 0
        · have hn := hzero hj0
          rw [decide_eq_true hj0, slotOf_true hfull, if_pos (by omega), if_neg (by omega)] at hslot
          cases hslot
        · rw [decide_eq_false hj0, slotOf_false hfull, Except.ok.injEq, Option.some.injEq] at hslot
          exact hj0 hslot.symm

/-! ## Streams of SAMPLE messages -/

section Stream

variable [Double R] [DoubleText R]

/-- The values `texts` for the sample set `name`, with the result of `rand()` for each. -/
def stream (randMax : Nat) (name : CString) (texts : List CString) (draws : List Nat) :
    List Message :=
  List.zipWith (fun text r => .input ⟨.lit "SAMPLE", [name, text]⟩ (decide (r = randMax)))
    texts draws

/-- What the stream means for the sample set. -/
def streamValues (randMax : Nat) (texts : List CString) (draws : List Nat) : List (R × Bool) :=
  List.zipWith (fun text r => (Double.strtod text, decide (r = randMax))) texts draws

/-- The value at a position of the stream. A slot without one is 0. -/
def valueAt (texts : List CString) : Option Nat → R
  | none => Double.zero
  | some k => (texts[k]?).elim Double.zero Double.strtod

omit [DoubleText R] in
/-- The slots hold the values at the positions that are left. -/
theorem foldlM_streamValues {randMax : Nat} {texts : List CString} {draws : List Nat}
    (hlen : draws.length = texts.length) {y : Metric (Option Nat)}
    (hy : positions (draws.map fun r => decide (r = randMax)) = .ok y) :
    (streamValues randMax texts draws).foldlM collect (fresh .sample : Metric R) =
      .ok (y.map (valueAt texts)) := by
  have hstart : noValues.map (valueAt texts) = (fresh .sample : Metric R) := by
    simp only [Metric.map, noValues, fresh, reset, Vector.map_replicate]
    rfl
  have hvalues : streamValues randMax texts draws =
      ((draws.map fun r => decide (r = randMax)).zipIdx.map fun e => (some e.2, e.1)).map
        fun e => ((valueAt texts e.1 : R), e.2) := by
    refine List.ext_getElem (by simp [streamValues, hlen]) fun k h₁ h₂ => ?_
    have hk : k < texts.length := by simpa [hlen] using h₂
    simp [streamValues, valueAt, hk]
  rw [hvalues, ← hstart, foldlM_map]
  change (positions _).map _ = _
  rw [hy]
  rfl

variable [HashOrder]

omit [DoubleText R] [HashOrder] in
theorem Sampling.type {name : CString} {m : Monitor R} (h : Sampling name m) :
    (sampleSet name m).type = .sample := by
  cases hx : m.metrics.get? name with
  | none =>
    rw [sampleSet, hx]
    rfl
  | some x =>
    rw [sampleSet, hx, Option.getD_some]
    exact h x hx

/-- The monitor collects a value for a sample set. -/
theorem Sampling.sample {name : CString} {m : Monitor R} (h : Sampling name m)
    (hrun : m.running = true) {text : CString} (hend : DoubleText.strtodEnd R text = [])
    {top : Bool} {y : Metric R}
    (hy : collect (sampleSet name m) (Double.strtod text, top) = .ok y) :
    ∃ m', Subscriber.reactor m (.input ⟨.lit "SAMPLE", [name, text]⟩ top) = .ok (m', []) ∧
      m'.running = true ∧ Sampling name m' ∧ sampleSet name m' = y := by
  have hfst : (m.metric name .sample).1 = some (sampleSet name m) := by
    rw [metric_fst]
    exact if_pos h.type
  have hkept := metric_kept m name .sample
  have htype := (addSample_brief hy).1.trans h.type
  generalize hr : m.metric name .sample = r at hfst hkept
  obtain ⟨x, m₁⟩ := r
  obtain rfl : x = some (sampleSet name m) := hfst
  have hget : (hashSet m₁.metrics name y).get? name = some y := by simp
  have hadd : addSample (sampleSet name m) (Double.strtod text) top = .ok y := hy
  have hinit : CString.lit "SAMPLE" ≠ .lit "INIT" := by decide
  refine ⟨{ m₁ with metrics := hashSet m₁.metrics name y }, ?_, hkept.2.trans hrun, ?_, ?_⟩
  · simp only [Subscriber.reactor, hrun, Subscriber.receive, hinit, Subscriber.receiveSample, hend,
      hr, hadd, Pdu.size, List.length_cons, List.length_nil]
    rfl
  · intro z hz
    obtain rfl := Option.some.inj (hget.symm.trans hz)
    exact htype
  · rw [sampleSet, hget, Option.getD_some]

/-- The monitor collects a stream. -/
theorem Sampling.stream {randMax : Nat} {name : CString} {m : Monitor R} (h : Sampling name m)
    (hrun : m.running = true) {texts : List CString}
    (hend : ∀ text ∈ texts, DoubleText.strtodEnd R text = []) {draws : List Nat} {y : Metric R}
    (hy : (streamValues randMax texts draws).foldlM collect (sampleSet name m) = .ok y) :
    ∃ m', Machine.run Subscriber.reactor m (stream randMax name texts draws) = .ok (m', []) ∧
      sampleSet name m' = y := by
  induction texts generalizing m draws with
  | nil => exact ⟨m, rfl, Except.ok.inj hy⟩
  | cons text texts ih =>
    cases draws with
    | nil => exact ⟨m, rfl, Except.ok.inj hy⟩
    | cons r draws =>
      obtain ⟨htext, hrest⟩ := List.forall_mem_cons.mp hend
      obtain ⟨x, hx, hfold⟩ := bind_eq_ok.mp hy
      obtain ⟨m₁, hstep, hrun₁, hsampling, rfl⟩ := h.sample hrun htext hx
      obtain ⟨m', hrun', hset⟩ := ih hsampling hrun₁ hrest hfold
      exact ⟨m', Machine.run_cons.mpr ⟨m₁, [], [], hstep, hrun', rfl⟩, hset⟩

/-- The stream `texts` is collected with the results `draws` of `rand()`, and the positions in
`y` are those of the values that are left. Other messages between those of the stream make no
difference. -/
structure Leaves (m : Monitor R) (name : CString) (randMax : Nat) (texts : List CString)
    (draws : List Nat) (y : Metric (Option Nat)) : Prop where
  length : draws.length = texts.length
  bounded : ∀ r ∈ draws, r ≤ randMax
  positions : positions (draws.map fun r => decide (r = randMax)) = .ok y
  collected : ∃ m', Machine.run reactor m (Subscriber.stream randMax name texts draws) =
    .ok (m', []) ∧ (sampleSet name m').samples = y.samples.map (valueAt texts)
  interleaved : ∀ mid m' out, (∀ msg ∈ mid, msg.quiet) →
    mid.filterMap (sampleOf (R := R) name) = streamValues randMax texts draws →
    Machine.run reactor m mid = .ok (m', out) → m'.running = true → Sampling name m' →
    (sampleSet name m').samples = y.samples.map (valueAt texts)

/-- Every choice between the two results that matter can be made. -/
theorem exists_leaves_iff {randMax : Nat} (hmax : 0 < randMax) {name : CString} {m : Monitor R}
    (h : Sampling name m) (hrun : m.running = true) (hempty : sampleSet name m = fresh .sample)
    {texts : List CString} (hend : ∀ text ∈ texts, DoubleText.strtodEnd R text = [])
    {P : Metric (Option Nat) → Prop} :
    (∃ draws y, Leaves m name randMax texts draws y ∧ P y) ↔
      ∃ tops : List Bool, tops.length = texts.length ∧ ∃ y, positions tops = .ok y ∧ P y := by
  constructor
  · rintro ⟨draws, y, hleaves, hP⟩
    exact ⟨_, by rw [List.length_map, hleaves.length], y, hleaves.positions, hP⟩
  · rintro ⟨tops, hlen, y, hy, hP⟩
    let draws := tops.map fun top => if top then randMax else 0
    have htops : (draws.map fun r => decide (r = randMax)) = tops := by
      rw [List.map_map]
      refine List.map_id'' (fun top => ?_) tops
      cases top <;> simp [hmax.ne]
    have hlength : draws.length = texts.length := by rw [List.length_map, hlen]
    rw [← htops] at hy
    have hfold := foldlM_streamValues (R := R) hlength hy
    rw [← hempty] at hfold
    obtain ⟨m', hrun', hset⟩ := h.stream hrun hend hfold
    refine ⟨draws, y, ⟨hlength, fun r hr => ?_, hy, ⟨m', hrun', by rw [hset]; rfl⟩, ?_⟩, hP⟩
    · obtain ⟨top, -, rfl⟩ := List.mem_map.mp hr
      cases top <;> simp
    · intro mid m'' out hquiet hvalues hrun'' hrunning hsampling
      obtain ⟨-, -, -, -, hfold'⟩ := hsampling.run hquiet hrun'' hrunning
      rw [hvalues, hfold] at hfold'
      rw [← Except.ok.inj hfold']
      rfl

omit [Double R] [DoubleText R] [HashOrder] in
/-- The first value of a slot is replaced, or kept, as the slot is overwritten, or not. -/
theorem exists_positions_iff {n j : Nat} (hj : j < MAX_SAMPLES) (hlt : j < n) (b : Prop) :
    (∃ tops : List Bool, tops.length = n ∧
      ∃ y, positions tops = .ok y ∧ (y.samples[j] ≠ some j ↔ b)) ↔
      ∃ tops : List Bool, tops.length = n ∧ Inside tops ∧ (Overwritten tops j ↔ b) := by
  constructor
  · rintro ⟨tops, rfl, y, hy, hslot⟩
    obtain ⟨hinside, hleft⟩ := positions_left hy
    exact ⟨tops, rfl, hinside, (hleft.slot j hj hlt).symm.trans hslot⟩
  · rintro ⟨tops, rfl, hinside, hover⟩
    obtain ⟨y, hy, hleft⟩ := hinside.positions
    exact ⟨tops, rfl, y, hy, (hleft.slot j hj hlt).trans hover⟩

section Slot

variable {randMax : Nat} (hmax : 0 < randMax) {name : CString} {m : Monitor R}
  (h : Sampling name m) (hrun : m.running = true) (hempty : sampleSet name m = fresh .sample)
  {texts : List CString} (hend : ∀ text ∈ texts, DoubleText.strtodEnd R text = [])
  (hlen : MAX_SAMPLES < texts.length) {j : Nat} (hj : j < MAX_SAMPLES)

include hmax h hrun hempty hend hlen

theorem exists_replaced_iff : (∃ draws y, Leaves m name randMax texts draws y ∧
    y.samples[j] ≠ some j) ↔ j = 0 ∨ 2 ^ 32 + j ≤ texts.length := by
  have hiff := exists_positions_iff hj (hj.trans hlen) True
  simp only [iff_true] at hiff
  rw [exists_leaves_iff hmax h hrun hempty hend, hiff]
  exact overwritten_iff hlen hj

theorem exists_kept_iff : (∃ draws y, Leaves m name randMax texts draws y ∧
    y.samples[j] = some j) ↔ (j = 0 → texts.length < 2 ^ 31) ∧ texts.length ≤ 2 ^ 64 + j := by
  have hiff := exists_positions_iff hj (hj.trans hlen) False
  simp only [iff_false, not_not] at hiff
  rw [exists_leaves_iff hmax h hrun hempty hend, hiff]
  exact kept_iff hj

end Slot

/-- The value that comes first to a slot can be replaced only in the first slot, or after `2 ^ 32`
values. It can be kept, unless the slot is the first and there are `2 ^ 31` values, or there are
more than `2 ^ 64`. -/
theorem slots_reached_iff {randMax : Nat} (hmax : 0 < randMax) {monitor name : CString}
    {before : List Message} {m : Monitor R} {out : List Pdu}
    (hfirst : Machine.run reactor (start monitor) before = .ok (m, out))
    (hbefore : AfterTock before) (hrun : m.running = true) (h : Sampling name m)
    {texts : List CString} (hend : ∀ text ∈ texts, DoubleText.strtodEnd R text = [])
    (hlen : MAX_SAMPLES < texts.length) {j : Nat} (hj : j < MAX_SAMPLES) :
    ((∃ draws y, Leaves m name randMax texts draws y ∧ y.samples[j] ≠ some j) ↔
      j = 0 ∨ 2 ^ 32 + j ≤ texts.length) ∧
    ((∃ draws y, Leaves m name randMax texts draws y ∧ y.samples[j] = some j) ↔
      (j = 0 → texts.length < 2 ^ 31) ∧ texts.length ≤ 2 ^ 64 + j) := by
  have hempty := sampleSet_afterTock hfirst hbefore hrun h
  exact ⟨exists_replaced_iff hmax h hrun hempty hend hlen hj,
    exists_kept_iff hmax h hrun hempty hend hlen hj⟩

end Stream

section Rationals

open Bolo.Reference

/-- One more value than there are slots. -/
def manyValues : List CString := List.replicate 257 (.lit "1")

theorem length_manyValues : manyValues.length = 257 := List.length_replicate

theorem strtodEnd_manyValues : ∀ text ∈ manyValues, DoubleText.strtodEnd ℚ text = [] := by
  intro text htext
  rw [List.eq_of_mem_replicate htext]
  decide

def firstMonitor : Monitor ℚ := start (.lit "host:bolo")

theorem sampling_firstMonitor : Sampling (.lit "load") firstMonitor := by
  intro x hx
  cases hx

theorem slots_reached_first :
    (∃ draws y, Leaves firstMonitor (.lit "load") 2147483647 manyValues draws y ∧
      y.samples[0] ≠ some 0) ∧
    ∃ draws y, Leaves firstMonitor (.lit "load") 2147483647 manyValues draws y ∧
      y.samples[0] = some 0 := by
  have hfirst : Machine.run reactor (start (.lit "host:bolo")) [] = .ok (firstMonitor, []) := rfl
  have hmax : 0 < 2147483647 := by decide
  have hlen : MAX_SAMPLES < manyValues.length := by rw [length_manyValues]; decide
  have hj : 0 < MAX_SAMPLES := by decide
  obtain ⟨hreplaced, hkept⟩ := slots_reached_iff hmax hfirst (.inl rfl) rfl sampling_firstMonitor
    strtodEnd_manyValues hlen hj
  rw [length_manyValues] at hkept
  exact ⟨hreplaced.mpr (.inl rfl), hkept.mpr (by decide)⟩

/-- Whatever `rand()` gives, the second value stays. -/
theorem second_slot_kept : ¬∃ draws y,
    Leaves firstMonitor (.lit "load") 2147483647 manyValues draws y ∧
      y.samples[1] ≠ some 1 := by
  have hlen : MAX_SAMPLES < manyValues.length := by rw [length_manyValues]; decide
  rw [exists_replaced_iff (by decide) sampling_firstMonitor rfl rfl strtodEnd_manyValues hlen
    (by decide), length_manyValues]
  decide

end Rationals

end Bolo.Subscriber
