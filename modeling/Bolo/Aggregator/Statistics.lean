import Bolo.Aggregator.Rates
import Bolo.Library.Statistics
import Bolo.Savefile.RoundTrip

/-!
# Statistics of sample sets

`sample_data` keeps the mean and the variance by a recurrence. On exact numbers the record
shows the two-pass statistics of the values it was fed, in whatever order they came, as long
as their number fits the counter. The save file does not keep them: every `double` passes
through a conversion that is made for 32-bit integers.
-/
namespace Bolo

open Library

variable {R Re : Type}

/-- Exact numbers with the rest of the arithmetic and the comparison. -/
class ExactArithmetic (R : Type) [Double R] extends ExactDouble R where
  value_zero : value Double.zero = 0
  value_add : ∀ a b : R, value (Double.add a b) = value a + value b
  value_sub : ∀ a b : R, value (Double.sub a b) = value a - value b
  lt_iff : ∀ a b : R, Double.lt a b = true ↔ value a < value b

open ExactDouble ExactArithmetic

/-! ## The recurrence -/

section Recurrence

variable [Double R] [ExactArithmetic R]

/-- What a sample set reports, by value. -/
def Sample.statistics (s : Sample R) : UInt64 × ℚ × ℚ × ℚ × ℚ × ℚ :=
  (s.n, value s.min, value s.max, value s.sum, value s.mean, value s.var)

/-- Number, sum, mean and variance of the values `xs`, none of them included. -/
structure Sample.Accumulates (s : Sample R) (xs : List ℚ) : Prop where
  n : s.n.toNat = xs.length
  sum : value s.sum = xs.sum
  mean : value s.mean = Library.mean xs
  var : value s.var = variance xs

/-- The sample set `s` describes the values `xs`, of which there are some. -/
structure Sample.Describes (s : Sample R) (xs : List ℚ) : Prop extends s.Accumulates xs where
  min : IsLeast {x | x ∈ xs} (value s.min)
  max : IsGreatest {x | x ∈ xs} (value s.max)

theorem Sample.Accumulates.reset (s : Sample R) : (sampleReset s).Accumulates [] := by
  constructor <;> simp [sampleReset, value_zero, Library.mean, variance]

/-- One more value, while the counter does not wrap. -/
theorem Sample.Accumulates.data {s : Sample R} {xs : List ℚ} (h : s.Accumulates xs) (v : R)
    (hlen : xs.length + 1 < 2 ^ 64) : (sampleData s v).Accumulates (xs ++ [value v]) := by
  have hone : (s.n + 1).toNat = xs.length + 1 := by
    rw [UInt64.toNat_add, h.n]
    exact Nat.mod_eq_of_lt hlen
  have hmean : value (sampleData s v).mean = Library.mean (xs ++ [value v]) := by
    rw [mean_concat]
    simp [sampleData, value_add, value_div, value_sub, value_ofInt, hone, h.mean]
  refine ⟨by simpa [sampleData] using hone, by simp [sampleData, value_add, h.sum], hmean, ?_⟩
  rw [variance_concat, ← hmean, ← h.mean, ← h.var, ← h.n]
  simp [sampleData, value_add, value_div, value_sub, value_mul, value_ofInt, hone, h.n]

/-- The first value is both extremes. -/
theorem Sample.Accumulates.first {s : Sample R} (h : s.Accumulates []) (v : R) :
    (sampleData s v).Describes [value v] := by
  have hzero : s.n = 0 := UInt64.toNat_inj.mp h.n
  refine ⟨by simpa using h.data v (by simp), ?_, ?_⟩ <;>
    simp [sampleData, hzero, IsLeast, IsGreatest, lowerBounds, upperBounds]

theorem Sample.Describes.data {s : Sample R} {xs : List ℚ} (h : s.Describes xs) (v : R)
    (hlen : xs.length + 1 < 2 ^ 64) : (sampleData s v).Describes (xs ++ [value v]) := by
  have hn : s.n ≠ 0 := by
    rw [← UInt64.toNat_inj.ne, h.n]
    exact (List.length_pos_of_mem h.min.1).ne'
  have hmin : value (sampleData s v).min = value v ⊓ value s.min := by
    simp only [sampleData, if_neg hn, lt_iff]
    split <;> rename_i hlt
    · exact (min_eq_left hlt.le).symm
    · exact (min_eq_right (not_lt.mp hlt)).symm
  have hmax : value (sampleData s v).max = value v ⊔ value s.max := by
    simp only [sampleData, if_neg hn, lt_iff]
    split <;> rename_i hlt
    · exact (max_eq_left hlt.le).symm
    · exact (max_eq_right (not_lt.mp hlt)).symm
  have hset : {x | x ∈ xs ++ [value v]} = insert (value v) {x | x ∈ xs} := by
    ext x
    simp [or_comm]
  refine ⟨h.toAccumulates.data v hlen, ?_, ?_⟩
  · rw [hset, hmin]
    exact h.min.insert (value v)
  · rw [hset, hmax]
    exact h.max.insert (value v)

theorem Sample.Describes.foldl (s : Sample R) {vs : List R} (hne : vs ≠ [])
    (hlen : vs.length < 2 ^ 64) :
    (vs.foldl sampleData (sampleReset s)).Describes (vs.map value) := by
  induction vs using List.reverseRecOn with
  | nil => exact absurd rfl hne
  | append_singleton vs v ih =>
    rw [List.length_append] at hlen
    rw [List.foldl_append, List.map_append]
    by_cases hvs : vs = []
    · subst hvs
      exact (Accumulates.reset s).first v
    · exact (ih hvs (by omega)).data v (by simpa using hlen)

/-- What a sample set reports is fixed by the values it describes, in any order. -/
theorem Sample.Describes.statistics_eq {s t : Sample R} {xs ys : List ℚ} (hs : s.Describes xs)
    (ht : t.Describes ys) (hperm : xs.Perm ys) : s.statistics = t.statistics := by
  have hset : {x | x ∈ xs} = {x | x ∈ ys} := by
    ext x
    exact hperm.mem_iff
  have hn : s.n = t.n := by
    rw [← UInt64.toNat_inj, hs.n, ht.n, hperm.length_eq]
  have hmin : value s.min = value t.min := hs.min.unique (hset ▸ ht.min)
  have hmax : value s.max = value t.max := hs.max.unique (hset ▸ ht.max)
  rw [statistics, statistics, hn, hmin, hmax, hs.sum, ht.sum, hs.mean, ht.mean, hs.var, ht.var,
    hperm.sum_eq, mean_perm hperm, variance_perm hperm]

/-- Fewer than `2 ^ 64` values fed into a cleared record leave their number, extremes, sum,
mean and population variance, whatever their order. -/
theorem sample_statistics (s : Sample R) {vs : List R} (hne : vs ≠ [])
    (hlen : vs.length < 2 ^ 64) :
    (vs.foldl sampleData (sampleReset s)).Describes (vs.map value) ∧
      ∀ ws : List R, ws.Perm vs →
        (ws.foldl sampleData (sampleReset s)).statistics =
          (vs.foldl sampleData (sampleReset s)).statistics := by
  have hdescribes : ∀ ws : List R, ws.Perm vs →
      (ws.foldl sampleData (sampleReset s)).Describes (ws.map value) := by
    intro ws hws
    have hws_ne : ws ≠ [] := by
      rintro rfl
      exact hne hws.nil_eq.symm
    exact .foldl s hws_ne (hws.length_eq ▸ hlen)
  refine ⟨hdescribes vs (.refl vs), fun ws hws => ?_⟩
  exact (hdescribes ws hws).statistics_eq (hdescribes vs (.refl vs)) (hws.map value)

end Recurrence

section Rationals

open Reference

scoped instance Reference.ratArithmetic : ExactArithmetic ℚ where
  value_zero := rfl
  value_add _ _ := rfl
  value_sub _ _ := rfl
  lt_iff _ _ := decide_eq_true_iff

def loadAverage : Sample ℚ := .blank (.lit "load") none

theorem sample_statistics_load :
    ([3, 1, 2].foldl sampleData (sampleReset loadAverage)).Describes [3, 1, 2] ∧
      ∀ ws : List ℚ, ws.Perm [3, 1, 2] →
        (ws.foldl sampleData (sampleReset loadAverage)).statistics =
          ([3, 1, 2].foldl sampleData (sampleReset loadAverage)).statistics :=
  sample_statistics loadAverage (by decide) (by decide)

/-- The counter of a record that was fed `k` values. -/
private theorem n_foldl (s : Sample ℚ) (vs : List ℚ) :
    (vs.foldl sampleData s).n = s.n + .ofNat vs.length := by
  induction vs generalizing s with
  | nil => simp
  | cons v vs ih =>
    rw [List.foldl_cons, ih]
    simp [sampleData, UInt64.ofNat_add, UInt64.add_assoc, UInt64.add_comm]

/-- The counter has 64 bits: after `2 ^ 64` values it says that there were none. -/
theorem statistics_wrap : ¬ ∀ vs : List ℚ, vs ≠ [] →
    (vs.foldl sampleData (sampleReset loadAverage)).Describes (vs.map value) := by
  intro h
  have hlen : (List.replicate (2 ^ 64) (0 : ℚ)).length = 2 ^ 64 := List.length_replicate
  have hne : List.replicate (2 ^ 64) (0 : ℚ) ≠ [] := by
    rw [← List.length_pos_iff, hlen]
    decide
  have hn := (h _ hne).n
  rw [n_foldl, List.length_map, hlen] at hn
  exact absurd hn (by decide)

end Rationals

/-! ## Through the save file -/

section Saved

/-- Every 32-bit word is a `double`, and comes back from its conversion and from its bytes. -/
class HoldsWords (R : Type) [Double R] : Prop where
  toUInt32_ofInt : ∀ n : UInt32, Double.toUInt32 (Double.ofInt n.toNat : R) = n
  ofBits_bits : ∀ n : UInt32,
    Double.ofBits (Double.bits (Double.ofInt n.toNat : R)) = (Double.ofInt n.toNat : R)

variable [Double R] [HoldsWords R]

def Sample.aggregates (s : Sample R) : List R :=
  [s.min, s.max, s.sum, s.mean, s.mean_, s.var, s.var_]

omit [Double R] [HoldsWords R] in
theorem swap32_swap32 (x : UInt32) : swap32 (swap32 x) = x := by
  have hlen : (be 4 x.toNat).reverse.length = 4 := by simp
  have hlt : ofBe (be 4 x.toNat).reverse < 2 ^ 32 := by
    simpa [hlen] using ofBe_lt (be 4 x.toNat).reverse
  have hback : be 4 (ofBe (be 4 x.toNat).reverse) = (be 4 x.toNat).reverse := by
    simpa [hlen] using be_ofBe (be 4 x.toNat).reverse
  rw [swap32, swap32, UInt32.toNat_ofNat_of_lt' hlt, hback, List.reverse_reverse,
    ofBe_be (by simpa using x.toNat_lt), UInt32.ofNat_toNat]

/-- What was saved as a `double` comes back as the integer it was converted to. -/
theorem storedDouble_eq (x : R) : storedDouble x = Double.ofInt (Double.toUInt32 x).toNat := by
  have hbits : ofBe (be 8 (Double.bits
      (Double.ofInt (swap32 (Double.toUInt32 x)).toNat : R)).toNat) =
      (Double.bits (Double.ofInt (swap32 (Double.toUInt32 x)).toNat : R)).toNat :=
    ofBe_be (by simpa using UInt64.toNat_lt _)
  have htake : (doubleBytes x).take 8 = doubleBytes x := List.take_of_length_le (by simp)
  rw [storedDouble, readDouble, htake, doubleBytes, List.reverse_reverse, hbits,
    UInt64.ofNat_toNat, HoldsWords.ofBits_bits, HoldsWords.toUInt32_ofInt, swap32_swap32]

theorem storedDouble_eq_self {x : R} :
    storedDouble x = x ↔ ∃ n : UInt32, x = Double.ofInt n.toNat := by
  rw [storedDouble_eq]
  constructor
  · intro h
    exact ⟨_, h.symm⟩
  · rintro ⟨n, rfl⟩
    rw [HoldsWords.toUInt32_ofInt]

omit [HoldsWords R] in
/-- A sample record is written with its length cut to 16 bits, and is read as long as that
still covers its fixed part: the name may come back cut, the aggregates are in the body. -/
theorem sample_through_file {s : Sample R} {name : CString} (hname : s.name = some name)
    (rest : List UInt8) {room : Nat} (hroom : (Payload.sample s).size ≤ room) :
    ∃ bytes, sWriteRecord (.sample s) = .ok bytes ∧
      if (Payload.sample s).size % 2 ^ 16 < 73 then
        sReadRecord (R := R) ⟨bytes ++ rest, room⟩ = .error .outOfBounds
      else ∃ (s' : Sample R) (m : Mapping),
        sReadRecord ⟨bytes ++ rest, room⟩ = .ok (some (.sample s'), m) ∧
          s'.aggregates = s.aggregates.map storedDouble := by
  have htexts : (Payload.sample s).texts = [name].map some := by simp [Payload.texts, hname]
  have hsize := Payload.size_eq htexts
  have hbody : (Payload.sample s).body.length = 69 := by simp [Payload.body]
  have hle : (Payload.sample s).size % 2 ^ 16 ≤ (Payload.sample s).size := Nat.mod_le _ _
  generalize hlen : (Payload.sample s).size % 2 ^ 16 = len at hle
  have hshort : len < 2 ^ 16 := by omega
  refine ⟨be 2 len ++ (be 2 3 ++ ((Payload.sample s).body ++ terminated [name])), ?_, ?_⟩
  · simp only [sWriteRecord, htexts, List.map_cons, List.map_nil, List.mapM_cons, List.mapM_nil,
      deref_some, bind, Except.bind, pure, Except.pure, hlen]
    rfl
  · have htake : Mapping.take ⟨(Payload.sample s).body ++ (terminated [name] ++ rest), room - 4⟩
        69 = some ((Payload.sample s).body, ⟨terminated [name] ++ rest, room - 4 - 69⟩) :=
      Mapping.take_append hbody (by omega)
    simp only [List.append_assoc]
    rw [readFields_head hshort (by omega) (by omega)]
    change if len < 73 then readFields 3 _ _ = _ else ∃ s' m, readFields 3 _ _ = _ ∧ _
    simp only [readFields, htake, inBounds_some, bind, Except.bind, readStrings]
    split
    · rfl
    · rw [Mapping.take, if_pos (by simp only; omega)]
      refine ⟨_, _, rfl, ?_⟩
      have hstored := readSample_body s
      simp only [Payload.stored, Payload.sample.injEq] at hstored
      simp only [Sample.aggregates, List.map_cons, List.map_nil]
      generalize (readSample (Payload.sample s).body : Sample R) = r at hstored
      cases r
      simp_all

/-- A sample record survives the save file exactly if its aggregates are whole numbers of 32
bits, and its length modulo `2 ^ 16` covers the fixed part. -/
theorem aggregates_survive {s : Sample R} {name : CString} (hname : s.name = some name)
    (rest : List UInt8) {room : Nat} (hroom : (Payload.sample s).size ≤ room) :
    (∃ (bytes : List UInt8) (s' : Sample R) (m : Mapping), sWriteRecord (.sample s) = .ok bytes ∧
        sReadRecord ⟨bytes ++ rest, room⟩ = .ok (some (.sample s'), m) ∧
        s'.aggregates = s.aggregates) ↔
      (∀ x ∈ s.aggregates, ∃ n : UInt32, x = Double.ofInt n.toNat) ∧
        73 ≤ (Payload.sample s).size % 2 ^ 16 := by
  obtain ⟨bytes, hwrite, hread⟩ := sample_through_file hname rest hroom
  have hkept : s.aggregates.map storedDouble = s.aggregates ↔
      ∀ x ∈ s.aggregates, ∃ n : UInt32, x = Double.ofInt n.toNat := by
    have hmap := List.map_inj_left (l := s.aggregates) (f := storedDouble) (g := id)
    simpa [storedDouble_eq_self] using hmap
  split at hread
  case isTrue hcut =>
    constructor
    · rintro ⟨bytes', s', m, hwrite', hread', -⟩
      obtain rfl : bytes = bytes' := Except.ok.inj (hwrite.symm.trans hwrite')
      exact absurd (hread.symm.trans hread') (by simp)
    · rintro ⟨-, hcovers⟩
      omega
  case isFalse hcut =>
    obtain ⟨s₁, m₁, hread, haggregates⟩ := hread
    constructor
    · rintro ⟨bytes', s', m, hwrite', hread', hsame⟩
      obtain rfl : bytes = bytes' := Except.ok.inj (hwrite.symm.trans hwrite')
      obtain ⟨hs, -⟩ := Prod.mk.inj (Except.ok.inj (hread.symm.trans hread'))
      obtain rfl : s₁ = s' := by simpa using hs
      exact ⟨hkept.mp (haggregates.symm.trans hsame), by omega⟩
    · rintro ⟨hwhole, -⟩
      exact ⟨bytes, s₁, m₁, hwrite, hread, haggregates.trans (hkept.mpr hwhole)⟩

end Saved

section SavedRationals

open Reference

scoped instance Reference.ratHoldsWords : HoldsWords ℚ where
  toUInt32_ofInt n := by
    change UInt32.ofNat (Rat.floor ((n.toNat : Int) : ℚ)).toNat = n
    rw [Rat.floor_intCast]
    simp
  ofBits_bits n := by
    change (((UInt64.ofNat (Rat.floor ((n.toNat : Int) : ℚ)).toNat).toNat : Nat) : ℚ) = _
    have hlt := n.toNat_lt
    have hfits : n.toNat < UInt64.size := hlt.trans (by decide)
    rw [Rat.floor_intCast, Int.toNat_natCast, UInt64.toNat_ofNat_of_lt' hfits]
    rfl

/-- The sample set that was fed 2 and 4 has whole aggregates. -/
theorem aggregates_survive_even : ∃ (bytes : List UInt8) (s' : Sample ℚ) (m : Mapping),
    sWriteRecord (.sample ([2, 4].foldl sampleData (sampleReset loadAverage))) = .ok bytes ∧
      sReadRecord ⟨bytes ++ [], 100⟩ = .ok (some (.sample s'), m) ∧
      s'.aggregates = ([2, 4].foldl sampleData (sampleReset loadAverage)).aggregates := by
  have hname : ([2, 4].foldl sampleData (sampleReset loadAverage)).name = some (.lit "load") := rfl
  refine (aggregates_survive hname [] (by decide +kernel)).mpr ⟨?_, ?_⟩
  · have haggregates : ([2, 4].foldl sampleData (sampleReset loadAverage)).aggregates =
        ([2, 4, 6, 3, 2, 1, 0] : List UInt32).map (fun n => (Double.ofInt n.toNat : ℚ)) := by
      decide +kernel
    rw [haggregates]
    intro x hx
    obtain ⟨n, -, rfl⟩ := List.mem_map.mp hx
    exact ⟨n, rfl⟩
  · decide +kernel

/-- The mean of 1 and 2 does not come back. -/
theorem mean_truncated : ∃ (bytes : List UInt8) (s' : Sample ℚ) (m : Mapping),
    sWriteRecord (.sample ([1, 2].foldl sampleData (sampleReset loadAverage))) = .ok bytes ∧
      sReadRecord ⟨bytes, bytes.length⟩ = .ok (some (.sample s'), m) ∧
      ([1, 2].foldl sampleData (sampleReset loadAverage)).mean = 3 / 2 ∧ s'.mean = 1 ∧
      s'.aggregates ≠ ([1, 2].foldl sampleData (sampleReset loadAverage)).aggregates := by
  have hall : (do
      let bytes ← sWriteRecord (.sample ([1, 2].foldl sampleData (sampleReset loadAverage)))
      let r ← sReadRecord (R := ℚ) ⟨bytes, bytes.length⟩
      return r.1) = .ok (some (.sample { loadAverage with
        n := 2, min := 1, max := 2, sum := 3, mean := 1, mean_ := 1 })) := by
    decide +kernel
  simp only [bind_eq_ok, pure_eq_ok] at hall
  obtain ⟨bytes, hwrite, ⟨p, m⟩, hread, rfl⟩ := hall
  exact ⟨bytes, _, m, hwrite, hread, by decide +kernel, rfl, by decide +kernel⟩

end SavedRationals

end Bolo
