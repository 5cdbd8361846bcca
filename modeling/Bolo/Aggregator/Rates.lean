import Bolo.Aggregator.Windows
import Mathlib.Algebra.Order.Field.Rat

/-!
# Rates of a configured kernel

A rate keeps the first and the last value of a window and when they came. The handler sets
`first_seen`, `rate_data` sets the values, and whether a value is the first is told by
`last_seen`; both closing paths clear all four. So a broadcast shows the increase over the
window, scaled to its length, as long as the values do not fall and time has passed.
-/
namespace Bolo

open Library

variable {R Re : Type}

/-- Floating-point numbers without rounding: each one stands for a rational number, and the
operations are those of the rationals. -/
class ExactDouble (R : Type) [Double R] where
  value : R → ℚ
  value_ofInt : ∀ n : Int, value (Double.ofInt n) = n
  value_mul : ∀ a b : R, value (Double.mul a b) = value a * value b
  value_div : ∀ a b : R, value (Double.div a b) = value a / value b

/-! ## The record of a rate -/

/-- The first update of the window was `v₁` at `t₁`, the last one `vₖ` at `tₖ`. -/
structure Rate.Spans (r : Rate) (t₁ tₖ : UInt32) (v₁ vₖ : UInt64) : Prop where
  firstSeen : r.firstSeen = t₁.toInt32
  lastSeen : r.lastSeen = tₖ.toInt32
  first : r.first = v₁
  last : r.last = vₖ

private theorem toInt32_ne_zero {t : UInt32} (h : 0 < t.toNat) : t.toInt32 ≠ 0 := by
  intro hzero
  have hz : t.toInt32.toUInt32 = 0 := by rw [hzero]; rfl
  simp only [UInt32.toUInt32_toInt32] at hz
  simp [hz] at h

section Feed

variable [Double R] {r : Rate} {t₁ tₖ t : UInt32} {v₁ vₖ v : UInt64}

theorem Rate.Spans.start (name : CString) (w : Option Window) :
    ((rateSeries : Series R Re _ _).update t v (Rate.blank name w)).Spans t t v v := by
  constructor <;> simp [rateSeries, rateData, Rate.blank]

/-- Another update moves the end only: the record has been seen, so its start is kept. -/
theorem Rate.Spans.update (h : r.Spans t₁ tₖ v₁ vₖ) (h₁ : 0 < t₁.toNat) (hₖ : 0 < tₖ.toNat) :
    ((rateSeries : Series R Re _ _).update t v r).Spans t₁ t v₁ v := by
  have hlast : r.lastSeen ≠ 0 := h.lastSeen ▸ toInt32_ne_zero hₖ
  constructor <;> simp [rateSeries, rateData, toInt32_ne_zero h₁, hlast, h.firstSeen, h.first]

theorem rate_feed_spans (name : CString) (w : Option Window) {vs : List (UInt32 × UInt64)}
    {e₁ eₖ : UInt32 × UInt64} (hpos : ∀ e ∈ vs, 0 < e.1.toNat) (h₁ : vs.head? = some e₁)
    (hₖ : vs.getLast? = some eₖ) :
    ((rateSeries : Series R Re _ _).feed (Rate.blank name w) vs).Spans e₁.1 eₖ.1 e₁.2 eₖ.2 := by
  induction vs using List.reverseRecOn generalizing eₖ with
  | nil => simp at h₁
  | append_singleton vs e ih =>
    obtain rfl : e = eₖ := by simpa using hₖ
    cases hlast : vs.getLast? with
    | none =>
      obtain rfl : vs = [] := List.getLast?_eq_none_iff.mp hlast
      obtain rfl : e = e₁ := by simpa using h₁
      exact .start name w
    | some e' =>
      have hne : vs ≠ [] := by rintro rfl; simp at hlast
      have hhead : vs.head? = some e₁ := by rwa [List.head?_append_of_ne_nil _ hne] at h₁
      have hspans := ih (fun e he => hpos e (by simp [he])) hhead hlast
      rw [Series.feed_append]
      exact hspans.update (hpos e₁ (by simp [List.mem_of_head? hhead]))
        (hpos e' (by simp [List.mem_of_getLast? hlast]))

/-- The rate over a span without a rollover of the value. -/
theorem rateCalc_value [ExactDouble R] (h : r.Spans t₁ tₖ v₁ vₖ) (h₁ : t₁.toNat < 2 ^ 31)
    (hₖ : tₖ.toNat < 2 ^ 31) (ht : t₁.toNat < tₖ.toNat) (hv : v₁ ≤ vₖ) (span : Int32) :
    ExactDouble.value (rateCalc r span : R) =
      (vₖ.toNat - v₁.toNat : ℚ) * span.toInt / (tₖ.toNat - t₁.toNat) := by
  have hseen : r.lastSeen ≠ 0 := h.lastSeen ▸ toInt32_ne_zero (by omega)
  have hdiff : (rateDiff r).toNat = vₖ.toNat - v₁.toNat := by
    rw [rateDiff, h.first, h.last, if_pos hv, UInt64.toNat_sub_of_le _ _ hv]
  have htime : (r.lastSeen - r.firstSeen).toInt = (tₖ.toNat : Int) - t₁.toNat := by
    have e₁ := toInt_toInt32_of_lt h₁
    have eₖ := toInt_toInt32_of_lt hₖ
    rw [h.firstSeen, h.lastSeen, toInt_sub_of_bounds (by omega) (by omega), e₁, eₖ]
  have hle : v₁.toNat ≤ vₖ.toNat := UInt64.le_iff_toNat_le.mp hv
  rw [rateCalc, if_neg hseen]
  simp only [ExactDouble.value_mul, ExactDouble.value_div, ExactDouble.value_ofInt, hdiff, htime]
  push_cast [Nat.cast_sub hle]
  ring

end Feed

/-! ## What a rate broadcast says -/

section Runs

variable [Double R] [ExactDouble R] [Pcre Re]

/-- The PDU `p` is the RATE broadcast about the window of `name` at `start` in which the
updates `vs` came: its length, and the increase from the first update to the last, scaled to
that length. -/
def RateReport (name : CString) (db : Db R Re) (vs : List (UInt32 × UInt64)) (p : Pdu) : Prop :=
  ∃ (w : Window) (start : Nat) (x : R), Kind.rate.windowOf name db = some w ∧
    p = { type := Tag.rate.text,
          frames := [decimal start, name, decimalInt w.time.toInt, Double.fmtE x] } ∧
    (∀ e ∈ vs, start ≤ e.1.toNat ∧ e.1.toNat < start + w.time.toInt.toNat) ∧
    ∃ e₁ eₖ, vs.head? = some e₁ ∧ vs.getLast? = some eₖ ∧
      (e₁.2 ≤ eₖ.2 → e₁.1 < eₖ.1 → ExactDouble.value x =
        (eₖ.2.toNat - e₁.2.toNat : ℚ) * w.time.toInt / (eₖ.1.toNat - e₁.1.toNat))

variable [HashOrder] {clock : Nat → Int32} {file : List UInt8} {s : Server R Re}
  {k : Kernel R Re} {is : List Input} {es : List Effect}

/-- The ledger of a rate lists its broadcasts in the run, and each of them reports what was
accepted since the one before it. -/
theorem rates_exact (hs : Configured clock file s)
    (hrun : Machine.run reactor (boot s) is = .ok (k, es))
    (hforget : ∀ p, .management p ∈ is → ¬p.is .forget 4 4) (name : CString)
    (hT : ∀ w, Kind.rate.windowOf name s.db = some w → 0 < w.time.toInt)
    (hts : ∀ i ∈ is, ∀ now ts v, Kind.rate.view R Re name i = some (.submit now ts v) →
      0 < ts.toNat ∧ ts.toNat < 2 ^ 31) :
    Ledger.flushed (Kind.rate.ledger name (boot s) is) =
        es.filterMap (Effect.select (Kind.rate.about name)) ∧
      Ledger.Flushes (RateReport name s.db) (Kind.rate.ledger name (boot s) is) := by
  have hfresh := hs.loaded.fresh
  refine ⟨Kind.rate.flushed_ledger name hfresh.wf hrun, ?_⟩
  refine (Kind.rate.ledger_pure name hfresh hrun hforget hT hts).mono ?_
  rintro vs p ⟨w, start, hw, -, hin, hne, hrange, rfl⟩
  obtain ⟨e₁, h₁⟩ := Option.ne_none_iff_exists'.mp (mt List.head?_eq_none_iff.mp hne)
  obtain ⟨eₖ, hₖ⟩ := Option.ne_none_iff_exists'.mp (mt List.getLast?_eq_none_iff.mp hne)
  refine ⟨w, start, _, hw, rfl, hin, e₁, eₖ, h₁, hₖ, fun hv ht => ?_⟩
  exact rateCalc_value (rate_feed_spans name (some w) (fun e he => (hrange e he).1) h₁ hₖ)
    (hrange e₁ (List.mem_of_head? h₁)).2 (hrange eₖ (List.mem_of_getLast? hₖ)).2
    (UInt32.lt_iff_toNat_lt.mp ht) hv w.time

end Runs

section Minutes

open Reference

/-- The rationals as floating-point numbers. -/
scoped instance Reference.ratDouble : Double ℚ where
  zero := 0
  add := (· + ·)
  sub := (· - ·)
  mul := (· * ·)
  div := (· / ·)
  lt a b := a < b
  ofInt n := n
  toUInt32 x := .ofNat x.floor.toNat
  bits x := .ofNat x.floor.toNat
  ofBits b := b.toNat
  strtod s := (strtol s).toInt
  fmtE x := decimalInt x.num ++ .lit "/" ++ decimal x.den

scoped instance Reference.ratExact : ExactDouble ℚ where
  value := id
  value_ofInt _ := rfl
  value_mul _ _ := rfl
  value_div _ _ := rfl

/-- A rate by the minute, on exact numbers. -/
def bytesByMinute : Server ℚ CString :=
  { defaults ℚ CString with
    db := { Db.empty ℚ CString with
      windows := hashSet .empty (.lit "@minute") minute
      rates := hashSet .empty (.lit "bytes") (.blank (.lit "bytes") (some minute)) } }

/-- Three updates in one minute, out of order, and one in the next. -/
def fourUpdates : List Input :=
  [.listener 61 (pdu .rate ["61", "bytes", "100"]),
   .listener 80 (pdu .rate ["80", "bytes", "300"]),
   .listener 80 (pdu .rate ["76", "bytes", "150"]),
   .listener 130 (pdu .rate ["130", "bytes", "500"])]

theorem rates_exact_bytes : ∃ k es,
    Machine.run reactor (boot bytesByMinute) fourUpdates = .ok (k, es) ∧
      es = [.broadcast (pdu .rate ["60", "bytes", "60", "200/1"])] ∧
      Ledger.Flushes (RateReport (.lit "bytes") bytesByMinute.db)
        (Kind.rate.ledger (.lit "bytes") (boot bytesByMinute) fourUpdates) := by
  have hs : Configured epoch (CString.ascii "window @minute 60\nrate @minute bytes\n")
      bytesByMinute := ⟨64, by decide +kernel⟩
  obtain ⟨⟨k, es⟩, hrun⟩ := exists_ok (x := Machine.run reactor (boot bytesByMinute) fourUpdates)
    (by decide +kernel)
  have hes : (Machine.run reactor (boot bytesByMinute) fourUpdates).map Prod.snd =
      .ok [.broadcast (pdu .rate ["60", "bytes", "60", "200/1"])] := by decide +kernel
  rw [hrun] at hes
  refine ⟨k, es, hrun, Except.ok.inj hes, (rates_exact hs hrun (by simp [fourUpdates]) _ ?_ ?_).2⟩
  · intro w hw
    have hwindow : Kind.rate.windowOf (.lit "bytes") bytesByMinute.db = some minute := by
      decide +kernel
    obtain rfl : minute = w := by simpa [hwindow] using hw
    decide
  · intro i hi now ts v hv
    have hall : ∀ d ∈ fourUpdates.filterMap Input.arrival,
        0 < d.2.2.toNat ∧ d.2.2.toNat < 2 ^ 31 := by decide +kernel
    exact hall _ (List.mem_filterMap.mpr ⟨i, hi, Kind.view_submit _ _ hv⟩)

end Minutes

/-! ## Rollover -/

section Rollover

/-- The increment of a source counter of 32 or 64 bits, told apart by its first value. -/
def Rate.increment (r : Rate) : Int :=
  if r.first.toNat < 2 ^ 32 then ((r.last.toNat : Int) - r.first.toNat) % 2 ^ 32
  else ((r.last.toNat : Int) - r.first.toNat) % 2 ^ 64

/-- How far `rate_calc` is off once the value has fallen. -/
def Rate.rolloverError (r : Rate) : Int :=
  if r.first.toNat < 0xffff then 0xffff - 2 ^ 32
  else if r.first.toNat < 2 ^ 32 then -1
  else 0xffffffff

private theorem rateDiff_of_lt {r : Rate} (h : r.last < r.first) :
    ((rateDiff r).toNat : Int) =
      if r.first.toNat < 0xffff then (0xffff : Int) - r.first.toNat + r.last.toNat
      else ((0xffffffff : Int) - r.first.toNat + r.last.toNat) % 2 ^ 64 := by
  have hlt : r.last.toNat < r.first.toNat := UInt64.lt_iff_toNat_lt.mp h
  have hfirst : r.first.toNat < 2 ^ 64 := r.first.toNat_lt
  have hsmall : r.first < 0xffff ↔ r.first.toNat < 0xffff := UInt64.lt_iff_toNat_lt
  rw [rateDiff, if_neg (by simpa using h)]
  simp only [hsmall]
  split <;> simp only [UInt64.toNat_add, UInt64.toNat_sub, UInt64.reduceToNat] <;> omega

/-- The constants of both branches are wrong: the difference is the increment plus an error
that is never a multiple of the modulus. -/
theorem rateDiff_rollover {r : Rate} (h : r.last < r.first) :
    ((rateDiff r).toNat : Int) = (r.increment + r.rolloverError) % 2 ^ 64 := by
  have hlt : r.last.toNat < r.first.toNat := UInt64.lt_iff_toNat_lt.mp h
  have hfirst : r.first.toNat < 2 ^ 64 := r.first.toNat_lt
  rw [rateDiff_of_lt h, Rate.increment, Rate.rolloverError]
  split_ifs <;> omega

theorem rollover_never {r : Rate} (h : r.last < r.first) :
    ((rateDiff r).toNat : Int) ≠ r.increment := by
  have hlt : r.last.toNat < r.first.toNat := UInt64.lt_iff_toNat_lt.mp h
  rw [rateDiff_rollover h, Rate.increment, Rate.rolloverError]
  split_ifs <;> omega

end Rollover

section WrappedCounter

open Reference

/-- A 32-bit counter that wraps between two updates. -/
def wrappingUpdates : List Input :=
  [.listener 61 (pdu .rate ["61", "bytes", "4294967295"]),
   .listener 62 (pdu .rate ["62", "bytes", "4"])]

def wrapped : Rate :=
  { Rate.blank (.lit "bytes") (some minute) with
    firstSeen := 61, lastSeen := 62, first := 4294967295, last := 4 }

theorem rollover_never_wrapped : ((rateDiff wrapped).toNat : Int) ≠ wrapped.increment :=
  rollover_never (by decide)

/-- The counter moved by five, `rate_calc` says four. -/
theorem rollover_off_by_one :
    (Machine.run reactor (boot bytesByMinute) wrappingUpdates).map
        (fun r => r.1.db.rates.get? (.lit "bytes")) = .ok (some wrapped) ∧
      wrapped.last < wrapped.first ∧ rateDiff wrapped = 4 ∧ wrapped.increment = 5 := by
  decide +kernel

end WrappedCounter

end Bolo
