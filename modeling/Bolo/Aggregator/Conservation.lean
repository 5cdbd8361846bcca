import Bolo.Aggregator.Windows
import Bolo.Kernel.Independence

/-!
# Conservation in a configured kernel

What was accepted for a counter or a sample set is either still held or has been broadcast,
once. The number of values of a sample set is kept in 64 bits and printed with 32, so for
sample sets this needs windows that are small enough.
-/
namespace Bolo

open Library

variable {R Re : Type}

section Runs

variable [Double R] [Pcre Re] [HashOrder] {clock : Nat → Int32} {file : List UInt8}
  {s : Server R Re} {k : Kernel R Re} {is : List Input} {es : List Effect}

def Input.frames : Input → Nat
  | .listener _ p => p.frames.length
  | _ => 0

omit [HashOrder] [Pcre Re] [Double R] in
/-- A message to a kernel in which no sample set holds more values than a broadcast can
show; it has at most as many frames as an `int` can count. -/
def Input.Countable (k : Kernel R Re) (i : Input) : Prop :=
  (∀ e ∈ k.db.samples.entries, e.2.n.toNat < 2 ^ 32) ∧ i.frames < 2 ^ 31
  deriving Decidable

/-- What was broadcast about a counter and a sample set and what they still hold add up to
what was accepted for them. -/
structure Conserved (s : Server R Re) (is : List Input) (k : Kernel R Re) (es : List Effect)
    (name : CString) : Prop where
  counter : ((((es.filterMap (Effect.select (Kind.counter.about name))).map (Pdu.number 3)).sum +
      (counterValue k.db name).toNat : Nat) : Int) ≡
    ((Ledger.accepted (Kind.counter.ledger name (boot s) is)).map fun e => Int32.toInt e.2).sum
      [ZMOD (2 ^ 64 : Nat)]
  sample : ((es.filterMap (Effect.select (Kind.sample.about name))).map (Pdu.number 3)).sum +
      (sampleCount k.db name).toNat =
    (sampleValues (Ledger.accepted (Kind.sample.ledger name (boot s) is))).length

/-- Every run of countable messages conserves what it accepts. -/
theorem reports_conserved (hs : Configured clock file s)
    (hrun : Machine.run reactor (boot s) is = .ok (k, es))
    (hforget : ∀ p, .management p ∈ is → ¬p.is .forget 4 4)
    (hcount : Machine.Along reactor (fun k i => i.Countable k) (boot s) is) (name : CString) :
    Conserved s is k es name where
  counter := counter_conservation hs.loaded.fresh hrun hforget name
  sample := by
    refine sample_conservation hs.loaded.fresh hrun hforget name (fun now p hp => ?_)
      (hcount.mono fun k i hi => ?_)
    · obtain ⟨k', hk'⟩ := hcount.of_mem hrun hp
      exact hk'.2
    · cases hg : k.db.samples.get? name with
      | none => simp [sampleCount, hg]
      | some x => simpa [sampleCount, hg] using hi.1 (name, x) (Table.mem_of_get? hg)

end Runs

section Minutes

open Reference

theorem reports_conserved_minutes : ∃ k es,
    Machine.run reactor (boot minutes) twoMinutes = .ok (k, es) ∧
      Conserved minutes twoMinutes k es (.lit "load") := by
  obtain ⟨⟨k, es⟩, hrun⟩ := exists_ok (x := Machine.run reactor (boot minutes) twoMinutes)
    (by decide +kernel)
  exact ⟨k, es, hrun, reports_conserved minutes_configured hrun (by simp [twoMinutes])
    (.of_check (by decide +kernel)) _⟩

/-! ## A window with too many values -/

/-- One value for `load`. -/
def loadAt (ts : String) : Input := .listener 0 (pdu .sample [ts, "load", "1"])

/-- The kernel of `minutes` with the given record of `load`. -/
def holding (x : Sample Int) : Kernel Int CString :=
  (boot minutes).setDb { minutes.db with samples := ⟨[(.lit "load", x)], by simp⟩ }

/-- A record of `load` that has last seen the minute at 60. -/
structure FirstMinute (x : Sample Int) : Prop where
  window : x.window = some minute
  name : x.name = some (.lit "load")
  lastSeen : x.lastSeen = 60
  ignore : x.ignore = 0

namespace FirstMinute

theorem take {x : Sample Int} (h : FirstMinute x) :
    FirstMinute (sampleUpdate 60 [1] x) ∧
      reactor (holding x) (loadAt "60") = .ok (holding (sampleUpdate 60 [1] x), []) ∧
      Kind.sample.entries (.lit "load") (holding x) (loadAt "60") [] =
        [.accept (60, ((1, []) : Int × List Int))] := by
  obtain ⟨window, name, lastSeen, n, min, max, sum, mean, mean_, var, var_, ignore⟩ := x
  obtain ⟨rfl, rfl, rfl, rfl⟩ := h
  exact ⟨⟨rfl, rfl, rfl, rfl⟩, rfl, rfl⟩

/-- More values of the same minute only raise the count. -/
theorem fill {x : Sample Int} (h : FirstMinute x) (m : Nat) :
    ∃ y, FirstMinute y ∧ y.n = x.n + UInt64.ofNat m ∧
      Machine.run reactor (holding x) (List.replicate m (loadAt "60")) = .ok (holding y, []) ∧
      Kind.sample.ledger (.lit "load") (holding x) (List.replicate m (loadAt "60")) =
        List.replicate m (.accept (60, ((1, []) : Int × List Int))) := by
  induction m generalizing x with
  | zero => exact ⟨x, h, by simp, rfl, rfl⟩
  | succ m ih =>
    obtain ⟨hx, hstep, hentries⟩ := h.take
    obtain ⟨y, hy, hn, hrun, hlog⟩ := ih hx
    refine ⟨y, hy, ?_, ?_, ?_⟩
    · have hone : (sampleUpdate 60 [1] x).n = x.n + 1 := rfl
      rw [hn, hone, UInt64.add_assoc, UInt64.add_comm 1, UInt64.ofNat_add]
      rfl
    · exact Machine.run_cons.mpr ⟨_, [], [], hstep, hrun, rfl⟩
    · rw [Kind.ledger, List.replicate_succ, Machine.log_cons hstep, hentries]
      exact congrArg _ hlog

/-- The first value of the next minute reports the count, as far as it can be printed. -/
theorem next {y : Sample Int} (h : FirstMinute y) :
    ∃ k p, reactor (holding y) (loadAt "120") = .ok (k, [.broadcast p]) ∧
      Kind.sample.about (.lit "load") p = true ∧ p.number 3 = y.n.toNat % 2 ^ 32 ∧
      sampleCount k.db (.lit "load") = 1 ∧
      Kind.sample.entries (.lit "load") (holding y) (loadAt "120") [.broadcast p] =
        [.flush p, .accept (120, ((1, []) : Int × List Int))] := by
  have hstart : winstart minute.time 60 = .ok 60 := by decide
  have hstartU : winstartU minute.time 120 = .ok 120 := by decide
  have hroll : (sampleSeries : Series Int CString _ _).rollover y 120 = .ok true := by
    simp only [Series.rollover, sampleSeries, h.window, h.lastSeen, deref_some, hstart, hstartU,
      bind, Except.bind, pure, Except.pure]
    decide
  obtain ⟨p, hp⟩ : ∃ p, (sampleSeries : Series Int CString _ _).broadcast y = .ok p := by
    simp [Series.broadcast, broadcastWindow, sampleSeries, h.window, h.name, h.lastSeen, hstart,
      bind, Except.bind, pure, Except.pure]
  have hignore : (sampleSeries : Series Int CString _ _).ignore y = 0 := h.ignore
  have hcell : (sampleSeries : Series Int CString _ _).cellReceive [] (.lit "load") 120 (1, [])
      (some y) = .ok (some (sampleUpdate 120 [1] (sampleReset y)), [p]) := by
    simp only [Series.cellReceive, Series.lookup_some, hignore, if_true, Series.submit, hroll, hp,
      bind, Except.bind, pure, Except.pure]
    rfl
  have habout : Kind.sample.about (.lit "load") p = true := by
    obtain ⟨w, ts, name, -, -, hname, rfl⟩ := Series.broadcast_spec _ hp
    obtain rfl : .lit "load" = name := by simpa [sampleSeries, h.name] using hname
    exact Kind.about_iff.mpr ⟨rfl, rfl⟩
  obtain ⟨db, hreceive⟩ : ∃ db, (sampleSeries : Series Int CString _ _).receive (holding y).db
      (pdu .sample ["120", "load", "1"]) = .ok (db, [p]) := Series.receive_complete _ rfl hcell
  refine ⟨(holding y).setDb db, p, ?_, habout, broadcastSample_number hp, ?_, ?_⟩
  · have hlisten := listen_series (κ := .sample) (p := pdu .sample ["120", "load", "1"])
      (by decide) 0 (holding y)
    exact hlisten.trans (by simp only [Kind.series, hreceive]; rfl)
  · obtain ⟨hd, -⟩ | ⟨name, ts, v, c, t, hd, hc, rfl, ht⟩ := Series.receive_spec _ hreceive
    · cases hd
    · cases hd
      cases hcell.symm.trans hc
      change ((t.get? (.lit "load")).map Sample.n).getD 0 = 1
      rw [ht]
      rfl
  · have hselect : [Effect.broadcast p].filterMap
        (Effect.select (Kind.sample.about (.lit "load"))) = [p] := by simp [Effect.select, habout]
    have haccepts : (sampleSeries : Series Int CString _ _).accepts [] (.lit "load") (some y) =
        true := by
      simpa [Series.accepts, Series.lookup_some] using hignore
    change (sampleSeries : Series Int CString _ _).entries (.lit "load") _
      (.submit 0 120 (1, [])) _ = _
    rw [hselect]
    simp only [Series.entries]
    rw [if_pos]
    · rfl
    · exact haccepts

end FirstMinute

/-- `n + 1` values of one minute, and one of the next. -/
def flood (n : Nat) : List Input :=
  loadAt "60" :: (List.replicate n (loadAt "60") ++ [loadAt "120"])

theorem flood_counts (n : Nat) : ∃ k es,
    Machine.run reactor (boot minutes) (flood n) = .ok (k, es) ∧
    ((es.filterMap (Effect.select (Kind.sample.about (.lit "load")))).map (Pdu.number 3)).sum =
      (UInt64.ofNat (n + 1)).toNat % 2 ^ 32 ∧
    sampleCount k.db (.lit "load") = 1 ∧
    (sampleValues (Ledger.accepted
      (Kind.sample.ledger (.lit "load") (boot minutes) (flood n)))).length = n + 2 := by
  let x : Sample Int := sampleUpdate 60 [1] (.blank (.lit "load") (some minute))
  have hfirst : reactor (boot minutes) (loadAt "60") = .ok (holding x, []) := rfl
  obtain ⟨y, hy, hn, hfill, hlog⟩ := FirstMinute.fill (x := x) ⟨rfl, rfl, rfl, rfl⟩ n
  obtain ⟨k, p, hnext, habout, hnumber, hcount, hentries⟩ := hy.next
  refine ⟨k, [.broadcast p], ?_, ?_, hcount, ?_⟩
  · refine Machine.run_cons.mpr ⟨_, [], _, hfirst, Machine.run_append.mpr ?_, rfl⟩
    exact ⟨_, [], _, hfill, Machine.run_singleton.mpr hnext, rfl⟩
  · have hone : x.n = 1 := rfl
    simp only [List.filterMap_cons, Effect.select, habout, if_true, List.filterMap_nil,
      List.map_cons, List.map_nil, List.sum_singleton, hnumber, hn, hone]
    rw [Nat.add_comm n, UInt64.ofNat_add]
    rfl
  · have hledger : Kind.sample.ledger (.lit "load") (boot minutes) (flood n) =
        .accept (60, (1, [])) :: (List.replicate n (.accept (60, (1, []))) ++
          [.flush p, .accept (120, (1, []))]) := by
      have hrest : Kind.sample.ledger (.lit "load") (holding x)
          (List.replicate n (loadAt "60") ++ [loadAt "120"]) = _ :=
        (Kind.sample.ledger_snoc (.lit "load") hfill hnext).trans (congrArg₂ _ hlog hentries)
      rw [Kind.ledger, flood, Machine.log_cons hfirst]
      exact congrArg _ hrest
    rw [hledger]
    simp [Ledger.accepted, sampleValues]

/-- A window of 2^32 values is reported as empty. -/
theorem flood_not_conserved : ∃ k es,
    Machine.run reactor (boot minutes) (flood (2 ^ 32 - 1)) = .ok (k, es) ∧
      ¬Conserved minutes (flood (2 ^ 32 - 1)) k es (.lit "load") := by
  obtain ⟨k, es, hrun, hsum, hcount, haccepted⟩ := flood_counts (2 ^ 32 - 1)
  refine ⟨k, es, hrun, fun h => ?_⟩
  have hsample := h.sample
  rw [hsum, hcount, haccepted] at hsample
  revert hsample
  decide

end Minutes

end Bolo
