import Bolo.Config.Reference

/-!
# The relay with a memory

`bolo cache` subscribes to the broadcasts of an aggregator, passes each one on, and keeps the
last one for each name. On request it sends what it keeps to a client that came late. It keeps
everything in one table by name alone, while the aggregator has a table for each kind of
datapoint: a name that is a counter and a sample set at once is kept once.
-/
namespace Bolo

open Library

namespace Cache

/-! ## The dispatcher -/

inductive Socket where
  | control | subscriber | listen
  deriving DecidableEq

inductive Halt where
  | control
  deriving DecidableEq

/-- The frame under which a PDU is kept. -/
def key (p : Pdu) : Option CString :=
  if p.type = Tag.counter.text ∨ p.type = Tag.sample.text ∨ p.type = Tag.rate.text then p.string 2
  else if p.type = Tag.state.text then p.string 1
  else none

/-- `_dispatcher_reactor`: the kept PDUs, and what is broadcast. -/
def dispatcherReactor [HashOrder] (pdus : Table CString Pdu) :
    Socket × Pdu → Except Halt (Table CString Pdu × List Pdu)
  | (.control, _) => .error .control
  | (.subscriber, p) =>
    match key p with
    | none => .ok (pdus, [p])
    | some k => .ok (hashSet pdus k p, [p])
  | (.listen, p) =>
    if p.type = .lit "REPEAT" then .ok (pdus, pdus.entries.map Prod.snd) else .ok (pdus, [])

/-! ## Datapoints -/

/-- The datapoint a broadcast of the kernel is about. Its name stands first in a STATE, and
after the timestamp in the others. -/
def datapoint (p : Pdu) : Option (Tag × CString) :=
  if p.type = Tag.state.text then (p.string 1).map fun name => (.state, name)
  else if p.type = Tag.counter.text then (p.string 2).map fun name => (.counter, name)
  else if p.type = Tag.sample.text then (p.string 2).map fun name => (.sample, name)
  else if p.type = Tag.rate.text then (p.string 2).map fun name => (.rate, name)
  else none

theorem key_eq (p : Pdu) : key p = (datapoint p).map Prod.snd := by
  unfold key datapoint
  split_ifs <;> simp_all [Function.comp_def]

/-! ## What is kept -/

/-- Under each key there is the last PDU that had it. -/
def Keeps (pdus : Table CString Pdu) (ps : List Pdu) : Prop :=
  ∀ k p, pdus.get? k = some p ↔ IsLast (fun q => key q = some k) ps p

section Runs

variable [HashOrder] {pdus : Table CString Pdu} {ps : List Pdu} {p : Pdu}

theorem Keeps.subscriber (h : Keeps pdus ps) (p : Pdu) :
    ∃ pdus', dispatcherReactor pdus (.subscriber, p) = .ok (pdus', [p]) ∧
      Keeps pdus' (ps ++ [p]) := by
  cases hk : key p with
  | none =>
    refine ⟨pdus, by simp [dispatcherReactor, hk], fun k q => ?_⟩
    rw [isLast_append, h k q]
    simp [hk]
  | some k₀ =>
    refine ⟨hashSet pdus k₀ p, by simp [dispatcherReactor, hk], fun k q => ?_⟩
    rw [isLast_append, get?_hashSet, ← h k q, hk]
    by_cases hkk : k = k₀
    · simp [hkk, eq_comm]
    · simp [hkk, Ne.symm hkk]

/-- Every PDU is passed on once, in order, and the last one of each key is kept. -/
theorem run_subscriber (ps : List Pdu) : ∃ pdus,
    Machine.run dispatcherReactor .empty (ps.map fun p => (.subscriber, p)) = .ok (pdus, ps) ∧
      Keeps pdus ps := by
  induction ps using List.reverseRecOn with
  | nil => exact ⟨.empty, rfl, fun k p => by simp [not_isLast_nil]⟩
  | append_singleton ps p ih =>
    obtain ⟨pdus, hrun, hkeeps⟩ := ih
    obtain ⟨pdus', hstep, hkeeps'⟩ := hkeeps.subscriber p
    refine ⟨pdus', ?_, hkeeps'⟩
    rw [List.map_append, Machine.run_append]
    exact ⟨pdus, ps, [p], hrun, Machine.run_singleton.mpr hstep, rfl⟩

omit [HashOrder] in
/-- What is kept is kept once. -/
theorem Keeps.nodup (h : Keeps pdus ps) : (pdus.entries.map Prod.snd).Nodup := by
  refine List.Nodup.map_on (fun e he f hf heq => ?_) (List.Nodup.of_map _ pdus.nodup)
  have hkey {e : CString × Pdu} (he : e ∈ pdus.entries) : key e.2 = some e.1 :=
    ((h e.1 e.2).mp (Table.get?_of_mem he)).prop
  have hfst : e.1 = f.1 := Option.some.inj ((hkey he).symm.trans (heq ▸ hkey hf))
  exact Prod.ext hfst heq

omit [HashOrder] in
theorem Keeps.mem_iff (h : Keeps pdus ps) :
    p ∈ pdus.entries.map Prod.snd ↔ ∃ k, IsLast (fun q => key q = some k) ps p := by
  constructor
  · intro hp
    obtain ⟨⟨k, q⟩, he, rfl⟩ := List.mem_map.mp hp
    exact ⟨k, (h k q).mp (Table.get?_of_mem he)⟩
  · rintro ⟨k, hlast⟩
    exact List.mem_map.mpr ⟨(k, p), Table.mem_of_get? ((h k p).mpr hlast), rfl⟩

/-! ## What is repeated -/

/-- No name is that of datapoints of two kinds. -/
def Unambiguous (ps : List Pdu) : Prop :=
  ∀ p ∈ ps, ∀ q ∈ ps, ∀ d e, datapoint p = some d → datapoint q = some e → d.2 = e.2 → d.1 = e.1

omit [HashOrder] in
/-- Then the last PDU of a key is the last one about its datapoint, and conversely. -/
theorem Unambiguous.isLast_iff (h : Unambiguous ps) :
    (∃ k, IsLast (fun q => key q = some k) ps p) ↔
      ∃ d, IsLast (fun q => datapoint q = some d) ps p := by
  have same {q : Pdu} {d : Tag × CString} (hp : p ∈ ps) (hd : datapoint p = some d) (hq : q ∈ ps) :
      key q = some d.2 ↔ datapoint q = some d := by
    rw [key_eq, Option.map_eq_some_iff]
    constructor
    · rintro ⟨e, he, hname⟩
      have htag := h q hq p hp e d he hd hname
      rw [he, Prod.ext htag hname]
    · intro hq
      exact ⟨d, hq, rfl⟩
  constructor
  · rintro ⟨k, hlast⟩
    have hkey := hlast.prop
    rw [key_eq] at hkey
    obtain ⟨d, hd, rfl⟩ := Option.map_eq_some_iff.mp hkey
    exact ⟨d, hlast.congr fun q hq => same hlast.mem hd hq⟩
  · rintro ⟨d, hlast⟩
    exact ⟨d.2, hlast.congr fun q hq => (same hlast.mem hlast.prop hq).symm⟩

/-- A repeat sends exactly the last broadcast about each datapoint, after everything was passed
on, if and only if no two kinds of datapoints share a name. -/
theorem repeat_exact_iff (ps : List Pdu) (frames : List CString) :
    (∃ pdus out, Machine.run dispatcherReactor .empty (ps.map (fun p => (.subscriber, p)) ++
        [(.listen, { type := .lit "REPEAT", frames := frames })]) = .ok (pdus, ps ++ out) ∧
      out.Nodup ∧ ∀ p, p ∈ out ↔ ∃ d, IsLast (fun q => datapoint q = some d) ps p) ↔
      Unambiguous ps := by
  obtain ⟨kept, hrun, hkeeps⟩ := run_subscriber ps
  have hrepeat : Machine.run dispatcherReactor .empty (ps.map (fun p => (.subscriber, p)) ++
      [(.listen, { type := .lit "REPEAT", frames := frames })]) =
        .ok (kept, ps ++ kept.entries.map Prod.snd) :=
    Machine.run_append.mpr
      ⟨kept, ps, _, hrun, Machine.run_singleton.mpr (by simp [dispatcherReactor]), rfl⟩
  constructor
  · rintro ⟨pdus, out, hout, -, hmem⟩ p hp q hq d e hd he hname
    obtain ⟨-, houteq⟩ : kept = pdus ∧ ps ++ kept.entries.map Prod.snd = ps ++ out := by
      simpa using hrepeat.symm.trans hout
    obtain rfl := List.append_cancel_left houteq
    -- the last PDUs about `d` and about `e` are both repeated, but under one key
    obtain ⟨p', hp'⟩ := exists_isLast (P := fun q => datapoint q = some d) ⟨p, hp, hd⟩
    obtain ⟨q', hq'⟩ := exists_isLast (P := fun r => datapoint r = some e) ⟨q, hq, he⟩
    have hget {r : Pdu} {c : Tag × CString} (hr : IsLast (fun q => datapoint q = some c) ps r) :
        kept.get? c.2 = some r := by
      obtain ⟨k, hk⟩ := hkeeps.mem_iff.mp ((hmem r).mpr ⟨c, hr⟩)
      have hc : datapoint r = some c := hr.prop
      have hkey : (datapoint r).map Prod.snd = some k := (key_eq r).symm.trans hk.prop
      rw [hc] at hkey
      exact (hkeeps c.2 r).mpr (Option.some.inj hkey ▸ hk)
    have hpq : p' = q' := Option.some.inj ((hget hp').symm.trans (hname ▸ hget hq'))
    have hde : d = e := Option.some.inj (hp'.prop.symm.trans (hpq ▸ hq'.prop))
    rw [hde]
  · intro h
    exact ⟨kept, _, hrepeat, hkeeps.nodup, fun p => hkeeps.mem_iff.trans h.isLast_iff⟩

end Runs

section Ambiguous

open Reference

/-- A counter and a sample set of one name. -/
def twoKinds : List Pdu :=
  [pdu .counter ["60", "cpu", "1"], pdu .sample ["60", "cpu", "1", "5", "5", "5", "5", "0"]]

/-- Only the sample set is repeated. -/
theorem counter_forgotten :
    ¬∃ pdus out, Machine.run dispatcherReactor .empty (twoKinds.map (fun p => (.subscriber, p)) ++
        [(.listen, { type := .lit "REPEAT", frames := [] })]) = .ok (pdus, twoKinds ++ out) ∧
      out.Nodup ∧ ∀ p, p ∈ out ↔ ∃ d, IsLast (fun q => datapoint q = some d) twoKinds p := by
  rintro ⟨pdus, out, hrun, -, hmem⟩
  have hout : (Machine.run dispatcherReactor .empty (twoKinds.map (fun p => (.subscriber, p)) ++
      [(.listen, { type := .lit "REPEAT", frames := [] })])).map Prod.snd =
        .ok (twoKinds ++ [pdu .sample ["60", "cpu", "1", "5", "5", "5", "5", "0"]]) := by
    decide +kernel
  rw [hrun] at hout
  obtain rfl := List.append_cancel_left (Except.ok.inj hout)
  have hcounter := (hmem (pdu .counter ["60", "cpu", "1"])).mpr
    ⟨(.counter, .lit "cpu"), [], _, rfl, by decide, by decide⟩
  exact absurd hcounter (by decide)

end Ambiguous

end Cache

end Bolo
