import Bolo.Config.Loaded
import Bolo.Config.Reference
import Bolo.Kernel.StateCell

/-!
# The freshness of a type

A type definition reads `freshness N` into a field of 16 bits. What the states of the type
expire by is the number modulo `2 ^ 16`, and the last one where a definition has several.
-/
namespace Bolo

open Library

variable {R Re : Type}

/-! ## The numbers of a definition -/

/-- The numbers after `freshness` in the body of a type, in the order in which they are read. -/
def freshnesses : Nat → Parser → List Int32
  | 0, _ => []
  | fuel + 1, p =>
    match next p with
    | .ok (.keyword .freshness, p) =>
      match expectNumber p with
      | .ok (n, p) => n :: freshnesses fuel p
      | .error _ => []
    | .ok (.string, p) =>
      match expect .string p with
      | .ok (_, p) => freshnesses fuel p
      | .error _ => []
    | _ => []

/-- The type keeps the low half of the last number. -/
theorem typeBody_freshness {fuel : Nat} {type type' : TypeDef} {p p' : Parser}
    (h : typeBody fuel type p = .ok (type', p')) :
    type'.freshness =
      ((freshnesses fuel p).getLast?.map (·.toUInt32.toUInt16)).getD type.freshness := by
  induction fuel generalizing type p with
  | zero => simp [typeBody] at h
  | succ fuel ih =>
    simp only [typeBody, bind_eq_ok] at h
    obtain ⟨⟨token, q⟩, hnext, h⟩ := h
    unfold freshnesses
    split at h
    · case h_1 htoken =>
        obtain rfl : token = .closeBrace := htoken
        simp only [pure_eq_ok, Prod.mk.injEq] at h
        simp [hnext, h.1]
    · case h_2 htoken =>
        obtain rfl : token = .keyword .freshness := htoken
        simp only [bind_eq_ok] at h
        obtain ⟨⟨n, r⟩, hn, h⟩ := h
        simp only [hnext, hn, ih h, List.getLast?_cons]
        cases (freshnesses fuel r).getLast? <;> rfl
    · case h_3 htoken =>
        obtain rfl : token = .string := htoken
        simp only [bind_eq_ok] at h
        obtain ⟨word, -, status, -, ⟨text, r⟩, htext, h⟩ := h
        simp only [hnext, htext, ih h]
    · simp at h

/-- A type definition that is accepted: the numbers it reads, and the type as it is stored. -/
def Conf.typeRead [HashOrder] (c : Conf R Re) (fuel : Nat) :
    Except Stop (List Int32 × TypeDef) := do
  let (name, p) ← expect .typename c.parser
  let (_, p) ← expect .openBrace p
  let c' ← c.type fuel
  let type ← orBail (c'.server.db.types.get? name)
  return (freshnesses fuel p, type)

theorem Conf.typeRead_freshness [HashOrder] {c : Conf R Re} {fuel : Nat} {ns : List Int32}
    {n : Int32} {t : TypeDef} (h : c.typeRead fuel = .ok (ns, t)) (hlast : ns.getLast? = some n) :
    t.freshness = n.toUInt32.toUInt16 := by
  simp only [typeRead, type, bind_eq_ok, pure_eq_ok, orBail_eq_ok, Prod.mk.injEq] at h
  obtain ⟨⟨name, p⟩, hname, ⟨_, q⟩, hopen, c', ⟨⟨name', p'⟩, hname', ⟨_, q'⟩, hopen',
    ⟨type, r⟩, hbody, rfl⟩, type', hget, rfl, rfl⟩ := h
  obtain ⟨rfl, rfl⟩ : name = name' ∧ p = p' := by simpa [hname] using hname'
  obtain ⟨-, rfl⟩ : _ ∧ q = q' := by simpa [hopen] using hopen'
  have hstored : { type with
      summary := some (type.summary.getD (defaultSummary type.freshness)) } = type' := by
    simpa [setDb, get?_hashSet] using hget
  rw [← hstored]
  simpa [hlast] using typeBody_freshness hbody

/-! ## Expiry as a number -/

theorem toNat_low_half (n : Int32) : (n.toUInt32.toUInt16.toNat : Int) = n.toInt % 2 ^ 16 := by
  have hn : n.toInt = n.toUInt32.toBitVec.toInt := rfl
  have hnat : n.toUInt32.toBitVec.toNat = n.toUInt32.toNat := rfl
  rw [hn, BitVec.toInt_eq_toNat_cond, UInt32.toNat_toUInt16, hnat]
  split <;> omega

/-- After an update: the 16 bits that are kept make the sum where they are the number and the sum
fits. -/
theorem expiryAt_eq_iff {ts : UInt32} {t : TypeDef} {n last : Int32}
    (ht : t.freshness = last.toUInt32.toUInt16) :
    (expiryAt ts t).toInt = ts.toNat + n.toInt ↔
      n.toInt = last.toInt % 2 ^ 16 ∧ ts.toNat + n.toInt < 2 ^ 31 := by
  have hlow := toNat_low_half last
  have hts := ts.toNat_lt
  have hsum : (ts + UInt32.ofNat t.freshness.toNat).toNat =
      (ts.toNat + t.freshness.toNat) % 2 ^ 32 := by
    simp
  have hle := n.le_toInt
  have hlt := n.toInt_lt
  rw [expiryAt, toInt_toInt32, hsum, ht]
  split <;> omega

/-- After a sweep, likewise. -/
theorem staleExpiry_eq_iff {now : Int32} {t : TypeDef} {n last : Int32}
    (ht : t.freshness = last.toUInt32.toUInt16) :
    (now + Int32.ofNat t.freshness.toNat).toInt = now.toInt + n.toInt ↔
      n.toInt = last.toInt % 2 ^ 16 ∧ now.toInt + n.toInt < 2 ^ 31 := by
  have hlow := toNat_low_half last
  have hfresh := t.freshness.toNat_lt
  have hnow := now.le_toInt
  have hnow' := now.toInt_lt
  have hle := n.le_toInt
  have hlt := n.toInt_lt
  have hof : (Int32.ofNat t.freshness.toNat).toInt = t.freshness.toNat :=
    Int32.toInt_ofNat_of_lt (by omega)
  rw [Int32.toInt_add, hof, Int.bmod_def, ht]
  split <;> omega

/-! ## The kernel -/

section Kernel

variable [Double R] [Pcre Re] [HashOrder] {k k' : Kernel R Re} {es : List Effect} {name : CString}
  {s' : State}

/-- A submission of a state reaches its record. -/
theorem listen_submit {now : Int32} {p : Pdu} {m : StateMsg}
    (h : reactor k (.listener now p) = .ok (k', es))
    (hview : StateCell.view Re name (.listener now p) = some m) :
    ∃ c out, StateCell.step name (.of name k) m = .ok (c, out) ∧
      c.found = k'.db.states.get? name := by
  have other {tag : Tag} {m n : Nat} (hp : p.is tag m n) (hne : tag ≠ .state) : False := by
    simp [StateCell.view, Pdu.is_of_ne hp hne] at hview
  cases listen_spec h with
  | @state db out hp hr =>
    simp only [StateCell.view, hp, if_true] at hview
    rcases receiveState_spec hr with ⟨hd, -, -⟩ | ⟨n, ts, code, msg, c, t, hd, hc, rfl, ht⟩
    · simp [hd] at hview
    · simp only [hd, Option.ite_none_right_eq_some, Option.some.injEq] at hview
      obtain ⟨rfl, rfl⟩ := hview
      refine ⟨_, out, by simp only [StateCell.step, StateCell.of, hc]; rfl, ?_⟩
      simp [Kernel.setDb, Kernel.db, ht]
  | series κ hp => exact (other hp (by cases κ <;> simp [Kind.tag])).elim
  | event hp => exact (other hp (by simp)).elim
  | setKeys hp => exact (other hp (by simp)).elim
  | other hs => simp [StateCell.view, hs] at hview

/-- An accepted update sets the expiry of the record by its type. -/
theorem update_expiry {now : Int32} {p : Pdu} {ts : UInt32} {code : UInt8} {msg : CString}
    (h : reactor k (.listener now p) = .ok (k', es))
    (hview : StateCell.view Re name (.listener now p) = some (.submit now ts code msg))
    (hacc : StateCell.accepts name (.of name k) = true)
    (hs' : k'.db.states.get? name = some s') :
    ∃ t, s'.type = some t ∧ s'.expiry = expiryAt ts t := by
  obtain ⟨c, out, hstep, hfound⟩ := listen_submit h hview
  obtain ⟨-, hmoves⟩ := StateCell.step_moves name (by simp) hstep
  rw [hfound, hs'] at hmoves
  generalize hx : some s' = x at hmoves
  cases hmoves with
  | stay _ hsubmit => simp [hsubmit _ _ _ _ rfl] at hacc
  | @update _ _ _ _ s type _ _ _ ht _ =>
    obtain rfl : s' = _ := Option.some.inj hx
    exact ⟨type, ht, rfl⟩

/-- A sweep that finds a record expired sets its expiry by its type. -/
theorem sweep_expiry {clock : Clock} {s : State} (h : reactor k (.tock clock) = .ok (k', es))
    (hdue : k.freshness.due clock.now) (hs : k.db.states.get? name = some s)
    (hexp : s.expiry ≤ clock.sweep) (hign : s.ignore = 0)
    (hs' : k'.db.states.get? name = some s') :
    ∃ t, s'.type = some t ∧ s'.expiry = clock.sweep + Int32.ofNat t.freshness.toNat := by
  obtain ⟨tk⟩ := tock_spec h
  rcases Table.get?_sweep _ tk.sweptStates name with ⟨hnone, -⟩ | ⟨v, v', out, hv, hmark, hv'⟩
  · simp [hs] at hnone
  · obtain rfl : s = v := by simpa [hs] using hv
    obtain rfl : s' = v' := by simpa [hs'] using hv'
    rw [Table.gate, if_pos hdue] at hmark
    rcases markStale_spec hmark with ⟨hlive, -⟩ | ⟨-, -, type, summary, ht, -, rfl, -⟩
    · exact absurd hlive (by simp [hign, Int32.not_lt.mpr hexp])
    · exact ⟨type, ht, rfl⟩

/-- A number `N` of an accepted definition is what the states of the type expire by, at an update
and at a sweep, exactly where it is the last one of the definition modulo `2 ^ 16` and the sum fits
into 31 bits. -/
theorem freshness_kept_iff {c : Conf R Re} {fuel : Nat} {ns : List Int32} {t : TypeDef}
    (hread : c.typeRead fuel = .ok (ns, t)) {n : Int32} (hmem : n ∈ ns)
    (hs' : k'.db.states.get? name = some s') (ht : s'.type = some t) :
    (∀ now p ts code msg, reactor k (.listener now p) = .ok (k', es) →
      StateCell.view Re name (.listener now p) = some (.submit now ts code msg) →
      StateCell.accepts name (.of name k) = true →
      (s'.expiry.toInt = ts.toNat + n.toInt ↔
        n.toInt = (ns.getLast (List.ne_nil_of_mem hmem)).toInt % 2 ^ 16 ∧
          ts.toNat + n.toInt < 2 ^ 31)) ∧
    (∀ clock s, reactor k (.tock clock) = .ok (k', es) → k.freshness.due clock.now →
      k.db.states.get? name = some s → s.expiry ≤ clock.sweep → s.ignore = 0 →
      (s'.expiry.toInt = clock.sweep.toInt + n.toInt ↔
        n.toInt = (ns.getLast (List.ne_nil_of_mem hmem)).toInt % 2 ^ 16 ∧
          clock.sweep.toInt + n.toInt < 2 ^ 31)) := by
  have hlast := List.getLast?_eq_some_getLast (List.ne_nil_of_mem hmem)
  have hfresh := Conf.typeRead_freshness hread hlast
  constructor
  · intro now p ts code msg h hview hacc
    obtain ⟨t', ht', hexpiry⟩ := update_expiry h hview hacc hs'
    obtain rfl : t = t' := by simpa [ht] using ht'
    rw [hexpiry]
    exact expiryAt_eq_iff hfresh
  · intro clock s h hdue hs hexp hign
    obtain ⟨t', ht', hexpiry⟩ := sweep_expiry h hdue hs hexp hign hs'
    obtain rfl : t = t' := by simpa [ht] using ht'
    rw [hexpiry]
    exact staleExpiry_eq_iff hfresh

end Kernel

section Minute

open Reference

/-- The definition of `:ping`, after the word `type`. -/
def pingDefinition : Conf Int CString :=
  .start (defaults Int CString)
    (CString.ascii ":ping \x7b\n  freshness 60\n  critical \"gone\"\n\x7d\n")

def webOk : Pdu := pdu .state ["1000", "web", "0", "ok"]

theorem freshness_kept_minute : ∃ k' es s',
    reactor (boot hosts) (.listener 1000 webOk) = .ok (k', es) ∧
      k'.db.states.get? (.lit "web") = some s' ∧ s'.expiry.toInt = 1060 := by
  obtain ⟨⟨k', es⟩, hrun⟩ := exists_ok (x := reactor (boot hosts) (.listener 1000 webOk))
    (by decide +kernel)
  have hget : (reactor (boot hosts) (.listener 1000 webOk)).map
      (fun r => (r.1.db.states.get? (.lit "web")).map State.type) = .ok (some (some ping)) := by
    decide +kernel
  rw [hrun] at hget
  obtain ⟨s', hs', htype⟩ := Option.map_eq_some_iff.mp (Except.ok.inj hget)
  refine ⟨k', es, s', hrun, hs', ?_⟩
  have hread : pingDefinition.typeRead 8 = .ok ([60], ping) := by decide +kernel
  have hkept := (freshness_kept_iff hread (List.mem_singleton_self 60) hs' htype).1 1000 webOk
    1000 0 (.lit "ok") hrun (by decide +kernel) (by decide +kernel)
  exact hkept.mpr (by decide)

end Minute

/-! ## A day -/

section Day

open Reference

def day : TypeDef :=
  { name := some (.lit ":day"), freshness := 20864, status := WARNING
    summary := some (.lit "No results received for more than 5 hours") }

/-- One state that is to be fresh for a day. -/
def daily : Server Int CString :=
  { defaults Int CString with
    db := { Db.empty Int CString with
      types := hashSet .empty (.lit ":day") day
      states := hashSet .empty (.lit "web") (.blank 0 (.lit "web") day) } }

def dailyFile : String := "type :day \x7b\n  freshness 86400\n\x7d\nstate :day web\n"

/-- An update is good for less than six hours. -/
theorem freshness_cut :
    Configured epoch (CString.ascii dailyFile) daily ∧
      (reactor (boot daily) (.listener 1000 webOk)).map
        (fun r => (r.1.db.states.get? (.lit "web")).map State.expiry) =
          .ok (some (1000 + 86400 - 65536)) :=
  ⟨configured (by decide +kernel), by decide +kernel⟩

end Day

end Bolo
