import Bolo.Config.Reference
import Bolo.Kernel.Cells

/-!
# FORGET

FORGET has a loop for each of four tables, which takes entries out of the table that it goes
over or marks them. An iteration of the hash tables is taken to visit the entries that are
there at its start, each once, whatever is removed meanwhile. Then the loop drops or marks
exactly the entries whose name matches, and nothing else is touched.
-/
namespace Bolo

open Library

variable {R Re : Type}

/-! ## The loop -/

section Loop

variable [Pcre Re] {α : Type} (re : Re) (ignore : UInt8) (mark : α → α)

def hashUnset (t : Table CString α) (name : CString) : Table CString α := t.filter (· ≠ name)

/-- The body of the loop; `dp` points to the record in the table. -/
def forgetEntry (t : Table CString α) (name : CString) : Table CString α :=
  if Pcre.exec re name then
    if ignore ≠ 0 then t.mapValues fun n x => if n = name then mark x else x
    else hashUnset t name
  else t

def forgetLoop (t : Table CString α) : Table CString α :=
  (t.entries.map Prod.fst).foldl (forgetEntry re ignore mark) t

theorem entries_foldl_unset (names : List CString) (t : Table CString α) :
    (names.foldl (forgetEntry re 0 mark) t).entries =
      t.entries.filter fun e => !(decide (e.1 ∈ names) && Pcre.exec re e.1) := by
  induction names generalizing t with
  | nil => simp
  | cons name names ih =>
    rw [List.foldl_cons, ih]
    by_cases hexec : Pcre.exec re name = true
    · simp only [forgetEntry, hexec, if_true, ne_eq, not_true_eq_false, if_false, hashUnset,
        Table.filter, List.filter_filter]
      refine List.filter_congr fun e _ => ?_
      by_cases hname : e.1 = name <;> simp [hname, hexec]
    · simp only [forgetEntry, hexec, if_false, Bool.false_eq_true]
      refine List.filter_congr fun e _ => ?_
      by_cases hname : e.1 = name <;> simp [hname, hexec]

theorem entries_foldl_mark (hignore : ignore ≠ 0) {names : List CString} (hnames : names.Nodup)
    (t : Table CString α) :
    (names.foldl (forgetEntry re ignore mark) t).entries =
      t.entries.map fun e =>
        (e.1, if e.1 ∈ names ∧ Pcre.exec re e.1 then mark e.2 else e.2) := by
  induction names generalizing t with
  | nil => simp
  | cons name names ih =>
    obtain ⟨hnotMem, hnames⟩ := List.nodup_cons.mp hnames
    rw [List.foldl_cons, ih hnames]
    by_cases hexec : Pcre.exec re name = true
    · simp only [forgetEntry, hexec, if_true, hignore, ne_eq, not_false_eq_true, Table.mapValues,
        List.map_map, Function.comp_def]
      refine List.map_congr_left fun e _ => ?_
      by_cases hname : e.1 = name <;> simp [hname, hexec, hnotMem]
    · simp only [forgetEntry, hexec, if_false, Bool.false_eq_true]
      refine List.map_congr_left fun e _ => ?_
      by_cases hname : e.1 = name <;> simp [hname, hexec]

/-- What the loop leaves of a table. -/
theorem forgetLoop_eq (t : Table CString α) :
    forgetLoop re ignore mark t = forgetTable re ignore mark t := by
  refine Table.eq_of_entries ?_
  by_cases hignore : ignore = 0
  · subst hignore
    rw [forgetLoop, entries_foldl_unset]
    simp only [forgetTable, ne_eq, not_true_eq_false, if_false, Table.filter]
    refine List.filter_congr fun e he => ?_
    have hmem : e.1 ∈ t.entries.map Prod.fst := List.mem_map_of_mem he
    simp only [hmem, decide_true, Bool.true_and]
  · rw [forgetLoop, entries_foldl_mark re ignore mark hignore t.nodup]
    simp only [forgetTable, ne_eq, hignore, not_false_eq_true, if_true, Table.mapValues]
    refine List.map_congr_left fun e he => ?_
    have hmem : e.1 ∈ t.entries.map Prod.fst := List.mem_map_of_mem he
    simp only [hmem, true_and]

end Loop

/-! ## The request -/

/-- `bolo_forget_pdu` -/
def forgetPdu (payload : UInt16) (regex : CString) (ignore : UInt8) : Pdu where
  type := Tag.forget.text
  frames := [decimal payload.toNat, regex, decimal ignore.toNat]

/-- What becomes of a table that is `selected` by the mask. -/
structure Selects [Pcre Re] {α : Type} (re : Re) (ignore : UInt8) (mark : α → α)
    (selected : Prop) (t t' : Table CString α) : Prop where
  loop : selected → t' = forgetLoop re ignore mark t
  removed : selected → ignore = 0 →
    ∀ name, t'.get? name = if Pcre.exec re name then none else t.get? name
  marked : selected → ignore ≠ 0 →
    ∀ name, t'.get? name = if Pcre.exec re name then (t.get? name).map mark else t.get? name
  other : ¬selected → t' = t

theorem selects_forgetTable [Pcre Re] {α : Type} (re : Re) (ignore : UInt8) (mark : α → α)
    (selected : Prop) [Decidable selected] (t : Table CString α) :
    Selects re ignore mark selected t
      (if selected then forgetTable re ignore mark t else t) := by
  refine ⟨fun h => ?_, fun h hignore name => ?_, fun h hignore name => ?_, fun h => if_neg h⟩
  · rw [if_pos h, forgetLoop_eq]
  · rw [if_pos h, get?_forgetTable]
    simp [hignore]
  · rw [if_pos h, get?_forgetTable]
    simp [hignore]

/-- A database before and after the four loops. -/
structure Forgets [Pcre Re] (payload : UInt16) (re : Re) (ignore : UInt8) (db db' : Db R Re) :
    Prop where
  states : Selects re ignore (fun x => { x with ignore := 1 }) (payload &&& PAYLOAD_STATE ≠ 0)
    db.states db'.states
  counters : Selects re ignore (fun x => { x with ignore := 1 })
    (payload &&& PAYLOAD_COUNTER ≠ 0) db.counters db'.counters
  samples : Selects re ignore (fun x => { x with ignore := 1 }) (payload &&& PAYLOAD_SAMPLE ≠ 0)
    db.samples db'.samples
  rates : Selects re ignore (fun x => { x with ignore := 1 }) (payload &&& PAYLOAD_RATE ≠ 0)
    db.rates db'.rates
  rest : { db' with
    states := db.states, counters := db.counters, samples := db.samples, rates := db.rates } = db

theorem forgets_forget [Pcre Re] (payload : UInt16) (re : Re) (ignore : UInt8) (db : Db R Re) :
    Forgets payload re ignore db (forget payload re ignore db) :=
  ⟨selects_forgetTable .., selects_forgetTable .., selects_forgetTable ..,
    selects_forgetTable .., rfl⟩

theorem strtoul_payload (payload : UInt16) :
    (strtoul (decimal payload.toNat)).toUInt16 = payload := by
  have hlt := payload.toNat_lt
  apply UInt16.toNat_inj.mp
  rw [UInt64.toNat_toUInt16, strtoul_decimal (by omega)]
  exact Nat.mod_eq_of_lt hlt

theorem strtoul_flag (ignore : UInt8) : (strtoul (decimal ignore.toNat)).toUInt8 = ignore := by
  have hlt := ignore.toNat_lt
  apply UInt8.toNat_inj.mp
  rw [UInt64.toNat_toUInt8, strtoul_decimal (by omega)]
  exact Nat.mod_eq_of_lt hlt

section Request

variable [Double R] [Pcre Re] [HashOrder]

/-- A FORGET drops or marks the datapoints that its mask and its pattern select, and those
only. One whose pattern does not compile is refused. -/
theorem forget_selects (k : Kernel R Re) (payload : UInt16) (pattern : CString)
    (ignore : UInt8) :
    (∀ e, (Pcre.compile pattern : Except CString Re) = .error e →
      reactor k (.management (forgetPdu payload pattern ignore)) =
        .ok (k, [reply .error [e]])) ∧
    ∀ re, (Pcre.compile pattern : Except CString Re) = .ok re → ∃ db,
      reactor k (.management (forgetPdu payload pattern ignore)) =
        .ok (k.setDb db, [reply .ok []]) ∧ Forgets payload re ignore k.db db := by
  have hmanage : manage k.server (forgetPdu payload pattern ignore) =
      let r := receiveForget k.db (decimal payload.toNat) pattern (decimal ignore.toNat)
      .ok ({ k.server with db := r.1 }, [r.2]) := by
    simp only [manage, forgetPdu, Pdu.is, Pdu.size, Pdu.string]
    rfl
  refine ⟨fun e he => ?_, fun re hre => ?_⟩
  · rw [reactor, hmanage, receiveForget, he]
    rfl
  · refine ⟨forget payload re ignore k.db, ?_, forgets_forget payload re ignore k.db⟩
    rw [reactor, hmanage, receiveForget, hre, strtoul_payload, strtoul_flag]
    rfl

end Request

section Hosts

open Reference

/-- The state `web` is forgotten. -/
theorem forget_selects_hosts : ∃ db,
    reactor (boot hosts) (.management (forgetPdu PAYLOAD_STATE (.lit "web") 0)) =
        .ok ((boot hosts).setDb db, [reply .ok []]) ∧
      db.states.get? (.lit "web") = none := by
  obtain ⟨db, hreactor, hforgets⟩ :=
    (forget_selects (boot hosts) PAYLOAD_STATE (.lit "web") 0).2 (.lit "web") rfl
  refine ⟨db, hreactor, ?_⟩
  rw [hforgets.states.removed (by decide) rfl, if_pos (by decide)]

end Hosts

end Bolo
