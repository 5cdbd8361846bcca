import Bolo.Config.Reference
import Bolo.Subscribers.Broadcasts

/-!
# Keys in Redis

`bolo2redis` sets in a Redis database what the aggregator broadcasts of its key store. The
aggregator sends the live keys when it saves, and says nothing about deleted ones.
-/
namespace Bolo.Redis

open Library Postgres

variable {R Re : Type}

/-- The loop over the frames of a SET.KEYS, from `SET k v` to `SET k v`. -/
def pairs : List CString → List (CString × CString)
  | k :: v :: rest => (k, v) :: pairs rest
  | _ => []

/-- The commands that `main` sends for a broadcast. -/
def commands (p : Pdu) : List (CString × CString) :=
  if p.type = Tag.setKeys.text && p.size % 2 = 1 then pairs p.frames else []

/-- The database after the commands of the broadcasts `ps`. -/
def mirror [HashOrder] (db : Table CString CString) (ps : List Pdu) : Table CString CString :=
  (ps.flatMap commands).foldl (fun db e => hashSet db e.1 e.2) db

theorem pairs_pairFrames (l : List (CString × CString)) : pairs (pairFrames l) = l := by
  induction l with
  | nil => rfl
  | cons e l ih => exact congrArg (e :: ·) ih

theorem commands_of_ne {p : Pdu} (h : p.type ≠ Tag.setKeys.text) : commands p = [] := by
  simp [commands, h]

/-- The commands for a broadcast of the key store are its live pairs. -/
theorem commands_broadcastSetkeys (keys : Table CString (Option CString)) :
    (broadcastSetkeys keys).flatMap commands = livePairs keys.entries := by
  obtain ⟨chunks, hchunks, hpairs⟩ := broadcastSetkeys_chunked keys
  have hchunk (c : List (CString × CString)) :
      commands { type := Tag.setKeys.text, frames := pairFrames c } = c := by
    have hodd : (2 * c.length + 1) % 2 = 1 := by omega
    simp [commands, Pdu.size, length_pairFrames, hodd, pairs_pairFrames]
  rw [hchunks, ← hpairs.flatten, List.flatMap_map]
  simp only [hchunk]
  exact List.flatMap_id'

/-- What a broadcast of the key store leaves under a key. -/
theorem get?_mirror_keys [HashOrder] (db : Table CString CString)
    (keys : Table CString (Option CString)) (key : CString) :
    (mirror db (broadcastSetkeys keys)).get? key = ((keys.get? key).join).or (db.get? key) := by
  have hnodup := livePairs_nodup keys
  rw [mirror, commands_broadcastSetkeys, get?_foldl_hashSet (fun v => v) hnodup]
  congr 1
  cases hlive : (keys.get? key).join with
  | none =>
    rw [Option.map_eq_none_iff, List.find?_eq_none]
    rintro ⟨k, v⟩ hmem heq
    obtain rfl : k = key := by simpa using heq
    rw [mem_livePairs.mp hmem] at hlive
    cases hlive
  | some v =>
    have hmem : (key, v) ∈ livePairs keys.entries :=
      mem_livePairs.mpr (Option.join_eq_some_iff.mp hlive)
    rw [Table.find?_of_mem hnodup hmem]
    rfl

theorem mirror_append [HashOrder] (db : Table CString CString) (ps qs : List Pdu) :
    mirror db (ps ++ qs) = mirror (mirror db ps) qs := by
  simp [mirror]

theorem mirror_news [HashOrder] [Double R] (db : Table CString CString) {ps : List Pdu}
    (h : ∀ p ∈ ps, News R p) : mirror db ps = db := by
  have hnil : ps.flatMap commands = [] :=
    List.flatMap_eq_nil_iff.mpr fun p hp => commands_of_ne (h p hp).2
  rw [mirror, hnil, List.foldl_nil]

section Runs

variable [Double R] [Pcre Re] [HashOrder]

/-- The key stores that a step saves. -/
def saved (k : Kernel R Re) (i : Input) (_ : List Effect) : List (Table CString (Option CString)) :=
  match i with
  | .tock clock => if k.savestate.due clock.now then [k.server.keys] else []
  | _ => []

/-- The key stores of a run as they were saved, in order. -/
def saves (k : Kernel R Re) (is : List Input) : List (Table CString (Option CString)) :=
  Machine.log reactor saved k is

/-- The values of a key at the saves at which it was live. -/
def values (key : CString) (stores : List (Table CString (Option CString))) : List CString :=
  stores.filterMap fun keys => (keys.get? key).join

omit [Double R] [Pcre Re] [HashOrder] in
theorem values_append (key : CString) (l m : List (Table CString (Option CString))) :
    values key (l ++ m) = values key l ++ values key m := List.filterMap_append

theorem mirror_step (db : Table CString CString) {k k' : Kernel R Re} {i : Input}
    {es : List Effect} (h : reactor k i = .ok (k', es)) (key : CString) :
    (mirror db (broadcasts es)).get? key =
      ((values key (saved k i es)).getLast?).or (db.get? key) := by
  obtain ⟨front, hes, hfront⟩ := reactor_news h
  rw [hes, mirror_append, mirror_news db hfront]
  cases i with
  | tock clock =>
    by_cases hdue : k.savestate.due clock.now = true
    · simp only [Input.savedKeys, savedKeys, saved, hdue, if_true, get?_mirror_keys, values]
      cases hlive : (k.server.keys.get? key).join <;> simp [hlive]
    · simp [Input.savedKeys, savedKeys, saved, hdue, mirror, values]
  | listener now p => simp [Input.savedKeys, saved, mirror, values]
  | management p => simp [Input.savedKeys, saved, mirror, values]

theorem mirror_run (db : Table CString CString) {k k' : Kernel R Re} {is : List Input}
    {es : List Effect} (hrun : Machine.run reactor k is = .ok (k', es)) (key : CString) :
    (mirror db (broadcasts es)).get? key =
      ((values key (saves k is)).getLast?).or (db.get? key) := by
  induction is generalizing k es db with
  | nil =>
    obtain ⟨rfl, rfl⟩ : k = k' ∧ ([] : List Effect) = es := by simpa using hrun
    rfl
  | cons i is ih =>
    obtain ⟨k₁, out, outs, hstep, hrest, rfl⟩ := Machine.run_cons.mp hrun
    have hsaves : saves k (i :: is) = saved k i out ++ saves k₁ is := Machine.log_cons hstep
    rw [broadcasts_append, mirror_append, ih _ hrest, mirror_step db hstep, hsaves, values_append,
      List.getLast?_append, Option.or_assoc]

/-- In every run, Redis answers for a key with the value that the key had when it was last saved
live, whatever happened to it afterwards. Right after a save it has every live key. -/
theorem redis_follows (db : Table CString CString) {k k' : Kernel R Re} {is : List Input}
    {es : List Effect} (hrun : Machine.run reactor k is = .ok (k', es)) :
    (∀ key, (mirror db (broadcasts es)).get? key =
      ((values key (saves k is)).getLast?).or (db.get? key)) ∧
    ∀ before clock k₁ es₁, is = before ++ [.tock clock] →
      Machine.run reactor k before = .ok (k₁, es₁) → k₁.savestate.due clock.now →
      ∀ key value, k'.server.keys.get? key = some (some value) →
        (mirror db (broadcasts es)).get? key = some value := by
  refine ⟨mirror_run db hrun, ?_⟩
  rintro before clock k₁ es₁ rfl hbefore hdue key value hlive
  obtain ⟨k₁', es₁', out, hbefore', hlast, rfl⟩ := Machine.run_append.mp hrun
  obtain ⟨rfl, rfl⟩ : k₁ = k₁' ∧ es₁ = es₁' := by simpa [hbefore] using hbefore'
  have htick := Machine.run_singleton.mp hlast
  obtain ⟨tk⟩ := tock_spec htick
  rw [tk.keys_eq] at hlive
  rw [broadcasts_append, mirror_append, mirror_step _ htick]
  simp [saved, hdue, values, hlive]

end Runs

section Hosts

open Reference

/-- Two keys are set and saved; then one is deleted and the other one changes. -/
def setSaveDelete : List Input :=
  [.listener 1 (pdu .setKeys ["web", "up", "db", "down"]), .tock ⟨20, 20, 0⟩,
   .management (pdu .delKeys ["web"]), .listener 21 (pdu .setKeys ["db", "up"])]

theorem redis_follows_hosts : ∃ (k : Kernel Int CString) (es : List Effect),
    Machine.run reactor (boot hosts) (setSaveDelete ++ [.tock ⟨40, 40, 0⟩]) = .ok (k, es) ∧
      (mirror .empty (broadcasts es)).get? (.lit "web") = some (.lit "up") ∧
      (mirror .empty (broadcasts es)).get? (.lit "db") = some (.lit "up") := by
  have hfinal : (Machine.run reactor (boot hosts) (setSaveDelete ++ [.tock ⟨40, 40, 0⟩])).map
      (fun r => r.1.server.keys.get? (.lit "db")) = .ok (some (some (.lit "up"))) := by
    decide +kernel
  have hbefore : (Machine.run reactor (boot hosts) setSaveDelete).map
      (fun r => r.1.savestate.due 40) = .ok true := by decide +kernel
  obtain ⟨⟨k, es⟩, hrun⟩ := exists_ok
    (x := Machine.run reactor (boot hosts) (setSaveDelete ++ [.tock ⟨40, 40, 0⟩]))
    (by decide +kernel)
  obtain ⟨⟨k₁, es₁⟩, hrun₁⟩ := exists_ok (x := Machine.run reactor (boot hosts) setSaveDelete)
    (by decide +kernel)
  rw [hrun] at hfinal
  rw [hrun₁] at hbefore
  obtain ⟨hlast, hlive⟩ := redis_follows .empty hrun
  refine ⟨k, es, hrun, (hlast _).trans (by decide +kernel), ?_⟩
  exact hlive setSaveDelete _ k₁ es₁ rfl hrun₁ (Except.ok.inj hbefore) _ _ (Except.ok.inj hfinal)

end Hosts

end Bolo.Redis
