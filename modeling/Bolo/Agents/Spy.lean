import Bolo.Config.Reference
import Bolo.Kernel.EventBuffer
import Bolo.Kernel.Statuses
import Bolo.Savefile.Invariant
import Bolo.Savefile.Restart
import Mathlib.Data.List.Sort

/-!
# The reader of save files

`cmd_spy.c`: `bolo spy` configures a server as the aggregator does, merges a save file into
its database, and prints every record, sorted by name and kind. The status of a state is
looked up in a table of four texts.
-/
namespace Bolo

open Library

variable {R Re : Type}

/-! ## Printing -/

/-- `OPTIONS.format`. -/
inductive Format where
  | plain | yaml
  deriving DecidableEq, Repr

/-- `boxed_t`. -/
inductive Boxed (R : Type) where
  | state (s : State)
  | sample (s : Sample R)
  | counter (c : Counter)
  | rate (r : Rate)

def STATUS : List CString := [.lit "OK", .lit "WARNING", .lit "CRITICAL", .lit "UNKNOWN"]

/-- The texts that a call of `printf` puts together. -/
def printf (texts : List CString) : CString := texts.foldr (· ++ ·) (.lit "")

def printState (format : Format) (s : State) : Except Fault CString := do
  let name ← deref s.name
  let status ← inBounds STATUS[s.status.toNat]?
  let code := decimal s.status.toNat
  let freshness := decimal (← deref s.type).freshness.toNat
  let lastSeen := decimalInt s.lastSeen.toInt
  let expiry := decimalInt s.expiry.toInt
  let summary ← deref s.summary
  match format with
  | .yaml => return printf [name, .lit ":\n",
      .lit "  type:      state\n",
      .lit "  status:    ", status, .lit "\n",
      .lit "  code:      ", code, .lit "\n",
      .lit "  stale:     ", .lit (if s.stale ≠ 0 then "yes" else "no"), .lit "\n",
      .lit "  freshness: ", freshness, .lit "\n",
      .lit "  last_seen: ", lastSeen, .lit "\n",
      .lit "  expiry:    ", expiry, .lit "\n",
      .lit "  summary: |-\n    ", summary, .lit "\n\n"]
  | .plain => return printf [.lit "state :: ", name, .lit "\n",
      .lit "  [", code, .lit "] ", .lit (if s.stale ≠ 0 then "(stale) " else ""), status,
      .lit " - ", summary, .lit "\n",
      .lit "  last seen ", lastSeen, .lit " / expires ", expiry, .lit "\n",
      .lit "  freshness ", freshness, .lit "\n\n"]

def printSample [Double R] (format : Format) (s : Sample R) : Except Fault CString := do
  let name ← deref s.name
  let n := decimal s.n.toNat
  let window := decimalInt (← deref s.window).time.toInt
  let lastSeen := decimalInt s.lastSeen.toInt
  match format with
  -- the source prints the minimum in the place of the maximum here
  | .yaml => return printf [name, .lit ":\n",
      .lit "  type:      sample\n",
      .lit "  n:         ", n, .lit "\n",
      .lit "  min:       ", Double.fmtE s.min, .lit "\n",
      .lit "  max:       ", Double.fmtE s.min, .lit "\n",
      .lit "  mean:      ", Double.fmtE s.mean, .lit "\n",
      .lit "  sum:       ", Double.fmtE s.sum, .lit "\n",
      .lit "  var:       ", Double.fmtE s.var, .lit "\n",
      .lit "  window:    ", window, .lit "\n",
      .lit "  last_seen: ", lastSeen, .lit "\n\n"]
  | .plain => return printf [.lit "sample :: ", name, .lit "\n",
      .lit "  n=", n, .lit " min=", Double.fmtE s.min, .lit " max=", Double.fmtE s.max,
      .lit " sum=", Double.fmtE s.sum, .lit " mean=", Double.fmtE s.mean,
      .lit " var=", Double.fmtE s.var, .lit "\n",
      .lit "  window ", window, .lit "\n",
      .lit "  last seen ", lastSeen, .lit "\n\n"]

def printCounter (format : Format) (c : Counter) : Except Fault CString := do
  let name ← deref c.name
  let value := decimal c.value.toNat
  let window := decimalInt (← deref c.window).time.toInt
  let lastSeen := decimalInt c.lastSeen.toInt
  match format with
  | .yaml => return printf [name, .lit ":\n",
      .lit "  type:      counter\n",
      .lit "  value:     ", value, .lit "\n",
      .lit "  window:    ", window, .lit "\n",
      .lit "  last_seen: ", lastSeen, .lit "\n\n"]
  | .plain => return printf [.lit "counter :: ", name, .lit " = ", value, .lit "\n",
      .lit "  window ", window, .lit "\n",
      .lit "  last seen ", lastSeen, .lit "\n\n"]

def printRate (format : Format) (r : Rate) : Except Fault CString := do
  let name ← deref r.name
  let first := decimal r.first.toNat
  let last := decimal r.last.toNat
  let window := decimalInt (← deref r.window).time.toInt
  let firstSeen := decimalInt r.firstSeen.toInt
  let lastSeen := decimalInt r.lastSeen.toInt
  match format with
  | .yaml => return printf [name, .lit ":\n",
      .lit "  type:        rate\n",
      .lit "  first_value: ", first, .lit "\n",
      .lit "  last_value:  ", last, .lit "\n",
      .lit "  window:      ", window, .lit "\n",
      .lit "  first_seen:  ", firstSeen, .lit "\n",
      .lit "  last_seen:   ", lastSeen, .lit "\n\n"]
  | .plain => return printf [.lit "rate :: ", name, .lit " ( ", first, .lit " : ", last,
      .lit " )\n",
      .lit "  window ", window, .lit "\n",
      .lit "  first seen ", firstSeen, .lit " / last seen ", lastSeen, .lit "\n\n"]

namespace Boxed

def print [Double R] (format : Format) : Boxed R → Except Fault CString
  | .state s => printState format s
  | .sample s => printSample format s
  | .counter c => printCounter format c
  | .rate r => printRate format r

def name : Boxed R → Option CString
  | .state s => s.name
  | .sample s => s.name
  | .counter c => c.name
  | .rate r => r.name

/-- What the key of a record says about its kind. -/
def kind : Boxed R → CString
  | .state _ => .lit " (state)"
  | .sample _ => .lit " (sample)"
  | .counter _ => .lit " (counter)"
  | .rate _ => .lit " (rate)"

def status? : Boxed R → Option UInt8
  | .state s => some s.status
  | _ => none

def key (b : Boxed R) : Except Fault CString := do return (← deref b.name) ++ b.kind

end Boxed

/-- The records in the order in which they are boxed. -/
def Db.boxes (db : Db R Re) : List (Boxed R) :=
  db.states.entries.map (.state ·.2) ++ db.counters.entries.map (.counter ·.2) ++
    db.rates.entries.map (.rate ·.2) ++ db.samples.entries.map (.sample ·.2)

/-- A state can be printed if and only if its status is in the table. -/
theorem printState_ok_iff {name : CString} {s : State} (h : s.Wf name) (format : Format) :
    (∃ text, printState format s = .ok text) ↔ s.status.toNat < STATUS.length := by
  obtain ⟨type, htype, -⟩ := h.type
  obtain ⟨summary, hsummary⟩ := h.summary
  simp only [printState, h.name, htype, hsummary, deref_some, bind, Except.bind]
  by_cases hlt : s.status.toNat < STATUS.length
  · rw [List.getElem?_eq_getElem hlt]
    simp only [inBounds_some, hlt, iff_true]
    cases format <;> exact ⟨_, rfl⟩
  · rw [List.getElem?_eq_none (by omega)]
    simp [inBounds, hlt]

/-- The records of a well-formed database can be printed if and only if every state can. -/
theorem Db.Wf.print_ok_iff [Double R] {db : Db R Re} (h : db.Wf) (format : Format) :
    (∀ b ∈ db.boxes, ∃ text, b.print format = .ok text) ↔
      ∀ s, Boxed.state s ∈ db.boxes → s.status.toNat < STATUS.length := by
  have hstate {s : State} (hs : Boxed.state s ∈ db.boxes) : ∃ name, s.Wf name := by
    obtain ⟨e, he, hes⟩ : ∃ e ∈ db.states.entries, e.2 = s := by simpa [Db.boxes] using hs
    exact ⟨e.1, hes ▸ mem_entries_of_all h.states e he⟩
  constructor
  · intro hall s hs
    obtain ⟨name, hwf⟩ := hstate hs
    exact (printState_ok_iff hwf format).mp (hall _ hs)
  · intro hall b hb
    cases b with
    | state s =>
      obtain ⟨name, hwf⟩ := hstate hb
      exact (printState_ok_iff hwf format).mpr (hall s hb)
    | counter c =>
      obtain ⟨e, he, rfl⟩ : ∃ e ∈ db.counters.entries, e.2 = c := by simpa [Db.boxes] using hb
      obtain ⟨⟨w, hw⟩, hname⟩ := mem_entries_of_all h.counters e he
      change e.2.window = some w at hw
      change e.2.name = some e.1 at hname
      simp only [Boxed.print, printCounter, hw, hname]
      cases format <;> exact ⟨_, rfl⟩
    | rate r =>
      obtain ⟨e, he, rfl⟩ : ∃ e ∈ db.rates.entries, e.2 = r := by simpa [Db.boxes] using hb
      obtain ⟨⟨w, hw⟩, hname⟩ := mem_entries_of_all h.rates e he
      change e.2.window = some w at hw
      change e.2.name = some e.1 at hname
      simp only [Boxed.print, printRate, hw, hname]
      cases format <;> exact ⟨_, rfl⟩
    | sample s =>
      obtain ⟨e, he, rfl⟩ : ∃ e ∈ db.samples.entries, e.2 = s := by simpa [Db.boxes] using hb
      obtain ⟨⟨w, hw⟩, hname⟩ := mem_entries_of_all h.samples e he
      change e.2.window = some w at hw
      change e.2.name = some e.1 at hname
      simp only [Boxed.print, printSample, hw, hname]
      cases format <;> exact ⟨_, rfl⟩

/-! ## The order of the records -/

def Boxed.kinds : List CString :=
  [.lit " (state)", .lit " (sample)", .lit " (counter)", .lit " (rate)"]

theorem Boxed.kind_mem (b : Boxed R) : b.kind ∈ kinds := by
  cases b <;> simp [Boxed.kind, kinds]

/-- Names of different kinds do not share a key. -/
theorem append_kind_inj {a b : CString} {x y : Boxed R} (h : a ++ x.kind = b ++ y.kind) :
    a = b ∧ x.kind = y.kind := by
  have hbytes : a.bytes ++ x.kind.bytes = b.bytes ++ y.kind.bytes := congrArg CString.bytes h
  -- the last five bytes of a key tell the kinds apart
  have hlast : ∀ u ∈ Boxed.kinds, 5 ≤ u.bytes.reverse.length ∧
      ∀ v ∈ Boxed.kinds, u.bytes.reverse.take 5 = v.bytes.reverse.take 5 → u = v := by
    decide +kernel
  have hkind : x.kind = y.kind := by
    refine (hlast _ x.kind_mem).2 _ y.kind_mem ?_
    have htake := congrArg (fun l : List UInt8 => l.reverse.take 5) hbytes
    simp only [List.reverse_append] at htake
    rwa [List.take_append_of_le_length (hlast _ x.kind_mem).1,
      List.take_append_of_le_length (hlast _ y.kind_mem).1] at htake
  rw [hkind] at hbytes
  exact ⟨CString.ext (List.append_cancel_right hbytes), hkind⟩

/-- The records of a database with the names under which they are stored. -/
def Db.named (db : Db R Re) : List (CString × Boxed R) :=
  db.states.entries.map (fun e => (e.1, .state e.2)) ++
    db.counters.entries.map (fun e => (e.1, .counter e.2)) ++
    db.rates.entries.map (fun e => (e.1, .rate e.2)) ++
    db.samples.entries.map (fun e => (e.1, .sample e.2))

theorem Db.map_named (db : Db R Re) : db.named.map Prod.snd = db.boxes := by
  simp [Db.named, Db.boxes, Function.comp_def]

theorem Db.Wf.name_named [Double R] {db : Db R Re} (h : db.Wf) :
    ∀ e ∈ db.named, e.2.name = some e.1 := by
  intro e he
  simp only [Db.named, List.mem_append, List.mem_map] at he
  rcases he with ((⟨e, he, rfl⟩ | ⟨e, he, rfl⟩) | ⟨e, he, rfl⟩) | ⟨e, he, rfl⟩
  · exact (mem_entries_of_all h.states e he).name
  · exact (mem_entries_of_all h.counters e he).name
  · exact (mem_entries_of_all h.rates e he).name
  · exact (mem_entries_of_all h.samples e he).name

theorem Db.nodup_keys (db : Db R Re) : (db.named.map fun e => e.1 ++ e.2.kind).Nodup := by
  have hpart {V : Type} (t : Table CString V) (kind : CString) :
      (t.entries.map fun e => (e.1, kind)).Nodup := by
    have hnodup := t.nodup.map (f := fun n => (n, kind)) fun a b hab => congrArg Prod.fst hab
    simpa [Function.comp_def] using hnodup
  have hdisjoint {V W : Type} (t : Table CString V) (u : Table CString W) {kind kind' : CString}
      (hne : kind ≠ kind') :
      (t.entries.map fun e => (e.1, kind)).Disjoint (u.entries.map fun e => (e.1, kind')) := by
    intro x hx hx'
    obtain ⟨e, -, rfl⟩ := List.mem_map.mp hx
    obtain ⟨e', -, heq⟩ := List.mem_map.mp hx'
    exact hne (congrArg Prod.snd heq).symm
  have hpairs : (db.named.map fun e => (e.1, e.2.kind)).Nodup := by
    simp only [Db.named, List.map_append, List.map_map, Function.comp_def, Boxed.kind,
      List.nodup_append', List.disjoint_append_left, hpart, true_and]
    refine ⟨⟨hdisjoint _ _ ?_, hdisjoint _ _ ?_, hdisjoint _ _ ?_⟩, ⟨hdisjoint _ _ ?_,
      hdisjoint _ _ ?_⟩, hdisjoint _ _ ?_⟩ <;> decide
  refine List.pairwise_map.mpr ((List.pairwise_map.mp hpairs).imp fun hne heq => hne ?_)
  obtain ⟨hname, hkind⟩ := append_kind_inj heq
  exact Prod.ext hname hkind

section Command

variable [HashOrder]

/-- The records in the order in which they are printed: each is looked up by its key, and the
keys are sorted. -/
def Db.sorted (db : Db R Re) : Except Fault (List (Boxed R)) := do
  let keys ← db.boxes.mapM Boxed.key
  let index := (keys.zip db.boxes).foldl (fun t e => hashSet t e.1 e.2) .empty
  (keys.insertionSort fun a b => strcmp a b ≤ 0).mapM fun key => deref (index.get? key)

/-- Every record is printed once. -/
theorem Db.Wf.sorted [Double R] {db : Db R Re} (h : db.Wf) :
    ∃ boxes, db.sorted = .ok boxes ∧ boxes.Perm db.boxes := by
  have hkeys : db.boxes.mapM Boxed.key = .ok (db.named.map fun e => e.1 ++ e.2.kind) := by
    rw [← db.map_named]
    refine mapM_eq_ok_iff.mpr ?_
    rw [List.forall₂_map_left_iff, List.forall₂_map_right_iff, List.forall₂_same]
    intro e he
    simp [Boxed.key, h.name_named e he, bind, Except.bind, pure, Except.pure]
  have hzip : (db.named.map fun e => e.1 ++ e.2.kind).zip db.boxes =
      db.named.map fun e => (e.1 ++ e.2.kind, e.2) := by
    rw [← db.map_named, List.zip_map']
  have hfound : List.Forall₂ (fun key b =>
      deref (((db.named.map fun e => (e.1 ++ e.2.kind, e.2)).foldl
        (fun t e => hashSet t e.1 e.2) .empty).get? key) = .ok b)
      (db.named.map fun e => e.1 ++ e.2.kind) db.boxes := by
    rw [← db.map_named, List.forall₂_map_left_iff, List.forall₂_map_right_iff, List.forall₂_same]
    intro e he
    have hmem : (e.1 ++ e.2.kind, e.2) ∈ db.named.map fun e => (e.1 ++ e.2.kind, e.2) :=
      List.mem_map.mpr ⟨e, he, rfl⟩
    have hnodup : ((db.named.map fun e => (e.1 ++ e.2.kind, e.2)).map Prod.fst).Nodup := by
      simpa [Function.comp_def] using db.nodup_keys
    have hget := get?_foldl_hashSet id hnodup .empty (e.1 ++ e.2.kind)
    rw [Table.find?_of_mem hnodup hmem] at hget
    exact congrArg deref hget
  obtain ⟨boxes, hsorted, hperm⟩ := List.perm_comp_forall₂
    (List.perm_insertionSort (fun a b => strcmp a b ≤ 0) _) hfound
  refine ⟨boxes, ?_, hperm⟩
  simp only [Db.sorted, hkeys, bind, Except.bind, hzip]
  exact mapM_eq_ok_iff.mpr hsorted

/-! ## The command -/

/-- The zeroed server with the settings of `cmd_spy`. -/
def spyDefaults (R Re : Type) : Server R Re :=
  { defaults R Re with
    config := { (defaults R Re).config with keysfile := none, gracePeriod := 0 }
    interval := { tick := 0, freshness := 0, sweep := 0, savestate := 0 } }

variable (R Re) [Double R] [Pcre Re]

/-- `cmd_spy` up to the loop that prints: the exit code, and the records that it goes
through. `clock` answers `time_s()` in `configure`, `restart` in `binf_read`. -/
def spy (clock restart : Nat → Int32) (fuel : Nat) (file saved : List UInt8) :
    Except Stop (Int32 × List (Boxed R)) :=
  match configure clock fuel (spyDefaults R Re) file with
  | .error .bail => .ok (2, [])
  | .error e => .error e
  | .ok s =>
    if mapSize s.config.saveSize ≤ 0 then .ok (2, [])
    else do
      let (rc, db) ← orFault (binfRead restart ⟨saved, (mapSize s.config.saveSize).toNat⟩ s.db)
      if rc ≠ 0 then return (2, []) else return (0, ← orFault db.sorted)

/-- `cmd_spy` on the bytes of a configuration and of a save file: exit code and output. -/
def cmdSpy (format : Format) (clock restart : Nat → Int32) (fuel : Nat)
    (file saved : List UInt8) : Except Stop (Int32 × CString) := do
  let (rc, boxes) ← spy R Re clock restart fuel file saved
  return (rc, printf (← orFault (boxes.mapM (Boxed.print format))))

variable {R Re} {clock : Nat → Int32} {file : List UInt8} {s : Server R Re} {k : Kernel R Re}
  {is : List Input} {es : List Effect} {now : Int32} {m : Mapping}

/-- `name` is shown with a status of the table, if it is shown at all: the last that happened
to its status is a submission of such a code, or that it expired. A declared state that
nothing has happened to, or that was forgotten, is shown as pending. -/
def Presentable (s : Server R Re) (is : List Input) (name : CString) : Prop :=
  match (statusChanges name (boot s) is).getLast? with
  | some (.submitted code) => code.toNat < STATUS.length
  | some .expired => True
  | _ => s.db.states.get? name = none

/-- The status that `cmd_spy` finds is the saved one, or PENDING for a state that was not
saved. -/
structure Spied (s : Server R Re) (k : Kernel R Re) (db : Db R Re) : Prop where
  wf : db.Wf
  status : ∀ name, (db.states.get? name).map State.status =
    ((k.db.states.get? name).map State.status).or ((s.db.states.get? name).map fun _ => PENDING)

omit [HashOrder] [Pcre Re] in
theorem Loaded.map_status {clock : Nat → Int32} {db : Db R Re} (h : Loaded clock db)
    (name : CString) :
    (db.states.get? name).map State.status = (db.states.get? name).map fun _ => PENDING := by
  cases hg : db.states.get? name with
  | none => rfl
  | some r =>
    obtain ⟨-, n, type, -, rfl⟩ := h.states name r hg
    rfl

/-- What the kernel has written, in a file of the size that the configuration sets. -/
theorem binfWrite_run (hs : Configured clock file s)
    (hrun : Machine.run reactor (boot s) is = .ok (k, es))
    (hstore : Machine.Along reactor (fun k i => i.Storable k) (boot s) is)
    (hwrite : binfWrite now k.server.config.saveSize k.db = .ok (some m)) :
    Stored s.db k.db ∧ k.db.Savable ∧ FileOf now k.db m ∧ 0 < mapSize s.config.saveSize ∧
      m.size = (mapSize s.config.saveSize).toNat := by
  have hstored : Stored s.db k.db := (Stored.of_loaded hs.loaded).run hstore hrun
  have hsavable := hstored.savable ((run_meets (k := boot s) hs.loaded.wf is).result hrun)
  have hps : ∀ p ∈ k.db.payloads, p.Full ∧ p.size < 2 ^ 16 :=
    fun p hp => ⟨hsavable.full p hp, hsavable.short p hp⟩
  have hconfig : k.server.config = s.config :=
    Machine.run_invariant (P := fun k : Kernel R Re => k.server.config = s.config)
      (Q := fun _ => True) (fun k i k' es hk _ h => (reactor_buffer h).1.trans hk) rfl
      (fun _ _ => trivial) hrun
  rw [hconfig] at hwrite
  obtain ⟨hfit, hsize⟩ := binfWrite_fits hps hwrite
  obtain ⟨m', hwrite', hfile⟩ := binfWrite_spec now hps hfit
  obtain rfl : m = m' := by simpa [hwrite] using hwrite'
  exact ⟨hstored, hsavable, hfile, by omega, hsize⟩

/-- `cmd_spy` reads every file that the kernel writes. -/
theorem spy_reads (hs : Configured clock file s)
    (hrun : Machine.run reactor (boot s) is = .ok (k, es))
    (hstore : Machine.Along reactor (fun k i => i.Storable k) (boot s) is)
    (hwrite : binfWrite now k.server.config.saveSize k.db = .ok (some m))
    (clock' restart : Nat → Int32) :
    ∃ fuel db boxes, spy R Re clock' restart fuel file m.bytes = .ok (0, boxes) ∧
      boxes.Perm db.boxes ∧ Spied s k db := by
  have ⟨fuel, hconf⟩ := hs
  have hagree : Agree Server.Peers (configure clock fuel (defaults R Re) file)
      (configure clock' fuel (spyDefaults R Re) file) :=
    configure_peers clock clock' fuel file rfl rfl
  obtain ⟨s', hconf', hpeers⟩ := hagree.of_ok hconf
  have hloaded := configure_loaded rfl hconf'
  obtain ⟨hstored, hsavable, hfile, hpos, hsize⟩ := binfWrite_run hs hrun hstore hwrite
  obtain ⟨db, hall, hrestored, hother⟩ := restoreAll_payloads restart hsavable hloaded.wf
    hloaded.events (hstored.recognises_peers hpeers) 1
  -- the reader maps as much as the writer did
  rw [← hpeers.saveSize] at hpos hsize
  have hread : binfRead restart ⟨m.bytes, (mapSize s'.config.saveSize).toNat⟩ s'.db =
      .ok (0, db) := by
    rw [← hsize, hfile.binfRead, hall]
    rfl
  have hwf : db.Wf :=
    ((binfRead_meets (by decide) restart _ hloaded.wf.safe_null).result hread).wf
  obtain ⟨boxes, hsorted, hperm⟩ := hwf.sorted
  refine ⟨fuel, db, boxes, ?_, hperm, hwf, fun name => ?_⟩
  · simp only [spy, hconf', hread, hsorted, orFault, bind, Except.bind]
    rw [if_neg (by omega)]
    rfl
  · cases hr : k.db.states.get? name with
    | some r =>
      obtain ⟨x, hx, -, hstatus, -⟩ := hrestored.states name r hr
      simp [hx, hstatus]
    | none =>
      have hnames := hpeers.names name
      rw [hother name hr, hloaded.map_status]
      cases hg : s'.db.states.get? name with
      | none => simp [hnames.mp hg]
      | some x =>
        obtain ⟨r, hr⟩ := Option.ne_none_iff_exists'.mp (mt hnames.mpr (by simp [hg]))
        simp [hr]

/-- What makes a state presentable, in terms of the database that is saved. -/
theorem presentable_iff (hs : Configured clock file s)
    (hrun : Machine.run reactor (boot s) is = .ok (k, es)) (name : CString) :
    Presentable s is name ↔ ∀ v ∈ ((k.db.states.get? name).map State.status).or
      ((s.db.states.get? name).map fun _ => PENDING), v.toNat < STATUS.length := by
  have hleaves := run_leaves (k := boot s) name hs.loaded.wf hrun
  have hpending : s.db.states.get? name = none ↔
      ∀ v ∈ (s.db.states.get? name).map (fun _ => PENDING), v.toNat < STATUS.length := by
    cases s.db.states.get? name with
    | none => simp
    | some r => simp [PENDING, STATUS]
  unfold Presentable
  generalize (statusChanges name (boot s) is).getLast? = last at hleaves ⊢
  cases last with
  | none =>
    have hsame : (k.db.states.get? name).map State.status =
        (s.db.states.get? name).map fun _ => PENDING :=
      Eq.trans hleaves (hs.loaded.map_status name)
    rw [hsame, Option.or_self]
    exact hpending
  | some change =>
    cases change with
    | submitted code =>
      have hcode : (k.db.states.get? name).map State.status = some code := hleaves
      simp [hcode]
    | expired =>
      rcases hleaves with hv | hv | hv <;> simp [hv, WARNING, CRITICAL, UNKNOWN, STATUS]
    | forgotten =>
      have hgone : (k.db.states.get? name).map State.status = none := hleaves
      rw [hgone, Option.none_or]
      exact hpending

/-- `cmd_spy` on a file that the kernel wrote reads the table of statuses within its bounds if
and only if every state is presentable. -/
theorem spy_in_table_iff (hs : Configured clock file s)
    (hrun : Machine.run reactor (boot s) is = .ok (k, es))
    (hstore : Machine.Along reactor (fun k i => i.Storable k) (boot s) is)
    (hwrite : binfWrite now k.server.config.saveSize k.db = .ok (some m))
    (clock' restart : Nat → Int32) (format : Format) :
    ∃ fuel boxes, spy R Re clock' restart fuel file m.bytes = .ok (0, boxes) ∧
      ((∀ r, Boxed.state r ∈ boxes → r.status.toNat < STATUS.length) ↔
        ∀ name, Presentable s is name) ∧
      ((∃ out, cmdSpy R Re format clock' restart fuel file m.bytes = .ok (0, out)) ↔
        ∀ name, Presentable s is name) := by
  obtain ⟨fuel, db, boxes, hspy, hperm, hspied⟩ :=
    spy_reads hs hrun hstore hwrite clock' restart
  have hstates : (∀ r, Boxed.state r ∈ boxes → r.status.toNat < STATUS.length) ↔
      ∀ name, Presentable s is name := by
    simp only [presentable_iff hs hrun, ← hspied.status, Option.mem_def, Option.map_eq_some_iff,
      hperm.mem_iff]
    constructor
    · rintro h name _ ⟨r, hr, rfl⟩
      refine h r ?_
      simp only [Db.boxes, List.mem_append, List.mem_map]
      exact .inl (.inl (.inl ⟨(name, r), Table.mem_of_get? hr, rfl⟩))
    · intro h r hr
      obtain ⟨name, hname⟩ : ∃ name, (name, r) ∈ db.states.entries := by simpa [Db.boxes] using hr
      exact h name _ ⟨r, Table.get?_of_mem hname, rfl⟩
  refine ⟨fuel, boxes, hspy, hstates, ?_⟩
  rw [← hstates]
  simp only [hperm.mem_iff, ← hspied.wf.print_ok_iff format]
  simp only [← hperm.mem_iff, ← exists_mapM_ok_iff]
  simp only [cmdSpy, hspy, bind_eq_ok, pure_eq_ok, orFault_eq_ok, Except.ok.injEq]
  constructor
  · rintro ⟨out, _, rfl, texts, htexts, -⟩
    exact ⟨texts, htexts⟩
  · rintro ⟨texts, htexts⟩
    exact ⟨_, _, rfl, texts, htexts, rfl⟩

end Command

section Hosts

open Reference

/-- An update of the declared state and one of a state that a rule makes. -/
def reports : List Input :=
  [.listener 10 (pdu .state ["10", "web", "0", "up"]),
   .listener 30 (pdu .state ["30", "db1", "2", "down"])]

theorem spy_in_table_reports : ∃ (k : Kernel Int CString) (es : List Effect) (m : Mapping)
    (fuel : Nat) (boxes : List (Boxed Int)),
    Machine.run reactor (boot hosts) reports = .ok (k, es) ∧
      binfWrite 40 k.server.config.saveSize k.db = .ok (some m) ∧
      spy Int CString epoch epoch fuel (CString.ascii hostsFile) m.bytes = .ok (0, boxes) ∧
      ∀ r, Boxed.state r ∈ boxes → r.status.toNat < STATUS.length := by
  obtain ⟨⟨k, es⟩, hrun⟩ := exists_ok (x := Machine.run reactor (boot hosts) reports)
    (by decide +kernel)
  have hsaved : ((Machine.run reactor (boot hosts) reports).bind fun r =>
      (binfWrite 40 r.1.server.config.saveSize r.1.db).bind deref).isOk := by
    decide +kernel
  have hcheck : (Machine.run reactor (boot hosts) reports).map (fun r =>
      decide ((∀ e ∈ r.1.db.states.entries, e.2.status.toNat < STATUS.length) ∧
        ∀ e ∈ hosts.db.states.entries, r.1.db.states.get? e.1 ≠ none)) = .ok true := by
    decide +kernel
  rw [hrun] at hsaved hcheck
  obtain ⟨m, hm⟩ := exists_ok (x := (binfWrite 40 k.server.config.saveSize k.db).bind deref) hsaved
  obtain ⟨saved, hwrite, hfile⟩ := bind_eq_ok.mp hm
  obtain rfl : saved = some m := deref_eq_ok.mp hfile
  obtain ⟨hstatus, hheld⟩ := of_decide_eq_true (Except.ok.inj hcheck)
  obtain ⟨fuel, boxes, hspy, hiff, -⟩ := spy_in_table_iff hosts_configured hrun
    (.of_check (by decide +kernel)) hwrite epoch epoch .plain
  refine ⟨k, es, m, fuel, boxes, hrun, hwrite, hspy, hiff.mpr fun name => ?_⟩
  rw [presentable_iff hosts_configured hrun]
  cases hr : k.db.states.get? name with
  | some r => simpa using hstatus (name, r) (Table.mem_of_get? hr)
  | none =>
    cases hd : hosts.db.states.get? name with
    | none => simp
    | some r => exact absurd hr (hheld (name, r) (Table.mem_of_get? hd))

/-- A declared state that no submission was about is saved as pending, and a code of 7 as it
is: `cmd_spy` looks both up in the table. -/
theorem pending_out_of_table :
    Configured epoch (CString.ascii hostsFile) hosts ∧
    ∃ (k : Kernel Int CString) (es : List Effect) (m : Mapping) (boxes : List (Boxed Int)),
      Machine.run reactor (boot hosts) [.listener 10 (pdu .state ["10", "db1", "7", "odd"])] =
        .ok (k, es) ∧
      binfWrite 40 k.server.config.saveSize k.db = .ok (some m) ∧
      spy Int CString epoch epoch 64 (CString.ascii hostsFile) m.bytes = .ok (0, boxes) ∧
      boxes.filterMap Boxed.status? = [7, PENDING] ∧
      cmdSpy Int CString .plain epoch epoch 64 (CString.ascii hostsFile) m.bytes =
        .error (.fault .outOfBounds) := by
  have hall : (do
      let r ← orFault (Machine.run reactor (boot hosts)
        [.listener 10 (pdu .state ["10", "db1", "7", "odd"])])
      let saved ← orFault (binfWrite 40 r.1.server.config.saveSize r.1.db)
      let m ← orFault (deref saved)
      let spied ← spy Int CString epoch epoch 64 (CString.ascii hostsFile) m.bytes
      return (spied.1, spied.2.filterMap Boxed.status?,
        cmdSpy Int CString .plain epoch epoch 64 (CString.ascii hostsFile) m.bytes)) =
      .ok (0, [7, PENDING], .error (.fault .outOfBounds)) := by
    decide +kernel
  simp only [bind_eq_ok, orFault_eq_ok, deref_eq_ok, pure_eq_ok, Prod.mk.injEq] at hall
  obtain ⟨⟨k, es⟩, hrun, _, hwrite, m, rfl, ⟨rc, boxes⟩, hspy, rfl, hstatus, hcmd⟩ := hall
  exact ⟨hosts_configured, k, es, m, boxes, hrun, hwrite, hspy, hstatus, hcmd⟩

end Hosts

end Bolo
