import Bolo.Library.Machine
import Bolo.Rrd.Map

/-!
# Creating and updating RRD files

The dispatcher of `bolo2rrd` looks for the file of each COUNTER, SAMPLE and RATE that it
receives, and relays the values to the updaters if the file is there and asks the creators for
it if it is not. Creators and updaters take requests from their queues in any order and at any
time. The path of a file depends on the name of the metric alone, but its layout depends on the
type, and the kernel keeps counters, sample sets and rates of one name apart.
-/
namespace Bolo.Rrd

open Library

/-! ## Layouts and values -/

/-- The data sources that a file is created with. -/
def dataSources (type : CString) : Option (List String) :=
  if type = Tag.counter.text then some ["DS:x:GAUGE:120:U:U"]
  else if type = Tag.sample.text then
    some ["DS:n:GAUGE:120:U:U", "DS:min:GAUGE:120:U:U", "DS:max:GAUGE:120:U:U",
      "DS:sum:GAUGE:120:U:U", "DS:mean:GAUGE:120:U:U", "DS:var:GAUGE:120:U:U"]
  else if type = Tag.rate.text then some ["DS:value:GAUGE:120:U:U"]
  else none

/-- The values of an update, from its data frames; the first frame of a RATE is its window. -/
def updateValues (type : CString) (frames : List CString) : Option (List CString) :=
  if type = Tag.counter.text && frames.length = 1 then some frames
  else if type = Tag.sample.text && frames.length = 6 then some frames
  else if type = Tag.rate.text && frames.length = 2 then some (frames.drop 1)
  else none

/-- An update has a value for each data source of its type. -/
theorem length_updateValues {type : CString} {frames values : List CString} {ds : List String}
    (h : updateValues type frames = some values) (hds : dataSources type = some ds) :
    values.length = ds.length := by
  unfold updateValues at h
  split at h
  · case isTrue hc =>
      simp only [Bool.and_eq_true, decide_eq_true_eq] at hc
      simp only [dataSources, hc.1, if_true, Option.some.injEq] at h hds
      rw [← h, ← hds, hc.2]
      rfl
  · split at h
    · case isTrue hc =>
        simp only [Bool.and_eq_true, decide_eq_true_eq] at hc
        simp only [dataSources, hc.1, Tag.text_inj, reduceCtorEq, if_true, if_false,
          Option.some.injEq] at h hds
        rw [← h, ← hds, hc.2]
        rfl
    · split at h
      · case isTrue hc =>
          simp only [Bool.and_eq_true, decide_eq_true_eq] at hc
          simp only [dataSources, hc.1, Tag.text_inj, reduceCtorEq, if_true, if_false,
            Option.some.injEq] at h hds
          rw [← h, ← hds, List.length_drop, hc.2]
          rfl
      · cases h

/-! ## The threads -/

/-- The dispatcher with its map, the files that exist with their data sources, and the requests
on their way. `cached` says whether there is a cache daemon to be asked about files. -/
structure System where
  root : CString
  cached : Bool
  map : Table CString RrdFile
  files : CString → Option (List String)
  creates : List Pdu
  creating : List Pdu
  updates : List Pdu

def System.start (root : CString) (cached : Bool) (map : Table CString RrdFile)
    (files : CString → Option (List String)) : System :=
  { root := root, cached := cached, map := map, files := files, creates := [], creating := []
    updates := [] }

/-- What happens in the process. The flags are what the cache daemon answers, if it is asked,
and whether `rrd_create` succeeds; `i` is the request that is taken. -/
inductive Event where
  | receive (p : Pdu) (unknown : Bool)
  | take (i : Nat) (known : Bool)
  | created (i : Nat) (ok : Bool)
  | update (i : Nat) (unknown : Bool)
  | tock

inductive Output where
  | relay (p : Pdu)
  | rrdupdate (file ts : CString) (values : List CString)
  | wrote (contents : Except Fault (List UInt8))

def createRequest (file : RrdFile) (type : CString) : Pdu :=
  { type := .lit "CREATE", frames := [file.parents.1, file.parents.2, file.abspath, type] }

theorem createRequest_inj {file file' : RrdFile} {type type' : CString}
    (h : createRequest file type = createRequest file' type') :
    file.abspath = file'.abspath ∧ type = type' := by
  simp only [createRequest, Pdu.mk.injEq, List.cons.injEq] at h
  exact ⟨h.2.2.2.1, h.2.2.2.2.1⟩

def updateRequest (file : RrdFile) (ts type : CString) (values : List CString) : Pdu :=
  { type := .lit "UPDATE", frames := file.abspath :: ts :: type :: values }

def accepted (p : Pdu) : Bool :=
  p.type = Tag.counter.text && p.size = 4 || p.type = Tag.sample.text && p.size = 9 ||
    p.type = Tag.rate.text && p.size = 5

theorem accepted_iff {p : Pdu} : accepted p = true ↔
    p.type = Tag.counter.text ∧ p.size = 4 ∨ p.type = Tag.sample.text ∧ p.size = 9 ∨
      p.type = Tag.rate.text ∧ p.size = 5 := by
  simp [accepted, or_assoc]

/-- The file of a metric, and the map with it. -/
def fileOf [HashOrder] [Sha1] (root : CString) (map : Table CString RrdFile) (name type : CString) :
    RrdFile × Table CString RrdFile :=
  match map.get? name with
  | none => (rrdFilename root name type, hashSet map name (rrdFilename root name type))
  | some file =>
    -- the type is set to that of the PDU, which is freed; the type of an entry that was set
    -- before is read from there, and set again or not
    if file.type = some (.lit "UNDEFINED") || file.type = none then
      ({ file with type := none }, hashSet map name { file with type := none })
    else (file, map)

namespace System

/-- `_creator_reactor` up to the check whether the file exists. -/
def take (s : System) (i : Nat) (known : Bool) : Except Fault (System × List Output) :=
  match s.creates[i]? with
  | none => return (s, [])
  | some p => do
    let file ← deref (p.string 3)
    let s := { s with creates := s.creates.eraseIdx i }
    if (s.files file).isSome || (s.cached && known) then return (s, [])
    else return ({ s with creating := s.creating ++ [p] }, [])

/-- `_creator_reactor` from there on. -/
def created (s : System) (i : Nat) (ok : Bool) : Except Fault (System × List Output) :=
  match s.creating[i]? with
  | none => return (s, [])
  | some p => do
    let file ← deref (p.string 3)
    let type ← deref (p.string 4)
    let s := { s with creating := s.creating.eraseIdx i }
    match dataSources type with
    | some ds =>
      if ok then return ({ s with files := Function.update s.files file (some ds) }, [])
      else return (s, [])
    | none => return (s, [])

/-- `_updater_reactor`. -/
def update (s : System) (i : Nat) (unknown : Bool) : Except Fault (System × List Output) :=
  match s.updates[i]? with
  | none => return (s, [])
  | some p => do
    let file ← deref (p.string 1)
    let s := { s with updates := s.updates.eraseIdx i }
    if (s.files file).isNone || (s.cached && unknown) then return (s, [])
    else
      let ts ← deref (p.string 2)
      let type ← deref (p.string 3)
      match updateValues type (p.frames.drop 3) with
      | some values => return (s, [.rrdupdate file ts values])
      | none => return (s, [])

section Run

variable [HashOrder] [Sha1]

/-- `_dispatcher_reactor` on a broadcast. -/
def receive (s : System) (p : Pdu) (unknown : Bool) : Except Fault (System × List Output) :=
  if accepted p then do
    let name ← deref (p.string 2)
    let file := (fileOf s.root s.map name p.type).1
    let s := { s with map := (fileOf s.root s.map name p.type).2 }
    if (s.files file.abspath).isNone || (s.cached && unknown) then
      let relay := createRequest file p.type
      return ({ s with creates := s.creates ++ [relay] }, [.relay relay])
    else
      let ts ← deref (p.string 1)
      let relay := updateRequest file ts p.type (p.frames.drop 2)
      return ({ s with updates := s.updates ++ [relay] }, [.relay relay])
  else return (s, [])

def step (s : System) : Event → Except Fault (System × List Output)
  | .receive p unknown => s.receive p unknown
  | .take i known => s.take i known
  | .created i ok => s.created i ok
  | .update i unknown => s.update i unknown
  | .tock => .ok (s, [.wrote (rrdmapWrite s.map)])

end Run

end System

/-! ## Paths -/

section Paths

variable [HashOrder] [Sha1]

theorem get?_fileOf (root : CString) (map : Table CString RrdFile) (name type n : CString) :
    (fileOf root map name type).2.get? n =
      if n = name then some (fileOf root map name type).1 else map.get? n := by
  unfold fileOf
  cases hget : map.get? name with
  | none => exact get?_hashSet ..
  | some file =>
    dsimp only
    split
    · exact get?_hashSet ..
    · split
      · rw [‹n = name›, hget]
      · rfl

omit [HashOrder] in
/-- The path of the file of a metric. -/
def System.path (s : System) (name : CString) : CString :=
  ((s.map.get? name).map RrdFile.abspath).getD (rrdFilename s.root name name).abspath

theorem System.abspath_fileOf (s : System) (name type : CString) :
    (fileOf s.root s.map name type).1.abspath = s.path name := by
  unfold path fileOf
  cases s.map.get? name with
  | none => rfl
  | some file =>
    dsimp only
    split <;> rfl

/-- The path of a metric never changes. -/
theorem System.path_fileOf (s : System) (name type : CString) :
    { s with map := (fileOf s.root s.map name type).2 }.path = s.path := by
  funext n
  by_cases hn : n = name
  · rw [hn, ← abspath_fileOf s name type]
    simp [path, get?_fileOf]
  · simp [path, get?_fileOf, hn]

end Paths

/-! ## Relays about one path -/

/-- The type of a CREATE for a path. -/
def Output.createFor (path : CString) : Output → Option CString
  | .relay p => if p.type = .lit "CREATE" && p.string 3 = some path then p.string 4 else none
  | _ => none

/-- The type of an UPDATE for a path. -/
def Output.updateFor (path : CString) : Output → Option CString
  | .relay p => if p.type = .lit "UPDATE" && p.string 1 = some path then p.string 3 else none
  | _ => none

/-- Every UPDATE for a path has the type of the first CREATE for the path. -/
def Matching (os : List Output) : Prop :=
  ∀ path τ, os.findSome? (Output.createFor path) = some τ →
    ∀ o ∈ os, ∀ τ', o.updateFor path = some τ' → τ' = τ

@[simp] theorem createFor_createRequest (path : CString) (file : RrdFile) (type : CString) :
    (Output.relay (createRequest file type)).createFor path =
      if file.abspath = path then some type else none := by
  simp [Output.createFor, createRequest, Pdu.string]

@[simp] theorem updateFor_updateRequest (path : CString) (file : RrdFile) (ts type : CString)
    (values : List CString) : (Output.relay (updateRequest file ts type values)).updateFor path =
      if file.abspath = path then some type else none := by
  simp [Output.updateFor, updateRequest, Pdu.string]

@[simp] theorem updateFor_createRequest (path : CString) (file : RrdFile) (type : CString) :
    (Output.relay (createRequest file type)).updateFor path = none := by
  have hne : CString.lit "CREATE" ≠ .lit "UPDATE" := by decide
  simp [Output.updateFor, createRequest, hne]

@[simp] theorem createFor_updateRequest (path : CString) (file : RrdFile) (ts type : CString)
    (values : List CString) :
    (Output.relay (updateRequest file ts type values)).createFor path = none := by
  have hne : CString.lit "UPDATE" ≠ .lit "CREATE" := by decide
  simp [Output.createFor, updateRequest, hne]

/-! ## What a step relays -/

section Steps

variable [HashOrder] [Sha1] {s s' : System} {out : List Output}

/-- The ways in which a received PDU is dealt with. -/
inductive Receives (s : System) (p : Pdu) (unknown : Bool) : System → List Output → Prop
  | ignored (h : accepted p = false) : Receives s p unknown s []
  | creates {name file map} (h : accepted p = true) (hname : p.string 2 = some name)
      (hfile : file.abspath = s.path name) (hmap : { s with map := map }.path = s.path)
      (habsent : s.files (s.path name) = none ∨ s.cached = true ∧ unknown = true) :
      Receives s p unknown
        { s with map := map, creates := s.creates ++ [createRequest file p.type] }
        [.relay (createRequest file p.type)]
  | updates {name file map ts} (h : accepted p = true) (hname : p.string 2 = some name)
      (hfile : file.abspath = s.path name) (hmap : { s with map := map }.path = s.path)
      (hexists : s.files (s.path name) ≠ none) (hknown : s.cached = true → unknown = false) :
      Receives s p unknown
        { s with map := map,
                 updates := s.updates ++ [updateRequest file ts p.type (p.frames.drop 2)] }
        [.relay (updateRequest file ts p.type (p.frames.drop 2))]

theorem receive_spec {p : Pdu} {unknown : Bool} (h : s.receive p unknown = .ok (s', out)) :
    Receives s p unknown s' out := by
  unfold System.receive at h
  split at h
  · case isTrue hacc =>
      simp only [bind_eq_ok, deref_eq_ok] at h
      obtain ⟨name, hname, h⟩ := h
      have hfile := s.abspath_fileOf name p.type
      have hmap := s.path_fileOf name p.type
      rw [hfile] at h
      split at h
      · case isTrue habsent =>
          simp only [pure_eq_ok, Prod.mk.injEq] at h
          obtain ⟨rfl, rfl⟩ := h
          exact .creates hacc hname hfile hmap (by simpa using habsent)
      · case isFalse hexists =>
          simp only [bind_eq_ok, deref_eq_ok, pure_eq_ok, Prod.mk.injEq] at h
          obtain ⟨ts, -, rfl, rfl⟩ := h
          simp only [Bool.or_eq_true, Option.isNone_iff_eq_none, Bool.and_eq_true, not_or,
            not_and, Bool.not_eq_true] at hexists
          exact .updates hacc hname hfile hmap hexists.1 hexists.2
  · case isFalse hacc =>
      simp only [pure_eq_ok, Prod.mk.injEq] at h
      obtain ⟨rfl, rfl⟩ := h
      exact .ignored (by simpa using hacc)

/-- Every PDU is dealt with. -/
theorem receive_ok (s : System) (p : Pdu) (unknown : Bool) :
    ∃ s' out, s.receive p unknown = .ok (s', out) := by
  unfold System.receive
  split
  · case isTrue hacc =>
      have hlen : 3 ≤ p.frames.length := by
        rcases accepted_iff.mp hacc with ⟨-, h⟩ | ⟨-, h⟩ | ⟨-, h⟩ <;> simp only [Pdu.size] at h <;>
          omega
      have hname : p.string 2 = some p.frames[1] := by simp [Pdu.string]
      have hts : p.string 1 = some p.frames[0] := by simp [Pdu.string]
      simp only [hname, hts, deref_some, bind, Except.bind]
      split <;> exact ⟨_, _, rfl⟩
  · exact ⟨_, _, rfl⟩

/-- What no step changes: paths stay, and files are not removed. -/
structure Keeps (s s' : System) : Prop where
  path_eq : s'.path = s.path
  cached_eq : s'.cached = s.cached
  files : ∀ path, s.files path ≠ none → s'.files path ≠ none

omit [HashOrder] in
theorem Keeps.trans {s'' : System} (h : Keeps s s') (h' : Keeps s' s'') : Keeps s s'' :=
  ⟨h'.path_eq.trans h.path_eq, h'.cached_eq.trans h.cached_eq,
    fun path hp => h'.files path (h.files path hp)⟩

omit [HashOrder] in
theorem Receives.keeps {p : Pdu} {unknown : Bool} (h : Receives s p unknown s' out) :
    Keeps s s' ∧ s'.files = s.files ∧ s'.creating = s.creating := by
  cases h with
  | ignored => exact ⟨⟨rfl, rfl, fun _ h => h⟩, rfl, rfl⟩
  | creates _ _ _ hmap => exact ⟨⟨hmap, rfl, fun _ h => h⟩, rfl, rfl⟩
  | updates _ _ _ hmap => exact ⟨⟨hmap, rfl, fun _ h => h⟩, rfl, rfl⟩

def Event.received : Event → Option Pdu
  | .receive p _ => some p
  | _ => none

omit [HashOrder] [Sha1] in
theorem Event.eq_receive {e : Event} {p : Pdu} (h : e.received = some p) :
    ∃ unknown, e = .receive p unknown := by
  cases e with
  | receive q unknown => exact ⟨unknown, by rw [Option.some.inj h]⟩
  | _ => cases h

/-- A relay of the dispatcher, which no other thread makes. -/
def Output.isRelay : Output → Bool
  | .relay _ => true
  | _ => false

/-- What the other threads do. -/
inductive Works (s : System) : System → List Output → Prop
  | idles : Works s s []
  | drops {i} : Works s { s with creates := s.creates.eraseIdx i } []
  | takes {i p} (hp : p ∈ s.creates) :
      Works s { s with creates := s.creates.eraseIdx i, creating := s.creating ++ [p] } []
  | fails {i} : Works s { s with creating := s.creating.eraseIdx i } []
  | makes {i p file type ds} (hp : p ∈ s.creating) (hfile : p.string 3 = some file)
      (htype : p.string 4 = some type) (hds : dataSources type = some ds) :
      Works s { s with creating := s.creating.eraseIdx i,
                       files := Function.update s.files file (some ds) } []
  | passes {i} : Works s { s with updates := s.updates.eraseIdx i } []
  | performs {i p file ts type values} (hp : p ∈ s.updates) (hfile : p.string 1 = some file)
      (htype : p.string 3 = some type) (hexists : s.files file ≠ none)
      (hvalues : updateValues type (p.frames.drop 3) = some values) :
      Works s { s with updates := s.updates.eraseIdx i } [.rrdupdate file ts values]
  | writes : Works s s [.wrote (rrdmapWrite s.map)]

omit [HashOrder] [Sha1] in
theorem take_spec {i : Nat} {known : Bool} (h : s.take i known = .ok (s', out)) :
    Works s s' out := by
  unfold System.take at h
  split at h
  · simp only [pure_eq_ok, Prod.mk.injEq] at h
    obtain ⟨rfl, rfl⟩ := h
    exact .idles
  · case h_2 p hp =>
      simp only [bind_eq_ok] at h
      obtain ⟨file, -, h⟩ := h
      split at h <;> simp only [pure_eq_ok, Prod.mk.injEq] at h <;> obtain ⟨rfl, rfl⟩ := h
      · exact .drops
      · exact .takes (List.mem_of_getElem? hp)

omit [HashOrder] [Sha1] in
theorem created_spec {i : Nat} {ok : Bool} (h : s.created i ok = .ok (s', out)) :
    Works s s' out := by
  unfold System.created at h
  split at h
  · simp only [pure_eq_ok, Prod.mk.injEq] at h
    obtain ⟨rfl, rfl⟩ := h
    exact .idles
  · case h_2 p hp =>
      simp only [bind_eq_ok, deref_eq_ok] at h
      obtain ⟨file, hfile, type, htype, h⟩ := h
      split at h
      · case h_1 ds hds =>
          split at h <;> simp only [pure_eq_ok, Prod.mk.injEq] at h <;> obtain ⟨rfl, rfl⟩ := h
          · exact .makes (List.mem_of_getElem? hp) hfile htype hds
          · exact .fails
      · simp only [pure_eq_ok, Prod.mk.injEq] at h
        obtain ⟨rfl, rfl⟩ := h
        exact .fails

omit [HashOrder] [Sha1] in
theorem update_spec {i : Nat} {unknown : Bool} (h : s.update i unknown = .ok (s', out)) :
    Works s s' out := by
  unfold System.update at h
  split at h
  · simp only [pure_eq_ok, Prod.mk.injEq] at h
    obtain ⟨rfl, rfl⟩ := h
    exact .idles
  · case h_2 p hp =>
      simp only [bind_eq_ok, deref_eq_ok] at h
      obtain ⟨file, hfile, h⟩ := h
      split at h
      · simp only [pure_eq_ok, Prod.mk.injEq] at h
        obtain ⟨rfl, rfl⟩ := h
        exact .passes
      · case isFalse hexists =>
          simp only [bind_eq_ok, deref_eq_ok] at h
          obtain ⟨ts, -, type, htype, h⟩ := h
          simp only [Bool.or_eq_true, Option.isNone_iff_eq_none, not_or] at hexists
          split at h <;> simp only [pure_eq_ok, Prod.mk.injEq] at h <;> obtain ⟨rfl, rfl⟩ := h
          · exact .performs (List.mem_of_getElem? hp) hfile htype hexists.1 ‹_›
          · exact .passes

theorem works_spec {e : Event} (he : e.received = none) (h : s.step e = .ok (s', out)) :
    Works s s' out := by
  cases e with
  | receive p unknown => cases he
  | take i known => exact take_spec h
  | created i ok => exact created_spec h
  | update i unknown => exact update_spec h
  | tock =>
    simp only [System.step, Except.ok.injEq, Prod.mk.injEq] at h
    obtain ⟨rfl, rfl⟩ := h
    exact .writes

omit [HashOrder] in
/-- The threads other than the dispatcher create files, and relay nothing. -/
theorem Works.keeps (h : Works s s' out) : Keeps s s' ∧ ∀ o ∈ out, o.isRelay = false := by
  cases h with
  | makes =>
    refine ⟨⟨rfl, rfl, fun path hp => ?_⟩, by simp⟩
    simp only [Function.update_apply]
    split
    · simp
    · exact hp
  | _ => exact ⟨⟨rfl, rfl, fun _ h => h⟩, by simp [Output.isRelay]⟩

/-- An accepted broadcast of the metric that the path is for. -/
def About (s : System) (path : CString) (p : Pdu) : Prop :=
  accepted p = true ∧ (p.string 2).map s.path = some path

instance (s : System) (path : CString) (p : Pdu) : Decidable (About s path p) :=
  inferInstanceAs (Decidable (_ ∧ _))

/-- A relay about a path is made for a broadcast about it, a CREATE only if the file may be
missing. -/
theorem step_relays {e : Event} (h : s.step e = .ok (s', out)) (path : CString) {o : Output}
    (ho : o ∈ out) {τ : CString} :
    (o.createFor path = some τ → (s.files path = none ∨ s.cached = true) ∧
      ∃ p, e.received = some p ∧ About s path p ∧ p.type = τ) ∧
    (o.updateFor path = some τ → ∃ p, e.received = some p ∧ About s path p ∧ p.type = τ) := by
  cases he : e.received with
  | none =>
    have hrelay := (works_spec he h).keeps.2 o ho
    cases o with
    | relay p => cases hrelay
    | rrdupdate => simp [Output.createFor, Output.updateFor]
    | wrote => simp [Output.createFor, Output.updateFor]
  | some p =>
    obtain ⟨unknown, rfl⟩ := Event.eq_receive he
    cases receive_spec h with
    | ignored => cases ho
    | creates hacc hname hfile hmap habsent =>
      obtain rfl := List.mem_singleton.mp ho
      rw [createFor_createRequest, updateFor_createRequest, hfile]
      refine ⟨fun hτ => ?_, nofun⟩
      split at hτ
      · case isTrue hpath =>
          subst hpath
          exact ⟨habsent.imp_right And.left, p, rfl, ⟨hacc, by simp [hname]⟩, Option.some.inj hτ⟩
      · cases hτ
    | updates hacc hname hfile hmap hexists hknown =>
      obtain rfl := List.mem_singleton.mp ho
      rw [createFor_updateRequest, updateFor_updateRequest, hfile]
      refine ⟨nofun, fun hτ => ?_⟩
      split at hτ
      · case isTrue hpath =>
          exact ⟨p, rfl, ⟨hacc, by simp [hname, hpath]⟩, Option.some.inj hτ⟩
      · cases hτ

theorem step_keeps {e : Event} (h : s.step e = .ok (s', out)) : Keeps s s' := by
  cases he : e.received with
  | none => exact (works_spec he h).keeps.1
  | some p =>
    obtain ⟨unknown, rfl⟩ := Event.eq_receive he
    exact (receive_spec h).keeps.1

omit [HashOrder] in
theorem Keeps.about_iff {path : CString} {p : Pdu} (h : Keeps s s') :
    About s' path p ↔ About s path p := by
  rw [About, About, h.path_eq]

/-- Where the relays of a run come from. -/
theorem run_relays {es : List Event} {os : List Output}
    (hrun : Machine.run System.step s es = .ok (s', os)) (path : CString) :
    Keeps s s' ∧ ∀ o ∈ os, ∀ τ,
      (o.createFor path = some τ → (s.files path = none ∨ s.cached = true) ∧
        ∃ p ∈ es.filterMap Event.received, About s path p ∧ p.type = τ) ∧
      (o.updateFor path = some τ →
        ∃ p ∈ es.filterMap Event.received, About s path p ∧ p.type = τ) := by
  refine Machine.run_relates (Q := fun _ _ => True) (l := []) (o := [])
    (P := fun t es os => Keeps s t ∧ ∀ o ∈ os, ∀ τ,
      (o.createFor path = some τ → (s.files path = none ∨ s.cached = true) ∧
        ∃ p ∈ es.filterMap Event.received, About s path p ∧ p.type = τ) ∧
      (o.updateFor path = some τ →
        ∃ p ∈ es.filterMap Event.received, About s path p ∧ p.type = τ))
    ?_ ⟨⟨rfl, rfl, fun _ h => h⟩, by simp⟩ (fun _ _ _ _ _ _ _ => trivial) hrun
  rintro t e t' es os out ⟨hkeeps, hrelays⟩ - hstep
  refine ⟨hkeeps.trans (step_keeps hstep), fun o ho τ => ?_⟩
  rcases List.mem_append.mp ho with ho | ho
  · obtain ⟨hcreate, hupdate⟩ := hrelays o ho τ
    refine ⟨fun hτ => ?_, fun hτ => ?_⟩
    · obtain ⟨habsent, p, hp, hprop⟩ := hcreate hτ
      exact ⟨habsent, p, by simp_all, hprop⟩
    · obtain ⟨p, hp, hprop⟩ := hupdate hτ
      exact ⟨p, by simp_all, hprop⟩
  · obtain ⟨hcreate, hupdate⟩ := step_relays hstep path ho (τ := τ)
    refine ⟨fun hτ => ?_, fun hτ => ?_⟩
    · obtain ⟨habsent, p, hp, habout, htype⟩ := hcreate hτ
      refine ⟨?_, p, by simp [hp], hkeeps.about_iff.mp habout, htype⟩
      rw [← hkeeps.cached_eq]
      exact habsent.imp_left fun hnone => by_contra fun hsome => hkeeps.files path hsome hnone
    · obtain ⟨p, hp, habout, htype⟩ := hupdate hτ
      exact ⟨p, by simp [hp], hkeeps.about_iff.mp habout, htype⟩

/-! ## A timing in which every file is created at once -/

/-- The requests on their way to the creators are those of the dispatcher, and no creator is at
work. -/
structure Idle (s : System) : Prop where
  requests : ∀ p ∈ s.creates, ∃ file type, p = createRequest file type ∧ dataSources type ≠ none
  creating : s.creating = []

omit [HashOrder] [Sha1] in
theorem dataSources_of_accepted {p : Pdu} (h : accepted p = true) : dataSources p.type ≠ none := by
  rcases accepted_iff.mp h with ⟨h, -⟩ | ⟨h, -⟩ | ⟨h, -⟩ <;> simp [dataSources, h]

omit [HashOrder] in
theorem Receives.idle {p : Pdu} {unknown : Bool} (h : Receives s p unknown s' out) (hs : Idle s) :
    Idle s' := by
  cases h with
  | ignored => exact hs
  | creates hacc =>
    refine ⟨fun q hq => ?_, hs.creating⟩
    rcases List.mem_append.mp hq with hq | hq
    · exact hs.requests q hq
    · exact ⟨_, _, List.mem_singleton.mp hq, dataSources_of_accepted hacc⟩
  | updates => exact ⟨hs.requests, hs.creating⟩

/-- The dispatcher reads any number of broadcasts while the other threads wait. -/
theorem receives_run (ps : List Pdu) (hs : Idle s) :
    ∃ s' os, Machine.run System.step s (ps.map (.receive · false)) = .ok (s', os) ∧ Idle s' ∧
      s'.files = s.files := by
  induction ps generalizing s with
  | nil => exact ⟨s, [], rfl, hs, rfl⟩
  | cons p ps ih =>
    obtain ⟨t, out, hstep⟩ := receive_ok s p false
    have hspec := receive_spec hstep
    obtain ⟨s', os, hrun, hidle, hfiles⟩ := ih (hspec.idle hs)
    exact ⟨s', out ++ os, Machine.run_cons.mpr ⟨t, out, os, hstep, hrun, rfl⟩, hidle,
      hfiles.trans hspec.keeps.2.1⟩

/-- A creator takes the first request and completes it. -/
theorem create_first {file : RrdFile} {type : CString} {rest : List Pdu}
    (hs : Idle s) (hcreates : s.creates = createRequest file type :: rest) :
    ∃ s' os, Machine.run System.step s [.take 0 false, .created 0 true] = .ok (s', os) ∧
      Idle s' ∧ s'.creates = rest ∧ s'.files file.abspath ≠ none := by
  have hrequests : ∀ p ∈ rest, ∃ file type, p = createRequest file type ∧
      dataSources type ≠ none := fun p hp => hs.requests p (by simp [hcreates, hp])
  obtain ⟨file', type', heq, htype⟩ := hs.requests (createRequest file type) (by simp [hcreates])
  obtain ⟨ds, hds⟩ : ∃ ds, dataSources type = some ds := by
    rw [(createRequest_inj heq).2]
    exact Option.ne_none_iff_exists'.mp htype
  have hpath : (createRequest file type).string 3 = some file.abspath := rfl
  have hkind : (createRequest file type).string 4 = some type := rfl
  by_cases hexists : (s.files file.abspath).isSome
  · -- the file was created in the meantime, and the request is dropped
    refine ⟨{ s with creates := rest }, [], ?_, ⟨hrequests, hs.creating⟩, rfl, ?_⟩
    · simp [Machine.run, System.step, System.take, System.created, hcreates, hpath, hexists,
        hs.creating, bind, Except.bind, pure, Except.pure]
    · simpa [Option.isSome_iff_ne_none] using hexists
  · refine ⟨{ s with creates := rest, files := Function.update s.files file.abspath (some ds) }, [],
      ?_, ⟨hrequests, hs.creating⟩, rfl, by simp⟩
    simp [Machine.run, System.step, System.take, System.created, hcreates, hpath, hkind, hexists,
      hs.creating, hds, bind, Except.bind, pure, Except.pure]

/-- The creators work through all requests. -/
theorem drain (hs : Idle s) : ∃ es s' os, Machine.run System.step s es = .ok (s', os) ∧
    es.filterMap Event.received = [] ∧ Idle s' ∧
    ∀ file type, createRequest file type ∈ s.creates → s'.files file.abspath ≠ none := by
  induction hc : s.creates generalizing s with
  | nil => exact ⟨[], s, [], rfl, rfl, hs, by simp⟩
  | cons p rest ih =>
    obtain ⟨file, type, rfl, -⟩ := hs.requests p (by simp [hc])
    obtain ⟨t, os, hfirst, hidle, hrest, hexists⟩ := create_first hs hc
    obtain ⟨es, s', os', hrun, hnone, hidle', hall⟩ := ih hidle hrest
    have hnone' : ([Event.take 0 false, .created 0 true] ++ es).filterMap Event.received = [] :=
      hnone
    refine ⟨_, s', os ++ os', Machine.run_append.mpr ⟨t, os, os', hfirst, hrun, rfl⟩, hnone',
      hidle', ?_⟩
    intro file' type' hmem
    rcases List.mem_cons.mp hmem with heq | hmem
    · rw [(createRequest_inj heq).1]
      exact (run_relays hrun file.abspath).1.files _ hexists
    · exact hall file' type' hmem

end Steps

/-! ## The types of the relays -/

section Types

variable [HashOrder] [Sha1]

/-- The broadcasts about a path that may be created are of one type. -/
def OneType (s : System) (ps : List Pdu) : Prop :=
  ∀ path, s.files path = none ∨ s.cached = true →
    ∀ p ∈ ps, ∀ q ∈ ps, About s path p → About s path q → p.type = q.type

theorem matching_of_oneType {s s' : System} {es : List Event} {os : List Output}
    (h : OneType s (es.filterMap Event.received))
    (hrun : Machine.run System.step s es = .ok (s', os)) : Matching os := by
  intro path τ hfirst o ho τ' hτ'
  obtain ⟨o₀, ho₀, hτ⟩ := List.exists_of_findSome?_eq_some hfirst
  obtain ⟨-, hrelays⟩ := run_relays hrun path
  obtain ⟨habsent, p, hp, hpath, rfl⟩ := (hrelays o₀ ho₀ τ).1 hτ
  obtain ⟨q, hq, hpath', rfl⟩ := (hrelays o ho τ').2 hτ'
  exact h path habsent q hq p hp hpath' hpath

/-- A broadcast about a file that may be missing, and is not known to the cache daemon. -/
theorem receive_create {s : System} {path : CString} {p : Pdu} (hp : About s path p)
    (habsent : s.files path = none ∨ s.cached = true) :
    ∃ s' file, s.receive p true = .ok (s', [.relay (createRequest file p.type)]) ∧
      file.abspath = path ∧ createRequest file p.type ∈ s'.creates := by
  obtain ⟨s', out, hstep⟩ := receive_ok s p true
  cases receive_spec hstep with
  | ignored hno => exact absurd hp.1 (by simp [hno])
  | @creates name file map hacc hname hfile =>
    have hpath := hp.2
    rw [hname, Option.map_some, Option.some.injEq] at hpath
    exact ⟨_, file, hstep, hfile.trans hpath, by simp⟩
  | @updates name file map ts hacc hname hfile hmap hexists hknown =>
    have hpath := hp.2
    rw [hname, Option.map_some, Option.some.injEq] at hpath
    rw [hpath] at hexists
    exact absurd habsent (by simp [hexists, mt hknown])

/-- A broadcast about a file that exists. -/
theorem receive_update {s : System} {path : CString} {q : Pdu} (hq : About s path q)
    (hexists : s.files path ≠ none) :
    ∃ s' o, s.receive q false = .ok (s', [o]) ∧ o.updateFor path = some q.type := by
  obtain ⟨s', out, hstep⟩ := receive_ok s q false
  cases receive_spec hstep with
  | ignored hno => exact absurd hq.1 (by simp [hno])
  | @creates name file map hacc hname hfile hmap habsent =>
    have hpath := hq.2
    rw [hname, Option.map_some, Option.some.injEq] at hpath
    rw [hpath] at habsent
    exact absurd habsent (by simp [hexists])
  | @updates name file map ts hacc hname hfile =>
    have hpath := hq.2
    rw [hname, Option.map_some, Option.some.injEq] at hpath
    exact ⟨_, _, hstep, by simp [hfile, hpath]⟩

/-- If every file is created as soon as it is asked for, a broadcast of another type than the
first one leads to an UPDATE of that type. -/
theorem exists_update {s : System} (hs : Idle s) {path : CString}
    (habsent : s.files path = none ∨ s.cached = true) {before after : List Pdu} {p q : Pdu}
    (hbefore : ∀ p ∈ before, ¬About s path p) (hp : About s path p) (hq : About s path q)
    (hmem : q ∈ after) : ∃ es s' os, es.filterMap Event.received = before ++ p :: after ∧
      Machine.run System.step s es = .ok (s', os) ∧
      os.findSome? (Output.createFor path) = some p.type ∧
      ∃ o ∈ os, o.updateFor path = some q.type := by
  obtain ⟨middle, later, rfl⟩ := List.append_of_mem hmem
  -- the dispatcher reads up to the first broadcast about the path, and asks for the file
  obtain ⟨s₁, os₁, hrun₁, hidle₁, hfiles₁⟩ := receives_run before hs
  obtain ⟨hkeeps₁, hrelays₁⟩ := run_relays hrun₁ path
  have habsent₁ : s₁.files path = none ∨ s₁.cached = true := by
    rwa [hfiles₁, hkeeps₁.cached_eq]
  obtain ⟨s₂, file, hstep₂, rfl, hasked⟩ := receive_create (hkeeps₁.about_iff.mpr hp) habsent₁
  have hspec₂ := receive_spec hstep₂
  -- the creators do all that they are asked for
  obtain ⟨es₃, s₃, os₃, hrun₃, hnone₃, hidle₃, hall⟩ := drain (hspec₂.idle hidle₁)
  have hexists₃ := hall file p.type hasked
  have hkeeps₃ := hkeeps₁.trans (hspec₂.keeps.1.trans (run_relays hrun₃ file.abspath).1)
  -- the dispatcher reads on, and finds the file
  obtain ⟨s₄, os₄, hrun₄, hidle₄, hfiles₄⟩ := receives_run middle hidle₃
  have hkeeps₄ := hkeeps₃.trans (run_relays hrun₄ file.abspath).1
  obtain ⟨s₅, o, hstep₅, hupdate⟩ := receive_update (hkeeps₄.about_iff.mpr hq) (hfiles₄ ▸ hexists₃)
  obtain ⟨s₆, os₆, hrun₆, -, -⟩ := receives_run later ((receive_spec hstep₅).idle hidle₄)
  refine ⟨before.map (.receive · false) ++ .receive p true :: (es₃ ++
    (middle.map (.receive · false) ++ .receive q false :: later.map (.receive · false))), s₆,
    os₁ ++ (.relay (createRequest file p.type) :: (os₃ ++ (os₄ ++ o :: os₆))), ?_, ?_, ?_, o,
    by simp, hupdate⟩
  · have hmap : ∀ l : List Pdu, (l.map (Event.receive · false)).filterMap Event.received = l := by
      intro l
      simp [List.filterMap_map, Function.comp_def, Event.received]
    simp only [List.filterMap_append, List.filterMap_cons, hmap, hnone₃, Event.received,
      List.nil_append]
  · refine Machine.run_append.mpr ⟨s₁, os₁, _, hrun₁, ?_, rfl⟩
    refine Machine.run_cons.mpr ⟨s₂, _, _, hstep₂, ?_, rfl⟩
    refine Machine.run_append.mpr ⟨s₃, os₃, _, hrun₃, ?_, rfl⟩
    refine Machine.run_append.mpr ⟨s₄, os₄, _, hrun₄, ?_, rfl⟩
    exact Machine.run_cons.mpr ⟨s₅, _, _, hstep₅, hrun₆, rfl⟩
  · have hnone : os₁.findSome? (Output.createFor file.abspath) = none := by
      rw [List.findSome?_eq_none_iff]
      intro o ho
      by_contra hne
      obtain ⟨τ, hτ⟩ := Option.ne_none_iff_exists'.mp hne
      obtain ⟨-, p', hp', habout, -⟩ := (hrelays₁ o ho τ).1 hτ
      refine hbefore p' ?_ habout
      simpa [List.filterMap_map, Function.comp_def, Event.received] using hp'
    simp [List.findSome?_append, hnone]

/-- The relays match under every timing exactly if the broadcasts about a path that may be
created are of one type. -/
theorem updates_match_iff (root : CString) (cached : Bool) (map : Table CString RrdFile)
    (files : CString → Option (List String)) (ps : List Pdu) :
    (∀ es s' os, es.filterMap Event.received = ps →
      Machine.run System.step (.start root cached map files) es = .ok (s', os) → Matching os) ↔
      OneType (.start root cached map files) ps := by
  constructor
  · intro h path habsent p hp q hq hpath hpath'
    -- all broadcasts about the path are of the type of the first one
    obtain ⟨p₀, hp₀⟩ : ∃ p₀, ps.find? (About (.start root cached map files) path ·) = some p₀ :=
      Option.isSome_iff_exists.mp (List.find?_isSome.mpr ⟨p, hp, by simpa using hpath⟩)
    obtain ⟨hpath₀, before, after, rfl, hbefore⟩ := List.find?_eq_some_iff_append.mp hp₀
    have hidle : Idle (.start root cached map files) := ⟨by simp [System.start], rfl⟩
    have hfirst : ∀ r ∈ before ++ p₀ :: after, About (.start root cached map files) path r →
        r.type = p₀.type := by
      intro r hr hrpath
      rcases List.mem_append.mp hr with hr | hr
      · exact absurd hrpath (by simpa using hbefore r hr)
      · rcases List.mem_cons.mp hr with rfl | hr
        · rfl
        · obtain ⟨es, s', os, hes, hrun, hcreate, o, ho, hupdate⟩ := exists_update hidle habsent
            (fun p hp => by simpa using hbefore p hp) (by simpa using hpath₀) hrpath hr
          exact h es s' os hes hrun path p₀.type hcreate o ho r.type hupdate
    rw [hfirst p hp hpath, hfirst q hq hpath']
  · rintro h es s' os rfl hrun
    exact matching_of_oneType h hrun

end Types

section Examples

open Reference

/-- A counter and a sample set of one name; the file is created in between. -/
def sameName : List Event :=
  [.receive (pdu .counter ["10", "cpu", "1"]) false, .take 0 false, .created 0 true,
   .receive (pdu .sample ["20", "cpu", "3", "1", "2", "4", "1", "0"]) false]

/-- The sample set is sent to the file of the counter. -/
theorem sample_updates_counter : ∃ s' os,
    Machine.run System.step (.start (.lit "/rrd") false .empty fun _ => none) sameName =
      .ok (s', os) ∧ ¬Matching os := by
  have hall : (Machine.run System.step (.start (.lit "/rrd") false .empty fun _ => none)
      sameName).map (fun r => r.2.map fun o =>
        (o.createFor (rrdFilename (.lit "/rrd") (.lit "cpu") Tag.counter.text).abspath,
          o.updateFor (rrdFilename (.lit "/rrd") (.lit "cpu") Tag.counter.text).abspath)) =
      .ok [(some Tag.counter.text, none), (none, some Tag.sample.text)] := by decide +kernel
  obtain ⟨⟨s', os⟩, hrun⟩ := exists_ok (x := Machine.run System.step
    (.start (.lit "/rrd") false .empty fun _ => none) sameName) (by decide +kernel)
  rw [hrun] at hall
  refine ⟨s', os, hrun, fun hmatch => ?_⟩
  match os, Except.ok.inj hall with
  | [o₁, o₂], hos =>
    simp only [List.map_cons, List.map_nil, List.cons.injEq, Prod.mk.injEq, and_true] at hos
    have hfirst := hmatch _ Tag.counter.text (by simp [hos.1.1]) o₂ (by simp) _ hos.2.2
    exact absurd hfirst (by decide)

end Examples

/-! ## Layouts -/

section Layouts

variable [HashOrder] [Sha1]

/-- Files and requests are of the type that belongs to their path. -/
structure Fitting (T : CString → CString) (s : System) : Prop where
  files : ∀ path ds, s.files path = some ds → dataSources (T path) = some ds
  creates : ∀ p ∈ s.creates ++ s.creating, ∃ file, p = createRequest file (T file.abspath)
  updates : ∀ p ∈ s.updates, ∃ file ts values, p = updateRequest file ts (T file.abspath) values

/-- An update has as many values as its file has data sources. -/
def Output.Fits (T : CString → CString) : Output → Prop
  | .rrdupdate file _ values => ∃ ds, dataSources (T file) = some ds ∧ values.length = ds.length
  | _ => True

variable {T : CString → CString} {s s' : System} {out : List Output}

omit [HashOrder] in
theorem Receives.fits {p : Pdu} {unknown : Bool} (h : Receives s p unknown s' out)
    (hs : Fitting T s) (hT : ∀ path, About s path p → p.type = T path) :
    Fitting T s' ∧ ∀ o ∈ out, o.Fits T := by
  cases h with
  | ignored => exact ⟨hs, by simp⟩
  | @creates name file map hacc hname hfile =>
    have htype := hT file.abspath ⟨hacc, by simp [hname, hfile]⟩
    refine ⟨⟨hs.files, fun q hq => ?_, hs.updates⟩, by simp [Output.Fits]⟩
    rcases (by simpa [or_assoc] using hq : q ∈ s.creates ∨ q = _ ∨ q ∈ s.creating) with
      hq | rfl | hq
    · exact hs.creates q (by simp [hq])
    · exact ⟨file, by rw [htype]⟩
    · exact hs.creates q (by simp [hq])
  | @updates name file map ts hacc hname hfile =>
    have htype := hT file.abspath ⟨hacc, by simp [hname, hfile]⟩
    refine ⟨⟨hs.files, hs.creates, fun q hq => ?_⟩, by simp [Output.Fits]⟩
    rcases List.mem_append.mp hq with hq | hq
    · exact hs.updates q hq
    · exact ⟨file, ts, _, by rw [List.mem_singleton.mp hq, htype]⟩

omit [HashOrder] [Sha1] in
theorem Works.fits (h : Works s s' out) (hs : Fitting T s) :
    Fitting T s' ∧ ∀ o ∈ out, o.Fits T := by
  cases h with
  | idles => exact ⟨hs, by simp⟩
  | drops =>
    refine ⟨⟨hs.files, fun q hq => hs.creates q ?_, hs.updates⟩, by simp⟩
    exact List.mem_append.mpr ((List.mem_append.mp hq).imp_left List.mem_of_mem_eraseIdx)
  | @takes i p hp =>
    refine ⟨⟨hs.files, fun q hq => hs.creates q ?_, hs.updates⟩, by simp⟩
    rcases (by simpa using hq : q ∈ s.creates.eraseIdx i ∨ q ∈ s.creating ∨ q = p) with
      hq | hq | rfl
    · simp [List.mem_of_mem_eraseIdx hq]
    · simp [hq]
    · simp [hp]
  | fails =>
    refine ⟨⟨hs.files, fun q hq => hs.creates q ?_, hs.updates⟩, by simp⟩
    exact List.mem_append.mpr ((List.mem_append.mp hq).imp_right List.mem_of_mem_eraseIdx)
  | @makes i p path type ds hp hpath htype hds =>
    -- a file is made with the data sources of the type that was asked for
    obtain ⟨file, rfl⟩ := hs.creates p (by simp [hp])
    obtain rfl : file.abspath = path := Option.some.inj hpath
    obtain rfl : T file.abspath = type := Option.some.inj htype
    refine ⟨⟨fun path ds' h => ?_, fun q hq => hs.creates q ?_, hs.updates⟩, by simp⟩
    · simp only [Function.update_apply] at h
      split at h
      · case isTrue heq => rw [heq, hds, h]
      · exact hs.files path ds' h
    · exact List.mem_append.mpr ((List.mem_append.mp hq).imp_right List.mem_of_mem_eraseIdx)
  | passes =>
    exact ⟨⟨hs.files, hs.creates, fun q hq => hs.updates q (List.mem_of_mem_eraseIdx hq)⟩, by simp⟩
  | @performs i p path ts type values hp hpath htype hexists hvalues =>
    refine ⟨⟨hs.files, hs.creates, fun q hq => hs.updates q (List.mem_of_mem_eraseIdx hq)⟩, ?_⟩
    obtain ⟨file, ts', values', rfl⟩ := hs.updates p hp
    obtain rfl : file.abspath = path := Option.some.inj hpath
    obtain rfl : T file.abspath = type := Option.some.inj htype
    obtain ⟨ds, hds⟩ := Option.ne_none_iff_exists'.mp hexists
    have hsources := hs.files _ ds hds
    simpa using ⟨ds, hsources, length_updateValues hvalues hsources⟩
  | writes => exact ⟨hs, by simp [Output.Fits]⟩

/-- If the broadcasts about each path are of one type, a file is only ever updated with the
layout that it was created for. -/
theorem run_fits {es : List Event} {os : List Output}
    (hfiles : ∀ path ds, s.files path = some ds → dataSources (T path) = some ds)
    (hqueues : s.creates = [] ∧ s.creating = [] ∧ s.updates = [])
    (hT : ∀ p ∈ es.filterMap Event.received, ∀ path, About s path p → p.type = T path)
    (hrun : Machine.run System.step s es = .ok (s', os)) :
    Fitting T s' ∧ ∀ o ∈ os, o.Fits T := by
  have hstart : Fitting T s := ⟨hfiles, by simp [hqueues], by simp [hqueues]⟩
  have hall : Keeps s s' ∧ Fitting T s' ∧ ∀ o ∈ os, o.Fits T := by
    refine Machine.run_outputs (l := []) (Q := (· ∈ es))
      (P := fun t os => Keeps s t ∧ Fitting T t ∧ ∀ o ∈ os, o.Fits T) ?_
      ⟨⟨rfl, rfl, fun _ h => h⟩, hstart, by simp⟩ (fun _ h => h) hrun
    rintro t e t' out os ⟨hkeeps, hfits, hos⟩ he hstep
    have hnext : Fitting T t' ∧ ∀ o ∈ out, o.Fits T := by
      cases hr : e.received with
      | none => exact (works_spec hr hstep).fits hfits
      | some p =>
        obtain ⟨unknown, rfl⟩ := Event.eq_receive hr
        refine (receive_spec hstep).fits hfits fun path hpath => ?_
        exact hT p (List.mem_filterMap.mpr ⟨_, he, rfl⟩) path (hkeeps.about_iff.mp hpath)
    refine ⟨hkeeps.trans (step_keeps hstep), hnext.1, fun o ho => ?_⟩
    exact (List.mem_append.mp ho).elim (hos o) (hnext.2 o)
  exact hall.2

end Layouts

end Bolo.Rrd
