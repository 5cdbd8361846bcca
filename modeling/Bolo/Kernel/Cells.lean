import Bolo.Kernel.Steps
import Bolo.Kernel.WellFormed

/-!
# One datapoint as a machine of its own

A datapoint reads the ticks, the submissions that name it and the FORGET requests whose
pattern matches it, and nothing else; its records and the broadcasts about it are a
function of these. The two components below make that precise, for windowed datapoints
and for states. They turn a statement about a run of the kernel into one about a run of a
single cell.
-/
namespace Bolo

open Library

variable {R Re : Type}

/-! ## Broadcasts about a datapoint -/

/-- The broadcasts that satisfy `q`. -/
def Effect.select (q : Pdu → Bool) : Effect → Option Pdu
  | .broadcast p => if q p then some p else none
  | _ => none

theorem select_broadcasts (q : Pdu → Bool) (out : List Pdu) :
    (out.map Effect.broadcast).filterMap (Effect.select q) = out.filter q := by
  rw [List.filterMap_map, ← List.filterMap_eq_filter]
  refine List.filterMap_congr fun p _ => ?_
  simp [Effect.select, Option.guard]

theorem select_quiet {q : Pdu → Bool} (hq : ∀ p, q p = true → p.type ≠ Tag.setKeys.text)
    {es : List Effect} (h : ∀ e ∈ es, e.Quiet) : es.filterMap (Effect.select q) = [] := by
  rw [List.filterMap_eq_nil_iff]
  intro e he
  have hquiet := h e he
  cases e with
  | broadcast p =>
    by_cases hp : q p = true
    · exact absurd hquiet (hq p hp)
    · simp [Effect.select, hp]
  | _ => rfl

def Kind.about (κ : Kind) (name : CString) (p : Pdu) : Bool :=
  p.type = κ.tag.text && p.string 2 = some name

def stateAbout (name : CString) (p : Pdu) : Bool :=
  (p.type = Tag.state.text || p.type = Tag.transition.text) && p.string 1 = some name

theorem Kind.about_iff {κ : Kind} {name : CString} {p : Pdu} :
    κ.about name p = true ↔ p.type = κ.tag.text ∧ p.string 2 = some name := by
  simp [Kind.about]

theorem stateAbout_iff {name : CString} {p : Pdu} :
    stateAbout name p = true ↔
      (p.type = Tag.state.text ∨ p.type = Tag.transition.text) ∧ p.string 1 = some name := by
  simp [stateAbout]

namespace Series

variable {α V : Type} (S : Series R Re α V) {x y : α} {out : List Pdu}

theorem broadcast_own {p : Pdu} (h : S.broadcast x = .ok p) :
    p.type = S.tag.text ∧ p.string 2 = S.name x := by
  obtain ⟨w, ts, name, -, -, hname, rfl⟩ := S.broadcast_spec h
  exact ⟨rfl, hname.symm⟩

theorem submit_own {ts : UInt32} {v : V} (h : S.submit x ts v = .ok (y, out)) :
    ∀ p ∈ out, p.type = S.tag.text ∧ p.string 2 = S.name x := by
  rcases S.submit_spec h with ⟨-, -, rfl⟩ | ⟨-, -, p, hp, rfl⟩
  · simp
  · simpa using S.broadcast_own hp

theorem close_own {b : Bool} {ts : Int32} (h : Table.gate (S.close ts) b x = .ok (y, out)) :
    ∀ p ∈ out, p.type = S.tag.text ∧ p.string 2 = S.name x := by
  unfold Table.gate at h
  split at h
  · rcases S.close_spec h with ⟨-, rfl⟩ | ⟨-, -, -, w, e, p, -, -, -, hp, rfl⟩
    · simp
    · simpa using S.broadcast_own hp
  · simp only [Except.ok.injEq, Prod.mk.injEq] at h
    simp [← h.2]

theorem cellReceive_own [Pcre Re] {rules : List (Rule Window Re)} {name : CString} {ts : UInt32}
    {v : V} {found c : Option α} (hr : ∀ r ∈ rules, ∃ w, r.target = some w)
    (hf : ∀ x, found = some x → S.Wf name x)
    (h : S.cellReceive rules name ts v found = .ok (c, out)) :
    ∀ p ∈ out, p.type = S.tag.text ∧ p.string 2 = some name := by
  unfold cellReceive at h
  split at h
  · simp only [Except.ok.injEq, Prod.mk.injEq] at h
    simp [← h.2]
  · case h_2 x hx =>
      have hwf := S.lookup_wf hr hf hx
      split at h
      · simp only [bind_eq_ok, pure_eq_ok, Prod.exists, Prod.mk.injEq] at h
        obtain ⟨y, out', hs, -, rfl⟩ := h
        simpa [hwf.name] using S.submit_own hs
      · simp only [Except.ok.injEq, Prod.mk.injEq] at h
        simp [← h.2]

end Series

theorem announce_own {b : Bool} {s : State} {out : List Pdu} (h : announce b s = .ok out) :
    ∀ p ∈ out, (p.type = Tag.state.text ∨ p.type = Tag.transition.text) ∧
      p.string 1 = s.name := by
  obtain ⟨frames, hf, rfl⟩ := announce_spec h
  obtain ⟨name, summary, hname, -, rfl⟩ := stateFrames_spec hf
  intro p hp
  cases b with
  | false =>
    obtain rfl : p = _ := by simpa using hp
    exact ⟨.inl rfl, hname.symm⟩
  | true =>
    rcases (by simpa using hp : p = _ ∨ p = _) with rfl | rfl
    · exact ⟨.inr rfl, hname.symm⟩
    · exact ⟨.inl rfl, hname.symm⟩

theorem cellReceiveState_own [Pcre Re] {now : Int32} {rules : List (Rule TypeDef Re)}
    {name : CString} {ts : UInt32} {code : UInt8} {msg : CString} {found c : Option State}
    {out : List Pdu} (hf : ∀ s, found = some s → s.name = some name)
    (h : cellReceiveState now rules name ts code msg found = .ok (c, out)) :
    ∀ p ∈ out, (p.type = Tag.state.text ∨ p.type = Tag.transition.text) ∧
      p.string 1 = some name := by
  simp only [cellReceiveState, bind_eq_ok] at h
  obtain ⟨r, hl, h⟩ := h
  cases r with
  | none =>
    simp only [pure_eq_ok, Prod.mk.injEq] at h
    simp [← h.2]
  | some s =>
    have hname : s.name = some name := lookupState_name hf hl
    simp only at h
    split at h
    · simp only [bind_eq_ok, pure_eq_ok, Prod.exists, Prod.mk.injEq] at h
      obtain ⟨s', out', hu, -, rfl⟩ := h
      obtain ⟨type, -, rfl, ha⟩ := updateState_spec hu
      simpa [hname] using announce_own ha
    · simp only [pure_eq_ok, Prod.mk.injEq] at h
      simp [← h.2]

theorem markStale_own {b : Bool} {now : Int32} {s s' : State} {out : List Pdu}
    (h : Table.gate (markStale now) b s = .ok (s', out)) :
    ∀ p ∈ out, (p.type = Tag.state.text ∨ p.type = Tag.transition.text) ∧
      p.string 1 = s.name := by
  unfold Table.gate at h
  split at h
  · rcases markStale_spec h with ⟨-, -, rfl⟩ | ⟨-, -, type, summary, -, -, rfl, ha⟩
    · simp
    · simpa using announce_own ha
  · simp only [Except.ok.injEq, Prod.mk.injEq] at h
    simp [← h.2]

/-! ## What a tick says about a datapoint -/

section Ticked

variable [Double R] {clock : Clock} {k k' : Kernel R Re} {es : List Effect}

theorem Ticked.series_own (tk : Ticked clock k k' es) (κ : Kind) :
    ∀ p ∈ tk.outSeries κ, p.type = κ.tag.text := by
  intro p hp
  obtain ⟨name, x, y, out, -, hclose, hout⟩ := Table.mem_sweep _ (tk.sweptSeries κ) hp
  simpa using (κ.series.close_own hclose p hout).1

theorem Ticked.states_own (tk : Ticked clock k k' es) :
    ∀ p ∈ tk.outStates, p.type = Tag.state.text ∨ p.type = Tag.transition.text := by
  intro p hp
  obtain ⟨name, s, s', out, -, hmark, hout⟩ := Table.mem_sweep _ tk.sweptStates hp
  exact (markStale_own hmark p hout).1

/-- The loops over other tables say nothing about a datapoint of kind `κ`. -/
theorem Ticked.select_series (tk : Ticked clock k k' es) (κ : Kind) (name : CString) :
    es.filterMap (Effect.select (κ.about name)) = (tk.outSeries κ).filter (κ.about name) := by
  have hquiet : ∀ p, κ.about name p = true → p.type ≠ Tag.setKeys.text := by
    intro p hp
    rw [(Kind.about_iff.mp hp).1]
    cases κ <;> simp [Kind.tag]
  have hother : ∀ κ' : Kind, κ' ≠ κ → (tk.outSeries κ').filter (κ.about name) = [] := by
    intro κ' hne
    rw [List.filter_eq_nil_iff]
    intro p hp habout
    have htype := (tk.series_own κ' p hp).symm.trans (Kind.about_iff.mp habout).1
    exact Kind.tag_ne hne (Tag.text_inj.mp htype)
  have hstates : tk.outStates.filter (κ.about name) = [] := by
    rw [List.filter_eq_nil_iff]
    intro p hp habout
    have htype := (Kind.about_iff.mp habout).1
    rcases tk.states_own p hp with h | h <;> rw [h, Tag.text_inj] at htype <;>
      cases κ <;> cases htype
  refine (congrArg _ tk.effects_eq).trans ?_
  simp only [List.filterMap_append, select_broadcasts, select_quiet hquiet tk.quietBeacons,
    select_quiet hquiet tk.quietSaved, List.filter_append, hstates, List.append_nil]
  cases κ with
  | counter => simp [hother .sample (by simp), hother .rate (by simp)]
  | sample => simp [hother .counter (by simp), hother .rate (by simp)]
  | rate => simp [hother .counter (by simp), hother .sample (by simp)]

theorem Ticked.select_states (tk : Ticked clock k k' es) (name : CString) :
    es.filterMap (Effect.select (stateAbout name)) = tk.outStates.filter (stateAbout name) := by
  have hquiet : ∀ p, stateAbout name p = true → p.type ≠ Tag.setKeys.text := by
    intro p hp
    rcases (stateAbout_iff.mp hp).1 with h | h <;> simp [h]
  have hother : ∀ κ : Kind, (tk.outSeries κ).filter (stateAbout name) = [] := by
    intro κ
    rw [List.filter_eq_nil_iff]
    intro p hp habout
    have htype := tk.series_own κ p hp
    rcases (stateAbout_iff.mp habout).1 with h | h <;> rw [h, Tag.text_inj] at htype <;>
      cases κ <;> cases htype
  refine (congrArg _ tk.effects_eq).trans ?_
  simp only [List.filterMap_append, select_broadcasts, select_quiet hquiet tk.quietBeacons,
    select_quiet hquiet tk.quietSaved, List.filter_append, hother, List.append_nil,
    List.nil_append]

end Ticked

/-! ## Windowed datapoints -/

/-- What a windowed datapoint is made of: its rules, the grace period and the tick timer,
and its record. -/
structure Cell (Re α : Type) where
  rules : List (Rule Window Re)
  grace : Int32
  timer : Timer
  found : Option α

/-- What a windowed datapoint reads. -/
inductive Msg (V : Type) where
  | tick (now : Int32)
  | submit (now : Int32) (ts : UInt32) (v : V)
  | forget (keep : Bool)

def Series.cell [Pcre Re] {α V : Type} (S : Series R Re α V) (name : CString)
    (c : Cell Re α) : Msg V → Except Fault (Cell Re α × List Pdu)
  | .tick now => do
    let (x, out) ← Table.visit (Table.gate (S.close (now - c.grace)) (c.timer.due now)) c.found
    return ({ c with timer := c.timer.fire now, found := x }, out)
  | .submit _ ts v => do
    let (x, out) ← S.cellReceive c.rules name ts v c.found
    return ({ c with found := x }, out)
  | .forget keep => .ok ({ c with found := if keep then c.found.map S.mark else none }, [])

theorem get?_forgetTable [Pcre Re] {α : Type} (re : Re) (ignore : UInt8) (mark : α → α)
    (t : Table CString α) (name : CString) :
    (forgetTable re ignore mark t).get? name =
      if Pcre.exec re name then (if ignore ≠ 0 then (t.get? name).map mark else none)
      else t.get? name := by
  unfold forgetTable
  by_cases hi : ignore = 0
  · by_cases he : Pcre.exec re name = true <;> simp [hi, he, Table.get?_filter]
  · by_cases he : Pcre.exec re name = true <;>
      cases hg : t.get? name <;> simp [hi, he, Table.get?_mapValues, hg]

namespace Kind

variable [Double R] (κ : Kind) (name : CString)

def cell (k : Kernel R Re) : Cell Re (κ.Record R) where
  rules := κ.series.rules k.db
  grace := k.server.config.gracePeriod
  timer := k.tick
  found := (κ.series.table k.db).get? name

variable (R Re) in
def view [Pcre Re] : Input → Option (Msg (κ.Value R))
  | .tock clock => some (.tick clock.now)
  | .listener now p =>
    if p.is κ.tag 4 κ.maxFrames then
      match (κ.series : Series R Re _ _).decode p with
      | some (n, ts, v) => if n = name then some (.submit now ts v) else none
      | none => none
    else none
  | .management p =>
    match (decodeForget p : Option (UInt16 × Re × UInt8)) with
    | some (payload, re, ignore) =>
      if payload &&& (κ.series : Series R Re _ _).payloadBit ≠ 0 ∧ Pcre.exec re name then
        some (.forget (ignore ≠ 0))
      else none
    | none => none

theorem cell_tock {clock : Clock} {k k' : Kernel R Re} {es : List Effect} [Pcre Re]
    (hwf : k.db.Wf) (h : tock clock k = .ok (k', es)) :
    κ.series.cell name (κ.cell name k) (.tick clock.now) =
      .ok (κ.cell name k', es.filterMap (Effect.select (κ.about name))) := by
  obtain ⟨tk⟩ := tock_spec h
  have hvisit := Table.visit_of_sweep _ κ.about (tk.sweptSeries κ) (fun n x y out hx hclose p hp
    n' => by
      have hown := κ.series.close_own hclose p hp
      rw [Kind.about_iff, hown.1, hown.2, (hwf.series κ n x hx).name]
      simp [eq_comm]) name
  rw [tk.select_series κ name]
  simp only [Series.cell, cell, hvisit, bind, Except.bind, pure, Except.pure, tk.rules_eq κ,
    tk.config_eq, tk.tick_eq]

/-- A handler of another kind of PDU leaves the datapoint alone and says nothing about it. -/
theorem cell_other {k : Kernel R Re} {db : Db R Re} {out : List Pdu}
    (htable : κ.series.table db = κ.series.table k.db)
    (hrules : κ.series.rules db = κ.series.rules k.db)
    (hout : ∀ q ∈ out, q.type ≠ κ.tag.text) :
    κ.cell name (k.setDb db) = κ.cell name k ∧
      (out.map Effect.broadcast).filterMap (Effect.select (κ.about name)) = [] := by
  constructor
  · simp [cell, Kernel.setDb, Kernel.db] at htable hrules ⊢
    simp [htable, hrules]
  · rw [select_broadcasts, List.filter_eq_nil_iff]
    intro q hq habout
    exact hout q hq (Kind.about_iff.mp habout).1

theorem cell_receive {now : Int32} {p : Pdu} {k : Kernel R Re} {db : Db R Re} {out : List Pdu}
    [Pcre Re] [HashOrder] (hwf : k.db.Wf) (hp : p.is κ.tag 4 κ.maxFrames)
    (h : κ.series.receive k.db p = .ok (db, out)) :
    match κ.view R Re name (.listener now p) with
    | none => κ.cell name (k.setDb db) = κ.cell name k ∧ out.filter (κ.about name) = []
    | some m => κ.series.cell name (κ.cell name k) m =
        .ok (κ.cell name (k.setDb db), out.filter (κ.about name)) := by
  simp only [view, hp, if_true]
  rcases κ.series.receive_spec h with ⟨hd, rfl, rfl⟩ | ⟨n, ts, v, c, t, hd, hc, rfl, ht⟩
  · simp [hd, Kernel.setDb, Kernel.db]
  · have hown := κ.series.cellReceive_own (hwf.rules κ) (hwf.series κ n) hc
    by_cases hn : n = name
    · subst hn
      have hall : out.filter (κ.about n) = out := by
        rw [List.filter_eq_self]
        intro q hq
        exact Kind.about_iff.mpr (by simpa using hown q hq)
      simp only [hd, if_true, Series.cell, cell, hc, bind, Except.bind, pure, Except.pure, hall]
      simp [Kernel.setDb, Kernel.db, ht]
    · have hnil : out.filter (κ.about name) = [] := by
        rw [List.filter_eq_nil_iff]
        intro q hq habout
        exact hn (by simpa [hown q hq] using (Kind.about_iff.mp habout).2)
      simp [hd, hn, hnil, cell, Kernel.setDb, Kernel.db, ht, Ne.symm hn]

theorem cell_listen {now : Int32} {p : Pdu} {k k' : Kernel R Re} {es : List Effect} [Pcre Re]
    [HashOrder] (hwf : k.db.Wf) (h : listen now p k = .ok (k', es)) :
    match κ.view R Re name (.listener now p) with
    | none => κ.cell name k' = κ.cell name k ∧ es.filterMap (Effect.select (κ.about name)) = []
    | some m => κ.series.cell name (κ.cell name k) m =
        .ok (κ.cell name k', es.filterMap (Effect.select (κ.about name))) := by
  have other {tag : Tag} {m n : Nat} (hp : p.is tag m n) (hne : tag ≠ κ.tag) :
      κ.view R Re name (.listener now p) = none := by
    simp [view, Pdu.is_of_ne hp hne]
  cases listen_spec h with
  | @state db out hp hr =>
    rw [other hp (by cases κ <;> simp [Kind.tag])]
    rcases receiveState_spec hr with ⟨-, rfl, rfl⟩ | ⟨n, ts, code, msg, c, t, -, hc, rfl, -⟩
    · exact cell_other κ name rfl rfl (by simp)
    · refine cell_other κ name (by cases κ <;> rfl) (by cases κ <;> rfl) fun q hq htype => ?_
      have hown := (cellReceiveState_own (fun s hs => (hwf.states n s hs).name) hc q hq).1
      rw [htype, Tag.text_inj, Tag.text_inj] at hown
      cases κ <;> simp [Kind.tag] at hown
  | @series db out κ' hp hr =>
    by_cases hκ : κ' = κ
    · subst hκ
      rw [select_broadcasts]
      exact cell_receive κ' name hwf hp hr
    · rw [other hp (Kind.tag_ne hκ)]
      rcases κ'.series.receive_spec hr with ⟨-, rfl, rfl⟩ | ⟨n, ts, v, c, t, -, hc, rfl, -⟩
      · exact cell_other κ name rfl rfl (by simp)
      · refine cell_other κ name (Kind.table_setTable_ne (Ne.symm hκ) _ _)
          (Kind.rules_setTable_ne _ _) fun q hq htype => ?_
        have hown := (κ'.series.cellReceive_own (hwf.rules κ') (hwf.series κ' n) hc q hq).1
        rw [htype, Kind.series_tag, Tag.text_inj] at hown
        exact Kind.tag_ne hκ hown.symm
  | @event db out hp hr =>
    rw [other hp (by cases κ <;> simp [Kind.tag])]
    obtain ⟨⟨events, count, rfl⟩, hown⟩ := receiveEvent_spec hr
    refine cell_other κ name (by cases κ <;> rfl) (by cases κ <;> rfl) fun q hq htype => ?_
    have htag := (hown q hq).symm.trans htype
    rw [Tag.text_inj] at htag
    cases κ <;> cases htag
  | setKeys hp =>
    rw [other hp (by cases κ <;> simp [Kind.tag])]
    exact ⟨rfl, rfl⟩
  | other hs hκ => simp [view, hκ κ]

theorem rules_forget [Pcre Re] (payload : UInt16) (re : Re) (ignore : UInt8) (db : Db R Re) :
    κ.series.rules (forget payload re ignore db) = κ.series.rules db := by
  cases κ <;> rfl

theorem get?_table_forget [Pcre Re] (payload : UInt16) (re : Re) (ignore : UInt8)
    (db : Db R Re) :
    (κ.series.table (forget payload re ignore db)).get? name =
      if payload &&& (κ.series : Series R Re _ _).payloadBit ≠ 0 ∧ Pcre.exec re name then
        (if ignore ≠ 0 then
          ((κ.series.table db).get? name).map (κ.series : Series R Re _ _).mark else none)
      else (κ.series.table db).get? name := by
  have htable : κ.series.table (forget payload re ignore db) =
      if payload &&& (κ.series : Series R Re _ _).payloadBit ≠ 0 then
        forgetTable re ignore (κ.series : Series R Re _ _).mark (κ.series.table db)
      else κ.series.table db := by
    cases κ <;> rfl
  rw [htable]
  by_cases hb : payload &&& (κ.series : Series R Re _ _).payloadBit = 0
  · simp [hb]
  · simp [hb, get?_forgetTable]

theorem cell_manage {p : Pdu} {k k' : Kernel R Re} {es : List Effect} [Pcre Re] [HashOrder]
    (h : reactor k (.management p) = .ok (k', es)) :
    match κ.view R Re name (.management p) with
    | none => κ.cell name k' = κ.cell name k ∧ es.filterMap (Effect.select (κ.about name)) = []
    | some m => κ.series.cell name (κ.cell name k) m =
        .ok (κ.cell name k', es.filterMap (Effect.select (κ.about name))) := by
  simp only [reactor, bind_eq_ok, pure_eq_ok, Prod.exists, Prod.mk.injEq] at h
  obtain ⟨s', es', hm, rfl, rfl⟩ := h
  obtain ⟨hconfig, hquiet, hdb⟩ := manage_spec hm
  have hnil : es'.filterMap (Effect.select (κ.about name)) = [] := by
    refine select_quiet (fun q hq => ?_) fun e he => (hquiet e he).quiet
    rw [(Kind.about_iff.mp hq).1]
    cases κ <;> simp [Kind.tag]
  simp only [hnil, view, cell, Kernel.db, hconfig, hdb, forgetBy]
  cases (decodeForget p : Option (UInt16 × Re × UInt8)) with
  | none => simp
  | some d =>
    obtain ⟨payload, re, ignore⟩ := d
    simp only [rules_forget κ, get?_table_forget κ]
    by_cases hmatch : payload &&& (κ.series : Series R Re _ _).payloadBit ≠ 0 ∧ Pcre.exec re name
    · simp [hmatch, Series.cell]
    · simp [hmatch]

/-- The windowed datapoint `name` of kind `κ`, as a component of the kernel. -/
def component [Pcre Re] [HashOrder] :
    Component (reactor : Kernel R Re → _) (Cell Re (κ.Record R)) (Msg (κ.Value R)) Pdu where
  inv k := k.db.Wf
  proj := κ.cell name
  view := κ.view R Re name
  obs := Effect.select (κ.about name)
  cell := κ.series.cell name
  inv_step := @reactor_wf R Re _ _ _
  skip {k i k' es} hwf hv h := by
    cases i with
    | tock clock => simp [view] at hv
    | listener now p => simpa [hv] using cell_listen κ name hwf h
    | management p => simpa [hv] using cell_manage κ name h
  act {k i m k' es} hwf hv h := by
    cases i with
    | tock clock =>
      obtain rfl : Msg.tick clock.now = m := by simpa [view] using hv
      exact cell_tock κ name hwf h
    | listener now p => simpa [hv] using cell_listen κ name hwf h
    | management p => simpa [hv] using cell_manage κ name h

end Kind

end Bolo
