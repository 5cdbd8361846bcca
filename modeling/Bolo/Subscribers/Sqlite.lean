import Bolo.Config.Loaded
import Bolo.Config.Reference
import Bolo.Kernel.StateCell
import Bolo.Subscribers.Broadcasts

/-!
# States and datapoints in a database

`bolo2sqlite` keeps two tables. A row of `states` has the latest report of a state and the
time since when it has had its status; a row of `datapoints` says between which times a
name was broadcast as a counter, a sample set or a rate. Both tables refuse a row whose
`last_seen` lies before its `first_seen`. A statement that is refused changes nothing, and is
reported on `stderr`.
-/
namespace Bolo.Sqlite

open Library Postgres

variable {R Re : Type}

/-! ## The statements -/

/-- A row of `states`, found by its name, which is unique. -/
structure StateRow where
  status : CString
  message : CString
  firstSeen : Int32
  lastSeen : Int32
  deriving DecidableEq

/-- A row of `datapoints`. -/
structure DatapointRow where
  name : CString
  type : CString
  firstSeen : Int32
  lastSeen : Int32
  deriving DecidableEq

/-- A statement that breaks a constraint of the schema. -/
inductive Failure where
  | updatingState
  | updatingDatapoint
  | insertingDatapoint
  deriving DecidableEq

/-- The tables, and what was printed on `stderr`. -/
structure Database where
  states : Table CString StateRow
  datapoints : List DatapointRow
  errors : List Failure

def empty : Database := { states := .empty, datapoints := [], errors := [] }

/-- `s_insert_state`: update the row of that name, or insert one. -/
def insertState (states : Table CString StateRow) (name ts code summary : CString) :
    Except Failure (Table CString StateRow) :=
  match states.get? name with
  | some row =>
    let firstSeen := if code = row.status then row.firstSeen else atoi ts
    -- CHECK (last_seen >= first_seen)
    if firstSeen ≤ atoi ts then
      .ok (states.set 0 name
        { status := code, message := summary, firstSeen := firstSeen, lastSeen := atoi ts })
    else .error .updatingState
  | none =>
    .ok (states.set 0 name
      { status := code, message := summary, firstSeen := atoi ts, lastSeen := atoi ts })

/-- `s_track_datapoint`: set `last_seen` in all rows of that name, whatever their type, and insert
a row if there is none. The type only matters then. No row has the name NULL, and none may. -/
def trackDatapoint (rows : List DatapointRow) (type ts : CString) :
    Option CString → Except Failure (List DatapointRow)
  | none => .error .insertingDatapoint
  | some name =>
    if rows.any fun r => r.name = name && atoi ts < r.firstSeen then .error .updatingDatapoint
    else if rows.any fun r => r.name = name then
      .ok (rows.map fun r => if r.name = name then { r with lastSeen := atoi ts } else r)
    else
      .ok (rows ++ [{ name := name, type := type, firstSeen := atoi ts, lastSeen := atoi ts }])

/-- What is in a table after a statement. -/
def attempt {α : Type} (old : α) : Except Failure α → α
  | .ok new => new
  | .error _ => old

/-- What a statement prints. -/
def complaint {α : Type} : Except Failure α → List Failure
  | .ok _ => []
  | .error e => [e]

/-- The loop of `main` on one broadcast. -/
def receive (db : Database) (p : Pdu) : Except Fault Database :=
  if p.type = Tag.state.text && p.size = 6 then do
    let name ← deref (p.string 1)
    let ts ← deref (p.string 2)
    let code ← deref (p.string 4)
    let summary ← deref (p.string 5)
    let result := insertState db.states name ts code summary
    return { db with
      states := attempt db.states result
      errors := db.errors ++ complaint result }
  else if p.type = Tag.sample.text || p.type = Tag.rate.text || p.type = Tag.counter.text then do
    let ts ← deref (p.string 1)
    let result := trackDatapoint db.datapoints p.type ts (p.string 2)
    return { db with
      datapoints := attempt db.datapoints result
      errors := db.errors ++ complaint result }
  else .ok db

/-! ## What a state's row sees -/

/-- A report of a state: time, status and summary. -/
structure Report where
  ts : Int32
  code : CString
  summary : CString
  deriving DecidableEq

/-- The report that a broadcast makes of the state `name`. -/
def reportOf (name : CString) (p : Pdu) : Option Report :=
  if p.type = Tag.state.text && p.size = 6 && p.string 1 = some name then do
    let ts ← p.string 2
    let code ← p.string 4
    let summary ← p.string 5
    return { ts := atoi ts, code := code, summary := summary }
  else none

/-- The row after a report. -/
def Report.enter (r : Report) : Option StateRow → StateRow
  | none => { status := r.code, message := r.summary, firstSeen := r.ts, lastSeen := r.ts }
  | some row =>
    let firstSeen := if r.code = row.status then row.firstSeen else r.ts
    if firstSeen ≤ r.ts then
      { status := r.code, message := r.summary, firstSeen := firstSeen, lastSeen := r.ts }
    else row

theorem get?_insertState (states : Table CString StateRow) (name ts code summary key : CString) :
    (attempt states (insertState states name ts code summary)).get? key =
      if key = name then some (Report.enter ⟨atoi ts, code, summary⟩ (states.get? name))
      else states.get? key := by
  unfold insertState Report.enter
  cases hrow : states.get? name with
  | none => simp [attempt, Table.get?_set]
  | some row =>
    by_cases hcheck : (if code = row.status then row.firstSeen else atoi ts) ≤ atoi ts
    · simp only [if_pos hcheck, attempt, Table.get?_set]
    · by_cases hkey : key = name <;>
        simp only [if_neg hcheck, attempt, hkey, hrow, if_true, if_false]

theorem receive_state {db db' : Database} {p : Pdu} (h : receive db p = .ok db') (name : CString) :
    db'.states.get? name = ((reportOf name p).map fun r => r.enter (db.states.get? name)).or
      (db.states.get? name) := by
  unfold receive at h
  split at h
  · case isTrue hp =>
      simp only [bind_eq_ok, pure_eq_ok, deref_eq_ok] at h
      obtain ⟨name', hname, ts, hts, code, hcode, summary, hsummary, rfl⟩ := h
      rw [get?_insertState]
      by_cases hsame : name' = name
      · subst hsame
        simp [reportOf, hp, hname, hts, hcode, hsummary]
      · simp [reportOf, hp, hname, hsame, Ne.symm hsame]
  · case isFalse hp =>
      have hnone : reportOf name p = none := by simp [reportOf, hp]
      rw [hnone, Option.map_none, Option.none_or]
      split at h
      · simp only [bind_eq_ok, pure_eq_ok] at h
        obtain ⟨ts, -, rfl⟩ := h
        rfl
      · rw [Except.ok.inj h]

/-- The row after the reports `rs`. -/
def rowAfter (rs : List Report) (row : Option StateRow) : Option StateRow :=
  rs.foldl (fun row r => some (r.enter row)) row

theorem rowAfter_append (rs rs' : List Report) (row : Option StateRow) :
    rowAfter (rs ++ rs') row = rowAfter rs' (rowAfter rs row) := List.foldl_append

/-- A state's row depends on the reports of that state alone. -/
theorem get?_states {ps : List Pdu} {db db' : Database} (h : ps.foldlM receive db = .ok db')
    (name : CString) :
    db'.states.get? name = rowAfter (ps.filterMap (reportOf name)) (db.states.get? name) := by
  induction ps generalizing db with
  | nil =>
    obtain rfl : db = db' := Except.ok.inj h
    rfl
  | cons p ps ih =>
    rw [List.foldlM_cons, bind_eq_ok] at h
    obtain ⟨db₁, hp, hps⟩ := h
    rw [ih hps, receive_state hp, List.filterMap_cons]
    cases reportOf name p <;> rfl

/-- A report of another status starts a row over; one of the same status moves its end, unless
it is older than its start. -/
theorem enter_some (r : Report) (row : StateRow) :
    r.enter (some row) =
      if r.code = row.status then
        if row.firstSeen ≤ r.ts then { row with message := r.summary, lastSeen := r.ts } else row
      else r.enter none := by
  unfold Report.enter
  by_cases hcode : r.code = row.status
  · simp only [hcode, if_true]
  · simp only [hcode, if_false, Int32.le_refl, if_true]

/-- A row passes the check of the schema. -/
def StateRow.Ordered (row : StateRow) : Prop := row.firstSeen ≤ row.lastSeen

theorem enter_ordered (r : Report) {row : Option StateRow} (h : ∀ x, row = some x → x.Ordered) :
    (r.enter row).Ordered := by
  cases row with
  | none => exact Int32.le_refl _
  | some x =>
    rw [enter_some]
    split
    · split
      · assumption
      · exact h x rfl
    · exact Int32.le_refl _

theorem rowAfter_ordered (rs : List Report) {row : Option StateRow}
    (h : ∀ x, row = some x → x.Ordered) : ∀ x, rowAfter rs row = some x → x.Ordered := by
  induction rs generalizing row with
  | nil => exact h
  | cons r rs ih =>
    refine ih fun x hx => ?_
    obtain rfl : r.enter row = x := Option.some.inj hx
    exact enter_ordered r h

theorem isSome_rowAfter (rs : List Report) : (rowAfter rs none).isSome ↔ rs ≠ [] := by
  rcases List.eq_nil_or_concat rs with rfl | ⟨front, r, rfl⟩
  · simp [rowAfter]
  · simp [rowAfter]

/-- A row that has the status of a report and starts after it, so that the report is refused. -/
def Clash (r : Report) (row : StateRow) : Prop := r.code = row.status ∧ r.ts < row.firstSeen

/-- One of the reports is refused. -/
def Refused (rs : List Report) : Prop :=
  ∃ front r row, front ++ [r] <+: rs ∧ rowAfter front none = some row ∧ Clash r row

theorem refused_concat {rs : List Report} {r : Report} :
    Refused (rs ++ [r]) ↔ Refused rs ∨ ∃ row, rowAfter rs none = some row ∧ Clash r row := by
  constructor
  · rintro ⟨front, x, row, hfront, hrow, hclash⟩
    rcases List.prefix_concat_iff.mp hfront with heq | hle
    · obtain ⟨rfl, hx⟩ := List.append_inj' heq rfl
      obtain rfl := List.singleton_inj.mp hx
      exact .inr ⟨row, hrow, hclash⟩
    · exact .inl ⟨front, x, row, hle, hrow, hclash⟩
  · rintro (⟨front, x, row, hle, hrow, hclash⟩ | ⟨row, hrow, hclash⟩)
    · exact ⟨front, x, row, hle.trans (List.prefix_append _ _), hrow, hclash⟩
    · exact ⟨rs, r, row, List.prefix_rfl, hrow, hclash⟩

theorem complaint_insertState {states : Table CString StateRow} {name ts code summary : CString} :
    Failure.updatingState ∈ complaint (insertState states name ts code summary) ↔
      ∃ row, states.get? name = some row ∧ Clash ⟨atoi ts, code, summary⟩ row := by
  unfold insertState
  cases states.get? name with
  | none => simp [complaint]
  | some row =>
    by_cases hcode : code = row.status
    · by_cases hle : row.firstSeen ≤ atoi ts
      · simp [hcode, hle, complaint, Clash, Int32.not_lt.mpr hle]
      · simp [hcode, hle, complaint, Clash, Int32.not_le.mp hle]
    · simp [hcode, complaint, Clash]

theorem complaint_trackDatapoint (rows : List DatapointRow) (type ts : CString)
    (name : Option CString) :
    Failure.updatingState ∉ complaint (trackDatapoint rows type ts name) := by
  unfold trackDatapoint
  split
  · simp [complaint]
  · split
    · simp [complaint]
    · split <;> simp [complaint]

/-- A broadcast makes a statement on the states fail if it is a report that is refused. -/
theorem receive_errors {db db' : Database} {p : Pdu} (h : receive db p = .ok db') :
    Failure.updatingState ∈ db'.errors ↔ Failure.updatingState ∈ db.errors ∨
      ∃ name r row, reportOf name p = some r ∧ db.states.get? name = some row ∧ Clash r row := by
  unfold receive at h
  split at h
  · case isTrue hp =>
      simp only [bind_eq_ok, pure_eq_ok, deref_eq_ok] at h
      obtain ⟨name, hname, ts, hts, code, hcode, summary, hsummary, rfl⟩ := h
      have hreport (key : CString) : reportOf key p =
          if name = key then some ⟨atoi ts, code, summary⟩ else none := by
        by_cases hkey : name = key <;> simp [reportOf, hp, hname, hts, hcode, hsummary, hkey]
      rw [List.mem_append, complaint_insertState]
      refine or_congr_right ⟨?_, ?_⟩
      · rintro ⟨row, hrow, hclash⟩
        exact ⟨name, _, row, by rw [hreport, if_pos rfl], hrow, hclash⟩
      · rintro ⟨key, r, row, hr, hrow, hclash⟩
        rw [hreport] at hr
        split at hr
        · case isTrue hkey =>
            obtain rfl := Option.some.inj hr
            exact ⟨row, hkey ▸ hrow, hclash⟩
        · cases hr
  · case isFalse hp =>
      have hnone (name : CString) : reportOf name p = none := by simp [reportOf, hp]
      split at h
      · simp only [bind_eq_ok, pure_eq_ok] at h
        obtain ⟨ts, -, rfl⟩ := h
        simp [hnone, complaint_trackDatapoint]
      · obtain rfl := Except.ok.inj h
        simp [hnone]

/-- A statement on the states fails exactly if a report is refused. -/
theorem errors_iff {ps : List Pdu} {db : Database} (h : ps.foldlM receive empty = .ok db) :
    Failure.updatingState ∈ db.errors ↔ ∃ name, Refused (ps.filterMap (reportOf name)) := by
  induction ps using List.reverseRecOn generalizing db with
  | nil =>
    obtain rfl : empty = db := Except.ok.inj h
    simp [empty, Refused]
  | append_singleton ps p ih =>
    rw [List.foldlM_append, bind_eq_ok] at h
    obtain ⟨db₁, hps, hp⟩ := h
    rw [List.foldlM_cons, bind_eq_ok] at hp
    obtain ⟨db₂, hp, hdb⟩ := hp
    obtain rfl : db₂ = db := Except.ok.inj hdb
    have hrow (name : CString) : db₁.states.get? name =
        rowAfter (ps.filterMap (reportOf name)) none := get?_states hps name
    rw [receive_errors hp, ih hps, ← exists_or]
    refine exists_congr fun name => ?_
    rw [List.filterMap_append]
    cases hr : reportOf name p with
    | none => simp [hr]
    | some r =>
      simp only [List.filterMap_cons_some hr, List.filterMap_nil, refused_concat, hrow]
      simp

/-- A last report that is not refused is not older than the start of the row. -/
theorem le_of_not_refused {rs : List Report} (h : ¬Refused rs) {r : Report}
    (hr : rs.getLast? = some r) {row : StateRow} (hrow : rowAfter rs none = some row) :
    row.firstSeen ≤ r.ts := by
  obtain ⟨front, rfl⟩ := List.getLast?_eq_some_iff.mp hr
  rw [refused_concat, not_or] at h
  rw [rowAfter_append] at hrow
  obtain rfl : r.enter (rowAfter front none) = row := Option.some.inj hrow
  cases hold : rowAfter front none with
  | none => exact Int32.le_refl _
  | some old =>
    rw [enter_some]
    split
    · case isTrue hcode =>
        have hle : old.firstSeen ≤ r.ts :=
          Int32.not_lt.mp fun hlt => h.2 ⟨old, hold, hcode, hlt⟩
        rwa [if_pos hle]
    · exact Int32.le_refl _

/-! ## The kernel behind it -/

/-- The row has the status of the kernel's record, and its message and time as well, unless the
record's time lies before the start of the row. -/
structure Agrees (s : State) (row : StateRow) : Prop where
  status : row.status = statstr s.status
  latest : row.firstSeen ≤ s.lastSeen → some row.message = s.summary ∧ row.lastSeen = s.lastSeen

/-- A report of a record brings its row up to date. -/
theorem agrees_enter {s : State} {summary : CString} (hs : s.summary = some summary)
    (row : Option StateRow) :
    Agrees s (Report.enter ⟨s.lastSeen, statstr s.status, summary⟩ row) := by
  cases row with
  | none => exact ⟨rfl, fun _ => ⟨hs.symm, rfl⟩⟩
  | some x =>
    rw [enter_some]
    split
    · case isTrue hcode =>
        split
        · exact ⟨hcode.symm, fun _ => ⟨hs.symm, rfl⟩⟩
        · case isFalse hold => exact ⟨hcode.symm, fun hle => absurd hle hold⟩
    · exact ⟨rfl, fun _ => ⟨hs.symm, rfl⟩⟩

/-- What an announcement tells about the state it names. -/
theorem reports_announce {b : Bool} {s : State} {name : CString} {out : List Pdu}
    (h : announce b s = .ok out) (hname : s.name = some name) :
    ∃ summary, s.summary = some summary ∧
      out.filterMap (reportOf name) = [⟨s.lastSeen, statstr s.status, summary⟩] := by
  obtain ⟨frames, hframes, rfl⟩ := announce_spec h
  obtain ⟨name', summary, hname', hsummary, rfl⟩ := stateFrames_spec hframes
  obtain rfl : name' = name := by simpa [hname] using hname'.symm
  refine ⟨summary, hsummary, ?_⟩
  have hother : reportOf name' { type := Tag.transition.text, frames :=
      [name', decimalInt s.lastSeen.toInt, freshstr s.stale, statstr s.status, summary] } =
      none := by
    simp [reportOf]
  have hstate : reportOf name' { type := Tag.state.text, frames :=
      [name', decimalInt s.lastSeen.toInt, freshstr s.stale, statstr s.status, summary] } =
      some ⟨s.lastSeen, statstr s.status, summary⟩ := by
    simp [reportOf, Pdu.size, Pdu.string, atoi_decimalInt]
  rw [List.filterMap_append, List.filterMap_cons_some hstate, List.filterMap_nil]
  cases b <;> simp [hother]

/-- The reports of a state are among the broadcasts about it. -/
theorem filterMap_reportOf (name : CString) (es : List Effect) :
    (broadcasts es).filterMap (reportOf name) =
      (es.filterMap (Effect.select (stateAbout name))).filterMap (reportOf name) := by
  rw [← filter_broadcasts, List.filterMap_filter]
  refine List.filterMap_congr fun p _ => ?_
  split
  · rfl
  · case isFalse habout =>
      simp only [reportOf]
      rw [if_neg]
      intro hp
      simp only [Bool.and_eq_true, decide_eq_true_eq] at hp
      exact habout (stateAbout_iff.mpr ⟨.inl hp.1.1, hp.2⟩)

/-- The report that a broadcast of the record makes. -/
def reported (s : State) : Option Report :=
  s.summary.map fun summary => ⟨s.lastSeen, statstr s.status, summary⟩

/-- The last report of a state, as far as there is one, is that of its record. -/
def Told (found : Option State) (rs : List Report) : Prop :=
  ∀ s r, found = some s → rs.getLast? = some r → reported s = some r

/-- Whatever the row was before, it agrees with the record after the last report. -/
theorem Told.agrees {found : Option State} {rs : List Report} (h : Told found rs) {s : State}
    (hs : found = some s) (hne : rs ≠ []) {row : Option StateRow} {x : StateRow}
    (hx : rowAfter rs row = some x) : Agrees s x := by
  obtain ⟨front, r, rfl⟩ := (List.eq_nil_or_concat rs).resolve_left hne
  rw [List.concat_eq_append] at h hx
  rw [rowAfter_append] at hx
  obtain rfl : r.enter (rowAfter front row) = x := Option.some.inj hx
  obtain ⟨summary, hsummary, rfl⟩ := Option.map_eq_some_iff.mp (h s r hs List.getLast?_concat)
  exact agrees_enter hsummary _

/-- Where no report was refused, the row has the message and the time of the record. -/
theorem Told.current {found : Option State} {rs : List Report} (h : Told found rs) {s : State}
    (hs : found = some s) (hne : rs ≠ []) {row : StateRow} (hrow : rowAfter rs none = some row)
    (hrefused : ¬Refused rs) : some row.message = s.summary ∧ row.lastSeen = s.lastSeen := by
  obtain ⟨r, hr⟩ := Option.isSome_iff_exists.mp (List.getLast?_isSome.mpr hne)
  obtain ⟨summary, -, hreport⟩ := Option.map_eq_some_iff.mp (h s r hs hr)
  have hle := le_of_not_refused hrefused hr hrow
  rw [← hreport] at hle
  exact (h.agrees hs hne hrow).latest hle

section Kernel

variable [Pcre Re]

theorem told_moves {name : CString} {c : StateCell Re} {m : StateMsg} {found : Option State}
    {out : List Pdu} {rs : List Report} (hc : ∀ s, c.found = some s → s.name = some name)
    (h : Told c.found rs) (hm : StateCell.Moves name c m found out) :
    Told found (rs ++ out.filterMap (reportOf name)) := by
  have announced {b : Bool} {s : State} (ha : announce b s = .ok out) (hs : s.name = some name) :
      Told (some s) (rs ++ out.filterMap (reportOf name)) := by
    obtain ⟨summary, hsummary, hreports⟩ := reports_announce ha hs
    rintro s r ⟨⟩ hr
    rw [hreports, List.getLast?_concat] at hr
    rw [reported, hsummary]
    exact hr
  cases hm with
  | stay => simpa using h
  | update _ hl _ ha =>
    have hname := lookupState_name hc hl
    exact announced ha hname
  | expire _ hf _ _ _ ha =>
    have hname := hc _ hf
    exact announced ha hname

variable [Double R] [HashOrder]

/-- Each step of the kernel that changes a record reports it. -/
theorem told_step (name : CString) {k k' : Kernel R Re} {i : Input} {es : List Effect}
    (hwf : k.db.Wf) {rs : List Report} (h : Told (k.db.states.get? name) rs)
    (hstep : reactor k i = .ok (k', es)) :
    Told (k'.db.states.get? name) (rs ++ (broadcasts es).filterMap (reportOf name)) := by
  rw [filterMap_reportOf]
  cases hv : StateCell.view Re name i with
  | none =>
    obtain ⟨hproj, hobs⟩ := (StateCell.component name).skip hwf hv hstep
    have hsame : k'.db.states.get? name = k.db.states.get? name := congrArg StateCell.found hproj
    change es.filterMap (Effect.select (stateAbout name)) = [] at hobs
    rw [hobs, hsame]
    simpa using h
  | some m =>
    have hact : StateCell.step name (StateCell.of name k) m =
        .ok (StateCell.of name k', es.filterMap (Effect.select (stateAbout name))) :=
      (StateCell.component name).act hwf hv hstep
    have hnamed (s : State) (hs : k.db.states.get? name = some s) : s.name = some name :=
      (hwf.states name s hs).name
    by_cases hforget : ∃ keep, m = .forget keep
    · obtain ⟨keep, rfl⟩ := hforget
      simp only [StateCell.step, Except.ok.injEq, Prod.mk.injEq] at hact
      obtain ⟨hcell, hout⟩ := hact
      have hfound := congrArg StateCell.found hcell
      change _ = k'.db.states.get? name at hfound
      rw [← hout, ← hfound]
      intro s r hs hr
      rw [List.filterMap_nil, List.append_nil] at hr
      cases keep with
      | false => simp at hs
      | true =>
        obtain ⟨s₀, hs₀, rfl⟩ := Option.map_eq_some_iff.mp hs
        exact h s₀ r hs₀ hr
    · have hm := (StateCell.step_moves name (not_exists.mp hforget) hact).2
      exact told_moves hnamed h hm

theorem told_run (name : CString) {k k' : Kernel R Re} {is : List Input} {es : List Effect}
    (hwf : k.db.Wf) (hrun : Machine.run reactor k is = .ok (k', es)) :
    Told (k'.db.states.get? name) ((broadcasts es).filterMap (reportOf name)) := by
  refine (Machine.run_outputs (P := fun k es => k.db.Wf ∧
      Told (k.db.states.get? name) ((broadcasts es).filterMap (reportOf name)))
    (Q := fun _ => True) (fun k i k' out l hk _ h => ⟨reactor_wf hk.1 h, ?_⟩) (l := [])
    ⟨hwf, fun s r _ hr => by cases hr⟩ (by simp) hrun).2
  rw [broadcasts_append, List.filterMap_append]
  exact told_step name hk.1 hk.2 h

omit [Pcre Re] [HashOrder] in
/-- No bulletin makes the program read a frame that is not there. -/
theorem receive_bulletin (db : Database) {p : Pdu} (h : Bulletin R p) :
    ∃ db', receive db p = .ok db' := by
  cases h with
  | state h =>
    obtain ⟨name, summary, -, -, rfl⟩ := stateFrames_spec h
    exact ⟨_, rfl⟩
  | transition h => exact ⟨db, by simp [receive]⟩
  | counter ts name c => exact ⟨_, rfl⟩
  | sample ts name s => exact ⟨_, rfl⟩
  | rate ts name w r => exact ⟨_, rfl⟩
  | event ts name extra => exact ⟨db, by simp [receive]⟩
  | keys hpos hle => exact ⟨db, by simp [receive]⟩

omit [Pcre Re] [HashOrder] in
theorem receive_bulletins (db : Database) {ps : List Pdu} (h : ∀ p ∈ ps, Bulletin R p) :
    ∃ db', ps.foldlM receive db = .ok db' := by
  induction ps generalizing db with
  | nil => exact ⟨db, rfl⟩
  | cons p ps ih =>
    obtain ⟨db₁, hp⟩ := receive_bulletin db (h p List.mem_cons_self)
    obtain ⟨db', hps⟩ := ih db₁ fun q hq => h q (List.mem_cons_of_mem _ hq)
    exact ⟨db', by rw [List.foldlM_cons, hp, ok_bind, hps]⟩

omit [Pcre Re] [HashOrder] in
theorem report_bulletin {p : Pdu} (h : Bulletin R p) (name : CString) :
    (reportOf name p).isSome ↔ p.type = Tag.state.text ∧ p.string 1 = some name := by
  cases h with
  | state h =>
    obtain ⟨name', summary, -, -, rfl⟩ := stateFrames_spec h
    by_cases hname : name' = name <;> simp [reportOf, Pdu.size, Pdu.string, hname]
  | _ => simp [reportOf]

omit [Pcre Re] [HashOrder] in
theorem reports_bulletins {ps : List Pdu} (h : ∀ p ∈ ps, Bulletin R p) (name : CString) :
    ps.filterMap (reportOf name) ≠ [] ↔
      ∃ p ∈ ps, p.type = Tag.state.text ∧ p.string 1 = some name := by
  rw [Ne, List.filterMap_eq_nil_iff]
  simp only [not_forall, exists_prop, ← Ne.eq_def, ← Option.isSome_iff_ne_none]
  exact exists_congr fun p => and_congr_right fun hp => report_bulletin (h p hp) name

/-- Whatever the kernel is sent, no frame is missed, and the row of each state that it has reported
keeps up with its record: the status always, the message and the time unless the record is older
than the start of the row, which it is not unless a report was refused. A statement on the states
fails exactly if a report has the status of its row and is older than the start of the row. A state
has a row exactly if it was reported, also after the kernel forgot it, and every row passes the
check of the schema. -/
theorem states_follow {clock : Nat → Int32} {file : List UInt8} {s : Server R Re}
    (hs : Configured clock file s) {k : Kernel R Re} {is : List Input} {es : List Effect}
    (hrun : Machine.run reactor (boot s) is = .ok (k, es)) :
    ∃ db, (broadcasts es).foldlM receive empty = .ok db ∧
      (Failure.updatingState ∈ db.errors ↔
        ∃ name, Refused ((broadcasts es).filterMap (reportOf name))) ∧
      ∀ name,
        ((db.states.get? name).isSome ↔
          ∃ p ∈ broadcasts es, p.type = Tag.state.text ∧ p.string 1 = some name) ∧
        ∀ row, db.states.get? name = some row → row.Ordered ∧
          ∀ st, k.db.states.get? name = some st → Agrees st row ∧
            (¬Refused ((broadcasts es).filterMap (reportOf name)) →
              some row.message = st.summary ∧ row.lastSeen = st.lastSeen) := by
  have hbulletins := run_bulletins hrun
  obtain ⟨db, hdb⟩ := receive_bulletins empty hbulletins
  refine ⟨db, hdb, errors_iff hdb, fun name => ?_⟩
  have hrow : db.states.get? name =
      rowAfter ((broadcasts es).filterMap (reportOf name)) none := get?_states hdb name
  rw [hrow]
  refine ⟨?_, fun row h => ⟨rowAfter_ordered _ (by simp) row h, fun st hst => ?_⟩⟩
  · rw [isSome_rowAfter]
    exact reports_bulletins hbulletins name
  · have htold := told_run name (k := boot s) hs.loaded.wf hrun
    have hne := (isSome_rowAfter _).mp (Option.isSome_of_eq_some h)
    exact ⟨htold.agrees hst hne h, htold.current hst hne h⟩

end Kernel

section Hosts

open Reference

/-- Two reports of a WARNING, the second one of them older than the first. -/
def twoWarnings : List Input :=
  [.listener 100 (pdu .state ["100", "web", "1", "slow"]),
   .listener 101 (pdu .state ["90", "web", "1", "slower"])]

theorem states_follow_hosts : ∃ (k : Kernel Int CString) (es : List Effect) (db : Database)
    (row : StateRow), Machine.run reactor (boot hosts) twoWarnings = .ok (k, es) ∧
      (broadcasts es).foldlM receive empty = .ok db ∧ db.states.get? (.lit "web") = some row ∧
      row.status = .lit "WARNING" ∧ row.Ordered := by
  have hweb : (Machine.run reactor (boot hosts) twoWarnings).map
      (fun r => (r.1.db.states.get? (.lit "web")).map State.status) = .ok (some 1) := by
    decide +kernel
  have hsent : (Machine.run reactor (boot hosts) twoWarnings).map
      (fun r => decide (pdu .state ["web", "100", "fresh", "WARNING", "slow"] ∈ broadcasts r.2)) =
      .ok true := by decide +kernel
  obtain ⟨⟨k, es⟩, hrun⟩ := exists_ok (x := Machine.run reactor (boot hosts) twoWarnings)
    (by decide +kernel)
  rw [hrun] at hweb hsent
  obtain ⟨st, hst, hstatus⟩ := Option.map_eq_some_iff.mp (Except.ok.inj hweb)
  obtain ⟨db, hdb, -, hrows⟩ := states_follow hosts_configured hrun
  obtain ⟨hsome, hrow⟩ := hrows (.lit "web")
  obtain ⟨row, hget⟩ := Option.isSome_iff_exists.mp
    (hsome.mpr ⟨_, of_decide_eq_true (Except.ok.inj hsent), rfl, rfl⟩)
  obtain ⟨hordered, hagrees⟩ := hrow row hget
  exact ⟨k, es, db, row, hrun, hdb, hget,
    (hagrees st hst).1.status.trans (by rw [hstatus]; decide), hordered⟩

end Hosts

/-! ## Since when -/

/-- The reports `rs` end with a streak of one status, which the row describes: the time of its
first report, and time and message of its last. -/
structure Since (rs : List Report) (row : StateRow) : Prop where
  streak : ∃ before first rest, rs = before ++ first :: rest ∧
    (∀ r ∈ first :: rest, r.code = row.status) ∧
    (∀ r ∈ before.getLast?, r.code ≠ row.status) ∧ row.firstSeen = first.ts
  last : ∃ r, rs.getLast? = some r ∧ row.lastSeen = r.ts ∧ row.message = r.summary

theorem since_enter_none (r : Report) (before : List Report)
    (h : ∀ x ∈ before.getLast?, x.code ≠ r.code) : Since (before ++ [r]) (r.enter none) where
  streak := ⟨before, r, [], rfl, by simp [Report.enter], h, rfl⟩
  last := ⟨r, List.getLast?_concat, rfl, rfl⟩

theorem since_rowAfter {rs : List Report} (hsorted : (rs.map Report.ts).Pairwise (· ≤ ·))
    {row : StateRow} (h : rowAfter rs none = some row) : Since rs row := by
  induction rs using List.reverseRecOn generalizing row with
  | nil => cases h
  | append_singleton rs r ih =>
    rw [List.map_append, List.pairwise_append] at hsorted
    obtain ⟨hsorted, -, hlater⟩ := hsorted
    rw [rowAfter_append] at h
    obtain rfl : r.enter (rowAfter rs none) = row := Option.some.inj h
    cases hold : rowAfter rs none with
    | none =>
      obtain rfl : rs = [] := by
        have := (isSome_rowAfter rs).not.mp (by simp [hold])
        simpa using this
      exact since_enter_none r [] (by simp)
    | some old =>
      obtain ⟨⟨before, first, rest, rfl, hcode, hbefore, hfirst⟩, x, hx, -, -⟩ := ih hsorted hold
      rw [enter_some]
      split
      · case isTrue hsame =>
          have hle : old.firstSeen ≤ r.ts := by
            rw [hfirst]
            exact hlater _ (by simp) _ (by simp)
          rw [if_pos hle]
          refine ⟨⟨before, first, rest ++ [r], by simp, ?_, hbefore, hfirst⟩, r,
            List.getLast?_concat, rfl, rfl⟩
          intro r' hr'
          rw [← List.cons_append, List.mem_append] at hr'
          rcases hr' with hr' | hr'
          · exact hcode r' hr'
          · exact List.mem_singleton.mp hr' ▸ hsame
      · case isFalse hdiff =>
          refine since_enter_none r _ fun y hy => ?_
          have hmem : y ∈ first :: rest := by
            rw [List.getLast?_append_of_ne_nil _ (List.cons_ne_nil first rest)] at hy
            exact List.mem_of_getLast? hy
          rw [hcode y hmem]
          exact Ne.symm hdiff

/-- Whatever else is broadcast, if the reports of a state come in the order of their times, its row
tells since when the state has had its status, and the latest of it. -/
theorem first_seen_since {ps : List Pdu} {db : Database} (h : ps.foldlM receive empty = .ok db)
    {name : CString}
    (hsorted : ((ps.filterMap (reportOf name)).map Report.ts).Pairwise (· ≤ ·)) {row : StateRow}
    (hrow : db.states.get? name = some row) : Since (ps.filterMap (reportOf name)) row :=
  since_rowAfter hsorted ((get?_states h name).symm.trans hrow)

section Hosts

open Reference

/-- A state is reported as OK, then twice as slow. -/
def slowing : List Pdu :=
  [pdu .state ["web", "10", "fresh", "OK", "up"], pdu .state ["db", "99", "fresh", "OK", "up"],
   pdu .state ["web", "20", "fresh", "WARNING", "slow"],
   pdu .state ["web", "30", "fresh", "WARNING", "slower"]]

theorem first_seen_since_hosts : ∃ db row, slowing.foldlM receive empty = .ok db ∧
    db.states.get? (.lit "web") = some row ∧ row.firstSeen = 20 ∧
    Since (slowing.filterMap (reportOf (.lit "web"))) row := by
  have hweb : (slowing.foldlM receive empty).map (fun db => db.states.get? (.lit "web")) =
      .ok (some ⟨.lit "WARNING", .lit "slower", 20, 30⟩) := by decide +kernel
  obtain ⟨db, hdb⟩ := exists_ok (x := slowing.foldlM receive empty) (by decide +kernel)
  rw [hdb] at hweb
  exact ⟨db, _, hdb, Except.ok.inj hweb, rfl,
    first_seen_since hdb (by decide +kernel) (Except.ok.inj hweb)⟩

end Hosts

/-! ## Datapoints -/

/-- A broadcast of a datapoint: its type and time. -/
structure Sighting where
  type : CString
  ts : Int32
  deriving DecidableEq

def sightingOf (name : CString) (p : Pdu) : Option Sighting :=
  if (p.type = Tag.sample.text || p.type = Tag.rate.text || p.type = Tag.counter.text) &&
      p.string 2 = some name then
    (p.string 1).map fun ts => { type := p.type, ts := atoi ts }
  else none

/-- What a broadcast makes of the rows of its name. -/
def Sighting.enter (name : CString) (rows : List DatapointRow) (x : Sighting) : List DatapointRow :=
  if rows.any fun r => x.ts < r.firstSeen then rows
  else if rows = [] then [{ name := name, type := x.type, firstSeen := x.ts, lastSeen := x.ts }]
  else rows.map fun r => { r with lastSeen := x.ts }

/-- The rows of a name. -/
def rowsOf (name : CString) (rows : List DatapointRow) : List DatapointRow :=
  rows.filter fun r => r.name = name

/-- An UPDATE of the rows of one name. -/
theorem rowsOf_update (rows : List DatapointRow) (name other : CString) (t : Int32) :
    rowsOf name (rows.map fun r => if r.name = other then { r with lastSeen := t } else r) =
      if other = name then (rowsOf name rows).map fun r => { r with lastSeen := t }
      else rowsOf name rows := by
  induction rows with
  | nil => simp [rowsOf]
  | cons r rows ih =>
    simp only [rowsOf] at ih ⊢
    rw [List.map_cons, List.filter_cons, ih, List.filter_cons]
    by_cases hother : r.name = other
    · by_cases hname : other = name <;> simp [hother, hname]
    · by_cases hname : r.name = name
      · simp [hname, show ¬name = other from hname ▸ hother, show ¬other = name from
          fun h => hother (hname.trans h.symm)]
      · by_cases hsame : other = name <;> simp [hother, hname, hsame]

/-- The rows of a name after a broadcast of that name. -/
theorem rowsOf_track (rows : List DatapointRow) (type ts name : CString) :
    rowsOf name (attempt rows (trackDatapoint rows type ts (some name))) =
      Sighting.enter name (rowsOf name rows) ⟨type, atoi ts⟩ := by
  have hany : ((rowsOf name rows).any fun r => atoi ts < r.firstSeen) =
      rows.any fun r => r.name = name && atoi ts < r.firstSeen := by
    simp only [rowsOf, List.any_filter]
  have hempty : rowsOf name rows = [] ↔ ¬(rows.any fun r => r.name = name) = true := by
    simp [rowsOf, List.filter_eq_nil_iff]
  simp only [trackDatapoint, Sighting.enter, hany]
  by_cases hcheck : (rows.any fun r => r.name = name && atoi ts < r.firstSeen) = true
  · simp only [hcheck, if_true, attempt]
  · by_cases hnil : rowsOf name rows = []
    · simp only [if_neg hcheck, if_neg (hempty.mp hnil), if_pos hnil, attempt]
      simp [rowsOf, List.filter_append, show rows.filter (fun r => r.name = name) = [] from hnil]
    · simp only [if_neg hcheck, if_pos (not_not.mp (hempty.not.mp hnil)), if_neg hnil, attempt,
        rowsOf_update, if_true]

/-- A broadcast of another name. -/
theorem rowsOf_track_ne (rows : List DatapointRow) (type ts : CString) {name : CString}
    {other : Option CString} (h : other ≠ some name) :
    rowsOf name (attempt rows (trackDatapoint rows type ts other)) = rowsOf name rows := by
  cases other with
  | none => rfl
  | some other =>
    have hne : other ≠ name := fun heq => h (heq ▸ rfl)
    unfold trackDatapoint
    dsimp only
    split
    · rfl
    · split
      · simp only [attempt, rowsOf_update, if_neg hne]
      · simp [attempt, rowsOf, hne]

theorem receive_datapoint {db db' : Database} {p : Pdu} (h : receive db p = .ok db')
    (name : CString) :
    rowsOf name db'.datapoints = ((sightingOf name p).map
      (Sighting.enter name (rowsOf name db.datapoints))).getD (rowsOf name db.datapoints) := by
  unfold receive at h
  split at h
  · case isTrue hp =>
      simp only [bind_eq_ok, pure_eq_ok, deref_eq_ok] at h
      obtain ⟨name', -, ts, -, code, -, summary, -, rfl⟩ := h
      have htype : p.type = Tag.state.text := by
        simp only [Bool.and_eq_true, decide_eq_true_eq] at hp
        exact hp.1
      simp [sightingOf, htype]
  · split at h
    · case isTrue hp =>
        simp only [bind_eq_ok, pure_eq_ok, deref_eq_ok] at h
        obtain ⟨ts, hts, rfl⟩ := h
        by_cases hname : p.string 2 = some name
        · have hsighting : sightingOf name p = some ⟨p.type, atoi ts⟩ := by
            simp only [sightingOf, hp, hname, hts, decide_true, Bool.and_self, if_true,
              Option.map_some]
          rw [hsighting, Option.map_some, Option.getD_some, hname, rowsOf_track]
        · have hnone : sightingOf name p = none := by simp [sightingOf, hname]
          rw [hnone, Option.map_none, Option.getD_none, rowsOf_track_ne _ _ _ hname]
    · case isFalse hp =>
        have hnone : sightingOf name p = none := by simp [sightingOf, hp]
        rw [hnone, ← Except.ok.inj h]
        rfl

/-- The one row of a name: its first type and time, and its last time that is not before. -/
def tracked (name : CString) : List Sighting → List DatapointRow
  | [] => []
  | first :: rest =>
    [{ name := name
       type := first.type
       firstSeen := first.ts
       lastSeen := ((rest.map Sighting.ts).filter (first.ts ≤ ·)).getLastD first.ts }]

theorem foldl_enter (name : CString) (xs : List Sighting) :
    xs.foldl (Sighting.enter name) [] = tracked name xs := by
  induction xs using List.reverseRecOn with
  | nil => rfl
  | append_singleton xs x ih =>
    rw [List.foldl_append, ih, List.foldl_cons, List.foldl_nil]
    cases xs with
    | nil => rfl
    | cons first rest =>
      by_cases hold : x.ts < first.ts
      · simp [tracked, Sighting.enter, hold, Int32.not_le.mpr hold]
      · simp [tracked, Sighting.enter, hold, Int32.not_lt.mp hold]

theorem rowsOf_receive {ps : List Pdu} {db₀ db : Database} (h : ps.foldlM receive db₀ = .ok db)
    (name : CString) : rowsOf name db.datapoints =
      (ps.filterMap (sightingOf name)).foldl (Sighting.enter name)
        (rowsOf name db₀.datapoints) := by
  induction ps generalizing db₀ with
  | nil =>
    obtain rfl : db₀ = db := Except.ok.inj h
    rfl
  | cons p ps ih =>
    rw [List.foldlM_cons, bind_eq_ok] at h
    obtain ⟨db₁, hp, hps⟩ := h
    rw [ih hps, receive_datapoint hp, List.filterMap_cons]
    cases sightingOf name p <;> rfl

/-- Whatever is broadcast, a name that was seen has one row, whatever types it was seen with: the
type and the time of the first broadcast, and the time of the last one that was not older than
the first. A name that was not seen has no row. -/
theorem datapoint_rows {ps : List Pdu} {db : Database} (h : ps.foldlM receive empty = .ok db)
    (name : CString) :
    rowsOf name db.datapoints = tracked name (ps.filterMap (sightingOf name)) :=
  (rowsOf_receive h name).trans (foldl_enter name _)

section Minutes

open Reference

/-- A name as a counter and, later and earlier, as a rate. -/
def twoTypes : List Pdu :=
  [pdu .counter ["60", "hits", "1"], pdu .rate ["120", "hits", "60", "2"],
   pdu .rate ["0", "hits", "60", "3"]]

theorem datapoint_rows_minutes : ∃ db, twoTypes.foldlM receive empty = .ok db ∧
    rowsOf (.lit "hits") db.datapoints = [⟨.lit "hits", .lit "COUNTER", 60, 120⟩] := by
  obtain ⟨db, hdb⟩ := exists_ok (x := twoTypes.foldlM receive empty) (by decide +kernel)
  exact ⟨db, hdb, (datapoint_rows hdb _).trans (by decide +kernel)⟩

end Minutes

end Bolo.Sqlite
