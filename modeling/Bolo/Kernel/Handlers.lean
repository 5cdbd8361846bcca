import Bolo.Kernel.Reactor

/-!
# What a handler can do

Each handler of a datapoint reads and writes one entry of one table. The lemmas here say
so once: they reduce a handler to a function on that entry alone, the `cell` functions,
and describe the new table by what it holds under each name.
-/
namespace Bolo

open Library

variable {R Re : Type}

/-! ## Windowed datapoints -/

namespace Series

variable {α V : Type} (S : Series R Re α V)

theorem broadcast_spec {x : α} {p : Pdu} (h : S.broadcast x = .ok p) :
    ∃ w ts name, S.window x = some w ∧ winstart w.time (S.lastSeen x) = .ok ts ∧
      S.name x = some name ∧
      p = { type := S.tag.text, frames := decimal ts.toUInt32.toNat :: name :: S.payload w x } := by
  simp only [broadcast, broadcastWindow, bind_eq_ok, pure_eq_ok, deref_eq_ok] at h
  obtain ⟨w, hw, ts, hts, name, hname, rfl⟩ := h
  exact ⟨w, ts, name, hw, hts, hname, rfl⟩

/-- A submission stays in the open window, or closes it first. -/
theorem submit_spec {x y : α} {ts : UInt32} {v : V} {out : List Pdu}
    (h : S.submit x ts v = .ok (y, out)) :
    (S.rollover x ts = .ok false ∧ y = S.update ts v x ∧ out = []) ∨
      (S.rollover x ts = .ok true ∧ y = S.update ts v (S.reset x) ∧
        ∃ p, S.broadcast x = .ok p ∧ out = [p]) := by
  simp only [submit, bind_eq_ok] at h
  obtain ⟨b, hb, h⟩ := h
  cases b with
  | false =>
    simp only [Bool.false_eq_true, if_false, pure_eq_ok, Prod.mk.injEq] at h
    exact .inl ⟨hb, h.1.symm, h.2.symm⟩
  | true =>
    simp only [if_true, bind_eq_ok, pure_eq_ok, Prod.mk.injEq] at h
    obtain ⟨p, hp, rfl, rfl⟩ := h
    exact .inr ⟨hb, rfl, p, hp, rfl⟩

/-- The tick leaves a record alone, or closes a window that is open and over. -/
theorem close_spec {x y : α} {ts : Int32} {out : List Pdu} (h : S.close ts x = .ok (y, out)) :
    (y = x ∧ out = []) ∨
      (S.ignore x = 0 ∧ S.lastSeen x ≠ 0 ∧ y = S.reset x ∧ ∃ w e p, S.window x = some w ∧
        winend w.time (S.lastSeen x) = .ok e ∧ e < ts ∧ S.broadcast x = .ok p ∧ out = [p]) := by
  unfold close at h
  split at h
  · simp only [Except.ok.injEq, Prod.mk.injEq] at h
    exact .inl ⟨h.1.symm, h.2.symm⟩
  · case isFalse hopen =>
      simp only [bind_eq_ok, deref_eq_ok] at h
      obtain ⟨w, hw, e, he, h⟩ := h
      split at h
      · simp only [pure_eq_ok, Prod.mk.injEq] at h
        exact .inl ⟨h.1.symm, h.2.symm⟩
      · case isFalse hover =>
          simp only [bind_eq_ok, pure_eq_ok, Prod.mk.injEq] at h
          obtain ⟨p, hp, rfl, rfl⟩ := h
          simp only [not_or, not_not] at hopen
          exact .inr ⟨hopen.1, hopen.2, rfl, w, e, p, hw, he, Int32.not_le.mp hover, hp, rfl⟩

/-- A submission to `name`, seen from what the table holds under `name`. -/
def cellReceive [Pcre Re] (rules : List (Rule Window Re)) (name : CString) (ts : UInt32) (v : V)
    (found : Option α) : Except Fault (Option α × List Pdu) :=
  match lookup S.blank rules name found with
  | none => .ok (none, [])
  | some x =>
    if S.ignore x = 0 then do
      let (y, out) ← S.submit x ts v
      return (some y, out)
    else .ok (some x, [])

theorem find_spec [Pcre Re] [HashOrder] (db : Db R Re) (name : CString) :
    match S.find db name with
    | none => lookup S.blank (S.rules db) name ((S.table db).get? name) = none
    | some (x, db') => ∃ t, db' = S.setTable db t ∧
        lookup S.blank (S.rules db) name ((S.table db).get? name) = some x ∧
        ∀ k, t.get? k = if k = name then some x else (S.table db).get? k := by
  have h := Bolo.find_spec S.blank (S.rules db) (S.table db) name
  unfold find
  cases hf : Bolo.find S.blank (S.rules db) (S.table db) name with
  | none => simpa [hf] using h
  | some r =>
    rw [hf] at h
    exact ⟨r.2, rfl, h.1, h.2⟩

theorem lookup_eq_none {β τ : Type} [Pcre Re] {blank : CString → Option τ → β}
    {rules : List (Rule τ Re)} {name : CString} {found : Option β}
    (h : lookup blank rules name found = none) : found = none := by
  cases found with
  | none => rfl
  | some x => simp [lookup] at h

/-- A PDU that decodes writes the entry of its name, and only that; any other PDU does
nothing. -/
theorem receive_spec [Pcre Re] [HashOrder] {db db' : Db R Re} {p : Pdu} {out : List Pdu}
    (h : S.receive db p = .ok (db', out)) :
    (S.decode p = none ∧ db' = db ∧ out = []) ∨
      ∃ name ts v c t, S.decode p = some (name, ts, v) ∧
        S.cellReceive (S.rules db) name ts v ((S.table db).get? name) = .ok (c, out) ∧
        db' = S.setTable db t ∧
        ∀ k, t.get? k = if k = name then c else (S.table db).get? k := by
  unfold receive at h
  cases hd : S.decode p with
  | none =>
    simp only [hd, Except.ok.injEq, Prod.mk.injEq] at h
    exact .inl ⟨rfl, h.1.symm, h.2.symm⟩
  | some d =>
    obtain ⟨name, ts, v⟩ := d
    refine .inr ⟨name, ts, v, ?_⟩
    have hfind := S.find_spec db name
    simp only [hd] at h
    unfold cellReceive
    cases hf : S.find db name with
    | none =>
      rw [hf] at hfind
      simp only [hf, Except.ok.injEq, Prod.mk.injEq] at h
      refine ⟨none, S.table db, rfl, by simp [hfind, h.2], by simp [← h.1], fun k => ?_⟩
      by_cases hk : k = name
      · simp [hk, lookup_eq_none hfind]
      · simp [hk]
    | some r =>
      obtain ⟨x, db₁⟩ := r
      rw [hf] at hfind
      obtain ⟨t, rfl, hl, ht⟩ := hfind
      simp only [hf] at h
      by_cases hi : S.ignore x = 0
      · simp only [hi, if_true, bind_eq_ok, pure_eq_ok, Prod.exists, Prod.mk.injEq] at h
        obtain ⟨y, out', hs, rfl, rfl⟩ := h
        refine ⟨some y, hashSet t name y, rfl, ?_, by simp, fun k => ?_⟩
        · simp [hl, hi, hs, bind, Except.bind, pure, Except.pure]
        · by_cases hk : k = name <;> simp [hk, ht]
      · simp only [hi, if_false, Except.ok.injEq, Prod.mk.injEq] at h
        exact ⟨some x, t, rfl, by simp [hl, hi, h.2], h.1.symm, ht⟩

/-- A PDU whose effect on its entry is defined is handled. -/
theorem receive_complete [Pcre Re] [HashOrder] {db : Db R Re} {p : Pdu} {name : CString}
    {ts : UInt32} {v : V} {c : Option α} {out : List Pdu} (hd : S.decode p = some (name, ts, v))
    (h : S.cellReceive (S.rules db) name ts v ((S.table db).get? name) = .ok (c, out)) :
    ∃ db', S.receive db p = .ok (db', out) := by
  have hfind := S.find_spec db name
  unfold receive
  unfold cellReceive at h
  simp only [hd]
  cases hf : S.find db name with
  | none =>
    rw [hf] at hfind
    simp only [hfind, Except.ok.injEq, Prod.mk.injEq] at h
    exact ⟨db, by rw [← h.2]⟩
  | some r =>
    obtain ⟨x, db₁⟩ := r
    rw [hf] at hfind
    obtain ⟨t, rfl, hl, -⟩ := hfind
    simp only [hl] at h
    by_cases hi : S.ignore x = 0
    · simp only [hi, if_true, bind_eq_ok, pure_eq_ok, Prod.exists, Prod.mk.injEq] at h ⊢
      obtain ⟨y, out', hs, rfl, rfl⟩ := h
      exact ⟨_, y, out', hs, rfl, rfl⟩
    · simp only [hi, if_false, Except.ok.injEq, Prod.mk.injEq] at h ⊢
      exact ⟨_, rfl, h.2⟩

/-- A submission to a named record is taken in, where the window arithmetic is defined. -/
theorem submit_complete {x : α} {n : CString} {ts : UInt32} {closed : Bool} (v : V)
    (hname : S.name x = some n) (hroll : S.rollover x ts = .ok closed) :
    ∃ out, S.submit x ts v = .ok (S.update ts v (if closed then S.reset x else x), out) := by
  simp only [submit, hroll, ok_bind]
  cases closed with
  | false => exact ⟨_, rfl⟩
  | true =>
    have hwindow : ∃ w a, S.window x = some w ∧ winstart w.time (S.lastSeen x) = .ok a := by
      unfold rollover at hroll
      split at hroll
      · simp only [bind_eq_ok, deref_eq_ok] at hroll
        obtain ⟨w, hw, a, ha, -⟩ := hroll
        exact ⟨w, a, hw, ha⟩
      · simp at hroll
    obtain ⟨w, a, hw, ha⟩ := hwindow
    simp only [broadcast, broadcastWindow, hw, deref_some, ha, hname, ok_bind]
    exact ⟨_, rfl⟩

theorem receive_taken [Pcre Re] [HashOrder] {db : Db R Re} {p : Pdu} {name n : CString}
    {ts : UInt32} {v : V} {x : α} {closed : Bool} (hd : S.decode p = some (name, ts, v))
    (hfound : lookup S.blank (S.rules db) name ((S.table db).get? name) = some x)
    (hignore : S.ignore x = 0) (hname : S.name x = some n)
    (hroll : S.rollover x ts = .ok closed) :
    ∃ db' out, S.receive db p = .ok (db', out) ∧
      (S.table db').get? name = some (S.update ts v (if closed then S.reset x else x)) := by
  obtain ⟨out, hsubmit⟩ := S.submit_complete v hname hroll
  have hcell : S.cellReceive (S.rules db) name ts v ((S.table db).get? name) =
      .ok (some (S.update ts v (if closed then S.reset x else x)), out) := by
    simp only [cellReceive, hfound, hignore, if_true, hsubmit, ok_bind]
    rfl
  obtain ⟨db', hreceive⟩ := S.receive_complete hd hcell
  refine ⟨db', out, hreceive, ?_⟩
  rcases S.receive_spec hreceive with ⟨hnone, -⟩ | ⟨name', ts', v', c, t, hd', hc, rfl, ht⟩
  · rw [hd] at hnone
    cases hnone
  · obtain ⟨rfl, rfl, rfl⟩ : name = name' ∧ ts = ts' ∧ v = v' := by simpa [hd] using hd'
    rw [hcell] at hc
    simp_all

theorem tick_spec {ts : Int32} {db db' : Db R Re} {out : List Pdu}
    (h : S.tick ts db = .ok (db', out)) :
    ∃ t, (S.table db).sweep (S.close ts) = .ok (t, out) ∧ db' = S.setTable db t := by
  simp only [tick, bind_eq_ok, pure_eq_ok, Prod.exists, Prod.mk.injEq] at h
  obtain ⟨t, out', hs, rfl, rfl⟩ := h
  exact ⟨t, hs, rfl⟩

end Series

/-! ## States -/

theorem stateFrames_spec {s : State} {frames : List CString} (h : stateFrames s = .ok frames) :
    ∃ name summary, s.name = some name ∧ s.summary = some summary ∧
      frames = [name, decimalInt s.lastSeen.toInt, freshstr s.stale, statstr s.status,
        summary] := by
  simp only [stateFrames, bind_eq_ok, pure_eq_ok, deref_eq_ok] at h
  obtain ⟨name, hname, summary, hsummary, rfl⟩ := h
  exact ⟨name, summary, hname, hsummary, rfl⟩

theorem announce_spec {b : Bool} {s : State} {out : List Pdu} (h : announce b s = .ok out) :
    ∃ frames, stateFrames s = .ok frames ∧
      out = (if b then [{ type := Tag.transition.text, frames := frames }] else []) ++
        [{ type := Tag.state.text, frames := frames }] := by
  unfold announce broadcastState broadcastTransition at h
  cases b with
  | false =>
    simp only [Bool.false_eq_true, if_false, bind_eq_ok, pure_eq_ok] at h
    obtain ⟨_, ⟨frames, hf, rfl⟩, rfl⟩ := h
    exact ⟨frames, hf, rfl⟩
  | true =>
    simp only [if_true, bind_eq_ok, pure_eq_ok] at h
    obtain ⟨_, ⟨frames, hf, rfl⟩, _, ⟨frames', hf', rfl⟩, rfl⟩ := h
    obtain rfl : frames = frames' := by simpa [hf] using hf'
    exact ⟨frames, hf, rfl⟩

theorem updateState_spec {s s' : State} {ts : UInt32} {code : UInt8} {msg : CString}
    {out : List Pdu} (h : updateState s ts code msg = .ok (s', out)) :
    ∃ type, s.type = some type ∧
      s' = { s with
        status := code, summary := some msg, lastSeen := ts.toInt32, expiry := expiryAt ts type,
        stale := 0 } ∧
      announce (s.stale ≠ 0 || s.status ≠ code) s' = .ok out := by
  simp only [updateState, bind_eq_ok, pure_eq_ok, deref_eq_ok, Prod.mk.injEq] at h
  obtain ⟨type, ht, out', ha, rfl, rfl⟩ := h
  exact ⟨type, ht, rfl, ha⟩

theorem markStale_spec {now : Int32} {s s' : State} {out : List Pdu}
    (h : markStale now s = .ok (s', out)) :
    ((now < s.expiry ∨ s.ignore ≠ 0) ∧ s' = s ∧ out = []) ∨
      (s.expiry ≤ now ∧ s.ignore = 0 ∧ ∃ type summary, s.type = some type ∧
        type.summary = some summary ∧
        s' = { s with
          stale := 1, expiry := now + Int32.ofNat type.freshness.toNat, status := type.status,
          summary := some summary } ∧
        announce (s.stale = 0 || s.status ≠ type.status) s' = .ok out) := by
  unfold markStale at h
  split at h
  · case isTrue hlive =>
      simp only [Except.ok.injEq, Prod.mk.injEq] at h
      exact .inl ⟨hlive, h.1.symm, h.2.symm⟩
  · case isFalse hlive =>
      simp only [bind_eq_ok, pure_eq_ok, deref_eq_ok, Prod.mk.injEq] at h
      obtain ⟨type, ht, summary, hs, out', ha, rfl, rfl⟩ := h
      simp only [not_or, not_not] at hlive
      exact .inr ⟨Int32.not_lt.mp hlive.1, hlive.2, type, summary, ht, hs, rfl, ha⟩

/-- The state a submission at clock reading `now` finds or would create. -/
def lookupState [Pcre Re] (now : Int32) (rules : List (Rule TypeDef Re)) (name : CString)
    (found : Option State) : Except Fault (Option State) :=
  match found with
  | some s => .ok (some s)
  | none =>
    match firstMatch rules name with
    | none => .ok none
    | some target => do
      let type ← deref target
      return some (State.blank now name type)

theorem lookupState_name [Pcre Re] {now : Int32} {rules : List (Rule TypeDef Re)}
    {name : CString} {found : Option State} {s : State}
    (hf : ∀ s, found = some s → s.name = some name)
    (h : lookupState now rules name found = .ok (some s)) : s.name = some name := by
  unfold lookupState at h
  split at h
  · case h_1 s' =>
      obtain rfl : s' = s := by simpa using h
      exact hf s' rfl
  · split at h
    · simp at h
    · simp only [bind_eq_ok, pure_eq_ok, Option.some.injEq] at h
      obtain ⟨type, -, rfl⟩ := h
      rfl

/-- A submission to `name`, seen from what the table holds under `name`. -/
def cellReceiveState [Pcre Re] (now : Int32) (rules : List (Rule TypeDef Re)) (name : CString)
    (ts : UInt32) (code : UInt8) (msg : CString) (found : Option State) :
    Except Fault (Option State × List Pdu) := do
  match ← lookupState now rules name found with
  | none => return (none, [])
  | some s =>
    if s.ignore = 0 then
      let (s', out) ← updateState s ts code msg
      return (some s', out)
    else return (some s, [])

theorem findState_spec [Pcre Re] [HashOrder] {now : Int32} {db : Db R Re} {name : CString}
    {r : Option (State × Db R Re)} (h : findState now db name = .ok r) :
    lookupState now db.stateMatches name (db.states.get? name) = .ok (r.map Prod.fst) ∧
      match r with
      | none => db.states.get? name = none
      | some (s, db') => ∃ t, db' = { db with states := t } ∧
          ∀ k, t.get? k = if k = name then some s else db.states.get? k := by
  unfold findState at h
  unfold lookupState
  cases hg : db.states.get? name with
  | some s =>
    simp only [hg, Except.ok.injEq] at h
    subst h
    refine ⟨rfl, db.states, rfl, fun k => ?_⟩
    by_cases hk : k = name <;> simp [hk, hg]
  | none =>
    cases hm : firstMatch db.stateMatches name with
    | none =>
      simp only [hg, hm, Except.ok.injEq] at h
      subst h
      exact ⟨rfl, rfl⟩
    | some target =>
      simp only [hg, hm, bind_eq_ok, pure_eq_ok] at h
      obtain ⟨type, hd, rfl⟩ := h
      refine ⟨by simp [hd, bind, Except.bind, pure, Except.pure], _, rfl, fun k => ?_⟩
      simp

theorem receiveState_spec [Pcre Re] [HashOrder] {now : Int32} {db db' : Db R Re} {p : Pdu}
    {out : List Pdu} (h : receiveState now db p = .ok (db', out)) :
    (decodeState p = none ∧ db' = db ∧ out = []) ∨
      ∃ name ts code msg c t, decodeState p = some (name, ts, code, msg) ∧
        cellReceiveState now db.stateMatches name ts code msg (db.states.get? name) =
          .ok (c, out) ∧
        db' = { db with states := t } ∧
        ∀ k, t.get? k = if k = name then c else db.states.get? k := by
  unfold receiveState at h
  cases hd : decodeState p with
  | none =>
    simp only [hd, Except.ok.injEq, Prod.mk.injEq] at h
    exact .inl ⟨rfl, h.1.symm, h.2.symm⟩
  | some d =>
    obtain ⟨name, ts, code, msg⟩ := d
    refine .inr ⟨name, ts, code, msg, ?_⟩
    simp only [hd, bind_eq_ok] at h
    obtain ⟨r, hf, h⟩ := h
    obtain ⟨hl, hfind⟩ := findState_spec hf
    unfold cellReceiveState
    simp only [hl, bind_eq_ok]
    cases r with
    | none =>
      simp only [pure_eq_ok, Prod.mk.injEq] at h
      refine ⟨none, db.states, trivial, ⟨_, rfl, by simp [h.2, pure, Except.pure]⟩, by simp [← h.1],
        fun k => ?_⟩
      by_cases hk : k = name
      · simpa [hk] using hfind
      · simp [hk]
    | some r =>
      obtain ⟨s, db₁⟩ := r
      obtain ⟨t, rfl, ht⟩ := hfind
      by_cases hi : s.ignore = 0
      · simp only [hi, if_true, bind_eq_ok, pure_eq_ok, Prod.exists, Prod.mk.injEq] at h
        obtain ⟨s', out', hu, rfl, rfl⟩ := h
        refine ⟨some s', hashSet t name s', trivial, ⟨_, rfl, ?_⟩, rfl, fun k => ?_⟩
        · simp [hi, hu, bind, Except.bind, pure, Except.pure]
        · by_cases hk : k = name <;> simp [hk, ht]
      · simp only [hi, if_false, pure_eq_ok, Prod.mk.injEq] at h
        exact ⟨some s, t, trivial, ⟨_, rfl, by simp [hi, h.2, pure, Except.pure]⟩, h.1.symm, ht⟩

theorem receiveState_complete [Pcre Re] [HashOrder] {now : Int32} {db : Db R Re} {p : Pdu}
    {name : CString} {ts : UInt32} {code : UInt8} {msg : CString} {c : Option State}
    {out : List Pdu} (hd : decodeState p = some (name, ts, code, msg))
    (h : cellReceiveState now db.stateMatches name ts code msg (db.states.get? name) =
      .ok (c, out)) : ∃ db', receiveState now db p = .ok (db', out) := by
  simp only [cellReceiveState, bind_eq_ok] at h
  obtain ⟨r, hl, h⟩ := h
  have hfind : ∃ q, findState now db name = .ok q ∧ q.map Prod.fst = r := by
    unfold lookupState at hl
    unfold findState
    cases hg : db.states.get? name with
    | some s => exact ⟨_, rfl, by simpa [hg] using hl⟩
    | none =>
      cases hm : firstMatch db.stateMatches name with
      | none => exact ⟨_, rfl, by simpa [hg, hm] using hl⟩
      | some target =>
        simp only [hg, hm, bind_eq_ok, pure_eq_ok] at hl ⊢
        obtain ⟨type, ht, rfl⟩ := hl
        exact ⟨_, ⟨type, ht, rfl⟩, rfl⟩
  obtain ⟨q, hq, rfl⟩ := hfind
  simp only [receiveState, hd, bind_eq_ok]
  cases q with
  | none =>
    simp only [Option.map_none, pure_eq_ok, Prod.mk.injEq] at h
    exact ⟨db, none, hq, by simp [pure_eq_ok, h.2]⟩
  | some q =>
    obtain ⟨s, db₁⟩ := q
    simp only [Option.map_some] at h
    by_cases hi : s.ignore = 0
    · simp only [hi, if_true, bind_eq_ok, pure_eq_ok, Prod.exists, Prod.mk.injEq] at h
      obtain ⟨s', out', hu, -, rfl⟩ := h
      refine ⟨{ db₁ with states := hashSet db₁.states name s' }, _, hq, ?_⟩
      simp only [hi, if_true, bind_eq_ok, pure_eq_ok, Prod.exists, Prod.mk.injEq]
      exact ⟨s', out', hu, rfl, rfl⟩
    · simp only [hi, if_false, pure_eq_ok, Prod.mk.injEq] at h
      refine ⟨db₁, _, hq, ?_⟩
      simp [hi, pure_eq_ok, h.2]

theorem receiveState_taken [Pcre Re] [HashOrder] {now : Int32} {db : Db R Re} {p : Pdu}
    {name n : CString} {ts : UInt32} {code : UInt8} {msg : CString} {s : State} {type : TypeDef}
    (hd : decodeState p = some (name, ts, code, msg))
    (hfound : lookupState now db.stateMatches name (db.states.get? name) = .ok (some s))
    (hignore : s.ignore = 0) (hname : s.name = some n) (htype : s.type = some type) :
    ∃ db' out, receiveState now db p = .ok (db', out) ∧ db'.states.get? name = some { s with
      status := code, summary := some msg, lastSeen := ts.toInt32, expiry := expiryAt ts type,
      stale := 0 } := by
  obtain ⟨out, hupdate⟩ : ∃ out, updateState s ts code msg = .ok ({ s with
      status := code, summary := some msg, lastSeen := ts.toInt32, expiry := expiryAt ts type,
      stale := 0 }, out) := by
    simp only [updateState, announce, broadcastState, broadcastTransition, stateFrames, htype,
      hname, deref_some, ok_bind]
    split <;> exact ⟨_, rfl⟩
  have hcell : cellReceiveState now db.stateMatches name ts code msg (db.states.get? name) =
      .ok (some { s with
        status := code, summary := some msg, lastSeen := ts.toInt32, expiry := expiryAt ts type,
        stale := 0 }, out) := by
    simp only [cellReceiveState, hfound, ok_bind, hignore, if_true, hupdate]
    rfl
  obtain ⟨db', hreceive⟩ := receiveState_complete hd hcell
  refine ⟨db', out, hreceive, ?_⟩
  rcases receiveState_spec hreceive with
    ⟨hnone, -⟩ | ⟨name', ts', code', msg', c, t, hd', hc, rfl, ht⟩
  · rw [hd] at hnone
    cases hnone
  · obtain ⟨rfl, rfl, rfl, rfl⟩ : name = name' ∧ ts = ts' ∧ code = code' ∧ msg = msg' := by
      simpa [hd] using hd'
    rw [hcell] at hc
    simp_all

/-- An event is broadcast, and only the event buffer changes. -/
theorem receiveEvent_spec {config : Config} {db db' : Db R Re} {p : Pdu} {out : List Pdu}
    (h : receiveEvent config db p = .ok (db', out)) :
    (∃ events count, db' = { db with events := events, eventsCount := count }) ∧
      ∀ q ∈ out, q.type = Tag.event.text := by
  simp only [receiveEvent, bind_eq_ok, pure_eq_ok, Prod.mk.injEq] at h
  obtain ⟨ts, -, q, hq, db₁, hdb, rfl, rfl⟩ := h
  constructor
  · unfold bufferEvent at hdb
    split at hdb
    · split at hdb
      all_goals
        simp only [bind_eq_ok, pure_eq_ok] at hdb
        obtain ⟨r, -, rfl⟩ := hdb
        exact ⟨_, _, rfl⟩
    · simp only [Except.ok.injEq] at hdb
      exact ⟨_, _, hdb.symm⟩
  · simp only [broadcastEvent, bind_eq_ok, pure_eq_ok] at hq
    obtain ⟨name, -, extra, -, rfl⟩ := hq
    simp

theorem checkFreshness_spec {now : Int32} {db db' : Db R Re} {out : List Pdu}
    (h : checkFreshness now db = .ok (db', out)) :
    ∃ t, db.states.sweep (markStale now) = .ok (t, out) ∧ db' = { db with states := t } := by
  simp only [checkFreshness, bind_eq_ok, pure_eq_ok, Prod.exists, Prod.mk.injEq] at h
  obtain ⟨t, out', hs, rfl, rfl⟩ := h
  exact ⟨t, hs, rfl⟩

end Bolo
