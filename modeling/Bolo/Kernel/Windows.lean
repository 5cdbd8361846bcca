import Bolo.Kernel.Cells
import Bolo.Library.Ledger
import Bolo.Library.Word

/-!
# What a windowed datapoint holds

The ledger of a datapoint lists its accepted submissions and its broadcasts in the order
in which they took effect. As long as nothing is forgotten, the record is the blank record
fed with what was accepted since the last broadcast, and a broadcast is that of this
record. With a positive window and timestamps in the signed range, everything held at one
time lies in one window.
-/
namespace Bolo

open Library

variable {R Re : Type}

/-! ## Window arithmetic -/

/-- The start of the window of length `T` that `t` falls into. -/
def windowStart (T t : Nat) : Nat := t - t % T

theorem windowStart_le (T t : Nat) : windowStart T t ≤ t := Nat.sub_le _ _

theorem lt_windowStart_add {T : Nat} (hT : 0 < T) (t : Nat) : t < windowStart T t + T := by
  have := Nat.mod_lt t hT
  have := Nat.mod_le t T
  unfold windowStart
  omega

theorem dvd_windowStart (T t : Nat) : T ∣ windowStart T t := Nat.dvd_sub_mod t

theorem winstart_spec {time t : Int32} {T n : Nat} (hT : time.toInt = T) (hpos : 0 < T)
    (ht : t.toInt = n) : ∃ s, winstart time t = .ok s ∧ s.toInt = windowStart T n := by
  have hne : time ≠ 0 := by
    rintro rfl
    simp at hT
    omega
  have hne' : time ≠ -1 := by
    rintro rfl
    have : (-1 : Int32).toInt = -1 := by decide
    omega
  have hmod : (t % time).toInt = (n % T : Nat) := by
    rw [Int32.toInt_mod, hT, ht]
    exact (Int.ofNat_tmod n T).symm
  have hle : n % T ≤ n := Nat.mod_le n T
  have hlt : t.toInt < 2 ^ 31 := t.toInt_lt
  refine ⟨t - t % time, by simp [winstart, hne, hne'], ?_⟩
  rw [toInt_sub_of_bounds (by omega) (by omega), hmod, ht]
  unfold windowStart
  omega

theorem winstartU_spec {time : Int32} {T : Nat} (hT : time.toInt = T) (hpos : 0 < T)
    (t : UInt32) : ∃ u, winstartU time t = .ok u ∧ u.toNat = windowStart T t.toNat := by
  have hne : time ≠ 0 := by
    rintro rfl
    simp at hT
    omega
  have hmod : (t % time.toUInt32).toNat = t.toNat % T := by
    rw [UInt32.toNat_mod]
    have := toNat_toUInt32_of_nonneg (x := time) (by omega)
    congr 1
    omega
  refine ⟨t - t % time.toUInt32, by simp [winstartU, hne], ?_⟩
  rw [UInt32.toNat_sub_of_le, hmod]
  · rfl
  · rw [UInt32.le_iff_toNat_le, hmod]
    exact Nat.mod_le _ _

/-! ## The ledger of a cell -/

namespace Series

variable {α V : Type} (S : Series R Re α V)

/-- Whether a submission would be taken in. -/
def accepts [Pcre Re] (rules : List (Rule Window Re)) (name : CString) (found : Option α) :
    Bool :=
  match lookup S.blank rules name found with
  | none => false
  | some x => S.ignore x = 0

/-- Ledger entries of one step: what was broadcast, then what was accepted. -/
def entries [Pcre Re] (name : CString) (c : Cell Re α) (m : Msg V) (out : List Pdu) :
    List (Entry (UInt32 × V) Pdu) :=
  out.map .flush ++
    match m with
    | .submit _ ts v => if S.accepts c.rules name c.found then [.accept (ts, v)] else []
    | _ => []

/-- Feed a record with submissions, in order. -/
def feed (x : α) (vs : List (UInt32 × V)) : α := vs.foldl (fun x e => S.update e.1 e.2 x) x

@[simp] theorem feed_nil (x : α) : S.feed x [] = x := rfl

@[simp] theorem feed_singleton (x : α) (ts : UInt32) (v : V) :
    S.feed x [(ts, v)] = S.update ts v x := rfl

@[simp] theorem feed_append (x : α) (vs : List (UInt32 × V)) (ts : UInt32) (v : V) :
    S.feed x (vs ++ [(ts, v)]) = S.update ts v (S.feed x vs) := by
  simp [feed]

theorem feed_invariant {β : Type} {f : α → β} (hf : ∀ ts v x, f (S.update ts v x) = f x) (x : α)
    (vs : List (UInt32 × V)) : f (S.feed x vs) = f x := by
  induction vs generalizing x with
  | nil => rfl
  | cons e vs ih => exact (ih _).trans (hf e.1 e.2 x)

@[simp] theorem reset_feed (x : α) (vs : List (UInt32 × V)) :
    S.reset (S.feed x vs) = S.reset x := S.feed_invariant S.reset_update x vs

@[simp] theorem ignore_feed (x : α) (vs : List (UInt32 × V)) :
    S.ignore (S.feed x vs) = S.ignore x := S.feed_invariant S.ignore_update x vs

@[simp] theorem window_feed (x : α) (vs : List (UInt32 × V)) :
    S.window (S.feed x vs) = S.window x := S.feed_invariant S.window_update x vs

@[simp] theorem name_feed (x : α) (vs : List (UInt32 × V)) :
    S.name (S.feed x vs) = S.name x := S.feed_invariant S.name_update x vs

/-- The ways in which a step that forgets nothing takes the record from `x` to `y`, with
what it broadcasts and what it enters into the ledger. -/
inductive Moves (c : Cell Re α) :
    Msg V → α → α → List Pdu → List (Entry (UInt32 × V) Pdu) → Prop
  | stay {m x} (hm : ∀ now ts v, m = .submit now ts v → S.ignore x ≠ 0) : Moves c m x x [] []
  | take {now ts v x} (hi : S.ignore x = 0) (hr : S.rollover x ts = .ok false) :
      Moves c (.submit now ts v) x (S.update ts v x) [] [.accept (ts, v)]
  | roll {now ts v x p} (hi : S.ignore x = 0) (hr : S.rollover x ts = .ok true)
      (hp : S.broadcast x = .ok p) :
      Moves c (.submit now ts v) x (S.update ts v (S.reset x)) [p] [.flush p, .accept (ts, v)]
  | close {now x w e p} (hdue : c.timer.due now) (hi : S.ignore x = 0) (hs : S.lastSeen x ≠ 0)
      (hw : S.window x = some w) (he : winend w.time (S.lastSeen x) = .ok e)
      (hlt : e < now - c.grace) (hp : S.broadcast x = .ok p) :
      Moves c (.tick now) x (S.reset x) [p] [.flush p]

theorem lookup_some [Pcre Re] {τ : Type} (blank : CString → Option τ → α)
    (rules : List (Rule τ Re)) (name : CString) (x : α) :
    lookup blank rules name (some x) = some x := rfl

theorem cell_submit [Pcre Re] {name : CString} {c c' : Cell Re α} {now : Int32} {ts : UInt32}
    {v : V} {out : List Pdu} (h : S.cell name c (.submit now ts v) = .ok (c', out)) :
    c'.rules = c.rules ∧ c'.grace = c.grace ∧ c'.timer = c.timer ∧
      S.cellReceive c.rules name ts v c.found = .ok (c'.found, out) := by
  simp only [cell, bind_eq_ok, pure_eq_ok, Prod.exists, Prod.mk.injEq] at h
  obtain ⟨x, out', hc, rfl, rfl⟩ := h
  exact ⟨rfl, rfl, rfl, hc⟩

theorem cell_tick [Pcre Re] {name : CString} {c c' : Cell Re α} {now : Int32} {out : List Pdu}
    (h : S.cell name c (.tick now) = .ok (c', out)) :
    c'.rules = c.rules ∧ c'.grace = c.grace ∧ c'.timer = c.timer.fire now ∧
      Table.visit (Table.gate (S.close (now - c.grace)) (c.timer.due now)) c.found =
        .ok (c'.found, out) := by
  simp only [cell, bind_eq_ok, pure_eq_ok, Prod.exists, Prod.mk.injEq] at h
  obtain ⟨x, out', hc, rfl, rfl⟩ := h
  exact ⟨rfl, rfl, rfl, hc⟩

/-- A completed step of a cell that has or can make a record. -/
theorem cell_moves [Pcre Re] {name : CString} {c c' : Cell Re α} {m : Msg V} {out : List Pdu}
    (hm : ∀ keep, m ≠ .forget keep) (h : S.cell name c m = .ok (c', out)) {x : α}
    (hx : lookup S.blank c.rules name c.found = some x) :
    ∃ y, lookup S.blank c'.rules name c'.found = some y ∧
      S.Moves c m x y out (S.entries name c m out) := by
  cases m with
  | forget keep => exact absurd rfl (hm keep)
  | submit now ts v =>
    obtain ⟨hrules, -, -, hc⟩ := S.cell_submit h
    simp only [cellReceive, hx] at hc
    split at hc
    · case isTrue hi =>
        simp only [bind_eq_ok, pure_eq_ok, Prod.exists, Prod.mk.injEq] at hc
        obtain ⟨y, out', hs, hfound, rfl⟩ := hc
        refine ⟨y, by rw [← hfound]; rfl, ?_⟩
        simp only [entries, accepts, hx, hi, decide_true, if_true]
        rcases S.submit_spec hs with ⟨hr, rfl, rfl⟩ | ⟨hr, rfl, p, hp, rfl⟩
        · exact .take hi hr
        · exact .roll hi hr hp
    · case isFalse hi =>
        simp only [Except.ok.injEq, Prod.mk.injEq] at hc
        obtain ⟨hfound, rfl⟩ := hc
        refine ⟨x, by rw [← hfound]; rfl, ?_⟩
        simp only [entries, accepts, hx, hi, decide_false, Bool.false_eq_true, if_false]
        exact .stay fun _ _ _ _ => hi
  | tick now =>
    obtain ⟨hrules, -, -, hc⟩ := S.cell_tick h
    have hstay : S.Moves c (.tick now) x x [] (S.entries name c (.tick now) []) := .stay (by simp)
    cases hf : c.found with
    | none =>
      simp only [hf, Table.visit, Except.ok.injEq, Prod.mk.injEq] at hc
      exact ⟨x, by rw [hrules, ← hc.1, ← hf, hx], hc.2 ▸ hstay⟩
    | some z =>
      obtain rfl : z = x := by simpa [hf, lookup_some] using hx
      simp only [hf, Table.visit, bind_eq_ok, pure_eq_ok, Prod.exists, Prod.mk.injEq] at hc
      obtain ⟨y, out', hg, hfound, rfl⟩ := hc
      refine ⟨y, by rw [← hfound]; rfl, ?_⟩
      unfold Table.gate at hg
      split at hg
      · case isTrue hdue =>
          rcases S.close_spec hg with ⟨rfl, rfl⟩ | ⟨hi, hs, rfl, w, e, p, hw, he, hlt, hp, rfl⟩
          · exact hstay
          · exact .close hdue hi hs hw he hlt hp
      · simp only [Except.ok.injEq, Prod.mk.injEq] at hg
        obtain ⟨rfl, rfl⟩ := hg
        exact hstay

/-- A cell that has no record and can make none stays so and says nothing. -/
theorem cell_unknown [Pcre Re] {name : CString} {c c' : Cell Re α} {m : Msg V} {out : List Pdu}
    (hm : ∀ keep, m ≠ .forget keep) (h : S.cell name c m = .ok (c', out))
    (hx : lookup S.blank c.rules name c.found = none) :
    lookup S.blank c'.rules name c'.found = none ∧ out = [] := by
  have hf := lookup_eq_none hx
  cases m with
  | forget keep => exact absurd rfl (hm keep)
  | submit now ts v =>
    obtain ⟨hrules, -, -, hc⟩ := S.cell_submit h
    simp only [cellReceive, hx, Except.ok.injEq, Prod.mk.injEq] at hc
    exact ⟨by rw [hrules, ← hc.1]; rwa [hf] at hx, hc.2.symm⟩
  | tick now =>
    obtain ⟨hrules, -, -, hc⟩ := S.cell_tick h
    simp only [hf, Table.visit, Except.ok.injEq, Prod.mk.injEq] at hc
    exact ⟨by rw [hrules, ← hc.1]; rwa [hf] at hx, hc.2.symm⟩

theorem rollover_true_seen {x : α} {ts : UInt32} (h : S.rollover x ts = .ok true) :
    S.lastSeen x ≠ 0 := by
  unfold rollover at h
  split at h
  · case isTrue hseen =>
      rintro hzero
      rw [hzero] at hseen
      exact absurd hseen.1 (by decide)
  · cases h

/-- A move flushes at most the record it starts from, and only one that was seen. -/
theorem Moves.flushes {P : List (UInt32 × V) → Pdu → Prop} {c : Cell Re α} {m : Msg V} {x y : α}
    {out : List Pdu} {l es : List (Entry (UInt32 × V) Pdu)} (h : S.Moves c m x y out es)
    (hl : Ledger.Flushes P l)
    (hP : ∀ p, S.lastSeen x ≠ 0 → S.broadcast x = .ok p → P (Ledger.pending l) p) :
    Ledger.Flushes P (l ++ es) := by
  cases h with
  | stay => simpa using hl
  | take => exact hl.accept _
  | @roll now ts v _ p _ hr hp =>
    simpa using (hl.flush (hP p (S.rollover_true_seen hr) hp)).accept (ts, v)
  | @close now _ w e p _ _ hs _ _ _ hp => exact hl.flush (hP p hs hp)

/-- The record a cell holds or would make is the blank record `b` fed with what is pending,
and every broadcast so far was that of the record fed with what was pending then. A cell
without a record to make has an empty ledger. -/
structure Held [Pcre Re] (name : CString) (base : Option α) (c : Cell Re α)
    (l : List (Entry (UInt32 × V) Pdu)) : Prop where
  record : lookup S.blank c.rules name c.found =
    base.map fun b => S.feed b (Ledger.pending l)
  flushes : ∀ b, base = some b →
    Ledger.Flushes (fun vs p => S.broadcast (S.feed b vs) = .ok p) l
  empty : base = none → l = []

theorem Held.step [Pcre Re] {name : CString} {base : Option α} {c c' : Cell Re α} {m : Msg V}
    {out : List Pdu} {l : List (Entry (UInt32 × V) Pdu)}
    (hbase : ∀ b, base = some b → S.reset b = b) (hheld : S.Held name base c l)
    (hm : ∀ keep, m ≠ .forget keep)
    (h : S.cell name c m = .ok (c', out)) :
    S.Held name base c' (l ++ S.entries name c m out) := by
  cases hb : base with
  | none =>
    have hx : lookup S.blank c.rules name c.found = none := by simpa [hb] using hheld.record
    obtain ⟨hx', rfl⟩ := S.cell_unknown hm h hx
    have hnil : S.entries name c m [] = [] := by cases m <;> simp [entries, accepts, hx]
    exact ⟨by simpa using hx', by simp, fun _ => by simp [hnil, hheld.empty hb]⟩
  | some b =>
    have hx : lookup S.blank c.rules name c.found = some (S.feed b (Ledger.pending l)) := by
      simpa [hb] using hheld.record
    obtain ⟨y, hy, hmove⟩ := S.cell_moves hm h hx
    have hflush := hheld.flushes b hb
    have hreset : S.reset (S.feed b (Ledger.pending l)) = b := by simp [hbase b hb]
    have hflush' := hmove.flushes S hflush fun p _ hp => hp
    suffices y = S.feed b (Ledger.pending (l ++ S.entries name c m out)) by
      exact ⟨by simp [hy, this], fun b' hb' => by cases hb'; exact hflush', by simp⟩
    generalize S.entries name c m out = es at hmove
    cases hmove with
    | stay => simp
    | take => simp
    | roll => rw [hreset]; simp
    | close => simp [hreset]

/-! ## One window at a time -/

/-- On positive timestamps a rollover is a change of window. -/
theorem rollover_iff {x : α} {w : Window} {T n : Nat} {ts : UInt32} {r : Bool}
    (hw : S.window x = some w) (hT : w.time.toInt = T) (hpos : 0 < T)
    (hls : (S.lastSeen x).toInt = n) (hn : 0 < n) (h : S.rollover x ts = .ok r) :
    r = true ↔ windowStart T n ≠ windowStart T ts.toNat := by
  have hnat : (S.lastSeen x).toUInt32.toNat = n := by
    have := toNat_toUInt32_of_nonneg (x := S.lastSeen x) (by omega)
    omega
  have hseen : 0 < S.lastSeen x := by
    rw [Int32.lt_iff_toInt_lt, hls]
    simpa using hn
  unfold rollover at h
  split at h
  · obtain ⟨a, ha, haval⟩ := winstart_spec hT hpos hls
    obtain ⟨b, hb, hbval⟩ := winstartU_spec hT hpos ts
    simp only [hw, deref_some, ha, hb, bind, Except.bind, pure, Except.pure, Except.ok.injEq] at h
    have haU : a.toUInt32.toNat = windowStart T n := by
      have := toNat_toUInt32_of_nonneg (x := a) (by omega)
      omega
    rw [← h, decide_eq_true_iff, ne_eq, ← UInt32.toNat_inj, haU, hbval]
  · case isFalse hsame =>
      -- the only way not to look at the windows is the timestamp last seen
      have hts : (S.lastSeen x).toUInt32 = ts := by
        by_contra hne
        exact hsame ⟨hseen, hne⟩
      have hr : r = false := by simpa [eq_comm] using h
      simp [hr, ← hts, hnat]

/-- Submissions with timestamps in the signed range that fall into one window. -/
def OneWindow (T : Nat) (vs : List (UInt32 × V)) : Prop :=
  ∀ e ∈ vs, (0 < e.1.toNat ∧ e.1.toNat < 2 ^ 31) ∧
    ∀ e' ∈ vs, windowStart T e.1.toNat = windowStart T e'.1.toNat

theorem OneWindow.nil (T : Nat) : OneWindow T ([] : List (UInt32 × V)) := by
  intro e he
  cases he

theorem OneWindow.singleton (T : Nat) {ts : UInt32} (v : V) (h₁ : 0 < ts.toNat)
    (h₂ : ts.toNat < 2 ^ 31) : OneWindow T [(ts, v)] := by
  intro e he
  obtain rfl := List.mem_singleton.mp he
  refine ⟨⟨h₁, h₂⟩, fun e' he' => ?_⟩
  rw [List.mem_singleton.mp he']

theorem OneWindow.append {T : Nat} {vs : List (UInt32 × V)} {t ts : UInt32} {u v : V}
    (h : OneWindow T (vs ++ [(t, u)])) (h₁ : 0 < ts.toNat) (h₂ : ts.toNat < 2 ^ 31)
    (hsame : windowStart T t.toNat = windowStart T ts.toNat) :
    OneWindow T (vs ++ [(t, u)] ++ [(ts, v)]) := by
  have hlast : ∀ e ∈ vs ++ [(t, u)] ++ [(ts, v)],
      (0 < e.1.toNat ∧ e.1.toNat < 2 ^ 31) ∧ windowStart T e.1.toNat = windowStart T t.toNat := by
    intro e he
    rcases List.mem_append.mp he with he | he
    · exact ⟨(h e he).1, (h e he).2 (t, u) (by simp)⟩
    · obtain rfl := List.mem_singleton.mp he
      exact ⟨⟨h₁, h₂⟩, hsame.symm⟩
  intro e he
  exact ⟨(hlast e he).1, fun e' he' => (hlast e he).2.trans (hlast e' he').2.symm⟩

/-- A record that was fed was last seen at its last submission. -/
theorem lastSeen_feed_ne {b : α} (hb : S.lastSeen b = 0) {vs : List (UInt32 × V)}
    (h : S.lastSeen (S.feed b vs) ≠ 0) : ∃ vs' t u, vs = vs' ++ [(t, u)] := by
  rcases List.eq_nil_or_concat vs with rfl | ⟨vs', ⟨t, u⟩, rfl⟩
  · exact absurd hb h
  · exact ⟨vs', t, u, by simp⟩

theorem lastSeen_feed_append (b : α) (vs : List (UInt32 × V)) (t : UInt32) (u : V) :
    S.lastSeen (S.feed b (vs ++ [(t, u)])) = t.toInt32 := by simp

/-- What is pending lies in one window, and so did what any broadcast covered. -/
structure Pure (T : Nat) (l : List (Entry (UInt32 × V) Pdu)) : Prop where
  pending : OneWindow T (Ledger.pending l)
  flushes : Ledger.Flushes (fun vs (_ : Pdu) => vs ≠ [] ∧ OneWindow T vs) l

theorem Pure.step [Pcre Re] {name : CString} {b : α} {w : Window} {T : Nat} {c c' : Cell Re α}
    {m : Msg V} {out : List Pdu} {l : List (Entry (UInt32 × V) Pdu)}
    (hzero : S.lastSeen b = 0) (hw : S.window b = some w) (hT : w.time.toInt = T) (hpos : 0 < T)
    (hheld : S.Held name (some b) c l) (hpure : Pure T l) (hm : ∀ keep, m ≠ .forget keep)
    (hts : ∀ now ts v, m = .submit now ts v → 0 < ts.toNat ∧ ts.toNat < 2 ^ 31)
    (h : S.cell name c m = .ok (c', out)) : Pure T (l ++ S.entries name c m out) := by
  obtain ⟨hone, hflush⟩ := hpure
  obtain ⟨y, -, hmove⟩ := S.cell_moves hm h (by simpa using hheld.record)
  have hnonempty : S.lastSeen (S.feed b (Ledger.pending l)) ≠ 0 → Ledger.pending l ≠ [] := by
    intro hne hnil
    rw [hnil] at hne
    exact hne hzero
  refine ⟨?_, hmove.flushes S hflush fun p hseen _ => ⟨hnonempty hseen, hone⟩⟩
  generalize S.entries name c m out = es at hmove
  cases hmove with
  | stay => simpa using hone
  | @take now ts v _ hi hr =>
    obtain ⟨h₁, h₂⟩ := hts now ts v rfl
    rw [Ledger.pending_accept]
    by_cases hne : S.lastSeen (S.feed b (Ledger.pending l)) = 0
    · have hnil : Ledger.pending l = [] := by
        by_contra hcons
        obtain ⟨vs, ⟨t, u⟩, heq⟩ := (List.eq_nil_or_concat _).resolve_left hcons
        rw [heq, List.concat_eq_append] at hne hone
        have hrange := (hone (t, u) (by simp)).1
        have hzero' := congrArg Int32.toInt ((S.lastSeen_feed_append b vs t u).symm.trans hne)
        rw [toInt_toInt32_of_lt hrange.2, Int32.toInt_zero] at hzero'
        exact absurd hrange.1 (by omega)
      rw [hnil]
      exact OneWindow.singleton T v h₁ h₂
    · obtain ⟨vs, t, u, heq⟩ := S.lastSeen_feed_ne hzero hne
      rw [heq] at hone hr ⊢
      have hrange := (hone (t, u) (by simp)).1
      have hsame := (S.rollover_iff (T := T) (n := t.toNat) (by simpa using hw) hT hpos
        (by rw [lastSeen_feed_append, toInt_toInt32_of_lt hrange.2]) hrange.1 hr).not.mp (by simp)
      exact hone.append h₁ h₂ (not_not.mp hsame)
  | @roll now ts v _ p hi hr hp =>
    obtain ⟨h₁, h₂⟩ := hts now ts v rfl
    simpa using OneWindow.singleton T v h₁ h₂
  | close => simpa using OneWindow.nil T

/-- A broadcast of pure holdings, spelled out: it carries the start of the window that all
of them fall into. -/
theorem broadcast_pure {name : CString} {b : α} {w : Window} {T : Nat} {p : Pdu}
    {vs : List (UInt32 × V)} (hw : S.window b = some w) (hname : S.name b = some name)
    (hT : w.time.toInt = T) (hpos : 0 < T) (hne : vs ≠ []) (hone : OneWindow T vs)
    (hp : S.broadcast (S.feed b vs) = .ok p) :
    ∃ start, T ∣ start ∧ (∀ e ∈ vs, start ≤ e.1.toNat ∧ e.1.toNat < start + T) ∧
      p = { type := S.tag.text, frames := decimal start :: name :: S.payload w (S.feed b vs) } := by
  obtain ⟨w', ts, n, hw', hts, hn, rfl⟩ := S.broadcast_spec hp
  obtain rfl : w = w' := by simpa [hw] using hw'
  obtain rfl : name = n := by simpa [hname] using hn
  obtain ⟨vs', ⟨t, u⟩, heq⟩ := (List.eq_nil_or_concat vs).resolve_left hne
  rw [List.concat_eq_append] at heq
  subst heq
  have hrange := (hone (t, u) (by simp)).1
  have hseen : (S.lastSeen (S.feed b (vs' ++ [(t, u)]))).toInt = t.toNat := by
    rw [lastSeen_feed_append, toInt_toInt32_of_lt hrange.2]
  obtain ⟨s, hs, hsval⟩ := winstart_spec hT hpos hseen
  obtain rfl : ts = s := Except.ok.inj (hts.symm.trans hs)
  have hstart : ts.toUInt32.toNat = windowStart T t.toNat := by
    have := toNat_toUInt32_of_nonneg (x := ts) (by omega)
    omega
  refine ⟨windowStart T t.toNat, dvd_windowStart T _, fun e he => ?_, by rw [hstart]⟩
  rw [← (hone e he).2 (t, u) (by simp)]
  exact ⟨windowStart_le T _, lt_windowStart_add hpos _⟩

end Series

end Bolo
