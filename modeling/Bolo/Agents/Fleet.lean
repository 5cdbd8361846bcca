import Bolo.Agents.Dbolo
import Bolo.Agents.Wire
import Bolo.Aggregator.Conservation

/-!
# From the collectors to the broadcasts

A counter from end to end. Collectors print lines, each agent reads the pipes of its collectors
in pieces of any size and sends a PDU for every line, and the PDUs of all agents reach the
aggregator in any order, between ticks and requests. What the lines add to a counter is what
the aggregator broadcasts about it, and what it still holds.
-/
namespace Bolo.Fleet

open Library Dbolo Bolo.Stream

variable {R Re : Type}

/-! ## Agents -/

/-- A command of an agent: what its collector prints, and how `s_sink` gets to read it. -/
structure Collector where
  output : CString
  buffer : Buffer 8192
  cuts : List Nat
  time : Int32

/-- The lines that the agent has read. -/
def Collector.read (c : Collector) : Except Fault (List CString) := do
  return (← Machine.run pull (⟨0, c.buffer⟩, c.output.bytes) c.cuts).2

/-- What `bolo_stream_pdu` makes of the lines is sent. -/
def send (time : Int32) (lines : List CString) : Except Crash (List Pdu) := do
  return (← lines.mapM (streamPdu time)).filterMap id

/-- These PDUs were sent. -/
def Collector.Sends (c : Collector) (sent : List Pdu) : Prop :=
  ∃ lines, c.read = .ok lines ∧ send c.time lines = .ok sent

/-- An EVENT line with a name and nothing else, of which `bolo_parse_event_pdu` frees a literal. -/
def Undescribed (line : CString) : Prop :=
  ∃ keyword ts name, words line = [keyword, ts, name] ∧ strcasecmpEq keyword (.lit "EVENT")

instance (line : CString) : Decidable (Undescribed line) :=
  match h : words line with
  | [keyword, ts, name] =>
    if hkey : strcasecmpEq keyword (.lit "EVENT") then .isTrue ⟨keyword, ts, name, h, hkey⟩
    else .isFalse (by
      rintro ⟨keyword', ts', name', h', hkey'⟩
      rw [h, List.cons.injEq] at h'
      exact hkey (h'.1 ▸ hkey'))
  | [] | [_] | [_, _] | _ :: _ :: _ :: _ :: _ => .isFalse (by simp [Undescribed, h])

/-- The lines fit the buffer with their newlines, the agent goes on to read until they are there,
and none of them makes it crash. -/
structure Collector.Good (c : Collector) : Prop where
  fits : ∀ line ∈ pieces NEWLINE c.output.bytes, line.length + 1 ≤ 8191
  reads : c.output.length ≤ c.cuts.countP (0 < ·)
  described : ∀ line ∈ pieces NEWLINE c.output.bytes, ¬Undescribed (.ofBytes line)

/-- The increment, by the words behind the name: one number, or else 1. -/
def incrementOf : List CString → Int32
  | [word] => atoi word
  | _ => 1

/-- What a line adds to a counter. -/
def added (name line : CString) : Int :=
  match words line with
  | keyword :: _ :: n :: rest =>
    if strcasecmpEq keyword (.lit "COUNTER") ∧ n = name then (incrementOf rest).toInt else 0
  | _ => 0

/-- What a PDU adds to a counter. -/
def increment (name : CString) (p : Pdu) : Int :=
  if p.is .counter 4 4 then
    match decodeHead p, p.string 3 with
    | some (n, _), some word => if n = name then (strtol word).toInt32.toInt else 0
    | _, _ => 0
  else 0

theorem increment_eq_zero (name : CString) {p : Pdu} (h : p.type ≠ Tag.counter.text) :
    increment name p = 0 := by
  have his : p.is .counter 4 4 = false := by
    simp [Pdu.is, h]
  simp [increment, his]

theorem increment_counter (name ts : CString) {n : CString} (hn : n.bytes ≠ []) (v : Int32) :
    increment name
        { type := Tag.counter.text, frames := [ts, n, decimal v.toUInt32.toNat] } =
      if n = name then v.toInt else 0 := by
  have his : Pdu.is { type := Tag.counter.text, frames := [ts, n, decimal v.toUInt32.toNat] }
      .counter 4 4 = true := by
    simp [Pdu.is, Pdu.size]
  simp only [increment, his, if_true, decodeHead_eq hn, Pdu.string]
  simp [strtol_unsigned]

/-- Commands other than `COUNTER` make PDUs that add nothing. -/
theorem increment_parse (name : CString) {time : Int32} {strings : List CString}
    {c : Stream.Command} (hc : c ≠ .counter) {p : Pdu} (h : c.parse time strings = .ok (some p)) :
    increment name p = 0 := by
  apply increment_eq_zero
  cases c with
  | counter => exact absurd rfl hc
  | state | sample | rate | key | event =>
    simp only [Stream.Command.parse, parseStatePdu, parseSamplePdu, parseRatePdu, parseSetkeysPdu,
      parseEventPdu] at h
    grind [Tag.text_inj]

/-- A line adds to a counter what its PDU adds. -/
theorem added_of_streamPdu {time : Int32} {line : CString} {p : Option Pdu}
    (h : streamPdu time line = .ok p) (name : CString) :
    (p.map (increment name)).getD 0 = added name line := by
  cases hwords : words line with
  | nil =>
    have hnone : p = none := by
      unfold streamPdu at h
      split at h
      · exact (Except.ok.inj h).symm
      · simp [hwords] at h
    simp [hnone, added, hwords]
  | cons keyword strings =>
    have hne := words_nonempty line
    rw [hwords] at hne
    rw [streamPdu_cons hwords] at h
    by_cases hkey : strcasecmpEq keyword (.lit "COUNTER")
    · -- the words of a COUNTER are those of the line
      have hcommand : command? keyword = some .counter := command?_eq_some.mpr hkey
      rw [hcommand] at h
      obtain rfl : parseCounterPdu time strings.tail strings.head? = p := Except.ok.inj h
      match strings with
      | [] | [_] => simp [added, hwords, parseCounterPdu]
      | ts :: n :: rest =>
        have hn : n.bytes ≠ [] := hne n (by simp)
        have hadded : added name line = if n = name then (incrementOf rest).toInt else 0 := by
          simp [added, hwords, hkey]
        rw [hadded]
        exact increment_counter name ts hn (incrementOf rest)
    · have hzero : added name line = 0 := by
        unfold added
        grind
      rw [hzero]
      cases hcommand : command? keyword with
      | none =>
        rw [hcommand] at h
        obtain rfl : none = p := Except.ok.inj h
        rfl
      | some c =>
        have hc : c ≠ .counter := by
          rintro rfl
          exact hkey (command?_eq_some.mp hcommand)
        rw [hcommand, Option.elim_some] at h
        cases p with
        | none => rfl
        | some p => exact increment_parse name hc h

theorem sum_send {time : Int32} {lines : List CString} {sent : List Pdu}
    (h : send time lines = .ok sent) (name : CString) :
    (sent.map (increment name)).sum = (lines.map (added name)).sum := by
  induction lines generalizing sent with
  | nil =>
    obtain rfl : [] = sent := Except.ok.inj h
    rfl
  | cons line lines ih =>
    simp only [send, List.mapM_cons, bind_eq_ok, pure_eq_ok] at h
    obtain ⟨_, ⟨p, hp, ps, hps, rfl⟩, rfl⟩ := h
    have hrest : ((ps.filterMap id).map (increment name)).sum = (lines.map (added name)).sum :=
      ih (by simp only [send, hps, ok_bind]; rfl)
    rw [List.map_cons, List.sum_cons, ← added_of_streamPdu hp name, ← hrest]
    cases p <;> simp

/-- An agent that goes on to read gets every line. -/
theorem Collector.Good.read_eq {c : Collector} (h : c.Good) :
    c.read = .ok ((pieces NEWLINE c.output.bytes).map .ofBytes) := by
  obtain ⟨cmd, pending, out, consumed, hrun, hcaught, hpending⟩ :=
    caught_run c.output c.buffer c.cuts
  have hout := hcaught.lines_of_used fun hmore => (hpending h.fits).used h.reads (.inl hmore)
  have hlines : out = (pieces NEWLINE c.output.bytes).map .ofBytes := by
    simp [← hout, Function.comp_def]
  simp only [Collector.read, hrun, ok_bind, hlines]
  rfl

theorem Collector.Sends.unique {c : Collector} {sent sent' : List Pdu} (h : c.Sends sent)
    (h' : c.Sends sent') : sent = sent' := by
  obtain ⟨lines, hread, hsend⟩ := h
  obtain ⟨lines', hread', hsend'⟩ := h'
  obtain rfl := Except.ok.inj (hread.symm.trans hread')
  exact Except.ok.inj (hsend.symm.trans hsend')

/-- What the PDUs of an agent add is what the lines of its collector add, however they were
read. -/
theorem Collector.Sends.increments {c : Collector} {sent : List Pdu} (h : c.Sends sent)
    (hgood : c.Good) (name : CString) : (sent.map (increment name)).sum =
      ((pieces NEWLINE c.output.bytes).map fun line => added name (.ofBytes line)).sum := by
  obtain ⟨lines, hread, hsend⟩ := h
  obtain rfl := Except.ok.inj (hgood.read_eq.symm.trans hread)
  rw [sum_send hsend name, List.map_map]
  rfl

theorem words_ne_nil {line : CString} (h : line.bytes.dropWhile isspace ≠ []) :
    words line ≠ [] := by
  obtain ⟨c, text, hc⟩ := List.exists_cons_of_ne_nil h
  have hblank := List.head?_dropWhile_not isspace line.bytes
  have hspace : c ≠ SPACE := by
    rintro rfl
    simp [hc, isspace, SPACE] at hblank
  intro hnone
  have hempty : ∀ l ∈ (c :: text).splitOn SPACE, l = [] := by
    simpa [words, hc, stringsSplit] using hnone
  rw [← pieces_append_rest] at hempty
  have hall : _ ++ rest SPACE (c :: text) = _ := flatMap_pieces_append_rest (c :: text)
  have hrest := hempty (rest SPACE (c :: text)) (by simp)
  cases hpieces : pieces SPACE (c :: text) with
  | nil => simp [hpieces, hrest] at hall
  | cons l ls =>
    rw [hpieces, hempty l (by simp [hpieces])] at hall
    exact hspace (by simpa using congrArg List.head? hall.symm)

theorem streamPdu_complete (time : Int32) {line : CString} (h : ¬Undescribed line) :
    ∃ p, streamPdu time line = .ok p := by
  cases hwords : words line with
  | nil =>
    -- what does not start with a blank has a word
    have hblank : line.bytes.dropWhile isspace = [] := by
      by_contra hne
      exact words_ne_nil hne hwords
    exact ⟨none, by rw [streamPdu, if_pos hblank]⟩
  | cons keyword strings =>
    rw [streamPdu_cons hwords]
    cases hcommand : command? keyword with
    | none => exact ⟨none, rfl⟩
    | some c =>
      cases c with
      | event =>
        rcases strings with _ | ⟨ts, _ | ⟨name, _ | ⟨word, strings⟩⟩⟩
        · exact ⟨_, rfl⟩
        · exact ⟨_, rfl⟩
        · exact absurd ⟨keyword, ts, name, hwords, command?_eq_some.mp hcommand⟩ h
        · exact ⟨_, rfl⟩
      | state | counter | sample | rate | key => exact ⟨_, rfl⟩

/-- The agent does send. -/
theorem Collector.Good.sends {c : Collector} (h : c.Good) : ∃ sent, c.Sends sent := by
  suffices ∀ lines : List (List UInt8), (∀ line ∈ lines, ¬Undescribed (.ofBytes line)) →
      ∃ ps, (lines.map CString.ofBytes).mapM (streamPdu c.time) = .ok ps by
    obtain ⟨ps, hps⟩ := this _ h.described
    exact ⟨ps.filterMap id, _, h.read_eq, by simp only [send, hps, ok_bind]; rfl⟩
  intro lines hlines
  induction lines with
  | nil => exact ⟨[], rfl⟩
  | cons line lines ih =>
    simp only [List.forall_mem_cons] at hlines
    obtain ⟨p, hp⟩ := streamPdu_complete c.time hlines.1
    obtain ⟨ps, hps⟩ := ih hlines.2
    exact ⟨p :: ps, by simp only [List.map_cons, List.mapM_cons, hp, hps, ok_bind]; rfl⟩

/-! ## The aggregator -/

section Aggregator

variable [Double R] [Pcre Re] [HashOrder]

omit [Double R] [HashOrder] in
/-- What a message submits to a cell. -/
def submitted {V : Type} : Msg V → Option (UInt32 × V)
  | .submit _ ts v => some (ts, v)
  | _ => none

omit [Double R] [HashOrder] in
/-- A datapoint that is declared, or that a rule would make, takes every submission. -/
theorem accepted_log {α V : Type} (S : Series R Re α V) {name : CString} {b : α}
    (hbase : S.reset b = b) (hignore : S.ignore b = 0) {ms : List (Msg V)}
    (hforget : ∀ m ∈ ms, ∀ keep, m ≠ .forget keep) {c c' : Cell Re α} {out : List Pdu}
    {l : List (Entry (UInt32 × V) Pdu)} (hheld : S.Held name (some b) c l)
    (h : Machine.run (S.cell name) c ms = .ok (c', out)) :
    Ledger.accepted (Machine.log (S.cell name) (S.entries name) c ms) =
      ms.filterMap submitted := by
  induction ms generalizing c l out with
  | nil => rfl
  | cons m ms ih =>
    obtain ⟨c₁, o, os, hstep, hrun, rfl⟩ := Machine.run_cons.mp h
    have hm : ∀ keep, m ≠ .forget keep := hforget m List.mem_cons_self
    have hheld₁ : S.Held name (some b) c₁ (l ++ S.entries name c m o) :=
      hheld.step S (by simpa using hbase) hm hstep
    have haccepts : S.accepts c.rules name c.found = true := by
      simp [Series.accepts, hheld.record, S.feed_invariant S.ignore_update, hignore]
    have hentries : Ledger.accepted (S.entries name c m o) = (submitted m).toList := by
      cases m with
      | submit now ts v => simp [Series.entries, haccepts, submitted, Ledger.accepted]
      | tick now => simp [Series.entries, submitted, Ledger.accepted]
      | forget keep => exact absurd rfl (hm keep)
    have hrest := ih (fun m' hm' => hforget m' (List.mem_cons_of_mem _ hm')) hheld₁ hrun
    rw [Machine.log_cons hstep, Ledger.accepted_append, hentries, hrest, List.filterMap_cons]
    cases submitted m <;> rfl

theorem accepted_ledger (κ : Kind) (name : CString) {s : Server R Re} (hfresh : s.db.Fresh)
    {k : Kernel R Re} {is : List Input} {es : List Effect}
    (hrun : Machine.run reactor (boot s) is = .ok (k, es))
    (hforget : ∀ p, .management p ∈ is → ¬p.is .forget 4 4)
    (hbase : (κ.base name s.db).isSome) :
    Ledger.accepted (κ.ledger name (boot s) is) =
      (is.filterMap (κ.view R Re name)).filterMap submitted := by
  obtain ⟨b, hb⟩ := Option.isSome_iff_exists.mp hbase
  have hwf : (boot s).db.Wf := hfresh.wf
  have hheld := Kind.held_boot κ name s
  rw [hb] at hheld
  rw [Kind.ledger_eq_log hwf hrun]
  refine accepted_log _ (Kind.reset_base hfresh b hb) ?_ ?_ hheld
    ((κ.component name).run_proj hwf hrun)
  · obtain ⟨w, -, rfl⟩ := Kind.base_eq_blank hfresh hb
    exact κ.series.ignore_blank name _
  · intro m hm keep hkeep
    obtain ⟨i, hi, hview⟩ := List.mem_filterMap.mp hm
    exact Kind.view_ne_forget (fun p hp => hforget p (hp ▸ hi)) keep (hkeep ▸ hview)

/-- What a message to the kernel adds to a counter. -/
def Input.added (name : CString) : Input → Int
  | .listener _ p => increment name p
  | _ => 0

variable (R Re) in
omit [HashOrder] in
theorem added_view (name : CString) (i : Input) :
    (((Kind.counter.view R Re name i).bind submitted).map fun e => Int32.toInt e.2).getD 0 =
      Input.added name i := by
  cases i with
  | tock clock => rfl
  | management p =>
    simp only [Kind.view, Input.added]
    split
    · split <;> rfl
    · rfl
  | listener now p =>
    simp only [Kind.view, Input.added, increment]
    change Option.getD (Option.map _ (Option.bind (if p.is .counter 4 4 then _ else _) _)) 0 = _
    by_cases hp : p.is .counter 4 4
    · simp only [hp, if_true, Kind.series, counterSeries]
      cases decodeHead p with
      | none => rfl
      | some head =>
        cases p.string 3 with
        | none => rfl
        | some word =>
          by_cases hname : head.1 = name <;> simp [hname, submitted, pure]
    · simp [hp]

variable (R Re) in
omit [HashOrder] in
theorem sum_view (name : CString) (is : List Input) :
    (((is.filterMap (Kind.counter.view R Re name)).filterMap submitted).map
      fun e => Int32.toInt e.2).sum = (is.map (Input.added name)).sum := by
  rw [List.filterMap_filterMap]
  induction is with
  | nil => rfl
  | cons i is ih =>
    rw [List.map_cons, List.sum_cons, ← ih, ← added_view R Re name i, List.filterMap_cons]
    cases (Kind.counter.view R Re name i).bind submitted <;> simp

/-- What reached the listener. -/
def arrived (is : List Input) : List Pdu :=
  is.filterMap fun i => match i with
    | .listener _ p => some p
    | _ => none

omit [HashOrder] [Pcre Re] [Double R] in
theorem sum_arrived (name : CString) (is : List Input) :
    ((arrived is).map (increment name)).sum = (is.map (Input.added name)).sum := by
  induction is with
  | nil => rfl
  | cons i is ih =>
    rw [List.map_cons, List.sum_cons, ← ih]
    cases i <;> simp [arrived, Input.added]

/-- Collectors print, agents read their pipes in pieces of any size and send what they read, and
the PDUs arrive in any order, between anything else but a FORGET. Then what has been broadcast
about a counter that is declared or matches a rule, with what it still holds, is the sum of what
the complete lines of all collectors add to it, modulo the 64 bits of the counter. -/
theorem counts_collected {clock : Nat → Int32} {file : List UInt8} {s : Server R Re}
    (hs : Configured clock file s) {fleet : List Collector} (hgood : ∀ c ∈ fleet, c.Good)
    {name : CString} (hname : (Kind.counter.base name s.db).isSome) :
    ∃ sent : Collector → List Pdu, (∀ c ∈ fleet, c.Sends (sent c)) ∧
      ∀ (is : List Input) (k : Kernel R Re) (es : List Effect),
        (arrived is).Perm (fleet.flatMap sent) → Machine.run reactor (boot s) is = .ok (k, es) →
        (∀ p, .management p ∈ is → ¬p.is .forget 4 4) →
        ((((es.filterMap (Effect.select (Kind.counter.about name))).map (Pdu.number 3)).sum +
            (counterValue k.db name).toNat : Nat) : Int) ≡
          (fleet.map fun c => ((pieces NEWLINE c.output.bytes).map fun line =>
            added name (.ofBytes line)).sum).sum [ZMOD (2 ^ 64 : Nat)] := by
  have hsent : ∀ c, ∃ sent, c ∈ fleet → c.Sends sent := by
    intro c
    by_cases hc : c ∈ fleet
    · obtain ⟨sent, h⟩ := (hgood c hc).sends
      exact ⟨sent, fun _ => h⟩
    · exact ⟨[], fun h => absurd h hc⟩
  choose sent hsends using hsent
  refine ⟨sent, hsends, fun is k es harrived hrun hforget => ?_⟩
  have hlines : (fleet.map fun c => ((pieces NEWLINE c.output.bytes).map fun line =>
      added name (.ofBytes line)).sum).sum = (is.map (Input.added name)).sum := by
    calc _ = (fleet.map fun c => ((sent c).map (increment name)).sum).sum :=
          congrArg List.sum (List.map_congr_left fun c hc =>
            ((hsends c hc).increments (hgood c hc) name).symm)
      _ = ((fleet.flatMap sent).map (increment name)).sum := by
          simp [List.flatMap, List.map_flatten, List.sum_flatten, Function.comp_def]
      _ = ((arrived is).map (increment name)).sum := (harrived.map _).sum_eq.symm
      _ = _ := sum_arrived name is
  have hcounter := counter_conservation hs.loaded.fresh hrun hforget name
  rw [accepted_ledger .counter name hs.loaded.fresh hrun hforget hname] at hcounter
  rw [hlines, ← sum_view R Re]
  exact hcounter

end Aggregator

section Minutes

open Reference

/-- A collector that counts, read in two pieces; the other reads find nothing. -/
def hits : Collector where
  output := .lit "counter 10 hits 2\nCOUNTER 70 hits\n"
  buffer := .zero 8192
  cuts := 20 :: List.replicate 40 100
  time := 0

/-- A collector that counts one thing and measures another. -/
def both : Collector where
  output := .lit "counter 20 hits 5\nsample 20 load 7\n"
  buffer := .zero 8192
  cuts := List.replicate 40 100
  time := 0

def bothSent : List Pdu := [pdu .counter ["20", "hits", "5"], pdu .sample ["20", "load", "7"]]

def hitsSent : List Pdu := [pdu .counter ["10", "hits", "2"], pdu .counter ["70", "hits", "1"]]

theorem hits_good : hits.Good :=
  ⟨by decide +kernel, by decide +kernel, by decide +kernel⟩

theorem both_good : both.Good :=
  ⟨by decide +kernel, by decide +kernel, by decide +kernel⟩

theorem hits_sends : hits.Sends hitsSent :=
  ⟨[.lit "counter 10 hits 2", .lit "COUNTER 70 hits"], by decide +kernel, by decide +kernel⟩

theorem both_sends : both.Sends bothSent :=
  ⟨[.lit "counter 20 hits 5", .lit "sample 20 load 7"], by decide +kernel, by decide +kernel⟩

/-- The second minute is counted before the first is complete. -/
def arrivals : List Input :=
  [.listener 80 (pdu .counter ["70", "hits", "1"]), .listener 80 (pdu .counter ["20", "hits", "5"]),
   .tock { now := 81, sweep := 81, ms := 81000 },
   .listener 82 (pdu .counter ["10", "hits", "2"]), .listener 83 (pdu .sample ["20", "load", "7"])]

theorem counts_collected_minutes : ∃ k es,
    Machine.run reactor (boot minutes) arrivals = .ok (k, es) ∧
      ((((es.filterMap (Effect.select (Kind.counter.about (.lit "hits")))).map
        (Pdu.number 3)).sum + (counterValue k.db (.lit "hits")).toNat : Nat) : Int) ≡ 8
      [ZMOD (2 ^ 64 : Nat)] := by
  obtain ⟨⟨k, es⟩, hrun⟩ := exists_ok (x := Machine.run reactor (boot minutes) arrivals)
    (by decide +kernel)
  refine ⟨k, es, hrun, ?_⟩
  have hname : (Kind.counter.base (.lit "hits") minutes.db).isSome := by decide +kernel
  have hgood : ∀ c ∈ [hits, both], c.Good := by simp [hits_good, both_good]
  obtain ⟨sent, hsends, hcounts⟩ := counts_collected minutes_configured hgood hname
  have hhits : sent hits = hitsSent := (hsends hits (by simp)).unique hits_sends
  have hboth : sent both = bothSent := (hsends both (by simp)).unique both_sends
  have harrived : (arrived arrivals).Perm ([hits, both].flatMap sent) := by
    rw [List.flatMap_cons, List.flatMap_cons, List.flatMap_nil, hhits, hboth]
    decide +kernel
  have hlines : ([hits, both].map fun c => ((pieces NEWLINE c.output.bytes).map fun line =>
      added (.lit "hits") (.ofBytes line)).sum).sum = 8 := by decide +kernel
  rw [← hlines]
  exact hcounts arrivals k es harrived hrun (by simp [arrivals])

end Minutes

end Bolo.Fleet
