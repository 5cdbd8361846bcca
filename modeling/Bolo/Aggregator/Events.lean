import Bolo.Config.Loaded
import Bolo.Config.Reference
import Bolo.Kernel.EventBuffer
import Bolo.Savefile.Invariant

/-!
# Events of a configured kernel

Which events the buffer holds after a run, and what GET.EVENTS says about them. The cached
count is right until a save file with events is restored: `binf_read` pushes onto the list
and leaves the count alone.
-/
namespace Bolo

open Library

variable {R Re : Type}

/-! ## The count -/

section Count

variable [Double R] [Pcre Re] [HashOrder] {clock : Nat → Int32} {file : List UInt8}
  {s : Server R Re} {k k' : Kernel R Re} {es : List Effect}

omit [Pcre Re] [HashOrder] in
/-- A restore of a file without events, or a message that leaves the count within an `int`. -/
def Activity.Countable (k : Kernel R Re) : Activity → Prop
  | .restore _ m => ∀ p ∈ mergedRecords R m, p.event? = none
  | .message i => i.event.isSome → 0 < k.server.config.eventsMax →
      k.db.events.length + 1 < 2 ^ 31 ∨
        k.server.config.eventsKeep = .number ∧ k.server.config.eventsMax.toInt < 2 ^ 31 - 1

omit [Pcre Re] [HashOrder] in
instance (k : Kernel R Re) : (a : Activity) → Decidable (a.Countable k)
  | .restore _ m => inferInstanceAs (Decidable (∀ p ∈ mergedRecords R m, p.event? = none))
  | .message i => inferInstanceAs (Decidable (i.event.isSome → 0 < _ → _ < _ ∨ _ = _ ∧ _ < _))

omit [Double R] [Pcre Re] [HashOrder] in
/-- The count is the length of the list, and a limited number is not exceeded. -/
structure Kernel.Tallied (k : Kernel R Re) : Prop where
  counted : k.db.buffer.Counted
  limited : 0 < k.server.config.eventsMax → k.server.config.eventsKeep = .number →
    (k.db.events.length : Int) ≤ k.server.config.eventsMax.toInt

theorem Kernel.Tallied.step {a : Activity} (h : k.Tallied) (ha : a.Countable k)
    (hstep : activity k a = .ok (k', es)) : k'.Tallied := by
  cases a with
  | restore clock m =>
    simp only [activity, bind_eq_ok, pure_eq_ok, Prod.mk.injEq] at hstep
    obtain ⟨r, hread, rfl, -⟩ := hstep
    obtain ⟨hevents, hcount⟩ := binfRead_events hread
    have hnone : (mergedRecords R m).filterMap Payload.event? = [] :=
      List.filterMap_eq_nil_iff.mpr ha
    rw [hnone, List.append_nil] at hevents
    refine ⟨?_, fun hmax hkeep => ?_⟩
    · simpa [EventBuffer.Counted, Db.buffer, Kernel.setDb, Kernel.db, hevents, hcount]
        using h.counted
    · simpa [Kernel.setDb, Kernel.db, hevents] using h.limited hmax hkeep
  | message i =>
    obtain ⟨hconfig, hbuffer⟩ := reactor_buffer hstep
    cases hi : i.event with
    | none =>
      have hsame : k'.db.buffer = k.db.buffer := by simpa [hi] using hbuffer
      have hevents : k'.db.events = k.db.events := congrArg EventBuffer.events hsame
      exact ⟨hsame ▸ h.counted, by rw [hconfig, hevents]; exact h.limited⟩
    | some ev =>
      rw [hi, Option.elim_some] at hbuffer
      have hroom : 0 < k.server.config.eventsMax → k.db.buffer.events.length + 1 < 2 ^ 31 := by
        intro hmax
        rcases ha (by simp [hi]) hmax with hlen | ⟨hkeep, hlt⟩
        · exact hlen
        · have := h.limited hmax hkeep
          change k.db.events.length + 1 < 2 ^ 31
          omega
      obtain ⟨hcounted, hlimit⟩ := h.counted.push hroom hbuffer
      exact ⟨hcounted, by rw [hconfig]; exact hlimit⟩

/-- As long as no file with events is restored and the count stays within its type, the count
is the length of the list, and a number of events to keep is never exceeded. -/
theorem events_counted (hs : Configured clock file s) {as : List Activity}
    (hrun : Machine.run activity (boot s) as = .ok (k, es))
    (has : Machine.Along activity (fun k a => a.Countable k) (boot s) as) :
    k.db.eventsCount.toInt = k.db.events.length ∧
      (0 < k.server.config.eventsMax → k.server.config.eventsKeep = .number →
        (k.db.events.length : Int) ≤ k.server.config.eventsMax.toInt) := by
  have hboot : (boot s).Tallied := by
    have hevents : (boot s).db.events = [] := hs.loaded.events
    have hcount : (boot s).db.eventsCount = 0 := hs.loaded.eventsCount
    refine ⟨by simp [EventBuffer.Counted, Db.buffer, hevents, hcount], fun hmax _ => ?_⟩
    have hpos : 0 < (boot s).server.config.eventsMax.toInt := Int32.lt_iff_toInt_lt.mp hmax
    simp only [hevents, List.length_nil]
    omega
  have hk : k.Tallied :=
    Machine.run_along (fun _ _ _ _ h ha hstep => h.step ha hstep) hboot has hrun
  exact ⟨hk.counted, hk.limited⟩

end Count

section Journal

open Reference

/-- A file with one event, from 65. -/
def deploySaved : Mapping where
  bytes := CString.ascii "BOLO" ++ [0, 1, 0, 0, 0, 0, 0, 70, 0, 0, 0, 1] ++
    [0, 18, 0, 4, 0, 0, 0, 65] ++ CString.ascii "deploy" ++ [0] ++ CString.ascii "v2" ++ [0] ++
    [0, 0]
  size := 4 * 1024 * 1024

/-- A file without records. -/
def nothingSaved : Mapping where
  bytes := CString.ascii "BOLO" ++ [0, 1, 0, 0, 0, 0, 0, 70, 0, 0, 0, 0] ++ [0, 0]
  size := 4 * 1024 * 1024

def deploys (n : Nat) : List Activity :=
  List.replicate n (.message (.listener 71 (pdu .event ["71", "deploy", "v3"])))

theorem events_counted_journal : ∃ k es,
    Machine.run activity (boot journal) (.restore epoch nothingSaved :: deploys 7) =
        .ok (k, es) ∧
      k.db.eventsCount.toInt = k.db.events.length ∧
      (k.db.events.length : Int) ≤ k.server.config.eventsMax.toInt := by
  obtain ⟨⟨k, es⟩, hrun⟩ := exists_ok
    (x := Machine.run activity (boot journal) (.restore epoch nothingSaved :: deploys 7))
    (by decide +kernel)
  have hconfig : (Machine.run activity (boot journal)
      (.restore epoch nothingSaved :: deploys 7)).map (fun r =>
        (decide (0 < r.1.server.config.eventsMax), r.1.server.config.eventsKeep)) =
      .ok (true, .number) := by
    decide +kernel
  rw [hrun] at hconfig
  obtain ⟨hmax, hkeep⟩ := Prod.mk.inj (Except.ok.inj hconfig)
  obtain ⟨hcount, hlimit⟩ := events_counted journal_configured hrun (.of_check (by decide +kernel))
  exact ⟨k, es, hrun, hcount, hlimit (by simpa using hmax) hkeep⟩

/-- After one event was restored, the count is one short; when as many events have come as the
buffer may hold, it holds one more. -/
theorem restored_event_uncounted :
    Configured epoch (CString.ascii journalFile) journal ∧
    (∃ k es, Machine.run activity (boot journal) [.restore epoch deploySaved] = .ok (k, es) ∧
      k.db.events.length = 1 ∧ k.db.eventsCount = 0) ∧
    ∃ k es, Machine.run activity (boot journal) (.restore epoch deploySaved :: deploys 5) =
        .ok (k, es) ∧
      k.db.events.length = 6 ∧ k.server.config.eventsMax = 5 := by
  have hone : (Machine.run activity (boot journal) [.restore epoch deploySaved]).map
      (fun r => (r.1.db.events.length, r.1.db.eventsCount)) = .ok (1, 0) := by decide +kernel
  have hsix : (Machine.run activity (boot journal) (.restore epoch deploySaved :: deploys 5)).map
      (fun r => (r.1.db.events.length, r.1.server.config.eventsMax)) = .ok (6, 5) := by
    decide +kernel
  refine ⟨journal_configured, ?_, ?_⟩
  · obtain ⟨⟨k, es⟩, hrun, hk⟩ := map_eq_ok.mp hone
    exact ⟨k, es, hrun, Prod.mk.inj hk⟩
  · obtain ⟨⟨k, es⟩, hrun, hk⟩ := map_eq_ok.mp hsix
    exact ⟨k, es, hrun, Prod.mk.inj hk⟩

end Journal

/-! ## Retention -/

section Listing

/-- The text in which GET.EVENTS lists events. -/
def listing (evs : List Event) : Except Fault CString := do
  return (← evs.mapM dumpEvent).foldl (· ++ ·) (.lit "---\n# generated by bolo\n")

/-- Three lines: the name of the event, its time and its description. -/
def Event.Entry (ev : Event) (entry : List UInt8) : Prop :=
  ∃ name extra, ev.name = some name ∧ ev.extra = some extra ∧
    entry = CString.ascii "- name:  " ++ name.bytes ++ CString.ascii "\n" ++
      CString.ascii "  when:  " ++ (decimalInt ev.timestamp.toInt).bytes ++ CString.ascii "\n" ++
      CString.ascii "  extra: " ++ extra.bytes ++ CString.ascii "\n"

/-- A header, and an entry for each event. -/
def Lists (evs : List Event) (text : CString) : Prop :=
  ∃ entries, List.Forall₂ Event.Entry evs entries ∧
    text.bytes = CString.ascii "---\n# generated by bolo\n" ++ entries.flatten

theorem dumpEvent_entry {ev : Event} {part : CString} (h : dumpEvent ev = .ok part) :
    ev.Entry part.bytes := by
  simp only [dumpEvent, bind_eq_ok, deref_eq_ok, pure_eq_ok] at h
  obtain ⟨name, hname, extra, hextra, rfl⟩ := h
  exact ⟨name, extra, hname, hextra, rfl⟩

theorem bytes_foldl_append (parts : List CString) (text : CString) :
    (parts.foldl (· ++ ·) text).bytes = text.bytes ++ (parts.map CString.bytes).flatten := by
  induction parts generalizing text with
  | nil => simp
  | cons part parts ih => simp [ih]

theorem lists_of_listing {evs : List Event} {text : CString} (h : listing evs = .ok text) :
    Lists evs text := by
  obtain ⟨parts, hparts, h⟩ := bind_eq_ok.mp h
  obtain rfl := Except.ok.inj h
  refine ⟨parts.map CString.bytes, ?_, bytes_foldl_append parts _⟩
  exact List.forall₂_map_right_iff.mpr ((mapM_eq_ok_iff.mp hparts).imp fun _ _ => dumpEvent_entry)

theorem listing_complete {evs : List Event} (h : ∀ ev ∈ evs, ev.Wf) :
    ∃ text, listing evs = .ok text := by
  suffices ∃ parts, evs.mapM dumpEvent = .ok parts by
    obtain ⟨parts, hparts⟩ := this
    exact ⟨_, by rw [listing, hparts]; rfl⟩
  induction evs with
  | nil => exact ⟨[], rfl⟩
  | cons ev evs ih =>
    obtain ⟨⟨name, hname⟩, extra, hextra⟩ := h ev (by simp)
    obtain ⟨parts, hparts⟩ := ih fun e he => h e (by simp [he])
    simp only [List.mapM_cons, dumpEvent, hname, hextra, hparts, deref_some]
    exact ⟨_, rfl⟩

/-- `[ GET.EVENTS | since ]` -/
def getEvents (since : Int32) : Pdu :=
  { type := Tag.getEvents.text, frames := [decimalInt since.toInt] }

theorem manage_getEvents [Pcre Re] [HashOrder] (s : Server R Re) (since : Int32) :
    manage s (getEvents since) = do
      let text ← listing (s.db.events.filter fun ev => since ≤ ev.timestamp)
      return (s, [reply .events [← mappedString text]]) := by
  have hlo := since.le_toInt
  have hhi := since.toInt_lt
  have hread : (strtol (decimalInt since.toInt)).toInt32 = since := by
    apply Int32.toInt_inj.mp
    rw [Int64.toInt_toInt32, strtol_decimalInt (by omega) (by omega)]
    exact Int.bmod_eq_of_le (by omega) (by omega)
  have hreply : manage s (getEvents since) = do
      return (s, [← replyEvents s.db (strtol (decimalInt since.toInt)).toInt32]) := by
    simp only [manage, getEvents, Pdu.is, Pdu.size, Pdu.string]
    rfl
  rw [hreply, hread]
  simp only [replyEvents, listing, bind_assoc, pure_bind]

end Listing

section Retention

variable [Double R] [Pcre Re] [HashOrder]

/-- What a kernel with the settings of `s` holds and says after the events `all`. -/
structure Retains (s : Server R Re) (k : Kernel R Re) (all : List Event) : Prop where
  /-- By number: the last ones, unless the count has overflown. -/
  byNumber : s.config.eventsKeep = .number → 0 < s.config.eventsMax →
    (k.db.events = all.rtake s.config.eventsMax.toInt.toNat ↔
      s.config.eventsMax.toInt < 2 ^ 31 - 1 ∨ all.length ≤ s.config.eventsMax.toInt.toNat)
  /-- By age: those newer than the last one less the time to keep them. -/
  byTime : s.config.eventsKeep = .time → 0 < s.config.eventsMax → Chronological all →
    (∀ ev ∈ all, -2 ^ 31 ≤ ev.timestamp.toInt - s.config.eventsMax.toInt) →
    k.db.events = unexpired s.config.eventsMax all
  /-- A reply lists those that are not older than asked for, unless their text fills its last
  page. -/
  listed : ∀ since : Int32, ∃ text,
    Lists (k.db.events.filter fun ev => since ≤ ev.timestamp) text ∧
      (manage k.server (getEvents since) = .ok (k.server, [reply .events [text]]) ↔
        text.length % PAGE_SIZE ≠ 0)
  /-- The next event is taken. -/
  accepted : ∀ (now : Int32) (p : Pdu) (ev : Event), p.is .event 4 4 → decodeEvent p = some ev →
    0 < s.config.eventsMax →
    (s.config.eventsKeep = .time → Chronological (all ++ [ev]) ∧
      ∀ e ∈ all ++ [ev], -2 ^ 31 ≤ e.timestamp.toInt - s.config.eventsMax.toInt) →
    ∃ r, reactor k (.listener now p) = .ok r

omit [Double R] [Pcre Re] [HashOrder] in
theorem replies_iff {text : CString} {s : Server R Re} :
    (do return (s, [reply .events [← mappedString text]]) : Except Fault _) =
        .ok (s, [reply .events [text]]) ↔ text.length % PAGE_SIZE ≠ 0 := by
  unfold mappedString
  split <;> simp_all [bind, Except.bind, pure, Except.pure]

theorem push_accepted {k : Kernel R Re} {now : Int32} {p : Pdu} {ev : Event} {b : EventBuffer}
    (hp : p.is .event 4 4) (hev : decodeEvent p = some ev)
    (hpush : k.db.buffer.push k.server.config.eventsMax k.server.config.eventsKeep ev = .ok b) :
    ∃ r, reactor k (.listener now p) = .ok r := by
  obtain ⟨ev', out, hev', -, hr⟩ := receiveEvent_eq hp k.server.config k.db
  obtain rfl : ev = ev' := by simpa [hev] using hev'
  rw [reactor, listen_event hp, hr, hpush]
  exact ⟨_, rfl⟩

/-- A run from a configured server retains events exactly, on the stated conditions. -/
theorem events_retained {clock : Nat → Int32} {file : List UInt8} {s : Server R Re}
    {k : Kernel R Re} {is : List Input} {es : List Effect} (hs : Configured clock file s)
    (hrun : Machine.run reactor (boot s) is = .ok (k, es)) :
    Retains s k (is.filterMap Input.event) := by
  let c := @bufferComponent R Re _ _ _ s.config.eventsMax s.config.eventsKeep
  have hinv : c.inv (boot s) := ⟨rfl, rfl⟩
  obtain ⟨hmaxEq, hkeepEq⟩ := c.inv_run hinv hrun
  have hcell : Machine.run (EventBuffer.step s.config.eventsMax s.config.eventsKeep)
      (boot s).db.buffer (is.filterMap Input.event) = .ok (k.db.buffer, es.filterMap c.obs) :=
    c.run_proj hinv hrun
  have hevents : (boot s).db.buffer.events = [] := hs.loaded.events
  have hcount : (boot s).db.buffer.count = 0 := hs.loaded.eventsCount
  have hwf : k.db.Wf := (run_meets (k := boot s) hs.loaded.wf is).result hrun
  refine ⟨fun hkeep hmax => ?_, fun hkeep hmax hchron hts => ?_, fun since => ?_, ?_⟩
  · rw [hkeep] at hcell
    exact (EventBuffer.HoldsLast.run hmax hcount hevents hcell).events_eq_iff hmax
  · rw [hkeep] at hcell
    exact EventBuffer.run_time hmax hevents hchron hts hcell
  · have hlisted : ∀ ev ∈ k.db.events.filter (fun ev => since ≤ ev.timestamp), ev.Wf :=
      fun ev hev => hwf.events ev (List.mem_of_mem_filter hev)
    obtain ⟨text, htext⟩ := listing_complete hlisted
    refine ⟨text, lists_of_listing htext, ?_⟩
    rw [manage_getEvents]
    change (listing (k.db.events.filter fun ev => since ≤ ev.timestamp) >>= _) = _ ↔ _
    rw [htext]
    exact replies_iff
  · intro now p ev hp hev hmax htime
    suffices ∃ b, k.db.buffer.push s.config.eventsMax s.config.eventsKeep ev = .ok b by
      obtain ⟨b, hb⟩ := this
      exact push_accepted hp hev (hmaxEq ▸ hkeepEq ▸ hb)
    cases hkeep : s.config.eventsKeep with
    | number =>
      rw [hkeep] at hcell
      obtain ⟨b, hb, -⟩ := (EventBuffer.HoldsLast.run hmax hcount hevents hcell).push hmax ev
      exact ⟨b, hb⟩
    | time =>
      rw [hkeep] at hcell
      obtain ⟨hchron, hts⟩ := htime hkeep
      have hold := EventBuffer.run_time hmax hevents
        (hchron.sublist (List.sublist_append_left _ _)) (fun e he => hts e (by simp [he])) hcell
      obtain ⟨b, hb, -⟩ := EventBuffer.push_time hmax hold hchron (hts ev (by simp))
      exact ⟨b, hb⟩

end Retention

section Journal

open Reference

theorem events_retained_journal : ∃ k es,
    Machine.run reactor (boot journal)
      (List.replicate 7 (.listener 71 (pdu .event ["71", "deploy", "v3"]))) = .ok (k, es) ∧
      k.db.events = (List.replicate 7
        { timestamp := 71, name := some (.lit "deploy"), extra := some (.lit "v3") }).rtake 5 := by
  obtain ⟨⟨k, es⟩, hrun⟩ := exists_ok (x := Machine.run reactor (boot journal)
    (List.replicate 7 (.listener 71 (pdu .event ["71", "deploy", "v3"])))) (by decide +kernel)
  have hretains := events_retained journal_configured hrun
  exact ⟨k, es, hrun, (hretains.byNumber rfl (by decide)).mpr (.inl (by decide))⟩

/-- A description with which the listing of one event fills a page. -/
def longText : CString :=
  ⟨List.replicate 4040 65, fun h => absurd (List.eq_of_mem_replicate h) (by decide)⟩

/-- The reply to GET.EVENTS is read beyond the end of the mapped page. -/
theorem full_page_overrun :
    Configured epoch (CString.ascii journalFile) journal ∧ ∃ k es text,
      Machine.run reactor (boot journal)
        [.listener 1 { type := Tag.event.text, frames := [.lit "1", .lit "x", longText] }] =
          .ok (k, es) ∧
      listing (k.db.events.filter fun ev => 0 ≤ ev.timestamp) = .ok text ∧
      text.length = PAGE_SIZE ∧ manage k.server (getEvents 0) = .error .outOfBounds := by
  have hall : (do
      let r ← Machine.run reactor (boot journal)
        [.listener 1 { type := Tag.event.text, frames := [.lit "1", .lit "x", longText] }]
      let text ← listing (r.1.db.events.filter fun ev => 0 ≤ ev.timestamp)
      return text.length) = .ok PAGE_SIZE := by
    decide +kernel
  simp only [bind_eq_ok, pure_eq_ok] at hall
  obtain ⟨⟨k, es⟩, hrun, text, htext, hlen⟩ := hall
  refine ⟨journal_configured, k, es, text, hrun, htext, hlen, ?_⟩
  have hfull : mappedString text = .error .outOfBounds := by simp [mappedString, hlen]
  rw [manage_getEvents]
  change (listing (k.db.events.filter fun ev => 0 ≤ ev.timestamp) >>= _) = _
  rw [htext]
  simp only [bind, Except.bind, hfull]

end Journal

/-! ## Trimming by age -/

/-- The loop that drops old events stops in front of the new one, unless the time before which
events are old is below the least `int32_t`. Then it is above instead, and only an event from
the end of time could stop the loop. -/
theorem trimming_stops_iff (db : Db R Re) (ev : Event) {max : Int32} (hmax : 0 < max) :
    (∃ db', bufferEvent db ev max .time = .ok db' ∧ db'.events.getLast? = some ev) ↔
      -2 ^ 31 ≤ ev.timestamp.toInt - max.toInt ∨
        ∃ e ∈ db.events, ev.timestamp.toInt - max.toInt + 2 ^ 32 < e.timestamp.toInt := by
  refine Iff.trans ?_ (EventBuffer.push_time_ok_iff (b := db.buffer) hmax)
  simp only [bufferEvent_eq, bind_eq_ok, pure_eq_ok]
  constructor
  · rintro ⟨_, ⟨b, hb, rfl⟩, -⟩
    exact ⟨b, hb⟩
  · rintro ⟨b, hb⟩
    exact ⟨_, ⟨b, hb, rfl⟩, EventBuffer.push_time_last hmax hb⟩

section Logbook

open Reference

/-- Events are kept for a minute. -/
def logbook : Server Int CString :=
  { defaults Int CString with
    config := { (defaults Int CString).config with eventsMax := 60, eventsKeep := .time } }

def logbookFile : String := "max.events 60s\n"

def deployed : Event :=
  { timestamp := 71, name := some (.lit "deploy"), extra := some (.lit "v3") }

theorem trimming_stops_logbook : ∃ db', bufferEvent logbook.db deployed 60 .time = .ok db' ∧
    db'.events.getLast? = some deployed :=
  (trimming_stops_iff logbook.db deployed (by decide)).mpr (.inl (by decide))

/-- An event from the beginning of time is dropped itself, and the loop goes on with an empty
list. -/
theorem trimming_overruns :
    Configured epoch (CString.ascii logbookFile) logbook ∧
      reactor (boot logbook) (.listener 71 (pdu .event ["-2147483648", "deploy", "v3"])) =
        .error .outOfBounds :=
  ⟨configured (by decide +kernel), rfl⟩

end Logbook

end Bolo
