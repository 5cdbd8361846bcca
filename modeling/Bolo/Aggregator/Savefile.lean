import Bolo.Config.Reference
import Bolo.Savefile.Invariant
import Bolo.Savefile.Restart

/-!
# The save file of a configured kernel

What is written comes back under the same configuration, for any database that the format
can hold. Not every run leaves such a database: an event without a description is buffered
and written, and the reader stops at it. Whatever is read, and whatever happens then, the
kernel never follows a NULL pointer.
-/
namespace Bolo

open Library

variable {R Re : Type}

/-! ## Round trip -/

section RoundTrip

variable [Double R] [Pcre Re] [HashOrder] {clock : Nat → Int32} {file : List UInt8}
  {s : Server R Re}

/-- A database whose records the format can hold, in a save file of 1 to 2047 MiB that has room
for them, is written record by record, read back in step, and restored into any database of a
configuration that knows its names. -/
theorem savefile_round_trip (hs : Configured clock file s) {db : Db R Re} (h : db.Savable)
    (hknown : Recognises s.db db) {dbSize : Int32} (hmin : 1 ≤ dbSize.toInt)
    (hmax : dbSize.toInt ≤ 2047)
    (hfit : (16 + (db.payloads.map Payload.size).sum + 2 : Nat) ≤ dbSize.toInt * 1024 * 1024)
    (now : Int32) (restart : Nat → Int32) :
    ∃ m db', binfWrite now dbSize db = .ok (some m) ∧ FileOf now db m ∧
      binfRead restart m s.db = .ok (0, db') ∧ Restored db db' := by
  rw [← mapSize_eq (by omega) hmax] at hfit
  exact binf_round_trip restart now h hfit hs.loaded.wf hs.loaded.events hknown

end RoundTrip

section Journal

open Reference

/-- A submission of every kind. -/
def everyKind : List Input :=
  [.listener 61 (pdu .state ["61", "web", "1", "slow"]),
   .listener 62 (pdu .counter ["62", "hits", "5"]),
   .listener 63 (pdu .sample ["63", "load", "3"]),
   .listener 64 (pdu .rate ["64", "bytes", "1000"]),
   .listener 65 (pdu .event ["65", "deploy", "v2"])]

theorem everyKind_stored : ∃ k es, Machine.run reactor (boot journal) everyKind = .ok (k, es) ∧
    Stored journal.db k.db ∧ k.db.Wf ∧ k.db.payloads.length = 5 ∧
    (k.db.payloads.map Payload.size).sum = 173 := by
  obtain ⟨⟨k, es⟩, hrun⟩ := exists_ok (x := Machine.run reactor (boot journal) everyKind)
    (by decide +kernel)
  have hsize : (Machine.run reactor (boot journal) everyKind).map (fun r =>
      (r.1.db.payloads.length, (r.1.db.payloads.map Payload.size).sum)) = .ok (5, 173) := by
    decide +kernel
  rw [hrun] at hsize
  obtain ⟨hcount, hsum⟩ := Prod.mk.inj (Except.ok.inj hsize)
  have hloaded := journal_configured.loaded
  exact ⟨k, es, hrun, (Stored.of_loaded hloaded).run (.of_check (by decide +kernel)) hrun,
    (run_meets (k := boot journal) hloaded.wf _).result hrun, hcount, hsum⟩

theorem savefile_round_trip_journal : ∃ (db : Db Int CString) (m : Mapping) (db' : Db Int CString),
    db.payloads.length = 5 ∧ binfWrite 70 4 db = .ok (some m) ∧ FileOf 70 db m ∧
      binfRead epoch m journal.db = .ok (0, db') ∧ Restored db db' := by
  obtain ⟨k, es, -, hstored, hwf, hcount, hsum⟩ := everyKind_stored
  have hfit : (16 + (k.db.payloads.map Payload.size).sum + 2 : Nat) ≤
      (4 : Int32).toInt * 1024 * 1024 := by
    rw [hsum]
    decide
  obtain ⟨m, db', h⟩ := savefile_round_trip journal_configured (hstored.savable hwf)
    (hstored.recognises journal_configured journal_configured) (by decide) (by decide) hfit 70 epoch
  exact ⟨k.db, m, db', hcount, h⟩

end Journal

/-! ## Restart -/

section Restart

variable [Double R] [Pcre Re] [HashOrder] {clock clock' : Nat → Int32} {file : List UInt8}
  {s s' : Server R Re} {k : Kernel R Re} {is : List Input} {es : List Effect}

/-- A run of messages that store nothing too large or empty leaves a database that is saved,
and restored by a restart under the same configuration. -/
theorem restart_restores (hs : Configured clock file s) (hs' : Configured clock' file s')
    (hrun : Machine.run reactor (boot s) is = .ok (k, es))
    (hstore : Machine.Along reactor (fun k i => i.Storable k) (boot s) is)
    (hfit : (16 + (k.db.payloads.map Payload.size).sum + 2 : Nat) ≤
      mapSize k.server.config.saveSize)
    (now : Int32) (restart : Nat → Int32) :
    ∃ m db', binfWrite now k.server.config.saveSize k.db = .ok (some m) ∧ FileOf now k.db m ∧
      binfRead restart m s'.db = .ok (0, db') ∧ Restored k.db db' := by
  have hstored : Stored s.db k.db := (Stored.of_loaded hs.loaded).run hstore hrun
  have hwf : k.db.Wf := (run_meets (k := boot s) hs.loaded.wf is).result hrun
  exact binf_round_trip restart now (hstored.savable hwf) hfit hs'.loaded.wf hs'.loaded.events
    (hstored.recognises hs hs')

end Restart

section Journal

open Reference

theorem restart_restores_journal : ∃ k es m db',
    Machine.run reactor (boot journal) (everyKind ++ [.tock ⟨200, 200, 0⟩]) = .ok (k, es) ∧
      binfWrite 200 k.server.config.saveSize k.db = .ok (some m) ∧
      binfRead epoch m journal.db = .ok (0, db') ∧ Restored k.db db' := by
  obtain ⟨⟨k, es⟩, hrun⟩ := exists_ok
    (x := Machine.run reactor (boot journal) (everyKind ++ [.tock ⟨200, 200, 0⟩]))
    (by decide +kernel)
  have hsize : (Machine.run reactor (boot journal) (everyKind ++ [.tock ⟨200, 200, 0⟩])).map
      (fun r => decide ((16 + (r.1.db.payloads.map Payload.size).sum + 2 : Nat) ≤
        mapSize r.1.server.config.saveSize)) = .ok true := by
    decide +kernel
  rw [hrun] at hsize
  obtain ⟨m, db', hwrite, -, hread⟩ := restart_restores journal_configured journal_configured hrun
    (.of_check (by decide +kernel)) (by simpa using Except.ok.inj hsize) 200 epoch
  exact ⟨k, es, m, db', hrun, hwrite, hread⟩

/-- An event without a description is buffered and saved, but the reader rejects its record. -/
theorem silent_event_rejected :
    Configured epoch (CString.ascii journalFile) journal ∧ ∃ k es m db',
      Machine.run reactor (boot journal) [.listener 65 (pdu .event ["65", "deploy", ""])] =
        .ok (k, es) ∧
      (16 + (k.db.payloads.map Payload.size).sum + 2 : Nat) ≤ mapSize k.server.config.saveSize ∧
      binfWrite 70 k.server.config.saveSize k.db = .ok (some m) ∧
      binfRead epoch m journal.db = .ok (-1, db') := by
  have hall : (do
      let r ← Machine.run reactor (boot journal) [.listener 65 (pdu .event ["65", "deploy", ""])]
      let file ← binfWrite 70 r.1.server.config.saveSize r.1.db
      let m ← deref file
      let read ← binfRead epoch m journal.db
      return ((r.1.db.payloads.map Payload.size).sum, r.1.server.config.saveSize, read.1)) =
        .ok (193, 4, -1) := by
    decide +kernel
  simp only [bind_eq_ok, pure_eq_ok, deref_eq_ok, Prod.mk.injEq] at hall
  obtain ⟨⟨k, es⟩, hrun, file, hwrite, m, hfile, ⟨rc, db'⟩, hread, hsum, hsize, hrc⟩ := hall
  subst hfile hrc
  refine ⟨journal_configured, k, es, m, db', hrun, ?_, hwrite, hread⟩
  rw [hsum, hsize]
  decide

end Journal

/-! ## Pointers -/

section Pointers

variable [Double R] [Pcre Re] [HashOrder] {clock : Nat → Int32} {file : List UInt8}
  {s : Server R Re}

/-- No sequence of restores, submissions, requests and ticks breaks the database, and neither
one of them nor a save follows a NULL pointer. -/
theorem kernel_sound (hs : Configured clock file s) (as : List Activity) :
    Meets .nullDeref
      (fun r => r.1.db.Wf ∧ ∀ now dbSize, binfWrite now dbSize r.1.db ≠ .error .nullDeref)
      (Machine.run activity (boot s) as) :=
  (activities_meets (k := boot s) (by decide) hs.loaded.wf.safe_null as).mono fun _ h =>
    ⟨h.wf, fun now dbSize => (binfWrite_meets h.wf now dbSize).ne_bad⟩

end Pointers

section Hosts

open Reference

/-- A file with one record: `web` was up at 10. -/
def webSaved : Mapping where
  bytes := CString.ascii "BOLO" ++ [0, 1, 0, 0, 0, 0, 0, 10, 0, 0, 0, 1] ++
    [0, 18, 0, 1, 0, 0, 0, 10, 0, 0, 0] ++ CString.ascii "web" ++ [0] ++ CString.ascii "up" ++
    [0, 0, 0]
  size := 4 * 1024 * 1024

theorem kernel_sound_hosts : ∃ k es,
    Machine.run activity (boot hosts)
      [.restore epoch webSaved, .message (.listener 20 (pdu .state ["20", "db1", "2", "down"])),
       .message (.management (pdu .forget ["1", "db", "1"])), .message (.tock ⟨80, 80, 0⟩)] =
        .ok (k, es) ∧ k.db.Wf := by
  obtain ⟨⟨k, es⟩, hrun⟩ := exists_ok (x := Machine.run activity (boot hosts)
    [.restore epoch webSaved, .message (.listener 20 (pdu .state ["20", "db1", "2", "down"])),
     .message (.management (pdu .forget ["1", "db", "1"])), .message (.tock ⟨80, 80, 0⟩)])
    (by decide +kernel)
  exact ⟨k, es, hrun, ((kernel_sound hosts_configured _).result hrun).1⟩

end Hosts

end Bolo
