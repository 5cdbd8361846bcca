import Bolo.Config.Reading
import Bolo.Config.Reference

/-!
# Layout of a configuration file

A newline between two tokens may be replaced by a blank, if every token of the line before it
ends by itself. A time takes what follows it on its line, and a string without a closing quote
goes on to the newline.

The proof has three stretches. Up to the line in question both files are the same. Then the one
has a line to go where the other has it behind a blank. After that they have the same text
again, in buffers with different stale bytes.
-/
namespace Bolo

open Library

/-! ## Stale bytes -/

/-- A line without its newline. -/
structure Clean (l : List UInt8) : Prop where
  nulFree : 0 ∉ l
  single : NEWLINE ∉ l
  short : l.length < 8190

/-- The same text and the same lines, but not the same bytes behind the text. -/
structure Stale (p q : Parser) : Prop where
  value : p.value = q.value
  eof : p.eof = false ∧ q.eof = false
  lines : ∃ ys, (∀ l ∈ ys, Clean l) ∧ p.lines = ended ys ∧ q.lines = ended ys
  text : ∃ w, Ended w ∧ skip w = w ∧ p.Has w ∧ q.Has w

section Stale

variable {p q : Parser} {ys : List (List UInt8)} (hys : ∀ l ∈ ys, Clean l)
include hys

theorem lexToken_stale {w : List UInt8} (hw : Ended w) (hskip : skip w = w) (hidle : ¬Idle w)
    (hp : p.Has w) (hq : q.Has w) (hvalue : p.value = q.value)
    (heof : p.eof = false ∧ q.eof = false) (hlines : p.lines = ended ys ∧ q.lines = ended ys) :
    Agree (Step AtEnd Stale) (lexToken p) (lexToken q) := by
  obtain ⟨hdangling, htoken⟩ := lexeme_whole hw
  cases hlex : lexeme w with
  | token e t v r =>
    obtain ⟨he, hr, hskip'⟩ := htoken e t v r hlex
    refine lexToken_alike hp hq hlex (fun hword => absurd hword he) hlex he hvalue
      fun p' q' hp' hq' hvalue' hop hoq => ?_
    exact ⟨hvalue', ⟨hop.eof.trans heof.1, hoq.eof.trans heof.2⟩,
      ⟨ys, hys, hop.lines.trans hlines.1, hoq.lines.trans hlines.2⟩, r, hr, hskip', hp' he, hq'⟩
  | fail =>
    obtain ⟨p', hp', hop⟩ := lexToken_fail hp hskip hidle hlex
    obtain ⟨q', hq', hoq⟩ := lexToken_fail hq hskip hidle hlex
    rw [hp', hq']
    refine ⟨rfl, fun hsome => absurd hsome (by simp), fun _ => ⟨?_, fun htrue => ?_⟩⟩
    · exact hop.eof.trans (heof.1.trans (hoq.eof.trans heof.2).symm)
    · simp [hop.eof, heof.1] at htrue
  | dangling => exact absurd hlex hdangling

theorem getline_stale (hvalue : p.value = q.value) :
    Agree (Started AtEnd Stale) (getline p (ended ys)) (getline q (ended ys)) := by
  induction ys with
  | nil => trivial
  | cons l ys ih =>
    have hl := hys l (by simp)
    have hys' : ∀ l ∈ ys, Clean l := fun y hy => hys y (by simp [hy])
    have hgetp := getline_line (p := p) (ended ys) hl.nulFree hl.single (.inr rfl) hl.short
    have hgetq := getline_line (p := q) (ended ys) hl.nulFree hl.single (.inr rfl) hl.short
    rw [ended, List.map_cons, ← ended]
    by_cases hidle : Idle (skip (l ++ [NEWLINE]))
    · rw [hgetp.1 hidle, hgetq.1 hidle]
      exact ih hys'
    · obtain ⟨p', hp', hhas, hvalue', hlines, heof⟩ := hgetp.2 hidle
      obtain ⟨q', hq', hhas', hvalue'', hlines', heof'⟩ := hgetq.2 hidle
      rw [hp', hq']
      rw [reachesEof_newline] at heof heof'
      have hended : Ended (l ++ [NEWLINE]) := .inr ⟨l, rfl⟩
      exact lexToken_stale hys' hended.skip (skip_skip _) hidle hhas hhas'
        (hvalue'.trans (hvalue.trans hvalue''.symm)) ⟨heof, heof'⟩ ⟨hlines, hlines'⟩

omit hys in
/-- What stands behind the terminator does not matter in a file of lines with their newlines. -/
theorem lockstep_stale : Lockstep Stale where
  value h := h.value
  lex := by
    rintro p q ⟨hvalue, heof, ⟨ys, hys, hlp, hlq⟩, w, hw, hskip, hp, hq⟩
    refine lex_step ends_atEnd (.inr ?_)
    rw [ready_text hp hskip, ready_text hq hskip]
    split
    · rw [hlp, hlq]
      exact getline_stale hys hvalue
    · case isFalse hidle =>
        exact lexToken_stale hys hw hskip hidle hp hq hvalue heof ⟨hlp, hlq⟩

end Stale

/-! ## The line in question -/

/-- Every token of the text ends by itself, or it is a time and the next line is blank. -/
inductive Complete (next : List UInt8) : List UInt8 → Prop
  | done : Complete next []
  | token {u v r : List UInt8} {e : Ending} {t : Token} (hu : lexeme u = .token e t v r)
      (he : e = .line → t = .time ∧ skip next = []) (hr : Complete next r) : Complete next u

/-- One line to go, where the other file has it behind a blank. -/
structure Joined (next : List UInt8) (ys : List (List UInt8)) (p q : Parser) : Prop where
  value : p.value = q.value
  eof : p.eof = false ∧ q.eof = false
  lines : p.lines = ended (next :: ys) ∧ q.lines = ended ys
  text : ∃ u, Complete next u ∧ p.Has (skip (u ++ [NEWLINE])) ∧
    q.Has (skip (u ++ chr ' ' :: (next ++ [NEWLINE])))

section Joined

variable {next : List UInt8} {ys : List (List UInt8)} (hnext : Clean next)
  (hys : ∀ l ∈ ys, Clean l) {p q : Parser}

theorem lexToken_joined {u v r : List UInt8} {e : Ending} {t : Token}
    (hu : lexeme u = .token e t v r) (he : e = .line → t = .time ∧ skip next = [])
    (hr : Complete next r) (hp : p.Has (skip (u ++ [NEWLINE])))
    (hq : q.Has (skip (u ++ chr ' ' :: (next ++ [NEWLINE])))) (hvalue : p.value = q.value)
    (heof : p.eof = false ∧ q.eof = false)
    (hlines : p.lines = ended (next :: ys) ∧ q.lines = ended ys) :
    Agree (Step AtEnd (Joined next ys)) (lexToken p) (lexToken q) := by
  have hspares : Spares e t (chr ' ' :: (next ++ [NEWLINE])) := by
    intro hline
    obtain ⟨ht, hskip⟩ := he hline
    refine .inr ⟨ht, ?_⟩
    rw [skip_cons (by decide), ← skip_append, hskip]
    rfl
  obtain ⟨e₁, he₁, h₁⟩ := lexeme_extends (b := NEWLINE) (y := []) (by decide) u e t v r hu
    fun _ => .inl rfl
  obtain ⟨e₂, he₂, h₂⟩ := lexeme_extends (by decide) u e t v r hu hspares
  rw [(lexeme_start hu _).1] at hp hq
  refine lexToken_alike hp hq h₁ (fun hword => absurd hword he₁) h₂ he₂ hvalue
    fun p' q' hp' hq' hvalue' hop hoq => ?_
  exact ⟨hvalue', ⟨hop.eof.trans heof.1, hoq.eof.trans heof.2⟩,
    ⟨hop.lines.trans hlines.1, hoq.lines.trans hlines.2⟩, r, hr, hp' he₁, hq'⟩

include hnext hys

/-- The line in question is done, and the next one is read from the file or from the buffer. -/
theorem getline_joined (hvalue : p.value = q.value) :
    (Idle (skip (next ++ [NEWLINE])) →
      Agree (Started AtEnd Stale) (getline p (ended (next :: ys))) (getline q (ended ys))) ∧
    (¬Idle (skip (next ++ [NEWLINE])) → q.Has (skip (next ++ [NEWLINE])) → q.eof = false →
      q.lines = ended ys →
      Agree (Started AtEnd Stale) (getline p (ended (next :: ys))) (.ok (some q))) := by
  have hget := getline_line (p := p) (ended ys) hnext.nulFree hnext.single (.inr rfl) hnext.short
  refine ⟨fun hidle => ?_, fun hidle hq heofq hlinesq => ?_⟩
  · have hskip := hget.1 hidle
    rw [ended, List.map_cons, ← ended, hskip]
    exact getline_stale hys hvalue
  · obtain ⟨p', hp', hhas, hvalue', hlines, heof⟩ := hget.2 hidle
    rw [ended, List.map_cons, ← ended, hp']
    rw [reachesEof_newline] at heof
    have hended : Ended (next ++ [NEWLINE]) := .inr ⟨next, rfl⟩
    exact lexToken_stale hys hended.skip (skip_skip _) hidle hhas hq
      (hvalue'.trans hvalue) ⟨heof, heofq⟩ ⟨hlines, hlinesq⟩

theorem lockstep_joined : Lockstep fun p q => Joined next ys p q ∨ Stale p q where
  value := by
    rintro p q (h | h)
    · exact h.value
    · exact h.value
  lex := by
    rintro p q (⟨hvalue, heof, hlines, u, hu, hp, hq⟩ | h)
    · refine lex_step ends_atEnd (.inr ?_)
      cases hu with
      | done =>
        have hblank : skip ([] ++ chr ' ' :: (next ++ [NEWLINE])) = skip (next ++ [NEWLINE]) :=
          skip_cons (by decide) _
        rw [hblank] at hq
        obtain ⟨hidle, hbusy⟩ := getline_joined hnext hys hvalue
        rw [ready_text hp rfl, if_pos (.inl rfl), hlines.1,
          ready_text hq (skip_skip _)]
        split
        · case isTrue h =>
            rw [hlines.2]
            exact agree_started (hidle h) fun _ _ => .inr
        · case isFalse h =>
            exact agree_started (hbusy h hq heof.2 hlines.2) fun _ _ => .inr
      | token htoken he hr =>
        rw [ready_token htoken hp, ready_token htoken hq]
        exact agree_step (lexToken_joined htoken he hr hp hq hvalue heof hlines) fun _ _ => .inl
    · exact (lockstep_stale.lex h).mono fun _ _ h => h.mono fun _ _ => .inr

/-- Two lines, and the two as one. -/
theorem getline_lines (p : Parser) {l : List UInt8} (hl : Clean l)
    (hboth : (l ++ chr ' ' :: next).length < 8190) (hplain : Complete next (skip l)) :
    Agree (Started AtEnd fun p q => Joined next ys p q ∨ Stale p q)
      (getline p (ended (l :: next :: ys)))
      (getline p (ended ((l ++ chr ' ' :: next) :: ys))) := by
  have h0 : 0 ∉ l ++ chr ' ' :: next := by
    simp [hl.nulFree, hnext.nulFree, chr]
  have hnl : NEWLINE ∉ l ++ chr ' ' :: next := by
    simp only [List.mem_append, List.mem_cons, hl.single, hnext.single, or_false, false_or]
    decide
  have hone := getline_line (p := p) (ended (next :: ys)) hl.nulFree hl.single (.inr rfl) hl.short
  have htwo := getline_line (p := p) (ended ys) h0 hnl (.inr rfl) hboth
  rw [← skip_append] at hone
  rw [List.append_assoc, List.cons_append, ← skip_append] at htwo
  simp only [ended, List.map_cons, List.append_assoc, List.cons_append] at hone htwo ⊢
  generalize skip l = u at hplain hone htwo
  cases hplain with
  | done =>
    have hblank : skip ([] ++ chr ' ' :: (next ++ [NEWLINE])) = skip (next ++ [NEWLINE]) :=
      skip_cons (by decide) _
    rw [hblank] at htwo
    rw [hone.1 (.inl rfl)]
    by_cases hidle : Idle (skip (next ++ [NEWLINE]))
    · rw [htwo.1 hidle]
      exact agree_started ((getline_joined hnext hys rfl).1 hidle) fun _ _ => .inr
    · obtain ⟨q, hget, hq, hvalue, hlines, heof⟩ := htwo.2 hidle
      rw [hget]
      rw [← List.cons_append, ← List.append_assoc, reachesEof_newline] at heof
      exact agree_started ((getline_joined hnext hys hvalue.symm).2 hidle hq heof hlines)
        fun _ _ => .inr
  | token hu he hr =>
    have hstart := lexeme_start hu
    have hbusy (x : List UInt8) : ¬Idle (skip (u ++ x)) := by
      rw [(hstart x).1]
      exact (hstart x).2
    obtain ⟨p', hgetp, hp, hvalue, hlines, heof⟩ := hone.2 (hbusy _)
    obtain ⟨q', hgetq, hq, hvalue', hlines', heof'⟩ := htwo.2 (hbusy _)
    rw [hgetp, hgetq]
    rw [reachesEof_newline] at heof
    rw [← List.cons_append, ← List.append_assoc, reachesEof_newline] at heof'
    exact agree_step (lexToken_joined hu he hr hp hq (hvalue.trans hvalue'.symm) ⟨heof, heof'⟩
      ⟨hlines, hlines'⟩) fun _ _ => .inl

end Joined

/-! ## The file -/

/-- The lines of the two files. -/
theorem lines_joined (A : List UInt8) {next C : List UInt8} (hnext : NEWLINE ∉ next)
    (hrest : rest NEWLINE C = []) (hshort : ShortLines (A ++ chr ' ' :: (next ++ NEWLINE :: C))) :
    (rest NEWLINE A ++ chr ' ' :: next).length < 8190 ∧
      (∀ l ∈ pieces NEWLINE C, l.length < 8190) ∧
      fgetsLines 0 [] (A ++ NEWLINE :: (next ++ NEWLINE :: C)) =
        ended (pieces NEWLINE A) ++ ended (rest NEWLINE A :: next :: pieces NEWLINE C) ∧
      fgetsLines 0 [] (A ++ chr ' ' :: (next ++ NEWLINE :: C)) =
        ended (pieces NEWLINE A) ++
          ended ((rest NEWLINE A ++ chr ' ' :: next) :: pieces NEWLINE C) := by
  have hblank : NEWLINE ∉ chr ' ' :: next := by
    intro h
    rcases List.mem_cons.mp h with h | h
    · exact absurd h (by decide)
    · exact hnext h
  have hF : pieces NEWLINE (A ++ NEWLINE :: (next ++ NEWLINE :: C)) =
      pieces NEWLINE A ++ rest NEWLINE A :: next :: pieces NEWLINE C := by
    rw [pieces_append_sep, pieces_append_cons hnext]
  have hG : pieces NEWLINE (A ++ chr ' ' :: (next ++ NEWLINE :: C)) =
      pieces NEWLINE A ++ (rest NEWLINE A ++ chr ' ' :: next) :: pieces NEWLINE C := by
    rw [← List.cons_append, ← List.append_assoc, pieces_append_sep,
      pieces_append_of_notMem A hblank, rest_append_of_notMem A hblank]
  have hrestF : rest NEWLINE (A ++ NEWLINE :: (next ++ NEWLINE :: C)) = [] := by
    rw [rest_append_sep, rest_append_sep, hrest]
  have hrestG : rest NEWLINE (A ++ chr ' ' :: (next ++ NEWLINE :: C)) = [] := by
    rw [← List.cons_append, ← List.append_assoc, rest_append_sep, hrest]
  obtain ⟨hpieces, -⟩ := shortLines_iff.mp hshort
  rw [hG] at hpieces
  simp only [List.mem_append, List.mem_cons] at hpieces
  have hlen : (rest NEWLINE A ++ chr ' ' :: next).length < 8190 := hpieces _ (.inr (.inl rfl))
  have hshort' : ShortLines (A ++ NEWLINE :: (next ++ NEWLINE :: C)) := by
    rw [shortLines_iff, hF, hrestF]
    refine ⟨fun l hl => ?_, by decide⟩
    rw [List.length_append, List.length_cons] at hlen
    simp only [List.mem_append, List.mem_cons] at hl
    rcases hl with hl | rfl | rfl | hl
    exacts [hpieces l (.inl hl), by omega, by omega, hpieces l (.inr (.inr hl))]
  refine ⟨hlen, fun l hl => hpieces l (.inr (.inr hl)), ?_, ?_⟩
  · rw [fgetsLines_ended hshort' hrestF, hF, ended_append]
  · rw [fgetsLines_ended hshort hrestG, hG, ended_append]

theorem layout_lockstep {A B : List UInt8} (hend : B.getLast? = some NEWLINE)
    (hshort : ShortLines (A ++ chr ' ' :: B)) (h0 : 0 ∉ rest NEWLINE A ++ B)
    (hcomplete : Complete (B.takeWhile (· ≠ NEWLINE)) (skip (rest NEWLINE A))) :
    ∃ S, Lockstep S ∧ S (.open (A ++ NEWLINE :: B)) (.open (A ++ chr ' ' :: B)) := by
  have hrest : rest NEWLINE B = [] := by
    obtain ⟨B', rfl⟩ := List.getLast?_eq_some_iff.mp hend
    exact rest_append_sep B' []
  obtain ⟨next, C, rfl, hnext⟩ := List.eq_append_cons_of_mem (List.mem_of_getLast? hend)
  have htake : (next ++ NEWLINE :: C).takeWhile (· ≠ NEWLINE) = next := by
    rw [takeWhile_append_blank (by simp)]
    exact List.takeWhile_eq_self_iff.mpr fun c hc => by simpa using ne_of_mem_of_not_mem hc hnext
  rw [htake] at hcomplete
  rw [rest_append_sep] at hrest
  obtain ⟨hlen, hlens, hF, hG⟩ := lines_joined A hnext hrest hshort
  have hshorter : (rest NEWLINE A).length < 8190 ∧ next.length < 8190 := by
    rw [List.length_append, List.length_cons] at hlen
    omega
  have hys : ∀ l ∈ pieces NEWLINE C, Clean l := by
    intro l hl
    have hsplit : l ∈ C.splitOn NEWLINE := List.mem_of_mem_dropLast hl
    refine ⟨fun h => h0 ?_, notMem_splitOn C l hsplit, hlens l hl⟩
    simp [subset_of_mem_splitOn hsplit h]
  have hclean : Clean next := ⟨by grind, hnext, hshorter.2⟩
  refine ⟨_, tracks_ahead ends_atEnd (lockstep_joined hclean hys) fun p _ => .inr ?_,
    .inl ⟨rfl, rfl, Buffer.zero_sealed (by decide), _, reachesEof_ended, hF, hG⟩⟩
  exact getline_lines hclean hys p ⟨by grind, notMem_rest A, hshorter.1⟩ hlen hcomplete

section

variable {R Re : Type} [Double R] [Pcre Re] [HashOrder]

/-- A newline and a blank between two tokens are read alike. The lines behind must be free of NUL
bytes too: such a byte ends a line early, and the last word before it is followed by what longer
lines have left in the buffer. -/
theorem layout_irrelevant (clock : Nat → Int32) (fuel : Nat) (s : Server R Re) {A B : List UInt8}
    (hend : B.getLast? = some NEWLINE) (hshort : ShortLines (A ++ chr ' ' :: B))
    (h0 : 0 ∉ rest NEWLINE A ++ B)
    (hcomplete : Complete (B.takeWhile (· ≠ NEWLINE)) (skip (rest NEWLINE A))) :
    configure clock fuel s (A ++ NEWLINE :: B) = configure clock fuel s (A ++ chr ' ' :: B) := by
  obtain ⟨S, hS, hopen⟩ := layout_lockstep hend hshort h0 hcomplete
  exact (configure_lockstep hS hopen clock fuel s).1

end

open Reference

theorem layout_irrelevant_window :
    load "window @minute 60\ncounter @minute hits\n" =
      load "window @minute 60 counter @minute hits\n" := by
  have hnumber : Complete (CString.ascii "counter @minute hits") (CString.ascii "60") :=
    .token (e := .closed) (t := .number) (v := CString.ascii "60") (r := [])
      (by decide +kernel) (by simp) .done
  have hname : Complete (CString.ascii "counter @minute hits") (CString.ascii "@minute 60") :=
    .token (e := .closed) (t := .windowname) (v := CString.ascii "@minute" ++ [0])
      (by decide +kernel) (by simp) hnumber
  have hline : Complete (CString.ascii "counter @minute hits")
      (CString.ascii "window @minute 60") :=
    .token (e := .closed) (t := .keyword .window) (v := []) (by decide +kernel) (by simp) hname
  have hfirst : skip (rest NEWLINE (CString.ascii "window @minute 60")) =
      CString.ascii "window @minute 60" := by decide +kernel
  have hnext : (CString.ascii "counter @minute hits\n").takeWhile (· ≠ NEWLINE) =
      CString.ascii "counter @minute hits" := by decide +kernel
  exact layout_irrelevant epoch 64 (defaults Int CString) (A := CString.ascii "window @minute 60")
    (B := CString.ascii "counter @minute hits\n") (by decide +kernel) (by decide +kernel)
    (by decide +kernel) (by rw [hfirst, hnext]; exact hline)

-- a NUL byte behind `dumpfiles`: the bytes after it are those of the line before
example : (load "user a\nuser a\ndumpfiles\x00\n").isOk = true ∧
    load "user a user a\ndumpfiles\x00\n" = .error .bail := by
  decide +kernel

/-- The time takes the directive behind it. -/
theorem time_drops_listener :
    load "max.events 5m\nlistener tcp://localhost\n" =
        .ok { defaults Int CString with
          config := { (defaults Int CString).config with
            eventsMax := 300, eventsKeep := .time, listener := some (.lit "tcp://localhost") } } ∧
      load "max.events 5m listener tcp://localhost\n" =
        .ok { defaults Int CString with
          config := { (defaults Int CString).config with
            eventsMax := 300, eventsKeep := .time } } := by
  decide +kernel

end Bolo
