import Bolo.Config.Endings
import Bolo.Config.Lockstep
import Bolo.Library.Lines

/-!
# Line by line

How the lines of a file come to the lexer: the lines that `fgets` returns if all of them are
short, and the text that each of them puts in the buffer. A token is lexed without a look at the
lines to come, so two files with the same first lines are read alike up to there.
-/
namespace Bolo

open Library

/-! ## Lines of a file -/

theorem fgetsLines_line {x : List UInt8} (hx : NEWLINE ∉ x) {n : Nat}
    (hn : n + x.length + 1 < LINE_BUF_SIZE) (line l : List UInt8) :
    fgetsLines n line (x ++ NEWLINE :: l) =
      (line.reverse ++ x ++ [NEWLINE]) :: fgetsLines 0 [] l := by
  induction x generalizing n line with
  | nil => simp [fgetsLines, NEWLINE, chr]
  | cons c x ih =>
    have hc : c ≠ NEWLINE := by grind
    rw [List.length_cons] at hn
    rw [List.cons_append, fgetsLines, if_neg (by rintro (h | h); exacts [hc h, by omega]),
      ih (by grind) (by omega)]
    simp

theorem fgetsLines_last {x : List UInt8} (hx : NEWLINE ∉ x) {n : Nat}
    (hn : n + x.length + 1 < LINE_BUF_SIZE) (line : List UInt8) (hne : line.reverse ++ x ≠ []) :
    fgetsLines n line x = [line.reverse ++ x] := by
  induction x generalizing n line with
  | nil =>
    cases line with
    | nil => simp at hne
    | cons c line => simp [fgetsLines]
  | cons c x ih =>
    have hc : c ≠ NEWLINE := by grind
    rw [List.length_cons] at hn
    rw [fgetsLines, if_neg (by rintro (h | h); exacts [hc h, by omega]),
      ih (by grind) (by omega) _ (by simp)]
    simp

/-- A line that does not fit is cut where the buffer is full. -/
theorem fgetsLines_full {x : List UInt8} (hx : NEWLINE ∉ x) (hne : x ≠ []) {n : Nat}
    (hn : n + x.length + 1 = LINE_BUF_SIZE) (line l : List UInt8) :
    fgetsLines n line (x ++ l) = (line.reverse ++ x) :: fgetsLines 0 [] l := by
  induction x generalizing n line with
  | nil => exact absurd rfl hne
  | cons c x ih =>
    have hc : c ≠ NEWLINE := by grind
    rw [List.length_cons] at hn
    rw [List.cons_append, fgetsLines]
    by_cases hnil : x = []
    · subst hnil
      rw [if_pos (.inr (by rw [← hn]; simp)), List.reverse_cons]
      rfl
    · have hpos := List.length_pos_of_ne_nil hnil
      rw [if_neg (by rintro (h | h); exacts [hc h, by omega]),
        ih (by grind) hnil (by omega)]
      simp

/-- What comes after a newline is read on its own. -/
theorem fgetsLines_append (u x : List UInt8) (n : Nat) (line : List UInt8) :
    fgetsLines n line (u ++ NEWLINE :: x) =
      fgetsLines n line (u ++ [NEWLINE]) ++ fgetsLines 0 [] x := by
  induction u generalizing n line with
  | nil => simp [fgetsLines, NEWLINE, chr]
  | cons c u ih =>
    simp only [List.cons_append, fgetsLines]
    split
    · rw [ih, List.cons_append]
    · exact ih ..

theorem notMem_fgetsLines {x line : List UInt8} (hx : NEWLINE ∉ x) (hline : NEWLINE ∉ line)
    (n : Nat) : ∀ l ∈ fgetsLines n line x, NEWLINE ∉ l := by
  induction x generalizing n line with
  | nil =>
    simp only [fgetsLines]
    split <;> simp_all
  | cons c x ih =>
    have hcons : NEWLINE ∉ c :: line := by grind
    have hrest : NEWLINE ∉ x := by grind
    simp only [fgetsLines]
    split
    · exact List.forall_mem_cons.mpr ⟨by rwa [List.mem_reverse], ih hrest (by simp) 0⟩
    · exact ih hrest hcons (n + 1)

/-- No line of the file is cut by `fgets`. -/
def ShortLines (file : List UInt8) : Prop := ∀ l ∈ file.splitOn NEWLINE, l.length < 8190

instance (file : List UInt8) : Decidable (ShortLines file) :=
  inferInstanceAs (Decidable (∀ l ∈ file.splitOn NEWLINE, l.length < 8190))

theorem shortLines_iff {file : List UInt8} : ShortLines file ↔
    (∀ l ∈ pieces NEWLINE file, l.length < 8190) ∧ (rest NEWLINE file).length < 8190 := by
  rw [ShortLines, ← pieces_append_rest]
  simp only [List.mem_append, List.mem_singleton]
  grind

/-- Lines with their newlines. -/
def ended (lines : List (List UInt8)) : List (List UInt8) := lines.map (· ++ [NEWLINE])

/-- The lines of a file, as `fgets` returns them if none of them is cut. -/
def linesOf (file : List UInt8) : List (List UInt8) :=
  ended (pieces NEWLINE file) ++ if rest NEWLINE file = [] then [] else [rest NEWLINE file]

theorem fgetsLines_linesOf {file : List UInt8} (h : ∀ l ∈ file.splitOn NEWLINE, l.length < 8191) :
    fgetsLines 0 [] file = linesOf file := by
  unfold linesOf
  induction file using split_induction NEWLINE with
  | hrest l hl =>
    rw [pieces_of_notMem hl, rest_of_notMem hl]
    split
    · case isTrue hnil =>
        subst hnil
        rfl
    · case isFalse hne =>
        have hlen : l.length < 8191 := h l (by simp [List.splitOn_eq_singleton hl])
        exact fgetsLines_last hl (by simp only [LINE_BUF_SIZE]; omega) [] hne
  | hpiece x l hx ih =>
    rw [splitOn_append_cons hx] at h
    have hlen : x.length < 8191 := h x (by simp)
    rw [pieces_append_cons hx, rest_append_cons hx,
      fgetsLines_line hx (by simp only [LINE_BUF_SIZE]; omega), ih fun y hy => h y (by simp [hy])]
    rfl

theorem fgetsLines_eq {file : List UInt8} (h : ShortLines file) :
    fgetsLines 0 [] file = ended (pieces NEWLINE file) ++
      if rest NEWLINE file = [] then [] else [rest NEWLINE file] :=
  fgetsLines_linesOf fun l hl => Nat.lt_succ_of_lt (h l hl)

theorem fgetsLines_ended {file : List UInt8} (h : ShortLines file)
    (hrest : rest NEWLINE file = []) : fgetsLines 0 [] file = ended (pieces NEWLINE file) := by
  rw [fgetsLines_eq h, if_pos hrest, List.append_nil]

theorem fgetsLines_flatMap {lines : List (List UInt8)} (hline : ∀ l ∈ lines, NEWLINE ∉ l)
    (hshort : ∀ l ∈ lines, l.length < 8191) :
    fgetsLines 0 [] (lines.flatMap (· ++ [NEWLINE])) = ended lines := by
  induction lines with
  | nil => rfl
  | cons x lines ih =>
    simp only [List.forall_mem_cons] at hline hshort
    have hn : 0 + x.length + 1 < LINE_BUF_SIZE := by
      simp only [LINE_BUF_SIZE]
      omega
    rw [List.flatMap_cons, List.append_assoc, List.singleton_append,
      fgetsLines_line hline.1 hn, ih hline.2 hshort.2]
    rfl

theorem ended_append (l m : List (List UInt8)) : ended (l ++ m) = ended l ++ ended m :=
  List.map_append

theorem reachesEof_newline (l : List UInt8) : reachesEof (l ++ [NEWLINE]) = false := by
  simp [reachesEof, NEWLINE, chr]

theorem reachesEof_ended {lines : List (List UInt8)} :
    ∀ raw ∈ ended lines, reachesEof raw = false := by
  intro raw hraw
  obtain ⟨l, -, rfl⟩ := List.mem_map.mp hraw
  exact reachesEof_newline l

/-! ## The text of a line -/

/-- Nothing, or a comment. -/
def Idle (w : List UInt8) : Prop := w = [] ∨ w.head? = some (chr '#')

instance (w : List UInt8) : Decidable (Idle w) := inferInstanceAs (Decidable (_ ∨ _))

theorem skip_head (l : List UInt8) : ∀ c ∈ (skip l).head?, isspace c = false := by
  intro c hc
  have h := List.head?_dropWhile_not isspace l
  rw [skip] at hc
  rw [hc] at h
  exact h

theorem lexeme_start {w v r : List UInt8} {e : Ending} {t : Token}
    (h : lexeme w = .token e t v r) (x : List UInt8) :
    skip (w ++ x) = w ++ x ∧ ¬Idle (w ++ x) := by
  cases w with
  | nil => cases h
  | cons c q =>
    refine ⟨List.dropWhile_cons_of_neg fun hc => ?_, ?_⟩
    · rw [lexeme_blank hc] at h
      cases h
    · rintro (hnil | hhash)
      · cases hnil
      · obtain rfl : c = chr '#' := by simpa using hhash
        cases h

/-- What the lexer sees first. -/
theorem Parser.Has.front {p : Parser} {w : List UInt8} (h : p.Has w) (hw : skip w = w) :
    p.buffer.read 0 = some (w.head?.getD 0) ∧ p.buffer.scan isspace 0 = some 0 := by
  obtain ⟨h0, junk, hb⟩ := h
  refine ⟨Buffer.read_text (u := []) hb, ?_⟩
  have hscan := Buffer.scan_text (u := []) hb h0 isspace
  cases w with
  | nil => exact hscan
  | cons c q =>
    have hc : isspace c = false := skip_head (c :: q) c (by rw [hw]; rfl)
    rwa [List.takeWhile_cons_of_neg (by simp [hc])] at hscan

theorem ready_text {p : Parser} {w : List UInt8} (h : p.Has w) (hw : skip w = w) :
    ready p = if Idle w then getline p p.lines else .ok (some p) := by
  obtain ⟨hread, hscan⟩ := h.front hw
  have h0 := h.nulFree
  cases w with
  | nil => simp [ready, hread, ok_bind, Idle]
  | cons c q =>
    have hne : c ≠ 0 := by grind
    simp [ready, hread, ok_bind, hne, hscan, Idle, pure, Except.pure]

theorem skip_newline {l x d : List UInt8} (hnl : NEWLINE ∉ l) (hx : x = [] ∨ x = [NEWLINE])
    (h : d <:+ l ++ x) (hd : ∀ c ∈ d.head?, c = NEWLINE) : skip d = [] := by
  cases d with
  | nil => rfl
  | cons c d =>
    obtain rfl := hd c rfl
    rcases hx with rfl | rfl
    · exact absurd (h.mem List.mem_cons_self) (by simpa using hnl)
    · obtain hnil | ⟨t, ht, hl⟩ := List.suffix_concat_iff.mp h
      · cases hnil
      · cases t with
        | nil => exact ht ▸ rfl
        | cons c t =>
          obtain rfl : NEWLINE = c := by simpa using congrArg List.head? ht
          exact absurd (hl.mem List.mem_cons_self) hnl

theorem ready_token {p : Parser} {w v r : List UInt8} {e : Ending} {t : Token}
    (hw : lexeme w = .token e t v r) {x : List UInt8} (hp : p.Has (skip (w ++ x))) :
    ready p = .ok (some p) := by
  obtain ⟨hskip, hidle⟩ := lexeme_start hw x
  rw [ready_text hp (skip_skip _), hskip, if_neg hidle]

/-- What is lexed of a line with or without its newline. -/
theorem uncomment_line {l x : List UInt8} (h0 : 0 ∉ l) (hnl : NEWLINE ∉ l)
    (hx : x = [] ∨ x = [NEWLINE]) :
    uncomment (l ++ x) = if Idle (skip (l ++ x)) then [] else skip (l ++ x) := by
  have h0x : 0 ∉ l ++ x := by rcases hx with rfl | rfl <;> simpa [NEWLINE] using h0
  have hbytes : (l ++ x).takeWhile (· ≠ 0) = l ++ x := by
    rw [List.takeWhile_eq_self_iff]
    intro c hc
    simpa using ne_of_mem_of_not_mem hc h0x
  rw [uncomment, hbytes]
  change skip (if (skip (l ++ x)).head? = some (chr '#') then
    (skip (l ++ x)).dropWhile (· ≠ chr '\n') else skip (l ++ x)) = _
  by_cases hhash : (skip (l ++ x)).head? = some (chr '#')
  · -- what follows a comment is the newline, or nothing
    have hdrop : skip ((skip (l ++ x)).dropWhile (· ≠ chr '\n')) = [] := by
      refine skip_newline hnl hx ((List.dropWhile_suffix _).trans (skip_suffix _)) fun c hc => ?_
      have hhead := List.head?_dropWhile_not (fun c => decide (c ≠ chr '\n')) (skip (l ++ x))
      rw [hc] at hhead
      have hchr : c = chr '\n' := by simpa using hhead
      exact hchr
    rw [if_pos hhash, hdrop, if_pos (.inr hhash)]
  · rw [if_neg hhash, skip_skip]
    split
    · case isTrue hidle => exact hidle.resolve_right hhash
    · rfl

theorem getline_blank {p : Parser} {raw : List UInt8} (lines : List (List UInt8))
    (h : uncomment raw = []) : getline p (raw :: lines) = getline p lines := by
  rw [getline, if_pos h]

theorem getline_text {p : Parser} {raw w : List UInt8} (lines : List (List UInt8))
    (h : uncomment raw = w) (h0 : 0 ∉ w) (hlen : w.length < LINE_BUF_SIZE) (hw : skip w = w)
    (hidle : ¬Idle w) : ∃ p', getline p (raw :: lines) = .ok (some p') ∧ p'.Has w ∧
      p'.value = p.value ∧ p'.lines = lines ∧ p'.eof = reachesEof raw := by
  obtain ⟨buffer, hput, hcells⟩ := p.buffer.put_text_cells w hlen
  let p' := { p with lines := lines, eof := reachesEof raw, buffer := buffer }
  have hhas : p'.Has w := ⟨h0, hcells⟩
  refine ⟨p', ?_, hhas, rfl, rfl, rfl⟩
  obtain ⟨hread, hscan⟩ := hhas.front hw
  have hne : uncomment raw ≠ [] := fun hnil => hidle (.inl (h ▸ hnil))
  have hhash : w.head?.getD 0 ≠ chr '#' := by
    cases w with
    | nil => exact absurd (.inl rfl) hidle
    | cons c q => exact fun hc => hidle (.inr (congrArg some hc))
  rw [getline, if_neg hne, h, hput]
  simp only [inBounds_some, ok_bind]
  change (inBounds (p'.buffer.scan isspace 0) >>= fun a => inBounds (p'.buffer.read a) >>= fun c =>
    if c = chr '#' then getline p' lines else pure (some p')) = _
  rw [hscan, inBounds_some, ok_bind, hread, inBounds_some, ok_bind, if_neg hhash]
  rfl

/-- A line with or without its newline: it is passed over or put in the buffer. -/
theorem getline_line {p : Parser} {l x : List UInt8} (lines : List (List UInt8)) (h0 : 0 ∉ l)
    (hnl : NEWLINE ∉ l) (hx : x = [] ∨ x = [NEWLINE]) (hlen : l.length < 8190) :
    (Idle (skip (l ++ x)) → getline p ((l ++ x) :: lines) = getline p lines) ∧
    (¬Idle (skip (l ++ x)) → ∃ p', getline p ((l ++ x) :: lines) = .ok (some p') ∧
      p'.Has (skip (l ++ x)) ∧ p'.value = p.value ∧ p'.lines = lines ∧
      p'.eof = reachesEof (l ++ x)) := by
  have hline := uncomment_line h0 hnl hx
  refine ⟨fun hidle => getline_blank lines (by rw [hline, if_pos hidle]), fun hidle => ?_⟩
  have hsuffix := skip_suffix (l ++ x)
  have h0x : 0 ∉ l ++ x := by rcases hx with rfl | rfl <;> simpa [NEWLINE] using h0
  have hlenx : (l ++ x).length < LINE_BUF_SIZE := by
    rcases hx with rfl | rfl <;> simp only [List.length_append, List.length_nil,
      List.length_singleton, LINE_BUF_SIZE] <;> omega
  exact getline_text lines (by rw [hline, if_neg hidle]) (fun h => h0x (hsuffix.mem h))
    (hsuffix.length_le.trans_lt hlenx) (skip_skip _) hidle

/-! ## Lines to come -/

/-- `k` is `p` further on in its line. -/
structure Onward (p k : Parser) : Prop where
  lines : k.lines = p.lines
  eof : k.eof = p.eof
  sealed : p.buffer.Sealed → k.buffer.Sealed

namespace Onward

variable {p k : Parser} (h : Onward p k)
include h

theorem value (value : Buffer LINE_BUF_SIZE) : Onward p { k with value := value } :=
  ⟨h.lines, h.eof, h.sealed⟩

theorem put {i : Nat} (l : List UInt8) {buffer : Buffer LINE_BUF_SIZE}
    (hput : inBounds (k.buffer.put i (l ++ [0])) = .ok buffer) :
    Onward p { k with buffer := buffer } :=
  ⟨h.lines, h.eof, fun hp => (h.sealed hp).put (inBounds_eq_ok.mp hput)⟩

end Onward

/-- A result of the lexer, and the same one with other lines to come. -/
structure Elsewhere (p : Parser) (lines : List (List UInt8)) (a b : Option Token × Parser) :
    Prop where
  eq : b = (a.1, { a.2 with lines := lines })
  onward : Onward p a.2

section Elsewhere

variable (p : Parser) (lines : List (List UInt8)) {k : Parser} (hk : Onward p k)
include hk

theorem finish_elsewhere (token : Token) (b : Nat) : Agree (Elsewhere p lines)
    (finish k token b) (finish { k with lines := lines } token b) :=
  .bind_left fun _ => .bind_left fun _ => .bind_left_eq fun _ hput => ⟨rfl, hk.put _ hput⟩

theorem lexQuoted_elsewhere (b : Nat) : Agree (Elsewhere p lines)
    (lexQuoted k b) (lexQuoted { k with lines := lines } b) := by
  refine .bind_left fun c => ?_
  split
  · exact .bind_left fun c => .bind_left fun value =>
      finish_elsewhere p lines (hk.value value) _ _
  · exact ⟨rfl, hk⟩

theorem lexName_elsewhere {sigil : UInt8} {token : Token}
    {next next' : Nat → Except Fault (Option Token × Parser)}
    (hnext : ∀ b, Agree (Elsewhere p lines) (next b) (next' b)) (a b : Nat) :
    Agree (Elsewhere p lines) (lexName sigil token next k a b)
      (lexName sigil token next' { k with lines := lines } a b) := by
  refine .bind_left fun c => ?_
  split
  · refine .bind_left fun e => .bind_left fun c => ?_
    split
    · exact .bind_left_eq fun buffer hput => .bind_left fun value =>
        finish_elsewhere p lines ((hk.put [] hput).value value) _ _
    · exact hnext a
  · exact hnext b

theorem lexSigil_elsewhere (a b : Nat) : Agree (Elsewhere p lines)
    (lexSigil k a b) (lexSigil { k with lines := lines } a b) :=
  lexName_elsewhere p lines hk (fun b => lexName_elsewhere p lines hk
    (fun b => lexQuoted_elsewhere p lines hk b) a b) a b

theorem lexWord_elsewhere (a b : Nat) : Agree (Elsewhere p lines)
    (lexWord k a b) (lexWord { k with lines := lines } a b) := by
  refine .bind_left fun c => ?_
  split
  · refine .bind_left fun e => .bind_left fun c => ?_
    split
    · refine .bind_left_eq fun buffer hput => .bind_left fun word => ?_
      have hput := hk.put [] hput
      cases keyword word with
      | some keyword => exact finish_elsewhere p lines hput _ _
      | none => exact .bind_left fun value => finish_elsewhere p lines (hput.value value) _ _
    · exact lexSigil_elsewhere p lines hk a a
  · exact lexSigil_elsewhere p lines hk a b

theorem lexMatch_elsewhere (a : Nat) : Agree (Elsewhere p lines)
    (lexMatch k a) (lexMatch { k with lines := lines } a) := by
  refine .bind_left fun c => ?_
  split
  · exact ⟨rfl, hk⟩
  · exact .bind_left_eq fun buffer hput => .bind_left fun value =>
      finish_elsewhere p lines ((hk.put [] hput).value value) _ _

theorem lexText_elsewhere (a b : Nat) : Agree (Elsewhere p lines)
    (lexText k a b) (lexText { k with lines := lines } a b) := by
  refine .bind_left fun c => ?_
  split
  · refine .bind_left fun d => ?_
    split
    · exact lexMatch_elsewhere p lines hk (b + 2)
    · exact lexWord_elsewhere p lines hk a a
  · exact lexWord_elsewhere p lines hk a b

theorem lexNumber_elsewhere (a : Nat) : Agree (Elsewhere p lines)
    (lexNumber k a) (lexNumber { k with lines := lines } a) := by
  refine .bind_left fun b => .bind_left fun c => ?_
  split
  · exact .bind_left fun value => finish_elsewhere p lines (hk.value value) _ _
  · cases unit c with
    | some mult =>
      exact .bind_left_eq fun buffer hput => .bind_left fun n => .bind_left fun value =>
        finish_elsewhere p lines ((hk.put [] hput).value value) _ _
    | none => exact lexText_elsewhere p lines hk a b

end Elsewhere

theorem lexToken_elsewhere (p : Parser) (lines : List (List UInt8)) :
    Agree (Elsewhere p lines) (lexToken p) (lexToken { p with lines := lines }) := by
  refine .bind_left fun value => .bind_left fun a => .bind_left fun c => ?_
  have hk : Onward p { p with value := value } := ⟨rfl, rfl, id⟩
  split
  · exact finish_elsewhere p lines hk _ _
  split
  · exact finish_elsewhere p lines hk _ _
  split
  · exact lexNumber_elsewhere p lines hk _
  · exact lexText_elsewhere p lines hk _ _

theorem lexToken_onward {p : Parser} {a : Option Token × Parser} (h : lexToken p = .ok a) :
    Onward p a.2 := by
  obtain ⟨_, -, helsewhere⟩ := (lexToken_elsewhere p p.lines).of_ok h
  exact helsewhere.onward

/-- The token at the front of the text. For a last word there has to be another terminator in the
buffer. -/
theorem lexToken_token {p : Parser} {w v r : List UInt8} {e : Ending} {t : Token} (hp : p.Has w)
    (hw : lexeme w = .token e t v r)
    (he : e = .word → p.buffer.Sealed ∧ w.length + 1 < LINE_BUF_SIZE) :
    ∃ value p', p.value.put 0 [0] = some value ∧ lexToken p = .ok (some t, p') ∧
      (e ≠ .word → p'.Has r) ∧ value.put 0 v = some p'.value ∧ Onward p p' := by
  cases w with
  | nil => cases hw
  | cons c q =>
    have hc : isspace c = false := by
      have hskip := (lexeme_start hw []).1
      rw [List.append_nil] at hskip
      exact skip_head (c :: q) c (by rw [hskip]; rfl)
    obtain ⟨junk, value, hcells, hput, hrefines⟩ := lexToken_refines hp hc
    rw [hw] at hrefines
    obtain ⟨p', hlex, hhas, hput'⟩ := hrefines fun hword => (he hword).1.mem hcells (he hword).2
    exact ⟨value, p', hput, hlex, hhas, hput', lexToken_onward hlex⟩

theorem lexToken_fail {p : Parser} {w : List UInt8} (hp : p.Has w) (hskip : skip w = w)
    (hidle : ¬Idle w) (hw : lexeme w = .fail) :
    ∃ p', lexToken p = .ok (none, p') ∧ Onward p p' := by
  cases w with
  | nil => exact absurd (.inl rfl) hidle
  | cons c q =>
    have hc : isspace c = false := skip_head (c :: q) c (by rw [hskip]; rfl)
    obtain ⟨_, _, -, -, hrefines⟩ := lexToken_refines hp hc
    rw [hw] at hrefines
    obtain ⟨p', hlex⟩ := hrefines
    exact ⟨p', hlex, lexToken_onward hlex⟩

theorem getline_sealed {p p' : Parser} {lines : List (List UInt8)} (hp : p.buffer.Sealed)
    (h : getline p lines = .ok (some p')) : p'.buffer.Sealed := by
  induction lines generalizing p with
  | nil => cases h
  | cons raw lines ih =>
    rw [getline] at h
    split at h
    · exact ih hp h
    · obtain ⟨buffer, hput, h⟩ := bind_eq_ok.mp h
      obtain ⟨a, -, h⟩ := bind_eq_ok.mp h
      obtain ⟨c, -, h⟩ := bind_eq_ok.mp h
      have hseal : buffer.Sealed := hp.put (inBounds_eq_ok.mp hput)
      split at h
      · exact ih hseal h
      · cases h
        exact hseal

theorem getline_elsewhere (p : Parser) (lines l : List (List UInt8)) :
    getline { p with lines := lines } l = getline p l := by
  induction l with
  | nil => rfl
  | cons raw l ih =>
    rw [getline, getline]
    split
    · exact ih
    · rfl

/-! ## Two files -/

section Lockstep

variable {bad : Fault → Prop} {E S T : Parser → Parser → Prop} {p q : Parser}

theorem Step.mono {a b : Option Token × Parser} (h : Step E T a b) (hS : ∀ p q, T p q → S p q) :
    Step E S a b := ⟨h.token, fun hsome => hS _ _ (h.some hsome), h.none⟩

/-- Two parsers that are about to lex a token or at the end. Where only the second is at the end,
the first has no token. -/
def Started (E S : Parser → Parser → Prop) : Option Parser → Option Parser → Prop
  | none, none => True
  | some p, some q => Agree (Step E S) (lexToken p) (lexToken q)
  | some p, none => ∃ p', lexToken p = .ok (none, p') ∧ ∀ q : Parser, q.eof = true → E p' q
  | none, some _ => False

theorem Started.mono {a b : Option Parser} (h : Started E T a b) (hS : ∀ p q, T p q → S p q) :
    Started E S a b := by
  cases a with
  | none => cases b with
    | none => trivial
    | some q => exact h.elim
  | some p => cases b with
    | none => exact h
    | some q => exact Agree.mono h fun _ _ h => Step.mono h hS

theorem agree_step {x y : Except Fault (Option Token × Parser)} (h : Agree (Step E T) x y)
    (hS : ∀ p q, T p q → S p q) : Agree (Step E S) x y := h.mono fun _ _ h => h.mono hS

theorem agree_started {x y : Except Fault (Option Parser)} (h : Agree (Started E T) x y)
    (hS : ∀ p q, T p q → S p q) : Agree (Started E S) x y := h.mono fun _ _ h => h.mono hS

/-- Where nothing is left, nothing is left the next time. -/
theorem ready_end (h : ready p = .ok none) :
    ready { p with lines := [], eof := true } = .ok none := by
  unfold ready at h ⊢
  obtain ⟨c, hc, h⟩ := bind_eq_ok.mp h
  rw [hc, ok_bind]
  split
  · rfl
  · case isFalse hne =>
      rw [if_neg hne] at h
      obtain ⟨a, ha, h⟩ := bind_eq_ok.mp h
      obtain ⟨d, hd, h⟩ := bind_eq_ok.mp h
      rw [ha, ok_bind, hd, ok_bind]
      split
      · rfl
      · case isFalse hhash =>
          rw [if_neg hhash] at h
          cases h

/-- `E` holds where neither file is at its end, and where both are. -/
structure Ends (E : Parser → Parser → Prop) : Prop where
  before : ∀ {p q : Parser}, p.eof = false → q.eof = false → E p q
  there : ∀ {p q : Parser}, ready p = .ok none →
    E { p with lines := [], eof := true } { q with lines := [], eof := true }

theorem ends_atEnd : Ends AtEnd where
  before hp hq := ⟨hp.trans hq.symm, fun h => by simp [hp] at h⟩
  there hp := ⟨rfl, fun _ => ready_end hp⟩

theorem ends_noSooner : Ends NoSooner where
  before hp _ _ := hp
  there _ h := by cases h

theorem lex_step (hE : Ends E) (h : Echoes bad (Started E S) (ready p) (ready q)) :
    Echoes bad (Step E S) (lex p) (lex q) := by
  rcases h with ⟨f, hf, hq⟩ | h
  · exact .inl ⟨f, hf, by rw [lex, hq]; rfl⟩
  · refine .inr (h.attach.bind ?_)
    rintro a b ⟨h, hp⟩
    cases a with
    | none => cases b with
      | none => exact ⟨rfl, fun hsome => absurd hsome (by simp), fun _ => hE.there hp⟩
      | some q' => exact h.elim
    | some p' => cases b with
      | none =>
        obtain ⟨p'', hlex, hend⟩ := h
        dsimp only
        rw [hlex]
        exact ⟨rfl, fun hsome => absurd hsome (by simp), fun _ => hend _ rfl⟩
      | some q' => exact h

/-- Two files with the same lines up to `A` in the one and `B` in the other, before these are
reached. -/
structure Ahead (A B : List (List UInt8)) (p q : Parser) : Prop where
  same : q = { p with lines := q.lines }
  eof : p.eof = false
  sealed : p.buffer.Sealed
  lines : ∃ xs, (∀ raw ∈ xs, reachesEof raw = false) ∧ p.lines = xs ++ A ∧ q.lines = xs ++ B

/-- Both parsers fail, or have a line of the ones before, or come to what `A` and `B` are. -/
inductive Meeting (A B : List (List UInt8)) :
    Except Fault (Option Parser) → Except Fault (Option Parser) → Prop
  | fail (e : Fault) : Meeting A B (.error e) (.error e)
  | before {p q : Parser} (h : Ahead A B p q) : Meeting A B (.ok (some p)) (.ok (some q))
  | there (p : Parser) (h : p.buffer.Sealed) : Meeting A B (getline p A) (getline p B)

section Ahead

variable {A B : List (List UInt8)}

theorem Meeting.bind_left {C : Type} {x : Except Fault C}
    {f g : C → Except Fault (Option Parser)} (h : ∀ c, x = .ok c → Meeting A B (f c) (g c)) :
    Meeting A B (x >>= f) (x >>= g) := by
  cases x with
  | error e => exact .fail e
  | ok c => exact h c rfl

theorem lexToken_ahead (hE : Ends E) (hS : ∀ p q, Ahead A B p q → S p q) (h : Ahead A B p q) :
    Agree (Step E S) (lexToken p) (lexToken q) := by
  obtain ⟨hsame, heof, hseal, hlines⟩ := h
  rw [hsame]
  refine (lexToken_elsewhere p q.lines).mono ?_
  rintro ⟨token, p'⟩ _ ⟨rfl, hlines', heof', hseal'⟩
  dsimp only at hlines' heof' hseal'
  refine ⟨rfl, fun _ => hS _ _ ⟨rfl, heof'.trans heof, hseal' hseal, ?_⟩,
    fun _ => hE.before (heof'.trans heof) (heof'.trans heof)⟩
  rw [hlines']
  exact hlines

theorem getline_ahead {p : Parser} (hp : p.buffer.Sealed) {xs : List (List UInt8)}
    (hxs : ∀ raw ∈ xs, reachesEof raw = false) :
    Meeting A B (getline p (xs ++ A)) (getline p (xs ++ B)) := by
  induction xs generalizing p with
  | nil => exact .there p hp
  | cons raw xs ih =>
    have hxs' : ∀ raw ∈ xs, reachesEof raw = false := fun y hy => hxs y (by simp [hy])
    rw [List.cons_append, List.cons_append, getline, getline]
    split
    · exact ih hp hxs'
    · refine .bind_left fun buffer hput => .bind_left fun a _ => .bind_left fun c _ => ?_
      have hseal : buffer.Sealed := hp.put (inBounds_eq_ok.mp hput)
      let p' := { p with lines := xs ++ A, eof := reachesEof raw, buffer := buffer }
      split
      · have hget := ih (p := p') hseal hxs'
        rwa [← getline_elsewhere p' (xs ++ B) (xs ++ B)] at hget
      · exact .before ⟨rfl, hxs raw (by simp), hseal, xs, hxs', rfl, rfl⟩

theorem ready_ahead (h : Ahead A B p q) : Meeting A B (ready p) (ready q) := by
  have hmeet := Meeting.before h
  obtain ⟨hsame, heof, hseal, xs, hxs, hA, hB⟩ := h
  have hlines : Meeting A B (getline p p.lines) (getline q q.lines) := by
    have hget : getline q (xs ++ B) = getline p (xs ++ B) := by rw [hsame, getline_elsewhere]
    rw [hA, hB, hget]
    exact getline_ahead hseal hxs
  have hbuffer : q.buffer = p.buffer := by rw [hsame]
  rw [ready, ready, hbuffer]
  refine .bind_left fun c _ => ?_
  split
  · exact hlines
  · refine .bind_left fun a _ => .bind_left fun d _ => ?_
    split
    · exact hlines
    · exact hmeet

/-- It is enough to know what happens from the lines in which the files differ. -/
theorem tracks_ahead {bad : Stop → Prop} (hE : Ends E) (hT : Tracks bad E T)
    (htail : ∀ p, p.buffer.Sealed →
      Echoes (fun f => bad (.fault f)) (Started E T) (getline p A) (getline p B)) :
    Tracks bad E fun p q => Ahead A B p q ∨ T p q where
  value := by
    rintro p q (h | h)
    · rw [h.same]
    · exact hT.value h
  lex := by
    rintro p q (h | h)
    · refine lex_step hE ?_
      have hmeet := ready_ahead h
      generalize ready p = x, ready q = y at hmeet ⊢
      cases hmeet with
      | fail e => exact .inr rfl
      | before h => exact .inr (lexToken_ahead hE (fun _ _ => .inl) h)
      | there p hp => exact (htail p hp).mono fun _ _ h => h.mono fun _ _ => .inr
    · exact (hT.lex h).mono fun _ _ h => h.mono fun _ _ => .inr

end Ahead

/-- Two texts with the same first token. In the first it may be a last word. -/
theorem lexToken_alike {w w' v r r' : List UInt8} {e e' : Ending} {t : Token} (hp : p.Has w)
    (hq : q.Has w') (hw : lexeme w = .token e t v r)
    (he : e = .word → p.buffer.Sealed ∧ w.length + 1 < LINE_BUF_SIZE)
    (hw' : lexeme w' = .token e' t v r') (he' : e' ≠ .word) (hvalue : p.value = q.value)
    (hS : ∀ p' q' : Parser, (e ≠ .word → p'.Has r) → q'.Has r' → p'.value = q'.value →
      Onward p p' → Onward q q' → S p' q') :
    Agree (Step E S) (lexToken p) (lexToken q) := by
  obtain ⟨value, p', hput, hlex, hhas, hv, hop⟩ := lexToken_token hp hw he
  obtain ⟨_, q', hput', hlex', hhas', hv', hoq⟩ :=
    lexToken_token hq hw' fun hword => absurd hword he'
  rw [hvalue, hput'] at hput
  cases hput
  rw [hv] at hv'
  rw [hlex, hlex']
  refine ⟨rfl, fun _ => ?_, fun h => by cases h⟩
  exact hS p' q' hhas (hhas' he') (Option.some.inj hv') hop hoq

end Lockstep

end Bolo
