import Bolo.Config.Reading
import Bolo.Config.Reference

/-!
# The newline at the end of the file

A configuration file is read alike with and without the newline of its last line, if the lexer
takes that line to its end without a look behind the terminator. It does not where a word or a
name is the last thing in the file, since `lex` steps over the byte that ends it and goes on with
what earlier lines left in the buffer; and a last line that cannot be lexed is accepted if it has
no newline, since the end of the file has been seen by then. A file on which `configure` fails
before it comes to such a place is rejected alike.
-/
namespace Bolo

open Library

/-- The lexer takes the text to its end: it is empty, a comment, or it starts with a token that
is not ended by the terminator. -/
inductive Lexes : List UInt8 → Prop
  | done : Lexes []
  | comment (q : List UInt8) : Lexes (chr '#' :: q)
  | token {w v r : List UInt8} {e : Ending} {t : Token} (hw : lexeme w = .token e t v r)
      (he : e ≠ .word) (hr : Lexes r) : Lexes w

/-- In the last line of a file without its newline, and of the file with it. -/
structure Last (p q : Parser) : Prop where
  value : p.value = q.value
  lines : p.lines = [] ∧ q.lines = []
  text : ∃ w, Lexes w ∧ p.Has w ∧ q.Has (skip (w ++ [NEWLINE]))

section Last

variable {p q : Parser}

theorem lexToken_last {w v r : List UInt8} {e : Ending} {t : Token}
    (hw : lexeme w = .token e t v r) (he : e ≠ .word) (hr : Lexes r) (hp : p.Has w)
    (hq : q.Has (skip (w ++ [NEWLINE]))) (hvalue : p.value = q.value)
    (hlines : p.lines = [] ∧ q.lines = []) : Agree (Step AtEnd Last) (lexToken p) (lexToken q) := by
  obtain ⟨e', he', hw'⟩ := lexeme_extends (b := NEWLINE) (y := []) (by decide) w e t v r hw
    fun _ => .inl rfl
  rw [(lexeme_start hw _).1] at hq
  refine lexToken_alike hp hq hw (fun hword => absurd hword he) hw' he' hvalue
    fun p' q' hp' hq' hvalue' hop hoq => ?_
  exact ⟨hvalue', ⟨hop.lines.trans hlines.1, hoq.lines.trans hlines.2⟩, r, hr, hp' he, hq'⟩

theorem lockstep_last : Lockstep Last where
  value h := h.value
  lex := by
    rintro p q ⟨hvalue, hlines, w, hw, hp, hq⟩
    refine lex_step ends_atEnd (.inr ?_)
    have hend {k : Parser} {w : List UInt8} (hk : k.Has w) (hskip : skip w = w) (hidle : Idle w)
        (hlines : k.lines = []) : ready k = .ok none := by
      rw [ready_text hk hskip, if_pos hidle, hlines]
      rfl
    cases hw with
    | done =>
      rw [hend hp rfl (.inl rfl) hlines.1, hend hq rfl (.inl rfl) hlines.2]
      trivial
    | comment c =>
      rw [hend hp rfl (.inr rfl) hlines.1, hend hq rfl (.inr rfl) hlines.2]
      trivial
    | token htoken he hr =>
      have hp' : p.Has (skip (w ++ [])) := by rwa [(lexeme_start htoken []).1, List.append_nil]
      rw [ready_token htoken hp', ready_token htoken hq]
      exact lexToken_last htoken he hr hp hq hvalue hlines

/-- The last line, as both files have it. -/
theorem getline_last (p : Parser) {l : List UInt8} (h0 : 0 ∉ l) (hnl : NEWLINE ∉ l)
    (hlen : l.length < 8190) (hl : Lexes (skip l)) :
    Agree (Started AtEnd Last) (getline p [l]) (getline p [l ++ [NEWLINE]]) := by
  have hwithout := getline_line (p := p) [] h0 hnl (.inl rfl) hlen
  have hwith := getline_line (p := p) [] h0 hnl (.inr rfl) hlen
  rw [List.append_nil] at hwithout
  rw [← skip_append] at hwith
  have hidle (h : Idle (skip l)) (h' : Idle (skip (skip l ++ [NEWLINE]))) :
      Agree (Started AtEnd Last) (getline p [l]) (getline p [l ++ [NEWLINE]]) := by
    rw [hwithout.1 h, hwith.1 h']
    trivial
  generalize skip l = w at hl hwithout hwith hidle
  cases hl with
  | done => exact hidle (.inl rfl) (.inl rfl)
  | comment q => exact hidle (.inr rfl) (.inr rfl)
  | token htoken he hr =>
    have hstart := lexeme_start htoken
    obtain ⟨p', hp', hhas, hvalue, hlines, -⟩ := hwithout.2 (by simpa using (hstart []).2)
    obtain ⟨q', hq', hhas', hvalue', hlines', -⟩ :=
      hwith.2 (by rw [(hstart _).1]; exact (hstart _).2)
    rw [hp', hq']
    exact lexToken_last htoken he hr hhas hhas' (hvalue.trans hvalue'.symm) ⟨hlines, hlines'⟩

end Last

section

variable {F : List UInt8}

theorem fgetsLines_newline (hshort : ShortLines F) : fgetsLines 0 [] (F ++ [NEWLINE]) =
    ended (pieces NEWLINE F) ++ [rest NEWLINE F ++ [NEWLINE]] := by
  obtain ⟨hpieces, hrest⟩ := shortLines_iff.mp hshort
  have hpieces' : pieces NEWLINE (F ++ [NEWLINE]) = pieces NEWLINE F ++ [rest NEWLINE F] :=
    pieces_append_sep F []
  have hrest' : rest NEWLINE (F ++ [NEWLINE]) = [] := rest_append_sep F []
  have hshort' : ShortLines (F ++ [NEWLINE]) := by
    rw [shortLines_iff, hpieces', hrest']
    refine ⟨fun l hl => ?_, by decide⟩
    rcases List.mem_append.mp hl with hl | hl
    · exact hpieces l hl
    · exact List.mem_singleton.mp hl ▸ hrest
  rw [fgetsLines_ended hshort' hrest', hpieces', ended_append]
  rfl

theorem newline_lockstep (hshort : ShortLines F) (h0 : 0 ∉ rest NEWLINE F)
    (hlast : Lexes (skip (rest NEWLINE F))) :
    ∃ S, Lockstep S ∧ S (.open F) (.open (F ++ [NEWLINE])) := by
  refine ⟨_, tracks_ahead ends_atEnd lockstep_last fun p _ => .inr ?_,
    .inl ⟨rfl, rfl, Buffer.zero_sealed (by decide), _, reachesEof_ended, fgetsLines_eq hshort,
      fgetsLines_newline hshort⟩⟩
  split
  · case isTrue hnil =>
      rw [hnil]
      exact trivial
  · exact getline_last p h0 (notMem_rest F) (shortLines_iff.mp hshort).2 hlast

end

/-! ## A file that is not read to its end -/

/-- Tokens up to the end of the text, the last of which may be a word. -/
inductive Words : List UInt8 → Prop
  | done : Words []
  | last {w v : List UInt8} {t : Token} (hw : lexeme w = .token .word t v []) : Words w
  | token {w v r : List UInt8} {t : Token} (hw : lexeme w = .token .closed t v r)
      (hr : Words r) : Words w

/-- There is something to lex, but no token. -/
def NoToken (v : List UInt8) : Prop := ¬Idle (skip v) ∧ lexeme (skip v) = .fail

instance (v : List UInt8) : Decidable (NoToken v) := inferInstanceAs (Decidable (_ ∧ _))

/-- A line that is longer than the ones `fgets` returns. To ask for it is a fault, which tells a
run that needs a further line from one that does not. -/
def unreadable : List UInt8 := List.replicate LINE_BUF_SIZE (chr 'x')

theorem getline_unreadable (p : Parser) : getline p [unreadable] = .error .outOfBounds := by
  have hlen : unreadable.length = LINE_BUF_SIZE := List.length_replicate
  have hmem : ∀ c ∈ unreadable, c = chr 'x' := fun c hc => List.eq_of_mem_replicate hc
  generalize unreadable = raw at hlen hmem ⊢
  cases raw with
  | nil => cases hlen
  | cons c raw =>
    obtain rfl := hmem c (by simp)
    have hline : uncomment (chr 'x' :: raw ++ []) = chr 'x' :: raw ++ [] :=
      uncomment_line (fun h => absurd (hmem 0 h) (by decide))
        (fun h => absurd (hmem NEWLINE h) (by decide)) (.inl rfl)
    have hput : p.buffer.put 0 (chr 'x' :: raw ++ [0]) = none := by
      rw [Buffer.put, dif_neg]
      simp only [List.length_append, hlen, List.length_singleton]
      omega
    rw [List.append_nil] at hline
    rw [getline, hline, if_neg (by simp), hput]
    rfl

/-- What follows is out of reach, or no token and the end of the file. -/
def Beyond (tail : List (List UInt8)) (v : List UInt8) : Prop :=
  tail = [unreadable] ∨ tail = [] ∧ NoToken v

/-- In the words `u` at the start of a last line, with `v` behind them in the one file, and with a
newline and `tail` in the other. -/
structure Amid (tail : List (List UInt8)) (u v : List UInt8) (p q : Parser) : Prop where
  value : p.value = q.value
  lines : q.lines = tail
  sealed : p.buffer.Sealed
  words : Words u
  spaced : u = [] ∨ v.head?.all isspace
  beyond : Beyond tail v
  whole : p.Has (skip (u ++ v))
  part : q.Has (skip (u ++ [NEWLINE]))

/-- In the words, or behind a last one. -/
inductive Within (tail : List (List UInt8)) (p q : Parser) : Prop
  | words {u v : List UInt8} (h : Amid tail u v p q)
  | behind (hvalue : p.value = q.value) (hlines : q.lines = [unreadable]) (hq : q.Has [])

section Within

variable {tail : List (List UInt8)} {p q : Parser} {u v : List UInt8}

theorem Words.start (h : Words u) (hne : u ≠ []) (x : List UInt8) :
    skip (u ++ x) = u ++ x ∧ ¬Idle (u ++ x) := by
  cases h with
  | done => exact absurd rfl hne
  | last hw => exact lexeme_start hw x
  | token hw => exact lexeme_start hw x

theorem Words.busy (h : Words u) (hne : u ≠ []) (x : List UInt8) : ¬Idle (skip (u ++ x)) := by
  rw [(h.start hne x).1]
  exact (h.start hne x).2

theorem Words.skip_eq (h : Words u) : skip u = u := by
  by_cases hne : u = []
  · rw [hne]
    rfl
  · simpa using (h.start hne []).1

/-- A token with a newline behind it, and with the rest of the line. Only a last word is not
determined by its text. -/
theorem lexToken_amid {x r : List UInt8} {e : Ending} {t : Token} (h : Amid tail u v p q)
    (hw : lexeme u = .token e t x r) (he : e ≠ .line) (hr : Words r) (hlast : e = .word → r = []) :
    Agree (Step NoSooner (Within tail)) (lexToken p) (lexToken q) := by
  have hne : u ≠ [] := by
    rintro rfl
    cases hw
  obtain ⟨e', he', hw'⟩ := lexeme_extends (b := NEWLINE) (y := []) (by decide) u e t x r hw
    fun hline => absurd hline he
  have hp := h.whole
  have hq := h.part
  rw [(h.words.start hne _).1] at hp hq
  have hnext {p' q' : Parser} (hp' : p'.Has (skip (r ++ v)))
      (hq' : q'.Has (skip (r ++ [NEWLINE]))) (hvalue : p'.value = q'.value) (hop : Onward p p')
      (hoq : Onward q q') : Within tail p' q' :=
    .words ⟨hvalue, hoq.lines.trans h.lines, hop.sealed h.sealed, hr,
      .inr (h.spaced.resolve_left hne), h.beyond, hp', hq'⟩
  cases v with
  | nil =>
    rw [List.append_nil] at hp
    have hroom : u.length + 1 < LINE_BUF_SIZE := by
      obtain ⟨-, junk, hcells⟩ := hq
      exact length_text_lt hcells
    refine lexToken_alike hp hq hw (fun _ => ⟨h.sealed, hroom⟩) hw' he' h.value
      fun p' q' hp' hq' hvalue hop hoq => ?_
    by_cases hword : e = .word
    · -- what the first parser goes on with is not known, but the second asks for a line
      have htail : tail = [unreadable] := h.beyond.resolve_right fun h => h.2.1 (.inl rfl)
      rw [hlast hword] at hq'
      exact .behind hvalue (hoq.lines.trans (h.lines.trans htail)) hq'
    · refine hnext ?_ hq' hvalue hop hoq
      rw [List.append_nil, hr.skip_eq]
      exact hp' hword
  | cons b y =>
    have hb : isspace b = true := by simpa using h.spaced.resolve_left hne
    obtain ⟨e₁, he₁, h₁⟩ := lexeme_extends (y := y) hb u e t x r hw fun hline => absurd hline he
    exact lexToken_alike hp hq h₁ (fun hword => absurd hword he₁) hw' he' h.value
      fun p' q' hp' hq' => hnext (hp' he₁) hq'

theorem Amid.begun (h : Amid tail u v p q) (hne : u ≠ []) :
    Started NoSooner (Within tail) (some p) (some q) := by
  cases h.words with
  | done => exact absurd rfl hne
  | last hw => exact lexToken_amid h hw (by decide) .done fun _ => rfl
  | token hw hr => exact lexToken_amid h hw (by decide) hr fun hword => by cases hword

/-- A line was asked for that cannot be read. -/
def Starved (stop : Stop) : Prop := stop = .fault .outOfBounds

/-- The words are done. -/
theorem getline_beyond {S : Parser → Parser → Prop} (hv : Beyond tail v)
    {x : Except Fault (Option Parser)} (q : Parser)
    (hx : NoToken v → ∃ p, x = .ok (some p) ∧ p.Has (skip v)) :
    Echoes (fun f => Starved (.fault f)) (Started NoSooner S) x (getline q tail) := by
  rcases hv with rfl | ⟨rfl, hno⟩
  · exact .inl ⟨_, rfl, getline_unreadable q⟩
  · obtain ⟨p, rfl, hp⟩ := hx hno
    obtain ⟨p', hlex, -⟩ := lexToken_fail hp (skip_skip v) hno.1 hno.2
    exact .inr ⟨p', hlex, fun q hq h => by simp [hq] at h⟩

theorem tracks_within : Tracks Starved NoSooner (Within tail) where
  value h := by
    cases h with
    | words h => exact h.value
    | behind hvalue => exact hvalue
  lex := by
    intro p q h
    refine lex_step ends_noSooner ?_
    cases h with
    | @words u v h =>
      have hp := ready_text h.whole (skip_skip _)
      have hq := ready_text h.part (skip_skip _)
      by_cases hne : u = []
      · subst hne
        rw [hq, if_pos (.inl rfl), h.lines]
        exact getline_beyond h.beyond q fun hno => ⟨p, by rw [hp]; exact if_neg hno.1, h.whole⟩
      · rw [hp, hq, if_neg (h.words.busy hne _), if_neg (h.words.busy hne _)]
        exact .inr (h.begun hne)
    | behind hvalue hlines hq =>
      rw [ready_text hq rfl, if_pos (.inl rfl), hlines]
      exact .inl ⟨_, rfl, getline_unreadable q⟩

/-- The last line in the one file, and its first words in the other. -/
theorem getline_within (hseal : p.buffer.Sealed) {x : List UInt8} (hx : x = [] ∨ x = [NEWLINE])
    (h0 : 0 ∉ u ++ v) (hnl : NEWLINE ∉ u ++ v) (hlen : (u ++ v).length < 8190)
    (hu : Words (skip u)) (hsep : u = [] ∨ (v ++ x).head?.all isspace)
    (hv : Beyond tail (v ++ x)) :
    Echoes (fun f => Starved (.fault f)) (Started NoSooner (Within tail)) (getline p [u ++ v ++ x])
      (getline p ((u ++ [NEWLINE]) :: tail)) := by
  have hwhole := getline_line (p := p) [] h0 hnl hx hlen
  have hpart := getline_line (p := p) tail (fun h => h0 (List.mem_append_left v h))
    (fun h => hnl (List.mem_append_left v h)) (.inr rfl)
    (by rw [List.length_append] at hlen; omega)
  have hsep' : skip u = [] ∨ (v ++ x).head?.all isspace := hsep.imp_left fun h => by rw [h]; rfl
  rw [List.append_assoc, ← skip_append] at hwhole
  rw [← skip_append] at hpart
  rw [List.append_assoc]
  generalize skip u = w at hu hsep' hwhole hpart
  by_cases hne : w = []
  · subst hne
    rw [hpart.1 (.inl rfl)]
    refine getline_beyond hv p fun hno => ?_
    obtain ⟨p', hp', hhas, -⟩ := hwhole.2 hno.1
    exact ⟨p', hp', hhas⟩
  · obtain ⟨p', hp', hhas, hvalue, -⟩ := hwhole.2 (hu.busy hne _)
    obtain ⟨q', hq', hhas', hvalue', hlines', -⟩ := hpart.2 (hu.busy hne _)
    have hamid : Amid tail w (v ++ x) p' q' := ⟨hvalue.trans hvalue'.symm, hlines',
      getline_sealed hseal hp', hu, hsep', hv, hhas, hhas'⟩
    rw [hp', hq']
    exact .inr (hamid.begun hne)

end Within

section

variable {R Re : Type} [Double R] [Pcre Re] [HashOrder]

/-- Where `configure` starts on a file of the given lines. -/
def Conf.startLines (s : Server R Re) (lines : List (List UInt8)) : Conf R Re :=
  { Conf.start s [] with parser := { Parser.open [] with lines := lines } }

/-- `configure` on the lines that `fgets` returns. -/
def configureLines (clock : Nat → Int32) (fuel : Nat) (s : Server R Re)
    (lines : List (List UInt8)) : Except Stop (Server R Re) :=
  (directives clock fuel (Conf.startLines s lines)).map (·.server)

/-- `configure` fails within the complete lines of the file and the words `u` that its last line
starts with: it does so with a line behind them that cannot be read, and does not ask for it. Or it
fails at their end, and the last line goes on with what is no token. -/
def StopsEarly (clock : Nat → Int32) (fuel : Nat) (s : Server R Re) (F : List UInt8) : Prop :=
  ∃ u v tail stop, rest NEWLINE F = u ++ v ∧ Words (skip u) ∧ (u = [] ∨ v.head?.all isspace) ∧
    (tail = [unreadable] ∨ tail = [] ∧ NoToken v ∧ NoToken (v ++ [NEWLINE])) ∧
    configureLines clock fuel s (ended (pieces NEWLINE F ++ [u]) ++ tail) = .error stop ∧
    stop ≠ .fault .outOfBounds

theorem directives_stopsEarly {clock : Nat → Int32} {fuel : Nat} {s : Server R Re} {F : List UInt8}
    (hshort : ShortLines F) (h0 : 0 ∉ rest NEWLINE F) (h : StopsEarly clock fuel s F) :
    ∃ stop, ∀ x, x = [] ∨ x = [NEWLINE] → directives clock fuel
      (Conf.startLines s (ended (pieces NEWLINE F) ++ [rest NEWLINE F ++ x])) = .error stop := by
  obtain ⟨u, v, tail, stop, hrest, hu, hsep, htail, hd, hne⟩ := h
  refine ⟨stop, fun x hx => ?_⟩
  have hnl : NEWLINE ∉ rest NEWLINE F := notMem_rest F
  have hlen := (shortLines_iff.mp hshort).2
  rw [hrest] at h0 hnl hlen ⊢
  have hv : Beyond tail (v ++ x) := by
    rcases htail with htail | ⟨hnil, hno, hno'⟩
    · exact .inl htail
    · rcases hx with rfl | rfl
      · exact .inr ⟨hnil, by simpa using hno⟩
      · exact .inr ⟨hnil, hno'⟩
  have hsep' : u = [] ∨ (v ++ x).head?.all isspace := by
    refine hsep.imp_right fun hv => ?_
    cases v with
    | nil => rcases hx with rfl | rfl <;> decide
    | cons b v => exact hv
  have hS := tracks_ahead ends_noSooner tracks_within fun p hp =>
    getline_within hp hx h0 hnl hlen hu hsep' hv
  rw [ended_append, List.append_assoc] at hd
  refine directives_tracks hS clock hne fuel ⟨?_, .inl ?_⟩ (map_eq_error.mp hd)
  · rfl
  · exact ⟨rfl, rfl, Buffer.zero_sealed (by decide), _, reachesEof_ended, rfl, rfl⟩

end

open Reference

end Bolo
