import Bolo.Library.Buffer
import Bolo.Names.Grammar

/-!
# What the OpenTSDB gateway sends

`s_send` of `opentsdb2bolo` takes a line such as `put load 1471535210 0.27 host=a job=b` apart and
sends it as `[SAMPLE | 1471535210 | host=a,job=b,metric=load | 0.27]`. The name is put together
in an array of 32 bytes more than the line has: tag by tag with a comma after each, and the
metric at the end.
-/
namespace Bolo.Opentsdb

open Library

def nonspace (b : UInt8) : Bool := !isspace b

/-- The loop over the tags. The text at `a` goes to `name` from index `b` on, with a comma for
the blanks after a tag. -/
def copyTags {N : Nat} (name : Buffer N) (b : Nat) (a : List UInt8) :
    Except Fault (Buffer N × Nat) :=
  if _h : a = [] then .ok (name, b)
  else do
    let tag := a.takeWhile nonspace
    let name ← inBounds (name.put b tag)
    let name ← inBounds (name.put (b + tag.length) [COMMA])
    copyTags name (b + tag.length + 1) ((a.dropWhile nonspace).dropWhile isspace)
termination_by a.length
decreasing_by
  obtain ⟨c, l, rfl⟩ := List.exists_cons_of_ne_nil _h
  have hskip := (((c :: l).dropWhile nonspace).dropWhile_sublist isspace).length_le
  by_cases hc : isspace c = true
  · have hblank := (l.dropWhile_sublist isspace).length_le
    simp only [nonspace, hc, List.dropWhile_cons, Bool.not_true, Bool.false_eq_true, if_false,
      if_true, List.length_cons]
    omega
  · have hword := (l.dropWhile_sublist nonspace).length_le
    simp only [nonspace, hc, List.dropWhile_cons, Bool.not_false, if_true, List.length_cons] at *
    omega

/-- The name is put together from the tags at `a` and the metric, in an array of `N` bytes. -/
def joinName (N : Nat) (a metric : List UInt8) : Except Fault CString := do
  let (name, b) ← copyTags (.zero N) 0 a
  let name ← inBounds (name.put b (CString.ascii "metric="))
  let name ← inBounds (name.put (b + 7) metric)
  let name ← inBounds (name.put (b + 7 + metric.length) [0])
  inBounds (name.str 0)

/-- `s_send`, `none` where it returns before anything is sent. -/
def sSend (buf : CString) : Except Fault (Option Pdu) :=
  if buf.bytes.take 4 ≠ CString.ascii "put " then .ok none
  else do
    let metric := (buf.bytes.drop 4).takeWhile nonspace
    let a := ((buf.bytes.drop 4).dropWhile nonspace).dropWhile isspace
    let ts := a.takeWhile nonspace
    let a := (a.dropWhile nonspace).dropWhile isspace
    let value := a.takeWhile nonspace
    let a := (a.dropWhile nonspace).dropWhile isspace
    let name ← joinName (buf.length + 32) a metric
    return some { type := Tag.sample.text, frames := [.ofBytes ts, name, .ofBytes value] }

/-! ## Lines -/

/-- A word of a line. -/
structure Word (s : CString) : Prop where
  ne_nil : s.bytes ≠ []
  visible : ∀ b ∈ s.bytes, isspace b = false

def Gap (l : List UInt8) : Prop := l ≠ [] ∧ ∀ b ∈ l, isspace b = true

instance (l : List UInt8) : Decidable (Gap l) :=
  @instDecidableAnd _ _ _ (List.decidableBAll _ _)

instance (s : CString) : Decidable (Word s) :=
  @decidable_of_iff' _ (s.bytes ≠ [] ∧ ∀ b ∈ s.bytes, isspace b = false)
    ⟨fun h => ⟨h.ne_nil, h.visible⟩, fun h => ⟨h.1, h.2⟩⟩
    (@instDecidableAnd _ _ _ (List.decidableBAll _ _))

/-- The end of a line: blanks before each tag, and perhaps after the last. -/
inductive Tagged : List UInt8 → List CString → Prop
  | nil {trail : List UInt8} : (∀ b ∈ trail, isspace b = true) → Tagged trail []
  | cons {gap rest : List UInt8} {tag : CString} {tags : List CString} : Gap gap → Word tag →
      Tagged rest tags → Tagged (gap ++ tag.bytes ++ rest) (tag :: tags)

/-- `put `, the metric, a timestamp, a value and tags. -/
structure Put (line metric ts value : CString) (tags : List CString) : Prop where
  metric_word : Word metric
  ts_word : Word ts
  value_word : Word value
  shape : ∃ gap gap' rest, Gap gap ∧ Gap gap' ∧ Tagged rest tags ∧ line.bytes =
    CString.ascii "put " ++ (metric.bytes ++ (gap ++ (ts.bytes ++ (gap' ++ (value.bytes ++ rest)))))

/-- A list that a word cannot go on with. -/
def Ends (l : List UInt8) : Prop := ∀ b ∈ l.head?, isspace b = true

theorem Gap.ends {gap : List UInt8} (h : Gap gap) (l : List UInt8) : Ends (gap ++ l) := by
  obtain ⟨c, gap, rfl⟩ := List.exists_cons_of_ne_nil h.1
  exact fun b hb => h.2 b (by simp_all)

theorem Tagged.ends {l : List UInt8} {tags : List CString} (h : Tagged l tags) : Ends l := by
  cases h with
  | nil htrail => exact fun b hb => htrail b (List.mem_of_mem_head? hb)
  | cons hgap _ _ =>
    rw [List.append_assoc]
    exact hgap.ends _

theorem Word.takeWhile {s : CString} (h : Word s) {l : List UInt8} (hl : Ends l) :
    (s.bytes ++ l).takeWhile nonspace = s.bytes := by
  rw [List.takeWhile_append_of_pos fun b hb => by simp [nonspace, h.visible b hb]]
  cases l with
  | nil => simp
  | cons b l => simp [nonspace, hl b rfl]

theorem Word.dropWhile {s : CString} (h : Word s) {l : List UInt8} (hl : Ends l) :
    (s.bytes ++ l).dropWhile nonspace = l := by
  rw [List.dropWhile_append_of_pos fun b hb => by simp [nonspace, h.visible b hb]]
  cases l with
  | nil => rfl
  | cons b l => simp [nonspace, hl b rfl]

theorem Gap.dropWhile {gap : List UInt8} (h : Gap gap) {s : CString} (hs : Word s)
    (l : List UInt8) : (gap ++ (s.bytes ++ l)).dropWhile isspace = s.bytes ++ l := by
  rw [List.dropWhile_append_of_pos h.2]
  obtain ⟨c, x, hx⟩ := List.exists_cons_of_ne_nil hs.ne_nil
  have hc := hs.visible c (by simp [hx])
  rw [hx, List.cons_append, List.dropWhile_cons_of_neg (by simp [hc])]

/-! ## The name -/

/-- What is written for the tags. -/
def tagsText (tags : List CString) : List UInt8 := tags.flatMap fun t => t.bytes ++ [COMMA]

theorem Tagged.length_le {l : List UInt8} {tags : List CString} (h : Tagged l tags) :
    (tagsText tags).length ≤ l.length := by
  induction h with
  | nil _ => simp [tagsText]
  | cons hgap _ _ ih =>
    have hpos := List.length_pos_of_ne_nil hgap.1
    simp only [tagsText, List.flatMap_cons, List.length_append, List.length_singleton] at ih ⊢
    omega

/-- The tags are written one after the other, where there is room. -/
theorem copyTags_spec {N : Nat} {l : List UInt8} {tags : List CString} (h : Tagged l tags)
    {name : Buffer N} {u free : List UInt8} (hname : name.cells = u ++ free)
    (hroom : (tagsText tags).length ≤ free.length) :
    ∃ name', copyTags name u.length (l.dropWhile isspace) =
        .ok (name', (u ++ tagsText tags).length) ∧
      name'.cells = u ++ tagsText tags ++ free.drop (tagsText tags).length := by
  induction h generalizing name u free with
  | nil htrail =>
    have hnil := List.dropWhile_eq_nil_iff.mpr htrail
    refine ⟨name, ?_, by simpa [tagsText] using hname⟩
    rw [copyTags, dif_pos hnil]
    simp [tagsText]
  | @cons gap rest tag tags hgap htag hrest ih =>
    simp only [tagsText, List.flatMap_cons, List.length_append, List.length_singleton] at hroom
    obtain ⟨name₁, hput₁, hcells₁⟩ := Buffer.put_next_cells (x := tag.bytes) hname (by omega)
    obtain ⟨name₂, hput₂, hcells₂⟩ := Buffer.put_next_cells (x := [COMMA]) hcells₁
      (by rw [List.length_drop, List.length_singleton]; omega)
    obtain ⟨name', hcopy, hcells⟩ := ih hcells₂
      (by simp only [tagsText, List.length_drop, List.length_singleton]; omega)
    have hskip : (gap ++ tag.bytes ++ rest).dropWhile isspace = tag.bytes ++ rest := by
      rw [List.append_assoc, hgap.dropWhile htag]
    have hne : tag.bytes ++ rest ≠ [] := by simp [htag.ne_nil]
    have htext : tagsText (tag :: tags) = tag.bytes ++ [COMMA] ++ tagsText tags := rfl
    rw [htext, ← List.append_assoc, ← List.append_assoc]
    rw [List.length_append] at hput₂
    rw [List.length_append, List.length_append, List.length_singleton] at hcopy
    refine ⟨name', ?_, ?_⟩
    · rw [copyTags, dif_neg (by rw [hskip]; exact hne)]
      simp only [hskip, htag.takeWhile hrest.ends, htag.dropWhile hrest.ends, hput₁, hput₂,
        inBounds_some, ok_bind, hcopy]
    · rw [hcells, List.drop_drop, List.drop_drop]
      simp only [List.length_append, Nat.add_assoc]

/-- The name that a line is translated to. -/
def nameText (metric : CString) (tags : List CString) : List UInt8 :=
  tagsText tags ++ CString.ascii "metric=" ++ metric.bytes

theorem nameText_eq (metric : CString) (tags : List CString) : nameText metric tags =
    [COMMA].intercalate (tags.map CString.bytes ++ [CString.ascii "metric=" ++ metric.bytes]) := by
  rw [intercalate_eq, List.flatMap_append, List.flatMap_singleton, ← List.append_assoc,
    List.dropLast_concat, List.flatMap_map, nameText, List.append_assoc]
  rfl

theorem nulFree_nameText (metric : CString) (tags : List CString) : 0 ∉ nameText metric tags := by
  have hcomma : (0 : UInt8) ∉ [COMMA] := by decide
  have hmetric : (0 : UInt8) ∉ CString.ascii "metric=" := by decide
  simp only [nameText, tagsText, List.mem_append, List.mem_flatMap, not_or, not_exists, not_and]
  exact ⟨⟨fun t _ => ⟨t.nulFree, hcomma⟩, hmetric⟩, metric.nulFree⟩

/-- The tags, the word `metric=`, the metric and a NUL are written to an array that has room. -/
theorem joinName_spec {N : Nat} {rest : List UInt8} {tags : List CString}
    (hrest : Tagged rest tags) {metric : CString} (hroom : (nameText metric tags).length < N) :
    joinName N (rest.dropWhile isspace) metric.bytes =
      .ok ⟨nameText metric tags, nulFree_nameText metric tags⟩ := by
  have hseven : (CString.ascii "metric=").length = 7 := by decide
  have hzero : (Buffer.zero N).cells = [] ++ List.replicate N 0 := rfl
  simp only [nameText, List.length_append] at hroom
  obtain ⟨name₁, hcopy, hcells₁⟩ := copyTags_spec hrest hzero
    (by rw [List.length_replicate]; omega)
  rw [List.nil_append, List.drop_replicate] at hcells₁
  obtain ⟨name₂, hput₂, hcells₂⟩ := Buffer.put_next_cells (x := CString.ascii "metric=") hcells₁
    (by rw [List.length_replicate]; omega)
  rw [List.drop_replicate] at hcells₂
  obtain ⟨name₃, hput₃, hcells₃⟩ := Buffer.put_next_cells (x := metric.bytes) hcells₂
    (by rw [List.length_replicate]; omega)
  rw [List.drop_replicate] at hcells₃
  obtain ⟨name₄, hput₄, hcells₄⟩ := Buffer.put_next_cells (x := [0]) hcells₃
    (by rw [List.length_replicate, List.length_singleton]; omega)
  rw [List.append_assoc _ [0], List.singleton_append] at hcells₄
  have hstr := Buffer.str_cells hcells₄ (nulFree_nameText metric tags)
  rw [List.length_nil, List.nil_append] at hcopy
  rw [List.length_append, hseven] at hput₃
  rw [List.length_append, List.length_append, hseven] at hput₄
  simp only [joinName, hcopy, hput₂, hput₃, hput₄, hstr, inBounds_some, ok_bind]
  rfl

/-- The line is long enough for what is made of its parts. -/
theorem Put.room {line metric ts value : CString} {tags : List CString}
    (h : Put line metric ts value tags) : (nameText metric tags).length < line.length + 32 := by
  obtain ⟨gap, gap', rest, -, -, hrest, hline⟩ := h.shape
  have hlen := hrest.length_le
  have hseven : (CString.ascii "metric=").length = 7 := by decide
  simp only [nameText, CString.length, hline, List.length_append, hseven]
  omega

theorem sSend_put {line metric ts value : CString} {tags : List CString}
    (h : Put line metric ts value tags) : sSend line = .ok (some
      { type := Tag.sample.text
        frames := [ts, ⟨nameText metric tags, nulFree_nameText metric tags⟩, value] }) := by
  obtain ⟨gap, gap', rest, hgap, hgap', hrest, hline⟩ := h.shape
  have hfour : (CString.ascii "put ").length = 4 := by decide
  have htake : line.bytes.take 4 = CString.ascii "put " := by rw [hline, List.take_left' hfour]
  have hdrop : line.bytes.drop 4 = metric.bytes ++ (gap ++ (ts.bytes ++ (gap' ++
      (value.bytes ++ rest)))) := by rw [hline, List.drop_left' hfour]
  have hname := joinName_spec hrest h.room
  rw [sSend, if_neg (by rw [htake]; simp)]
  simp only [hdrop, h.metric_word.takeWhile (hgap.ends _), h.metric_word.dropWhile (hgap.ends _),
    hgap.dropWhile h.ts_word, h.ts_word.takeWhile (hgap'.ends _),
    h.ts_word.dropWhile (hgap'.ends _), hgap'.dropWhile h.value_word,
    h.value_word.takeWhile hrest.ends, h.value_word.dropWhile hrest.ends, hname, ok_bind,
    CString.ofBytes_bytes]
  rfl

/-! ## The name as a name -/

/-- The pair that a tag is the text of. -/
theorem exists_pair {t : CString} (heq : EQUALS ∈ t.bytes) (hcomma : COMMA ∉ t.bytes) :
    ∃ e : CString × CString, (Name.Item.pair e.1 e.2).Valid ∧
      (Name.Item.pair e.1 e.2).text = t.bytes := by
  obtain ⟨key, value, ht, hkey⟩ := List.eq_append_cons_of_mem heq
  have hnul := t.nulFree
  rw [ht, List.mem_append, List.mem_cons, not_or, not_or] at hnul hcomma
  exact ⟨(⟨key, hnul.1⟩, ⟨value, hnul.2.2⟩), ⟨⟨hcomma.1, hkey⟩, hcomma.2.2⟩, ht.symm⟩

theorem exists_pairs {tags : List CString}
    (htags : ∀ t ∈ tags, EQUALS ∈ t.bytes ∧ COMMA ∉ t.bytes) :
    ∃ pairs : List (CString × CString), (∀ e ∈ pairs, (Name.Item.pair e.1 e.2).Valid) ∧
      tags.map CString.bytes = pairs.map fun e => (Name.Item.pair e.1 e.2).text := by
  induction tags with
  | nil => exact ⟨[], by simp, rfl⟩
  | cons t tags ih =>
    obtain ⟨⟨heq, hcomma⟩, hrest⟩ := List.forall_mem_cons.mp htags
    obtain ⟨e, he, htext⟩ := exists_pair heq hcomma
    obtain ⟨pairs, hpairs, hmap⟩ := ih hrest
    exact ⟨e :: pairs, List.forall_mem_cons.mpr ⟨he, hpairs⟩, by
      rw [List.map_cons, List.map_cons, htext, hmap]⟩

/-- A name of tags that are pairs has these and the metric as its parts. -/
theorem parse_nameText {metric : CString} {tags : List CString}
    (htags : ∀ t ∈ tags, EQUALS ∈ t.bytes ∧ COMMA ∉ t.bytes) (hmetric : COMMA ∉ metric.bytes) :
    ∃ q pairs, Name.parse ⟨nameText metric tags, nulFree_nameText metric tags⟩ = some q ∧
      (tags.map CString.bytes = pairs.map fun e => e.1.bytes ++ EQUALS :: e.2.bytes) ∧
      (∀ e ∈ pairs, EQUALS ∉ e.1.bytes) ∧ q.size = tags.length + 1 ∧
      ((q.parts.take q.size).map Name.partPair).Perm
        ((pairs ++ [(.lit "metric", metric)]).map some) ∧ q.wildcard = false := by
  obtain ⟨pairs, hpairs, hmap⟩ := exists_pairs htags
  let all : List (CString × CString) := pairs ++ [(.lit "metric", metric)]
  have hkey : COMMA ∉ (CString.lit "metric").bytes ∧ EQUALS ∉ (CString.lit "metric").bytes := by
    decide
  have hall : ∀ i ∈ all.map fun e => Name.Item.pair e.1 e.2, i.Valid := by
    intro i hi
    obtain ⟨e, he, rfl⟩ := List.mem_map.mp hi
    rcases List.mem_append.mp he with he | he
    · exact hpairs e he
    · obtain rfl := List.mem_singleton.mp he
      exact ⟨hkey, hmetric⟩
  have hpair : Name.itemPairs (all.map fun e => Name.Item.pair e.1 e.2) = all := by
    rw [Name.itemPairs, List.filterMap_map]
    exact List.filterMap_some
  have hlen : all.length = tags.length + 1 := by
    have := congrArg List.length hmap
    simpa [all] using this.symm
  have htext : Name.itemsText (all.map fun e => Name.Item.pair e.1 e.2) = nameText metric tags := by
    rw [nameText_eq, hmap, Name.itemsText, List.map_map, List.map_append]
    rfl
  obtain ⟨q, hq, hreads⟩ := Name.parse_items
    (s := ⟨nameText metric tags, nulFree_nameText metric tags⟩) hall htext
  have hstar : ¬ Name.Item.star ∈ all.map fun e => Name.Item.pair e.1 e.2 := by simp
  refine ⟨q, pairs, hq, hmap, fun e he => (hpairs e he).1.2, ?_, ?_, ?_⟩
  · rw [hreads.size, hpair, hlen]
  · have hparts := hreads.parts
    rwa [hpair] at hparts
  · exact Bool.eq_false_iff.mpr fun h => hstar (hreads.wildcard.mp h)

/-- A line of the form that OpenTSDB clients send becomes one SAMPLE, without leaving the array
of the name. If its tags are pairs, the name is a qualified name with these pairs and the metric
as its parts. -/
theorem put_translated {line metric ts value : CString} {tags : List CString}
    (h : Put line metric ts value tags) : ∃ name : CString,
    sSend line = .ok (some { type := Tag.sample.text, frames := [ts, name, value] }) ∧
    name.bytes = [COMMA].intercalate
      (tags.map CString.bytes ++ [CString.ascii "metric=" ++ metric.bytes]) ∧
    ((∀ t ∈ tags, EQUALS ∈ t.bytes ∧ COMMA ∉ t.bytes) → COMMA ∉ metric.bytes →
      ∃ q pairs, Name.parse name = some q ∧
        (tags.map CString.bytes = pairs.map fun e => e.1.bytes ++ EQUALS :: e.2.bytes) ∧
        (∀ e ∈ pairs, EQUALS ∉ e.1.bytes) ∧ q.size = tags.length + 1 ∧
        ((q.parts.take q.size).map Name.partPair).Perm
          ((pairs ++ [(.lit "metric", metric)]).map some) ∧
        q.wildcard = false) :=
  ⟨_, sSend_put h, nameText_eq metric tags, parse_nameText⟩

theorem put_translated_cpu : ∃ name : CString,
    sSend (.lit "put cpu 1288900000  7 host=web") = .ok (some
      { type := Tag.sample.text, frames := [.lit "1288900000", name, .lit "7"] }) ∧
    name = .lit "host=web,metric=cpu" := by
  have htags : Tagged (CString.ascii " host=web") [.lit "host=web"] :=
    @Tagged.cons (CString.ascii " ") [] (.lit "host=web") [] (by decide) (by decide)
      (.nil (by simp))
  have hput : Put (.lit "put cpu 1288900000  7 host=web") (.lit "cpu") (.lit "1288900000")
      (.lit "7") [.lit "host=web"] :=
    ⟨by decide, by decide, by decide, CString.ascii " ", CString.ascii "  ",
      CString.ascii " host=web", by decide, by decide, htags, by decide⟩
  obtain ⟨name, hsend, hbytes, -⟩ := put_translated hput
  exact ⟨name, hsend, CString.ext (hbytes.trans (by decide))⟩

end Bolo.Opentsdb
