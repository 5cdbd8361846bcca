import Bolo.Names.Canonical

/-!
# The grammar of names

A name is a sequence of components with commas between them. A component is `*` or a key and
a value with an equals sign between them, where a key has neither commas nor equals signs and
a value has no commas. `bolo_name_parse` accepts what has this form, and the name that it
returns has a part for each pair.
-/
namespace Bolo.Name

open Library

/-! ## Components -/

inductive Item where
  | star
  | pair (key value : CString)
  deriving DecidableEq

namespace Item

def Valid : Item → Prop
  | star => True
  | pair key value => (COMMA ∉ key.bytes ∧ EQUALS ∉ key.bytes) ∧ COMMA ∉ value.bytes

instance : DecidablePred Valid
  | star => inferInstanceAs (Decidable True)
  | pair _ _ => inferInstanceAs (Decidable ((_ ∧ _) ∧ _))

def text : Item → List UInt8
  | star => [STAR]
  | pair key value => key.bytes ++ EQUALS :: value.bytes

def pair? : Item → Option (CString × CString)
  | star => none
  | pair key value => some (key, value)

theorem text_spec {i : Item} (h : i.Valid) : COMMA ∉ i.text ∧ i.text ≠ [] := by
  cases i with
  | star => decide
  | pair key value =>
    have hne : COMMA ≠ EQUALS := by decide
    obtain ⟨⟨hkey, -⟩, hvalue⟩ := h
    exact ⟨by simp [text, hkey, hvalue, hne], by simp [text]⟩

/-- The part that a component is read as. -/
def part : Item → Option Part
  | star => none
  | pair key value => some (.of key.bytes value.bytes)

theorem component_text {i : Item} (h : i.Valid) : component i.text = some i.part := by
  cases i with
  | star => rfl
  | pair key value => exact component_part h.1.2 value.bytes

/-- What is read as a component is one. -/
theorem of_component {c : List UInt8} {p : Option Part} (h0 : 0 ∉ c) (hc : COMMA ∉ c)
    (h : component c = some p) : ∃ i : Item, i.Valid ∧ i.text = c := by
  cases p with
  | none => exact ⟨star, trivial, (component_eq_star.mp h).symm⟩
  | some p =>
    obtain ⟨⟨⟨k, hname, hk, hkc⟩, v, hvalue, hv, -⟩, htext⟩ := component_eq_part h0 hc h
    refine ⟨pair k v, ⟨⟨hkc, hk⟩, hv⟩, ?_⟩
    rw [← htext, Part.text, hname, hvalue]
    rfl

end Item

/-! ## Sequences -/

/-- The text of a sequence of components. -/
def itemsText (items : List Item) : List UInt8 := [COMMA].intercalate (items.map Item.text)

def itemPairs (items : List Item) : List (CString × CString) := items.filterMap Item.pair?

theorem components_itemsText {items : List Item} (h : ∀ i ∈ items, i.Valid) :
    components (itemsText items) = items.map Item.text := by
  refine components_intercalate ?_ ?_ <;> intro c hc <;> obtain ⟨i, hi, rfl⟩ := List.mem_map.mp hc
  · exact (Item.text_spec (h i hi)).1
  · exact (Item.text_spec (h i hi)).2

theorem parseComponents_items {items : List Item} (h : ∀ i ∈ items, i.Valid) :
    parseComponents (items.map Item.text) =
      some (items.filterMap Item.part, decide (.star ∈ items)) := by
  induction items with
  | nil => rfl
  | cons i items ih =>
    obtain ⟨hi, hitems⟩ := List.forall_mem_cons.mp h
    rw [List.map_cons, parseComponents, Item.component_text hi, ih hitems]
    cases i with
    | star => simp [Item.part, List.filterMap_cons]
    | pair key value => simp [Item.part]

/-- A sequence that is read has the form of the grammar. -/
theorem items_of_parseComponents {cs : List (List UInt8)} {r : List Part × Bool}
    (hcs : ∀ c ∈ cs, 0 ∉ c ∧ COMMA ∉ c) (h : parseComponents cs = some r) :
    ∃ items : List Item, (∀ i ∈ items, i.Valid) ∧ items.map Item.text = cs := by
  induction cs generalizing r with
  | nil => exact ⟨[], by simp, rfl⟩
  | cons c cs ih =>
    obtain ⟨hc, hrests⟩ := List.forall_mem_cons.mp hcs
    obtain ⟨part, hpart, hrest⟩ := Option.bind_eq_some_iff.mp h
    obtain ⟨r', hr', -⟩ := Option.map_eq_some_iff.mp hrest
    obtain ⟨i, hi, rfl⟩ := Item.of_component hc.1 hc.2 hpart
    obtain ⟨items, hitems, rfl⟩ := ih hrests hr'
    exact ⟨i :: items, List.forall_mem_cons.mpr ⟨hi, hitems⟩, rfl⟩

/-- Name and value of a part that is filled. -/
def partPair (p : Part) : Option (CString × CString) := do return (← p.name, ← p.value)

theorem map_partPair (items : List Item) :
    (items.filterMap Item.part).map partPair = (itemPairs items).map some := by
  induction items with
  | nil => rfl
  | cons i items ih =>
    cases i with
    | star => exact ih
    | pair key value =>
      have hpair : partPair (.of key.bytes value.bytes) = some (key, value) := by
        simp [partPair, Part.of]
      change partPair _ :: _ = some (key, value) :: _
      rw [hpair]
      exact congrArg _ ih

/-- What the parser makes of a sequence of components. -/
structure Reads (q : Name) (slots : Nat) (items : List Item) : Prop where
  /-- The slots are those that were allocated. -/
  allocated : q.parts.length = slots
  size : q.size = (itemPairs items).length
  size_le : q.size ≤ slots
  /-- The slots in use hold the pairs, in some order, and the others are blank. -/
  parts : ((q.parts.take q.size).map partPair).Perm ((itemPairs items).map some)
  blank : q.parts.drop q.size = List.replicate (slots - q.size) .blank
  wildcard : q.wildcard = true ↔ .star ∈ items

theorem length_filterMap_part (items : List Item) :
    (items.filterMap Item.part).length = (itemPairs items).length := by
  simpa using congrArg List.length (map_partPair items)

theorem part_filled {items : List Item} {p : Part} (h : p ∈ items.filterMap Item.part) :
    p.name.isSome := by
  obtain ⟨i, -, hp⟩ := List.mem_filterMap.mp h
  cases i with
  | star => cases hp
  | pair key value =>
    obtain rfl := Option.some.inj hp
    rfl

theorem parse_items {s : CString} {items : List Item} (h : ∀ i ∈ items, i.Valid)
    (hs : itemsText items = s.bytes) :
    ∃ q, parse s = some q ∧ q.Reads items.length items := by
  have hfilled : ∀ p ∈ items.filterMap Item.part, p.name.isSome := fun p hp => part_filled hp
  obtain ⟨sorted, hsort, hperm, -⟩ := qsort_spec hfilled
    (items.length - (items.filterMap Item.part).length)
  have hlen : sorted.length = (itemPairs items).length :=
    hperm.length_eq.trans (length_filterMap_part items)
  have hle : (itemPairs items).length ≤ items.length := List.length_filterMap_le _ _
  have hparse : parse s = some
      { size := (items.filterMap Item.part).length, wildcard := decide (.star ∈ items)
        parts := sorted ++ List.replicate (items.length - sorted.length) .blank } := by
    rw [parse_eq, ← hs, components_itemsText h, parseComponents_items h, Option.map_some,
      List.length_map, hsort, hperm.length_eq]
  refine ⟨_, hparse, ?_, length_filterMap_part items, ?_, ?_, ?_, by simp⟩
  · simp only [List.length_append, List.length_replicate]
    omega
  · rw [length_filterMap_part]
    exact hle
  · rw [List.take_left' hperm.length_eq, ← map_partPair]
    exact hperm.map _
  · rw [List.drop_left' hperm.length_eq, hperm.length_eq]

theorem itemsText_ne_nil {items : List Item} (h : ∀ i ∈ items, i.Valid) (hne : items ≠ []) :
    itemsText items ≠ [] := by
  intro hnil
  have hcomponents := components_itemsText h
  rw [hnil] at hcomponents
  exact hne (by simpa [components] using hcomponents.symm)

/-- The parser allocates a slot for each component. -/
theorem length_items {items : List Item} (h : ∀ i ∈ items, i.Valid) (hne : items ≠ []) :
    items.length = (itemsText items).count COMMA + 1 := by
  have hcomponents := congrArg List.length (components_itemsText h)
  rw [components, if_neg (itemsText_ne_nil h hne), List.length_map] at hcomponents
  rw [← hcomponents, count_add_one]

/-- What is accepted has the form of the grammar. -/
theorem exists_items {s : CString} {q : Name} (h : parse s = some q) :
    ∃ items : List Item, (∀ i ∈ items, i.Valid) ∧ itemsText items = s.bytes := by
  rw [parse_eq] at h
  obtain ⟨r, hr, -⟩ := Option.map_eq_some_iff.mp h
  obtain ⟨items, hvalid, htext⟩ := items_of_parseComponents
    (fun c hc => ⟨fun h0 => s.nulFree ((mem_components hc).1 h0), (mem_components hc).2⟩) hr
  exact ⟨items, hvalid, by rw [itemsText, htext, intercalate_components]⟩

/-- `bolo_name_parse` accepts the grammar and nothing else. It fills a slot for each pair, of
those that it allocates for the text, and none of the text is lost. -/
theorem parse_exact (s : CString) :
    ((∃ q, parse s = some q) ↔
      ∃ items, (∀ i ∈ items, i.Valid) ∧ itemsText items = s.bytes) ∧
    ∀ items, (∀ i ∈ items, i.Valid) → itemsText items = s.bytes → ∃ q, parse s = some q ∧
      q.Reads (if s.bytes = [] then 0 else s.bytes.count COMMA + 1) items := by
  refine ⟨⟨?_, ?_⟩, fun items hvalid hs => ?_⟩
  · rintro ⟨q, hq⟩
    exact exists_items hq
  · rintro ⟨items, hvalid, hs⟩
    obtain ⟨q, hq, -⟩ := parse_items hvalid hs
    exact ⟨q, hq⟩
  · obtain ⟨q, hq, hreads⟩ := parse_items hvalid hs
    refine ⟨q, hq, ?_⟩
    cases items with
    | nil => simpa [← hs, itemsText] using hreads
    | cons i items =>
      have hlen := length_items hvalid (by simp)
      have hne := itemsText_ne_nil hvalid (by simp)
      rw [← hs, if_neg hne, ← hlen]
      exact hreads

theorem parse_exact_web : ∃ q, parse (.lit "host=web,*") = some q ∧
    q.size = 1 ∧ q.parts.length = 2 ∧ q.wildcard = true := by
  obtain ⟨q, hq, hreads⟩ := (parse_exact (.lit "host=web,*")).2
    [.pair (.lit "host") (.lit "web"), .star] (by decide) (by decide)
  exact ⟨q, hq, hreads.size, hreads.allocated, hreads.wildcard.mpr (by decide)⟩

end Bolo.Name
