import Bolo.Config.Reference
import Bolo.Library.LineProtocol
import Bolo.Subscribers.Broadcasts

/-!
# Windows as points of a time series

`bolo2influxdb` turns the broadcast of a window into one line of the line protocol. The name
of the datapoint is cut at its first, its second and its last colon into a host, a type, an
item and a metric; a name with fewer than two colons is not sent on.
-/
namespace Bolo.Influxdb

open Library Postgres LineProtocol

variable {R Re : Type}

/-! ## The dispatcher -/

def COLON : UInt8 := 58

/-- What a name is cut into. -/
structure Parts where
  host : Text
  type : Text
  item : Option Text
  metric : Text
  deriving DecidableEq

def split (name : Text) : Option Parts := do
  let (host, rest) ← cutFirst COLON name
  let (type, rest) ← cutFirst COLON rest
  match cutLast COLON rest with
  | some (item, metric) => some { host := host, type := type, item := some item, metric := metric }
  | none => some { host := host, type := type, item := none, metric := rest }

/-- The formats, with and without an item. -/
def format : Kind → Bool → String
  | .sample, true =>
    "%s,host=%s,type=%s,item=%s n=%s,min=%s,max=%s,sum=%s,mean=%s,var=%s %s000000000\n"
  | .sample, false =>
    "%s,host=%s,type=%s n=%s,min=%s,max=%s,sum=%s,mean=%s,var=%s %s000000000\n"
  | .counter, true => "%s,host=%s,type=%s,item=%s value=%s %s000000000\n"
  | .counter, false => "%s,host=%s,type=%s value=%s %s000000000\n"
  | .rate, true => "%s,host=%s,type=%s,item=%s window=%s,value=%s %s000000000\n"
  | .rate, false => "%s,host=%s,type=%s window=%s,value=%s %s000000000\n"

/-- The text that `snprintf` would write for a format with `%s` only. -/
def printed : Text → List Text → Text
  | 37 :: 115 :: fmt, t :: args => t ++ printed fmt args
  | b :: fmt, args => b :: printed fmt args
  | [], _ => []

/-- The kind of a broadcast with the frames that its type should have. -/
def kindOf (p : Pdu) : Option Kind :=
  if p.type = Tag.counter.text && p.size = 4 then some .counter
  else if p.type = Tag.sample.text && p.size = 9 then some .sample
  else if p.type = Tag.rate.text && p.size = 5 then some .rate
  else none

/-- What `send` is given: `len` bytes of `pkt`, where `len` is what `snprintf` returned. -/
def packet (text : Text) : Except Fault Text :=
  if text.length < 65536 then .ok text
  else if text.length = 65536 then .ok (text.take 65535 ++ [0])
  else .error .outOfBounds

/-- `_dispatcher_reactor` on a broadcast: the datagram, if one is sent. -/
def datagram (p : Pdu) : Except Fault (Option Text) :=
  match kindOf p, p.frames with
  | some κ, ts :: name :: values =>
    match split name.bytes with
    | none => .ok none
    | some s => do
      let pkt ← packet (printed (CString.ascii (format κ s.item.isSome))
        ([s.metric, s.host, s.type] ++ s.item.toList ++ values.map CString.bytes ++ [ts.bytes]))
      return some pkt
  | _, _ => .ok none

/-! ## The point that is meant -/

def fieldNames : Kind → List String
  | .counter => ["value"]
  | .sample => ["n", "min", "max", "sum", "mean", "var"]
  | .rate => ["window", "value"]

def Parts.tags (s : Parts) : List (Text × Text) :=
  [(CString.ascii "host", s.host), (CString.ascii "type", s.type)] ++
    s.item.toList.map fun item => (CString.ascii "item", item)

/-- The point of a window that starts at the second `ts`. -/
def point (κ : Kind) (s : Parts) (ts : Text) (values : List Text) : Point where
  measurement := s.metric
  tags := s.tags
  fields := ((fieldNames κ).map CString.ascii).zip values
  time := ts ++ CString.ascii "000000000"

/-- The name that was cut. -/
def Parts.join (s : Parts) : Text :=
  [COLON].intercalate ([s.host, s.type] ++ s.item.toList ++ [s.metric])

/-- The values of a window, kind by kind. -/
theorem values_cases {κ : Kind} {values : List Text} (h : values.length = (fieldNames κ).length) :
    (κ = .counter ∧ ∃ v, values = [v]) ∨ (κ = .rate ∧ ∃ w v, values = [w, v]) ∨
      (κ = .sample ∧ ∃ n min max sum mean var, values = [n, min, max, sum, mean, var]) := by
  cases κ with
  | counter => exact .inl ⟨rfl, List.length_eq_one_iff.mp h⟩
  | rate => exact .inr (.inl ⟨rfl, List.length_eq_two.mp h⟩)
  | sample =>
    match values, h with
    | [n, min, max, sum, mean, var], _ => exact .inr (.inr ⟨rfl, n, min, max, sum, mean, var, rfl⟩)

theorem printed_eq (κ : Kind) (s : Parts) (ts : Text) {values : List Text}
    (h : values.length = (fieldNames κ).length) :
    printed (CString.ascii (format κ s.item.isSome))
      ([s.metric, s.host, s.type] ++ s.item.toList ++ values ++ [ts]) =
      (point κ s ts values).line := by
  obtain ⟨host, type, item, metric⟩ := s
  -- the two sides are the same texts, once the right one is multiplied out
  rcases values_cases h with ⟨rfl, v, rfl⟩ | ⟨rfl, w, v, rfl⟩ |
      ⟨rfl, n, min, max, sum, mean, var, rfl⟩
    <;> cases item
    <;> simp [Point.line, point, Point.parts, Parts.tags, list, assign, List.intercalate,
      fieldNames]
    <;> rfl

/-! ## Names -/

theorem join_of_split {name : Text} {s : Parts} (h : split name = some s) : s.join = name := by
  simp only [split, Option.bind_eq_bind, Option.bind_eq_some_iff, Prod.exists] at h
  obtain ⟨host, rest, hhost, type, rest', htype, h⟩ := h
  rw [(cutFirst_eq_some.mp hhost).1, (cutFirst_eq_some.mp htype).1]
  split at h
  case h_1 item metric hlast =>
    obtain rfl := Option.some.inj h
    rw [eq_of_cutLast hlast]
    simp [Parts.join, List.intercalate]
  case h_2 =>
    obtain rfl := Option.some.inj h
    simp [Parts.join, List.intercalate]

/-- A name is cut exactly if it has two colons. -/
theorem split_eq_none {name : Text} : split name = none ↔ name.count COLON < 2 := by
  have hcut {l : Text} : cutFirst COLON l = none ↔ l.count COLON = 0 := by
    rw [List.count_eq_zero, cutFirst]
    split <;> simp [*]
  simp only [split, Option.bind_eq_bind]
  cases hfirst : cutFirst COLON name with
  | none => simp [hcut.mp hfirst]
  | some r =>
    obtain ⟨rfl, hmem⟩ := cutFirst_eq_some.mp hfirst
    have hhost : r.1.count COLON = 0 := List.count_eq_zero.mpr hmem
    cases hsecond : cutFirst COLON r.2 with
    | none => simp [hsecond, hcut.mp hsecond, hhost]
    | some r' =>
      have : r.2.count COLON ≠ 0 := fun h => by simp [hcut.mpr h] at hsecond
      simp [hsecond]
      split <;> simp <;> omega

/-! ## Bare texts -/

theorem not_special_of_isdigit {b : UInt8} (h : isdigit b) : b ∉ specials := by
  obtain ⟨hlo, -⟩ := isdigit_bounds h
  intro hmem
  simp only [specials, List.mem_cons, List.not_mem_nil, or_false] at hmem
  rcases hmem with rfl | rfl | rfl | rfl | rfl | rfl
  all_goals revert h; decide

theorem bare_digits {t : Text} (hne : t ≠ []) (h : ∀ b ∈ t, isdigit b) : Bare t :=
  ⟨hne, fun b hb => not_special_of_isdigit (h b hb)⟩

theorem bare_numeral {t : Text} {n : Int} (h : Numeral t n) : Bare t := by
  cases h with
  | digits hne hds => exact bare_digits hne hds
  | plus hne hds =>
    exact ⟨by simp, List.forall_mem_cons.mpr ⟨by decide, (bare_digits hne hds).2⟩⟩
  | minus hne hds =>
    exact ⟨by simp, List.forall_mem_cons.mpr ⟨by decide, (bare_digits hne hds).2⟩⟩

theorem bare_decimal (n : Nat) : Bare (decimal n).bytes :=
  bare_digits (by simp [decimal_bytes]) (isdigit_decimal n)

structure Parts.Bare (s : Parts) : Prop where
  host : LineProtocol.Bare s.host
  type : LineProtocol.Bare s.type
  item : ∀ item ∈ s.item, LineProtocol.Bare item
  metric : LineProtocol.Bare s.metric

theorem Parts.bare_tags {s : Parts} (h : s.Bare) : ∀ e ∈ s.tags, BarePair e := by
  intro e he
  simp only [Parts.tags, List.mem_append, List.mem_cons, List.not_mem_nil, or_false, List.mem_map,
    Option.mem_toList] at he
  rcases he with (rfl | rfl) | ⟨item, hitem, rfl⟩
  · exact ⟨(by decide : LineProtocol.Bare (CString.ascii "host")), h.host⟩
  · exact ⟨(by decide : LineProtocol.Bare (CString.ascii "type")), h.type⟩
  · exact ⟨(by decide : LineProtocol.Bare (CString.ascii "item")), h.item item hitem⟩

theorem bare_fieldNames (κ : Kind) : ∀ t ∈ (fieldNames κ).map CString.ascii, Bare t := by
  cases κ <;> decide

theorem point_bare {κ : Kind} {s : Parts} {values : List Text} (hs : s.Bare) (n : Nat)
    (hlen : values.length = (fieldNames κ).length) (hvalues : ∀ v ∈ values, Bare v) :
    (point κ s (decimal n).bytes values).Bare where
  measurement := hs.metric
  tags := Parts.bare_tags hs
  fields e he := ⟨bare_fieldNames κ _ (List.of_mem_zip he).1, hvalues _ (List.of_mem_zip he).2⟩
  some_field h := by
    have hzip := congrArg List.length h
    simp only [point, List.length_zip, List.length_map, hlen, Nat.min_self] at hzip
    cases κ <;> cases hzip
  time := by
    refine bare_digits (by simp [point, decimal_bytes]) fun b hb => ?_
    rcases List.mem_append.mp hb with hb | hb
    · exact isdigit_decimal n b hb
    · exact List.all_eq_true.mp (by decide : (CString.ascii "000000000").all isdigit) b hb

/-- Seconds as nanoseconds. -/
theorem digitsValue_time (κ : Kind) (s : Parts) (n : Nat) (values : List Text) :
    digitsValue (point κ s (decimal n).bytes values).time = n * 10 ^ 9 := by
  have hzeros : CString.ascii "000000000" = List.replicate 9 48 := by decide
  have hvalue := digitsValue_decimal n
  simp only [digitsValue] at hvalue
  simp only [point, digitsValue, List.foldl_append, hvalue, hzeros]
  simp [List.replicate]
  omega

/-! ## Windows -/

section Windows

variable [Double R]

/-- The broadcast of a window, with as many bare values as its kind has fields. -/
theorem values_of_bulletin (hfmt : ∀ x : R, Bare (Double.fmtE x).bytes) {p : Pdu}
    (h : Bulletin R p) {κ : Kind} (hκ : p.type = κ.tag.text) :
    ∃ (t : Int32) (name : CString) (values : List CString),
      p = { type := κ.tag.text, frames := decimal t.toUInt32.toNat :: name :: values } ∧
      values.length = (fieldNames κ).length ∧ ∀ v ∈ values, Bare v.bytes := by
  cases h with
  | counter ts name c =>
    obtain rfl : κ = .counter := by cases κ <;> simp [Kind.tag] at hκ ⊢
    exact ⟨ts, name, counterPayload c, rfl, rfl, by simpa [counterPayload] using bare_decimal _⟩
  | sample ts name x =>
    obtain rfl : κ = .sample := by cases κ <;> simp [Kind.tag] at hκ ⊢
    exact ⟨ts, name, samplePayload x, rfl, rfl,
      by simpa [samplePayload, hfmt] using bare_decimal _⟩
  | rate ts name w r =>
    obtain rfl : κ = .rate := by cases κ <;> simp [Kind.tag] at hκ ⊢
    exact ⟨ts, name, ratePayload R w r, rfl, rfl,
      by simpa [ratePayload, hfmt] using bare_numeral (numeral_decimalInt _)⟩
  | _ => cases κ <;> simp [Kind.tag] at hκ

theorem kindOf_window {κ : Kind} (ts name : CString) {values : List CString}
    (h : values.length = (fieldNames κ).length) :
    kindOf { type := κ.tag.text, frames := ts :: name :: values } = some κ := by
  cases κ <;> simp_all [kindOf, Kind.tag, Pdu.size, fieldNames]

omit [Double R] in
theorem kindOf_eq_none {p : Pdu} (h : ∀ κ : Kind, p.type ≠ κ.tag.text) : kindOf p = none := by
  have hcounter : p.type ≠ Tag.counter.text := h .counter
  have hsample : p.type ≠ Tag.sample.text := h .sample
  have hrate : p.type ≠ Tag.rate.text := h .rate
  simp [kindOf, hcounter, hsample, hrate]

theorem packet_of_lt {t : Text} (h : t.length < 65536) : packet t = .ok t := if_pos h

variable [Pcre Re] [HashOrder]

end Windows

section Pages

open Reference

/-- Pages by the minute, with a name that says where. -/
def pages : Server Int CString :=
  { minutes with
    db := { minutes.db with
      counters := hashSet .empty (.lit "web:http:80:pages")
        (.blank (.lit "web:http:80:pages") (some minute)) } }

def pagesRun : List Input :=
  [.listener 70 (pdu .counter ["70", "web:http:80:pages", "3"]),
   .tock { now := 180, sweep := 180, ms := 180000 }]

def pagesWindow : Pdu := pdu .counter ["60", "web:http:80:pages", "3"]

end Pages

end Bolo.Influxdb
