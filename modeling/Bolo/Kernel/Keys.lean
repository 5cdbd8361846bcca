import Bolo.Kernel.Steps

/-!
# The key store

A SET.KEYS and a DEL.KEYS are sequences of writes to the table of keys, where a deletion
writes NULL. What the table holds for a key is the last write to it. A key is live if that
is a value, and the pairs of live keys are what the loops of `broadcast_setkeys` and
`save_keys` go over.
-/
namespace Bolo

open Library

variable {R Re : Type}

/-! ## Writes -/

/-- A key and what is stored under it, NULL where it is deleted. -/
abbrev KeyWrite := CString × Option CString

/-- The pairs of a SET.KEYS. -/
def setWrites : List CString → List KeyWrite
  | key :: value :: rest => (key, some value) :: setWrites rest
  | _ => []

def delWrites (names : List CString) : List KeyWrite := names.map fun key => (key, none)

/-- What a message writes to the key store. -/
def Input.keyWrites : Input → List KeyWrite
  | .listener _ p =>
    if p.is .setKeys 3 0 && (p.size - 1) % 2 = 0 then setWrites p.frames else []
  | .management p => if p.is .delKeys 2 0 then delWrites p.frames else []
  | .tock _ => []

def writeKeys [HashOrder] (keys : Table CString (Option CString)) (ws : List KeyWrite) :
    Table CString (Option CString) :=
  ws.foldl (fun keys w => hashSet keys w.1 w.2) keys

theorem setKeys_eq [HashOrder] (keys : Table CString (Option CString)) (frames : List CString) :
    setKeys keys frames = writeKeys keys (setWrites frames) := by
  induction frames using setWrites.induct generalizing keys with
  | case1 key value rest ih => exact ih _
  | case2 frames h =>
    unfold setKeys setWrites
    split <;> simp_all [writeKeys]

theorem delKeys_eq [HashOrder] (keys : Table CString (Option CString)) (names : List CString) :
    delKeys keys names = writeKeys keys (delWrites names) := by
  simp [delKeys, writeKeys, delWrites, List.foldl_map]

/-- The last write to a key. -/
def lastWrite (ws : List KeyWrite) (key : CString) : Option (Option CString) :=
  (ws.reverse.find? fun w => w.1 = key).map Prod.snd

theorem lastWrite_cons (w : KeyWrite) (ws : List KeyWrite) (key : CString) :
    lastWrite (w :: ws) key =
      (lastWrite ws key).or (if key = w.1 then some w.2 else none) := by
  simp only [lastWrite, List.reverse_cons, List.find?_append, Option.map_or]
  by_cases h : key = w.1
  · simp [h]
  · simp [h, Ne.symm h]

theorem get?_writeKeys [HashOrder] (keys : Table CString (Option CString)) (ws : List KeyWrite)
    (key : CString) :
    (writeKeys keys ws).get? key = (lastWrite ws key).or (keys.get? key) := by
  induction ws generalizing keys with
  | nil => rfl
  | cons w ws ih =>
    have hrest := ih (hashSet keys w.1 w.2)
    rw [lastWrite_cons, Option.or_assoc]
    refine hrest.trans ?_
    by_cases h : key = w.1 <;> simp [h]

/-! ## The store within the kernel -/

section Kernel

variable [Double R] [Pcre Re] [HashOrder]

theorem listen_setKeys {p : Pdu} (hp : p.is .setKeys 3 0) (now : Int32) (k : Kernel R Re) :
    listen now p k = .ok ({ k with server := { k.server with
      keys := writeKeys k.server.keys (Input.listener now p).keyWrites } }, []) := by
  simp only [listen, Input.keyWrites, Pdu.is_of_ne hp (show Tag.setKeys ≠ .state by simp),
    Pdu.is_of_ne hp (show Tag.setKeys ≠ .counter by simp),
    Pdu.is_of_ne hp (show Tag.setKeys ≠ .sample by simp),
    Pdu.is_of_ne hp (show Tag.setKeys ≠ .rate by simp),
    Pdu.is_of_ne hp (show Tag.setKeys ≠ .event by simp), hp, Bool.true_and]
  by_cases heven : (p.size - 1) % 2 = 0
  · simp [heven, setKeys_eq]
  · simp [heven, writeKeys]

omit [Double R] in
theorem manage_keys {s s' : Server R Re} {p : Pdu} {es : List Effect}
    (h : manage s p = .ok (s', es)) :
    s'.keys = writeKeys s.keys (Input.management p).keyWrites := by
  cases hp : p.is .delKeys 2 0 with
  | true =>
    simp only [manage, Pdu.is_of_ne hp (show Tag.delKeys ≠ .state by simp),
      Pdu.is_of_ne hp (show Tag.delKeys ≠ .dump by simp),
      Pdu.is_of_ne hp (show Tag.delKeys ≠ .getKeys by simp), hp] at h
    obtain ⟨rfl, -⟩ := Prod.mk.inj (Except.ok.inj h)
    simp [Input.keyWrites, hp, delKeys_eq]
  | false =>
    simp only [Input.keyWrites, hp]
    change s'.keys = s.keys
    simp only [manage, hp, Bool.false_eq_true, if_false] at h
    split_ifs at h <;> simp only [bind_eq_ok, pure_eq_ok, Except.ok.injEq, Prod.mk.injEq] at h
    · obtain ⟨_, -, _, -, rfl, -⟩ := h
      rfl
    · obtain ⟨_, -, rfl, -⟩ := h
      rfl
    · exact h.1 ▸ rfl
    · obtain ⟨_, -, h⟩ := h
      split at h <;> exact (Prod.mk.inj (pure_eq_ok.mp h)).1 ▸ rfl
    · obtain ⟨_, -, _, -, rfl, -⟩ := h
      rfl
    · exact h.1 ▸ rfl
    · obtain ⟨_, -, _, -, _, -, rfl, -⟩ := h
      rfl
    · exact h.1 ▸ rfl

/-- A message writes to the key store what it says, in order. -/
theorem reactor_keys {k k' : Kernel R Re} {i : Input} {es : List Effect}
    (h : reactor k i = .ok (k', es)) :
    k'.server.keys = writeKeys k.server.keys i.keyWrites := by
  cases i with
  | tock clock =>
    obtain ⟨t⟩ := tock_spec h
    exact t.keys_eq
  | management p =>
    simp only [reactor, bind_eq_ok, pure_eq_ok, Prod.mk.injEq] at h
    obtain ⟨r, hm, rfl, -⟩ := h
    exact manage_keys hm
  | listener now p =>
    cases hp : p.is .setKeys 3 0 with
    | true =>
      rw [reactor, listen_setKeys hp] at h
      exact (Prod.mk.inj (Except.ok.inj h)).1 ▸ rfl
    | false =>
      have hnone : (Input.listener now p).keyWrites = [] := by simp [Input.keyWrites, hp]
      rw [hnone]
      cases listen_spec h with
      | state _ _ => rfl
      | series _ _ _ => rfl
      | event _ _ => rfl
      | setKeys hp' => simp [hp] at hp'
      | other _ _ => rfl

theorem run_keys {k k' : Kernel R Re} {is : List Input} {es : List Effect}
    (h : Machine.run reactor k is = .ok (k', es)) :
    k'.server.keys = writeKeys k.server.keys (is.flatMap Input.keyWrites) := by
  refine Machine.run_inputs (l := []) (Q := fun _ _ => True)
    (P := fun (k' : Kernel R Re) l =>
      k'.server.keys = writeKeys k.server.keys (l.flatMap Input.keyWrites)) ?_ rfl
    (fun _ _ _ _ => trivial) h
  intro k₁ i k₂ out l hk _ hstep
  rw [reactor_keys hstep, hk]
  simp [writeKeys]

end Kernel

/-! ## Live keys -/

/-- The live keys with their values, in the order of the table. -/
def livePairs (l : List KeyWrite) : List (CString × CString) :=
  l.filterMap fun e => e.2.map fun value => (e.1, value)

theorem livePairs_none (key : CString) (l : List KeyWrite) :
    livePairs ((key, none) :: l) = livePairs l := rfl

theorem livePairs_some (key value : CString) (l : List KeyWrite) :
    livePairs ((key, some value) :: l) = (key, value) :: livePairs l := rfl

theorem mem_livePairs {keys : Table CString (Option CString)} {key value : CString} :
    (key, value) ∈ livePairs keys.entries ↔ keys.get? key = some (some value) := by
  simp only [livePairs, List.mem_filterMap, Option.map_eq_some_iff, Prod.mk.injEq]
  constructor
  · rintro ⟨e, he, v, hv, rfl, rfl⟩
    rw [← hv]
    exact Table.get?_of_mem he
  · intro h
    exact ⟨(key, some value), Table.mem_of_get? h, value, rfl, rfl, rfl⟩

theorem livePairs_nodup (keys : Table CString (Option CString)) :
    ((livePairs keys.entries).map Prod.fst).Nodup := by
  refine keys.nodup.sublist ?_
  generalize keys.entries = l
  induction l with
  | nil => simp [livePairs]
  | cons e l ih =>
    obtain ⟨key, _ | value⟩ := e
    · rw [livePairs_none]
      exact ih.cons _
    · rw [livePairs_some]
      exact ih.cons_cons _

/-- The frames in which pairs are sent. -/
def pairFrames (pairs : List (CString × CString)) : List CString :=
  pairs.flatMap fun e => [e.1, e.2]

theorem pairFrames_flatten (chunks : List (List (CString × CString))) :
    pairFrames chunks.flatten = (chunks.map pairFrames).flatten := by
  induction chunks with
  | nil => rfl
  | cons c chunks ih =>
    rw [List.flatten_cons, List.map_cons, List.flatten_cons, ← ih]
    exact List.flatMap_append

theorem length_pairFrames (pairs : List (CString × CString)) :
    (pairFrames pairs).length = 2 * pairs.length := by
  induction pairs with
  | nil => rfl
  | cons e pairs ih =>
    change (pairFrames pairs).length + 2 = 2 * (pairs.length + 1)
    omega

/-- How the live pairs are distributed: 30 to a chunk, what is left in the last one, and no
chunk without a pair. -/
structure Chunked (pairs : List (CString × CString)) (chunks : List (List (CString × CString))) :
    Prop where
  flatten : chunks.flatten = pairs
  pos : ∀ c ∈ chunks, 0 < c.length
  le : ∀ c ∈ chunks, c.length ≤ 30
  full : ∀ c ∈ chunks.dropLast, c.length = 30

theorem Chunked.nil : Chunked [] [] := ⟨rfl, by simp, by simp, by simp⟩

theorem Chunked.single {c : List (CString × CString)} (hpos : 0 < c.length)
    (hle : c.length ≤ 30) : Chunked c [c] :=
  ⟨by simp, by simpa using hpos, by simpa using hle, by simp⟩

theorem Chunked.cons {c pairs : List (CString × CString)}
    {chunks : List (List (CString × CString))} (hc : c.length = 30) (h : Chunked pairs chunks) :
    Chunked (c ++ pairs) (c :: chunks) := by
  refine ⟨by rw [List.flatten_cons, h.flatten], ?_, ?_, ?_⟩
  · exact List.forall_mem_cons.mpr ⟨by omega, h.pos⟩
  · exact List.forall_mem_cons.mpr ⟨by omega, h.le⟩
  · intro d hd
    cases chunks with
    | nil => simp at hd
    | cons d' chunks =>
      rw [List.dropLast_cons_cons, List.mem_cons] at hd
      exact hd.elim (fun heq => heq ▸ hc) (h.full d)

theorem Chunked.length_eq {pairs : List (CString × CString)}
    {chunks : List (List (CString × CString))} (h : Chunked pairs chunks) :
    chunks.length = (chunks.flatten.length + 29) / 30 := by
  rcases List.eq_nil_or_concat chunks with rfl | ⟨front, last, rfl⟩
  · rfl
  · have hfull : ∀ c ∈ front, c.length = 30 := by simpa using h.full
    have hsum : (front.map List.length).sum = front.length * 30 := by
      rw [List.map_congr_left hfull, List.map_const', List.sum_replicate_nat]
    have hpos := h.pos last (by simp)
    have hle := h.le last (by simp)
    simp only [List.concat_eq_append, List.length_append, List.length_flatten, List.map_append,
      List.sum_append, List.map_cons, List.map_nil, List.sum_cons, List.sum_nil, hsum,
      List.length_cons, List.length_nil]
    omega

/-- The invariant of the loop is that fewer than 30 pairs are waiting. -/
theorem setKeysChunks_spec (waiting : List (CString × CString)) (l : List KeyWrite)
    (hn : waiting.length < 30) :
    ∃ chunks, setKeysChunks (pairFrames waiting) waiting.length l = chunks.map pairFrames ∧
      Chunked (waiting ++ livePairs l) chunks := by
  induction l generalizing waiting with
  | nil =>
    unfold setKeysChunks
    split
    · case isTrue hpos =>
        refine ⟨[waiting], rfl, ?_⟩
        rw [livePairs, List.filterMap_nil, List.append_nil]
        exact .single hpos hn.le
    · case isFalse hzero =>
        obtain rfl : waiting = [] := List.length_eq_zero_iff.mp (by omega)
        exact ⟨[], rfl, .nil⟩
  | cons e l ih =>
    obtain ⟨key, _ | value⟩ := e
    · exact ih waiting hn
    · have hframes : pairFrames waiting ++ [key, value] =
          pairFrames (waiting ++ [(key, value)]) := by
        simp [pairFrames]
      have hlen : (waiting ++ [(key, value)]).length = waiting.length + 1 := by simp
      have happend : waiting ++ livePairs ((key, some value) :: l) =
          waiting ++ [(key, value)] ++ livePairs l := by
        rw [livePairs_some, List.append_assoc, List.singleton_append]
      unfold setKeysChunks
      rw [hframes, happend]
      split
      · case isTrue hfull =>
          obtain ⟨chunks, hchunks, hrest⟩ := ih [] (by decide)
          refine ⟨(waiting ++ [(key, value)]) :: chunks, congrArg _ hchunks, ?_⟩
          exact .cons (by omega) hrest
      · case isFalse hroom =>
          rw [← hlen] at hroom ⊢
          exact ih _ (by omega)

theorem broadcastSetkeys_chunked (keys : Table CString (Option CString)) :
    ∃ chunks, broadcastSetkeys keys =
        chunks.map (fun c => { type := Tag.setKeys.text, frames := pairFrames c }) ∧
      Chunked (livePairs keys.entries) chunks := by
  obtain ⟨chunks, hchunks, hpairs⟩ :=
    setKeysChunks_spec [] keys.entries (by decide)
  refine ⟨chunks, ?_, hpairs⟩
  rw [broadcastSetkeys, show setKeysChunks [] 0 keys.entries = chunks.map pairFrames from hchunks,
    List.map_map]
  rfl

/-- One line of the keys file. -/
def keyLine (e : CString × CString) : List UInt8 :=
  e.1.bytes ++ CString.ascii " = " ++ e.2.bytes ++ CString.ascii "\n"

theorem saveKeysLines_spec (io : CString) (n : UInt64) (l : List KeyWrite) :
    (saveKeysLines io n l).1.bytes = io.bytes ++ (livePairs l).flatMap keyLine ∧
      (saveKeysLines io n l).2 = n + UInt64.ofNat (livePairs l).length := by
  have hequals : (CString.lit " = ").bytes = CString.ascii " = " := by decide
  have hnewline : (CString.lit "\n").bytes = CString.ascii "\n" := by decide
  induction l generalizing io n with
  | nil => simp [saveKeysLines, livePairs]
  | cons e l ih =>
    obtain ⟨key, _ | value⟩ := e
    · exact ih io n
    · obtain ⟨htext, hcount⟩ := ih (io ++ key ++ .lit " = " ++ value ++ .lit "\n") (n + 1)
      rw [livePairs_some]
      refine ⟨?_, ?_⟩
      · simpa [saveKeysLines, keyLine, hequals, hnewline] using htext
      · rw [saveKeysLines, hcount, List.length_cons, UInt64.ofNat_add]
        grind

theorem saveKeys_bytes (ms : UInt64) (keys : Table CString (Option CString)) :
    (saveKeys ms keys).bytes =
      CString.ascii "# generated " ++ (decimal ms.toNat).bytes ++ CString.ascii "\n" ++
        (livePairs keys.entries).flatMap keyLine ++
        CString.ascii "# " ++ (decimal ((livePairs keys.entries).length % 2 ^ 64)).bytes ++
        CString.ascii " keys\n" := by
  obtain ⟨htext, hcount⟩ := saveKeysLines_spec
    (.lit "# generated " ++ decimal ms.toNat ++ .lit "\n") 0 keys.entries
  rw [UInt64.zero_add] at hcount
  have hlit : (CString.lit "# generated ").bytes = CString.ascii "# generated " ∧
      (CString.lit "\n").bytes = CString.ascii "\n" ∧
      (CString.lit "# ").bytes = CString.ascii "# " ∧
      (CString.lit " keys\n").bytes = CString.ascii " keys\n" := by decide
  simp only [saveKeys, CString.bytes_append, htext, hcount, hlit, UInt64.toNat_ofNat']

end Bolo
