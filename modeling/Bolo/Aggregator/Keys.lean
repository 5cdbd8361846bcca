import Bolo.Config.Reference
import Bolo.Kernel.Keys

/-!
# The key store and its readers

Four readers look at the key store: GET.KEYS, SEARCH.KEYS, `broadcast_setkeys` and
`save_keys`. All but one of them skip a deleted key.
-/
namespace Bolo

open Library

variable {R Re : Type}

section Readers

variable [Double R] [Pcre Re] [HashOrder]

/-- What was last written under a key by the messages `is`, or else stood there before. -/
def storedAfter (k : Kernel R Re) (is : List Input) (key : CString) : Option (Option CString) :=
  (lastWrite (is.flatMap Input.keyWrites) key).or (k.server.keys.get? key)

/-- The readers of `k` see the live keys of `stored`, those that hold a value. -/
structure OneView (k : Kernel R Re) (stored : CString → Option (Option CString)) : Prop where
  /-- GET.KEYS answers with the live ones of the keys it is asked for. -/
  get : ∀ p, p.is .getKeys 2 0 → manage k.server p = .ok (k.server, [reply .values
    (p.frames.flatMap fun key => (stored key).join.elim [] fun value => [key, value])])
  /-- SEARCH.KEYS answers with the live keys that match, unless a deleted key matches. -/
  search : ∀ (pattern : CString) (re : Re), Pcre.compile pattern = .ok re → ∃ found,
    manage k.server { type := Tag.searchKeys.text, frames := [pattern] } =
        .ok (k.server, [reply .keys found]) ∧ found.Nodup ∧
      ((∀ key, key ∈ found ↔ (stored key).join.isSome ∧ Pcre.exec re key) ↔
        ∀ key, stored key = some none → Pcre.exec re key = false)
  /-- The broadcast and the file hold the live keys with their values, each once. -/
  listed : ∃ pairs : List (CString × CString), (pairs.map Prod.fst).Nodup ∧
    (∀ key value, (key, value) ∈ pairs ↔ stored key = some (some value)) ∧
    ((broadcastSetkeys k.server.keys).flatMap Pdu.frames = pairs.flatMap fun e => [e.1, e.2]) ∧
    (∀ p ∈ broadcastSetkeys k.server.keys, p.type = Tag.setKeys.text ∧ p.frames ≠ [] ∧
      p.frames.length ≤ 60) ∧
    ∀ ms, (saveKeys ms k.server.keys).bytes =
      CString.ascii "# generated " ++ (decimal ms.toNat).bytes ++ CString.ascii "\n" ++
        pairs.flatMap keyLine ++
        CString.ascii "# " ++ (decimal (pairs.length % 2 ^ 64)).bytes ++ CString.ascii " keys\n"

omit [Double R] in
theorem manage_getKeys {p : Pdu} (hp : p.is .getKeys 2 0) (s : Server R Re) :
    manage s p = .ok (s, [replyKeys s.keys p.frames]) := by
  simp only [manage, Pdu.is_of_ne hp (show Tag.getKeys ≠ .state by simp),
    Pdu.is_of_ne hp (show Tag.getKeys ≠ .dump by simp), hp]
  rfl

omit [Double R] in
theorem manage_searchKeys (s : Server R Re) {pattern : CString} {re : Re}
    (h : Pcre.compile pattern = .ok re) :
    manage s { type := Tag.searchKeys.text, frames := [pattern] } =
      .ok (s, [replySearch s.keys re]) := by
  simp only [manage, Pdu.is, Pdu.size, Pdu.string]
  change (Except.ok pattern >>= _) = _
  simp only [bind, Except.bind, h]
  rfl

omit [Double R] [HashOrder] in
theorem mem_search {keys : Table CString (Option CString)} {re : Re} {key : CString} :
    key ∈ (keys.entries.map Prod.fst).filter (fun key => Pcre.exec re key) ↔
      (keys.get? key).isSome ∧ Pcre.exec re key := by
  have hmem : key ∈ keys.entries.map Prod.fst ↔ (keys.get? key).isSome := by
    rw [Option.isSome_iff_ne_none, Ne, Table.get?_eq_none_iff, not_not]
  rw [List.mem_filter, hmem]

/-- After any run, every reader sees the live keys. -/
theorem keys_one_view {k k' : Kernel R Re} {is : List Input} {es : List Effect}
    (hrun : Machine.run reactor k is = .ok (k', es)) : OneView k' (storedAfter k is) := by
  have hget (key : CString) : k'.server.keys.get? key = storedAfter k is key := by
    rw [run_keys hrun, get?_writeKeys]
    rfl
  refine ⟨fun p hp => ?_, fun pattern re hre => ?_, ?_⟩
  · rw [manage_getKeys hp, replyKeys]
    congr 6
    funext key
    rw [← hget]
    rcases k'.server.keys.get? key with _ | _ | value <;> rfl
  · refine ⟨_, manage_searchKeys k'.server hre, k'.server.keys.nodup.filter _, ?_⟩
    simp only [mem_search, hget]
    constructor
    · intro h key hdeleted
      simpa [hdeleted] using h key
    · intro h key
      cases hstored : storedAfter k is key with
      | none => simp
      | some value =>
        cases value with
        | none => simp [h key hstored]
        | some value => simp
  · obtain ⟨chunks, hchunks, hpairs⟩ := broadcastSetkeys_chunked k'.server.keys
    refine ⟨livePairs k'.server.keys.entries, livePairs_nodup _, fun key value => ?_, ?_, ?_, ?_⟩
    · rw [mem_livePairs, hget]
    · rw [hchunks, ← hpairs.flatten, List.flatMap_map, List.flatMap_def]
      exact (pairFrames_flatten chunks).symm
    · intro p hp
      rw [hchunks] at hp
      obtain ⟨c, hc, rfl⟩ := List.mem_map.mp hp
      have hlen := length_pairFrames c
      have hpos := hpairs.pos c hc
      have hle := hpairs.le c hc
      refine ⟨rfl, fun hnil => ?_, by change (pairFrames c).length ≤ 60; omega⟩
      change pairFrames c = [] at hnil
      rw [hnil, List.length_nil] at hlen
      omega
    · exact fun ms => saveKeys_bytes ms k'.server.keys

end Readers

/-- The broadcast of a key store: the pairs of live keys in the order of the table, each once,
in PDUs of 30 pairs, the last of which has those that are left. -/
theorem setkeys_chunked (keys : Table CString (Option CString)) :
    ∃ chunks : List (List (CString × CString)),
      broadcastSetkeys keys = chunks.map (fun c =>
        { type := Tag.setKeys.text, frames := c.flatMap fun e => [e.1, e.2] }) ∧
      chunks.flatten =
        keys.entries.filterMap (fun e => e.2.map fun value => (e.1, value)) ∧
      (chunks.flatten.map Prod.fst).Nodup ∧
      (∀ c ∈ chunks, 1 ≤ c.length ∧ c.length ≤ 30) ∧
      (∀ c ∈ chunks.dropLast, c.length = 30) ∧
      chunks.length = (chunks.flatten.length + 29) / 30 := by
  obtain ⟨chunks, hchunks, hpairs⟩ := broadcastSetkeys_chunked keys
  refine ⟨chunks, hchunks, hpairs.flatten, ?_, ?_, hpairs.full, hpairs.length_eq⟩
  · rw [hpairs.flatten]
    exact livePairs_nodup keys
  · exact fun c hc => ⟨hpairs.pos c hc, hpairs.le c hc⟩

section Hosts

open Reference

/-- `a` is set and deleted, `b` is set. -/
def setAndDelete : List Input :=
  [.listener 1 (pdu .setKeys ["a", "1", "b", "2"]), .management (pdu .delKeys ["a"])]

theorem keys_one_view_hosts : ∃ k es,
    Machine.run reactor (boot hosts) setAndDelete = .ok (k, es) ∧
      manage k.server (pdu .getKeys ["a", "b"]) =
        .ok (k.server, [reply .values [.lit "b", .lit "2"]]) := by
  obtain ⟨⟨k, es⟩, hrun⟩ := exists_ok (x := Machine.run reactor (boot hosts) setAndDelete)
    (by decide +kernel)
  refine ⟨k, es, hrun, ((keys_one_view hrun).get (pdu .getKeys ["a", "b"]) (by decide)).trans ?_⟩
  congr 5

/-- The deleted key is listed. -/
theorem deleted_key_found :
    Configured epoch (CString.ascii hostsFile) hosts ∧ ∃ k es,
      Machine.run reactor (boot hosts) setAndDelete = .ok (k, es) ∧
      storedAfter (boot hosts) setAndDelete (.lit "a") = some none ∧
      manage k.server (pdu .searchKeys ["a"]) = .ok (k.server, [reply .keys [.lit "a"]]) := by
  have hall : (do
      let r ← Machine.run reactor (boot hosts) setAndDelete
      let found ← manage r.1.server (pdu .searchKeys ["a"])
      return (found.2, decide (found.1 = r.1.server))) =
        .ok ([reply .keys [.lit "a"]], true) := by
    decide +kernel
  simp only [bind_eq_ok, pure_eq_ok, Prod.mk.injEq, decide_eq_true_eq] at hall
  obtain ⟨⟨k, es⟩, hrun, ⟨s, out⟩, hfound, rfl, rfl⟩ := hall
  exact ⟨hosts_configured, k, es, hrun, by decide +kernel, hfound⟩

end Hosts

end Bolo
