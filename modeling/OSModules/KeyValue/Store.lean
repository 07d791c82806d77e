/-
  What the four commands do to the slots, and where they stop at a fault.
-/
import OSModules.KeyValue.Server

namespace KeyValue

open CString CHeap Prog

variable {s : Server} {E : Fault → Prop} {wide : Str → Int32} {tokens : List Str}
  {room : ℕ → ℕ} {i j : Fin MAX_KEYS}

def Server.added (s : Server) (i : Fin MAX_KEYS) (key len : ℤ) (v : Str) : Server :=
  { s with
    key_arr := Function.update s.key_arr i key
    value_len := Function.update s.value_len i len
    value_arr := Function.update s.value_arr i s.heap.next
    idx := s.idx + 1
    heap := s.heap.put (len % 2 ^ 64).toNat v }

def Server.updated (s : Server) (i : Fin MAX_KEYS) (len : ℤ) (v : Str) : Server :=
  { s with
    value_len := Function.update s.value_len i len
    value_arr := Function.update s.value_arr i s.heap.next
    heap := (s.heap.release (s.value_arr i)).put 4 v }

def Server.deleted (s : Server) (i : Fin MAX_KEYS) : Server :=
  { s with
    key_arr := Function.update s.key_arr i (-1)
    value_len := Function.update s.value_len i (-1)
    heap := s.heap.release (s.value_arr i) }

/-- A slot with the key. -/
def Server.At (s : Server) (key : ℤ) (i : Fin MAX_KEYS) : Prop := i < s.idx ∧ s.key_arr i = key

theorem wp_onHeap {α : Type} {x : Program Fault Heap α} {Q : α → Server → Prop} :
    wp (onHeap x) s E Q ↔ wp x s.heap E fun a h => Q a { s with heap := h } := wp_zoom

theorem wp_token {n : ℕ} {t : Str} (ht : tokens[n]? = some t) {Q : Str → Server → Prop}
    (hQ : Q t s) : wp (token tokens n) s E Q := by
  rw [token, ht]
  exact hQ

theorem wp_token_missing {n : ℕ} (ht : tokens[n]? = none) (hE : E .uninitialised)
    {Q : Str → Server → Prop} : wp (token tokens n) s E Q := by
  rw [token, ht]
  exact hE

theorem wp_intToken {n : ℕ} {t : Str} {x : ℤ} (ht : tokens[n]? = some t) (hx : atoi wide t = x)
    {Q : ℤ → Server → Prop} (hQ : Q x s) : wp (intToken wide tokens n) s E Q := by
  subst hx
  rw [intToken, wp_bind]
  exact wp_token ht hQ

theorem wp_intToken_missing {n : ℕ} (ht : tokens[n]? = none) (hE : E .uninitialised)
    {Q : ℤ → Server → Prop} : wp (intToken wide tokens n) s E Q := by
  rw [intToken, wp_bind]
  exact wp_token_missing ht hE

/-- The first slot with the key. -/
def Server.first (s : Server) (key : ℤ) : Option (Fin MAX_KEYS) :=
  Fin.find? fun i => (i : ℕ) < s.idx ∧ s.key_arr i = key

theorem first_eq_some {key : ℤ} : s.first key = some i ↔ s.At key i ∧ ∀ j < i, ¬ s.At key j := by
  simp only [Server.first, Fin.find?_eq_some_iff, decide_eq_true_eq, decide_eq_false_iff_not]
  rfl

theorem first_eq_none {key : ℤ} : s.first key = none ↔ ∀ i, ¬ s.At key i := by
  simp only [Server.first, Fin.find?_eq_none_iff, decide_eq_false_iff_not]
  rfl

/-- The loop finds the first slot of the key, or there is none. -/
theorem wp_scan {key : ℤ} {n m : ℕ} (hm : n + m ≤ MAX_KEYS) {Q : Option (Fin MAX_KEYS) → Server → Prop}
    (hsome : ∀ k : Fin MAX_KEYS, k < n + m → s.key_arr k = key →
      (∀ j : Fin MAX_KEYS, n ≤ j → j < k → s.key_arr j ≠ key) → Q (some k) s)
    (hnone : (∀ k : Fin MAX_KEYS, n ≤ k → k < n + m → s.key_arr k ≠ key) → Q none s) :
    wp (scan key n m) s E Q := by
  induction m generalizing n with
  | zero =>
    refine hnone fun k hle hlt => ?_
    omega
  | succ m ih =>
    rw [scan, wp_bind]
    refine wp_index ⟨n, by omega⟩ rfl ?_
    rw [wp_bind, wp_get]
    split
    · next hkey =>
      refine hsome _ (by simp) hkey fun j hle hlt => ?_
      exact absurd (Fin.lt_def.1 hlt) (not_lt.2 hle)
    · next hkey =>
      have hfirst : ∀ k : Fin MAX_KEYS, n ≤ k → ¬ n + 1 ≤ k → s.key_arr k ≠ key := by
        intro k hle hge
        rwa [show k = ⟨n, by omega⟩ from Fin.ext (by simp only; omega)]
      refine ih (by omega) (fun k hlt hk hno => hsome k (by omega) hk fun j hle hj => ?_)
        fun hno => hnone fun k hle hlt => ?_
      · by_cases hj' : n + 1 ≤ j
        · exact hno j hj' hj
        · exact hfirst j hle hj'
      · by_cases hk : n + 1 ≤ k
        · exact hno k hk (by omega)
        · exact hfirst k hle hk

theorem wp_scan_first {key : ℤ} (hidx : s.idx ≤ MAX_KEYS) {Q : Option (Fin MAX_KEYS) → Server → Prop}
    (hQ : Q (s.first key) s) : wp (scan key 0 s.idx) s E Q := by
  refine wp_scan (by omega) (fun i hlt hkey hno => ?_) fun hno => ?_
  · rwa [← first_eq_some.2 ⟨⟨by omega, hkey⟩, fun j hj hjk => hno j (Nat.zero_le _) hj hjk.2⟩]
  · rwa [← first_eq_none.2 fun i hi => hno i (Nat.zero_le _) (by simpa using hi.1) hi.2]

section
variable {k t v : Str} {key len : ℤ} (hidx : s.idx ≤ MAX_KEYS) (hk : tokens[1]? = some k)
  (hkey : atoi wide k = key)
include hidx hk hkey

theorem wp_create_key_value_pair (ht : tokens[2]? = some t) (hlen : atoi wide t = len)
    (hv : tokens[3]? = some v) {Q : Str → Server → Prop}
    (hfull : s.idx = MAX_KEYS → Q "storage full".toList s)
    (hold : ∀ i, s.idx < MAX_KEYS → s.first key = some i → Q "already key exists".toList s)
    (hnew : ∀ hlt : s.idx < MAX_KEYS, s.first key = none → v.length < room (len % 2 ^ 64).toNat →
      Q "Key Value pair Added".toList (s.added ⟨s.idx, hlt⟩ key len v))
    (hover : s.idx < MAX_KEYS → s.first key = none → ¬ v.length < room (len % 2 ^ 64).toNat →
      E .bufferOverflow) :
    wp (create_key_value_pair wide tokens room) s E Q := by
  rw [create_key_value_pair, wp_bind]
  refine wp_intToken hk hkey ?_
  rw [wp_bind, wp_get]
  dsimp only
  split
  · next hmax => exact hfull hmax
  · next hmax =>
    have hlt : s.idx < MAX_KEYS := lt_of_le_of_ne hidx hmax
    rw [wp_bind]
    refine wp_scan_first hidx ?_
    cases hfirst : s.first key with
    | some i => exact hold i hlt hfirst
    | none =>
      simp only [wp_bind, wp_modify]
      refine wp_index ⟨s.idx, hlt⟩ rfl (wp_intToken ht hlen ?_)
      rw [wp_onHeap, wp_malloc]
      refine wp_token hv ?_
      rw [wp_onHeap]
      by_cases hroom : v.length < room (len % 2 ^ 64).toNat
      · exact wp_strcpy (Heap.alloc_block_next _ _) hroom (hnew hlt hfirst hroom)
      · exact wp_strcpy_overflow (Heap.alloc_block_next _ _) hroom (hover hlt hfirst hroom)

theorem wp_Read {Q : Str → Server → Prop}
    (hsome : ∀ i, s.first key = some i →
      (∃ n v, s.heap.block (s.value_arr i) = some ⟨n, some v⟩ ∧ Q v s) ∨
        s.heap.block (s.value_arr i) = none ∧ E .notAllocated)
    (hnone : s.first key = none → Q "No such key".toList s) : wp (Read wide tokens) s E Q := by
  rw [Read, wp_bind]
  refine wp_intToken hk hkey ?_
  rw [wp_bind, wp_get, wp_bind]
  refine wp_scan_first hidx ?_
  cases hfirst : s.first key with
  | none => exact hnone hfirst
  | some i =>
    simp only [wp_bind, wp_get]
    rw [wp_onHeap]
    rcases hsome i hfirst with ⟨n, v, hblock, hQ⟩ | ⟨hfreed, hE⟩
    · exact wp_load hblock hQ
    · exact wp_load_freed hfreed hE

theorem wp_update (ht : tokens[2]? = some t) (hlen : atoi wide t = len) (hv : tokens[3]? = some v)
    {Q : Str → Server → Prop}
    (hsome : ∀ i, s.first key = some i → s.heap.block (s.value_arr i) ≠ none → v.length < room 4 →
      Q "Updated".toList (s.updated i len v))
    (hover : ∀ i, s.first key = some i → s.heap.block (s.value_arr i) ≠ none → ¬ v.length < room 4 →
      E .bufferOverflow)
    (hfreed : ∀ i, s.first key = some i → s.heap.block (s.value_arr i) = none →
      s.value_arr i ≠ NULL ∧ E .notAllocated)
    (hnone : s.first key = none → Q "No such key".toList s) :
    wp (update wide tokens room) s E Q := by
  rw [update, wp_bind]
  refine wp_intToken hk hkey ?_
  rw [wp_bind, wp_get, wp_bind]
  refine wp_scan_first hidx ?_
  cases hfirst : s.first key with
  | none => exact hnone hfirst
  | some i =>
    simp only [wp_bind, wp_get, wp_modify]
    rw [wp_onHeap]
    by_cases hblock : s.heap.block (s.value_arr i) = none
    · obtain ⟨hnull, hE⟩ := hfreed i hfirst hblock
      exact wp_free_freed hnull hblock hE
    · refine wp_free hblock (wp_intToken ht hlen ?_)
      rw [wp_onHeap, wp_malloc]
      refine wp_token hv ?_
      rw [wp_onHeap]
      by_cases hroom : v.length < room 4
      · exact wp_strcpy (Heap.alloc_block_next _ _) hroom (hsome i hfirst hblock hroom)
      · exact wp_strcpy_overflow (Heap.alloc_block_next _ _) hroom (hover i hfirst hblock hroom)

theorem wp_delete {Q : Str → Server → Prop}
    (hsome : ∀ i, s.first key = some i → s.heap.block (s.value_arr i) ≠ none →
      Q "Deleted key".toList (s.deleted i))
    (hfreed : ∀ i, s.first key = some i → s.heap.block (s.value_arr i) = none →
      s.value_arr i ≠ NULL ∧ E .notAllocated)
    (hnone : s.first key = none → Q "No such key".toList s) : wp (delete wide tokens) s E Q := by
  rw [delete, wp_bind]
  refine wp_intToken hk hkey ?_
  rw [wp_bind, wp_get, wp_bind]
  refine wp_scan_first hidx ?_
  cases hfirst : s.first key with
  | none => exact hnone hfirst
  | some i =>
    simp only [wp_bind, wp_get, wp_modify]
    rw [wp_onHeap]
    by_cases hblock : s.heap.block (s.value_arr i) = none
    · obtain ⟨hnull, hE⟩ := hfreed i hfirst hblock
      exact wp_free_freed hnull hblock hE
    · exact wp_free hblock (hsome i hfirst hblock)

end

end KeyValue
