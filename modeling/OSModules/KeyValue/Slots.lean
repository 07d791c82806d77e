/-
  The slots as the history has them: which keys they hold after any messages, and which of them are
  deleted.
-/
import OSModules.KeyValue.Requests
import Mathlib.Data.Set.Card

namespace KeyValue

open CString CHeap Prog Runs

/-! ## The slots of a history -/

/-- The requests of a run and their answers. -/
def requests (wide : Str → Int32) (tr : List (List Char × Str)) : List Event :=
  tr.filterMap fun x => (requestOf wide x.1).map (·, x.2)

/-- The slot of the key is deleted. -/
def clear (key : ℤ) (l : List (Option ℤ)) : List (Option ℤ) :=
  l.map fun x => if x = some key then none else x

/-- What an event does to the keys of the slots; a deleted slot has none. -/
def slotsAfter (l : List (Option ℤ)) : Event → List (Option ℤ)
  | (.create key _ _, answer) => if answer = "Key Value pair Added".toList then l ++ [some key] else l
  | (.delete key, answer) => if answer = "Deleted key".toList then clear key l else l
  | _ => l

/-- The keys of the slots, in the order of the `create`s. -/
def slots (h : List Event) : List (Option ℤ) := h.foldl slotsAfter []

/-- A `delete` that succeeded. -/
def Deleted : Event → Prop
  | (.delete _, answer) => answer = "Deleted key".toList
  | _ => False

instance : DecidablePred Deleted
  | (.delete _, _) => inferInstanceAs (Decidable (_ = _))
  | (.read _, _) | (.create _ _ _, _) | (.update _ _ _, _) | (.disconnect, _) => isFalse id

/-- How many `delete`s succeeded. -/
def deleted (h : List Event) : ℕ := h.countP (Deleted ·)

/-- A `create` of the key succeeded. -/
def EverCreated (h : List Event) (key : ℤ) : Prop :=
  ∃ n v, ((.create key n v, "Key Value pair Added".toList) : Event) ∈ h

/-- No key is in two slots. -/
def Distinct (l : List (Option ℤ)) : Prop := l.Pairwise fun x y => x = y → x = none

variable {h : List Event} {l : List (Option ℤ)} {key len : ℤ} {e : Event}

theorem slots_snoc (h : List Event) (e : Event) : slots (h ++ [e]) = slotsAfter (slots h) e := by
  rw [slots, List.foldl_append]
  rfl

theorem slotsAfter_create {n : ℤ} {v : Str} :
    slotsAfter l (.create key n v, "Key Value pair Added".toList) = l ++ [some key] := by
  rw [slotsAfter, if_pos rfl]

theorem slotsAfter_create_of_ne {n : ℤ} {v a : Str} (ha : a ≠ "Key Value pair Added".toList) :
    slotsAfter l (.create key n v, a) = l := if_neg ha

theorem slotsAfter_delete : slotsAfter l (.delete key, "Deleted key".toList) = clear key l := by
  rw [slotsAfter, if_pos rfl]

theorem slotsAfter_delete_of_ne {a : Str} (ha : a ≠ "Deleted key".toList) :
    slotsAfter l (.delete key, a) = l := if_neg ha

theorem deleted_snoc (h : List Event) (e : Event) :
    deleted (h ++ [e]) = deleted h + if Deleted e then 1 else 0 := by
  simp only [deleted, List.countP_append, List.countP_singleton, decide_eq_true_eq]

theorem length_slots (h : List Event) : (slots h).length = created h := by
  induction h using List.reverseRecOn with
  | nil => rfl
  | append_singleton h e ih =>
    obtain ⟨c, a⟩ := e
    rw [slots_snoc, created_snoc]
    cases c with
    | create key n v =>
      rw [slotsAfter]
      by_cases ha : a = "Key Value pair Added".toList
      · rw [if_pos ha, if_pos (created_create.2 ha), List.length_append, ih]
        rfl
      · rw [if_neg ha, if_neg (fun hc => ha (created_create.1 hc)), ih]
        rfl
    | read key => exact ih
    | update key n v => exact ih
    | delete key =>
      rw [slotsAfter, if_neg not_created_delete]
      split
      · rw [clear, List.length_map, ih]
        rfl
      · exact ih
    | disconnect => exact ih

theorem EverCreated.snoc (hc : EverCreated h key) (e : Event) : EverCreated (h ++ [e]) key := by
  obtain ⟨n, v, hmem⟩ := hc
  exact ⟨n, v, List.mem_append_left _ hmem⟩

theorem mem_clear {k : ℤ} : some k ∈ clear key l ↔ some k ∈ l ∧ k ≠ key := by
  rw [clear, List.mem_map]
  constructor
  · rintro ⟨x, hx, hxk⟩
    split_ifs at hxk with hkey
    subst hxk
    exact ⟨hx, fun he => hkey (congrArg some he)⟩
  · rintro ⟨hk, hne⟩
    exact ⟨some k, hk, if_neg fun he => hne (Option.some.inj he)⟩

/-- A key in a slot was created. -/
theorem everCreated_of_mem (hk : some key ∈ slots h) : EverCreated h key := by
  induction h using List.reverseRecOn with
  | nil => exact absurd hk List.not_mem_nil
  | append_singleton h e ih =>
    obtain ⟨c, a⟩ := e
    rw [slots_snoc] at hk
    cases c with
    | create k n v =>
      rw [slotsAfter] at hk
      split at hk
      · next ha =>
        rcases List.mem_append.1 hk with hk | hk
        · exact (ih hk).snoc _
        · cases List.mem_singleton.1 hk
          exact ⟨n, v, List.mem_append_right _ (by simp [ha])⟩
      · exact (ih hk).snoc _
    | read k => exact (ih hk).snoc _
    | update k n v => exact (ih hk).snoc _
    | delete k =>
      rw [slotsAfter] at hk
      split at hk
      · exact (ih (mem_clear.1 hk).1).snoc _
      · exact (ih hk).snoc _
    | disconnect => exact (ih hk).snoc _

/-! ## Counting the slots -/

theorem Distinct.append (hl : Distinct l) (hk : some key ∉ l) : Distinct (l ++ [some key]) := by
  refine List.pairwise_append.2 ⟨hl, List.pairwise_singleton _ _, fun x hx y hy he => ?_⟩
  rw [he, List.mem_singleton.1 hy] at hx
  exact absurd hx hk

theorem Distinct.clear (hl : Distinct l) (key : ℤ) : Distinct (clear key l) := by
  refine List.Pairwise.map _ (fun x y hxy he => ?_) hl
  by_cases hx : x = some key
  · exact if_pos hx
  · rw [if_neg hx] at he ⊢
    split_ifs at he
    · exact he
    · exact hxy he

/-- The slot of a key is the only one. -/
theorem Distinct.index (hl : Distinct l) {i j : ℕ} (hi : l[i]? = some (some key))
    (hj : l[j]? = some (some key)) : i = j := by
  obtain ⟨hilt, hi⟩ := List.getElem?_eq_some_iff.1 hi
  obtain ⟨hjlt, hj⟩ := List.getElem?_eq_some_iff.1 hj
  rcases lt_trichotomy i j with hlt | heq | hlt
  · have hnone := List.pairwise_iff_getElem.1 hl i j hilt hjlt hlt (hi.trans hj.symm)
    rw [hi] at hnone
    cases hnone
  · exact heq
  · have hnone := List.pairwise_iff_getElem.1 hl j i hjlt hilt hlt (hj.trans hi.symm)
    rw [hj] at hnone
    cases hnone

/-- Every slot holds a key of its own or is deleted. -/
theorem Distinct.ncard_add_count (hl : Distinct l) :
    {k | some k ∈ l}.Finite ∧ {k | some k ∈ l}.ncard + l.count none = l.length := by
  induction l with
  | nil => simp
  | cons x l ih =>
    obtain ⟨hx, hl⟩ := List.pairwise_cons.1 hl
    obtain ⟨hfin, hcard⟩ := ih hl
    cases x with
    | none =>
      simp only [List.mem_cons, reduceCtorEq, false_or, List.count_cons_self, List.length_cons]
      exact ⟨hfin, by omega⟩
    | some key =>
      have hno : key ∉ {k | some k ∈ l} := fun hk => absurd (hx _ hk rfl) (by simp)
      have hset : {k | some k ∈ some key :: l} = insert key {k | some k ∈ l} := by
        ext k
        simp
      rw [hset, Set.ncard_insert_of_notMem hno hfin, List.count_cons_of_ne (by simp),
        List.length_cons]
      exact ⟨hfin.insert key, by omega⟩

theorem Distinct.count_clear (hl : Distinct l) (hk : some key ∈ l) :
    (KeyValue.clear key l).count none = l.count none + 1 := by
  have hset : {k | some k ∈ KeyValue.clear key l} = {k | some k ∈ l} \ {key} := by
    ext k
    exact mem_clear
  obtain ⟨hfin, hcard⟩ := hl.ncard_add_count
  obtain ⟨-, hcard'⟩ := (hl.clear key).ncard_add_count
  have hsucc := Set.ncard_sdiff_singleton_add_one (s := {k | some k ∈ l}) hk hfin
  rw [hset, KeyValue.clear, List.length_map] at hcard'
  rw [KeyValue.clear]
  omega

/-! ## The slots of the server -/

/-- The slots hold the keys `l`, each with a text in its buffer; the buffers of deleted slots are
freed. -/
structure Slots (room : ℕ → ℕ) (l : List (Option ℤ)) (s : Server) : Prop where
  length : l.length = s.idx
  idx_le : s.idx ≤ MAX_KEYS
  distinct : Distinct l
  held : ∀ (i : Fin MAX_KEYS) key, l[(i : ℕ)]? = some (some key) → s.key_arr i = key ∧
    ∃ n v, s.heap.block (s.value_arr i) = some ⟨n, some v⟩ ∧ v.length < room n
  freed : ∀ i : Fin MAX_KEYS, l[(i : ℕ)]? = some none → s.key_arr i = -1 ∧ ¬ s.Allocated i
  ne_null : ∀ i : Fin MAX_KEYS, i < s.idx → s.value_arr i ≠ NULL
  lt_next : ∀ i : Fin MAX_KEYS, i < s.idx → s.value_arr i < s.heap.next
  apart : ∀ i j : Fin MAX_KEYS, i < s.idx → j < s.idx → s.value_arr i = s.value_arr j → i = j

namespace Slots
variable {room : ℕ → ℕ} {s : Server} {v : Str} {i j : Fin MAX_KEYS} (hs : Slots room l s)
include hs

theorem cases (hi : i < s.idx) : (∃ key, l[(i : ℕ)]? = some (some key)) ∨ l[(i : ℕ)]? = some none := by
  have hlt : (i : ℕ) < l.length := hs.length ▸ hi
  rw [List.getElem?_eq_getElem hlt]
  cases l[(i : ℕ)] with
  | none => exact Or.inr rfl
  | some key => exact Or.inl ⟨key, rfl⟩

theorem lt_idx {x : Option ℤ} (hx : l[(i : ℕ)]? = some x) : i < s.idx := by
  rw [← hs.length]
  exact (List.getElem?_eq_some_iff.1 hx).1

theorem allocated (hx : l[(i : ℕ)]? = some (some key)) : s.Allocated i := by
  obtain ⟨-, n, v, hblock, -⟩ := hs.held i key hx
  rw [Server.Allocated, hblock]
  exact Option.some_ne_none _

theorem sound : s.Sound where
  idx_le := hs.idx_le
  ne_null := hs.ne_null
  text i hi halloc := by
    rcases hs.cases hi with ⟨key, hx⟩ | hx
    · obtain ⟨-, n, v, hblock, -⟩ := hs.held i key hx
      exact ⟨v, n, hblock⟩
    · exact absurd halloc (hs.freed i hx).2

/-- The first slot of a key holds it, or the key is -1 and the slot is deleted. -/
theorem first (hi : s.first key = some i) :
    l[(i : ℕ)]? = some (some key) ∨ key = -1 ∧ l[(i : ℕ)]? = some none := by
  obtain ⟨hlt, hkey⟩ := (first_eq_some.1 hi).1
  rcases hs.cases hlt with ⟨key', hx⟩ | hx
  · left
    rw [hx, ← (hs.held i key' hx).1, hkey]
  · exact Or.inr ⟨hkey.symm.trans (hs.freed i hx).1, hx⟩

theorem first_allocated (hi : s.first key = some i) (halloc : s.Allocated i) :
    l[(i : ℕ)]? = some (some key) := by
  rcases hs.first hi with hx | ⟨-, hx⟩
  · exact hx
  · exact absurd halloc (hs.freed i hx).2

theorem exists_index {x : Option ℤ} (hx : x ∈ l) : ∃ i : Fin MAX_KEYS, l[(i : ℕ)]? = some x := by
  obtain ⟨n, hn⟩ := List.mem_iff_getElem?.1 hx
  have hlt : n < l.length := (List.getElem?_eq_some_iff.1 hn).1
  have hmax := hs.idx_le
  rw [← hs.length] at hmax
  exact ⟨⟨n, hlt.trans_le hmax⟩, hn⟩

theorem not_mem (hno : s.first key = none) : some key ∉ l := by
  intro hk
  obtain ⟨i, hi⟩ := hs.exists_index hk
  exact first_eq_none.1 hno i ⟨hs.lt_idx hi, (hs.held i key hi).1⟩

theorem none_not_mem (hno : s.first (-1) = none) : none ∉ l := by
  intro hk
  obtain ⟨i, hi⟩ := hs.exists_index hk
  exact first_eq_none.1 hno i ⟨hs.lt_idx hi, (hs.freed i hi).1⟩

theorem received (msg : List Char) : Slots room l (s.received msg) :=
  ⟨hs.length, hs.idx_le, hs.distinct, hs.held, hs.freed, hs.ne_null, hs.lt_next, hs.apart⟩

theorem added (hlt : s.idx < MAX_KEYS) (hno : s.first key = none)
    (hroom : v.length < room (len % 2 ^ 64).toNat) :
    Slots room (l ++ [some key]) (s.added ⟨s.idx, hlt⟩ key len v) := by
  have hold : ∀ j : Fin MAX_KEYS, j < s.idx → j ≠ ⟨s.idx, hlt⟩ := by
    rintro j hj rfl
    exact absurd hj (lt_irrefl _)
  have hne : ∀ j : Fin MAX_KEYS, j < s.idx → s.value_arr j ≠ s.heap.next := fun j hj =>
    (hs.lt_next j hj).ne
  have hsplit : ∀ (j : Fin MAX_KEYS) x, (l ++ [some key])[(j : ℕ)]? = some x →
      j < s.idx ∧ l[(j : ℕ)]? = some x ∨ j = ⟨s.idx, hlt⟩ ∧ x = some key := by
    intro j x hx
    rcases Nat.lt_or_ge j l.length with hj | hj
    · rw [List.getElem?_append_left hj] at hx
      exact Or.inl ⟨hs.lt_idx hx, hx⟩
    · have hjlt := (List.getElem?_eq_some_iff.1 hx).1
      rw [List.length_append, List.length_singleton] at hjlt
      have hj' : (j : ℕ) = l.length := by omega
      rw [hj', List.getElem?_concat_length] at hx
      exact Or.inr ⟨Fin.ext (hj'.trans hs.length), (Option.some.inj hx).symm⟩
  have hslot : ∀ j : Fin MAX_KEYS, (j : ℕ) < s.idx + 1 → j < s.idx ∨ j = ⟨s.idx, hlt⟩ := by
    intro j hj
    rcases Nat.lt_succ_iff_lt_or_eq.1 hj with hj | hj
    · exact Or.inl hj
    · exact Or.inr (Fin.ext hj)
  refine ⟨?_, hlt, hs.distinct.append (hs.not_mem hno), ?_, ?_, ?_, ?_, ?_⟩
  · rw [List.length_append, hs.length]
    rfl
  · intro j k hx
    simp only [Server.added, Heap.put_block]
    rcases hsplit j _ hx with ⟨hj, hx⟩ | ⟨rfl, hk⟩
    · rw [Function.update_of_ne (hold j hj), Function.update_of_ne (hold j hj),
        Function.update_of_ne (hne j hj)]
      exact hs.held j k hx
    · cases hk
      simp only [Function.update_self]
      exact ⟨trivial, _, v, rfl, hroom⟩
  · intro j hx
    simp only [Server.Allocated, Server.added, Heap.put_block]
    rcases hsplit j _ hx with ⟨hj, hx⟩ | ⟨rfl, hk⟩
    · rw [Function.update_of_ne (hold j hj), Function.update_of_ne (hold j hj),
        Function.update_of_ne (hne j hj)]
      exact hs.freed j hx
    · cases hk
  · intro j hj
    simp only [Server.added]
    rcases hslot j hj with hj | rfl
    · rw [Function.update_of_ne (hold j hj)]
      exact hs.ne_null j hj
    · rw [Function.update_self]
      exact s.heap.pos.ne'
  · intro j hj
    show _ < s.heap.next + 1
    simp only [Server.added]
    rcases hslot j hj with hj | rfl
    · rw [Function.update_of_ne (hold j hj)]
      exact Nat.lt_succ_of_lt (hs.lt_next j hj)
    · rw [Function.update_self]
      exact Nat.lt_succ_self _
  · intro j k hj hk he
    simp only [Server.added] at he
    rcases hslot j hj with hj | rfl <;> rcases hslot k hk with hk | rfl
    · rw [Function.update_of_ne (hold j hj), Function.update_of_ne (hold k hk)] at he
      exact hs.apart j k hj hk he
    · rw [Function.update_of_ne (hold j hj), Function.update_self] at he
      exact absurd he (hne j hj)
    · rw [Function.update_of_ne (hold k hk), Function.update_self] at he
      exact absurd he.symm (hne k hk)
    · rfl

theorem updated (hi : l[(i : ℕ)]? = some (some key)) (hroom : v.length < room 4) :
    Slots room l (s.updated i len v) := by
  have hilt := hs.lt_idx hi
  have hne : ∀ j : Fin MAX_KEYS, j < s.idx → s.value_arr j ≠ s.heap.next := fun j hj =>
    (hs.lt_next j hj).ne
  -- the other slots keep their buffers
  have hblock : ∀ j : Fin MAX_KEYS, j < s.idx → j ≠ i →
      (s.updated i len v).heap.block ((s.updated i len v).value_arr j) =
        s.heap.block (s.value_arr j) := by
    intro j hj hji
    simp only [Server.updated, Heap.put_block, Heap.release_next, Heap.release_block]
    rw [Function.update_of_ne hji, Function.update_of_ne (hne j hj), Function.update_of_ne]
    exact fun he => hji (hs.apart j i hj hilt he)
  refine ⟨hs.length, hs.idx_le, hs.distinct, ?_, ?_, ?_, ?_, ?_⟩
  · intro j k hx
    by_cases hji : j = i
    · subst hji
      refine ⟨(hs.held j k hx).1, 4, v, ?_, hroom⟩
      simp only [Server.updated, Heap.put_block, Heap.release_next, Function.update_self]
    · rw [hblock j (hs.lt_idx hx) hji]
      exact hs.held j k hx
  · intro j hx
    have hji : j ≠ i := by
      rintro rfl
      rw [hi] at hx
      cases hx
    rw [Server.Allocated, hblock j (hs.lt_idx hx) hji]
    exact hs.freed j hx
  · intro j hj
    simp only [Server.updated]
    by_cases hji : j = i
    · subst hji
      rw [Function.update_self]
      exact s.heap.pos.ne'
    · rw [Function.update_of_ne hji]
      exact hs.ne_null j hj
  · intro j hj
    show _ < s.heap.next + 1
    simp only [Server.updated]
    by_cases hji : j = i
    · subst hji
      rw [Function.update_self]
      exact Nat.lt_succ_self _
    · rw [Function.update_of_ne hji]
      exact Nat.lt_succ_of_lt (hs.lt_next j hj)
  · exact unique_update hs.apart (fun j hj _ => hj) fun j hj _ => hne j hj

theorem deleted (hi : l[(i : ℕ)]? = some (some key)) :
    Slots room (clear key l) (s.deleted i) := by
  have hilt := hs.lt_idx hi
  have hclear : ∀ j : Fin MAX_KEYS, (clear key l)[(j : ℕ)]? =
      if j = i then some none else l[(j : ℕ)]? := by
    intro j
    rw [clear, List.getElem?_map]
    by_cases hji : j = i
    · subst hji
      rw [if_pos rfl, hi, Option.map_some, if_pos rfl]
    · rw [if_neg hji]
      cases hx : l[(j : ℕ)]? with
      | none => rfl
      | some x =>
        have hxk : x ≠ some key := by
          rintro rfl
          exact hji (Fin.ext (hs.distinct.index hx hi))
        rw [Option.map_some, if_neg hxk]
  have hblock : ∀ j : Fin MAX_KEYS, j < s.idx → j ≠ i →
      (s.deleted i).heap.block (s.value_arr j) = s.heap.block (s.value_arr j) := by
    intro j hj hji
    simp only [Server.deleted, Heap.release_block]
    rw [Function.update_of_ne]
    exact fun he => hji (hs.apart j i hj hilt he)
  refine ⟨?_, hs.idx_le, hs.distinct.clear key, ?_, ?_, hs.ne_null, hs.lt_next, hs.apart⟩
  · rw [clear, List.length_map]
    exact hs.length
  · intro j k hx
    rw [hclear] at hx
    split_ifs at hx with hji
    · cases hx
    · show (s.deleted i).key_arr j = k ∧ ∃ n v,
        (s.deleted i).heap.block (s.value_arr j) = some ⟨n, some v⟩ ∧ v.length < room n
      rw [hblock j (hs.lt_idx hx) hji]
      simp only [Server.deleted, Function.update_of_ne hji]
      exact hs.held j k hx
  · intro j hx
    rw [hclear] at hx
    by_cases hji : j = i
    · subst hji
      simp [Server.Allocated, Server.deleted, Heap.release_block]
    · rw [if_neg hji] at hx
      show (s.deleted i).key_arr j = -1 ∧ ¬ (s.deleted i).heap.block (s.value_arr j) ≠ none
      rw [hblock j (hs.lt_idx hx) hji]
      simp only [Server.deleted, Function.update_of_ne hji]
      exact hs.freed j hx

end Slots

/-! ## Runs -/

/-- The server is in a state that the history leads to. -/
structure Follows (room : ℕ → ℕ) (h : List Event) (s : Server) : Prop where
  slots : Slots room (slots h) s
  clean : s.Clean
  deleted : (KeyValue.slots h).count none = deleted h
  present : ∀ k, latest h k ≠ none ↔ some k ∈ KeyValue.slots h

variable {wide : Str → Int32} {room : ℕ → ℕ} {s s' : Server} {c : Command} {a : Str}
  {msg : List Char}

theorem Follows.init : Follows room [] .init := by
  refine ⟨⟨rfl, Nat.zero_le _, .nil, ?_, ?_, ?_, ?_, ?_⟩, ?_, rfl, ?_⟩
  · exact fun i k hx => by simp [KeyValue.slots] at hx
  · exact fun i hx => by simp [KeyValue.slots] at hx
  · exact fun i hi => absurd hi (Nat.not_lt_zero _)
  · exact fun i hi => absurd hi (Nat.not_lt_zero _)
  · exact fun i j hi => absurd hi (Nat.not_lt_zero _)
  · intro c hc
    exact List.eq_of_mem_replicate (List.mem_of_mem_drop hc)
  · exact fun k => by simp [KeyValue.slots, latest]

namespace Follows
variable (hf : Follows room h s)
include hf

theorem received (hlen : msg.length ≤ TOKEN_SIZE) : Follows room h (s.received msg) := by
  refine ⟨hf.slots.received msg, ?_, hf.deleted, hf.present⟩
  rw [Server.Clean, Server.received, drop_receive hlen]
  exact hf.clean

/-- An event that changes nothing. -/
theorem same (hl : slotsAfter (KeyValue.slots h) e = KeyValue.slots h)
    (hm : after (latest h) e = latest h) (hd : ¬ Deleted e) : Follows room (h ++ [e]) s := by
  refine ⟨?_, hf.clean, ?_, fun k => ?_⟩
  · rw [slots_snoc, hl]
    exact hf.slots
  · rw [slots_snoc, hl, deleted_snoc, if_neg hd, hf.deleted]
    rfl
  · rw [slots_snoc, hl, latest_snoc, hm]
    exact hf.present k

theorem step (ha : Answers room s c a s') : Follows room (h ++ [(c, a)]) s' := by
  cases ha with
  | full hmax =>
    have hne : "storage full".toList ≠ "Key Value pair Added".toList := by simp
    exact hf.same (slotsAfter_create_of_ne hne) (after_create_of_ne _ hne) id
  | found hlt hfirst =>
    have hne : "already key exists".toList ≠ "Key Value pair Added".toList := by simp
    exact hf.same (slotsAfter_create_of_ne hne) (after_create_of_ne _ hne) id
  | @added key n v hlt hfirst hroom =>
    refine ⟨?_, hf.clean, ?_, fun k => ?_⟩
    · rw [slots_snoc, slotsAfter_create]
      exact hf.slots.added hlt hfirst hroom
    · rw [slots_snoc, slotsAfter_create, deleted_snoc, List.count_append, hf.deleted]
      rfl
    · rw [slots_snoc, slotsAfter_create, latest_snoc, after_create, Function.update_apply,
        List.mem_append, List.mem_singleton, Option.some.injEq, ← hf.present]
      split_ifs with hk <;> simp [hk]
  | value hfirst hblock => exact hf.same rfl (after_read _) id
  | noValue hfirst => exact hf.same rfl (after_read _) id
  | @updated key n v i hfirst halloc hroom =>
    have hx := hf.slots.first_allocated hfirst halloc
    refine ⟨?_, hf.clean, ?_, fun k => ?_⟩
    · rw [slots_snoc]
      exact hf.slots.updated hx hroom
    · rw [slots_snoc, deleted_snoc]
      exact hf.deleted
    · rw [slots_snoc, latest_snoc, after_update, Function.update_apply]
      split_ifs with hk
      · subst hk
        exact iff_of_true (Option.some_ne_none v) (List.mem_of_getElem? hx)
      · exact hf.present k
  | notUpdated hfirst => exact hf.same rfl (after_update_of_ne _ (by simp)) id
  | @deleted key i hfirst halloc =>
    have hx := hf.slots.first_allocated hfirst halloc
    refine ⟨?_, hf.clean, ?_, fun k => ?_⟩
    · rw [slots_snoc, slotsAfter_delete]
      exact hf.slots.deleted hx
    · rw [slots_snoc, slotsAfter_delete, deleted_snoc, ← hf.deleted,
        hf.slots.distinct.count_clear (List.mem_of_getElem? hx)]
      rfl
    · rw [slots_snoc, slotsAfter_delete, latest_snoc, after_delete, Function.update_apply,
        mem_clear, ← hf.present]
      split_ifs with hk <;> simp [hk]
  | notDeleted hfirst =>
    have hne : "No such key".toList ≠ "Deleted key".toList := by simp
    exact hf.same (slotsAfter_delete_of_ne hne) (after_delete_of_ne _ hne) hne
  | disconnected => exact hf.same rfl (after_disconnect _) id

/-- A request is answered, or it fails. -/
theorem wp_request (hc : requestOf wide msg = some c) :
    wp (serve wide room msg) s (Fails room (s.received msg) c)
      (Answers room (s.received msg) c) := by
  rw [wp_serve hf.clean]
  exact (hf.slots.received msg).sound.wp_request hc

/-- A message that is no request changes nothing, or one of its words is missing. -/
theorem wp_other (hc : requestOf wide msg = none) :
    wp (serve wide room msg) s (fun _ => ¬ Complete wide (s.received msg) (tokenize msg))
      fun _ s' => s' = s.received msg ∧ Complete wide (s.received msg) (tokenize msg) := by
  rw [wp_serve hf.clean]
  exact (hf.slots.received msg).sound.wp_other hc

end Follows

theorem requests_snoc {tr : List (List Char × Str)} (msg : List Char) (a : Str) :
    requests wide (tr ++ [(msg, a)]) =
      requests wide tr ++ ((requestOf wide msg).map (·, a)).toList := by
  rw [requests, List.filterMap_append]
  cases hc : requestOf wide msg <;> simp [requests, hc]

/-- After any messages the slots are those of the history. -/
theorem follows_of_run {tr : List (List Char × Str)} (h : (server wide room).Run tr s) :
    Follows room (requests wide tr) s := by
  refine h.invariant (I := fun tr s => Follows room (requests wide tr) s) ?_ ?_
  · rintro s rfl
    exact .init
  · rintro tr s ⟨msg, a⟩ s' hf ⟨hlen, hret⟩
    have hf' : Follows room (requests wide tr) (s.received msg) := hf.received hlen
    rw [requests_snoc]
    cases hc : requestOf wide msg with
    | none =>
      obtain ⟨rfl, -⟩ := (hf.wp_other hc).returns hret
      simpa using hf'
    | some c => exact hf'.step ((hf.wp_request hc).returns hret)

/-- Messages that are answered one after the other. -/
theorem run_of_mapM {tr tr' : List (List Char × Str)} (h : (server wide room).Run tr s)
    (hlen : ∀ x ∈ tr', x.1.length ≤ TOKEN_SIZE)
    (hret : Returns ((tr'.map Prod.fst).mapM (serve wide room)) s (tr'.map Prod.snd) s') :
    (server wide room).Run (tr ++ tr') s' := by
  induction tr' generalizing tr s with
  | nil =>
    obtain ⟨-, rfl⟩ := hret.det (show Returns _ s [] s from rfl)
    rwa [List.append_nil]
  | cons x tr' ih =>
    rw [List.map_cons, List.map_cons, List.mapM_cons] at hret
    obtain ⟨a, s₁, hmsg, hret⟩ := hret.bind_inv
    obtain ⟨as, s₂, hmsgs, hret⟩ := hret.bind_inv
    obtain ⟨has, rfl⟩ := hret.det (show Returns _ s₂ (a :: as) s₂ from rfl)
    obtain ⟨rfl, rfl⟩ := List.cons.inj has
    have hstep : (server wide room).step s x s₁ := ⟨hlen x List.mem_cons_self, hmsg⟩
    have hrun := ih (h.step hstep) (fun y hy => hlen y (List.mem_cons_of_mem _ hy)) hmsgs
    rwa [List.append_assoc] at hrun

/-! ## Room for another key -/

theorem Follows.idx_eq (hf : Follows room h s) : s.idx = created h := by
  rw [← length_slots, hf.slots.length]

/-- The keys that are present and those that were deleted are the keys that were created. -/
theorem Follows.ncard_present (hf : Follows room h s) :
    {k | latest h k ≠ none}.ncard + KeyValue.deleted h = created h := by
  obtain ⟨-, hcard⟩ := hf.slots.distinct.ncard_add_count
  rw [length_slots, hf.deleted] at hcard
  simpa only [hf.present] using hcard

/-- A key that is found is present, other than -1. -/
theorem Follows.present_of_first (hf : Follows room h s) {i : Fin MAX_KEYS}
    (hi : s.first key = some i) (hne : key ≠ -1) : latest h key ≠ none := by
  rcases hf.slots.first hi with hx | ⟨hkey, -⟩
  · exact (hf.present key).2 (List.mem_of_getElem? hx)
  · exact absurd hkey hne

/-- A `create` is answered as the slots say. -/
theorem Follows.create_answer (hf : Follows room h s) {key n : ℤ} {v : Str}
    (hc : requestOf wide msg = some (.create key n v))
    (hret : Returns (serve wide room msg) s a s') :
    a = "storage full".toList ↔ created h = MAX_KEYS := by
  rw [← hf.idx_eq]
  cases (hf.wp_request hc).returns hret with
  | full hmax => exact iff_of_true rfl hmax
  | found hlt hfirst => exact iff_of_false (by simp) hlt.ne
  | added hlt hfirst hroom => exact iff_of_false (by simp) hlt.ne

/-- In every run: all keys are present when the storage is full, and a `delete` makes room for a key
that is not present, exactly as long as not all slots are in use or nothing was deleted. -/
theorem capacity_iff {tr : List (List Char × Str)} (h : (server wide room).Run tr s) :
    ((∀ msg key n v s', requestOf wide msg = some (.create key n v) →
        (server wide room).step s (msg, "storage full".toList) s' →
        {k | latest (requests wide tr) k ≠ none}.ncard = MAX_KEYS) ∧
      ((∃ pre key, requests wide tr = pre ++ [(.delete key, "Deleted key".toList)]) →
        ∀ msg key n v, msg.length ≤ TOKEN_SIZE → requestOf wide msg = some (.create key n v) →
          v.length < room (n % 2 ^ 64).toNat → key ≠ -1 → latest (requests wide tr) key = none →
          ∃ s', (server wide room).step s (msg, "Key Value pair Added".toList) s')) ↔
    created (requests wide tr) < MAX_KEYS ∨ deleted (requests wide tr) = 0 := by
  have hf := follows_of_run h
  have hcard := hf.ncard_present
  have hidx := hf.idx_eq
  have hmax := hf.slots.idx_le
  constructor
  · rintro ⟨hfull, -⟩
    by_contra hno
    rw [not_or, not_lt] at hno
    have hc : requestOf wide "create 1 1 a".toList = some (.create 1 1 "a".toList) := rfl
    have hall : s.idx = MAX_KEYS := by omega
    have hanswer : wp (serve wide room "create 1 1 a".toList) s (fun _ => False) fun a _ =>
        a = "storage full".toList := by
      refine (hf.wp_request hc).mono ?_ ?_
      · rintro e (⟨hlt, -, -⟩)
        exact absurd hall hlt.ne
      · rintro a s' hans
        cases hans with
        | full => rfl
        | found hlt => exact absurd hall hlt.ne
        | added hlt => exact absurd hall hlt.ne
    obtain ⟨a, s', hret, rfl⟩ := hanswer.total
    have hpresent := hfull _ 1 1 _ s' hc ⟨by simp [TOKEN_SIZE], hret⟩
    omega
  · intro hroom
    refine ⟨fun msg key n v s' hc hstep => ?_, ?_⟩
    · have hall := (hf.create_answer hc hstep.2).1 rfl
      omega
    · rintro ⟨pre, k, hlast⟩ msg key n v hlen hc hfit hne habsent
      have hpos : 0 < deleted (requests wide tr) := by
        rw [hlast, deleted_snoc, if_pos (show Deleted (.delete k, _) from rfl)]
        exact Nat.succ_pos _
      have hanswer : wp (serve wide room msg) s (fun _ => False) fun a _ =>
          a = "Key Value pair Added".toList := by
        refine (hf.wp_request hc).mono ?_ ?_
        · rintro e (⟨-, -, hover⟩)
          exact hover hfit
        · rintro a s' hans
          cases hans with
          | full hall =>
            have hall : s.idx = MAX_KEYS := hall
            omega
          | found hlt hfirst => exact absurd habsent (hf.present_of_first hfirst hne)
          | added => rfl
      obtain ⟨a, s', hret, rfl⟩ := hanswer.total
      exact ⟨s', hlen, hret⟩

/-- A key that is created and deleted `n` times, with the answers. -/
def churn (n : ℕ) : List (List Char × Str) :=
  (List.replicate n [("create 5 2 a".toList, "Key Value pair Added".toList),
    ("delete 5".toList, "Deleted key".toList)]).flatten

/-- After a key was deleted, another one is added. -/
theorem capacity_second : ∃ s s', (server 0 id).Run (churn 1) s ∧
    (server 0 id).step s ("create 7 2 b".toList, "Key Value pair Added".toList) s' := by
  have h : ∃ s, Returns (((churn 1).map Prod.fst).mapM (serve 0 id)) .init
      ((churn 1).map Prod.snd) s ∧ s.idx = 1 := by decide +kernel
  obtain ⟨s, hret, -⟩ := h
  have hrun := run_of_mapM (.init rfl) (by decide) hret
  have hc : requestOf 0 "create 7 2 b".toList = some (.create 7 2 "b".toList) := rfl
  have hlast : requests 0 (churn 1) = [(.create 5 2 "a".toList, "Key Value pair Added".toList)] ++
      [(.delete 5, "Deleted key".toList)] := rfl
  obtain ⟨-, hroom⟩ := (capacity_iff hrun).2 (Or.inl (by decide))
  obtain ⟨s', hstep⟩ := hroom ⟨_, 5, hlast⟩ _ 7 2 _ (by decide) hc (by decide) (by decide)
    (by decide)
  exact ⟨s, s', hrun, hstep⟩

/-- One key, created and deleted 20 times: no key is present, the last request was a `delete`, and the
storage is full. -/
theorem storage_full_empty : ∃ s s', (server 0 id).Run (churn MAX_KEYS) s ∧
    {k | latest (requests 0 (churn MAX_KEYS)) k ≠ none}.ncard = 0 ∧
    (∃ pre, requests 0 (churn MAX_KEYS) = pre ++ [(.delete 5, "Deleted key".toList)]) ∧
    (server 0 id).step s ("create 7 2 b".toList, "storage full".toList) s' := by
  have h : ∃ s, Returns (((churn MAX_KEYS).map Prod.fst).mapM (serve 0 id)) .init
      ((churn MAX_KEYS).map Prod.snd) s ∧
      ∃ s', Returns (serve 0 id "create 7 2 b".toList) s "storage full".toList s' ∧
        s'.idx = 20 := by
    decide +kernel
  obtain ⟨s, hret, s', hfull, -⟩ := h
  have hrun := run_of_mapM (.init rfl) (by decide) hret
  have hlast : ∃ pre, requests 0 (churn MAX_KEYS) = pre ++ [(.delete 5, "Deleted key".toList)] ∧
      created (requests 0 (churn MAX_KEYS)) = 20 ∧ deleted (requests 0 (churn MAX_KEYS)) = 20 :=
    ⟨(requests 0 (churn MAX_KEYS)).dropLast, by decide +kernel⟩
  obtain ⟨pre, hlast, hcreated, hdeleted⟩ := hlast
  have hcard := (follows_of_run hrun).ncard_present
  rw [List.nil_append] at hcard hrun
  exact ⟨s, s', hrun, by omega, ⟨pre, hlast⟩, by decide, hfull⟩

end KeyValue
