/-
  What workers do to the circular buffer. While no worker comes to its section after the last
  item is taken, each item is taken once, also if masters store too many.
-/
import OSModules.MasterWorker.Basic

namespace MasterWorker

open Runs Monitor

variable {T : Type} {a : Args} {role : T → Role} {spurious : Prop} {t : T} {p : Loc}
  {s s' : Shared T}

/-- Each item that is consumed was produced, and not consumed before. -/
def ConsumesOnce (l : List (Line T)) : Prop :=
  Along (fun pre x => ∀ (i : ℤ) k t, x = .consumed i k t → i ∈ produced pre ∧ i ∉ consumed pre) l

/-! ## Workers that stop in time -/

/-- The slots that are still to be taken hold different items that were not consumed, also when
masters store too many items. -/
structure Remaining (a : Args) (s : Shared T) : Prop where
  counters : Counters a s
  order : s.item_to_consume ≤ s.item_to_produce
  total : s.item_to_consume ≤ a.total_items.toNat
  window : s.item_to_produce ≤ s.item_to_consume + a.max_buf_size ∨
    a.total_items ≤ s.item_to_consume + a.max_buf_size
  slots : ∀ c, s.item_to_consume ≤ c → c < s.item_to_produce → (c : ℤ) < a.total_items →
    ∃ i : ℕ, s.buffer (c % a.max_buf_size) = i ∧ i < s.item_to_produce ∧
      i % a.max_buf_size = c % a.max_buf_size ∧ (i : ℤ) ∉ consumed s.printed
  past : ∀ i ∈ consumed s.printed, i < s.item_to_produce
  once : ConsumesOnce s.printed

theorem Remaining.init (h : Init s) : Remaining a s := by
  have hc := Counters.init (a := a) h
  obtain ⟨buffer, rfl⟩ := h
  refine ⟨hc, le_rfl, Nat.zero_le _, Or.inl (Nat.zero_le _), ?_, ?_, .nil⟩
  · intro c _ hc
    exact absurd hc (Nat.not_lt_zero c)
  · intro i hi
    exact absurd hi List.not_mem_nil

theorem Remaining.store (h : Remaining a s)
    (hgo : ¬ (s.curr_buf_size = a.max_buf_size ∧ s.item_to_produce < a.total_items)) (t : T) :
    Remaining a (store a t s) := by
  have hcurr := h.counters.curr
  have horder := h.order
  refine ⟨h.counters.store t, ?_, h.total, ?_, ?_, ?_, ?_⟩
  · show s.item_to_consume ≤ s.item_to_produce + 1
    omega
  · show s.item_to_produce + 1 ≤ s.item_to_consume + _ ∨ a.total_items ≤ s.item_to_consume + _
    by_cases hlt : (s.item_to_produce : ℤ) < a.total_items
    · refine h.window.imp ?_ id
      intro hwindow
      by_contra hfull
      exact hgo ⟨by omega, hlt⟩
    · refine Or.inr ?_
      rcases h.window with hwindow | hend
      · omega
      · exact hend
  · intro c (hle : s.item_to_consume ≤ c) (hc : c < s.item_to_produce + 1) hct
    rw [consumed_store]
    show ∃ i : ℕ, Function.update s.buffer s.add _ _ = _ ∧ i < s.item_to_produce + 1 ∧ _
    rw [h.counters.add]
    by_cases hmod : c % a.max_buf_size = s.item_to_produce % a.max_buf_size
    · -- the slot of the new item, which nobody consumed
      rw [hmod]
      refine ⟨s.item_to_produce, Function.update_self _ _ _, Nat.lt_succ_self _, rfl, ?_⟩
      intro hmem
      exact absurd (h.past _ hmem) (lt_irrefl _)
    · have hcp : c ≠ s.item_to_produce := by
        rintro rfl
        exact hmod rfl
      rw [Function.update_of_ne hmod]
      obtain ⟨i, hi, hlt, himod, hno⟩ := h.slots c hle (by omega) hct
      exact ⟨i, hi, by omega, himod, hno⟩
  · intro i hi
    rw [consumed_store] at hi
    have hlt := h.past i hi
    show i < ((s.item_to_produce + 1 : ℕ) : ℤ)
    omega
  · refine h.once.snoc ?_
    rintro i k u ⟨⟩

theorem Remaining.take (h : Remaining a s) (hlt : (s.item_to_consume : ℤ) < a.total_items)
    (hgo : ¬ (s.curr_buf_size = 0 ∧ s.item_to_consume < a.total_items)) (t : T) :
    Remaining a (take a t s) := by
  have hcurr := h.counters.curr
  have hnext : s.item_to_consume < s.item_to_produce := by
    have horder := h.order
    by_contra hempty
    exact hgo ⟨by omega, hlt⟩
  obtain ⟨j, hj, hjlt, hjmod, hjno⟩ := h.slots _ le_rfl hnext hlt
  have hitem : s.buffer s.rem = j := by rw [h.counters.rem, hj]
  refine ⟨h.counters.take t, ?_, ?_, ?_, ?_, ?_, ?_⟩
  · show s.item_to_consume + 1 ≤ s.item_to_produce
    exact hnext
  · show s.item_to_consume + 1 ≤ _
    omega
  · show s.item_to_produce ≤ s.item_to_consume + 1 + _ ∨
      a.total_items ≤ ((s.item_to_consume + 1 : ℕ) : ℤ) + _
    rcases h.window with hwindow | hend
    · exact Or.inl (by omega)
    · exact Or.inr (by push_cast; omega)
  · intro c (hle : s.item_to_consume + 1 ≤ c) (hc : c < s.item_to_produce) hct
    obtain ⟨i, hi, hilt, himod, hno⟩ := h.slots c (by omega) hc hct
    refine ⟨i, hi, hilt, himod, ?_⟩
    rw [consumed_take, hitem, List.mem_append, List.mem_singleton, not_or]
    refine ⟨hno, ?_⟩
    intro hij
    -- the items of two slots differ
    obtain rfl : i = j := Int.ofNat_inj.1 hij
    have hmod : c % a.max_buf_size = s.item_to_consume % a.max_buf_size := himod.symm.trans hjmod
    have hroom : c < s.item_to_consume + a.max_buf_size := by
      rcases h.window with hwindow | hend <;> omega
    have heq := eq_of_mod_eq hmod hroom (by omega)
    omega
  · intro i hi
    rw [consumed_take, hitem, List.mem_append, List.mem_singleton] at hi
    show i < (s.item_to_produce : ℤ)
    rcases hi with hi | rfl
    · exact h.past i hi
    · omega
  · refine h.once.snoc ?_
    rintro i k u ⟨⟩
    rw [hitem, h.counters.produced]
    exact ⟨List.mem_map.2 ⟨j, List.mem_range.2 hjlt, rfl⟩, hjno⟩

variable [DecidableEq T]

/-- No worker comes to its section when all items are consumed. -/
def WorkersInTime (a : Args) (role : T → Role) (s : Config T (Shared T) Cond Loc) (l : Label T) :
    Prop :=
  ∀ t, l = .turn t → role t = .worker → s.thread t = .run .enter ∨ s.thread t = .run .loop →
    (s.shared.item_to_consume : ℤ) < a.total_items

theorem remaining_step {s s' : Config T (Shared T) Cond Loc} {l : Label T}
    (h : Remaining a s.shared) (htime : WorkersInTime a role s l)
    (hstep : (threads a role spurious).step s l s') : Remaining a s'.shared := by
  rcases step_effect hstep with hs | ⟨t, p, rfl, ht, he⟩
  · rwa [hs]
  · generalize s'.shared = x at he
    cases he with
    | none => exact h
    | store _ _ hgo => exact h.store hgo t
    | take hrole hp hgo =>
      refine h.take (htime t rfl hrole ?_) hgo t
      rw [ht]
      exact hp.imp (congrArg _) (congrArg _)

/-- The buffer does not run below empty, at most `total_items` items are consumed, and each of them
was produced and not consumed before. -/
def ConsumesInBounds (a : Args) (s : Shared T) : Prop :=
  0 ≤ s.curr_buf_size ∧ ConsumesOnce s.printed ∧
    (consumed s.printed).length ≤ a.total_items.toNat

omit [DecidableEq T] in
theorem Remaining.consumesInBounds (h : Remaining a s) : ConsumesInBounds a s := by
  refine ⟨?_, h.once, ?_⟩
  · have horder := h.order
    rw [h.counters.curr]
    omega
  · rw [h.counters.consumed]
    exact h.total

end MasterWorker
