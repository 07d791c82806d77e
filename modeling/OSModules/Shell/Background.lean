/-
  `my_shell.c`: the table of background processes, with the children that it is to keep track
  of.
-/
import OSModules.Lib.Runs
import Mathlib.Tactic

namespace Shell

open Runs

abbrev MAX_BG_PROCS : ℕ := 64

/-- The table, whose cells hold what was there before until they are written, and the children
that were started in the background: those that run and those that have terminated but were not
reaped. -/
structure Sys where
  bg_procs : ℤ → ℤ
  bg_procs_idx : ℤ
  running : Finset ℤ
  zombie : Finset ℤ

/-! ## The code -/

/-- The processes in `D` terminate. -/
def Sys.terminate (s : Sys) (D : Finset ℤ) : Sys :=
  { s with running := s.running \ D, zombie := s.zombie ∪ (s.running ∩ D) }

/-- `waitpid(pid, NULL, WNOHANG)`: the result, and the state with the child reaped. -/
def waitpid (s : Sys) (pid : ℤ) : ℤ × Sys :=
  if pid ∈ s.zombie then (pid, { s with zombie := s.zombie.erase pid })
  else if pid ∈ s.running then (0, s)
  else (-1, s)

/-- At `MAX_BG_PROCS` it prints a message and goes on. -/
def add_bg_procs (s : Sys) (pid : ℤ) : Sys :=
  { s with
    bg_procs := Function.update s.bg_procs s.bg_procs_idx pid
    bg_procs_idx := s.bg_procs_idx + 1 }

/-- What `reap_bg_procs` does to the table for a reaped entry. -/
def Sys.remove (s : Sys) (i : ℕ) : Sys :=
  { s with
    bg_procs := Function.update s.bg_procs i (s.bg_procs s.bg_procs_idx)
    bg_procs_idx := s.bg_procs_idx - 1 }

@[simp] theorem waitpid_bg_procs (s : Sys) (pid : ℤ) :
    (waitpid s pid).2.bg_procs = s.bg_procs := by unfold waitpid; split_ifs <;> rfl

@[simp] theorem waitpid_bg_procs_idx (s : Sys) (pid : ℤ) :
    (waitpid s pid).2.bg_procs_idx = s.bg_procs_idx := by unfold waitpid; split_ifs <;> rfl

/-- The loop of `reap_bg_procs` from `i` on; the processes in `die i` terminate before its call
of `waitpid` for entry `i`. -/
def reapLoop (die : ℕ → Finset ℤ) (i : ℕ) (s : Sys) : Sys :=
  if i ≤ s.bg_procs_idx then
    let r := waitpid (s.terminate (die i)) (s.bg_procs i)
    if r.1 > 0 then reapLoop die (i + 1) (r.2.remove i) else reapLoop die (i + 1) r.2
  else s
termination_by (s.bg_procs_idx + 1 - i).toNat
decreasing_by all_goals simp [Sys.remove, Sys.terminate]; omega

def reap_bg_procs (s : Sys) (die : ℕ → Finset ℤ) : Sys := reapLoop die 0 s

/-- The loop of `execute_cmd` for `exit`: each entry is killed, and reaped by a `waitpid` that
blocks until it has terminated. -/
def exit_ (s : Sys) : Sys :=
  (List.range s.bg_procs_idx.toNat).foldl
    (fun s' (i : ℕ) => (waitpid (s'.terminate {s'.bg_procs i}) (s'.bg_procs i)).2) s

/-! ## What the table is for -/

/-- The children that were not reaped. -/
def Sys.unreaped (s : Sys) : Finset ℤ := s.running ∪ s.zombie

/-- `bg_procs[0..bg_procs_idx)`. -/
def Sys.table (s : Sys) : List ℤ := (List.range s.bg_procs_idx.toNat).map fun i : ℕ => s.bg_procs i

/-- The table contains every child that was not reaped exactly once and nothing else. -/
def Sys.Tracked (s : Sys) : Prop := s.table.Nodup ∧ ∀ pid, pid ∈ s.table ↔ pid ∈ s.unreaped

theorem mem_table {s : Sys} {pid : ℤ} :
    pid ∈ s.table ↔ ∃ i : ℕ, i < s.bg_procs_idx ∧ s.bg_procs i = pid := by
  simp only [Sys.table, List.mem_map, List.mem_range]
  exact exists_congr fun i => and_congr_left fun _ => by omega

@[simp] theorem unreaped_terminate (s : Sys) (D : Finset ℤ) :
    (s.terminate D).unreaped = s.unreaped := by
  ext pid
  simp only [Sys.unreaped, Sys.terminate, Finset.mem_union, Finset.mem_sdiff, Finset.mem_inter]
  tauto

theorem Sys.disjoint_terminate {s : Sys} (hd : Disjoint s.running s.zombie) (D : Finset ℤ) :
    Disjoint (s.terminate D).running (s.terminate D).zombie := by
  have hd := Finset.disjoint_left.1 hd
  refine Finset.disjoint_left.2 fun pid hr hz => ?_
  simp only [Sys.terminate, Finset.mem_sdiff, Finset.mem_union, Finset.mem_inter] at hr hz
  exact hz.elim (hd hr.1) fun hz => hr.2 hz.2

/-- The table is in order: it tracks the children, and the cells past its end hold none of
them. -/
structure Good (s : Sys) : Prop where
  idx : 0 ≤ s.bg_procs_idx
  mem : ∀ pid, pid ∈ s.unreaped ↔ ∃ i : ℕ, i < s.bg_procs_idx ∧ s.bg_procs i = pid
  inj : ∀ i j : ℕ, i < s.bg_procs_idx → j < s.bg_procs_idx → s.bg_procs i = s.bg_procs j → i = j
  stale : ∀ j, s.bg_procs_idx ≤ j → s.bg_procs j ∉ s.unreaped
  pos : ∀ pid ∈ s.unreaped, 0 < pid
  disj : Disjoint s.running s.zombie

theorem Good.tracked {s : Sys} (h : Good s) : s.Tracked := by
  refine ⟨?_, fun pid => by rw [mem_table, h.mem]⟩
  refine List.Nodup.map_on (fun i hi j hj hij => ?_) List.nodup_range
  rw [List.mem_range] at hi hj
  exact h.inj i j (by omega) (by omega) hij

theorem Good.mem_of_lt {s : Sys} (h : Good s) {i : ℕ} (hi : i < s.bg_procs_idx) :
    s.bg_procs i ∈ s.unreaped := (h.mem _).2 ⟨i, hi, rfl⟩

theorem Good.terminate {s : Sys} (h : Good s) (D : Finset ℤ) : Good (s.terminate D) := by
  refine ⟨h.idx, ?_, h.inj, ?_, ?_, ?_⟩
  · rw [unreaped_terminate]
    exact h.mem
  · rw [unreaped_terminate]
    exact h.stale
  · rw [unreaped_terminate]
    exact h.pos
  · exact Sys.disjoint_terminate h.disj D

/-! ## One round of the loop -/

/-- The state after the child of entry `i` is reaped and the entry removed. -/
def Sys.reaped (s : Sys) (i : ℕ) : Sys :=
  Sys.remove { s with zombie := s.zombie.erase (s.bg_procs i) } i

section
variable {die : ℕ → Finset ℤ} {i : ℕ} {s : Sys}

theorem reapLoop_end (h : s.bg_procs_idx < i) : reapLoop die i s = s := by
  rw [reapLoop, if_neg (by omega)]

theorem reapLoop_alive (h : i ≤ s.bg_procs_idx)
    (hz : s.bg_procs i ∉ (s.terminate (die i)).zombie) :
    reapLoop die i s = reapLoop die (i + 1) (s.terminate (die i)) := by
  have hw : (waitpid (s.terminate (die i)) (s.bg_procs i)).1 ≤ 0 ∧
      (waitpid (s.terminate (die i)) (s.bg_procs i)).2 = s.terminate (die i) := by
    unfold waitpid
    rw [if_neg hz]
    split_ifs <;> simp
  rw [reapLoop, if_pos h]
  simp only [hw.2]
  rw [if_neg (by omega)]

theorem reapLoop_dead (h : i ≤ s.bg_procs_idx) (hpos : 0 < s.bg_procs i)
    (hz : s.bg_procs i ∈ (s.terminate (die i)).zombie) :
    reapLoop die i s = reapLoop die (i + 1) ((s.terminate (die i)).reaped i) := by
  rw [reapLoop, if_pos h]
  simp only [waitpid, if_pos hz]
  rw [if_pos hpos]
  rfl

/-- The loop ends before the index has gone down to where it stands. -/
theorem le_idx_reapLoop (h : i ≤ s.bg_procs_idx + 2) :
    s.bg_procs_idx + i ≤ 2 * (reapLoop die i s).bg_procs_idx + 2 := by
  induction i, s using reapLoop.induct die with
  | case1 i s hle r hr ih =>
    rw [reapLoop, if_pos hle, if_pos hr]
    simp only [r, Sys.remove, waitpid_bg_procs_idx, Sys.terminate] at ih ⊢
    omega
  | case2 i s hle r hr ih =>
    rw [reapLoop, if_pos hle, if_neg hr]
    simp only [r, waitpid_bg_procs_idx, Sys.terminate] at ih ⊢
    omega
  | case3 i s hle =>
    rw [reapLoop, if_neg hle]
    omega

/-- Cells that the loop has passed stay. -/
theorem reapLoop_cell {j : ℕ} (h : j < i) : (reapLoop die i s).bg_procs j = s.bg_procs j := by
  induction i, s using reapLoop.induct die with
  | case1 i s hle r hr ih =>
    rw [reapLoop, if_pos hle, if_pos hr, ih (by omega)]
    have hne : (j : ℤ) ≠ i := by omega
    simp [r, Sys.remove, Sys.terminate, hne]
  | case2 i s hle r hr ih =>
    rw [reapLoop, if_pos hle, if_neg hr, ih (by omega)]
    simp [r, Sys.terminate]
  | case3 i s hle => rw [reapLoop, if_neg hle]

theorem unreaped_waitpid (s : Sys) (pid : ℤ) : (waitpid s pid).2.unreaped ⊆ s.unreaped := by
  unfold waitpid
  split_ifs
  · exact Finset.union_subset_union_right (Finset.erase_subset _ _)
  · exact subset_rfl
  · exact subset_rfl

theorem unreaped_reapLoop : ∀ pid ∈ (reapLoop die i s).unreaped, pid ∈ s.unreaped := by
  induction i, s using reapLoop.induct die with
  | case1 i s hle r hr ih =>
    rw [reapLoop, if_pos hle, if_pos hr]
    intro pid hpid
    rw [← unreaped_terminate s (die i)]
    exact unreaped_waitpid _ _ (ih pid hpid)
  | case2 i s hle r hr ih =>
    rw [reapLoop, if_pos hle, if_neg hr]
    intro pid hpid
    rw [← unreaped_terminate s (die i)]
    exact unreaped_waitpid _ _ (ih pid hpid)
  | case3 i s hle =>
    rw [reapLoop, if_neg hle]
    exact fun _ h => h

end

/-! ## Which entries may have terminated -/

theorem unreaped_reaped {s : Sys} {i : ℕ} (hd : Disjoint s.running s.zombie)
    (hz : s.bg_procs i ∈ s.zombie) {pid : ℤ} :
    pid ∈ (s.reaped i).unreaped ↔ pid ∈ s.unreaped ∧ pid ≠ s.bg_procs i := by
  have hr : s.bg_procs i ∉ s.running := fun h => Finset.disjoint_left.1 hd h hz
  simp only [Sys.reaped, Sys.remove, Sys.unreaped, Finset.mem_union, Finset.mem_erase]
  constructor
  · rintro (h | ⟨hne, h⟩)
    · exact ⟨Or.inl h, fun he => hr (he ▸ h)⟩
    · exact ⟨Or.inr h, hne⟩
  · rintro ⟨h | h, hne⟩
    · exact Or.inl h
    · exact Or.inr ⟨hne, h⟩

theorem disjoint_reaped {s : Sys} {i : ℕ} (hd : Disjoint s.running s.zombie) :
    Disjoint (s.reaped i).running (s.reaped i).zombie :=
  hd.mono_right (Finset.erase_subset _ _)

/-- The children of the entries from `m` on are reaped, and the table ends there. -/
theorem Good.drop {s s' : Sys} (h : Good s) {m : ℕ} (hidx : s'.bg_procs_idx = m)
    (hle : m ≤ s.bg_procs_idx) (hcell : ∀ j : ℕ, j < m → s'.bg_procs j = s.bg_procs j)
    (hun : ∀ pid, pid ∈ s'.unreaped ↔
      pid ∈ s.unreaped ∧ ∀ j : ℕ, m ≤ j → j < s.bg_procs_idx → pid ≠ s.bg_procs j)
    (hstale : ∀ j : ℤ, m ≤ j → s'.bg_procs j ∉ s'.unreaped)
    (hd : Disjoint s'.running s'.zombie) : Good s' where
  idx := by omega
  mem pid := by
    rw [hun, h.mem]
    constructor
    · rintro ⟨⟨j, hj, rfl⟩, hno⟩
      have hjm : j < m := by
        by_contra hge
        exact hno j (by omega) hj rfl
      exact ⟨j, by omega, hcell j hjm⟩
    · rintro ⟨j, hj, rfl⟩
      have hjm : j < m := by omega
      rw [hcell j hjm]
      refine ⟨⟨j, by omega, rfl⟩, fun l hl hlt he => ?_⟩
      have := h.inj j l (by omega) hlt he
      omega
  inj i j hi hj hij := by
    rw [hcell i (by omega), hcell j (by omega)] at hij
    exact h.inj i j (by omega) (by omega) hij
  stale j hj := hstale j (by omega)
  pos pid hpid := h.pos pid ((hun pid).1 hpid).1
  disj := hd

/-- The child of entry `j` has terminated when the loop, which goes on at `i`, polls it. -/
def Dead (die : ℕ → Finset ℤ) (s : Sys) (i j : ℕ) : Prop :=
  s.bg_procs j ∈ s.zombie ∨ ∃ l, i ≤ l ∧ l ≤ j ∧ s.bg_procs j ∈ die l

/-- Of the children of the table only those of the last two entries have terminated when they
are polled; if that of the last but one has, so has the last one. -/
def OnlyLast (die : ℕ → Finset ℤ) (s : Sys) (i : ℕ) : Prop :=
  (∀ j, i ≤ j → j + 2 < s.bg_procs_idx → ¬ Dead die s i j) ∧
  ∀ j, i ≤ j → j + 2 = s.bg_procs_idx → Dead die s i j → Dead die s i (j + 1)

section
variable {die : ℕ → Finset ℤ} {i j : ℕ} {s : Sys}

theorem dead_self (h : s.bg_procs i ∈ s.unreaped) :
    Dead die s i i ↔ s.bg_procs i ∈ (s.terminate (die i)).zombie := by
  simp only [Dead, Sys.terminate, Finset.mem_union, Finset.mem_inter]
  simp only [Sys.unreaped, Finset.mem_union] at h
  constructor
  · rintro (hz | ⟨l, h₁, h₂, hl⟩)
    · exact Or.inl hz
    · obtain rfl : i = l := by omega
      exact h.symm.imp_right fun hr => ⟨hr, hl⟩
  · rintro (hz | ⟨-, hl⟩)
    · exact Or.inl hz
    · exact Or.inr ⟨i, le_rfl, le_rfl, hl⟩

/-- What terminates before a poll has terminated at the later ones. -/
theorem dead_terminate (h : s.bg_procs j ∈ s.unreaped) (hij : i < j) :
    Dead die (s.terminate (die i)) (i + 1) j ↔ Dead die s i j := by
  simp only [Dead, Sys.terminate, Finset.mem_union, Finset.mem_inter]
  simp only [Sys.unreaped, Finset.mem_union] at h
  constructor
  · rintro ((hz | ⟨-, hi⟩) | ⟨l, h₁, h₂, hl⟩)
    · exact Or.inl hz
    · exact Or.inr ⟨i, le_rfl, hij.le, hi⟩
    · exact Or.inr ⟨l, by omega, h₂, hl⟩
  · rintro (hz | ⟨l, h₁, h₂, hl⟩)
    · exact Or.inl (Or.inl hz)
    · by_cases hil : i = l
      · subst hil
        exact Or.inl (h.symm.imp_right fun hr => ⟨hr, hl⟩)
      · exact Or.inr ⟨l, by omega, h₂, hl⟩

/-- Past a child that still runs, the condition is about the entries to come. -/
theorem onlyLast_succ (hG : Good s) (hr : ¬ Dead die s i i) :
    OnlyLast die (s.terminate (die i)) (i + 1) ↔ OnlyLast die s i := by
  have hdead (j : ℕ) (hij : i < j) (hj : j < s.bg_procs_idx) :
      Dead die (s.terminate (die i)) (i + 1) j ↔ Dead die s i j :=
    dead_terminate (hG.mem_of_lt hj) hij
  have hidx : (s.terminate (die i)).bg_procs_idx = s.bg_procs_idx := rfl
  unfold OnlyLast
  rw [hidx]
  constructor
  · rintro ⟨h₁, h₂⟩
    refine ⟨fun j hj hlt hd => ?_, fun j hj hlt hd => ?_⟩ <;> by_cases hij : j = i
    · exact hr (hij ▸ hd)
    · exact h₁ j (by omega) hlt ((hdead j (by omega) (by omega)).2 hd)
    · exact absurd (hij ▸ hd) hr
    · exact (hdead _ (by omega) (by push_cast; omega)).1
        (h₂ j (by omega) hlt ((hdead j (by omega) (by omega)).2 hd))
  · rintro ⟨h₁, h₂⟩
    refine ⟨fun j hj hlt hd => ?_, fun j hj hlt hd => ?_⟩
    · exact h₁ j (by omega) hlt ((hdead j (by omega) (by omega)).1 hd)
    · exact (hdead _ (by omega) (by push_cast; omega)).2
        (h₂ j (by omega) hlt ((hdead j (by omega) (by omega)).1 hd))

/-- An entry in front of the last two is lost for good: its cell gets a value that is no child,
and the table does not shrink that far. -/
theorem not_tracked_of_early (hG : Good s) (hi : i + 2 < s.bg_procs_idx)
    (hz : s.bg_procs i ∈ s.zombie) : ¬ (reapLoop die (i + 1) (s.reaped i)).Tracked := by
  rintro ⟨-, hmem⟩
  have hcell : (reapLoop die (i + 1) (s.reaped i)).bg_procs i = s.bg_procs s.bg_procs_idx := by
    rw [reapLoop_cell (by omega)]
    simp [Sys.reaped, Sys.remove]
  have hidx : (s.reaped i).bg_procs_idx + ((i + 1 : ℕ) : ℤ) ≤
      2 * (reapLoop die (i + 1) (s.reaped i)).bg_procs_idx + 2 :=
    le_idx_reapLoop (by simp only [Sys.reaped, Sys.remove]; push_cast; omega)
  simp only [Sys.reaped, Sys.remove] at hidx
  have htable := mem_table.2 ⟨i, by simp only [Sys.reaped, Sys.remove]; push_cast at hidx; omega, hcell⟩
  have hun := unreaped_reapLoop _ ((hmem _).1 htable)
  rw [unreaped_reaped hG.disj hz] at hun
  exact hG.stale _ le_rfl hun.1

theorem good_reaped_last (hG : Good s) (hi : (i : ℤ) + 1 = s.bg_procs_idx)
    (hz : s.bg_procs i ∈ s.zombie) : Good (s.reaped i) := by
  refine hG.drop (m := i) (by simp only [Sys.reaped, Sys.remove]; omega) (by omega)
    (fun j hj => ?_) (fun pid => ?_) (fun j hj hmem => ?_) (disjoint_reaped hG.disj)
  · have hne : (j : ℤ) ≠ i := by omega
    simp [Sys.reaped, Sys.remove, hne]
  · rw [unreaped_reaped hG.disj hz]
    refine and_congr_right fun _ => ⟨fun hne j h₁ h₂ => ?_, fun h => h i le_rfl (by omega)⟩
    obtain rfl : i = j := by omega
    exact hne
  · have hun := ((unreaped_reaped hG.disj hz).1 hmem).1
    by_cases hij : j = i
    · subst hij
      simp only [Sys.reaped, Sys.remove, Function.update_self] at hun
      exact hG.stale _ le_rfl hun
    · simp only [Sys.reaped, Sys.remove, Function.update_of_ne hij] at hun
      exact hG.stale j (by omega) hun

/-- The last two entries are removed one after the other. -/
theorem good_reaped_last_two (hG : Good s) (hi : (i : ℤ) + 2 = s.bg_procs_idx)
    (hz : s.bg_procs i ∈ s.zombie) (D : Finset ℤ)
    (hz' : s.bg_procs (i + 1) ∈ ((s.reaped i).terminate D).zombie) :
    Good (((s.reaped i).terminate D).reaped (i + 1)) := by
  have hlt := hG.inj i (i + 1)
  set s₁ := (s.reaped i).terminate D with hs₁
  have hd₁ : Disjoint s₁.running s₁.zombie := Sys.disjoint_terminate (disjoint_reaped hG.disj) D
  have hcell (j : ℤ) : s₁.bg_procs j = if j = i then s.bg_procs s.bg_procs_idx else s.bg_procs j := by
    simp only [hs₁, Sys.terminate, Sys.reaped, Sys.remove, Function.update_apply]
  have hidx : s₁.bg_procs_idx = i + 1 := by
    simp only [hs₁, Sys.terminate, Sys.reaped, Sys.remove]; omega
  have hlast : s₁.bg_procs (i + 1 : ℕ) = s.bg_procs (i + 1) := by
    rw [hcell, if_neg (by push_cast; omega)]
    push_cast
    rfl
  have hz₁ : s₁.bg_procs (i + 1 : ℕ) ∈ s₁.zombie := by rwa [hlast]
  have hun (pid : ℤ) : pid ∈ (s₁.reaped (i + 1)).unreaped ↔
      (pid ∈ s.unreaped ∧ pid ≠ s.bg_procs i) ∧ pid ≠ s.bg_procs (i + 1) := by
    rw [unreaped_reaped hd₁ hz₁, hlast, hs₁, unreaped_terminate, unreaped_reaped hG.disj hz]
  refine hG.drop (m := i) ?_ (by omega) (fun j hj => ?_) (fun pid => ?_) (fun j hj hmem => ?_)
    (disjoint_reaped hd₁)
  · simp only [Sys.reaped, Sys.remove, hidx]; omega
  · have h₁ : (j : ℤ) ≠ i := by omega
    have h₂ : (j : ℤ) ≠ (i + 1 : ℕ) := by omega
    simp only [Sys.reaped, Sys.remove, Function.update_of_ne h₂]
    rw [hcell, if_neg h₁]
  · rw [hun, and_assoc]
    refine and_congr_right fun _ => ⟨fun ⟨h₁, h₂⟩ j hj hlt => ?_, fun h => ⟨?_, ?_⟩⟩
    · rcases (by omega : j = i ∨ j = i + 1) with rfl | rfl
      · exact h₁
      · exact_mod_cast h₂
    · exact h i le_rfl (by omega)
    · exact_mod_cast h (i + 1) (by omega) (by push_cast; omega)
  · have hm := ((hun _).1 hmem).1.1
    have hm' := ((hun _).1 hmem).2
    by_cases h₂ : j = (i + 1 : ℕ)
    · subst h₂
      simp only [Sys.reaped, Sys.remove, Function.update_self, hidx] at hm'
      exact hm' (by exact_mod_cast hlast)
    · simp only [Sys.reaped, Sys.remove, Function.update_of_ne h₂, hcell] at hm
      split_ifs at hm with hji
      · exact hG.stale _ le_rfl hm
      · push_cast at h₂
        exact hG.stale j (by omega) hm

/-- The last but one child is reaped: the last one must be as well. -/
theorem reapLoop_last_two (hG : Good s) (hi : (i : ℤ) + 2 = s.bg_procs_idx)
    (hz : s.bg_procs i ∈ s.zombie) :
    (Dead die s (i + 1) (i + 1) → Good (reapLoop die (i + 1) (s.reaped i))) ∧
    (¬ Dead die s (i + 1) (i + 1) → ¬ (reapLoop die (i + 1) (s.reaped i)).Tracked) := by
  have hlt : ((i + 1 : ℕ) : ℤ) < s.bg_procs_idx := by push_cast; omega
  have hmem := hG.mem_of_lt hlt
  have hne : s.bg_procs (i + 1 : ℕ) ≠ s.bg_procs i := fun he => by
    have := hG.inj (i + 1) i hlt (by omega) he
    omega
  have hidx : (s.reaped i).bg_procs_idx = (i + 1 : ℕ) := by
    simp only [Sys.reaped, Sys.remove]; push_cast; omega
  have hcell : (s.reaped i).bg_procs (i + 1 : ℕ) = s.bg_procs (i + 1 : ℕ) := by
    have hii : ((i + 1 : ℕ) : ℤ) ≠ i := by omega
    simp only [Sys.reaped, Sys.remove, Function.update_of_ne hii]
  have hdead : Dead die s (i + 1) (i + 1) ↔
      (s.reaped i).bg_procs (i + 1 : ℕ) ∈ ((s.reaped i).terminate (die (i + 1))).zombie := by
    rw [dead_self hmem, hcell]
    simp only [Sys.reaped, Sys.remove, Sys.terminate, Finset.mem_union, Finset.mem_erase, ne_eq,
      hne, not_false_eq_true, true_and]
  constructor
  · intro hd
    have hz' := hdead.1 hd
    rw [reapLoop_dead hidx.ge (by rw [hcell]; exact hG.pos _ hmem) hz', reapLoop_end]
    · rw [hcell] at hz'
      exact good_reaped_last_two hG hi hz _ (by exact_mod_cast hz')
    · simp only [Sys.reaped, Sys.remove, Sys.terminate]; push_cast; omega
  · rintro hd ⟨-, htable⟩
    rw [reapLoop_alive hidx.ge fun h => hd (hdead.2 h), reapLoop_end] at htable
    · -- the cell of the reaped child is still in the table, with a value that is no child
      have hin := (htable (s.bg_procs s.bg_procs_idx)).1 (mem_table.2 ⟨i, ?_, ?_⟩)
      · rw [unreaped_terminate, unreaped_reaped hG.disj hz] at hin
        exact hG.stale _ le_rfl hin.1
      · simp only [Sys.terminate, hidx]; omega
      · simp only [Sys.terminate, Sys.reaped, Sys.remove, Function.update_self]
    · simp only [Sys.terminate, hidx]; push_cast; omega

/-- The loop leaves the table in order if only the last children have terminated, and does not
even track the children otherwise. -/
theorem reapLoop_good_iff (k : ℕ) : ∀ {i : ℕ} {s : Sys}, Good s → (i : ℤ) + k = s.bg_procs_idx + 1 →
    (OnlyLast die s i → Good (reapLoop die i s)) ∧
    (¬ OnlyLast die s i → ¬ (reapLoop die i s).Tracked) := by
  induction k with
  | zero =>
    intro i s hG hk
    rw [reapLoop_end (by omega)]
    exact ⟨fun _ => hG, fun h => absurd ⟨fun j _ _ => by omega, fun j _ _ => by omega⟩ h⟩
  | succ k ih =>
    intro i s hG hk
    have hG₁ := hG.terminate (die i)
    push_cast at hk
    by_cases hlast : (i : ℤ) = s.bg_procs_idx
    · -- the cell past the end of the table holds no child
      have hz : s.bg_procs i ∉ (s.terminate (die i)).zombie := by
        intro hz
        refine hG₁.stale i hlast.ge ?_
        exact Finset.mem_union_right _ hz
      rw [reapLoop_alive hlast.le hz, reapLoop_end (by simp only [Sys.terminate]; omega)]
      exact ⟨fun _ => hG₁, fun h => absurd ⟨fun j _ _ => by omega, fun j _ _ => by omega⟩ h⟩
    have hi : (i : ℤ) < s.bg_procs_idx := by omega
    have hmem := hG.mem_of_lt hi
    by_cases hdead : Dead die s i i
    · have hz := (dead_self hmem).1 hdead
      rw [reapLoop_dead hi.le (hG.pos _ hmem) hz]
      by_cases h₁ : (i : ℤ) + 1 = s.bg_procs_idx
      · rw [reapLoop_end (by simp only [Sys.reaped, Sys.remove, Sys.terminate]; push_cast; omega)]
        exact ⟨fun _ => good_reaped_last hG₁ h₁ hz,
          fun h => absurd ⟨fun j _ _ => by omega, fun j _ _ => by omega⟩ h⟩
      by_cases h₂ : (i : ℤ) + 2 = s.bg_procs_idx
      · have hlt : ((i + 1 : ℕ) : ℤ) < s.bg_procs_idx := by push_cast; omega
        have hnext : OnlyLast die s i ↔ Dead die (s.terminate (die i)) (i + 1) (i + 1) := by
          rw [dead_terminate (hG.mem_of_lt hlt) (by omega)]
          constructor
          · intro h
            exact h.2 i le_rfl h₂ hdead
          · intro hd
            refine ⟨fun j _ _ => by omega, fun j hj hj₂ _ => ?_⟩
            obtain rfl : j = i := by omega
            exact hd
        rw [hnext]
        exact reapLoop_last_two hG₁ h₂ hz
      · have hearly : (i : ℤ) + 2 < s.bg_procs_idx := by omega
        exact ⟨fun h => absurd hdead (h.1 i le_rfl hearly),
          fun _ => not_tracked_of_early hG₁ hearly hz⟩
    · have hz : s.bg_procs i ∉ (s.terminate (die i)).zombie := fun hz =>
        hdead ((dead_self hmem).2 hz)
      rw [reapLoop_alive hi.le hz, ← onlyLast_succ hG hdead]
      exact ih hG₁ (by simp only [Sys.terminate]; push_cast; omega)

end

/-! ## exit -/

/-- A child that is killed and waited for is reaped, whether or not it had terminated. -/
theorem mem_unreaped_kill {s : Sys} (hd : Disjoint s.running s.zombie) (pid p : ℤ) :
    p ∈ (waitpid (s.terminate {pid}) pid).2.unreaped ↔ p ∈ s.unreaped ∧ p ≠ pid := by
  have hr : pid ∉ (s.terminate {pid}).running := by simp [Sys.terminate]
  have hdis := Finset.disjoint_left.1 hd
  rw [← unreaped_terminate s {pid}]
  unfold waitpid
  rw [if_neg hr]
  split_ifs with hz
  · simp only [Sys.unreaped, Finset.mem_union, Finset.mem_erase]
    constructor
    · rintro (h | ⟨hne, h⟩)
      · exact ⟨Or.inl h, fun he => hr (he ▸ h)⟩
      · exact ⟨Or.inr h, hne⟩
    · rintro ⟨h | h, hne⟩
      · exact Or.inl h
      · exact Or.inr ⟨hne, h⟩
  · refine ⟨fun h => ⟨h, fun he => ?_⟩, fun h => h.1⟩
    subst he
    exact (Finset.mem_union.1 h).elim hr hz

theorem disjoint_waitpid {s : Sys} (hd : Disjoint s.running s.zombie) (pid : ℤ) :
    Disjoint (waitpid s pid).2.running (waitpid s pid).2.zombie := by
  unfold waitpid
  split_ifs
  · exact hd.mono_right (Finset.erase_subset _ _)
  · exact hd
  · exact hd

/-- `exit` kills and reaps all children of a table in order. -/
theorem Good.exit {s : Sys} (h : Good s) : (exit_ s).unreaped = ∅ := by
  have key : ∀ (l : List ℕ) (s' : Sys), s'.bg_procs = s.bg_procs →
      Disjoint s'.running s'.zombie → ∀ pid,
      pid ∈ (l.foldl (fun s' (i : ℕ) =>
        (waitpid (s'.terminate {s'.bg_procs i}) (s'.bg_procs i)).2) s').unreaped ↔
        pid ∈ s'.unreaped ∧ ∀ i ∈ l, pid ≠ s.bg_procs i := by
    intro l
    induction l with
    | nil => simp
    | cons i l ih =>
      intro s' hbg hd pid
      rw [List.foldl_cons, ih _ (by simp [Sys.terminate, hbg])
        (disjoint_waitpid (Sys.disjoint_terminate hd _) _), mem_unreaped_kill hd, hbg,
        List.forall_mem_cons, and_assoc]
  ext pid
  rw [exit_, key _ _ rfl h.disj, h.mem]
  simp only [Finset.notMem_empty, iff_false, not_and, not_forall, List.mem_range]
  rintro ⟨i, hi, rfl⟩
  exact ⟨i, by omega, not_not.2 rfl⟩

/-! ## Runs -/

/-- A child is started in the background, a child terminates, or `reap_bg_procs` is called. -/
inductive Act
  | start (pid : ℤ)
  | terminate (pid : ℤ)
  | reap (die : ℕ → Finset ℤ)

/-- No child has the pid and no cell of the array holds it: neither an earlier child had it nor
was it there when the array was allocated. -/
def Fresh (s : Sys) (pid : ℤ) : Prop := 0 < pid ∧ pid ∉ s.unreaped ∧ ∀ j, s.bg_procs j ≠ pid

inductive Step (s : Sys) : Act → Sys → Prop
  | start {pid} : Fresh s pid → s.unreaped.card < MAX_BG_PROCS →
      Step s (.start pid) (add_bg_procs { s with running := insert pid s.running } pid)
  | terminate {pid} : pid ∈ s.running → Step s (.terminate pid) (s.terminate {pid})
  | reap (die) : Step s (.reap die) (reap_bg_procs s die)

/-- The shell from its start on. -/
def shell : LTS Sys Act where
  init s := s.bg_procs_idx = 0 ∧ s.running = ∅ ∧ s.zombie = ∅
  step := Step

/-- The condition on a call of `reap_bg_procs`. -/
def Kept (s : Sys) : Act → Prop
  | .reap die => OnlyLast die s 0
  | _ => True

theorem Good.add {s : Sys} (h : Good s) {pid : ℤ} (hf : Fresh s pid) :
    Good (add_bg_procs { s with running := insert pid s.running } pid) := by
  obtain ⟨hpos, hno, hcell⟩ := hf
  have h0 := h.idx
  have hun (p : ℤ) : p ∈ (add_bg_procs { s with running := insert pid s.running } pid).unreaped ↔
      p = pid ∨ p ∈ s.unreaped := by
    simp only [Sys.unreaped, add_bg_procs, Finset.mem_union, Finset.mem_insert, or_assoc]
  have hbg (j : ℤ) : (add_bg_procs { s with running := insert pid s.running } pid).bg_procs j =
      if j = s.bg_procs_idx then pid else s.bg_procs j := Function.update_apply ..
  have hidx : (add_bg_procs { s with running := insert pid s.running } pid).bg_procs_idx =
      s.bg_procs_idx + 1 := rfl
  refine ⟨by rw [hidx]; omega, fun p => ?_, fun i j hi hj hij => ?_, fun j hj => ?_, fun p hp => ?_, ?_⟩
  · rw [hun, h.mem]
    constructor
    · rintro (rfl | ⟨i, hi, rfl⟩)
      · exact ⟨s.bg_procs_idx.toNat, by rw [hidx]; omega, by rw [hbg, if_pos (by omega)]⟩
      · exact ⟨i, by rw [hidx]; omega, by rw [hbg, if_neg (by omega)]⟩
    · rintro ⟨i, hi, rfl⟩
      rw [hbg]
      rw [hidx] at hi
      split_ifs with hii
      · exact Or.inl rfl
      · exact Or.inr ⟨i, by omega, rfl⟩
  · rw [hbg, hbg] at hij
    rw [hidx] at hi hj
    split_ifs at hij with h₁ h₂ h₂
    · omega
    · exact absurd hij.symm (hcell j)
    · exact absurd hij (hcell i)
    · exact h.inj i j (by omega) (by omega) hij
  · rw [hidx] at hj
    rw [hun, hbg, if_neg (by omega), not_or]
    exact ⟨hcell j, h.stale j (by omega)⟩
  · rcases (hun p).1 hp with rfl | hp
    · exact hpos
    · exact h.pos p hp
  · show Disjoint (insert pid s.running) s.zombie
    rw [Finset.disjoint_insert_left]
    exact ⟨fun hz => hno (Finset.mem_union_right _ hz), h.disj⟩

/-- In a run of starts, terminations and calls of `reap_bg_procs`, the table contains every
child that was not reaped exactly once and nothing else, and `exit` leaves no child, in all
states if and only if every call of `reap_bg_procs` finds only the last children terminated. -/
theorem bg_procs_tracked_iff {xs : List (Sys × Act)} {s : Sys} (h : shell.Exec xs s) :
    (∀ t ∈ LTS.states xs s, t.Tracked ∧ (exit_ t).unreaped = ∅) ↔ ∀ p ∈ xs, Kept p.1 p.2 := by
  refine (LTS.Exec.all_iff (G := Good) ?_ ?_ ?_ ?_ h).1
  · rintro s ⟨hidx, hrun, hz⟩
    have hun : s.unreaped = ∅ := by simp [Sys.unreaped, hrun, hz]
    refine ⟨hidx.ge, fun pid => ?_, fun i j hi => ?_, fun j _ => ?_, fun pid hp => ?_, ?_⟩
    · rw [hun]
      simp only [Finset.notMem_empty, false_iff, not_exists, not_and]
      omega
    · omega
    · simp [hun]
    · simp [hun] at hp
    · simp [hrun]
  · intro s hG
    exact ⟨hG.tracked, hG.exit⟩
  · intro s a s' hG hC hs
    cases hs with
    | start hf hn => exact hG.add hf
    | terminate hr => exact hG.terminate _
    | reap die =>
      have h0 := hG.idx
      exact (reapLoop_good_iff (s.bg_procs_idx + 1).toNat hG (by omega)).1 hC
  · intro s a s' hG hC hs
    cases hs with
    | start | terminate => exact absurd trivial hC
    | reap die =>
      have h0 := hG.idx
      intro hP
      exact (reapLoop_good_iff (s.bg_procs_idx + 1).toNat hG (by omega)).2 hC hP.1

/-- The shell before its first command. -/
def atPrompt : Sys := ⟨fun _ => 0, 0, ∅, ∅⟩

theorem fresh_atPrompt (pid : ℤ) (h : 0 < pid) : Fresh atPrompt pid :=
  ⟨h, by simp [Sys.unreaped, atPrompt], fun _ => h.ne⟩

theorem fresh_start {s : Sys} {pid new : ℤ} (hf : Fresh s new) (h : new ≠ pid) :
    Fresh (add_bg_procs { s with running := insert pid s.running } pid) new := by
  obtain ⟨hpos, hno, hcell⟩ := hf
  refine ⟨hpos, ?_, fun j => ?_⟩
  · simp only [Sys.unreaped, add_bg_procs, Finset.mem_union, Finset.mem_insert] at hno ⊢
    tauto
  · simp only [add_bg_procs, Function.update_apply]
    split_ifs
    · exact h.symm
    · exact hcell j

/-- Three children are started, the last one terminates before a call of `reap_bg_procs` and the
last but one while it polls: both are reaped and the first one is kept. -/
theorem bg_procs_tracked_last_two : ∃ xs s, shell.Exec xs s ∧ xs.length = 5 ∧
    s.running = {10} ∧ s.zombie = ∅ ∧
    ∀ t ∈ LTS.states xs s, t.Tracked ∧ (exit_ t).unreaped = ∅ := by
  have h₀ : shell.Exec [] atPrompt := .init ⟨rfl, rfl, rfl⟩
  have h₁ := h₀.step (.start (fresh_atPrompt 10 (by decide)) (by decide))
  have h₂ := h₁.step (.start (fresh_start (fresh_atPrompt 11 (by decide)) (by decide)) (by decide))
  have h₃ := h₂.step (.start (fresh_start (fresh_start (fresh_atPrompt 12 (by decide)) (by decide))
    (by decide)) (by decide))
  have h₄ := h₃.step (.terminate (show (12 : ℤ) ∈ _ by decide))
  have h₅ := h₄.step (.reap fun i => if i = 1 then {11} else ∅)
  rw [reap_bg_procs, reapLoop_alive (by decide) (by decide),
    reapLoop_dead (by decide) (by decide) (by decide),
    reapLoop_dead (by decide) (by decide) (by decide), reapLoop_end (by decide)] at h₅
  refine ⟨_, _, h₅, rfl, by decide, by decide, (bg_procs_tracked_iff h₅).2 ?_⟩
  intro p hp
  simp only [List.nil_append, List.cons_append, List.mem_cons, List.not_mem_nil, or_false] at hp
  rcases hp with rfl | rfl | rfl | rfl | rfl
  · trivial
  · trivial
  · trivial
  · trivial
  · refine ⟨fun j _ hj => ?_, fun j _ hj _ => .inl ?_⟩ <;>
      simp only [add_bg_procs, Sys.terminate, atPrompt] at hj
    · obtain rfl : j = 0 := by omega
      rintro (hz | ⟨l, -, hl, hdie⟩)
      · exact absurd hz (by decide)
      · obtain rfl : l = 0 := by omega
        exact absurd hdie (by decide)
    · obtain rfl : j = 1 := by omega
      decide

/-- Two children are started, the first one terminates and is reaped: the second one is lost, and
`exit` leaves it running. -/
theorem bg_proc_lost : ∃ s, shell.Reachable s ∧ ¬ s.Tracked ∧ (exit_ s).running = {11} := by
  have h₀ : shell.Reachable atPrompt := .init ⟨rfl, rfl, rfl⟩
  have h₁ := h₀.step (.start (fresh_atPrompt 10 (by decide)) (by decide))
  have h₂ := h₁.step (.start (fresh_start (fresh_atPrompt 11 (by decide)) (by decide))
    (by decide))
  have h₃ := h₂.step (.terminate (show (10 : ℤ) ∈ _ by decide))
  have h₄ := h₃.step (.reap fun _ => ∅)
  rw [reap_bg_procs, reapLoop_dead (by decide) (by decide) (by decide),
    reapLoop_alive (by decide) (by decide), reapLoop_end (by decide)] at h₄
  exact ⟨_, h₄, fun h => absurd ((h.2 11).2 (by decide)) (by decide), by decide⟩

end Shell
