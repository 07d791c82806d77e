/-
  Labelled transition systems: runs, reachable states, inductive invariants,
  history variables, and trace inclusion by simulation.
-/
import Mathlib.Algebra.BigOperators.Group.List.Basic
import Mathlib.Logic.Relation
import Mathlib.Order.Defs.PartialOrder
import Mathlib.Data.List.Induction

namespace Runs

universe u v w
variable {σ : Type u} {Λ : Type v} {γ : Type w}

/-- Each entry of a list has the property `P` with respect to the entries before it. -/
def Along {α : Type u} (P : List α → α → Prop) (l : List α) : Prop :=
  ∀ pre x post, l = pre ++ x :: post → P pre x

theorem Along.nil {α : Type u} {P : List α → α → Prop} : Along P [] := by
  intro pre x post h
  exact absurd h (by simp)

theorem Along.snoc {α : Type u} {P : List α → α → Prop} {l : List α} {x : α} (h : Along P l)
    (hx : P l x) : Along P (l ++ [x]) := by
  intro pre y post he
  rcases List.eq_nil_or_concat post with rfl | ⟨post, z, rfl⟩
  · obtain ⟨rfl, hy⟩ := List.append_inj' he rfl
    obtain rfl : x = y := by simpa using hy
    exact hx
  · rw [List.concat_eq_append, ← List.cons_append, ← List.append_assoc] at he
    exact h pre y post (List.append_inj' he rfl).1

/-- A labelled transition system: its initial states and its steps. -/
structure LTS (σ : Type u) (Λ : Type v) where
  init : σ → Prop
  step : σ → Λ → σ → Prop

namespace LTS

/-- The runs: `Run A tr s` if the labels `tr`, in order, lead from an initial state to `s`. -/
inductive Run (A : LTS σ Λ) : List Λ → σ → Prop
  | init {s} : A.init s → Run A [] s
  | step {tr s l s'} : Run A tr s → A.step s l s' → Run A (tr ++ [l]) s'

/-- The states some run ends in. -/
def Reachable (A : LTS σ Λ) (s : σ) : Prop := ∃ tr, A.Run tr s

variable {A : LTS σ Λ}

theorem Reachable.init {s : σ} (h : A.init s) : A.Reachable s := ⟨[], .init h⟩

theorem Reachable.step {s s' : σ} {l : Λ} (h : A.Reachable s) (hs : A.step s l s') :
    A.Reachable s' := by
  obtain ⟨tr, h⟩ := h; exact ⟨_, h.step hs⟩

/-- A property of the history and the state that every step keeps holds of every run. -/
theorem Run.invariant {I : List Λ → σ → Prop} (h₀ : ∀ s, A.init s → I [] s)
    (hstep : ∀ tr s l s', I tr s → A.step s l s' → I (tr ++ [l]) s') {tr : List Λ} {s : σ}
    (h : A.Run tr s) : I tr s := by
  induction h with
  | init hs => exact h₀ _ hs
  | step _ hs ih => exact hstep _ _ _ _ ih hs

/-- An inductive invariant holds of every reachable state. -/
theorem Reachable.invariant {I : σ → Prop} (h₀ : ∀ s, A.init s → I s)
    (hstep : ∀ s l s', I s → A.step s l s' → I s') {s : σ} (h : A.Reachable s) : I s := by
  obtain ⟨tr, h⟩ := h
  exact h.invariant (I := fun _ s => I s) h₀ fun _ => hstep

/-- An invariant whose steps may rely on the state being reachable. -/
theorem Reachable.induct {I : σ → Prop} (h₀ : ∀ s, A.init s → I s)
    (hstep : ∀ s l s', A.Reachable s → I s → A.step s l s' → I s') {s : σ} (h : A.Reachable s) :
    I s := by
  refine (h.invariant (I := fun s => A.Reachable s ∧ I s) ?_ ?_).2
  · intro s hs
    exact ⟨.init hs, h₀ s hs⟩
  · rintro s l s' ⟨hr, hI⟩ hs
    exact ⟨hr.step hs, hstep s l s' hr hI hs⟩

/-- The last step of a run. -/
theorem Run.snoc_inv {tr : List Λ} {l : Λ} {s' : σ} (h : A.Run (tr ++ [l]) s') :
    ∃ s, A.Run tr s ∧ A.step s l s' := by
  generalize he : tr ++ [l] = tr' at h
  cases h with
  | init => simp at he
  | step h hs =>
    obtain ⟨rfl, hl⟩ := List.append_inj' he rfl
    obtain rfl : l = _ := by simpa using hl
    exact ⟨_, h, hs⟩

theorem Run.nil_inv {s : σ} (h : A.Run [] s) : A.init s := by
  generalize he : ([] : List Λ) = tr at h
  cases h with
  | init h => exact h
  | step => simp at he

/-- The steps of `A` that meet a condition on the state before and the label. -/
def guard (A : LTS σ Λ) (G : σ → Λ → Prop) : LTS σ Λ where
  init := A.init
  step s l s' := G s l ∧ A.step s l s'

/-- The steps of `A` that meet a condition. -/
def restrict (A : LTS σ Λ) (G : σ → Λ → σ → Prop) : LTS σ Λ where
  init := A.init
  step s l s' := A.step s l s' ∧ G s l s'

/-- `A` with a history variable, which starts as `g₀` and which each step updates. -/
def history (A : LTS σ Λ) (g₀ : γ) (next : γ → σ → Λ → γ) : LTS (σ × γ) Λ where
  init s := A.init s.1 ∧ s.2 = g₀
  step s l s' := A.step s.1 l s'.1 ∧ s'.2 = next s.2 s.1 l

/-- Runs go on from `s` without a state after it that has the property `Q`. -/
inductive Until (A : LTS σ Λ) (Q : σ → Prop) (s : σ) : σ → Prop
  | refl : Until A Q s s
  | step {t l u} : Until A Q s t → A.step t l u → ¬ Q u → Until A Q s u

theorem Reachable.until {Q : σ → Prop} {s t : σ} (h : A.Reachable s) (hu : A.Until Q s t) :
    A.Reachable t := by
  induction hu with
  | refl => exact h
  | step _ hs _ ih => exact ih.step hs

/-- The runs of a restricted system are runs. -/
theorem Reachable.of_restrict {G : σ → Λ → σ → Prop} {s : σ} (h : (A.restrict G).Reachable s) :
    A.Reachable s := by
  refine h.invariant (I := A.Reachable) ?_ ?_
  · intro s hs
    exact .init hs
  · rintro s l s' hr ⟨hs, -⟩
    exact hr.step hs

/-- The runs of a guarded system are runs. -/
theorem Reachable.of_guard {G : σ → Λ → Prop} {s : σ} (h : (A.guard G).Reachable s) :
    A.Reachable s := by
  refine h.invariant (I := A.Reachable) ?_ ?_
  · intro s hs
    exact .init hs
  · rintro s l s' hr ⟨-, hs⟩
    exact hr.step hs

theorem Until.of_restrict {G : σ → Λ → σ → Prop} {Q : σ → Prop} {s t : σ}
    (h : (A.restrict G).Until Q s t) : A.Until Q s t := by
  induction h with
  | refl => exact .refl
  | step _ hs hno ih => exact ih.step hs.1 hno

/-! ## Executions -/

/-- A run with the state before each of its steps. -/
inductive Exec (A : LTS σ Λ) : List (σ × Λ) → σ → Prop
  | init {s} : A.init s → Exec A [] s
  | step {xs s l s'} : Exec A xs s → A.step s l s' → Exec A (xs ++ [(s, l)]) s'

theorem Exec.reachable {xs : List (σ × Λ)} {s : σ} (h : A.Exec xs s) : A.Reachable s := by
  induction h with
  | init h => exact .init h
  | step _ hs ih => exact ih.step hs

/-- The steps of an execution start in reachable states. -/
theorem Exec.reachable_of_mem {xs : List (σ × Λ)} {s : σ} (h : A.Exec xs s) :
    ∀ p ∈ xs, A.Reachable p.1 := by
  induction h with
  | init h =>
    intro p hp
    exact absurd hp List.not_mem_nil
  | step h hs ih =>
    intro p hp
    rcases List.mem_append.1 hp with hp | hp
    · exact ih p hp
    · rw [List.mem_singleton.1 hp]
      exact h.reachable

/-- The steps of an execution are steps of the system. -/
theorem Exec.step_of_mem {xs : List (σ × Λ)} {s : σ} (h : A.Exec xs s) :
    ∀ p ∈ xs, ∃ s', A.step p.1 p.2 s' := by
  induction h with
  | init h =>
    intro p hp
    exact absurd hp List.not_mem_nil
  | step h hs ih =>
    intro p hp
    rcases List.mem_append.1 hp with hp | hp
    · exact ih p hp
    · rw [List.mem_singleton.1 hp]
      exact ⟨_, hs⟩

/-- The states an execution passes through. -/
def states (xs : List (σ × Λ)) (s : σ) : List σ := xs.map Prod.fst ++ [s]

theorem Exec.reachable_of_states {xs : List (σ × Λ)} {s : σ} (h : A.Exec xs s) :
    ∀ t ∈ states xs s, A.Reachable t := by
  intro t ht
  rcases List.mem_append.1 ht with ht | ht
  · obtain ⟨p, hp, rfl⟩ := List.mem_map.1 ht
    exact h.reachable_of_mem p hp
  · rw [List.mem_singleton.1 ht]
    exact h.reachable

/-- A quantity to which each step adds is the sum of what the steps add. -/
theorem Exec.sum_eq {α : Type w} [AddMonoid α] {f : σ → α} {g : σ × Λ → α}
    (h₀ : ∀ s, A.init s → f s = 0)
    (hstep : ∀ s l s', A.Reachable s → A.step s l s' → f s' = f s + g (s, l))
    {xs : List (σ × Λ)} {s : σ} (h : A.Exec xs s) : f s = (xs.map g).sum := by
  induction h with
  | init h => exact h₀ _ h
  | step h hs ih =>
    rw [hstep _ _ _ h.reachable hs, ih, List.map_append, List.sum_append, List.map_singleton,
      List.sum_singleton]

/-- A quantity that only the steps with the property `P` raise, by one each, counts them. -/
theorem Exec.countP_eq {f : σ → ℕ} {P : σ × Λ → Prop} [DecidablePred P]
    (h₀ : ∀ s, A.init s → f s = 0)
    (hstep : ∀ s l s', A.Reachable s → A.step s l s' → f s' = f s + if P (s, l) then 1 else 0)
    {xs : List (σ × Λ)} {s : σ} (h : A.Exec xs s) : f s = xs.countP fun p => P p := by
  induction h with
  | init h => exact h₀ _ h
  | step h hs ih =>
    rw [hstep _ _ _ h.reachable hs, ih, List.countP_append, List.countP_singleton]
    simp only [decide_eq_true_eq]

/-- A quantity that no step lowers is at its largest in the end. -/
theorem Exec.le_of_mem {α : Type w} [Preorder α] {f : σ → α}
    (hstep : ∀ s l s', A.Reachable s → A.step s l s' → f s ≤ f s') {xs : List (σ × Λ)} {s : σ}
    (h : A.Exec xs s) : ∀ p ∈ xs, f p.1 ≤ f s := by
  induction h with
  | init h =>
    intro p hp
    exact absurd hp List.not_mem_nil
  | step h hs ih =>
    intro p hp
    have hlast := hstep _ _ _ h.reachable hs
    rcases List.mem_append.1 hp with hp | hp
    · exact le_trans (ih p hp) hlast
    · rwa [List.mem_singleton.1 hp]

/-- `G` describes the states that steps within `C` lead to, each of which has the property `P`,
and a step outside of `C` leads out of `P` at once. -/
theorem Exec.all_iff {G P : σ → Prop} {C : σ → Λ → Prop} (h₀ : ∀ s, A.init s → G s)
    (hG : ∀ s, G s → P s) (hstep : ∀ s l s', G s → C s l → A.step s l s' → G s')
    (hbad : ∀ s l s', G s → ¬ C s l → A.step s l s' → ¬ P s') {xs : List (σ × Λ)} {s : σ}
    (h : A.Exec xs s) :
    ((∀ t ∈ states xs s, P t) ↔ ∀ p ∈ xs, C p.1 p.2) ∧ ((∀ p ∈ xs, C p.1 p.2) → G s) := by
  induction h with
  | init h => exact ⟨by simp [states, hG _ (h₀ _ h)], fun _ => h₀ _ h⟩
  | @step xs s l s' _ hs ih =>
    obtain ⟨ih, ihG⟩ := ih
    simp only [states, List.mem_append, List.mem_map, List.mem_singleton, List.map_append,
      List.map_cons, List.map_nil, or_imp, forall_and, forall_eq] at ih ⊢
    refine ⟨⟨fun ⟨hP, hP'⟩ => ?_, fun ⟨hC, hl⟩ => ?_⟩, fun ⟨hC, hl⟩ => ?_⟩
    · have hC := ih.1 hP
      exact ⟨hC, by_contra fun hl => hbad _ _ _ (ihG hC) hl hs hP'⟩
    · exact ⟨ih.2 hC, hG _ (hstep _ _ _ (ihG hC) hl hs)⟩
    · exact hstep _ _ _ (ihG hC) hl hs

/-! ## Simulation -/

variable {τ : Type w} {B : LTS τ Λ}

/-- The client of `B` is legal along `tr`: each label meets the precondition `G` in the states
of `B` that the labels before it lead to. -/
def Legal (B : LTS τ Λ) (G : τ → Λ → Prop) (tr : List Λ) : Prop :=
  ∀ pre l post, tr = pre ++ l :: post → ∀ b, B.Run pre b → G b l

theorem Legal.init {G : τ → Λ → Prop} {tr : List Λ} {l : Λ} (h : B.Legal G (tr ++ [l])) :
    B.Legal G tr := by
  rintro pre l' post rfl b hb
  exact h pre l' (post ++ [l]) (by simp) b hb

theorem Legal.nil {G : τ → Λ → Prop} : B.Legal G [] := by
  intro pre l post h
  exact absurd h (by simp)

theorem Legal.snoc {G : τ → Λ → Prop} {tr : List Λ} {l : Λ} (h : B.Legal G tr)
    (hl : ∀ b, B.Run tr b → G b l) : B.Legal G (tr ++ [l]) := by
  intro pre l' post he b hb
  rcases List.eq_nil_or_concat post with rfl | ⟨post, m, rfl⟩
  · obtain ⟨rfl, hl'⟩ := List.append_inj' he rfl
    obtain rfl : l = l' := by simpa using hl'
    exact hl b hb
  · rw [List.concat_eq_append, ← List.cons_append, ← List.append_assoc] at he
    exact h pre l' post (List.append_inj' he rfl).1 b hb

/-- A relation that the initial states and the steps of legal clients keep makes every legal run
of `A` a run of `B`. -/
theorem Run.simulate {R : σ → τ → Prop} {G : τ → Λ → Prop}
    (h₀ : ∀ s, A.init s → ∃ b, B.init b ∧ R s b)
    (hstep : ∀ s b l s', R s b → G b l → A.step s l s' → ∃ b', B.step b l b' ∧ R s' b')
    {tr : List Λ} {s : σ} (h : A.Run tr s) (hG : B.Legal G tr) : ∃ b, B.Run tr b ∧ R s b := by
  induction h with
  | init h =>
    obtain ⟨b, hb, hR⟩ := h₀ _ h
    exact ⟨b, .init hb, hR⟩
  | @step tr s l s' _ hs ih =>
    obtain ⟨b, hb, hR⟩ := ih hG.init
    obtain ⟨b', hb', hR'⟩ := hstep _ _ _ _ hR (hG tr l [] rfl b hb) hs
    exact ⟨b', hb.step hb', hR'⟩

end LTS

end Runs
