/-
  Programs over a state that return a value or stop at a fault, and their weakest
  preconditions.
-/
import Mathlib.Tactic

namespace Prog

universe u
variable {ε σ α β : Type}

/-- A program over the state `σ`: it returns, or stops at a fault. -/
abbrev Program (ε σ α : Type) := StateT σ (Except ε) α

/-- Every outcome of `x` from `s` is good: a fault is in `E`, a result and the state it leaves
are in `Q`. -/
def wp (x : Program ε σ α) (s : σ) (E : ε → Prop) (Q : α → σ → Prop) : Prop :=
  match x.run s with
  | .ok (a, s') => Q a s'
  | .error e => E e

/-- The program returns `a` and leaves the state `s'`. -/
def Returns (x : Program ε σ α) (s : σ) (a : α) (s' : σ) : Prop := x.run s = .ok (a, s')

/-- The program stops at the fault `e`. -/
def Faults (x : Program ε σ α) (s : σ) (e : ε) : Prop := x.run s = .error e

instance [DecidableEq ε] (x : Program ε σ α) (s : σ) (e : ε) : Decidable (Faults x s e) :=
  match h : x.run s with
  | .ok _ => isFalse (by simp [Faults, h])
  | .error e' => decidable_of_iff (e' = e) (by simp [Faults, h])

/-- A run can be computed and its outcome tested. -/
instance {P : σ → Prop} [DecidableEq α] [DecidablePred P] (x : Program ε σ α) (s : σ) (a : α) :
    Decidable (∃ s', Returns x s a s' ∧ P s') :=
  match h : x.run s with
  | .ok (a', s') => decidable_of_iff (a' = a ∧ P s') (by simp [Returns, h])
  | .error _ => isFalse (by simp [Returns, h])

/-- A check that stops the program if it fails. -/
def assert (c : Prop) [Decidable c] (e : ε) : Program ε σ Unit := if c then pure () else throw e

/-- An index into an array of length `n`. -/
@[irreducible] def index (n : ℕ) (i : ℤ) (e : ε) : Program ε σ (Fin n) :=
  if h : 0 ≤ i ∧ i < n then pure ⟨i.toNat, by omega⟩ else throw e

/-- A program that works on a part of the state. -/
def zoom {τ : Type} (get : σ → τ) (set : τ → σ → σ) (x : Program ε τ α) : Program ε σ α := fun s =>
  match x (get s) with
  | .ok (a, t) => .ok (a, set t s)
  | .error e => .error e

/-- The loop `for (; i < n; i++) body(i)`. -/
def forTo (i n : ℤ) (body : ℤ → Program ε σ Unit) : Program ε σ Unit :=
  if i < n then do
    body i
    forTo (i + 1) n body
  else pure ()
termination_by (n - i).toNat

variable {x : Program ε σ α} {s : σ} {E : ε → Prop} {Q : α → σ → Prop}

theorem wp.returns (h : wp x s E Q) {a : α} {s' : σ} (hx : Returns x s a s') : Q a s' := by
  unfold wp at h; rw [hx] at h; exact h

theorem wp.faults (h : wp x s E Q) {e : ε} (hx : Faults x s e) : E e := by
  unfold wp at h; rw [hx] at h; exact h

theorem Returns.wp {a : α} {s' : σ} (hx : Returns x s a s') (h : Q a s') : wp x s E Q := by
  unfold Prog.wp; rw [hx]; exact h

theorem Faults.wp {e : ε} (hx : Faults x s e) (h : E e) : Prog.wp x s E Q := by
  unfold Prog.wp; rw [hx]; exact h

theorem Returns.det {a a' : α} {s₁ s₂ : σ} (h₁ : Returns x s a s₁) (h₂ : Returns x s a' s₂) :
    a = a' ∧ s₁ = s₂ := by
  have h := h₁.symm.trans h₂
  simpa using h

theorem Returns.bind {f : α → Program ε σ β} {a : α} {b : β} {s₁ s₂ : σ} (hx : Returns x s a s₁)
    (hf : Returns (f a) s₁ b s₂) : Returns (x >>= f) s b s₂ := by
  unfold Returns at hx ⊢
  rw [StateT.run_bind, hx]
  exact hf

theorem Returns.bind_inv {f : α → Program ε σ β} {b : β} {s' : σ} (h : Returns (x >>= f) s b s') :
    ∃ a s₁, Returns x s a s₁ ∧ Returns (f a) s₁ b s' := by
  unfold Returns at h
  rw [StateT.run_bind] at h
  rcases hx : x.run s with e | ⟨a, s₁⟩
  · rw [hx] at h
    cases h
  · rw [hx] at h
    exact ⟨a, s₁, hx, h⟩

theorem Returns.not_faults {a : α} {s' : σ} (hx : Returns x s a s') (e : ε) : ¬ Faults x s e := by
  intro he
  exact absurd (hx.symm.trans he) (by simp)

/-- A program returns or stops at a fault. -/
theorem returns_or_faults (x : Program ε σ α) (s : σ) :
    (∃ a s', Returns x s a s') ∨ ∃ e, Faults x s e := by
  rcases h : x.run s with e | ⟨a, s'⟩
  · exact Or.inr ⟨e, h⟩
  · exact Or.inl ⟨a, s', h⟩

/-- A program none of whose faults is allowed returns. -/
theorem wp.total (h : Prog.wp x s (fun _ => False) Q) : ∃ a s', Returns x s a s' ∧ Q a s' := by
  rcases returns_or_faults x s with ⟨a, s', hx⟩ | ⟨e, hx⟩
  · exact ⟨a, s', hx, h.returns hx⟩
  · exact (h.faults hx).elim

/-- A program that can only return `a` and leave `s'` does so. -/
theorem Returns.of_wp {a : α} {s' : σ}
    (h : Prog.wp x s (fun _ => False) fun a' t => a' = a ∧ t = s') : Returns x s a s' := by
  obtain ⟨_, _, hx, rfl, rfl⟩ := h.total
  exact hx

/-- A program that does not return stops at the one fault that is allowed. -/
theorem wp.faulted {e : ε} (h : Prog.wp x s (· = e) fun _ _ => False) : Faults x s e := by
  rcases returns_or_faults x s with ⟨a, s', hx⟩ | ⟨e', hx⟩
  · exact (h.returns hx).elim
  · rwa [h.faults hx] at hx

/-- With every fault allowed, nothing is asked of a program. -/
theorem wp_true : wp x s (fun _ => True) fun _ _ => True := by
  rcases returns_or_faults x s with ⟨a, s', hx⟩ | ⟨e, hx⟩
  exacts [hx.wp trivial, hx.wp trivial]

theorem wp_iff : wp x s E Q ↔
    (∀ a s', Returns x s a s' → Q a s') ∧ ∀ e, Faults x s e → E e := by
  refine ⟨fun h => ⟨fun _ _ hx => h.returns hx, fun _ hx => h.faults hx⟩, fun h => ?_⟩
  rcases returns_or_faults x s with ⟨a, s', hx⟩ | ⟨e, hx⟩
  · exact hx.wp (h.1 _ _ hx)
  · exact hx.wp (h.2 _ hx)

theorem wp.mono {E' : ε → Prop} {Q' : α → σ → Prop} (h : wp x s E Q) (hE : ∀ e, E e → E' e)
    (hQ : ∀ a s', Q a s' → Q' a s') : wp x s E' Q' :=
  wp_iff.2 ⟨fun _ _ hx => hQ _ _ (h.returns hx), fun _ hx => hE _ (h.faults hx)⟩

theorem wp.imp {Q' : α → σ → Prop} (h : wp x s E Q) (hQ : ∀ a s', Q a s' → Q' a s') :
    wp x s E Q' := h.mono (fun _ => id) hQ

theorem wp.and {Q' : α → σ → Prop} (h : wp x s E Q) (h' : wp x s E Q') :
    wp x s E fun a s' => Q a s' ∧ Q' a s' :=
  wp_iff.2 ⟨fun _ _ hx => ⟨h.returns hx, h'.returns hx⟩, fun _ hx => h.faults hx⟩

/-! ## One rule for each way to build a program -/

@[simp] theorem wp_pure {a : α} : wp (pure a : Program ε σ α) s E Q ↔ Q a s := Iff.rfl

@[simp] theorem wp_bind {f : α → Program ε σ β} {Q : β → σ → Prop} :
    wp (x >>= f) s E Q ↔ wp x s E fun a s' => wp (f a) s' E Q := by
  simp only [wp, StateT.run_bind]
  rcases x.run s with e | ⟨a, s'⟩ <;> rfl

@[simp] theorem wp_get {Q : σ → σ → Prop} : wp (get : Program ε σ σ) s E Q ↔ Q s s := Iff.rfl

@[simp] theorem wp_set {s' : σ} {Q : PUnit → σ → Prop} :
    wp (set s' : Program ε σ PUnit) s E Q ↔ Q ⟨⟩ s' := Iff.rfl

@[simp] theorem wp_modify {f : σ → σ} {Q : PUnit → σ → Prop} :
    wp (modify f : Program ε σ PUnit) s E Q ↔ Q ⟨⟩ (f s) := Iff.rfl

theorem wp_assert {c : Prop} [Decidable c] {e : ε} (hc : c) {Q : Unit → σ → Prop}
    (hQ : Q () s) : wp (assert c e) s E Q := by
  rw [assert, if_pos hc]; exact hQ

theorem wp_assert_not {c : Prop} [Decidable c] {e : ε} (hc : ¬ c) (hE : E e) {Q : Unit → σ → Prop} :
    wp (assert c e) s E Q := by
  rw [assert, if_neg hc]; exact hE

theorem wp_index {n : ℕ} {i : ℤ} {e : ε} (k : Fin n) (hi : i = (k : ℕ)) {Q : Fin n → σ → Prop}
    (hQ : Q k s) : wp (index n i e) s E Q := by
  subst hi
  rw [index, dif_pos ⟨by omega, by exact_mod_cast k.2⟩]
  exact hQ

theorem wp_zoom {τ : Type} {get : σ → τ} {set : τ → σ → σ} {x : Program ε τ α} :
    wp (zoom get set x) s E Q ↔ wp x (get s) E fun a t => Q a (set t s) := by
  simp only [wp, zoom, StateT.run]
  cases x (get s) <;> rfl

/-- A loop over a list keeps an invariant of the elements still to come. -/
theorem wp_forM {f : β → Program ε σ PUnit} {I : List β → σ → Prop}
    (hstep : ∀ b bs s, I (b :: bs) s → wp (f b) s E fun _ s' => I bs s') :
    ∀ {l : List β} {s : σ}, I l s → wp (l.forM f) s E fun _ s' => I [] s'
  | [], _, h => h
  | b :: bs, s, h => by
    change wp (f b >>= fun _ => bs.forM f) s E _
    rw [wp_bind]
    exact (hstep b bs s h).imp fun _ _ => wp_forM hstep

/-- A loop over a list does for every element what its body does for one and keeps for the
others. -/
theorem wp_forM_all {f : β → Program ε σ PUnit} {J : σ → Prop} {P : β → σ → Prop} {l : List β}
    {s : σ} (h : J s) (hstep : ∀ b s, J s →
      wp (f b) s E fun _ s' => J s' ∧ P b s' ∧ ∀ c, P c s → P c s') :
    wp (l.forM f) s E fun _ s' => J s' ∧ ∀ b ∈ l, P b s' := by
  refine (wp_forM (I := fun bs s => J s ∧ ∀ b ∈ l, b ∉ bs → P b s) ?_
    ⟨h, fun b hb hno => absurd hb hno⟩).imp ?_
  · rintro b bs s ⟨hJ, hP⟩
    refine (hstep b s hJ).imp ?_
    rintro ⟨⟩ s' ⟨hJ', hb, hkeep⟩
    refine ⟨hJ', fun c hc hno => ?_⟩
    by_cases hcb : c = b
    · rw [hcb]; exact hb
    · exact hkeep c (hP c hc (by simp [hcb, hno]))
  · rintro ⟨⟩ s' ⟨hJ, hP⟩
    exact ⟨hJ, fun b hb => hP b hb List.not_mem_nil⟩

/-- A counting loop keeps an invariant of the counter. -/
theorem wp_forTo {body : ℤ → Program ε σ Unit} {n : ℤ} {I : ℤ → σ → Prop} {i : ℤ} {s : σ}
    (hin : i ≤ n) (h : I i s)
    (hstep : ∀ j s, i ≤ j → j < n → I j s → wp (body j) s E fun _ s' => I (j + 1) s') :
    wp (forTo i n body) s E fun _ s' => I n s' := by
  rw [forTo]
  split
  · next hlt =>
    rw [wp_bind]
    refine (hstep i s le_rfl hlt h).imp fun _ s' h' => ?_
    exact wp_forTo (by omega) h' fun j t hj => hstep j t (by omega)
  · next hge =>
    obtain rfl : i = n := by omega
    exact h
termination_by (n - i).toNat

theorem wp_ite {c : Prop} [Decidable c] {y : Program ε σ α} :
    wp (if c then x else y) s E Q ↔ (c → wp x s E Q) ∧ (¬ c → wp y s E Q) := by
  split <;> simp_all

/-! ## Programs that change nothing -/

/-- Where the program returns, the state is the one it started in. -/
def Reads (x : Program ε σ α) : Prop := ∀ s, wp x s (fun _ => True) fun _ s' => s' = s

namespace Reads
variable {y : Program ε σ α} {f : α → Program ε σ β}

theorem pure (a : α) : Reads (Pure.pure a : Program ε σ α) := fun _ => rfl

theorem throw (e : ε) : Reads (MonadExcept.throw e : Program ε σ α) := fun _ => trivial

theorem get : Reads (MonadState.get : Program ε σ σ) := fun _ => rfl

theorem bind (hx : Reads x) (hf : ∀ a, Reads (f a)) : Reads (x >>= f) := by
  intro s
  rw [wp_bind]
  refine (hx s).imp fun a s' hs' => ?_
  rw [hs']
  exact hf a s

theorem ite {c : Prop} [Decidable c] (hx : c → Reads x) (hy : ¬ c → Reads y) :
    Reads (if c then x else y) := fun s => wp_ite.2 ⟨fun h => hx h s, fun h => hy h s⟩

theorem dite {c : Prop} [Decidable c] {x : c → Program ε σ α} {y : ¬ c → Program ε σ α}
    (hx : ∀ h, Reads (x h)) (hy : ∀ h, Reads (y h)) : Reads (if h : c then x h else y h) := by
  split
  exacts [hx _, hy _]

theorem assert {c : Prop} [Decidable c] {e : ε} : Reads (Prog.assert c e : Program ε σ Unit) :=
  .ite (fun _ => .pure _) fun _ => .throw _

theorem index {n : ℕ} {i : ℤ} {e : ε} : Reads (Prog.index n i e : Program ε σ (Fin n)) := by
  unfold Prog.index
  exact .dite (fun _ => .pure _) fun _ => .throw _

end Reads

/-- A loop whose body delivers something and changes nothing. -/
theorem Returns.mapM {f : α → Program ε σ β} {g : α → β} {s : σ} :
    ∀ {l : List α}, (∀ a ∈ l, Returns (f a) s (g a) s) → Returns (l.mapM f) s (l.map g) s
  | [], _ => rfl
  | a :: l, h => by
    rw [List.mapM_cons, List.map_cons]
    refine (h a List.mem_cons_self).bind (Returns.bind (Returns.mapM fun b hb => ?_) rfl)
    exact h b (List.mem_cons_of_mem a hb)

/-! ## Programs that do not stop at a given fault -/

/-- From no state does the program stop at the fault `e`, and its results have the property `P`. -/
def Avoids (e : ε) (x : Program ε σ α) (P : α → Prop) : Prop :=
  ∀ s, wp x s (· ≠ e) fun a _ => P a

namespace Avoids
variable {e : ε} {P : α → Prop} {f : α → Program ε σ β} {R : β → Prop}

theorem pure {a : α} (h : P a) : Avoids e (Pure.pure a : Program ε σ α) P := fun _ => h

theorem throw {e' : ε} (h : e' ≠ e) : Avoids e (MonadExcept.throw e' : Program ε σ α) P :=
  fun _ => h

theorem get : Avoids e (MonadState.get : Program ε σ σ) fun _ => True := fun _ => trivial

theorem set {s : σ} : Avoids e (MonadStateOf.set s : Program ε σ PUnit) fun _ => True :=
  fun _ => trivial

theorem modify {g : σ → σ} : Avoids e (modify g : Program ε σ PUnit) fun _ => True :=
  fun _ => trivial

theorem bind (hx : Avoids e x P) (hf : ∀ a, P a → Avoids e (f a) R) : Avoids e (x >>= f) R := by
  intro s
  rw [wp_bind]
  exact (hx s).imp fun a s' ha => hf a ha s'

/-- Nothing is known of the result of the first program. -/
theorem andThen (hx : Avoids e x fun _ => True) (hf : ∀ a, Avoids e (f a) R) :
    Avoids e (x >>= f) R := hx.bind fun a _ => hf a

theorem ite {c : Prop} [Decidable c] {y : Program ε σ α} (hx : c → Avoids e x P)
    (hy : ¬ c → Avoids e y P) : Avoids e (if c then x else y) P :=
  fun s => wp_ite.2 ⟨fun h => hx h s, fun h => hy h s⟩

theorem imp {P' : α → Prop} (hx : Avoids e x P) (h : ∀ a, P a → P' a) : Avoids e x P' :=
  fun s => (hx s).imp fun a _ => h a

theorem assert {c : Prop} [Decidable c] {e' : ε} (h : e' ≠ e) :
    Avoids e (Prog.assert c e' : Program ε σ Unit) fun _ => True :=
  .ite (fun _ => .pure trivial) fun _ => .throw h

theorem index {n : ℕ} {i : ℤ} {e' : ε} (h : e' ≠ e) :
    Avoids e (Prog.index n i e' : Program ε σ (Fin n)) fun _ => True := by
  intro s
  unfold Prog.index
  split
  · trivial
  · exact h

theorem forM {f : β → Program ε σ PUnit} {l : List β} (h : ∀ b, Avoids e (f b) fun _ => True) :
    Avoids e (l.forM f) fun _ => True :=
  fun _ => (wp_forM (I := fun _ _ => True) (fun b _ s _ => h b s) trivial).imp fun _ _ _ => trivial

end Avoids

end Prog
