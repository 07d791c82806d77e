/-
  `pipes_ex1.c`: a parent sends its numbers through a pipe to a child, which multiplies them and
  sends the product back through another pipe.  The child calls `read` once: it gets what is in
  the pipe by then, and the rest of its array stays as `malloc` left it.

  `product_sent_iff`: the child multiplies the numbers of the parent in every run if and only if
  their bytes are no more than a pipe takes at once.
-/
import OSModules.Lib.CInt
import OSModules.Lib.Runs

namespace Pipes

open Runs CInt

/-! ## Numbers -/

/-- The bytes of an array of `int`. -/
def bytes (arr : List ℤ) : List UInt8 :=
  arr.flatMap fun x => [leByte x 0, leByte x 1, leByte x 2, leByte x 3]

/-- The array of `int` that the bytes are. -/
def ints : List UInt8 → List ℤ
  | a :: b :: c :: d :: rest => ofBytes (fun k => [a, b, c, d].getD k 0) :: ints rest
  | _ => []

theorem length_bytes (arr : List ℤ) : (bytes arr).length = 4 * arr.length := by
  induction arr with
  | nil => rfl
  | cons x arr ih =>
    rw [bytes, List.flatMap_cons, List.length_append, ← bytes, ih, List.length_cons]
    simp only [List.length_cons, List.length_nil]
    omega

theorem ints_bytes {arr : List ℤ} (h : ∀ x ∈ arr, InInt x) : ints (bytes arr) = arr := by
  induction arr with
  | nil => rfl
  | cons x arr ih =>
    have hx := h x List.mem_cons_self
    rw [bytes, List.flatMap_cons, ← bytes]
    simp only [List.cons_append, List.nil_append, ints]
    rw [ih fun y hy => h y (List.mem_cons_of_mem _ hy), ofBytes_eq hx]
    intro k hk
    interval_cases k <;> rfl

/-- The values a `long long` can hold. -/
def InLong (x : ℤ) : Prop := -9223372036854775808 ≤ x ∧ x ≤ 9223372036854775807

instance (x : ℤ) : Decidable (InLong x) := inferInstanceAs (Decidable (_ ∧ _))

/-- The loop of the child, whose behaviour is undefined if a product does not fit. -/
def product (prod : ℤ) : List ℤ → Option ℤ
  | [] => some prod
  | x :: arr => if InLong (prod * x) then product (prod * x) arr else none

theorem product_eq {prod q : ℤ} {arr : List ℤ} (h : product prod arr = some q) :
    q = prod * arr.prod := by
  induction arr generalizing prod with
  | nil =>
    cases h
    simp
  | cons x arr ih =>
    rw [product] at h
    split at h
    · rw [ih h, List.prod_cons, mul_assoc]
    · cases h

/-! ## The two processes -/

/-- What a pipe takes at once, and what it holds. -/
structure Limits where
  PIPE_BUF : ℕ
  capacity : ℕ
  pos : 0 < PIPE_BUF
  le : PIPE_BUF ≤ capacity

/-- The parent has still to write bytes, waits for the product, prints it, and is done; or it has
written to a pipe that nobody reads. -/
inductive Parent
  | write (rest : List UInt8)
  | read
  | print (prod : ℤ)
  | done (printed : ℤ)
  | killed

/-- The child waits for the numbers, multiplies them, sends the product, and is done. -/
inductive Child
  | read
  | multiply (arr : List UInt8)
  | overflow
  | write (prod : ℤ)
  | done
  | killed

/-- The parent has closed its ends of the pipes. -/
def Parent.Closed : Parent → Prop
  | done _ | killed => True
  | _ => False

/-- The child has closed its ends of the pipes. -/
def Child.Closed : Child → Prop
  | done | killed => True
  | _ => False

structure State where
  fd1 : List UInt8
  fd2 : List ℤ
  parent : Parent
  child : Child

inductive Role
  | parent
  | child

variable (L : Limits) (numbers : List ℤ) (heap : List UInt8) (junk : ℤ)

/-- A step of one of the processes. The array of the child is `heap` and the product of the parent
is `junk` before they are set. A product is small enough to be written at once. -/
inductive Step : State → Role → State → Prop
  | write_end {s} : s.parent = .write [] → Step s .parent { s with parent := .read }
  | write_whole {s rest} : s.parent = .write rest → rest ≠ [] → ¬ s.child.Closed →
      4 * numbers.length ≤ L.PIPE_BUF → s.fd1.length + rest.length ≤ L.capacity →
      Step s .parent { s with fd1 := s.fd1 ++ rest, parent := .read }
  | write_part {s rest k} : s.parent = .write rest → 0 < k → k ≤ rest.length →
      ¬ s.child.Closed → L.PIPE_BUF < 4 * numbers.length → s.fd1.length + k ≤ L.capacity →
      Step s .parent { s with fd1 := s.fd1 ++ rest.take k, parent := .write (rest.drop k) }
  | write_sigpipe {s rest} : s.parent = .write rest → rest ≠ [] → s.child.Closed →
      Step s .parent { s with parent := .killed }
  | read {s prod rest} : s.parent = .read → s.fd2 = prod :: rest →
      Step s .parent { s with fd2 := rest, parent := .print prod }
  | read_end {s} : s.parent = .read → s.fd2 = [] → s.child.Closed →
      Step s .parent { s with parent := .print junk }
  | print {s prod} : s.parent = .print prod → Step s .parent { s with parent := .done prod }
  | receive {s} : s.child = .read → (s.fd1 ≠ [] ∨ numbers.length = 0 ∨ s.parent.Closed) →
      Step s .child { s with
        fd1 := s.fd1.drop (4 * numbers.length)
        child := .multiply (s.fd1.take (4 * numbers.length) ++
          heap.drop (s.fd1.take (4 * numbers.length)).length) }
  | multiply {s arr prod} : s.child = .multiply arr → product 1 (ints arr) = some prod →
      Step s .child { s with child := .write prod }
  | overflow {s arr} : s.child = .multiply arr → product 1 (ints arr) = none →
      Step s .child { s with child := .overflow }
  | send {s prod} : s.child = .write prod → ¬ s.parent.Closed →
      Step s .child { s with fd2 := s.fd2 ++ [prod], child := .done }
  | send_sigpipe {s prod} : s.child = .write prod → s.parent.Closed →
      Step s .child { s with child := .killed }

/-- All interleavings, from the `fork` on. -/
def pipes : LTS State Role where
  init s := s = ⟨[], [], .write (bytes numbers), .read⟩
  step := Step L numbers heap junk

variable {L numbers heap junk}

/-! ## Numbers that are written at once -/

/-- The parent waits for the product, or is about to, having had nothing to write. -/
def Waits (numbers : List ℤ) (p : Parent) : Prop := p = .read ∨ (numbers = [] ∧ p = .write [])

/-- The states of runs in which the numbers are written at once. -/
inductive Whole (numbers : List ℤ) : State → Prop
  | start : Whole numbers ⟨[], [], .write (bytes numbers), .read⟩
  | written : Whole numbers ⟨bytes numbers, [], .read, .read⟩
  | received {p} : Waits numbers p → Whole numbers ⟨[], [], p, .multiply (bytes numbers)⟩
  | overflow {p} : Waits numbers p → product 1 numbers = none → Whole numbers ⟨[], [], p, .overflow⟩
  | multiplied {p q} : Waits numbers p → product 1 numbers = some q →
      Whole numbers ⟨[], [], p, .write q⟩
  | sent {p q} : Waits numbers p → product 1 numbers = some q → Whole numbers ⟨[], [q], p, .done⟩
  | got {q} : product 1 numbers = some q → Whole numbers ⟨[], [], .print q, .done⟩
  | done {q} : product 1 numbers = some q → Whole numbers ⟨[], [], .done q, .done⟩

theorem bytes_eq_nil : bytes numbers = [] ↔ numbers = [] := by
  rw [← List.length_eq_zero_iff, length_bytes, ← List.length_eq_zero_iff]
  omega

/-- A parent that has nothing to write goes on. -/
theorem Step.of_write_nil {s s' : State} (h : s.parent = .write [])
    (hs : Step L numbers heap junk s .parent s') : s' = { s with parent := .read } := by
  cases hs with
  | write_end => rfl
  | write_whole hp hne =>
    cases h.symm.trans hp
    exact absurd rfl hne
  | write_part hp hpos hle =>
    cases h.symm.trans hp
    rw [List.length_nil] at hle
    omega
  | write_sigpipe hp hne =>
    cases h.symm.trans hp
    exact absurd rfl hne
  | read hp | read_end hp | print hp => cases h.symm.trans hp

/-- While the child works, a parent that waits goes on to wait. -/
theorem Waits.parent {s s' : State} (h : Waits numbers s.parent)
    (hfd : s.fd2 = []) (hc : ¬ s.child.Closed) (hs : Step L numbers heap junk s .parent s') :
    s' = { s with parent := .read } := by
  rcases h with h | ⟨-, h⟩
  · cases hs with
    | read _ hread => cases hfd.symm.trans hread
    | read_end _ _ hclosed => exact absurd hclosed hc
    | write_end hp | write_whole hp | write_part hp | write_sigpipe hp | print hp =>
      cases h.symm.trans hp
  · exact hs.of_write_nil h

theorem Whole.step {s s' : State} {r : Role} (h : Whole numbers s)
    (hint : ∀ x ∈ numbers, InInt x) (hheap : heap.length = 4 * numbers.length)
    (hfits : 4 * numbers.length ≤ L.PIPE_BUF) (hs : Step L numbers heap junk s r s') :
    Whole numbers s' := by
  have hwait : Waits numbers .read := Or.inl rfl
  cases h with
  | start =>
    cases hs with
    | write_end hp =>
      have hnil := bytes_eq_nil.1 (Parent.write.inj hp)
      subst hnil
      exact .written
    | write_whole hp =>
      cases hp
      exact .written
    | write_part _ _ _ _ hlt => omega
    | write_sigpipe _ _ hclosed => exact hclosed.elim
    | receive _ hor =>
      obtain hne | hnil | hclosed := hor
      · exact absurd rfl hne
      · obtain rfl := List.length_eq_zero_iff.1 hnil
        obtain rfl := List.length_eq_zero_iff.1 hheap
        exact .received (Or.inr ⟨rfl, rfl⟩)
      · exact hclosed.elim
    | _ => contradiction
  | written =>
    cases r with
    | parent =>
      rw [hwait.parent rfl id hs]
      exact .written
    | child =>
      cases hs with
      | receive =>
        have hlen := length_bytes numbers
        have htake : (bytes numbers).take (4 * numbers.length) = bytes numbers :=
          List.take_of_length_le hlen.le
        have hdrop : (bytes numbers).drop (4 * numbers.length) = [] :=
          List.drop_of_length_le hlen.le
        have hrest : heap.drop (bytes numbers).length = [] :=
          List.drop_of_length_le (by omega)
        simp only [htake, hdrop, hrest, List.append_nil]
        exact .received hwait
      | _ => contradiction
  | received hp =>
    cases r with
    | parent =>
      rw [hp.parent rfl id hs]
      exact .received hwait
    | child =>
      cases hs with
      | multiply hc hq =>
        cases hc
        rw [ints_bytes hint] at hq
        exact .multiplied hp hq
      | overflow hc hq =>
        cases hc
        rw [ints_bytes hint] at hq
        exact .overflow hp hq
      | _ => contradiction
  | overflow hp hq =>
    cases r with
    | parent =>
      rw [hp.parent rfl id hs]
      exact .overflow hwait hq
    | child => cases hs <;> contradiction
  | multiplied hp hq =>
    cases r with
    | parent =>
      rw [hp.parent rfl id hs]
      exact .multiplied hwait hq
    | child =>
      cases hs with
      | send hc =>
        cases hc
        exact .sent hp hq
      | send_sigpipe _ hclosed =>
        rcases hp with rfl | ⟨-, rfl⟩ <;> exact hclosed.elim
      | _ => contradiction
  | sent hp hq =>
    cases r with
    | parent =>
      rcases hp with rfl | ⟨-, rfl⟩
      · cases hs with
        | read _ hread =>
          cases hread
          exact .got hq
        | _ => contradiction
      · rw [hs.of_write_nil rfl]
        exact .sent hwait hq
    | child => cases hs <;> contradiction
  | got hq =>
    cases hs with
    | print hp =>
      cases hp
      exact .done hq
    | _ => contradiction
  | done hq => cases hs <;> contradiction

theorem whole_of_reachable {s : State} (hint : ∀ x ∈ numbers, InInt x)
    (hheap : heap.length = 4 * numbers.length) (hfits : 4 * numbers.length ≤ L.PIPE_BUF)
    (hs : (pipes L numbers heap junk).Reachable s) : Whole numbers s := by
  refine hs.invariant (I := Whole numbers) ?_ ?_
  · rintro s rfl
    exact .start
  · intro s r s' h hstep
    exact h.step hint hheap hfits hstep

/-! ## How the runs end -/

/-- What the parent has left to do, with a byte at a time. -/
def Parent.left : Parent → ℕ
  | write rest => rest.length + 3
  | read => 2
  | print _ => 1
  | done _ | killed => 0

def Child.left : Child → ℕ
  | read => 3
  | multiply _ => 2
  | write _ => 1
  | overflow | done | killed => 0

theorem Step.left {s s' : State} {r : Role} (hs : Step L numbers heap junk s r s') :
    s'.parent.left + s'.child.left + 1 ≤ s.parent.left + s.child.left := by
  cases hs with
  | write_end hp => simp only [hp, Parent.left, List.length_nil]; omega
  | write_whole hp => simp only [hp, Parent.left]; omega
  | write_part hp hpos hle => simp only [hp, Parent.left, List.length_drop]; omega
  | write_sigpipe hp => simp only [hp, Parent.left]; omega
  | read hp | read_end hp | print hp => simp only [hp, Parent.left]; omega
  | receive hc | multiply hc | overflow hc | send hc | send_sigpipe hc =>
    simp only [hc, Child.left]; omega

theorem length_le {tr : List Role} {s : State} (h : (pipes L numbers heap junk).Run tr s) :
    tr.length ≤ 4 * numbers.length + 6 := by
  have hle := h.invariant (I := fun tr s =>
    tr.length + s.parent.left + s.child.left ≤ 4 * numbers.length + 6) ?_ ?_
  · omega
  · rintro s rfl
    simp only [Parent.left, Child.left, length_bytes, List.length_nil]
    omega
  · intro tr s r s' hle hs
    have hleft := hs.left
    rw [List.length_append, List.length_singleton]
    omega

/-- Numbers that are written at once do not get stuck. -/
theorem Whole.finished {s : State} (h : Whole numbers s) (hint : ∀ x ∈ numbers, InInt x)
    (hfits : 4 * numbers.length ≤ L.PIPE_BUF)
    (hstuck : ∀ r s', ¬ Step L numbers heap junk s r s') :
    (s.parent = .done numbers.prod ∧ s.child = .done) ∨
      (product 1 numbers = none ∧ s.child = .overflow) := by
  cases h with
  | start =>
    by_cases hnil : numbers = []
    · subst hnil
      exact absurd (.write_end rfl) (hstuck _ _)
    · refine absurd (.write_whole rfl (mt bytes_eq_nil.1 hnil) id hfits ?_) (hstuck _ _)
      have hle := L.le
      simp only [List.length_nil, length_bytes]
      omega
  | written =>
    refine absurd (.receive rfl ?_) (hstuck _ _)
    by_cases hnil : numbers = []
    · exact Or.inr (Or.inl (by rw [hnil, List.length_nil]))
    · exact Or.inl (mt bytes_eq_nil.1 hnil)
  | received =>
    cases hq : product 1 numbers with
    | none => exact absurd (.overflow rfl (by rwa [ints_bytes hint])) (hstuck _ _)
    | some q => exact absurd (.multiply rfl (by rwa [ints_bytes hint])) (hstuck _ _)
  | overflow _ hq => exact Or.inr ⟨hq, rfl⟩
  | multiplied hp =>
    refine absurd (.send rfl ?_) (hstuck _ _)
    rcases hp with rfl | ⟨-, rfl⟩ <;> exact id
  | sent hp =>
    rcases hp with rfl | ⟨-, rfl⟩
    · exact absurd (.read rfl rfl) (hstuck _ _)
    · exact absurd (.write_end rfl) (hstuck _ _)
  | got => exact absurd (.print rfl) (hstuck _ _)
  | done hq =>
    rw [product_eq hq, one_mul]
    exact Or.inl ⟨rfl, rfl⟩

/-! ## Numbers that are written in parts -/

/-- The pipe holds what the parent has written so far, and there is no product yet. -/
def Written (L : Limits) (numbers : List ℤ) (s : State) : Prop :=
  s.fd2 = [] ∧ ∃ k ≤ 4 * numbers.length, k ≤ L.capacity ∧ s.fd1 = (bytes numbers).take k ∧
    (s.parent = .write ((bytes numbers).drop k) ∨ s.parent = .read)

/-- The array of the child starts with what was in the pipe when the child read from it. -/
structure Parts (L : Limits) (numbers : List ℤ) (heap : List UInt8) (s : State) : Prop where
  written : s.child = .read → Written L numbers s
  received : ∀ arr, s.child = .multiply arr → ∃ k ≤ 4 * numbers.length, k ≤ L.capacity ∧
    arr = (bytes numbers).take k ++ heap.drop k

theorem Written.parent {s s' : State} (h : Written L numbers s) (hc : s.child = .read)
    (hs : Step L numbers heap junk s .parent s') : Written L numbers s' := by
  have hlen := length_bytes numbers
  obtain ⟨hfd2, k, hk, hcap, hfd, hparent⟩ := h
  have hrest {rest : List UInt8} (hp : s.parent = .write rest) :
      rest = (bytes numbers).drop k := by
    rcases hparent with hparent | hparent <;> cases hp.symm.trans hparent
    rfl
  cases hs with
  | write_end hp => exact ⟨hfd2, k, hk, hcap, hfd, Or.inr rfl⟩
  | write_whole hp _ _ _ hroom =>
    obtain rfl := hrest hp
    have hroom' : k + (4 * numbers.length - k) ≤ L.capacity := by
      simpa only [hfd, List.length_take, List.length_drop, hlen, min_eq_left hk] using hroom
    refine ⟨hfd2, 4 * numbers.length, le_rfl, by omega, ?_, Or.inr rfl⟩
    rw [hfd, List.take_append_drop, List.take_of_length_le hlen.le]
  | @write_part _ m hp _ hle _ _ hroom =>
    obtain rfl := hrest hp
    rw [List.length_drop, hlen] at hle
    have hroom' : k + m ≤ L.capacity := by
      simpa only [hfd, List.length_take, hlen, min_eq_left hk] using hroom
    refine ⟨hfd2, k + m, by omega, hroom', ?_, Or.inl ?_⟩
    · rw [hfd, List.take_add]
    · rw [List.drop_drop]
  | write_sigpipe _ _ hclosed | read_end _ _ hclosed =>
    rw [hc] at hclosed
    exact hclosed.elim
  | read _ hread => cases hfd2.symm.trans hread
  | print hp => rcases hparent with hparent | hparent <;> cases hp.symm.trans hparent

theorem Parts.step {s s' : State} {r : Role} (h : Parts L numbers heap s)
    (hs : Step L numbers heap junk s r s') : Parts L numbers heap s' := by
  cases r with
  | parent =>
    have hc : s'.child = s.child := by
      cases hs <;> rfl
    constructor
    · intro hread
      exact (h.written (hc ▸ hread)).parent (hc ▸ hread) hs
    · intro arr harr
      exact h.received arr (hc ▸ harr)
  | child =>
    cases hs with
    | receive hc =>
      refine ⟨nofun, ?_⟩
      rintro arr ⟨⟩
      obtain ⟨-, k, hk, hcap, hfd, -⟩ := h.written hc
      refine ⟨k, hk, hcap, ?_⟩
      have htake : s.fd1.take (4 * numbers.length) = (bytes numbers).take k := by
        rw [hfd, List.take_take, min_eq_right hk]
      rw [htake, List.length_take, length_bytes, min_eq_left hk]
    | multiply | overflow | send | send_sigpipe => exact ⟨nofun, nofun⟩

theorem parts_of_reachable {s : State} (hs : (pipes L numbers heap junk).Reachable s) :
    Parts L numbers heap s := by
  refine hs.invariant (I := Parts L numbers heap) ?_ ?_
  · rintro s rfl
    exact ⟨fun _ => ⟨rfl, 0, Nat.zero_le _, Nat.zero_le _, rfl, Or.inl rfl⟩, nofun⟩
  · intro s r s' h hstep
    exact h.step hstep

theorem product_ones (m : ℕ) {q : ℤ} (hq : InLong q) :
    product q (List.replicate m 1) = some q := by
  induction m with
  | zero => rfl
  | succ m ih => rw [List.replicate_succ, product, mul_one, if_pos hq, ih]

/-- What `malloc` may leave in the array: a byte of the first number, and ones. -/
def leftover (z : UInt8) (m : ℕ) : List UInt8 := 0 :: z :: 0 :: 0 :: bytes (List.replicate m 1)

/-- The product of the numbers that start with the byte `b` and are `leftover` otherwise. -/
theorem product_leftover (b z : UInt8) (m : ℕ) :
    product 1 (ints (b :: (leftover z m).drop 1)) = some (b.toNat + 256 * z.toNat : ℤ) := by
  have hb := b.toNat_lt
  have hz := z.toNat_lt
  have hones : ∀ x ∈ List.replicate m (1 : ℤ), InInt x := by
    intro x hx
    rw [List.eq_of_mem_replicate hx]
    decide
  have hfirst : ofBytes (fun k => [b, z, 0, 0].getD k 0) = b.toNat + 256 * z.toNat := by
    have hint : InInt (b.toNat + 256 * z.toNat : ℤ) := by
      unfold InInt
      omega
    rw [← int32_eq hint]
    simp [ofBytes]
  have hlong : InLong (b.toNat + 256 * z.toNat : ℤ) := by
    unfold InLong
    omega
  rw [leftover, List.drop_succ_cons, List.drop_zero, ints, ints_bytes hones, hfirst, product,
    one_mul, if_pos hlong, product_ones m hlong]

/-- The child reads when one byte is in the pipe. -/
theorem reachable_part {x : ℤ} {xs : List ℤ} (hlt : L.PIPE_BUF < 4 * (x :: xs).length) (z : UInt8)
    (junk : ℤ) : ∃ s, (pipes L (x :: xs) (leftover z xs.length) junk).Reachable s ∧
      s.child = .write ((leByte x 0).toNat + 256 * z.toNat) := by
  have hcap : 1 ≤ L.capacity := L.pos.trans_le L.le
  have h₀ : (pipes L (x :: xs) (leftover z xs.length) junk).Reachable
      ⟨[], [], .write (bytes (x :: xs)), .read⟩ := .init rfl
  have h₁ := h₀.step (.write_part (k := 1) rfl one_pos (by simp [bytes]) id hlt
    (by simpa using hcap))
  have h₂ := h₁.step (.receive rfl (Or.inl (by simp [bytes])))
  have h₃ := h₂.step (.multiply rfl (product_leftover (leByte x 0) z xs.length))
  exact ⟨_, h₃, rfl⟩

/-! ## The runs -/

/-- The child sends the product of the numbers in every run, whatever was in its memory, if and only
if their bytes are written at once. Then runs end, with the product printed, or in the child's
loop where a product overflows. Where not even the pipe can hold the bytes, the child always
multiplies some that it never received. -/
theorem product_sent_iff (L : Limits) (numbers : List ℤ) (hint : ∀ x ∈ numbers, InInt x) :
    ((∀ heap junk, heap.length = 4 * numbers.length → ∀ s,
        (pipes L numbers heap junk).Reachable s → ∀ q, s.child = .write q → q = numbers.prod) ↔
      4 * numbers.length ≤ L.PIPE_BUF) ∧
    (4 * numbers.length ≤ L.PIPE_BUF → ∀ heap junk, heap.length = 4 * numbers.length →
      ∀ tr s, (pipes L numbers heap junk).Run tr s → tr.length ≤ 4 * numbers.length + 6 ∧
        ((∀ r s', ¬ (pipes L numbers heap junk).step s r s') →
          (s.parent = .done numbers.prod ∧ s.child = .done) ∨
            (product 1 numbers = none ∧ s.child = .overflow))) ∧
    (L.capacity < 4 * numbers.length → ∀ heap junk s, (pipes L numbers heap junk).Reachable s →
      ∀ arr, s.child = .multiply arr →
        ∃ k < 4 * numbers.length, arr = (bytes numbers).take k ++ heap.drop k) := by
  refine ⟨⟨?_, ?_⟩, ?_, ?_⟩
  · intro h
    by_contra hlt
    rw [not_le] at hlt
    cases numbers with
    | nil => exact absurd hlt (Nat.not_lt_zero _)
    | cons x xs =>
      -- two memories that make for two products
      have hlen (z : UInt8) : (leftover z xs.length).length = 4 * (x :: xs).length := by
        simp only [leftover, List.length_cons, length_bytes, List.length_replicate]
        omega
      obtain ⟨s₀, hs₀, hc₀⟩ := reachable_part hlt 0 0
      obtain ⟨s₁, hs₁, hc₁⟩ := reachable_part hlt 1 0
      have h₀ := h _ 0 (hlen 0) s₀ hs₀ _ hc₀
      have h₁ := h _ 0 (hlen 1) s₁ hs₁ _ hc₁
      rw [← h₁] at h₀
      simp at h₀
  · intro hfits heap junk hheap s hs q hq
    have hw := whole_of_reachable hint hheap hfits hs
    cases hw with
    | multiplied _ hprod =>
      cases hq
      rw [product_eq hprod, one_mul]
    | _ => cases hq
  · intro hfits heap junk hheap tr s h
    refine ⟨length_le h, ?_⟩
    exact (whole_of_reachable hint hheap hfits ⟨tr, h⟩).finished hint hfits
  · intro hlt heap junk s hs arr harr
    obtain ⟨k, -, hcap, rfl⟩ := (parts_of_reachable hs).received arr harr
    exact ⟨k, by omega, rfl⟩

/-- Two numbers through pipes that take eight bytes at once. -/
theorem product_sent_iff_two : ∃ s q, (pipes ⟨8, 8, by decide, le_rfl⟩ [6, 7]
    (List.replicate 8 0) 0).Reachable s ∧ s.child = .write q ∧ q = 42 := by
  have h₀ : (pipes ⟨8, 8, by decide, le_rfl⟩ [6, 7] (List.replicate 8 0) 0).Reachable
      ⟨[], [], .write (bytes [6, 7]), .read⟩ := .init rfl
  have h₁ := h₀.step (.write_whole rfl (by decide) id (by decide) (by decide))
  have h₂ := h₁.step (.receive rfl (Or.inl (by decide)))
  have h₃ := h₂.step (.multiply rfl (show product 1 (ints _) = some 42 by decide))
  refine ⟨_, _, h₃, rfl, ?_⟩
  exact (product_sent_iff ⟨8, 8, by decide, le_rfl⟩ [6, 7] (by decide)).1.2 (by decide) _ _ rfl
    _ h₃ _ rfl

end Pipes
