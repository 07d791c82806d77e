/-
  Sessions of the shell: the loop of `main` with its lines, commands and children, against a list
  of commands to come and a set of children.  Each command of the lines is executed once, in order;
  no child that has terminated outlives the next prompt; and what `exit` leaves behind are the
  background commands behind it.
-/
import OSModules.Shell.Execution

namespace Shell

open CArray CString Prog Runs

/-! ## The actions of a line -/

/-- What becomes of a command. -/
def actionOf (is_background : Bool) : List Str → Action
  | [] => .run [] is_background
  | t :: args =>
    if t = "exit".toList then .exit
    else if t = "cd".toList then .cd args.head?
    else .run (t :: args) is_background

/-- The type of the commands is 1 or 3. -/
def inBackground (ts : List Str) : Bool := decide (typeOf 0 ts = 1 ∨ typeOf 0 ts = 3)

/-- What becomes of the words of a line. -/
def actionsOf (ts : List Str) : List Action := (segments ts).map (actionOf (inBackground ts))

section
variable {s : Mem} {cmd : Fin MAX_NUM_TOKENS → Option Str} {is_background : Bool} {E : Fault → Prop}

theorem wp_execute_action {c : List Str} (h : Holds cmd c) (hne : c ≠ []) :
    wp (execute_cmd cmd is_background) s E fun a s' => a = actionOf is_background c ∧ s' = s := by
  obtain ⟨t, args, rfl⟩ := List.exists_cons_of_ne_nil hne
  have hhead : cmd 0 = some t := h.head
  rw [execute_cmd, hhead]
  simp only [start_executing, hhead, actionOf]
  split
  · exact ⟨rfl, rfl⟩
  · split
    · refine ⟨?_, rfl⟩
      rw [h.get (by simp), List.head?_eq_getElem?]
      rfl
    · exact ⟨by rw [h.upToNull_eq], rfl⟩

theorem wp_executeNext_actions {ps : List ℕ} {cs : List (List Str)}
    (h : List.Forall₂ (fun p c => Holds (s.arrays p) c) ps cs) (hne : [] ∉ cs) {calls : List Call} :
    wp (ps.foldlM (executeNext is_background) calls) s E fun calls' _ =>
      calls'.map Call.action = calls.map Call.action ++ cs.map (actionOf is_background) := by
  induction h generalizing calls with
  | nil => simp
  | @cons p c ps cs hc _ ih =>
    rw [List.mem_cons, not_or] at hne
    rw [List.foldlM_cons, wp_bind, executeNext, wp_bind, wp_get, wp_bind]
    refine (wp_execute_action hc (Ne.symm hne.1)).imp ?_
    rintro a s' ⟨rfl, rfl⟩
    refine (ih hne.2).imp fun calls' _ hcalls => ?_
    rw [hcalls]
    simp

end

/-- Of a line that is executed as it is, the commands do what its segments say. -/
theorem wp_round_actions (s : Mem) {input : List Char} (h : Intact (typed input)) :
    wp (round input) s (fun _ => False) fun calls _ =>
      calls.map Call.action = actionsOf (words isSep (typed input)) := by
  have hline : lineOf (typed input) = typed input ++ ['\n'] := lineOf_of_notMem h.nul
  have hparse := wp_parse (s := s) (Nat.add_le_add_right h.length 2)
  rw [hline, tokensOf_line] at hparse
  rw [round, wp_bind]
  refine hparse.mono (fun _ hfit => hfit h.fits) ?_
  rintro cmd_type s' ⟨-, rfl, ps, hcmds, hheld⟩
  rw [wp_bind, wp_get, foldToNull_eq hcmds]
  rw [h.shown_eq] at hheld
  refine (wp_executeNext_actions hheld h.nonempty).imp fun calls _ hcalls => ?_
  rw [hcalls]
  rfl

theorem exists_round (s : Mem) {input : List Char} (h : Intact (typed input)) :
    ∃ calls mem, Returns (round input) s calls mem ∧
      calls.map Call.action = actionsOf (words isSep (typed input)) :=
  (wp_round_actions s h).total

/-! ## Which children are reaped -/

section
variable {die : ℕ → Finset ℤ} {i : ℕ} {s : Sys}

theorem running_waitpid (s : Sys) (pid : ℤ) : (waitpid s pid).2.running = s.running := by
  unfold waitpid
  split_ifs <;> rfl

theorem running_reapLoop (die : ℕ → Finset ℤ) (i : ℕ) (s : Sys) :
    (reapLoop die i s).running ⊆ s.running := by
  have hpoll : (waitpid (s.terminate (die i)) (s.bg_procs i)).2.running ⊆ s.running := by
    rw [running_waitpid]
    exact Finset.sdiff_subset
  rw [reapLoop]
  dsimp only
  split_ifs with hle hpos
  · exact (running_reapLoop die (i + 1) _).trans hpoll
  · exact (running_reapLoop die (i + 1) _).trans hpoll
  · exact subset_rfl
termination_by (s.bg_procs_idx + 1 - i).toNat
decreasing_by all_goals simp [Sys.remove, Sys.terminate]; omega

/-- The child of an entry that has terminated when it is polled is reaped. -/
theorem not_mem_reapLoop_dead {pid : ℤ} (hd : Disjoint s.running s.zombie) (h : i ≤ s.bg_procs_idx)
    (hpid : s.bg_procs i = pid) (hpos : 0 < pid) (hz : pid ∈ s.zombie) :
    pid ∉ (reapLoop die i s).unreaped := by
  subst hpid
  have hz' : s.bg_procs i ∈ (s.terminate (die i)).zombie := Finset.mem_union_left _ hz
  rw [reapLoop_dead h hpos hz']
  intro hin
  have hun := unreaped_reapLoop _ hin
  rw [unreaped_reaped (Sys.disjoint_terminate hd _) hz'] at hun
  exact hun.2 rfl

/-- If only the last children have terminated, those that had terminated before the call are
reaped. -/
theorem OnlyLast.reaps (k : ℕ) : ∀ {i : ℕ} {s : Sys}, Good s → (i : ℤ) + k = s.bg_procs_idx + 1 →
    OnlyLast die s i → ∀ j : ℕ, i ≤ j → j < s.bg_procs_idx → s.bg_procs j ∈ s.zombie →
      s.bg_procs j ∉ (reapLoop die i s).unreaped := by
  induction k with
  | zero =>
    intro i s hG hk _ j hj hlt
    omega
  | succ k ih =>
    intro i s hG hk hlast j hj hlt hz
    have hG₁ := hG.terminate (die i)
    have hi : (i : ℤ) < s.bg_procs_idx := by omega
    have hmem := hG.mem_of_lt hi
    by_cases hji : j = i
    · subst hji
      exact not_mem_reapLoop_dead hG.disj hi.le rfl (hG.pos _ hmem) hz
    by_cases hdead : Dead die s i i
    · have h₂ : (i : ℤ) + 2 = s.bg_procs_idx := by
        by_contra hne
        exact hlast.1 i le_rfl (by omega) hdead
      obtain rfl : j = i + 1 := by omega
      have hzi := (dead_self hmem).1 hdead
      rw [reapLoop_dead hi.le (hG.pos _ hmem) hzi]
      have hne : s.bg_procs (i + 1 : ℕ) ≠ s.bg_procs i := fun he => hji (hG.inj _ _ hlt hi he)
      have hcell : ((i + 1 : ℕ) : ℤ) ≠ i := by omega
      refine not_mem_reapLoop_dead (disjoint_reaped hG₁.disj) ?_ ?_
        (hG.pos _ (hG.mem_of_lt hlt)) ?_
      · simp only [Sys.reaped, Sys.remove, Sys.terminate]
        push_cast
        omega
      · exact Function.update_of_ne hcell _ _
      · exact Finset.mem_erase.2 ⟨hne, Finset.mem_union_left _ hz⟩
    · have hzi : s.bg_procs i ∉ (s.terminate (die i)).zombie := fun h => hdead ((dead_self hmem).2 h)
      rw [reapLoop_alive hi.le hzi]
      refine ih hG₁ (by simp only [Sys.terminate]; push_cast at hk; omega)
        ((onlyLast_succ hG hdead).2 hlast) j (by omega) hlt ?_
      exact Finset.mem_union_left _ hz

/-- A call that keeps the table in order leaves no child that had terminated before it. -/
theorem Good.reap_zombie (hG : Good s) (hlast : OnlyLast die s 0) :
    Disjoint s.zombie (reap_bg_procs s die).zombie := by
  refine Finset.disjoint_left.2 fun pid hz hz' => ?_
  obtain ⟨j, hj, rfl⟩ := (hG.mem pid).1 (Finset.mem_union_right _ hz)
  have h0 := hG.idx
  exact OnlyLast.reaps (s.bg_procs_idx + 1).toNat hG (by omega) hlast j (Nat.zero_le j) hj hz
    (Finset.mem_union_right _ hz')

end

/-! ## What `exit` leaves -/

/-- The children of the entries in `l` are killed and reaped. -/
structure Killed (s : Sys) (l : List ℕ) (s' : Sys) : Prop where
  bg_procs : s'.bg_procs = s.bg_procs
  bg_procs_idx : s'.bg_procs_idx = s.bg_procs_idx
  unreaped : ∀ pid, pid ∈ s'.unreaped ↔ pid ∈ s.unreaped ∧ ∀ i ∈ l, pid ≠ s.bg_procs i
  disj : Disjoint s'.running s'.zombie

theorem killed_foldl {s : Sys} (hd : Disjoint s.running s.zombie) (l : List ℕ) :
    Killed s l (l.foldl (fun s' (i : ℕ) =>
      (waitpid (s'.terminate {s'.bg_procs i}) (s'.bg_procs i)).2) s) := by
  induction l using List.reverseRecOn with
  | nil => exact ⟨rfl, rfl, by simp, hd⟩
  | append_singleton l i ih =>
    obtain ⟨hcells, hidx, hun, hdisj⟩ := ih
    rw [List.foldl_append, List.foldl_cons, List.foldl_nil]
    generalize List.foldl _ s l = s' at hcells hidx hun hdisj
    refine ⟨?_, ?_, fun pid => ?_, disjoint_waitpid (Sys.disjoint_terminate hdisj _) _⟩
    · rw [waitpid_bg_procs]
      exact hcells
    · rw [waitpid_bg_procs_idx]
      exact hidx
    · rw [mem_unreaped_kill hdisj, hun, hcells, and_assoc]
      simp [or_imp, forall_and]

theorem killed_exit {s : Sys} (hd : Disjoint s.running s.zombie) :
    Killed s (List.range s.bg_procs_idx.toNat) (exit_ s) := killed_foldl hd _

/-- Each child is in the table. -/
structure Covered (s : Sys) : Prop where
  idx : 0 ≤ s.bg_procs_idx
  table : ∀ pid ∈ s.unreaped, pid ∈ s.table
  disj : Disjoint s.running s.zombie

theorem Good.covered {s : Sys} (h : Good s) : Covered s := ⟨h.idx, fun pid hpid => (h.tracked.2 pid).2 hpid, h.disj⟩

namespace Covered
variable {s : Sys} (h : Covered s)
include h

/-- `exit` leaves no child. -/
theorem exit : (exit_ s).unreaped = ∅ := by
  refine Finset.eq_empty_of_forall_notMem fun pid hpid => ?_
  obtain ⟨hun, hno⟩ := ((killed_exit h.disj).unreaped pid).1 hpid
  obtain ⟨i, hi, rfl⟩ := mem_table.1 (h.table pid hun)
  exact hno i (List.mem_range.2 (by omega)) rfl

theorem covered_exit : Covered (exit_ s) := by
  have hkilled := killed_exit h.disj
  refine ⟨?_, fun pid hpid => ?_, hkilled.disj⟩
  · rw [hkilled.bg_procs_idx]
    exact h.idx
  · rw [h.exit] at hpid
    exact absurd hpid (Finset.notMem_empty pid)

theorem terminate (D : Finset ℤ) : Covered (s.terminate D) := by
  refine ⟨h.idx, fun pid hpid => ?_, Sys.disjoint_terminate h.disj D⟩
  rw [unreaped_terminate] at hpid
  exact h.table pid hpid

theorem add {pid : ℤ} (hf : Fresh s pid) :
    Covered (add_bg_procs { s with running := insert pid s.running } pid) := by
  have h0 := h.idx
  refine ⟨?_, fun p hp => mem_table.2 ?_, ?_⟩
  · simp only [add_bg_procs]
    omega
  · simp only [Sys.unreaped, add_bg_procs, Finset.mem_union, Finset.mem_insert, or_assoc] at hp
    simp only [add_bg_procs, Function.update_apply]
    rcases hp with rfl | hp
    · exact ⟨s.bg_procs_idx.toNat, by omega, if_pos (by omega)⟩
    · obtain ⟨i, hi, rfl⟩ := mem_table.1 (h.table p (Finset.mem_union.2 hp))
      exact ⟨i, by omega, if_neg (by omega)⟩
  · show Disjoint (insert pid s.running) s.zombie
    rw [Finset.disjoint_insert_left]
    exact ⟨fun hz => hf.2.1 (Finset.mem_union_right _ hz), h.disj⟩

end Covered

/-! ## Sessions -/

/-- The shell: the arrays of the round, the table with the children that were started in the
background, and the calls of `execute_cmd` to come. At the prompt there are none, not even an empty
list of them. -/
structure Session where
  mem : Mem
  procs : Sys
  calls : Option (List Call)
  is_exited : Bool

inductive Event where
  | line (input : List Char)
  | exit
  | cd (dir : Option Str)
  | foreground (argv : List Str)
  | background (argv : List Str) (pid : ℤ)
  | terminate (pid : ℤ)
  | reap (die : ℕ → Finset ℤ)

/-- The steps of `main` and of its children. The commands are programs that there are: the child of
another one goes on in the loop. A child in the foreground is waited for and reaped. The loop ends
when a line with an `exit` has been executed. -/
inductive Session.Step (x : Session) : Event → Session → Prop
  | line {input calls mem} : x.calls = none → Returns (round input) x.mem calls mem →
      Step x (.line input) { x with mem, calls := some calls }
  | exit {cmd calls} : x.calls = some (⟨cmd, .exit⟩ :: calls) →
      Step x .exit { x with procs := exit_ x.procs, calls := some calls, is_exited := true }
  | cd {cmd dir calls} : x.calls = some (⟨cmd, .cd dir⟩ :: calls) →
      Step x (.cd dir) { x with calls := some calls }
  | foreground {cmd argv calls} : x.calls = some (⟨cmd, .run argv false⟩ :: calls) →
      Step x (.foreground argv) { x with calls := some calls }
  | background {cmd argv calls pid} : x.calls = some (⟨cmd, .run argv true⟩ :: calls) →
      Fresh x.procs pid → x.procs.unreaped.card < MAX_BG_PROCS →
      Step x (.background argv pid) { x with
        procs := add_bg_procs { x.procs with running := insert pid x.procs.running } pid
        calls := some calls }
  | terminate {pid} : pid ∈ x.procs.running →
      Step x (.terminate pid) { x with procs := x.procs.terminate {pid} }
  | reap {die} : x.calls = some [] → x.is_exited = false →
      Step x (.reap die) { x with procs := reap_bg_procs x.procs die, calls := none }

def sessions : LTS Session Event where
  init x := x.procs.bg_procs_idx = 0 ∧ x.procs.running = ∅ ∧ x.procs.zombie = ∅ ∧ x.calls = none ∧
    x.is_exited = false
  step := Session.Step

/-- The line is executed as it is, and the call of `reap_bg_procs` keeps the table in order. -/
def Session.Allows (x : Session) : Event → Prop
  | .line input => Intact (typed input)
  | .reap die => OnlyLast die x.procs 0
  | _ => True

/-! ## What the shell is for -/

/-- The commands to come, and the children that run and those that have terminated but were not
reaped. -/
structure Jobs where
  pending : Option (List Action)
  running : Finset ℤ
  zombie : Finset ℤ
  is_exited : Bool

inductive Jobs.Step (j : Jobs) : Event → Jobs → Prop
  | line {input} : j.pending = none →
      Step j (.line input) { j with pending := some (actionsOf (words isSep (typed input))) }
  | exit {rest} : j.pending = some (.exit :: rest) → Step j .exit ⟨some rest, ∅, ∅, true⟩
  | cd {dir rest} : j.pending = some (.cd dir :: rest) →
      Step j (.cd dir) { j with pending := some rest }
  | foreground {argv rest} : j.pending = some (.run argv false :: rest) →
      Step j (.foreground argv) { j with pending := some rest }
  | background {argv rest pid} : j.pending = some (.run argv true :: rest) →
      pid ∉ j.running ∪ j.zombie →
      Step j (.background argv pid)
        { j with pending := some rest, running := insert pid j.running }
  | terminate {pid} : pid ∈ j.running → Step j (.terminate pid)
      { j with running := j.running \ {pid}, zombie := j.zombie ∪ {pid} }
  /-- The children in `D` terminate meanwhile; those in `R` are reaped, among them all that had
  terminated before. -/
  | reap {die D R} : j.pending = some [] → j.is_exited = false → D ⊆ j.running → j.zombie ⊆ R →
      Step j (.reap die) ⟨none, j.running \ D, (j.zombie ∪ D) \ R, false⟩

def jobs : LTS Jobs Event where
  init j := j = ⟨none, ∅, ∅, false⟩
  step := Jobs.Step

/-- The shell keeps its jobs: their calls are to come, and the table has their children. -/
structure Keeps (x : Session) (j : Jobs) : Prop where
  pending : x.calls.map (·.map Call.action) = j.pending
  running : x.procs.running = j.running
  zombie : x.procs.zombie = j.zombie
  is_exited : x.is_exited = j.is_exited
  covered : Covered x.procs
  good : x.is_exited = false → Good x.procs

namespace Keeps
variable {x x' : Session} {j : Jobs} (h : Keeps x j)
include h

theorem next {call : Call} {calls : List Call} (hcalls : x.calls = some (call :: calls)) :
    j.pending = some (call.action :: calls.map Call.action) := by
  rw [← h.pending, hcalls]
  rfl

theorem reap {die : ℕ → Finset ℤ} (hcalls : x.calls = some []) (hexit : x.is_exited = false)
    (hlast : OnlyLast die x.procs 0) : ∃ j', Jobs.Step j (.reap die) j' ∧
      Keeps { x with procs := reap_bg_procs x.procs die, calls := none } j' := by
  have hG := h.good hexit
  have h0 := hG.idx
  have hG' : Good (reap_bg_procs x.procs die) :=
    (reapLoop_good_iff (x.procs.bg_procs_idx + 1).toNat hG (by omega)).1 hlast
  have hrun : (reap_bg_procs x.procs die).running ⊆ x.procs.running := running_reapLoop die 0 _
  have hun : ∀ pid ∈ (reap_bg_procs x.procs die).unreaped, pid ∈ x.procs.unreaped :=
    unreaped_reapLoop
  have hz := hG.reap_zombie hlast
  generalize reap_bg_procs x.procs die = s' at hG' hrun hun hz
  have hpending : j.pending = some [] := by
    rw [← h.pending, hcalls]
    rfl
  refine ⟨_, .reap (D := x.procs.running \ s'.running)
    (R := (x.procs.zombie ∪ (x.procs.running \ s'.running)) \ s'.zombie) hpending ?_ ?_ ?_, ?_⟩
  · rw [← h.is_exited, hexit]
  · rw [← h.running]
    exact Finset.sdiff_subset
  · rw [← h.zombie]
    intro pid hpid
    exact Finset.mem_sdiff.2 ⟨Finset.mem_union_left _ hpid, Finset.disjoint_left.1 hz hpid⟩
  · refine ⟨rfl, ?_, ?_, hexit, hG'.covered, fun _ => hG'⟩
    · rw [← h.running, Finset.sdiff_sdiff_eq_self hrun]
    · have hsub : s'.zombie ⊆ x.procs.zombie ∪ (x.procs.running \ s'.running) := by
        intro pid hpid
        rcases Finset.mem_union.1 (hun pid (Finset.mem_union_right _ hpid)) with hr | hz'
        · refine Finset.mem_union_right _ (Finset.mem_sdiff.2 ⟨hr, fun hr' => ?_⟩)
          exact Finset.disjoint_left.1 hG'.disj hr' hpid
        · exact Finset.mem_union_left _ hz'
      rw [← h.zombie, Finset.sdiff_sdiff_eq_self hsub]

theorem step {e : Event} (hallow : x.Allows e) (hstep : sessions.step x e x') :
    ∃ j', jobs.step j e j' ∧ Keeps x' j' := by
  cases hstep with
  | @line input calls mem hcalls hret =>
    have hpending : j.pending = none := by
      rw [← h.pending, hcalls]
      rfl
    have hactions := (wp_round_actions x.mem hallow).returns hret
    refine ⟨_, .line hpending, ?_, h.running, h.zombie, h.is_exited, h.covered, h.good⟩
    rw [Option.map_some, hactions]
  | exit hcalls =>
    have hun := h.covered.exit
    rw [Sys.unreaped, Finset.union_eq_empty] at hun
    exact ⟨_, .exit (h.next hcalls), rfl, hun.1, hun.2, rfl, h.covered.covered_exit, by simp⟩
  | cd hcalls =>
    exact ⟨_, .cd (h.next hcalls), rfl, h.running, h.zombie, h.is_exited, h.covered, h.good⟩
  | foreground hcalls =>
    exact ⟨_, .foreground (h.next hcalls), rfl, h.running, h.zombie, h.is_exited, h.covered, h.good⟩
  | background hcalls hf hcard =>
    refine ⟨_, .background (h.next hcalls) ?_, rfl, ?_, h.zombie, h.is_exited, h.covered.add hf,
      fun he => (h.good he).add hf⟩
    · rw [← h.running, ← h.zombie]
      exact hf.2.1
    · rw [← h.running]
      rfl
  | @terminate pid hpid =>
    refine ⟨_, .terminate ?_, h.pending, ?_, ?_, h.is_exited, h.covered.terminate _,
      fun he => (h.good he).terminate _⟩
    · rwa [← h.running]
    · rw [← h.running]
      rfl
    · show x.procs.zombie ∪ (x.procs.running ∩ {pid}) = j.zombie ∪ {pid}
      rw [h.zombie, Finset.inter_singleton_of_mem hpid]
  | reap hcalls hexit => exact h.reap hcalls hexit hallow

end Keeps

/-- Before the first child there is nothing to keep track of. -/
theorem Good.init {s : Sys} (hidx : s.bg_procs_idx = 0) (hrun : s.running = ∅) (hz : s.zombie = ∅) :
    Good s := by
  have hun : s.unreaped = ∅ := by rw [Sys.unreaped, hrun, hz, Finset.union_empty]
  refine ⟨hidx.ge, fun pid => ?_, fun i j hi => ?_, fun j _ => ?_, fun pid hpid => ?_, ?_⟩
  · rw [hun]
    refine iff_of_false (Finset.notMem_empty pid) ?_
    rintro ⟨i, hi, -⟩
    omega
  · omega
  · rw [hun]
    exact Finset.notMem_empty _
  · rw [hun] at hpid
    exact absurd hpid (Finset.notMem_empty pid)
  · rw [hrun]
    exact Finset.disjoint_empty_left _

theorem keeps_of_run {tr : List Event} {x : Session}
    (h : (sessions.guard Session.Allows).Run tr x) : ∃ j, jobs.Run tr j ∧ Keeps x j := by
  refine h.simulate (G := fun _ _ => True) ?_ ?_ ?_
  · rintro x ⟨hidx, hrun, hz, hcalls, hexit⟩
    have hG : Good x.procs := .init hidx hrun hz
    exact ⟨_, rfl, by rw [hcalls]; rfl, hrun, hz, hexit, hG.covered, fun _ => hG⟩
  · rintro x j e x' hkeeps - ⟨hallow, hstep⟩
    exact hkeeps.step hallow hstep
  · exact fun _ _ _ _ _ _ => trivial

/-! ## The commands of a session -/

/-- What is typed, as actions. -/
def Event.asked : Event → List Action
  | .line input => actionsOf (words isSep (typed input))
  | _ => []

/-- What is executed, as actions. -/
def Event.done : Event → List Action
  | .exit => [.exit]
  | .cd dir => [.cd dir]
  | .foreground argv => [.run argv false]
  | .background argv _ => [.run argv true]
  | _ => []

/-- One more background command, or an `exit`. -/
def behind (n : ℕ) : Action → ℕ
  | .exit => 0
  | .run _ true => n + 1
  | _ => n

/-- How many background commands there are behind the last `exit`. -/
def leftBehind (l : List Action) : ℕ := l.foldl behind 0

section
variable {tr : List Event} {j : Jobs}

/-- What is typed is executed once, in order, or still to come. -/
theorem done_append_pending (h : jobs.Run tr j) :
    tr.flatMap Event.done ++ j.pending.getD [] = tr.flatMap Event.asked := by
  refine h.invariant (I := fun tr j =>
    tr.flatMap Event.done ++ j.pending.getD [] = tr.flatMap Event.asked) ?_ ?_
  · rintro j rfl
    rfl
  · intro tr j e j' ih hstep
    rw [List.flatMap_append, List.flatMap_append, ← ih]
    cases hstep with
    | line hpending => simp [hpending, Event.done, Event.asked]
    | exit hpending | cd hpending | foreground hpending | background hpending =>
      simp [hpending, Event.done, Event.asked]
    | terminate => simp [Event.done, Event.asked]
    | reap hpending => simp [hpending, Event.done, Event.asked]

/-- After an `exit`, the children are those of the background commands behind it. -/
theorem card_children (h : jobs.Run tr j) (hexit : j.is_exited = true) :
    (j.running ∪ j.zombie).card = leftBehind (tr.flatMap Event.done) := by
  refine h.invariant (I := fun tr j => j.is_exited = true →
    (j.running ∪ j.zombie).card = leftBehind (tr.flatMap Event.done)) ?_ ?_ hexit
  · rintro j rfl hexit
    cases hexit
  · intro tr j e j' ih hstep hexit
    rw [List.flatMap_append, leftBehind, List.foldl_append]
    cases hstep with
    | line | cd | foreground => exact ih hexit
    | exit => rfl
    | background hpending hpid =>
      rw [Finset.insert_union, Finset.card_insert_of_notMem hpid, ih hexit]
      rfl
    | @terminate pid hpid =>
      have hun : j.running \ {pid} ∪ (j.zombie ∪ {pid}) = j.running ∪ j.zombie := by
        rw [← Finset.union_assoc, Finset.union_right_comm,
          Finset.sdiff_union_of_subset (Finset.singleton_subset_iff.2 hpid)]
      dsimp only
      rw [hun, ih hexit]
      rfl
    | reap => cases hexit

end

/-! ## A session -/

/-- The shell before its first line. -/
def started : Session := ⟨.blank, atPrompt, none, false⟩

theorem snoc_run {tr : List Event} {x x' : Session} {e : Event}
    (h : (sessions.guard Session.Allows).Run tr x) (hstep : x.Step e x') (hallow : x.Allows e) :
    (sessions.guard Session.Allows).Run (tr ++ [e]) x' := h.step ⟨hallow, hstep⟩

/-- A line without `&` that fits. -/
theorem intact_of_fits {line : Str} (hnul : '\x00' ∉ line) (hlen : line.length ≤ 1022)
    (hword : ∀ w ∈ words isSep line, w.length < MAX_TOKEN_SIZE)
    (hcount : (words isSep line).length < MAX_NUM_TOKENS)
    (hops : (words isSep line).countP isOp + 1 < MAX_BG_PROCS)
    (hne : [] ∉ segments (words isSep line)) (hamp : "&".toList ∉ words isSep line) : Intact line :=
  ⟨hnul, hlen, (fits_line_iff line).2 ⟨hword, hcount, hops⟩, hne, ampEqual_of_notMem hamp []⟩

/-- `exit` and a background command behind it. -/
theorem exists_session : ∃ tr x, (sessions.guard Session.Allows).Run tr x ∧ x.calls = some [] ∧
    x.is_exited = true ∧ tr.flatMap Event.asked = [.exit, .run ["sleep".toList, "5".toList] true] := by
  have htyped : typed "exit &&& sleep 5\n".toList = "exit &&& sleep 5".toList := by decide
  have hactions : actionsOf (words isSep "exit &&& sleep 5".toList) =
      [.exit, .run ["sleep".toList, "5".toList] true] := rfl
  have hintact : Intact (typed "exit &&& sleep 5\n".toList) := by
    rw [htyped]
    exact intact_of_fits (by decide) (by decide) (by decide) (by decide) (by decide) (by decide)
      (by decide)
  obtain ⟨calls, mem, hret, hcalls⟩ := exists_round .blank hintact
  rw [htyped, hactions] at hcalls
  match calls, hcalls with
  | [⟨cmd₁, a₁⟩, ⟨cmd₂, a₂⟩], hcalls =>
    simp only [List.map_cons, List.map_nil, List.cons.injEq, and_true] at hcalls
    obtain ⟨rfl, rfl⟩ := hcalls
    have hrun : (sessions.guard Session.Allows).Run [] started := .init ⟨rfl, rfl, rfl, rfl, rfl⟩
    have hline : Session.Step started (.line "exit &&& sleep 5\n".toList) _ := .line rfl hret
    have hfresh : Fresh (exit_ atPrompt) 10 := ⟨by simp, by decide, fun _ => by simp [exit_, atPrompt]⟩
    have hcard : (exit_ atPrompt).unreaped.card < MAX_BG_PROCS := by decide
    have hrun := snoc_run hrun hline hintact
    have hrun := snoc_run hrun (.exit rfl) trivial
    have hrun := snoc_run hrun (.background rfl hfresh hcard) trivial
    refine ⟨_, _, hrun, rfl, rfl, ?_⟩
    simp only [List.flatMap_append, List.flatMap_singleton, Event.asked, htyped, hactions,
      List.append_nil, List.nil_append]

/-! ## Whole sessions -/

/-- In every session whose lines are executed as they are and in which `reap_bg_procs` keeps the
table in order, the shell does what a list of commands and a set of children do, for which no child
that has terminated outlives a call of `reap_bg_procs`, and `exit` leaves none at all; each command
of the lines is executed once, in their order. -/
theorem sessions_keep_jobs {tr : List Event} {x : Session}
    (h : (sessions.guard Session.Allows).Run tr x) :
    (∃ j, jobs.Run tr j ∧ x.calls.map (·.map Call.action) = j.pending ∧
      x.procs.running = j.running ∧ x.procs.zombie = j.zombie ∧ x.is_exited = j.is_exited) ∧
    tr.flatMap Event.done ++ (x.calls.getD []).map Call.action = tr.flatMap Event.asked := by
  obtain ⟨j, hrun, hkeeps⟩ := keeps_of_run h
  refine ⟨⟨j, hrun, hkeeps.pending, hkeeps.running, hkeeps.zombie, hkeeps.is_exited⟩, ?_⟩
  rw [← done_append_pending hrun, ← hkeeps.pending]
  cases x.calls <;> rfl

/-- A session in which `exit` is not the last command: both commands of the line are executed. -/
theorem sessions_keep_jobs_exit : ∃ tr x j, (sessions.guard Session.Allows).Run tr x ∧
    jobs.Run tr j ∧ x.procs.running = j.running ∧
    tr.flatMap Event.done = [.exit, .run ["sleep".toList, "5".toList] true] := by
  obtain ⟨tr, x, hrun, hcalls, -, hasked⟩ := exists_session
  obtain ⟨⟨j, hjobs, -, hrunning, -, -⟩, hdone⟩ := sessions_keep_jobs hrun
  rw [hcalls, hasked] at hdone
  exact ⟨tr, x, j, hrun, hjobs, hrunning, by simpa using hdone⟩

/-- When such a session has ended, there are as many children left as there are background commands
behind the last `exit`. -/
theorem exit_leaves_behind {tr : List Event} {x : Session}
    (h : (sessions.guard Session.Allows).Run tr x) (hcalls : x.calls = some [])
    (hexit : x.is_exited = true) :
    x.procs.unreaped.card = leftBehind (tr.flatMap Event.asked) := by
  obtain ⟨j, hrun, hkeeps⟩ := keeps_of_run h
  have hpending : j.pending = some [] := by
    rw [← hkeeps.pending, hcalls]
    rfl
  have hdone := done_append_pending hrun
  rw [hpending, Option.getD_some, List.append_nil] at hdone
  rw [Sys.unreaped, hkeeps.running, hkeeps.zombie, ← hdone]
  exact card_children hrun (hkeeps.is_exited.symm.trans hexit)

/-- The command behind `exit` is left. -/
theorem exit_leaves_behind_one : ∃ tr x, (sessions.guard Session.Allows).Run tr x ∧
    x.is_exited = true ∧ x.procs.unreaped.card = 1 := by
  obtain ⟨tr, x, hrun, hcalls, hexit, hasked⟩ := exists_session
  have hleft := exit_leaves_behind hrun hcalls hexit
  rw [hasked] at hleft
  exact ⟨tr, x, hrun, hexit, hleft⟩

end Shell
