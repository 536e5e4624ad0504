import SocketPrograms.Lib.Transition
import Mathlib.Data.Finset.Card
import Mathlib.Data.Fintype.Basic
import Mathlib.Logic.Function.Basic

/-!
# Workers with one permit each

A dispatcher hands out jobs, numbered in the order in which it does. Each worker has one permit. The
dispatcher gives it away with a job, and the worker gives it back when the job is done; so a worker
never has a second job.

## Main definitions

* `WorkerPool.Phase` — where the permit of a worker is.
* `WorkerPool`, `WorkerPool.next`, `WorkerPool.system` — the permits, the jobs done, and the steps.
* `WorkerPool.jobs`, `WorkerPool.free` — the jobs that a worker was given, and the permits that the
  dispatcher has.

## Main results

* `WorkerPool.assigned` — each job was given to one worker, and each worker has its jobs in order.
-/

namespace SocketPrograms

namespace WorkerPool

/-- Where the permit of a worker is. -/
inductive Phase
  /-- At the dispatcher. -/
  | free
  /-- On its way to the worker, with a job. -/
  | sent (job : ℕ)
  /-- At the worker, which does the job. -/
  | working (job : ℕ)
  /-- On its way back. -/
  | told
  deriving DecidableEq

/-- The job that the permit is out with. -/
def Phase.job : Phase → List ℕ
  | .sent k | .working k => [k]
  | _ => []

end WorkerPool

/-- The permits, the jobs each worker has done, and the number of jobs given away. -/
structure WorkerPool (ι : Type*) where
  phase : ι → WorkerPool.Phase
  done : ι → List ℕ
  given : ℕ

namespace WorkerPool

variable {ι : Type*} [DecidableEq ι]

/-- The steps. -/
inductive Act (ι : Type*)
  | give (i : ι)
  | start (i : ι)
  | finish (i : ι)
  | collect (i : ι)

/-- Put the permit of worker `i` elsewhere. -/
def move (p : WorkerPool ι) (i : ι) (φ : Phase) : WorkerPool ι :=
  { p with phase := Function.update p.phase i φ }

def give (p : WorkerPool ι) (i : ι) : WorkerPool ι :=
  { p.move i (.sent p.given) with given := p.given + 1 }

def finish (p : WorkerPool ι) (i : ι) (k : ℕ) : WorkerPool ι :=
  { p.move i .told with done := Function.update p.done i (p.done i ++ [k]) }

/-- One step. -/
inductive Step (p : WorkerPool ι) : Act ι → WorkerPool ι → Prop
  | give {i : ι} (h : p.phase i = .free) : Step p (.give i) (p.give i)
  | start {i : ι} {k : ℕ} (h : p.phase i = .sent k) : Step p (.start i) (p.move i (.working k))
  | finish {i : ι} {k : ℕ} (h : p.phase i = .working k) : Step p (.finish i) (p.finish i k)
  | collect {i : ι} (h : p.phase i = .told) : Step p (.collect i) (p.move i .free)

/-- All permits at the dispatcher. -/
def fresh (ι : Type*) : WorkerPool ι := ⟨fun _ => .free, fun _ => [], 0⟩

def system (ι : Type*) [DecidableEq ι] : System (WorkerPool ι) (Act ι) := ⟨(· = fresh ι), Step⟩

/-- The jobs that a worker was given. -/
def jobs (p : WorkerPool ι) (i : ι) : List ℕ := p.done i ++ (p.phase i).job

variable {p q : WorkerPool ι} {i j : ι} {φ : Phase} {k : ℕ}

/-! ## The operations -/

@[simp] theorem move_phase_self : (p.move i φ).phase i = φ := Function.update_self ..

theorem move_phase_of_ne (h : j ≠ i) : (p.move i φ).phase j = p.phase j :=
  Function.update_of_ne h ..

@[simp] theorem move_done : (p.move i φ).done = p.done := rfl

@[simp] theorem give_phase : (p.give i).phase = (p.move i (.sent p.given)).phase := rfl

@[simp] theorem give_done : (p.give i).done = p.done := rfl

@[simp] theorem give_given : (p.give i).given = p.given + 1 := rfl

@[simp] theorem finish_phase : (p.finish i k).phase = (p.move i .told).phase := rfl

@[simp] theorem finish_done_self : (p.finish i k).done i = p.done i ++ [k] :=
  Function.update_self ..

theorem finish_done_of_ne (h : j ≠ i) : (p.finish i k).done j = p.done j :=
  Function.update_of_ne h ..

theorem jobs_of_ne (h : j ≠ i) : (p.move i φ).jobs j = p.jobs j := by
  rw [jobs, jobs, move_phase_of_ne h, move_done]

/-- A permit that stays with its job. -/
theorem jobs_move (h : φ.job = (p.phase i).job) : (p.move i φ).jobs = p.jobs := by
  funext j
  by_cases hj : j = i
  · subst hj
    rw [jobs, jobs, move_phase_self, move_done, h]
  · exact jobs_of_ne hj

theorem jobs_finish (h : p.phase i = .working k) : (p.finish i k).jobs = p.jobs := by
  funext j
  by_cases hj : j = i
  · subst hj
    rw [jobs, jobs, finish_done_self, finish_phase, move_phase_self, h]
    exact List.append_nil _
  · rw [jobs, jobs, finish_done_of_ne hj, finish_phase, move_phase_of_ne hj]

theorem jobs_give_self (h : p.phase i = .free) : (p.give i).jobs i = p.jobs i ++ [p.given] := by
  rw [jobs, jobs, give_done, give_phase, move_phase_self, h]
  simp [Phase.job]

theorem jobs_give_of_ne (h : j ≠ i) : (p.give i).jobs j = p.jobs j := by
  rw [jobs, jobs, give_done, give_phase, move_phase_of_ne h]

/-! ## The jobs -/

/-- Each job was given to one worker, and each worker has its jobs in order. -/
structure Assigned (p : WorkerPool ι) : Prop where
  sorted : ∀ i, (p.jobs i).Pairwise (· < ·)
  below : ∀ i, ∀ k ∈ p.jobs i, k < p.given
  owner : ∀ k < p.given, ∃! i, k ∈ p.jobs i

omit [DecidableEq ι] in
/-- Only the jobs and their number matter. -/
theorem Assigned.congr (h : p.Assigned) (hjobs : q.jobs = p.jobs) (hgiven : q.given = p.given) :
    q.Assigned := by
  constructor
  · rw [hjobs]
    exact h.sorted
  · rw [hjobs, hgiven]
    exact h.below
  · rw [hjobs, hgiven]
    exact h.owner

theorem Assigned.give (h : p.Assigned) (hfree : p.phase i = .free) : (p.give i).Assigned := by
  have hself := jobs_give_self hfree
  have hnew : ∀ j, p.given ∉ p.jobs j := fun j hmem => lt_irrefl _ (h.below j _ hmem)
  constructor
  · intro j
    by_cases hj : j = i
    · subst hj
      rw [hself, List.pairwise_append]
      refine ⟨h.sorted j, List.pairwise_singleton _ _, ?_⟩
      intro k hk l hl
      rw [List.mem_singleton.mp hl]
      exact h.below j k hk
    · rw [jobs_give_of_ne hj]
      exact h.sorted j
  · intro j k hk
    rw [give_given]
    by_cases hj : j = i
    · subst hj
      rw [hself] at hk
      cases List.mem_append.mp hk with
      | inl hold => exact Nat.lt_succ_of_lt (h.below j k hold)
      | inr hlast => rw [List.mem_singleton.mp hlast]; exact Nat.lt_succ_self _
    · rw [jobs_give_of_ne hj] at hk
      exact Nat.lt_succ_of_lt (h.below j k hk)
  · intro k hk
    rw [give_given, Nat.lt_succ_iff_lt_or_eq] at hk
    cases hk with
    | inl hlt =>
        have howner := h.owner k hlt
        have hmem : ∀ j, k ∈ (p.give i).jobs j ↔ k ∈ p.jobs j := by
          intro j
          by_cases hj : j = i
          · subst hj
            rw [hself, List.mem_append, List.mem_singleton]
            simp [hlt.ne]
          · rw [jobs_give_of_ne hj]
        simpa [hmem] using howner
    | inr heq =>
        subst heq
        refine ⟨i, by simp [hself], ?_⟩
        intro j hj
        by_contra hne
        exact hnew j (by simpa [jobs_give_of_ne hne] using hj)

theorem Assigned.step {a : Act ι} (h : p.Assigned) (hstep : Step p a q) : q.Assigned := by
  cases hstep with
  | give hfree => exact h.give hfree
  | start hsent => exact h.congr (jobs_move (by rw [hsent]; rfl)) rfl
  | finish hworking => exact h.congr (jobs_finish hworking) rfl
  | collect htold => exact h.congr (jobs_move (by rw [htold]; rfl)) rfl

/-- **Each job is given to one worker**, whatever the order of the steps. -/
theorem assigned (h : (system ι).Reachable p) : p.Assigned := by
  refine h.invariant Assigned ?_ fun _ _ _ hp hstep => hp.step hstep
  intro p hp
  rw [show p = fresh ι from hp]
  exact ⟨fun _ => List.Pairwise.nil, by simp [jobs, fresh, Phase.job], by simp [fresh]⟩

/-! ## The permits of the dispatcher -/

variable [Fintype ι]

/-- The workers whose permit the dispatcher has. -/
def free (p : WorkerPool ι) : Finset ι := {i | p.phase i = .free}

omit [DecidableEq ι] in
@[simp] theorem mem_free : i ∈ p.free ↔ p.phase i = .free := by simp [free]

omit [DecidableEq ι] in
theorem free_fresh : (fresh ι).free = Finset.univ := by simp [free, fresh]

theorem free_move (hφ : φ ≠ .free) : (p.move i φ).free = p.free.erase i := by
  ext j
  by_cases hj : j = i
  · subst hj
    simp [hφ]
  · simp [move_phase_of_ne hj, hj]

theorem free_move_of_ne (hφ : φ ≠ .free) (h : p.phase i ≠ .free) : (p.move i φ).free = p.free := by
  rw [free_move hφ, Finset.erase_eq_of_notMem (by simpa using h)]

theorem free_collect : (p.move i .free).free = insert i p.free := by
  ext j
  by_cases hj : j = i
  · subst hj
    simp
  · simp [move_phase_of_ne hj, hj]

end WorkerPool

end SocketPrograms
