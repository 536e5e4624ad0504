import SocketPrograms.Lib.Transition
import Mathlib.Data.List.Perm.Basic
import Mathlib.Data.List.Range

/-!
# The handlers of SIGCHLD

The servers `tcpserv03` and `tcpserv04` fork a child for each connection, and each child that ends
stays a zombie until the parent has waited for it. The first handler calls `wait` once; the second
calls `waitpid` until there is no zombie.

The kernel keeps one pending SIGCHLD: a child that ends while one is pending adds none. The handler
may interrupt the parent anywhere, but not itself. An interrupted `accept` is called again, and a
child may end at any time. Left out are an `accept` or a `fork` that fails, and a SIGCHLD that does
not come from a child's end: `signal` does not set `SA_NOCLDSTOP`, so a child that is stopped would
raise one as well, with no zombie for `wait` to return.

## Main definitions

* `Handler` — the two handlers; `State`, `next`, `system` — the server with either.

## Main results

* `zombies_left` — **each child is waited for at most once; at rest, `waitpid` leaves no zombie, and
  `wait` one for each signal that was lost**.
-/

namespace SocketPrograms.Unp.SigChld

/-- Which `sig_chld`. -/
inductive Handler
  /-- `sigchldwait.c`. -/
  | wait
  /-- `sigchldwaitpid.c`. -/
  | waitpid
  deriving DecidableEq

/-- Where the parent stands in its own code. -/
inductive ParentAt
  | accepting
  | forking
  | closing
  deriving DecidableEq

/-- Where the handler stands. -/
inductive HandlerAt
  /-- It does not run. -/
  | off
  /-- In `wait` or `waitpid`. -/
  | calling
  /-- Behind its last call. -/
  | returning
  deriving DecidableEq

/-- The server. Children are numbered in the order in which they were forked. -/
structure State where
  parent : ParentAt
  handler : HandlerAt
  /-- A SIGCHLD is pending. -/
  pending : Bool
  running : List ℕ
  zombies : List ℕ
  /-- The number of children forked. -/
  forked : ℕ
  /-- The children of `child %d terminated`, with `none` for -1. -/
  printed : List (Option ℕ)
  /-- The children that ended while a SIGCHLD was pending (history). -/
  lost : ℕ

/-- The steps; `k` is a place in the list of children. -/
inductive Label
  | accept
  | fork
  | close
  /-- A child ends. -/
  | exit (k : ℕ)
  /-- The signal is delivered. -/
  | deliver
  /-- The call returns a zombie. -/
  | reap (k : ℕ)
  /-- The call returns without one. -/
  | reapNone
  /-- The handler returns. -/
  | ret

/-- The handler's call returns and the line is printed: `waitpid` is called again. -/
def Handler.called (h : Handler) (pid : Option ℕ) (x : State) : State :=
  { x with
    printed := x.printed ++ [pid]
    handler := match h with | .wait => .returning | .waitpid => .calling }

/-- One step. The parent's own code does not step while the handler runs. -/
def next (h : Handler) (x : State) : Label → Option State
  | .accept =>
      if x.handler = .off ∧ x.parent = .accepting then some { x with parent := .forking } else none
  | .fork =>
      if x.handler = .off ∧ x.parent = .forking then
        some { x with
          parent := .closing, running := x.running ++ [x.forked], forked := x.forked + 1 }
      else none
  | .close =>
      if x.handler = .off ∧ x.parent = .closing then some { x with parent := .accepting } else none
  | .exit k =>
      x.running[k]?.map fun pid => { x with
        running := x.running.eraseIdx k, zombies := x.zombies ++ [pid], pending := true
        lost := if x.pending then x.lost + 1 else x.lost }
  | .deliver =>
      if x.handler = .off ∧ x.pending then some { x with handler := .calling, pending := false }
      else none
  | .reap k =>
      if x.handler = .calling then
        x.zombies[k]?.map fun pid =>
          h.called (some pid) { x with zombies := x.zombies.eraseIdx k }
      else none
  | .reapNone =>
      if x.handler = .calling ∧ x.zombies = [] then
        match h with
        -- `WNOHANG`
        | .waitpid => some { x with handler := .off }
        -- `wait` blocks while there are children
        | .wait => if x.running = [] then some (h.called none x) else none
      else none
  | .ret => if x.handler = .returning then some { x with handler := .off } else none

/-- The server in front of its loop. -/
def start : State := ⟨.accepting, .off, false, [], [], 0, [], 0⟩

def system (h : Handler) : System State Label := .ofNext (· = start) (next h)

/-- The zombies that a handler leaves, by the signals that were lost. -/
def Handler.leaves (h : Handler) (lost : ℕ) : ℕ :=
  match h with
  | .wait => lost
  | .waitpid => 0

/-- How the zombies are covered: each call of `wait` takes one, and each signal makes one call. The
loop of `waitpid` takes all that there are. -/
def Covered (h : Handler) (x : State) : Prop :=
  match h with
  | .wait => x.zombies.length = x.lost + x.pending.toNat + (decide (x.handler = .calling)).toNat
  | .waitpid => x.handler ≠ .returning ∧
      (x.zombies ≠ [] → x.pending = true ∨ x.handler = .calling)

/-- What every run keeps. -/
structure Kept (h : Handler) (x : State) : Prop where
  accounted : ∃ pids, x.printed = pids.map some ∧
    (pids ++ (x.zombies ++ x.running)).Perm (List.range x.forked)
  covered : Covered h x

variable {h : Handler} {x y : State} {k : ℕ}

/-- A member taken out of a list, and put in front. -/
theorem perm_eraseIdx {l : List ℕ} {pid : ℕ} (hk : l[k]? = some pid) :
    (pid :: l.eraseIdx k).Perm l := by
  have hlt := (List.getElem?_eq_some_iff.mp hk).1
  have hget := (List.getElem?_eq_some_iff.mp hk).2
  rw [← hget]
  exact List.getElem_cons_eraseIdx_perm hlt

/-- The parent's own steps. -/
theorem Kept.parent (hx : Kept h x) (parent : ParentAt) : Kept h { x with parent } :=
  ⟨hx.accounted, by cases h <;> exact hx.covered⟩

theorem Kept.fork (hx : Kept h x) :
    Kept h { x with
      parent := .closing, running := x.running ++ [x.forked], forked := x.forked + 1 } := by
  constructor
  · obtain ⟨pids, hprinted, hperm⟩ := hx.accounted
    refine ⟨pids, hprinted, ?_⟩
    rw [List.range_succ, ← List.append_assoc, ← List.append_assoc]
    rw [← List.append_assoc] at hperm
    exact hperm.append_right [x.forked]
  · cases h <;> exact hx.covered

/-- A child ends, and is covered by the signal. -/
theorem Kept.exit (hx : Kept h x) (hstep : next h x (.exit k) = some y) : Kept h y := by
  obtain ⟨pid, hk, rfl⟩ := Option.map_eq_some_iff.mp hstep
  constructor
  · obtain ⟨pids, hprinted, hperm⟩ := hx.accounted
    refine ⟨pids, hprinted, List.Perm.trans ?_ hperm⟩
    rw [List.append_assoc]
    exact ((perm_eraseIdx hk).append_left x.zombies).append_left pids
  · have hcovered := hx.covered
    cases h with
    | wait =>
        simp only [Covered, List.length_append, List.length_singleton] at hcovered ⊢
        cases hpending : x.pending <;> simp [hpending] at hcovered ⊢ <;> omega
    | waitpid => exact ⟨hcovered.1, fun _ => .inl rfl⟩

theorem Kept.deliver (hx : Kept h x) (hstep : next h x .deliver = some y) : Kept h y := by
  simp only [next] at hstep
  split at hstep
  · next hat =>
    obtain rfl := Option.some.inj hstep
    refine ⟨hx.accounted, ?_⟩
    have hcovered := hx.covered
    cases h with
    | wait => simpa [Covered, hat.1, hat.2] using hcovered
    | waitpid => exact ⟨by simp, fun _ => .inr rfl⟩
  · cases hstep

/-- A call returns a zombie. -/
theorem Kept.reap (hx : Kept h x) (hstep : next h x (.reap k) = some y) : Kept h y := by
  simp only [next] at hstep
  split at hstep
  · next hat =>
    obtain ⟨pid, hk, rfl⟩ := Option.map_eq_some_iff.mp hstep
    have hperm := perm_eraseIdx hk
    constructor
    · obtain ⟨pids, hprinted, hall⟩ := hx.accounted
      refine ⟨pids ++ [pid], by simp [Handler.called, hprinted], List.Perm.trans ?_ hall⟩
      rw [List.append_assoc]
      exact (hperm.append_right x.running).append_left pids
    · have hcovered := hx.covered
      cases h with
      | wait =>
          have hlen : (x.zombies.eraseIdx k).length + 1 = x.zombies.length := hperm.length_eq
          simp only [Covered, Handler.called, hat] at hcovered ⊢
          simp at hcovered ⊢
          omega
      | waitpid => exact ⟨by simp [Handler.called], fun _ => .inr rfl⟩
  · cases hstep

/-- A call of `wait` finds a zombie. -/
theorem Kept.zombies_ne_nil (hx : Kept .wait x) (hat : x.handler = .calling) : x.zombies ≠ [] := by
  have hcovered := hx.covered
  simp only [Covered, hat] at hcovered
  intro hnil
  simp [hnil] at hcovered

theorem Kept.reapNone (hx : Kept h x) (hstep : next h x .reapNone = some y) : Kept h y := by
  simp only [next] at hstep
  split at hstep
  · next hat =>
    cases h with
    | wait => exact absurd hat.2 (hx.zombies_ne_nil hat.1)
    | waitpid =>
        obtain rfl := Option.some.inj hstep
        exact ⟨hx.accounted, by simp, fun hne => absurd hat.2 hne⟩
  · cases hstep

theorem Kept.ret (hx : Kept h x) (hstep : next h x .ret = some y) : Kept h y := by
  simp only [next] at hstep
  split at hstep
  · next hat =>
    obtain rfl := Option.some.inj hstep
    refine ⟨hx.accounted, ?_⟩
    have hcovered := hx.covered
    cases h with
    | wait => simpa [Covered, hat] using hcovered
    | waitpid => exact absurd hat hcovered.1
  · cases hstep

theorem Kept.next (hx : Kept h x) {l : Label} (hstep : next h x l = some y) : Kept h y := by
  cases l with
  | accept =>
      obtain ⟨_, ⟨⟩⟩ := Option.ite_none_right_eq_some.mp hstep
      exact hx.parent .forking
  | fork =>
      obtain ⟨_, ⟨⟩⟩ := Option.ite_none_right_eq_some.mp hstep
      exact hx.fork
  | close =>
      obtain ⟨_, ⟨⟩⟩ := Option.ite_none_right_eq_some.mp hstep
      exact hx.parent .accepting
  | exit k => exact hx.exit hstep
  | deliver => exact hx.deliver hstep
  | reap k => exact hx.reap hstep
  | reapNone => exact hx.reapNone hstep
  | ret => exact hx.ret hstep

theorem kept {tr : List (State × Label)} (hexec : (system h).Exec tr x) : Kept h x := by
  refine hexec.invariant (Kept h) (fun _ _ => True) ?_ (fun _ _ _ _ hx hstep => hx.next hstep)
    fun _ _ => trivial
  intro x hx
  rw [show x = start from hx]
  exact ⟨⟨[], rfl, .refl _⟩, by cases h <;> simp [Covered, start]⟩

/-- Two children end before the first signal is delivered. -/
theorem wait_run :
    ∃ tr x, (system .wait).Exec tr x ∧ x.pending = false ∧ x.handler = .off ∧ x.lost = 1 := by
  have hrun : (System.replay (next .wait) start
      [.accept, .fork, .close, .accept, .fork, .exit 0, .exit 0, .deliver, .reap 0, .ret]).map
      (fun p => (p.2.pending, p.2.handler, p.2.lost)) = some (false, .off, 1) := by
    decide
  have hinit : (system .wait).init start := rfl
  obtain ⟨tr, x, hexec, heq⟩ := System.exec_of_replay hinit hrun
  simp only [Prod.mk.injEq] at heq
  exact ⟨tr, x, hexec, heq⟩

/-- **What the two handlers leave**, in every interleaving in which no child is stopped: each child
that was forked is running, a zombie, or was waited for and printed once; `wait` never blocks the
server; and when no SIGCHLD is pending and the handler does not run, `waitpid` leaves no zombie, and
`wait` leaves one for each child that ended while a SIGCHLD was pending. -/
theorem zombies_left (h : Handler) (tr : List (State × Label)) (x : State)
    (hexec : (system h).Exec tr x) :
    (∃ pids, x.printed = pids.map some ∧
        (pids ++ (x.zombies ++ x.running)).Perm (List.range x.forked)) ∧
      (h = .wait → x.handler = .calling → x.zombies ≠ []) ∧
      (x.pending = false → x.handler = .off → x.zombies.length = h.leaves x.lost) := by
  have hx := kept hexec
  refine ⟨hx.accounted, ?_, ?_⟩
  · rintro rfl hat
    exact hx.zombies_ne_nil hat
  · intro hpending hoff
    have hcovered := hx.covered
    cases h with
    | wait => simpa [Covered, Handler.leaves, hpending, hoff] using hcovered
    | waitpid =>
        have hnil : x.zombies = [] := by
          by_contra hne
          simpa [hpending, hoff] using hcovered.2 hne
        rw [hnil]
        rfl

/-- With `wait`, one of the two stays a zombie. -/
theorem zombies_left_two :
    ∃ tr x, (system .wait).Exec tr x ∧ x.zombies.length = 1 := by
  obtain ⟨tr, x, hexec, hpending, hoff, hlost⟩ := wait_run
  have hleaves := (zombies_left .wait tr x hexec).2.2 hpending hoff
  exact ⟨tr, x, hexec, hleaves.trans hlost⟩

end SocketPrograms.Unp.SigChld
