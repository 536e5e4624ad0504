import SocketPrograms.Lib.WorkerPool
import Mathlib.Data.Fintype.Card

/-!
# The server that passes connections to its children

`serv05.c` forks its children first. It accepts each connection itself, passes it over a stream pipe
to the first child whose `child_status` is 0, and marks the child busy. A child that is done writes
a byte to its pipe, which makes it available again. While `navail` is 0, the listening socket is
not watched.

What the parent does between two system calls is a step, and each child steps on its own. A
connection that the client resets before it is accepted, for which `accept` would wait, is left out.
Every descriptor is taken to be below `FD_SETSIZE`, which the source does not check.

No child ends: `web_child` is taken to return. A child's standard error is its stream pipe, so the
text that `err_quit` prints there would come to the parent, which takes each byte for a free child.

## Main definitions

* `State`, `next`, `system` — the parent, its array of children, and the pipes.
* `childOf` — what a child and its entry look like, by where its permit is.

## Main results

* `Follows.next` — the server follows a pool of workers with a permit each.
* `passes_once` — **each connection is passed to one child, which is waiting for it**, and the
  counts that `sig_int` prints are right.
* `never_stuck` — **while a connection waits and a child is not serving, some process can step**.
-/

namespace SocketPrograms.Unp.Serv05

open WorkerPool (Phase)

/-- Where a child stands. -/
inductive ChildAt
  /-- In its `Read_fd`. -/
  | reading
  /-- In `web_child`. -/
  | serving (connfd : ℕ)
  deriving DecidableEq

/-- A child, with its entry in the array and its stream pipe. A connection is its number in the
order of the accepts. -/
structure Child where
  child_status : ℕ
  child_count : ℕ
  /-- The descriptors on their way to the child. -/
  passed : List ℕ
  /-- The bytes on their way to the parent. -/
  told : ℕ
  at_ : ChildAt
  /-- The connections that the child has closed (history). -/
  served : List ℕ

/-- Where the parent stands. `rset` are the children that `select` reported. -/
inductive ParentAt (n : ℕ)
  /-- In front of its `select`. -/
  | selecting
  /-- In front of its `accept`. -/
  | accepting (rset : Finset (Fin n)) (nsel : ℤ)
  /-- At this index of the loop over the children. -/
  | scanning (i : ℕ) (rset : Finset (Fin n)) (nsel : ℤ)
  /-- Behind `err_quit("no available children")`. -/
  | quit
  deriving DecidableEq

/-- The server with `n` children. -/
structure State (n : ℕ) where
  children : Fin n → Child
  navail : ℤ
  parent : ParentAt n
  /-- The connections that wait to be accepted. -/
  backlog : ℕ
  /-- The number of those that were (history). -/
  accepted : ℕ

/-- The steps. -/
inductive Label (n : ℕ)
  /-- A connection arrives. -/
  | connect
  | select
  | accept
  /-- One pass of the loop over the children. -/
  | scan
  /-- The `Read_fd` of a child. -/
  | readFd (i : Fin n)
  /-- A child comes back from `web_child`, closes the connection and writes a byte. -/
  | finish (i : Fin n)

variable {n : ℕ}

/-- The state with this child. -/
def State.setChild (x : State n) (i : Fin n) (c : Child) : State n :=
  { x with children := Function.update x.children i c }

/-- The children whose pipe is readable. -/
def State.ready (x : State n) : Finset (Fin n) := {i | 0 < (x.children i).told}

/-- `if (--nsel == 0)`: back to `select`, else on from this index. -/
def onward (i : ℕ) (rset : Finset (Fin n)) (nsel : ℤ) : ParentAt n :=
  if nsel - 1 = 0 then .selecting else .scanning i rset (nsel - 1)

/-- One step. -/
def next (x : State n) : Label n → Option (State n)
  | .connect => some { x with backlog := x.backlog + 1 }
  | .select =>
      if x.parent = .selecting then
        let listening : Bool := 0 < x.navail ∧ 0 < x.backlog
        if listening then
          some { x with parent := .accepting x.ready (x.ready.card + 1) }
        else if x.ready.Nonempty then
          some { x with parent := .scanning 0 x.ready x.ready.card }
        else none
      else none
  | .accept =>
      match x.parent with
      | .accepting rset nsel =>
          if 0 < x.backlog then
            let connfd := x.accepted
            let x := { x with backlog := x.backlog - 1, accepted := x.accepted + 1 }
            match (List.finRange n).find? fun i => (x.children i).child_status = 0 with
            | none => some { x with parent := .quit }
            | some i =>
                let c := x.children i
                some { x.setChild i { c with
                    child_status := 1, child_count := c.child_count + 1
                    passed := c.passed ++ [connfd] } with
                  navail := x.navail - 1, parent := onward 0 rset nsel }
          else none
      | _ => none
  | .scan =>
      match x.parent with
      | .scanning i rset nsel =>
          if h : i < n then
            if ⟨i, h⟩ ∈ rset then
              let c := x.children ⟨i, h⟩
              -- `Read` blocks where the pipe is empty
              if 0 < c.told then
                some { x.setChild ⟨i, h⟩ { c with child_status := 0, told := c.told - 1 } with
                  navail := x.navail + 1, parent := onward (i + 1) rset nsel }
              else none
            else some { x with parent := .scanning (i + 1) rset nsel }
          else some { x with parent := .selecting }
      | _ => none
  | .readFd i =>
      let c := x.children i
      match c.at_, c.passed with
      | .reading, connfd :: passed =>
          some (x.setChild i { c with at_ := .serving connfd, passed })
      | _, _ => none
  | .finish i =>
      let c := x.children i
      match c.at_ with
      | .serving connfd =>
          some (x.setChild i { c with
            at_ := .reading, told := c.told + 1, served := c.served ++ [connfd] })
      | .reading => none

/-- The server in front of its first `select`, with its children forked. -/
def start (n : ℕ) : State n where
  children := fun _ => ⟨0, 0, [], 0, .reading, []⟩
  navail := n
  parent := .selecting
  backlog := 0
  accepted := 0

def system (n : ℕ) : System (State n) (Label n) := .ofNext (· = start n) next

/-- The connections that were passed to a child. -/
def Child.connections (c : Child) : List ℕ :=
  c.served ++ (match c.at_ with | .serving connfd => [connfd] | .reading => []) ++ c.passed

/-! ## The pool of workers -/

/-- A child by where its permit is, and by what it has served. -/
def childOf : Phase → List ℕ → Child
  | .free, served => ⟨0, served.length, [], 0, .reading, served⟩
  | .sent connfd, served => ⟨1, served.length + 1, [connfd], 0, .reading, served⟩
  | .working connfd, served => ⟨1, served.length + 1, [], 0, .serving connfd, served⟩
  | .told, served => ⟨1, served.length, [], 1, .reading, served⟩

/-- What the parent relies on: the children that were reported and not looked at yet have told it
that they are available. -/
def Relies (p : WorkerPool (Fin n)) (backlog : ℕ) : ParentAt n → Prop
  | .selecting => True
  | .accepting rset nsel =>
      0 < backlog ∧ p.free.Nonempty ∧ nsel = rset.card + 1 ∧ ∀ j ∈ rset, p.phase j = .told
  | .scanning i rset nsel =>
      0 < nsel ∧ nsel = (rset.filter fun j => i ≤ j.val).card ∧
        ∀ j ∈ rset, i ≤ j.val → p.phase j = .told
  | .quit => False

/-- The server as a pool of workers. -/
structure Follows (x : State n) (p : WorkerPool (Fin n)) : Prop where
  children : ∀ i, x.children i = childOf (p.phase i) (p.done i)
  accepted : x.accepted = p.given
  navail : x.navail = p.free.card
  parent : Relies p x.backlog x.parent

variable {x y : State n} {p : WorkerPool (Fin n)} {i : Fin n}

@[simp] theorem childOf_status_eq_zero {φ : Phase} {served : List ℕ} :
    (childOf φ served).child_status = 0 ↔ φ = .free := by
  cases φ <;> simp [childOf]

@[simp] theorem childOf_told_pos {φ : Phase} {served : List ℕ} :
    0 < (childOf φ served).told ↔ φ = .told := by
  cases φ <;> simp [childOf]

theorem childOf_connections (φ : Phase) (served : List ℕ) :
    (childOf φ served).connections = served ++ φ.job := by
  cases φ <;> simp [childOf, Child.connections, Phase.job]

theorem childOf_count (φ : Phase) (served : List ℕ) :
    (childOf φ served).child_count = (childOf φ served).connections.length := by
  rw [childOf_connections]
  cases φ <;> simp [childOf, Phase.job]

/-- The parent goes on to rely on what it did, where no permit has left it or its way back. -/
theorem Relies.congr {q : WorkerPool (Fin n)} {backlog backlog' : ℕ} {parent : ParentAt n}
    (h : Relies p backlog parent) (hbacklog : backlog ≤ backlog') (hfree : q.free = p.free)
    (htold : ∀ j, p.phase j = .told → q.phase j = .told) : Relies q backlog' parent := by
  cases parent with
  | selecting => trivial
  | accepting rset nsel =>
      obtain ⟨hpos, hsome, hnsel, hrset⟩ := h
      exact ⟨hpos.trans_le hbacklog, by rwa [hfree], hnsel, fun j hj => htold j (hrset j hj)⟩
  | scanning i rset nsel =>
      obtain ⟨hpos, hnsel, hrset⟩ := h
      exact ⟨hpos, hnsel, fun j hj hij => htold j (hrset j hj hij)⟩
  | quit => exact h

/-- Back to `select`, or on from an index at which the parent may stand. -/
theorem relies_onward {backlog m : ℕ} {rset : Finset (Fin n)} {nsel : ℤ}
    (hnsel : nsel - 1 = (rset.filter fun j => m ≤ j.val).card)
    (hrset : ∀ j ∈ rset, m ≤ j.val → p.phase j = .told) :
    Relies p backlog (onward m rset nsel) := by
  rw [onward]
  split
  · trivial
  · next hne => exact ⟨by omega, hnsel, hrset⟩

theorem setChild_self {c : Child} : (x.setChild i c).children i = c := Function.update_self ..

theorem setChild_of_ne {c : Child} {j : Fin n} (h : j ≠ i) :
    (x.setChild i c).children j = x.children j := Function.update_of_ne h ..

/-- One child changes. -/
theorem Follows.setChild (hx : Follows x p) {q : WorkerPool (Fin n)} {c : Child}
    (hself : c = childOf (q.phase i) (q.done i))
    (hother : ∀ j, j ≠ i → q.phase j = p.phase j ∧ q.done j = p.done j) (j : Fin n) :
    (x.setChild i c).children j = childOf (q.phase j) (q.done j) := by
  by_cases hj : j = i
  · subst hj
    rw [setChild_self, hself]
  · have hsame := hother j hj
    rw [setChild_of_ne hj, hx.children j, hsame.1, hsame.2]

/-- A child takes what was passed to it. -/
theorem Follows.readFd (hx : Follows x p) (h : next x (.readFd i) = some y) :
    ∃ a q, WorkerPool.Step p a q ∧ Follows y q := by
  simp only [next, hx.children i] at h
  cases hphase : p.phase i with
  | sent connfd =>
      rw [hphase] at h
      obtain rfl := Option.some.inj h
      refine ⟨_, _, .start hphase, ?_, hx.accepted, ?_, ?_⟩
      · refine hx.setChild ?_ fun j hj => ⟨WorkerPool.move_phase_of_ne hj, rfl⟩
        rw [WorkerPool.move_phase_self]
        rfl
      · rw [WorkerPool.free_move_of_ne (by simp) (by simp [hphase])]
        exact hx.navail
      · refine hx.parent.congr le_rfl (WorkerPool.free_move_of_ne (by simp) (by simp [hphase])) ?_
        intro j hj
        have hne : j ≠ i := by
          rintro rfl
          cases hphase.symm.trans hj
        rwa [WorkerPool.move_phase_of_ne hne]
  | free => simp [hphase, childOf] at h
  | working connfd => simp [hphase, childOf] at h
  | told => simp [hphase, childOf] at h

/-- A child is done. -/
theorem Follows.finish (hx : Follows x p) (h : next x (.finish i) = some y) :
    ∃ a q, WorkerPool.Step p a q ∧ Follows y q := by
  simp only [next, hx.children i] at h
  cases hphase : p.phase i with
  | working connfd =>
      rw [hphase] at h
      obtain rfl := Option.some.inj h
      have hfree : (p.finish i connfd).free = p.free :=
        WorkerPool.free_move_of_ne (by simp) (by simp [hphase])
      refine ⟨_, _, .finish hphase, ?_, hx.accepted, ?_, ?_⟩
      · refine hx.setChild ?_ fun j hj =>
          ⟨WorkerPool.move_phase_of_ne hj, WorkerPool.finish_done_of_ne hj⟩
        rw [WorkerPool.finish_phase, WorkerPool.move_phase_self, WorkerPool.finish_done_self]
        simp [childOf]
      · rw [hfree]
        exact hx.navail
      · refine hx.parent.congr le_rfl hfree ?_
        intro j hj
        have hne : j ≠ i := by
          rintro rfl
          cases hphase.symm.trans hj
        rwa [WorkerPool.finish_phase, WorkerPool.move_phase_of_ne hne]
  | free => simp [hphase, childOf] at h
  | sent connfd => simp [hphase, childOf] at h
  | told => simp [hphase, childOf] at h

/-- `select` reports the children that have told the parent. -/
theorem Follows.mem_ready (hx : Follows x p) {j : Fin n} : j ∈ x.ready ↔ p.phase j = .told := by
  rw [State.ready, Finset.mem_filter_univ, hx.children j, childOf_told_pos]

theorem Follows.select (hx : Follows x p) (h : next x .select = some y) : Follows y p := by
  have hready : ∀ j ∈ x.ready, p.phase j = .told := fun j hj => hx.mem_ready.mp hj
  simp only [next] at h
  split at h
  · split at h
    · next hlisten =>
      obtain rfl := Option.some.inj h
      have hlisten : 0 < x.navail ∧ 0 < x.backlog := by simpa using hlisten
      have hsome : p.free.Nonempty := by
        rw [← Finset.card_pos]
        have := hx.navail
        omega
      exact ⟨hx.children, hx.accepted, hx.navail, hlisten.2, hsome, rfl, hready⟩
    · split at h
      · next hsome =>
        obtain rfl := Option.some.inj h
        refine ⟨hx.children, hx.accepted, hx.navail, ?_, ?_, fun j hj _ => hready j hj⟩
        · exact Int.natCast_pos.mpr (Finset.card_pos.mpr hsome)
        · simp
      · cases h
  · cases h

/-- **A connection is passed** to a child that waits for one. -/
theorem Follows.accept (hx : Follows x p) (h : next x .accept = some y) :
    ∃ a q, WorkerPool.Step p a q ∧ Follows y q := by
  simp only [next] at h
  split at h
  · next rset nsel hparent =>
    have hrelies := hx.parent
    rw [hparent] at hrelies
    obtain ⟨hpos, ⟨k, hk⟩, hnsel, hrset⟩ := hrelies
    rw [if_pos hpos] at h
    split at h
    · next hnone =>
      have hbusy := List.find?_eq_none.mp hnone k (List.mem_finRange k)
      rw [hx.children k] at hbusy
      simp [WorkerPool.mem_free.mp hk] at hbusy
    · next i hi =>
      obtain rfl := Option.some.inj h
      have hfree : p.phase i = .free := by
        have hstatus := List.find?_some hi
        rw [hx.children i] at hstatus
        simpa using hstatus
      refine ⟨_, _, .give hfree, ?_, ?_, ?_, ?_⟩
      · refine hx.setChild ?_ fun j hj => ⟨WorkerPool.move_phase_of_ne hj, rfl⟩
        rw [WorkerPool.give_phase, WorkerPool.move_phase_self, hx.children i, hfree, hx.accepted]
        rfl
      · rw [WorkerPool.give_given, ← hx.accepted]
        rfl
      · have hcard : (p.give i).free.card + 1 = p.free.card := by
          have herase : (p.give i).free = p.free.erase i := WorkerPool.free_move (by simp)
          rw [herase]
          exact Finset.card_erase_add_one (by simpa using hfree)
        have hnavail := hx.navail
        change x.navail - 1 = _
        omega
      · refine relies_onward ?_ ?_
        · simp [hnsel]
        · intro j hj _
          have hne : j ≠ i := by
            rintro rfl
            cases hfree.symm.trans (hrset j hj)
          rw [WorkerPool.give_phase, WorkerPool.move_phase_of_ne hne]
          exact hrset j hj
  · cases h

/-- The reported children at an index and behind it. -/
theorem card_filter_le {rset : Finset (Fin n)} (i : Fin n) (hi : i ∈ rset) :
    (rset.filter fun j => i.val ≤ j.val).card =
      (rset.filter fun j => i.val + 1 ≤ j.val).card + 1 := by
  have hinsert : (rset.filter fun j => i.val ≤ j.val) =
      insert i (rset.filter fun j => i.val + 1 ≤ j.val) := by
    ext j
    simp only [Finset.mem_filter, Finset.mem_insert, Fin.ext_iff]
    constructor
    · intro hj
      rcases Nat.eq_or_lt_of_le hj.2 with heq | hlt
      · exact .inl heq.symm
      · exact .inr ⟨hj.1, hlt⟩
    · rintro (heq | hj)
      · exact ⟨by rwa [Fin.ext heq], by omega⟩
      · exact ⟨hj.1, by omega⟩
  rw [hinsert, Finset.card_insert_of_notMem (by simp)]

theorem filter_le_of_notMem {rset : Finset (Fin n)} (i : Fin n) (hi : i ∉ rset) :
    (rset.filter fun j => i.val ≤ j.val) = rset.filter fun j => i.val + 1 ≤ j.val := by
  ext j
  simp only [Finset.mem_filter, and_congr_right_iff]
  intro hj
  have hne : i.val ≠ j.val := fun heq => hi (by rwa [Fin.ext heq])
  omega

/-- **A child that was reported** is available again. -/
theorem Follows.scan (hx : Follows x p) (h : next x .scan = some y) :
    Follows y p ∨ ∃ a q, WorkerPool.Step p a q ∧ Follows y q := by
  simp only [next] at h
  split at h
  · next m rset nsel hparent =>
    have hrelies := hx.parent
    rw [hparent] at hrelies
    obtain ⟨hpos, hnsel, hrset⟩ := hrelies
    split at h
    · next hm =>
      split at h
      · next hmem =>
        have htold : p.phase ⟨m, hm⟩ = .told := hrset ⟨m, hm⟩ hmem le_rfl
        split at h
        · obtain rfl := Option.some.inj h
          refine .inr ⟨_, _, .collect htold, ?_, hx.accepted, ?_, ?_⟩
          · refine hx.setChild ?_ fun j hj => ⟨WorkerPool.move_phase_of_ne hj, rfl⟩
            rw [WorkerPool.move_phase_self, hx.children, htold]
            rfl
          · rw [WorkerPool.free_collect, Finset.card_insert_of_notMem (by simp [htold])]
            have hnavail := hx.navail
            change x.navail + 1 = _
            omega
          · have hcard : (rset.filter fun j => m ≤ j.val).card =
                (rset.filter fun j => m + 1 ≤ j.val).card + 1 := card_filter_le ⟨m, hm⟩ hmem
            refine relies_onward (by omega) ?_
            intro j hj hmj
            have hne : j ≠ ⟨m, hm⟩ := by
              rintro rfl
              exact absurd hmj (Nat.not_succ_le_self m)
            rw [WorkerPool.move_phase_of_ne hne]
            exact hrset j hj (by omega)
        · cases h
      · next hmem =>
        obtain rfl := Option.some.inj h
        refine .inl ⟨hx.children, hx.accepted, hx.navail, hpos, ?_, fun j hj hmj =>
          hrset j hj (by omega)⟩
        rw [hnsel, filter_le_of_notMem ⟨m, hm⟩ hmem]
    · obtain rfl := Option.some.inj h
      exact .inl ⟨hx.children, hx.accepted, hx.navail, trivial⟩
  · cases h

/-- **One step**: the server follows the pool. -/
theorem Follows.next {l : Label n} (hx : Follows x p) (h : next x l = some y) :
    Follows y p ∨ ∃ a q, WorkerPool.Step p a q ∧ Follows y q := by
  cases l with
  | connect =>
      obtain rfl := Option.some.inj h
      exact .inl ⟨hx.children, hx.accepted, hx.navail,
        hx.parent.congr (Nat.le_succ _) rfl fun _ => id⟩
  | select => exact .inl (hx.select h)
  | accept => exact .inr (hx.accept h)
  | scan => exact hx.scan h
  | readFd i => exact .inr (hx.readFd h)
  | finish i => exact .inr (hx.finish h)

theorem start_follows (n : ℕ) : Follows (start n) (WorkerPool.fresh (Fin n)) := by
  refine ⟨fun _ => rfl, rfl, ?_, trivial⟩
  rw [WorkerPool.free_fresh, Finset.card_univ, Fintype.card_fin]
  rfl

/-- Every run of the server follows a run of the pool. -/
theorem follows {tr : List (State n × Label n)} (h : (system n).Exec tr x) :
    ∃ p, (WorkerPool.system (Fin n)).Reachable p ∧ Follows x p := by
  refine h.simulates Follows (fun _ _ => True) ?_ ?_ fun _ _ => trivial
  · intro x hx
    rw [show x = start n from hx]
    exact ⟨_, rfl, start_follows n⟩
  · intro x l y p _ hx hstep
    exact hx.next hstep

/-! ## A server with two children -/

/-- A third connection waits until the first child comes back. -/
theorem busy_run :
    ∃ tr x, (system 2).Exec tr x ∧ x.accepted = 3 ∧ (x.children 0).connections = [0, 2] := by
  have hrun : (System.replay next (start 2)
      [.connect, .connect, .connect, .select, .accept, .readFd 0, .select, .accept, .readFd 1,
        .finish 0, .select, .scan, .select, .accept]).map
      (fun p => (p.2.accepted, (p.2.children 0).connections)) = some (3, [0, 2]) := by
    decide +kernel
  have hinit : (system 2).init (start 2) := rfl
  obtain ⟨tr, x, hexec, heq⟩ := System.exec_of_replay hinit hrun
  exact ⟨tr, x, hexec, congrArg Prod.fst heq, congrArg Prod.snd heq⟩

/-! ## What the server guarantees -/

/-- **Each connection is passed to one child**, in every interleaving in which no child ends: the
parent never finds all children busy; a child is in its `Read_fd` when a connection is on its way to
it, and no second one is; and `child_count` is the number of connections that were passed to the
child. -/
theorem passes_once (n : ℕ) (tr : List (State n × Label n)) (x : State n)
    (h : (system n).Exec tr x) :
    x.parent ≠ .quit ∧ (∀ k < x.accepted, ∃! i, k ∈ (x.children i).connections) ∧
      ∀ i, (x.children i).connections.Pairwise (· < ·) ∧
        (∀ k ∈ (x.children i).connections, k < x.accepted) ∧
        (x.children i).child_count = (x.children i).connections.length ∧
        (x.children i).passed.length ≤ 1 ∧
        ((x.children i).passed ≠ [] → (x.children i).at_ = .reading) := by
  obtain ⟨p, hp, hx⟩ := follows h
  have hassigned := WorkerPool.assigned hp
  have hjobs : ∀ i, (x.children i).connections = p.jobs i := by
    intro i
    rw [hx.children i, childOf_connections]
    rfl
  refine ⟨?_, ?_, ?_⟩
  · intro hquit
    have hrelies := hx.parent
    rw [hquit] at hrelies
    exact hrelies
  · intro k hk
    rw [hx.accepted] at hk
    simpa only [hjobs] using hassigned.owner k hk
  · intro i
    rw [hjobs i, hx.accepted]
    refine ⟨hassigned.sorted i, hassigned.below i, ?_, ?_, ?_⟩
    · rw [← hjobs i, hx.children i]
      exact childOf_count _ _
    · rw [hx.children i]
      cases p.phase i <;> simp [childOf]
    · rw [hx.children i]
      cases p.phase i <;> simp [childOf]

theorem passes_once_two :
    ∃ tr x, (system 2).Exec tr x ∧ x.accepted = 3 ∧
      ∀ k < x.accepted, ∃! i, k ∈ (x.children i).connections := by
  obtain ⟨tr, x, hexec, haccepted, _⟩ := busy_run
  exact ⟨tr, x, hexec, haccepted, (passes_once 2 tr x hexec).2.1⟩

/-- Neither a connection that arrives nor the end of a service. -/
def Label.Own : Label n → Prop
  | .connect | .finish _ => False
  | _ => True

/-- The loop over the children does not block: a reported child has told. -/
theorem Follows.scans (hx : Follows x p) {m : ℕ} {rset : Finset (Fin n)} {nsel : ℤ}
    (hparent : x.parent = .scanning m rset nsel) : ∃ y, Serv05.next x .scan = some y := by
  have hrelies := hx.parent
  rw [hparent] at hrelies
  simp only [Serv05.next, hparent]
  split
  · next hm =>
    split
    · next hmem =>
      have htold : 0 < (x.children ⟨m, hm⟩).told := by
        rw [hx.children, childOf_told_pos]
        exact hrelies.2.2 ⟨m, hm⟩ hmem le_rfl
      rw [if_pos htold]
      exact ⟨_, rfl⟩
    · exact ⟨_, rfl⟩
  · exact ⟨_, rfl⟩

/-- `accept` does not block. -/
theorem Follows.accepts (hx : Follows x p) {rset : Finset (Fin n)} {nsel : ℤ}
    (hparent : x.parent = .accepting rset nsel) : ∃ y, Serv05.next x .accept = some y := by
  have hrelies := hx.parent
  rw [hparent] at hrelies
  simp only [Serv05.next, hparent, if_pos hrelies.1]
  split <;> exact ⟨_, rfl⟩

/-- `select` comes back where a child has told, or a connection waits and a child does too. -/
theorem Follows.selects (hx : Follows x p) (hparent : x.parent = .selecting)
    (h : (∃ i, p.phase i = .told) ∨ (p.free.Nonempty ∧ 0 < x.backlog)) :
    ∃ y, Serv05.next x .select = some y := by
  simp only [Serv05.next, if_pos hparent]
  split
  · exact ⟨_, rfl⟩
  · next hnot =>
    cases h with
    | inl htold =>
        obtain ⟨i, hi⟩ := htold
        rw [if_pos ⟨i, hx.mem_ready.mpr hi⟩]
        exact ⟨_, rfl⟩
    | inr hlisten =>
        have hcard := Finset.card_pos.mpr hlisten.1
        have hnavail := hx.navail
        exact absurd (decide_eq_true ⟨by omega, hlisten.2⟩) hnot

/-- **The server keeps moving** as long as no child ends: in every reachable state, the parent or a
child that has a connection passed to it can step; or the parent is in its `select`, nothing is on
its way to or from a child, and if a connection waits, every child is serving one. -/
theorem never_stuck (n : ℕ) (tr : List (State n × Label n)) (x : State n)
    (h : (system n).Exec tr x) :
    (∃ l y, l.Own ∧ next x l = some y) ∨
      (x.parent = .selecting ∧ ∀ i, (x.children i).passed = [] ∧ (x.children i).told = 0 ∧
        (0 < x.backlog → ∃ k, (x.children i).at_ = .serving k)) := by
  obtain ⟨p, _, hx⟩ := follows h
  cases hparent : x.parent with
  | accepting rset nsel =>
      obtain ⟨y, hy⟩ := hx.accepts hparent
      exact .inl ⟨.accept, y, trivial, hy⟩
  | scanning m rset nsel =>
      obtain ⟨y, hy⟩ := hx.scans hparent
      exact .inl ⟨.scan, y, trivial, hy⟩
  | quit =>
      have hrelies := hx.parent
      rw [hparent] at hrelies
      exact absurd hrelies id
  | selecting =>
      by_cases hselects : (∃ i, p.phase i = .told) ∨ (p.free.Nonempty ∧ 0 < x.backlog)
      · obtain ⟨y, hy⟩ := hx.selects hparent hselects
        exact .inl ⟨.select, y, trivial, hy⟩
      · by_cases hsent : ∃ i k, p.phase i = .sent k
        · obtain ⟨i, k, hi⟩ := hsent
          have hreads : ∃ y, next x (.readFd i) = some y := by
            simp only [next, hx.children i, hi]
            exact ⟨_, rfl⟩
          obtain ⟨y, hy⟩ := hreads
          exact .inl ⟨.readFd i, y, trivial, hy⟩
        · refine .inr ⟨rfl, fun i => ?_⟩
          rw [hx.children i]
          cases hphase : p.phase i with
          | free =>
              refine ⟨rfl, rfl, fun hwaits => absurd (.inr ⟨⟨i, ?_⟩, hwaits⟩) hselects⟩
              exact WorkerPool.mem_free.mpr hphase
          | sent k => exact absurd ⟨i, k, hphase⟩ hsent
          | working k => exact ⟨rfl, rfl, fun _ => ⟨k, rfl⟩⟩
          | told => exact absurd (.inl ⟨i, hphase⟩) hselects

theorem never_stuck_two :
    ∃ tr x, (system 2).Exec tr x ∧ x.accepted = 3 ∧
      ((∃ l y, l.Own ∧ next x l = some y) ∨
        (x.parent = .selecting ∧ ∀ i, (x.children i).passed = [] ∧ (x.children i).told = 0 ∧
          (0 < x.backlog → ∃ k, (x.children i).at_ = .serving k))) := by
  obtain ⟨tr, x, hexec, haccepted, _⟩ := busy_run
  exact ⟨tr, x, hexec, haccepted, never_stuck 2 tr x hexec⟩

end SocketPrograms.Unp.Serv05
