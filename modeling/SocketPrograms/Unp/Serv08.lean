import SocketPrograms.Lib.Ring
import SocketPrograms.Lib.Transition
import Mathlib.Data.Fintype.Card
import Mathlib.Data.Fintype.Basic

/-!
# The server with a pool of threads

The main thread of `serv08.c` accepts connections and stores them in the array `clifd`; each thread
of the pool takes one, serves it and comes back. A mutex guards the array and its indices, and a
thread that finds the array empty waits on a condition variable, which the main thread signals
behind each connection it stores.

A signal wakes at least one thread where one waits, and a thread may wake without one. What a
thread does between lock and unlock is a step or two, with steps of the others in between.
`web_child` is a step: it is taken to return. Its `err_quit` on a number of bytes out of range, and
the `err_sys` of its `Readline` and `Writen`, end the process for all threads and are left out, as
is a failing `accept`. A run here is thus a run of the server up to such an end.

## Main definitions

* `State`, `next`, `system` — the two indices and the array, the mutex, and where the main thread
  and the threads of the pool stand.
* `ThreadAt.looks` — the thread will look at the indices before it waits.

## Main results

* `handed_over` — **each connection is served by one thread, in the order of the accepts**, and the
  counts that `sig_int` prints add up.
* `no_lost_wakeup` — **no connection is left while a thread waits**.
-/

namespace SocketPrograms.Unp.Serv08

/-- `MAXNCLI`. -/
abbrev maxNcli : ℕ := 32

/-- Where the main thread stands. -/
inductive MainAt
  /-- In its `accept`. -/
  | accepting
  /-- In front of `Pthread_mutex_lock`. -/
  | accepted (connfd : ℕ)
  /-- Behind it. -/
  | locked (connfd : ℕ)
  /-- In front of `Pthread_cond_signal`. -/
  | stored
  /-- In front of `Pthread_mutex_unlock`. -/
  | signalled
  /-- Behind `err_quit`, which ends the process. -/
  | quit
  deriving DecidableEq

/-- Where a thread of the pool stands. -/
inductive ThreadAt
  /-- In front of `Pthread_mutex_lock`. -/
  | start
  /-- In front of the `while`, with the mutex. -/
  | testing
  /-- In `Pthread_cond_wait`. -/
  | waiting
  /-- There, woken, but without the mutex. -/
  | woken
  /-- In front of `Pthread_mutex_unlock`. -/
  | took (connfd : ℕ)
  /-- In front of `thread_count++`. -/
  | unlocked (connfd : ℕ)
  /-- In `web_child`. -/
  | serving (connfd : ℕ)
  deriving DecidableEq

/-- Who holds the mutex. -/
inductive Owner (n : ℕ)
  | main
  | thread (i : Fin n)
  deriving DecidableEq

/-- The process, with `n` threads in the pool. -/
structure State (n : ℕ) where
  clifd : Ring maxNcli ℕ
  mutex : Option (Owner n)
  main : MainAt
  threads : Fin n → ThreadAt
  thread_count : Fin n → ℕ
  /-- What `accept` has returned (history). -/
  accepted : List ℕ
  /-- Who took which connection (history). -/
  taken : List (Fin n × ℕ)

/-- The steps of the threads. -/
inductive Label (n : ℕ)
  | accept (connfd : ℕ)
  | lock
  | store
  /-- `Pthread_cond_signal`, which wakes these threads. -/
  | signal (woken : Finset (Fin n))
  | unlock
  | threadLock (i : Fin n)
  /-- A test of the `while`, and what follows up to the wait, or to the unlock. -/
  | test (i : Fin n)
  | threadUnlock (i : Fin n)
  | count (i : Fin n)
  /-- `web_child` and `Close`. -/
  | close (i : Fin n)
  /-- A thread wakes without a signal. -/
  | spurious (i : Fin n)

variable {n : ℕ}

/-- The state with this thread elsewhere. -/
def State.move (s : State n) (i : Fin n) (at_ : ThreadAt) : State n :=
  { s with threads := Function.update s.threads i at_ }

/-- A signal wakes threads that wait, at least one if there is one. -/
def State.Wakes (s : State n) (woken : Finset (Fin n)) : Prop :=
  (∀ i ∈ woken, s.threads i = .waiting) ∧ ((∃ i, s.threads i = .waiting) → woken.Nonempty)

instance (s : State n) (woken : Finset (Fin n)) : Decidable (s.Wakes woken) :=
  inferInstanceAs (Decidable (_ ∧ _))

/-- One step of a thread. -/
def step (s : State n) : Label n → Option (State n)
  | .accept connfd =>
      if s.main = .accepting then
        some { s with main := .accepted connfd, accepted := s.accepted ++ [connfd] }
      else none
  | .lock =>
      match s.main with
      | .accepted connfd =>
          if s.mutex = none then some { s with main := .locked connfd, mutex := some .main }
          else none
      | _ => none
  | .store =>
      match s.main with
      | .locked connfd =>
          let clifd := s.clifd.put connfd
          some { s with clifd, main := if clifd.iput = clifd.iget then .quit else .stored }
      | _ => none
  | .signal woken =>
      if s.main = .stored ∧ s.Wakes woken then
        some { s with
          main := .signalled
          threads := fun i => if i ∈ woken then .woken else s.threads i }
      else none
  | .unlock =>
      if s.main = .signalled then some { s with main := .accepting, mutex := none } else none
  | .threadLock i =>
      if (s.threads i = .start ∨ s.threads i = .woken) ∧ s.mutex = none then
        some { s.move i .testing with mutex := some (.thread i) }
      else none
  | .test i =>
      if s.threads i = .testing then
        if s.clifd.iget = s.clifd.iput then some { s.move i .waiting with mutex := none }
        else
          some { s.move i (.took s.clifd.first) with
            clifd := s.clifd.get, taken := s.taken ++ [(i, s.clifd.first)] }
      else none
  | .threadUnlock i =>
      match s.threads i with
      | .took connfd => some { s.move i (.unlocked connfd) with mutex := none }
      | _ => none
  | .count i =>
      match s.threads i with
      | .unlocked connfd =>
          some { s.move i (.serving connfd) with
            thread_count := Function.update s.thread_count i (s.thread_count i + 1) }
      | _ => none
  | .close i =>
      match s.threads i with
      | .serving _ => some (s.move i .start)
      | _ => none
  | .spurious i => if s.threads i = .waiting then some (s.move i .woken) else none

/-- One step of the process, which `err_quit` ends. -/
def next (s : State n) (l : Label n) : Option (State n) :=
  if s.main = .quit then none else step s l

/-- The process in front of its first `accept`, with its threads created. -/
structure Starts (s : State n) : Prop where
  clifd_eq : s.clifd.pending = []
  mutex_eq : s.mutex = none
  main_eq : s.main = .accepting
  threads_eq : ∀ i, s.threads i = .start
  count_eq : ∀ i, s.thread_count i = 0
  accepted_eq : s.accepted = []
  taken_eq : s.taken = []

def system (n : ℕ) : System (State n) (Label n) := .ofNext Starts next

/-- The thread will look at the indices before it waits. -/
def ThreadAt.looks : ThreadAt → Bool
  | .start | .testing | .woken => true
  | _ => false

/-- The threads that will look at the indices. -/
def looking (threads : Fin n → ThreadAt) : Finset (Fin n) := {i | (threads i).looks}

/-- The connection that the main thread has accepted and not stored. -/
def MainAt.holds : MainAt → List ℕ
  | .accepted connfd | .locked connfd => [connfd]
  | _ => []

/-- The connection that a thread has taken and not closed. -/
def ThreadAt.holds : ThreadAt → Option ℕ
  | .took connfd | .unlocked connfd | .serving connfd => some connfd
  | _ => none

/-- The connections that a thread has taken and not counted. -/
def ThreadAt.uncounted : ThreadAt → ℕ
  | .took _ | .unlocked _ => 1
  | _ => 0

/-- The main thread is between lock and unlock. -/
def MainAt.Inside : MainAt → Prop
  | .accepting | .accepted _ => False
  | _ => True

/-- The thread is between lock and unlock. -/
def ThreadAt.Inside : ThreadAt → Prop
  | .testing | .took _ => True
  | _ => False

variable {s t : State n} {l : Label n} {i j : Fin n} {at_ : ThreadAt} {connfd : ℕ}

/-! ## The steps -/

/-- What a step can do. -/
inductive Step (s : State n) : Label n → State n → Prop
  | accept {connfd : ℕ} (hat : s.main = .accepting) : Step s (.accept connfd)
      { s with main := .accepted connfd, accepted := s.accepted ++ [connfd] }
  | lock {connfd : ℕ} (hat : s.main = .accepted connfd) (hfree : s.mutex = none) :
      Step s .lock { s with main := .locked connfd, mutex := some .main }
  | store {connfd : ℕ} (hat : s.main = .locked connfd) : Step s .store
      { s with
        clifd := s.clifd.put connfd
        main := if (s.clifd.put connfd).iput = (s.clifd.put connfd).iget then .quit
          else .stored }
  | signal {woken : Finset (Fin n)} (hat : s.main = .stored) (hwakes : s.Wakes woken) :
      Step s (.signal woken)
        { s with
          main := .signalled
          threads := fun i => if i ∈ woken then .woken else s.threads i }
  | unlock (hat : s.main = .signalled) : Step s .unlock { s with main := .accepting, mutex := none }
  | threadLock {i : Fin n} (hat : s.threads i = .start ∨ s.threads i = .woken)
      (hfree : s.mutex = none) :
      Step s (.threadLock i) { s.move i .testing with mutex := some (.thread i) }
  | wait {i : Fin n} (hat : s.threads i = .testing) (hempty : s.clifd.iget = s.clifd.iput) :
      Step s (.test i) { s.move i .waiting with mutex := none }
  | take {i : Fin n} (hat : s.threads i = .testing) (hsome : s.clifd.iget ≠ s.clifd.iput) :
      Step s (.test i)
        { s.move i (.took s.clifd.first) with
          clifd := s.clifd.get, taken := s.taken ++ [(i, s.clifd.first)] }
  | threadUnlock {i : Fin n} {connfd : ℕ} (hat : s.threads i = .took connfd) :
      Step s (.threadUnlock i) { s.move i (.unlocked connfd) with mutex := none }
  | count {i : Fin n} {connfd : ℕ} (hat : s.threads i = .unlocked connfd) :
      Step s (.count i)
        { s.move i (.serving connfd) with
          thread_count := Function.update s.thread_count i (s.thread_count i + 1) }
  | close {i : Fin n} {connfd : ℕ} (hat : s.threads i = .serving connfd) :
      Step s (.close i) (s.move i .start)
  | spurious {i : Fin n} (hat : s.threads i = .waiting) :
      Step s (.spurious i) (s.move i .woken)

theorem step_spec (h : step s l = some t) : Step s l t := by
  cases l with
  | accept connfd =>
      obtain ⟨hat, ⟨⟩⟩ := Option.ite_none_right_eq_some.mp h
      exact .accept hat
  | lock =>
      simp only [step] at h
      split at h
      · next hat =>
        obtain ⟨hfree, ⟨⟩⟩ := Option.ite_none_right_eq_some.mp h
        exact .lock hat hfree
      · cases h
  | store =>
      simp only [step] at h
      split at h
      · next hat =>
        obtain rfl := Option.some.inj h
        exact .store hat
      · cases h
  | signal woken =>
      obtain ⟨⟨hat, hwakes⟩, ⟨⟩⟩ := Option.ite_none_right_eq_some.mp h
      exact .signal hat hwakes
  | unlock =>
      obtain ⟨hat, ⟨⟩⟩ := Option.ite_none_right_eq_some.mp h
      exact .unlock hat
  | threadLock i =>
      obtain ⟨⟨hat, hfree⟩, ⟨⟩⟩ := Option.ite_none_right_eq_some.mp h
      exact .threadLock hat hfree
  | test i =>
      obtain ⟨hat, ht⟩ := Option.ite_none_right_eq_some.mp h
      split at ht
      · next hempty =>
        obtain rfl := Option.some.inj ht
        exact .wait hat hempty
      · next hsome =>
        obtain rfl := Option.some.inj ht
        exact .take hat hsome
  | threadUnlock i =>
      simp only [step] at h
      split at h
      · next hat =>
        obtain rfl := Option.some.inj h
        exact .threadUnlock hat
      · cases h
  | count i =>
      simp only [step] at h
      split at h
      · next hat =>
        obtain rfl := Option.some.inj h
        exact .count hat
      · cases h
  | close i =>
      simp only [step] at h
      split at h
      · next hat =>
        obtain rfl := Option.some.inj h
        exact .close hat
      · cases h
  | spurious i =>
      obtain ⟨hat, ⟨⟩⟩ := Option.ite_none_right_eq_some.mp h
      exact .spurious hat

/-! ## Moving a thread -/

@[simp] theorem move_clifd : (s.move i at_).clifd = s.clifd := rfl

@[simp] theorem move_main : (s.move i at_).main = s.main := rfl

@[simp] theorem move_thread_count : (s.move i at_).thread_count = s.thread_count := rfl

@[simp] theorem move_accepted : (s.move i at_).accepted = s.accepted := rfl

@[simp] theorem move_taken : (s.move i at_).taken = s.taken := rfl

@[simp] theorem move_threads_self : (s.move i at_).threads i = at_ := Function.update_self ..

theorem move_threads_of_ne (h : j ≠ i) : (s.move i at_).threads j = s.threads j :=
  Function.update_of_ne h ..

@[simp] theorem mem_looking {threads : Fin n → ThreadAt} :
    i ∈ looking threads ↔ (threads i).looks = true := by
  simp [looking]

/-- A thread that waits behind a move has waited, or moved. -/
theorem waiting_of_move (h : ∃ j, (s.move i at_).threads j = .waiting) (hat : at_ ≠ .waiting) :
    ∃ j, s.threads j = .waiting := by
  obtain ⟨j, hj⟩ := h
  by_cases hji : j = i
  · rw [hji, move_threads_self] at hj
    exact absurd hj hat
  · rw [move_threads_of_ne hji] at hj
    exact ⟨j, hj⟩

/-- One thread more or less looks at the indices. -/
theorem card_looking_move :
    (looking (s.move i at_).threads).card + (s.threads i).looks.toNat =
      (looking s.threads).card + at_.looks.toNat := by
  have hmove : looking (s.move i at_).threads =
      if at_.looks then insert i (looking s.threads) else (looking s.threads).erase i := by
    ext j
    by_cases hji : j = i
    · subst hji
      cases hlooks : at_.looks <;> simp [hlooks]
    · cases hlooks : at_.looks <;> simp [hji, move_threads_of_ne hji]
  rw [hmove]
  cases hbefore : (s.threads i).looks <;> cases hlooks : at_.looks
  · rw [if_neg (by simp), Finset.erase_eq_of_notMem (by simp [hbefore])]
  · rw [if_pos rfl, Finset.card_insert_of_notMem (by simp [hbefore])]
    rfl
  · rw [if_neg (by simp), Bool.toNat_true, Bool.toNat_false,
      Finset.card_erase_add_one (by simp [hbefore]), Nat.add_zero]
  · rw [if_pos rfl, Finset.insert_eq_of_mem (by simp [hbefore])]

/-- The threads that a signal wakes look at the indices. -/
theorem card_looking_signal {threads : Fin n → ThreadAt} {woken : Finset (Fin n)}
    (hwoken : ∀ i ∈ woken, threads i = .waiting) :
    (looking fun i => if i ∈ woken then .woken else threads i).card =
      (looking threads).card + woken.card := by
  have hunion : looking (fun i => if i ∈ woken then .woken else threads i) =
      looking threads ∪ woken := by
    ext j
    by_cases hj : j ∈ woken <;> simp [hj, ThreadAt.looks]
  have hdisjoint : Disjoint (looking threads) woken := by
    rw [Finset.disjoint_right]
    intro j hj
    simp [hwoken j hj, ThreadAt.looks]
  rw [hunion, Finset.card_union_of_disjoint hdisjoint]

/-! ## The mutex -/

/-- Who holds the mutex is between lock and unlock, and no other is. -/
structure Owned (mutex : Option (Owner n)) (main : MainAt) (threads : Fin n → ThreadAt) :
    Prop where
  main_iff : mutex = some .main ↔ main.Inside
  thread_iff : ∀ i, mutex = some (.thread i) ↔ (threads i).Inside

/-- The main thread goes somewhere. -/
theorem Owned.main {mutex mutex' : Option (Owner n)} {main main' : MainAt}
    {threads : Fin n → ThreadAt} (h : Owned mutex main threads)
    (hmain : mutex' = some .main ↔ main'.Inside)
    (hthread : ∀ i, mutex' = some (.thread i) ↔ mutex = some (.thread i)) :
    Owned mutex' main' threads :=
  ⟨hmain, fun i => (hthread i).trans (h.thread_iff i)⟩

/-- A thread goes somewhere. -/
theorem Owned.move {mutex : Option (Owner n)} (h : Owned s.mutex s.main s.threads)
    (hmain : mutex = some .main ↔ s.mutex = some .main)
    (hself : mutex = some (.thread i) ↔ at_.Inside)
    (hother : ∀ j, j ≠ i → (mutex = some (.thread j) ↔ s.mutex = some (.thread j))) :
    Owned mutex s.main (s.move i at_).threads := by
  refine ⟨hmain.trans h.main_iff, fun j => ?_⟩
  by_cases hji : j = i
  · rw [hji, move_threads_self]
    exact hself
  · rw [move_threads_of_ne hji]
    exact (hother j hji).trans (h.thread_iff j)

theorem Owned.step (h : Owned s.mutex s.main s.threads) (hstep : Step s l t) :
    Owned t.mutex t.main t.threads := by
  cases hstep with
  | accept hat =>
      refine h.main ?_ fun _ => Iff.rfl
      rw [h.main_iff, hat]
      exact Iff.rfl
  | lock hat hfree => exact h.main (by simp [MainAt.Inside]) (by simp [hfree])
  | store hat =>
      have howns : s.mutex = some .main := h.main_iff.mpr (by rw [hat]; trivial)
      refine h.main (iff_of_true howns ?_) fun _ => Iff.rfl
      dsimp only
      split <;> trivial
  | signal hat hwakes =>
      have howns : s.mutex = some .main := h.main_iff.mpr (by rw [hat]; trivial)
      refine ⟨iff_of_true howns trivial, fun i => ?_⟩
      have hthread := h.thread_iff i
      dsimp only
      split
      · next hwoken =>
        rw [hwakes.1 i hwoken] at hthread
        exact hthread
      · exact hthread
  | unlock hat =>
      have howns : s.mutex = some .main := h.main_iff.mpr (by rw [hat]; trivial)
      exact h.main (by simp [MainAt.Inside]) (by simp [howns])
  | threadLock hat hfree =>
      refine h.move (by simp [hfree]) (by simp [ThreadAt.Inside]) fun j hji => ?_
      simp [hfree, Ne.symm hji]
  | wait hat hempty =>
      have howns := (h.thread_iff _).mpr (by rw [hat]; trivial)
      refine h.move (by simp [howns]) (by simp [ThreadAt.Inside]) fun j hji => ?_
      simp [howns, Ne.symm hji]
  | take hat hsome =>
      have howns := (h.thread_iff _).mpr (by rw [hat]; trivial)
      exact h.move Iff.rfl (iff_of_true howns trivial) fun _ _ => Iff.rfl
  | threadUnlock hat =>
      have howns := (h.thread_iff _).mpr (by rw [hat]; trivial)
      refine h.move (by simp [howns]) (by simp [ThreadAt.Inside]) fun j hji => ?_
      simp [howns, Ne.symm hji]
  | @count i connfd hat =>
      have hthread := h.thread_iff i
      rw [hat] at hthread
      exact h.move Iff.rfl hthread fun _ _ => Iff.rfl
  | @close i connfd hat =>
      have hthread := h.thread_iff i
      rw [hat] at hthread
      exact h.move Iff.rfl hthread fun _ _ => Iff.rfl
  | @spurious i hat =>
      have hthread := h.thread_iff i
      rw [hat] at hthread
      exact h.move Iff.rfl hthread fun _ _ => Iff.rfl

/-! ## The connections -/

/-- What a thread has counted and taken. -/
structure Counted (at_ : ThreadAt) (count : ℕ) (own : List (Fin n × ℕ)) : Prop where
  count_eq : count + at_.uncounted = own.length
  /-- What it serves is what it took last. -/
  last : ∀ connfd, at_.holds = some connfd → own.getLast?.map Prod.snd = some connfd

/-- What a thread took. -/
def own (i : Fin n) (taken : List (Fin n × ℕ)) : List (Fin n × ℕ) := taken.filter fun p => p.1 = i

theorem own_append_self (taken : List (Fin n × ℕ)) (connfd : ℕ) :
    own i (taken ++ [(i, connfd)]) = own i taken ++ [(i, connfd)] := by
  simp [own]

theorem own_append_of_ne (h : j ≠ i) (taken : List (Fin n × ℕ)) (connfd : ℕ) :
    own j (taken ++ [(i, connfd)]) = own j taken := by
  simp [own, h.symm]

/-- The connections that are accepted, in order. -/
structure Handed (s : State n) : Prop where
  order : s.main ≠ .quit →
    s.taken.map Prod.snd ++ (s.clifd.pending ++ s.main.holds) = s.accepted
  full : s.main = .quit → s.accepted.length = s.taken.length + maxNcli
  counted : ∀ i, Counted (s.threads i) (s.thread_count i) (own i s.taken)

/-- A thread goes on that takes nothing. -/
theorem Handed.move (hs : Handed s) (mutex : Option (Owner n)) (count : Fin n → ℕ)
    (hcount : ∀ j, j ≠ i → count j = s.thread_count j)
    (hself : Counted at_ (count i) (own i s.taken)) :
    Handed { s.move i at_ with mutex, thread_count := count } := by
  refine ⟨hs.order, hs.full, fun j => ?_⟩
  by_cases hji : j = i
  · subst hji
    simpa using hself
  · simpa [move_threads_of_ne hji, hcount j hji] using hs.counted j

/-- The main thread stores a connection, or ends where the indices meet. -/
theorem Handed.store {connfd : ℕ} (hs : Handed s) (hat : s.main = .locked connfd) :
    Handed { s with
      clifd := s.clifd.put connfd
      main := if (s.clifd.put connfd).iput = (s.clifd.put connfd).iget then .quit
        else .stored } := by
  have horder := hs.order (by simp [hat])
  rw [hat] at horder
  by_cases hfull : (s.clifd.put connfd).iput = (s.clifd.put connfd).iget
  · refine ⟨fun hgo => absurd (if_pos hfull) hgo, fun _ => ?_, hs.counted⟩
    have hlen := congrArg List.length horder
    have hcount := Ring.iput_put_eq_iff.mp hfull
    simp only [List.length_append, List.length_map, MainAt.holds, List.length_singleton] at hlen
    dsimp only
    omega
  · refine ⟨fun _ => ?_, fun hquit => ?_, hs.counted⟩
    · dsimp only
      rw [if_neg hfull, Ring.pending_put hfull]
      simpa [MainAt.holds] using horder
    · simp [hfull] at hquit

/-- A thread takes the first connection. -/
theorem Handed.take (hs : Handed s) (hrun : s.main ≠ .quit) (hat : s.threads i = .testing)
    (hsome : s.clifd.iget ≠ s.clifd.iput) :
    Handed { s.move i (.took s.clifd.first) with
      clifd := s.clifd.get, taken := s.taken ++ [(i, s.clifd.first)] } := by
  refine ⟨fun _ => ?_, fun hquit => absurd hquit hrun, fun j => ?_⟩
  · have horder := hs.order hrun
    rw [Ring.pending_get hsome] at horder
    simpa using horder
  · have hcounted := hs.counted j
    dsimp only
    by_cases hji : j = i
    · subst hji
      rw [hat] at hcounted
      have hcount := hcounted.count_eq
      rw [move_threads_self, own_append_self]
      refine ⟨?_, by simp [ThreadAt.holds]⟩
      simp only [ThreadAt.uncounted] at hcount ⊢
      simpa using hcount
    · rw [move_threads_of_ne hji, own_append_of_ne hji]
      exact hcounted

theorem Handed.step (hs : Handed s) (hrun : s.main ≠ .quit) (hstep : Step s l t) : Handed t := by
  cases hstep with
  | @accept connfd hat =>
      have horder := hs.order hrun
      rw [hat] at horder
      refine ⟨fun _ => ?_, by simp, hs.counted⟩
      simp only [← horder, MainAt.holds, List.append_nil, List.append_assoc]
  | @lock connfd hat hfree =>
      have horder := hs.order hrun
      rw [hat] at horder
      exact ⟨fun _ => horder, by simp, hs.counted⟩
  | store hat => exact hs.store hat
  | @signal woken hat hwakes =>
      have horder := hs.order hrun
      rw [hat] at horder
      refine ⟨fun _ => horder, by simp, fun i => ?_⟩
      have hcounted := hs.counted i
      dsimp only
      split
      · next hwoken =>
        rw [hwakes.1 i hwoken] at hcounted
        exact ⟨hcounted.count_eq, by simp [ThreadAt.holds]⟩
      · exact hcounted
  | unlock hat =>
      have horder := hs.order hrun
      rw [hat] at horder
      exact ⟨fun _ => horder, by simp, hs.counted⟩
  | @threadLock i hat hfree =>
      have hcounted := hs.counted i
      refine hs.move _ _ (fun _ _ => rfl) ⟨?_, by simp [ThreadAt.holds]⟩
      rcases hat with hat | hat <;> simpa [hat, ThreadAt.uncounted] using hcounted.count_eq
  | @wait i hat hempty =>
      have hcounted := hs.counted i
      rw [hat] at hcounted
      exact hs.move _ _ (fun _ _ => rfl) ⟨hcounted.count_eq, by simp [ThreadAt.holds]⟩
  | take hat hsome => exact hs.take hrun hat hsome
  | @threadUnlock i connfd hat =>
      have hcounted := hs.counted i
      rw [hat] at hcounted
      exact hs.move _ _ (fun _ _ => rfl) ⟨hcounted.count_eq, hcounted.last⟩
  | @count i connfd hat =>
      have hcounted := hs.counted i
      rw [hat] at hcounted
      refine hs.move _ _ (fun j hji => Function.update_of_ne hji ..) ⟨?_, hcounted.last⟩
      rw [Function.update_self]
      exact hcounted.count_eq
  | @close i connfd hat =>
      have hcounted := hs.counted i
      rw [hat] at hcounted
      exact hs.move _ _ (fun _ _ => rfl) ⟨hcounted.count_eq, by simp [ThreadAt.holds]⟩
  | @spurious i hat =>
      have hcounted := hs.counted i
      rw [hat] at hcounted
      exact hs.move _ _ (fun _ _ => rfl) ⟨hcounted.count_eq, by simp [ThreadAt.holds]⟩

/-! ## The wakeups -/

/-- While a thread waits, there is for each connection in the array a thread that will look at it,
or the main thread has yet to signal. -/
def Awake (s : State n) : Prop :=
  (∃ i, s.threads i = .waiting) →
    s.clifd.pending.length ≤
      (looking s.threads).card + if s.main = .stored then 1 else 0

/-- A thread goes on, and does not wait; where it no longer looks, it has taken a connection. -/
theorem Awake.move (hs : Awake s) (hat : at_ ≠ .waiting) {clifd : Ring maxNcli ℕ}
    (hlen : clifd.pending.length + (s.threads i).looks.toNat ≤
      s.clifd.pending.length + at_.looks.toNat)
    (mutex : Option (Owner n)) (count : Fin n → ℕ) (taken : List (Fin n × ℕ)) :
    Awake { s.move i at_ with clifd, mutex, thread_count := count, taken } := by
  intro hwaits
  have hcard : (looking (s.move i at_).threads).card + (s.threads i).looks.toNat =
      (looking s.threads).card + at_.looks.toNat := card_looking_move
  have hbefore := hs (waiting_of_move hwaits hat)
  have hafter : clifd.pending.length ≤
      (looking (s.move i at_).threads).card + if s.main = .stored then 1 else 0 := by omega
  exact hafter

theorem Awake.step (hs : Awake s) (hstep : Step s l t) : Awake t := by
  cases hstep with
  | accept hat =>
      intro hwaits
      have hbefore := hs hwaits
      rw [hat] at hbefore
      exact hbefore
  | lock hat hfree =>
      intro hwaits
      have hbefore := hs hwaits
      rw [hat] at hbefore
      exact hbefore
  | @store connfd hat =>
      intro hwaits
      have hbefore := hs hwaits
      rw [hat] at hbefore
      dsimp only at hwaits ⊢
      by_cases hfull : (s.clifd.put connfd).iput = (s.clifd.put connfd).iget
      · rw [Ring.pending_eq_nil_iff.mpr hfull.symm]
        exact Nat.zero_le _
      · rw [if_neg hfull, Ring.pending_put hfull, List.length_append]
        exact Nat.add_le_add_right hbefore 1
  | @signal woken hat hwakes =>
      rintro ⟨i, hi⟩
      dsimp only at hi ⊢
      have hwaits : ∃ i, s.threads i = .waiting := by
        split at hi
        · cases hi
        · exact ⟨i, hi⟩
      have hbefore := hs hwaits
      rw [if_pos hat] at hbefore
      have hsome := Finset.card_pos.mpr (hwakes.2 hwaits)
      rw [card_looking_signal hwakes.1]
      omega
  | unlock hat =>
      intro hwaits
      have hbefore := hs hwaits
      rw [hat] at hbefore
      exact hbefore
  | threadLock hat hfree =>
      refine hs.move (by simp) (Nat.add_le_add_left ?_ _) _ _ _
      exact Bool.toNat_le _
  | wait hat hempty =>
      intro _
      dsimp only [move_clifd]
      rw [Ring.pending_eq_nil_iff.mpr hempty]
      exact Nat.zero_le _
  | take hat hsome =>
      refine hs.move (by simp) ?_ _ _ _
      rw [Ring.pending_get hsome, hat]
      exact le_rfl
  | threadUnlock hat =>
      refine hs.move (by simp) ?_ _ _ _
      rw [hat]
      exact le_rfl
  | count hat =>
      refine hs.move (by simp) ?_ _ _ _
      rw [hat]
      exact le_rfl
  | close hat =>
      refine hs.move (by simp) (Nat.add_le_add_left ?_ _) _ _ _
      exact Bool.toNat_le _
  | spurious hat =>
      refine hs.move (by simp) (Nat.add_le_add_left ?_ _) _ _ _
      exact Bool.toNat_le _

/-! ## Runs -/

/-- What every run keeps. -/
structure Kept (s : State n) : Prop where
  owned : Owned s.mutex s.main s.threads
  handed : Handed s
  awake : Awake s

theorem Starts.kept (hs : Starts s) : Kept s := by
  refine ⟨⟨?_, fun i => ?_⟩, ⟨fun _ => ?_, ?_, fun i => ⟨?_, ?_⟩⟩, ?_⟩
  · simp [hs.mutex_eq, hs.main_eq, MainAt.Inside]
  · simp [hs.mutex_eq, hs.threads_eq, ThreadAt.Inside]
  · simp [hs.taken_eq, hs.clifd_eq, hs.main_eq, hs.accepted_eq, MainAt.holds]
  · simp [hs.main_eq]
  · simp [hs.count_eq, hs.threads_eq, hs.taken_eq, own, ThreadAt.uncounted]
  · simp [hs.threads_eq, ThreadAt.holds]
  · simp [Awake, hs.threads_eq]

theorem Kept.of_exec {tr : List (State n × Label n)} (h : (system n).Exec tr s) : Kept s := by
  refine h.invariant Kept (fun _ _ => True) (fun s (hs : Starts s) => hs.kept)
    (fun s l t _ hs hstep => ?_) fun _ _ => trivial
  obtain ⟨hrun, hstep⟩ := Option.ite_none_left_eq_some.mp hstep
  have hspec := step_spec hstep
  exact ⟨hs.owned.step hspec, hs.handed.step hrun hspec, hs.awake.step hspec⟩

/-- **Each connection is served once, in order.** The connections accepted are those that were
taken, those in the array, and the one that the main thread holds; where the main thread ended the
process with `err_quit`, the array was full. The count of a thread is what it took, but for one that
it has not counted yet, and it serves what it took last. -/
theorem handed_over (n : ℕ) (tr : List (State n × Label n)) (s : State n)
    (h : (system n).Exec tr s) :
    (s.main ≠ .quit → s.taken.map Prod.snd ++ (s.clifd.pending ++ s.main.holds) = s.accepted) ∧
      (s.main = .quit → s.accepted.length = s.taken.length + maxNcli) ∧
      ∀ i, s.thread_count i + (s.threads i).uncounted = (own i s.taken).length ∧
        ∀ connfd, (s.threads i).holds = some connfd →
          (own i s.taken).getLast?.map Prod.snd = some connfd := by
  have hs := (Kept.of_exec h).handed
  exact ⟨hs.order, hs.full, fun i => ⟨(hs.counted i).count_eq, (hs.counted i).last⟩⟩

/-- A process of two threads at its start, with zeroed memory. -/
def atStart : State 2 :=
  ⟨.empty (List.replicate maxNcli 0) (by decide) (by decide), none, .accepting,
    fun _ => .start, fun _ => 0, [], []⟩

theorem atStart_init : (system 2).init atStart :=
  ⟨Ring.pending_empty .., rfl, rfl, fun _ => rfl, fun _ => rfl, rfl, rfl⟩

/-- The first thread waits and is woken for a connection, but the second takes it; another
connection comes in. -/
def labels : List (Label 2) :=
  [.threadLock 0, .test 0, .accept 5, .lock, .store, .signal {0}, .unlock,
    .threadLock 1, .test 1, .threadUnlock 1, .count 1, .threadLock 0, .test 0,
    .accept 6, .lock, .store]

theorem waiting_run :
    ∃ tr s, (system 2).Exec tr s ∧
      ((s.main = .stored ∧ s.threads 0 = .waiting ∧ s.thread_count 1 = 1) ∧
        s.accepted = [5, 6]) := by
  have hrun : (System.replay next atStart labels).map
      (fun r => ((r.2.main, r.2.threads 0, r.2.thread_count 1), r.2.accepted)) =
        some ((.stored, .waiting, 1), [5, 6]) := by decide +kernel
  obtain ⟨tr, s, hexec, hs⟩ := System.exec_of_replay atStart_init hrun
  simp only [Prod.mk.injEq] at hs
  exact ⟨tr, s, hexec, hs⟩

theorem handed_over_two :
    ∃ tr s, (system 2).Exec tr s ∧
      s.taken.map Prod.snd ++ (s.clifd.pending ++ s.main.holds) = [5, 6] := by
  obtain ⟨tr, s, hexec, ⟨hmain, _⟩, haccepted⟩ := waiting_run
  have horder := (handed_over 2 tr s hexec).1 (by simp [hmain])
  rw [haccepted] at horder
  exact ⟨tr, s, hexec, horder⟩

/-- The step needs no connection, no end of a service and no accident. -/
def Label.Own : Label n → Prop
  | .accept _ | .close _ | .spurious _ => False
  | _ => True

/-- Who holds the mutex can step. -/
theorem Owned.goes (h : Owned s.mutex s.main s.threads) (hrun : s.main ≠ .quit)
    (hheld : s.mutex ≠ none) : ∃ l : Label n, l.Own ∧ (next s l).isSome := by
  obtain ⟨owner, howner⟩ := Option.ne_none_iff_exists'.mp hheld
  cases owner with
  | main =>
      have hinside := h.main_iff.mp howner
      cases hat : s.main with
      | accepting => simp [hat, MainAt.Inside] at hinside
      | accepted connfd => simp [hat, MainAt.Inside] at hinside
      | locked connfd => exact ⟨.store, trivial, by simp [next, Serv08.step, hat]⟩
      | stored =>
          have hwakes : s.Wakes {i | s.threads i = .waiting} := by
            refine ⟨by simp, fun ⟨i, hi⟩ => ⟨i, by simpa using hi⟩⟩
          exact ⟨.signal {i | s.threads i = .waiting}, trivial,
            by simp [next, Serv08.step, hat, hwakes]⟩
      | signalled => exact ⟨.unlock, trivial, by simp [next, Serv08.step, hat]⟩
      | quit => exact absurd hat hrun
  | thread i =>
      have hinside := (h.thread_iff i).mp howner
      cases hat : s.threads i with
      | testing =>
          refine ⟨.test i, trivial, ?_⟩
          simp only [next, Serv08.step, hat, if_neg hrun, if_true]
          split <;> rfl
      | took connfd => exact ⟨.threadUnlock i, trivial, by simp [next, Serv08.step, hat, hrun]⟩
      | _ => simp [hat, ThreadAt.Inside] at hinside

/-- **No wakeup is lost.** While a thread waits, as many threads will look at the array as there
are connections in it, but for the one whose signal is due. So a connection in the array is taken
without the help of another: some thread of the process can step towards it, or all are busy. -/
theorem no_lost_wakeup (n : ℕ) (tr : List (State n × Label n)) (s : State n)
    (h : (system n).Exec tr s) :
    ((∃ i, s.threads i = .waiting) → s.clifd.pending.length ≤
        (looking s.threads).card + if s.main = .stored then 1 else 0) ∧
      (s.main ≠ .quit → s.clifd.pending ≠ [] →
        (∃ l : Label n, l.Own ∧ (next s l).isSome) ∨
          ∀ i, ∃ connfd, s.threads i = .serving connfd) := by
  have hs := Kept.of_exec h
  refine ⟨hs.awake, fun hrun hsome => ?_⟩
  by_cases hheld : s.mutex = none
  swap
  · exact .inl (hs.owned.goes hrun hheld)
  by_contra hnone
  simp only [not_or, not_exists, not_and] at hnone
  obtain ⟨hstuck, hbusy⟩ := hnone
  have houtside : ∀ i, ¬(s.threads i).Inside := fun i hinside => by
    have howner := (hs.owned.thread_iff i).mpr hinside
    rw [hheld] at howner
    cases howner
  -- with the mutex free, no thread looks
  have hlook : looking s.threads = ∅ := by
    rw [Finset.eq_empty_iff_forall_notMem]
    intro i hi
    have hlooks := mem_looking.mp hi
    have hstart : s.threads i = .start ∨ s.threads i = .woken := by
      cases hat : s.threads i with
      | testing => exact absurd (by rw [hat]; trivial) (houtside i)
      | start => exact .inl rfl
      | woken => exact .inr rfl
      | _ => simp [hat, ThreadAt.looks] at hlooks
    exact hstuck (.threadLock i) trivial (by simp [next, step, hrun, hstart, hheld])
  -- so none waits, and those that neither look nor wait are busy
  have hwaits : ¬∃ i, s.threads i = .waiting := by
    intro hwaits
    have hlen := hs.awake hwaits
    have hstored : s.main ≠ .stored := fun hat => by
      have howner := hs.owned.main_iff.mpr (by rw [hat]; trivial)
      rw [hheld] at howner
      cases howner
    rw [hlook, if_neg hstored] at hlen
    exact hsome (List.eq_nil_of_length_eq_zero (Nat.le_zero.mp hlen))
  refine hbusy fun i => ?_
  cases hat : s.threads i with
  | serving connfd => exact ⟨connfd, rfl⟩
  | unlocked connfd => exact absurd (by simp [next, step, hrun, hat]) (hstuck (.count i) trivial)
  | waiting => exact absurd ⟨i, hat⟩ hwaits
  | testing => exact absurd (by rw [hat]; trivial) (houtside i)
  | took connfd => exact absurd (by rw [hat]; trivial) (houtside i)
  | start =>
      have hi : i ∈ looking s.threads := by simp [hat, ThreadAt.looks]
      rw [hlook] at hi
      cases hi
  | woken =>
      have hi : i ∈ looking s.threads := by simp [hat, ThreadAt.looks]
      rw [hlook] at hi
      cases hi

/-- A thread waits, and the connection is there, in front of the signal. -/
theorem no_lost_wakeup_two :
    ∃ tr s, (system 2).Exec tr s ∧ s.threads 0 = .waiting ∧
      s.clifd.pending.length ≤ (looking s.threads).card + 1 := by
  obtain ⟨tr, s, hexec, ⟨hmain, hwaits, _⟩, _⟩ := waiting_run
  have hlen := (no_lost_wakeup 2 tr s hexec).1 ⟨0, hwaits⟩
  rw [if_pos hmain] at hlen
  exact ⟨tr, s, hexec, hwaits, hlen⟩

end SocketPrograms.Unp.Serv08
