import SocketPrograms.Lib.Transition
import Mathlib.Data.Finset.Card
import Mathlib.Data.Finset.Filter
import Mathlib.Data.Finset.Lattice.Basic

/-!
# Serving many connections at once

A server holds a listening socket and a set of connections. In a round the kernel reports some
of them ready, and the server serves each of these once: it accepts on the listening socket, reads
from a connection, and closes one that has ended. In which order it does so, and how it finds the
ready ones, is left open.

## Main definitions

* `Event`, `Event.apply` — what a server does, and the connections after it.
* `Round`, `Serves` — what the kernel reports, and a server that serves it.
* `Multiplexer.system` — round after round.
* `Answers` — what the system calls of a round return.
* `loop`, `Implements` — a program whose iterations serve a round each.

## Main results

* `Serves.mem_iff` — a round determines the connections after it.
* `balance` — over any run, a descriptor is open as often as it was opened and not closed.
* `agree` — two servers that serve the same rounds have the same connections.
* `Implements.exec` — **refinement**: what holds of the multiplexer holds of the program.
-/

namespace SocketPrograms

variable {β : Type*}

/-- What a server does with a descriptor. -/
inductive Event (β : Type*)
  | opened (fd : ℕ)
  | closed (fd : ℕ)
  /-- What was read is `b`. -/
  | data (fd : ℕ) (b : β)
  deriving DecidableEq

/-- What the kernel reports in a round. -/
structure Round (β : Type*) where
  ready : Finset ℕ
  /-- The connection that is accepted, if one is. -/
  accept : ℕ
  /-- What a connection has sent; `none` at its end. -/
  read : ℕ → Option β

/-- What the system calls of a round return, if they are made; `none` where they fail. -/
structure Answers (γ : Type*) where
  /-- The set that `select` leaves. -/
  select : Option (Finset ℕ)
  accept : Option ℕ
  /-- What `read` returns for this descriptor: nothing at the end. -/
  read : ℕ → Option (List γ)

/-- The round in which no call fails. -/
def Answers.round {γ : Type*} (a : Answers γ) : Round (List γ) where
  ready := a.select.getD ∅
  accept := a.accept.getD 0
  read fd := (a.read fd).filter fun bytes => !bytes.isEmpty

namespace Multiplexer

/-- The connections after an event, where it is one of a connection that is open, or opens one
that is not. -/
def apply (conns : Finset ℕ) : Event β → Option (Finset ℕ)
  | .opened fd => if fd ∈ conns then none else some (insert fd conns)
  | .closed fd => if fd ∈ conns then some (conns.erase fd) else none
  | .data fd _ => if fd ∈ conns then some conns else none

/-- The event that serves a connection. -/
def outcome (r : Round β) (fd : ℕ) : Event β :=
  match r.read fd with
  | none => .closed fd
  | some b => .data fd b

/-- The event that serves a descriptor that is ready. -/
def serve (listening : ℕ) (r : Round β) (fd : ℕ) : Event β :=
  if fd = listening then .opened r.accept else outcome r fd

/-- These events serve each ready descriptor once, in an order in which each is possible. -/
structure Serves (listening : ℕ) (conns : Finset ℕ) (r : Round β) (es : List (Event β))
    (conns' : Finset ℕ) : Prop where
  ready : r.ready ⊆ insert listening conns
  events : (es : Multiset (Event β)) = r.ready.val.map (serve listening r)
  conns_eq : es.foldlM apply conns = some conns'

/-- The rounds of a server that starts with no connection. -/
def system (β : Type*) (listening : ℕ) : System (Finset ℕ) (Round β × List (Event β)) where
  init conns := conns = ∅
  step conns p conns' := Serves listening conns p.1 p.2 conns'

/-- What a run did, in order. -/
def events (tr : List (Finset ℕ × Round β × List (Event β))) : List (Event β) :=
  tr.flatMap fun p => p.2.2

variable {listening fd : ℕ} {conns conns' : Finset ℕ} {r : Round β} {es : List (Event β)}

theorem outcome_end {γ : Type*} {a : Answers γ} (h : a.read fd = some []) :
    outcome a.round fd = .closed fd := by
  simp [outcome, Answers.round, h, Option.filter_some]

theorem outcome_data {γ : Type*} {a : Answers γ} {bytes : List γ} (h : a.read fd = some bytes)
    (hne : bytes ≠ []) : outcome a.round fd = .data fd bytes := by
  simp [outcome, Answers.round, h, Option.filter_some, hne]

@[simp] theorem serve_listening : serve listening r listening = .opened r.accept := if_pos rfl

theorem serve_of_ne (h : fd ≠ listening) : serve listening r fd = outcome r fd := if_neg h

/-! ## The connections after a round -/

section Count

variable [DecidableEq β]

/-- One event, and the descriptor it is about. -/
theorem apply_balance {e : Event β} (h : apply conns e = some conns') (fd : ℕ) :
    [e].count (.opened fd) + (if fd ∈ conns then 1 else 0) =
      [e].count (.closed fd) + if fd ∈ conns' then 1 else 0 := by
  cases e with
  | opened fd' =>
      by_cases hmem : fd' ∈ conns
      · simp [apply, hmem] at h
      · obtain rfl : insert fd' conns = conns' := by simpa [apply, hmem] using h
        by_cases hfd : fd' = fd
        · subst hfd
          simp [hmem]
        · simp [hfd, Ne.symm hfd]
  | closed fd' =>
      by_cases hmem : fd' ∈ conns
      · obtain rfl : conns.erase fd' = conns' := by simpa [apply, hmem] using h
        by_cases hfd : fd' = fd
        · subst hfd
          simp [hmem]
        · simp [hfd, Ne.symm hfd]
      · simp [apply, hmem] at h
  | data fd' b =>
      by_cases hmem : fd' ∈ conns
      · obtain rfl : conns = conns' := by simpa [apply, hmem] using h
        simp
      · simp [apply, hmem] at h

/-- A descriptor is open as often as it was opened and not closed. -/
theorem foldlM_balance (h : es.foldlM apply conns = some conns') (fd : ℕ) :
    es.count (.opened fd) + (if fd ∈ conns then 1 else 0) =
      es.count (.closed fd) + if fd ∈ conns' then 1 else 0 := by
  induction es generalizing conns with
  | nil =>
      obtain rfl : conns = conns' := by simpa using h
      simp
  | cons e es ih =>
      rw [List.foldlM_cons, Option.bind_eq_bind, Option.bind_eq_some_iff] at h
      obtain ⟨mid, hmid, hrest⟩ := h
      have hone := apply_balance hmid fd
      have hothers := ih hrest
      rw [← List.singleton_append, List.count_append, List.count_append]
      omega

/-- How often a round serves its descriptors with this event. -/
theorem Serves.count_eq (h : Serves listening conns r es conns') (e : Event β) :
    es.count e = (r.ready.filter fun fd => serve listening r fd = e).card := by
  have hcount : es.count e = (r.ready.val.map (serve listening r)).count e := by
    rw [← h.events, Multiset.coe_count]
  rw [hcount, Multiset.count_map, Finset.card, Finset.filter_val]
  exact congrArg Multiset.card (Multiset.filter_congr fun _ _ => eq_comm)

/-- A connection is accepted where the listening socket is ready. -/
theorem Serves.count_opened (h : Serves listening conns r es conns') :
    es.count (.opened fd) = if listening ∈ r.ready ∧ r.accept = fd then 1 else 0 := by
  have hfilter : (r.ready.filter fun fd' => serve listening r fd' = .opened fd) =
      if listening ∈ r.ready ∧ r.accept = fd then {listening} else ∅ := by
    ext fd'
    by_cases hfd' : fd' = listening
    · subst hfd'
      by_cases hready : fd' ∈ r.ready ∧ r.accept = fd
      · simp [hready]
      · simp [hready]
    · have hne : serve listening r fd' ≠ .opened fd := by
        rw [serve_of_ne hfd', outcome]
        cases r.read fd' <;> simp
      split <;> simp [hne, hfd']
  rw [h.count_eq, hfilter]
  split <;> simp

/-- A connection is closed where it is ready and has ended. -/
theorem Serves.count_closed (h : Serves listening conns r es conns') :
    es.count (.closed fd) =
      if fd ∈ r.ready ∧ fd ≠ listening ∧ r.read fd = none then 1 else 0 := by
  have hfilter : (r.ready.filter fun fd' => serve listening r fd' = .closed fd) =
      if fd ∈ r.ready ∧ fd ≠ listening ∧ r.read fd = none then {fd} else ∅ := by
    have hserve : ∀ fd', serve listening r fd' = .closed fd ↔
        fd' = fd ∧ fd' ≠ listening ∧ r.read fd' = none := by
      intro fd'
      by_cases hfd' : fd' = listening
      · simp [serve, hfd']
      · rw [serve_of_ne hfd', outcome]
        cases r.read fd' <;> simp [hfd']
    ext fd'
    rw [Finset.mem_filter, hserve]
    split
    · next hclosed =>
      rw [Finset.mem_singleton]
      refine ⟨fun hmem => hmem.2.1, ?_⟩
      rintro rfl
      exact ⟨hclosed.1, rfl, hclosed.2⟩
    · next hclosed =>
      refine iff_of_false ?_ (Finset.notMem_empty fd')
      rintro ⟨hmem, rfl, hends⟩
      exact hclosed ⟨hmem, hends⟩
  rw [h.count_eq, hfilter]
  split <;> simp

/-- **A round determines the connections after it**, whatever the order of its events. -/
theorem Serves.mem_iff (h : Serves listening conns r es conns') :
    fd ∈ conns' ↔ (listening ∈ r.ready ∧ r.accept = fd) ∨
      (fd ∈ conns ∧ ¬(fd ∈ r.ready ∧ fd ≠ listening ∧ r.read fd = none)) := by
  have hbalance := foldlM_balance h.conns_eq fd
  rw [h.count_opened, h.count_closed] at hbalance
  have hready : fd ∈ r.ready ∧ fd ≠ listening ∧ r.read fd = none → fd ∈ conns := by
    rintro ⟨hmem, hne, _⟩
    exact (Finset.mem_insert.mp (h.ready hmem)).resolve_left hne
  by_cases hopened : listening ∈ r.ready ∧ r.accept = fd <;>
    by_cases hclosed : fd ∈ r.ready ∧ fd ≠ listening ∧ r.read fd = none <;>
    by_cases hbefore : fd ∈ conns <;>
    by_cases hafter : fd ∈ conns' <;>
    simp_all

end Count

/-- Two servers that serve one round have the same connections after it. -/
theorem Serves.unique [DecidableEq β] {es' : List (Event β)} {conns'' : Finset ℕ}
    (h : Serves listening conns r es conns') (h' : Serves listening conns r es' conns'') :
    conns' = conns'' := by
  ext fd
  rw [h.mem_iff, h'.mem_iff]

/-! ## Runs -/

variable {tr : List (Finset ℕ × Round β × List (Event β))}

/-- What a run did leads from no connection to those it has. -/
theorem foldlM_events (h : (system β listening).Exec tr conns) :
    (events tr).foldlM apply ∅ = some conns := by
  induction h with
  | start h0 =>
      obtain rfl := h0
      rfl
  | @snoc tr conns conns' p _ hstep ih =>
      have hserves : Serves listening conns p.1 p.2 conns' := hstep
      rw [events, List.flatMap_append, List.foldlM_append]
      change ((events tr).foldlM apply ∅ >>= _) = _
      rw [ih]
      simpa using hserves.conns_eq

/-- **Over any run**, a descriptor is open as often as it was opened and not closed. -/
theorem balance [DecidableEq β] (h : (system β listening).Exec tr conns) (fd : ℕ) :
    (events tr).count (.opened fd) =
      (events tr).count (.closed fd) + if fd ∈ conns then 1 else 0 := by
  have hbalance := foldlM_balance (foldlM_events h) fd
  simpa using hbalance

/-- **Two servers agree** that serve the same rounds. -/
theorem agree [DecidableEq β] {conns₁ conns₂ : Finset ℕ}
    {tr₁ tr₂ : List (Finset ℕ × Round β × List (Event β))}
    (h₁ : (system β listening).Exec tr₁ conns₁) (h₂ : (system β listening).Exec tr₂ conns₂)
    (h : tr₁.map (fun p => p.2.1) = tr₂.map fun p => p.2.1) : conns₁ = conns₂ := by
  induction h₁ generalizing tr₂ conns₂ with
  | start h0 =>
      obtain rfl : tr₂ = [] := by simpa using h.symm
      have h0' : conns₂ = ∅ := h₂.init_of_nil
      exact Eq.trans h0 h0'.symm
  | @snoc tr₁ s t p _ hstep ih =>
      cases h₂ with
      | start _ => simp at h
      | @snoc tr₂ s' _ p' h₂ hstep' =>
          rw [List.map_append, List.map_append] at h
          obtain ⟨hpast, hlast⟩ := List.append_inj' h rfl
          obtain rfl := ih h₂ hpast
          have hround : p.1 = p'.1 := by simpa using hlast
          have hserves : Serves listening s p.1 p.2 t := hstep
          have hserves' : Serves listening s p'.1 p'.2 conns₂ := hstep'
          rw [hround] at hserves
          exact hserves.unique hserves'

/-! ## Programs -/

section Program

variable {σ α ε : Type*}

/-- The state after an iteration that comes to its end. -/
def nextOf (iterate : σ → α → Except ε (σ × List (Event β))) (x : σ) (inp : α) : Option σ :=
  match iterate x inp with
  | .ok p => some p.1
  | .error _ => none

/-- What an iteration did, if it comes to its end. -/
def eventsOf (iterate : σ → α → Except ε (σ × List (Event β))) (p : σ × α) : List (Event β) :=
  match iterate p.1 p.2 with
  | .ok q => q.2
  | .error _ => []

/-- Iteration after iteration. -/
def loop (init : σ → Prop) (iterate : σ → α → Except ε (σ × List (Event β))) : System σ α :=
  .ofNext init (nextOf iterate)

theorem nextOf_eq_some {iterate : σ → α → Except ε (σ × List (Event β))} {x y : σ} {inp : α}
    (h : nextOf iterate x inp = some y) : iterate x inp = .ok (y, eventsOf iterate (x, inp)) := by
  cases hiterate : iterate x inp with
  | error _ => simp [nextOf, hiterate] at h
  | ok p =>
      obtain rfl : p.1 = y := by simpa [nextOf, hiterate] using h
      simp [eventsOf, hiterate]

/-- What the first of two steps returns, the second goes on from. -/
theorem bind_eq_ok {τ υ : Type*} {p : Except ε τ} {f : τ → Except ε υ} {b : υ} :
    p.bind f = .ok b ↔ ∃ a, p = .ok a ∧ f a = .ok b := by
  cases p with
  | error _ => simp [Except.bind]
  | ok a => simp [Except.bind]

/-- The first of two steps fails, or the second one does. -/
theorem bind_eq_error {τ υ : Type*} {p : Except ε τ} {f : τ → Except ε υ} {e : ε} :
    p.bind f = .error e ↔ p = .error e ∨ ∃ a, p = .ok a ∧ f a = .error e := by
  cases p with
  | error _ => simp [Except.bind]
  | ok a => simp [Except.bind]

/-- Each iteration of the program serves the round that the kernel reports in it. -/
structure Implements (listening : ℕ) (init : σ → Prop)
    (iterate : σ → α → Except ε (σ × List (Event β))) (conns : σ → Finset ℕ)
    (round : α → Round β) (Inv : σ → Prop) : Prop where
  start : ∀ x, init x → Inv x ∧ conns x = ∅
  step : ∀ x inp y es, Inv x → iterate x inp = .ok (y, es) →
    Inv y ∧ Serves listening (conns x) (round inp) es (conns y)

namespace Implements

variable {init : σ → Prop} {iterate : σ → α → Except ε (σ × List (Event β))}
  {connsOf : σ → Finset ℕ} {round : α → Round β} {Inv : σ → Prop} {tr : List (σ × α)} {x : σ}

/-- **Refinement**: the rounds of a run are a run of the multiplexer. -/
theorem exec (H : Implements listening init iterate connsOf round Inv)
    (h : (loop init iterate).Exec tr x) :
    Inv x ∧ (system β listening).Exec
      (tr.map fun p => (connsOf p.1, round p.2, eventsOf iterate p)) (connsOf x) :=
  h.refines connsOf (fun x inp => (round inp, eventsOf iterate (x, inp))) Inv H.start
    fun x inp y hx hstep => H.step x inp y _ hx (nextOf_eq_some hstep)

/-- Each ready descriptor is served once in each iteration. -/
theorem served (H : Implements listening init iterate connsOf round Inv)
    (h : (loop init iterate).Exec tr x) : ∀ p ∈ tr,
      (eventsOf iterate p : Multiset (Event β)) =
        (round p.2).ready.val.map (serve listening (round p.2)) := by
  intro p hp
  obtain ⟨_, hserves, _⟩ := (H.exec h).2.step_of_mem _ (List.mem_map_of_mem hp)
  exact Serves.events hserves

/-- The connections are what was opened and not closed. -/
theorem count_eq [DecidableEq β] (H : Implements listening init iterate connsOf round Inv)
    (h : (loop init iterate).Exec tr x) (fd : ℕ) :
    (tr.flatMap (eventsOf iterate)).count (.opened fd) =
      (tr.flatMap (eventsOf iterate)).count (.closed fd) + if fd ∈ connsOf x then 1 else 0 := by
  have hbalance := balance (H.exec h).2 fd
  rwa [events, List.flatMap_map] at hbalance

end Implements

end Program

end Multiplexer

end SocketPrograms
