import SocketPrograms.Lib.Fork
import SocketPrograms.Project1.Child
import Mathlib.Data.Finset.Basic

/-!
# The parent of the file server and its children

`ServerM.c` forks a child for each connection. The child gets a copy of the buffers, which the
parent never writes to, and serves the connection; the parent closes its copy of the descriptor
and accepts again. The value of `accept` is not looked at: where it fails, a child is created for
the descriptor -1, on which `recv` fails. What a child does behind its `fclose`, whose argument is
`NULL`, is left out.

## Main definitions

* `Parent`, `Parent.next` — the parent; `Process`, `Process.next` — a child and its connection.
* `forking` — the parent and all children, in any interleaving.

## Main results

* `replies_of_child` — each child answers its own requests, whatever the others do.
* `parent_restored` — the parent has the descriptors of its start at each `accept`.
-/

namespace SocketPrograms.Project1.ForkServer

open ServerM

/-- Where the parent stands. -/
inductive ParentAt
  /-- In front of its `accept`. -/
  | accepting
  /-- After `on_error`, where `fork` failed. -/
  | exited
  deriving DecidableEq

/-- The parent: its buffers, of which each child gets a copy, and its open descriptors. `client_fd`
is `none` where it is -1. -/
structure Parent where
  server : Server
  fp : Option ℕ
  client_fd : Option ℕ
  opened : Finset ℕ
  at_ : ParentAt

/-- What the system does in an iteration of the parent: what `accept` returns, and whether `fork`
succeeds. -/
structure Accept where
  result : Option ℕ
  forks : Bool

/-- `client_fd = accept(server_fd, NULL, NULL)`. -/
def Parent.accept (p : Parent) (a : Accept) : Parent :=
  { p with client_fd := a.result, opened := a.result.elim p.opened (insert · p.opened) }

/-- `close(client_fd)`, which does nothing where that is -1. -/
def Parent.close (p : Parent) : Parent :=
  { p with opened := p.client_fd.elim p.opened p.opened.erase }

/-- One iteration. What `accept` returns was not open. -/
def Parent.next (p : Parent) (a : Accept) : Option Parent :=
  if p.at_ = .accepting ∧ ∀ fd ∈ a.result, fd ∉ p.opened then
    if a.forks then some (p.accept a).close else some { p.accept a with at_ := .exited }
  else none

/-- A child: its connection, its descriptors, and the loop that serves the connection. -/
structure Process where
  client_fd : Option ℕ
  opened : Finset ℕ
  loop : Child.State

/-- The child that the parent has just forked: `int recvVal = 5`. -/
def Parent.child (p : Parent) : Process :=
  ⟨p.client_fd, p.opened, ⟨p.server, 5, p.fp, .head, [], [], [], []⟩⟩

/-- The child that an iteration creates. -/
def Parent.born (p : Parent) (a : Accept) : Option Process :=
  if a.forks then some (p.accept a).child else none

/-- A step of a child. On the descriptor -1 every `recv` fails. -/
def Process.next (files : Files) (c : Process) (l : Child.Label) : Option Process :=
  match l with
  | .pass result _ _ =>
      if c.client_fd = none ∧ result ≠ none then none
      else (Child.next files c.loop l).map fun loop => { c with loop }
  | .leave => (Child.next files c.loop l).map fun loop => { c with loop }

/-- The parent at its start: the descriptors that are open then, and any memory. -/
structure Parent.Starts (server : Server) (opened : Finset ℕ) (p : Parent) : Prop where
  server_eq : p.server = server
  opened_eq : p.opened = opened
  at_eq : p.at_ = .accepting

/-- The parent, started with this memory and these descriptors, and its children. -/
def forking (files : Files) (server : Server) (opened : Finset ℕ) :
    Forking Parent Accept Process Child.Label where
  init := Parent.Starts server opened
  parent := Parent.next
  born := Parent.born
  child := Process.next files

variable {files : Files} {server : Server} {opened : Finset ℕ} {p q : Parent} {a : Accept}
  {c c' : Process}

/-! ## The parent -/

/-- Closing what `accept` returned. -/
theorem opened_close_accept (hnew : ∀ fd ∈ a.result, fd ∉ p.opened) :
    (p.accept a).close.opened = p.opened := by
  cases hresult : a.result with
  | none => simp [Parent.close, Parent.accept, hresult]
  | some fd =>
      have hfd : fd ∉ p.opened := hnew fd hresult
      simp only [Parent.close, Parent.accept, hresult, Option.elim_some]
      exact Finset.erase_insert hfd

/-- An iteration leaves the buffers, and restores the descriptors unless the parent exits. -/
theorem Parent.next_spec (h : p.next a = some q) :
    q.server = p.server ∧ (q.at_ = .accepting → q.opened = p.opened) := by
  simp only [Parent.next] at h
  split at h
  · next hguard =>
    split at h
    · obtain rfl := Option.some.inj h
      exact ⟨rfl, fun _ => opened_close_accept hguard.2⟩
    · obtain rfl := Option.some.inj h
      refine ⟨rfl, fun hat => ?_⟩
      cases hat
  · cases h

theorem Parent.next_at (h : p.next a = some q) : p.at_ = .accepting := by
  simp only [Parent.next] at h
  split at h
  · next hguard => exact hguard.1
  · cases h

/-- What the parent keeps. -/
structure Parent.Kept (server : Server) (opened : Finset ℕ) (p : Parent) : Prop where
  server_eq : p.server = server
  opened_eq : p.at_ = .accepting → p.opened = opened

theorem Parent.Kept.next (H : p.Kept server opened) (h : p.next a = some q) :
    q.Kept server opened := by
  obtain ⟨hserver, hopened⟩ := Parent.next_spec h
  exact ⟨hserver.trans H.server_eq,
    fun hat => (hopened hat).trans (H.opened_eq (Parent.next_at h))⟩

/-- A parent that accepts has forked in each iteration. -/
theorem Parent.forked {steps : List (Parent × Accept)}
    (h : (forking files server opened).parentSystem.Exec steps p) (hat : p.at_ = .accepting) :
    ∀ q ∈ steps, q.2.forks = true := by
  induction h with
  | start _ => simp
  | @snoc steps p q a _ hstep ih =>
      have hfork : a.forks = true := by
        by_contra hfails
        have hexit : q.at_ = .exited := by
          simp only [Forking.parentSystem, forking, System.ofNext, Parent.next, hfails] at hstep
          split at hstep
          · rw [← Option.some.inj hstep]
          · cases hstep
        cases hexit.symm.trans hat
      rw [List.forall_mem_append, List.forall_mem_singleton]
      exact ⟨ih (Parent.next_at hstep), hfork⟩

theorem Parent.kept {steps : List (Parent × Accept)}
    (h : (forking files server opened).parentSystem.Exec steps p) :
    ∀ q ∈ System.visited steps p, q.Kept server opened := by
  refine h.always (Parent.Kept server opened) (fun _ _ => True) ?_ ?_ fun _ _ => trivial
  · intro p hp
    exact ⟨hp.server_eq, fun _ => hp.opened_eq⟩
  · intro p a q _ H hstep
    exact H.next hstep

/-! ## A child by itself -/

/-- A child at its start has the memory of the parent. -/
structure Process.Starts (server : Server) (c : Process) : Prop where
  loop : Child.Starts c.loop
  server_eq : c.loop.server = server

theorem starts_of_born (hp : p.Kept server opened) (h : p.born a = some c) :
    c.Starts server := by
  simp only [Parent.born] at h
  split at h
  · obtain rfl := Option.some.inj h
    exact ⟨⟨rfl, rfl, rfl, rfl, rfl, rfl⟩, hp.server_eq⟩
  · cases h

/-- The loop of a child takes the steps of `Child`, on the connection it was created for. -/
theorem Process.next_cases {l : Child.Label} (h : c.next files l = some c') :
    c'.client_fd = c.client_fd ∧ Child.next files c.loop l = some c'.loop := by
  cases l with
  | pass result stream overrun =>
      simp only [Process.next] at h
      split at h
      · cases h
      · obtain ⟨loop, hloop, rfl⟩ := Option.map_eq_some_iff.mp h
        exact ⟨rfl, hloop⟩
  | leave =>
      obtain ⟨loop, hloop, rfl⟩ := Option.map_eq_some_iff.mp h
      exact ⟨rfl, hloop⟩

/-- The names that a child has received: the text of each `recv` that returned bytes. -/
def names (x : Child.State) : List (List Byte) :=
  (x.received.filter fun r => 0 < Child.Recv.value r).map fun r => cstr (Child.Recv.bytes r)

/-- What the pass sends in which `recv` returned none: `fopen` fails on the empty name. -/
def lastPage (x : Child.State) : List (List Byte) :=
  if 0 < x.recvVal then [] else [padded 1024 absentText]

/-- What a child keeps: it has sent the page of each name, in order, and one error page where its
connection has ended. -/
structure Answers (files : Files) (x : Child.State) : Prop where
  sent : x.sent = ((names x).map fun name => padded 1024 (page files name)) ++ lastPage x
  sendline : x.at_ ≠ .undefined → x.server.sendline.bytes = padded 1024 []

/-- What one pass adds to it. -/
theorem pages_of_pass (hempty : files [] = none) {x y : Child.State} {result : Child.Recv}
    (hreceived : y.received = x.received ++ [result]) (hvalue : y.recvVal = Child.Recv.value result)
    (hpos : 0 < x.recvVal)
    (hsent : x.sent = ((names x).map fun name => padded 1024 (page files name)) ++ lastPage x) :
    ((names y).map fun name => padded 1024 (page files name)) ++ lastPage y =
      x.sent ++ [reply files (Child.Recv.bytes result)] := by
  have hlast : lastPage x = [] := if_pos hpos
  rw [hsent, hlast, List.append_nil, names, hreceived, List.filter_append, List.map_append,
    List.map_append, lastPage, hvalue]
  by_cases hresult : 0 < Child.Recv.value result
  · simp [names, hresult, reply]
  · have hbytes : Child.Recv.bytes result = [] := by
      cases result with
      | none => rfl
      | some bytes =>
          have hlen : bytes.length = 0 := by
            simp only [Child.Recv.value] at hresult
            omega
          exact List.length_eq_zero_iff.mp hlen
    simp [names, hresult, reply, hbytes, page, hempty]

theorem Answers.next (hfiles : Fits files) (hempty : files [] = none) {x y : Child.State}
    (H : Answers files x) {l : Child.Label} (h : Child.next files x l = some y) :
    Answers files y := by
  cases l with
  | leave =>
      simp only [Child.next] at h
      split at h
      · next hguard =>
        obtain rfl := Option.some.inj h
        exact ⟨H.sent, fun _ => H.sendline (by simp [hguard.1])⟩
      · cases h
  | pass result stream overrun =>
      simp only [Child.next] at h
      split at h
      · next hguard =>
        have hsend := H.sendline (by simp [hguard.1])
        split at h
        · obtain rfl := Option.some.inj h
          exact ⟨H.sent, fun hat => absurd rfl hat⟩
        · next y' hpass =>
          obtain rfl := Option.some.inj h
          simp only [Child.pass, take, Option.bind_eq_bind, Option.bind_some,
            Option.bind_eq_some_iff, Option.pure_def, Option.some.injEq] at hpass
          obtain ⟨name, _, ⟨s', bytes⟩, hwork, rfl⟩ := hpass
          have hrecv : ((x.server.recvline.memset 1024).store (Child.Recv.bytes result)).bytes =
              padded 1024 (Child.Recv.bytes result) :=
            CharArray.bytes_store_padded (x.server.recvline.bytes_memset_of_le le_rfl)
              hguard.2.2.1
          rcases work_cases hfiles overrun
              (s := { x.server with
                recvline := (x.server.recvline.memset 1024).store (Child.Recv.bytes result) })
              hsend hrecv with hnone | ⟨s₁, hspec, hclear, _⟩
          · cases hnone.symm.trans hwork
          · obtain ⟨rfl, rfl⟩ : s₁ = s' ∧ reply files (Child.Recv.bytes result) = bytes := by
              simpa using hspec.symm.trans hwork
            exact ⟨(pages_of_pass hempty rfl rfl hguard.2.1 H.sent).symm, fun _ => hclear⟩
      · cases h

/-! ## The server -/

variable {tr : List (Forking.State Parent Process × Forking.Label Accept Child.Label)}
  {x : Forking.State Parent Process}

/-- Each child was created with the memory that the parent had at its start. -/
theorem starts_of_births (h : (forking files server opened).system.Exec tr x) {k : ℕ}
    (hc : ((forking files server opened).births tr)[k]? = some c) : c.Starts server := by
  obtain ⟨⟨p, a⟩, hp, hborn⟩ := List.mem_filterMap.mp (List.mem_of_getElem? hc)
  have hparent := Forking.parent_exec h
  obtain ⟨_, _, hvisited, _⟩ := hparent.step_of_mem (p, a) hp
  exact starts_of_born (Parent.kept hparent p hvisited) hborn

theorem answers_of_child (hfiles : Fits files) (hempty : files [] = none)
    (hserver : server.sendline.bytes = padded 1024 [])
    (h : (forking files server opened).system.Exec tr x) {k : ℕ} (hc : x.children[k]? = some c) :
    Answers files c.loop := by
  have hlt : k < x.children.length := (List.getElem?_eq_some_iff.mp hc).1
  rw [← Forking.length_births h] at hlt
  have hbirth := List.getElem?_eq_getElem hlt
  obtain ⟨hstart, hmemory⟩ := starts_of_births h hbirth
  refine (Forking.child_exec h k _ c hbirth hc).invariant (fun c => Answers files c.loop)
    (fun _ _ => True) ?_ ?_ fun _ _ => trivial
  · rintro c rfl
    refine ⟨?_, fun _ => ?_⟩
    · rw [hstart.sent_eq, names, hstart.received_eq, lastPage, hstart.recvVal_eq]
      rfl
    · rw [hmemory, hserver]
  · intro c l c' _ H hstep
    exact H.next hfiles hempty (Process.next_cases hstep).2

/-- **Each child answers its own requests, in every interleaving.** Whatever the parent and the
other children do, a child has sent on its connection the page of each name that it received on
it, in order, and one error page more where its last `recv` returned no byte; so no client gets
what another one asked for. The buffers are those of the parent's start, with `sendline` zeroed. -/
theorem replies_of_child (files : Files) (hfiles : Fits files) (hempty : files [] = none)
    (server : Server) (hserver : server.sendline.bytes = padded 1024 []) (opened : Finset ℕ)
    (tr : List (Forking.State Parent Process × Forking.Label Accept Child.Label))
    (x : Forking.State Parent Process)
    (h : (forking files server opened).system.Exec tr x) :
    ∀ c ∈ x.children,
      c.loop.sent = ((names c.loop).map fun name => padded 1024 (page files name)) ++
        lastPage c.loop := by
  intro c hc
  obtain ⟨k, hk⟩ := List.mem_iff_getElem?.mp hc
  exact (answers_of_child hfiles hempty hserver h hk).sent

/-- A parent at its start, with zeroed memory and the listening socket on descriptor 3. -/
def atStart : Parent := ⟨Child.zeroed.server, none, none, {0, 1, 2, 3}, .accepting⟩

/-- A failed `accept`, two clients that connect, a request of the first one, and the failed `recv`
of the child on -1. -/
theorem two_clients_run :
    ∃ tr x, (forking Retrieval.twoFiles Child.zeroed.server {0, 1, 2, 3}).system.Exec tr x ∧
      x.parent.at_ = .accepting ∧ x.children.map (fun c => (names c.loop, lastPage c.loop)) =
        [([], [padded 1024 absentText]), ([ascii "a"], []), ([], [])] := by
  have hrun : (System.replay
      (forking Retrieval.twoFiles Child.zeroed.server {0, 1, 2, 3}).next ⟨atStart, []⟩
      [.parent ⟨none, true⟩, .parent ⟨some 4, true⟩, .parent ⟨some 4, true⟩,
        .child 1 (.pass (some (ascii "a" ++ [0])) 5 Retrieval.garbage),
        .child 0 (.pass none 5 Retrieval.garbage)]).map
          (fun p => (p.2.parent.at_, p.2.children.map fun c => (names c.loop, lastPage c.loop))) =
        some (.accepting, [([], [padded 1024 absentText]), ([ascii "a"], []), ([], [])]) := by
    decide +kernel
  have hinit : (forking Retrieval.twoFiles Child.zeroed.server {0, 1, 2, 3}).system.init
      ⟨atStart, []⟩ := ⟨⟨rfl, rfl, rfl⟩, rfl⟩
  obtain ⟨tr, x, hexec, hx⟩ := System.exec_of_replay hinit hrun
  obtain ⟨hat, hpages⟩ := Prod.mk.inj hx
  exact ⟨tr, x, hexec, hat, hpages⟩

/-- The client that asked for `a` was sent its contents. -/
theorem replies_of_child_two :
    ∃ tr x, (forking Retrieval.twoFiles Child.zeroed.server {0, 1, 2, 3}).system.Exec tr x ∧
      ∃ c ∈ x.children, c.loop.sent = [padded 1024 (ascii "A\n")] := by
  obtain ⟨tr, x, hexec, _, hpages⟩ := two_clients_run
  have hmem : ([ascii "a"], []) ∈ x.children.map fun c => (names c.loop, lastPage c.loop) := by
    rw [hpages]
    simp
  obtain ⟨c, hc, hcpages⟩ := List.mem_map.mp hmem
  obtain ⟨hnames, hlast⟩ := Prod.mk.inj hcpages
  refine ⟨tr, x, hexec, c, hc, ?_⟩
  rw [replies_of_child Retrieval.twoFiles Retrieval.twoFiles_fits rfl Child.zeroed.server rfl
    {0, 1, 2, 3} tr x hexec c hc, hnames, hlast]
  have hpage : page Retrieval.twoFiles (ascii "a") = ascii "A\n" := by decide
  simp [hpage]

/-- **The parent never leaks a descriptor**, in every interleaving: in front of each `accept` it
has those of its start, and it has created one child for each `accept` that it went on from,
a failed one included. -/
theorem parent_restored (files : Files) (server : Server) (opened : Finset ℕ)
    (tr : List (Forking.State Parent Process × Forking.Label Accept Child.Label))
    (x : Forking.State Parent Process) (h : (forking files server opened).system.Exec tr x)
    (hat : x.parent.at_ = .accepting) :
    x.parent.opened = opened ∧ x.children.length = (Forking.parentSteps tr).length := by
  have hparent := Forking.parent_exec h
  refine ⟨(Parent.kept hparent x.parent (by simp)).opened_eq hat, ?_⟩
  have hforked := Parent.forked hparent hat
  have hborn : Forking.births (forking files server opened) tr =
      (Forking.parentSteps tr).map fun p => (p.1.accept p.2).child := by
    rw [Forking.births, ← List.filterMap_eq_map]
    refine List.filterMap_congr fun p hp => ?_
    exact if_pos (hforked p hp)
  rw [← Forking.length_births h, hborn, List.length_map]

theorem parent_restored_two :
    ∃ tr x, (forking Retrieval.twoFiles Child.zeroed.server {0, 1, 2, 3}).system.Exec tr x ∧
      x.parent.opened = {0, 1, 2, 3} ∧ (Forking.parentSteps tr).length = 3 := by
  obtain ⟨tr, x, hexec, hat, hpages⟩ := two_clients_run
  obtain ⟨hopened, hlen⟩ := parent_restored Retrieval.twoFiles Child.zeroed.server {0, 1, 2, 3}
    tr x hexec hat
  refine ⟨tr, x, hexec, hopened, hlen.symm.trans ?_⟩
  simpa using congrArg List.length hpages

end SocketPrograms.Project1.ForkServer
