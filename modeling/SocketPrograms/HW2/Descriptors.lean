import SocketPrograms.HW2.EchoServer
import SocketPrograms.Lib.Transition
import Mathlib.Data.Finset.Insert
import Mathlib.Data.Finset.Erase
import Mathlib.Data.Finset.Union

/-!
# The descriptors of the command server of HW2

`accept` opens a descriptor for each connection and `popen` one for each command; `pclose`
closes the second. The inner loop of `EchoServer.cpp` is left where `recv` returns 0 and the
connection's own descriptor stays open; where `recv` or `send` fails, the whole program ends.

The kernel returns descriptors that are not open. What it answers is the label of a step.

## Main results

* `accepted_opened` — at `accept`, every descriptor that was ever accepted is still open.
* `never_restores` — no end of a connection brings the server back to `accept` with the
  descriptors it had before.
-/

namespace SocketPrograms.HW2.Descriptors

open EchoServer (Server)

/-- Where the server stands. -/
inductive At
  /-- In its `accept`. -/
  | accepting
  /-- At the head of the inner loop. -/
  | serving
  /-- Behind `exit(1)`. -/
  | exited
  /-- After a step that C leaves undefined. -/
  | undefined
  deriving DecidableEq

/-- The server process. -/
structure Process where
  server : Server
  client_fd : ℕ
  at_ : At
  /-- The descriptors that are open. -/
  opened : Finset ℕ
  /-- Those that were open at the last `accept` (history). -/
  before : Finset ℕ
  /-- The descriptor and buffer of each `send` (history). -/
  sends : List (ℕ × List Byte)

/-- What the kernel answers. -/
inductive Answer
  /-- `accept` returns this descriptor. -/
  | accept (fd : ℕ)
  /-- `accept` returns -1. -/
  | acceptFails
  /-- `recv` returns 0. -/
  | close
  /-- `recv` returns -1. -/
  | recvFails
  /-- `recv` returns these bytes, `popen` opens `pipe` to a command that prints `output`, and
  `send` succeeds or fails. -/
  | command (bytes output : List Byte) (pipe : ℕ) (sent : Bool)

/-- The three `memset` calls at the head of the inner loop. -/
def clear (x : Process) : Process :=
  { x with server := { x.server with bufs := x.server.bufs.clear } }

/-- One pass of the inner loop with a command, from `recv` to `pclose`. Where `send` fails,
`exit(1)` comes before `pclose`. -/
def pass (sizeofFp : ℕ) (x : Process) (bytes output : List Byte) (pipe : ℕ) (sent : Bool) :
    Process :=
  match (EchoServer.take x.server bytes).bind (EchoServer.work sizeofFp output) with
  | none => { x with at_ := .undefined }
  | some (server, reply) =>
      if sent then { x with
        server, opened := (insert pipe x.opened).erase pipe
        sends := x.sends ++ [(x.client_fd, reply)] }
      else { x with server, opened := insert pipe x.opened, at_ := .exited }

/-- One step. -/
def next (sizeofFp : ℕ) (x : Process) : Answer → Option Process
  | .accept fd =>
      if x.at_ = .accepting ∧ fd ∉ x.opened then
        some { x with
          client_fd := fd, at_ := .serving, opened := insert fd x.opened, before := x.opened }
      else none
  | .acceptFails => if x.at_ = .accepting then some { x with at_ := .exited } else none
  | .close => if x.at_ = .serving then some { clear x with at_ := .accepting } else none
  | .recvFails => if x.at_ = .serving then some { clear x with at_ := .exited } else none
  | .command bytes output pipe sent =>
      if x.at_ = .serving ∧ bytes ≠ [] ∧ bytes.length ≤ 1024 ∧ pipe ∉ x.opened then
        some (pass sizeofFp x bytes output pipe sent)
      else none

/-- A server before its first `accept`, with these descriptors open; its memory is
arbitrary. -/
structure Starts (opened : Finset ℕ) (x : Process) : Prop where
  at_eq : x.at_ = .accepting
  opened_eq : x.opened = opened
  before_eq : x.before = opened

/-- The server, started with these descriptors open. -/
def system (sizeofFp : ℕ) (opened : Finset ℕ) : System Process Answer :=
  .ofNext (Starts opened) (next sizeofFp)

/-- These answers end a connection: an orderly close, a failing `recv`, a failing `send`. -/
def Ends : Answer → Prop
  | .close => True
  | .recvFails => True
  | .command _ _ _ sent => sent = false
  | _ => False

/-- The server is back at `accept`, with the descriptors it had before the connection. -/
def Restored (x : Process) : Prop := x.at_ = .accepting ∧ x.opened = x.before

/-- What `accept` returned in a run. -/
def accepted (tr : List (Process × Answer)) : List ℕ :=
  tr.filterMap fun p =>
    match p.2 with
    | .accept fd => some fd
    | _ => none

/-- The messages that `recv` returned in a run, each with the server that calls `popen` on its
buffer; `none` where the buffer has no NUL. -/
def received (tr : List (Process × Answer)) : List (List Byte × Option Server) :=
  tr.filterMap fun p =>
    match p.2 with
    | .command bytes _ _ _ => some (bytes, EchoServer.take p.1.server bytes)
    | _ => none

/-! ## What each step can do -/

variable {sizeofFp : ℕ} {opened : Finset ℕ} {x y : Process} {tr : List (Process × Answer)}

theorem accept_cases {fd : ℕ} (h : next sizeofFp x (.accept fd) = some y) :
    x.at_ = .accepting ∧ fd ∉ x.opened ∧ y = { x with
      client_fd := fd, at_ := .serving, opened := insert fd x.opened, before := x.opened } := by
  simp only [next] at h
  split at h
  · next hg => exact ⟨hg.1, hg.2, by simpa using h.symm⟩
  · cases h

theorem close_cases (h : next sizeofFp x .close = some y) :
    x.at_ = .serving ∧ y = { clear x with at_ := .accepting } := by
  simp only [next] at h
  split at h
  · next hat => exact ⟨hat, by simpa using h.symm⟩
  · cases h

/-- A command leaves the descriptors as they were, unless it is the last of its connection. -/
theorem command_cases {bytes output : List Byte} {pipe : ℕ} {sent : Bool}
    (h : next sizeofFp x (.command bytes output pipe sent) = some y) :
    x.at_ = .serving ∧ bytes ≠ [] ∧ bytes.length ≤ 1024 ∧
      ((y.at_ ≠ .serving ∧ y.at_ ≠ .accepting) ∨
        sent = true ∧ y.at_ = .serving ∧ y.opened = x.opened ∧ y.before = x.before ∧
          y.client_fd = x.client_fd) := by
  simp only [next] at h
  split at h
  · next hg =>
    refine ⟨hg.1, hg.2.1, hg.2.2.1, ?_⟩
    obtain rfl : pass sizeofFp x bytes output pipe sent = y := by simpa using h
    rw [pass]
    split
    · exact .inl ⟨by simp, by simp⟩
    · cases sent with
      | false => exact .inl ⟨by simp, by simp⟩
      | true => exact .inr ⟨rfl, hg.1, Finset.erase_insert hg.2.2.2, rfl, rfl⟩
  · cases h

/-- Where `accept` or `recv` fails, the program ends. -/
theorem fails_cases {a : Answer} (ha : a = .acceptFails ∨ a = .recvFails)
    (h : next sizeofFp x a = some y) : y.at_ = .exited := by
  rcases ha with rfl | rfl
  · simp only [next] at h
    split at h
    · obtain rfl := Option.some.inj h
      rfl
    · cases h
  · simp only [next] at h
    split at h
    · obtain rfl := Option.some.inj h
      rfl
    · cases h

/-! ## Every run -/

/-- What a run keeps: no descriptor that was accepted is closed. -/
structure Kept (opened : Finset ℕ) (accepted : List ℕ) (x : Process) : Prop where
  accepting : x.at_ = .accepting → x.opened = opened ∪ accepted.toFinset
  serving : x.at_ = .serving → x.opened = opened ∪ accepted.toFinset ∧
    x.opened = insert x.client_fd x.before ∧ x.client_fd ∉ x.before

theorem Kept.next {fds : List ℕ} {a : Answer} (hx : Kept opened fds x)
    (h : next sizeofFp x a = some y) : Kept opened (fds ++ accepted [(x, a)]) y := by
  cases a with
  | accept fd =>
      obtain ⟨hat, hfd, rfl⟩ := accept_cases h
      refine ⟨by simp, fun _ => ⟨?_, rfl, hfd⟩⟩
      have hset : (fds ++ accepted [(x, Answer.accept fd)]).toFinset =
          insert fd fds.toFinset := by
        ext i
        simp [accepted]
      rw [hset, Finset.union_insert]
      exact congrArg (insert fd) (hx.accepting hat)
  | acceptFails =>
      have hat := fails_cases (.inl rfl) h
      exact ⟨by simp [hat], by simp [hat]⟩
  | close =>
      obtain ⟨hat, rfl⟩ := close_cases h
      exact ⟨fun _ => by simpa [accepted, clear] using (hx.serving hat).1, by simp⟩
  | recvFails =>
      have hat := fails_cases (.inr rfl) h
      exact ⟨by simp [hat], by simp [hat]⟩
  | command bytes output pipe sent =>
      obtain ⟨hat, _, _, ⟨hnot, hnot'⟩ | ⟨_, hat', hopened, hbefore, hfd⟩⟩ := command_cases h
      · exact ⟨fun h => absurd h hnot', fun h => absurd h hnot⟩
      · refine ⟨by simp [hat'], fun _ => ?_⟩
        rw [hopened, hbefore, hfd]
        simpa [accepted] using hx.serving hat

theorem kept (h : (system sizeofFp opened).Exec tr x) : Kept opened (accepted tr) x := by
  induction h with
  | start h0 => exact ⟨fun _ => by simpa [accepted] using h0.opened_eq, by simp [h0.at_eq]⟩
  | @snoc tr x y a _ hst ih =>
      have happ : accepted (tr ++ [(x, a)]) = accepted tr ++ accepted [(x, a)] :=
        List.filterMap_append
      rw [happ]
      exact ih.next hst

/-- **Every connection costs a descriptor**: at `accept`, the server has open what it
started with and all it ever accepted. -/
theorem accepted_opened (h : (system sizeofFp opened).Exec tr x) (hat : x.at_ = .accepting) :
    x.opened = opened ∪ (accepted tr).toFinset :=
  (kept h).accepting hat

/-- **No connection leaves the server as it was.** In every run, however a connection
ends, the server is not back at `accept` with the descriptors it had before: after an
orderly close it has one more, and else the program has ended. -/
theorem never_restores (sizeofFp : ℕ) (opened : Finset ℕ) (tr : List (Process × Answer))
    (x : Process) (h : (system sizeofFp opened).Exec tr x) (a : Answer) (hend : Ends a)
    (y : Process) (hstep : next sizeofFp x a = some y) :
    ¬ Restored y ∧ (y.at_ = .accepting → y.opened = insert y.client_fd y.before) := by
  cases a with
  | accept fd => cases hend
  | acceptFails => cases hend
  | close =>
      obtain ⟨hat, rfl⟩ := close_cases hstep
      obtain ⟨_, hopened, hfd⟩ := (kept h).serving hat
      refine ⟨fun hrestored => ?_, fun _ => hopened⟩
      have hsame : x.opened = x.before := hrestored.2
      rw [← hsame, hopened] at hfd
      simp at hfd
  | recvFails =>
      have hat := fails_cases (.inr rfl) hstep
      exact ⟨by simp [Restored, hat], by simp [hat]⟩
  | command bytes output pipe sent =>
      obtain ⟨_, _, _, ⟨_, hnot⟩ | ⟨hsent, _⟩⟩ := command_cases hstep
      · exact ⟨fun hrestored => hnot hrestored.1, fun hat => absurd hat hnot⟩
      · cases hsent.symm.trans hend

/-- What is received goes through `take`, from the server of some state of the run. -/
theorem received_eq {p : List Byte × Option Server} (hp : p ∈ received tr) :
    ∃ s, p.2 = EchoServer.take s p.1 := by
  obtain ⟨⟨y, a⟩, _, hsome⟩ := List.mem_filterMap.mp hp
  cases a with
  | command bytes output pipe sent =>
      obtain rfl := Option.some.inj hsome
      exact ⟨y.server, rfl⟩
  | accept fd => cases hsome
  | acceptFails => cases hsome
  | close => cases hsome
  | recvFails => cases hsome

/-- A process with zeroed memory; the listening socket is descriptor 3. -/
def zeroed : Process :=
  ⟨⟨⟨.fillWith 1024 0, .fillWith 1024 0, .fillWith 1024 0⟩, [], []⟩, 0, .accepting,
    {0, 1, 2, 3}, {0, 1, 2, 3}, []⟩

theorem zeroed_starts : Starts {0, 1, 2, 3} zeroed := ⟨rfl, rfl, rfl⟩

/-- One connection with one command, and an orderly close. -/
theorem never_restores_close :
    ∃ tr x y, (system 8 {0, 1, 2, 3}).Exec tr x ∧ next 8 x .close = some y ∧
      ¬ Restored y ∧ (y.at_ = .accepting → y.opened = insert y.client_fd y.before) := by
  have hrun : (System.replay (next 8) zeroed
      [.accept 4, .command (ascii "ls\n" ++ [0]) (ascii "notes\n") 5 true]).map
        (fun p => p.2.at_) = some .serving := by decide +kernel
  obtain ⟨tr, x, hexec, hat⟩ := System.exec_of_replay zeroed_starts hrun
  have hstep : next 8 x .close = some { clear x with at_ := .accepting } := if_pos hat
  exact ⟨tr, x, _, hexec, hstep,
    never_restores 8 {0, 1, 2, 3} tr x hexec .close trivial _ hstep⟩

/-- One client connects and closes in order: its descriptor stays open. -/
theorem close_keeps_descriptor :
    ¬ ∀ (sizeofFp : ℕ) (opened : Finset ℕ) (tr : List (Process × Answer)) (x : Process),
      (system sizeofFp opened).Exec tr x → ∀ a, Ends a → ∀ y, next sizeofFp x a = some y →
        Restored y := by
  intro hrestores
  have hrun : (System.replay (next 8) zeroed [.accept 4]).map
      (fun p => (p.2.at_, p.2.opened, p.2.before)) =
      some (.serving, {4, 0, 1, 2, 3}, {0, 1, 2, 3}) := by decide +kernel
  obtain ⟨tr, x, hexec, hx⟩ := System.exec_of_replay zeroed_starts hrun
  obtain ⟨hat, hsets⟩ := Prod.mk.inj hx
  obtain ⟨hopened, hbefore⟩ := Prod.mk.inj hsets
  have hstep : next 8 x .close = some { clear x with at_ := .accepting } := if_pos hat
  have hrestored := hrestores 8 {0, 1, 2, 3} tr x hexec .close trivial _ hstep
  have hsame : x.opened = x.before := hrestored.2
  rw [hopened, hbefore] at hsame
  exact absurd hsame (by decide)

end SocketPrograms.HW2.Descriptors
