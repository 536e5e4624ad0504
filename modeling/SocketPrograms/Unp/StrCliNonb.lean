import SocketPrograms.Lib.LinearBuffer
import SocketPrograms.Lib.Transition

/-!
# The client with nonblocking input and output

`str_cli` of `strclinonb.c` copies its standard input to the socket through the buffer `to`, and
the socket to its standard output through the buffer `fr`. Each iteration asks `select` about what
the buffers allow and serves what is reported; what was just read it tries to write at once.
At the end of the socket it returns, whatever the buffers hold.

What the kernel answers is the input of an iteration. It reports what it was asked about, and reads
and writes no more than it was asked to.

## Main definitions

* `State`, `watch` — the variables, and what `select` is asked about.
* `readStdin`, `readSock`, `writeStdout`, `writeSock` — the four parts of an iteration, and `next`.

## Main results

* `conserves` — **no byte is lost, repeated or reordered in the loop**, and the FIN is sent once,
  behind the last byte of the input; what is lost at the end is what the buffers hold.
-/

namespace SocketPrograms.Unp.StrCliNonb

/-- `MAXLINE`. -/
abbrev maxLine : ℕ := 4096

/-- Where the client stands. -/
inductive At
  /-- At the head of its loop. -/
  | head
  /-- Behind `return`. -/
  | returned
  /-- Behind `err_quit`. -/
  | quit
  /-- Behind `err_sys`. -/
  | failed
  deriving DecidableEq

/-- The variables of the loop. -/
structure State where
  to_ : LinearBuffer maxLine
  fr : LinearBuffer maxLine
  stdineof : Bool
  at_ : At
  /-- The bytes read from the standard input and written to the socket, those read from the socket
  and written to the standard output, and the calls of `shutdown` (history). -/
  typed : List Byte
  sent : List Byte
  received : List Byte
  printed : List Byte
  shutdowns : ℕ

/-- The bits that matter of the two descriptor sets. -/
structure Watch where
  stdin : Bool
  sock : Bool
  sockOut : Bool
  stdout : Bool

/-- What `read` returns: -1 and `EWOULDBLOCK`, another error, or bytes, none at the end. -/
inductive ReadResult
  | wouldBlock
  | failed
  | data (bytes : List Byte)

/-- What `write` returns. -/
inductive WriteResult
  | wouldBlock
  | failed
  | wrote (n : ℕ)

/-- What the kernel answers in an iteration, where it is asked. -/
structure Input where
  ready : Watch
  stdin : ReadResult
  sock : ReadResult
  stdout : WriteResult
  sockOut : WriteResult

/-- What `select` is asked about. -/
def watch (x : State) : Watch where
  stdin := !x.stdineof && x.to_.iptr < maxLine
  sock := x.fr.iptr < maxLine
  sockOut := x.to_.optr ≠ x.to_.iptr
  stdout := x.fr.optr ≠ x.fr.iptr

/-- No bit is reported that was not asked about. -/
def Watch.Within (r w : Watch) : Prop :=
  (r.stdin → w.stdin) ∧ (r.sock → w.sock) ∧ (r.sockOut → w.sockOut) ∧ (r.stdout → w.stdout)

instance (r w : Watch) : Decidable (r.Within w) := inferInstanceAs (Decidable (_ ∧ _ ∧ _ ∧ _))

/-- `Shutdown(sockfd, SHUT_WR)` where the buffer `to` is empty. -/
def shutdownIf (b : Bool) (x : State) : State :=
  if b then { x with shutdowns := x.shutdowns + 1 } else x

/-- The read from the standard input; the flag is the bit it sets for the socket. `none` where the
kernel gives no such answer. -/
def readStdin (inp : Input) (x : State) : Option (State × Bool) :=
  if inp.ready.stdin then
    match inp.stdin with
    | .wouldBlock => some (x, false)
    | .failed => some ({ x with at_ := .failed }, false)
    | .data [] =>
        some (shutdownIf (x.to_.optr = x.to_.iptr) { x with stdineof := true }, false)
    | .data bytes =>
        (x.to_.push bytes).map fun to_ => ({ x with to_, typed := x.typed ++ bytes }, true)
  else some (x, false)

/-- The read from the socket; the flag is the bit it sets for the standard output. -/
def readSock (inp : Input) (x : State) : Option (State × Bool) :=
  if x.at_ = .head ∧ inp.ready.sock then
    match inp.sock with
    | .wouldBlock => some (x, false)
    | .failed => some ({ x with at_ := .failed }, false)
    | .data [] => some ({ x with at_ := if x.stdineof then .returned else .quit }, false)
    | .data bytes =>
        (x.fr.push bytes).map fun fr => ({ x with fr, received := x.received ++ bytes }, true)
  else some (x, false)

/-- The write to the standard output. -/
def writeStdout (inp : Input) (more : Bool) (x : State) : Option State :=
  if x.at_ = .head ∧ (inp.ready.stdout ∨ more) ∧ x.fr.optr < x.fr.iptr then
    match inp.stdout with
    | .wouldBlock => some x
    | .failed => some { x with at_ := .failed }
    | .wrote n => (x.fr.pop n).map fun fr =>
        { x with fr, printed := x.printed ++ x.fr.pending.take n }
  else some x

/-- The write to the socket. -/
def writeSock (inp : Input) (more : Bool) (x : State) : Option State :=
  if x.at_ = .head ∧ (inp.ready.sockOut ∨ more) ∧ x.to_.optr < x.to_.iptr then
    match inp.sockOut with
    | .wouldBlock => some x
    | .failed => some { x with at_ := .failed }
    | .wrote n => (x.to_.pop n).map fun to_ =>
        shutdownIf (to_.optr = to_.iptr ∧ x.stdineof)
          { x with to_, sent := x.sent ++ x.to_.pending.take n }
  else some x

/-- One iteration. -/
def next (x : State) (inp : Input) : Option State :=
  if x.at_ = .head ∧ inp.ready.Within (watch x) then do
    let (x, sockOut) ← readStdin inp x
    let (x, stdout) ← readSock inp x
    let x ← writeStdout inp stdout x
    writeSock inp sockOut x
  else none

/-- A client at its start, over any memory. -/
structure Starts (x : State) : Prop where
  to_eq : ∃ arr, x.to_ = .empty arr
  fr_eq : ∃ arr, x.fr = .empty arr
  stdineof_eq : x.stdineof = false
  at_eq : x.at_ = .head
  typed_eq : x.typed = []
  sent_eq : x.sent = []
  received_eq : x.received = []
  printed_eq : x.printed = []
  shutdowns_eq : x.shutdowns = 0

def system : System State Input := .ofNext Starts next

variable {x y : State} {inp : Input} {more : Bool}

/-! ## The invariant -/

/-- What each part of an iteration keeps. -/
structure Kept (x : State) : Prop where
  up : x.sent ++ x.to_.pending = x.typed
  down : x.printed ++ x.fr.pending = x.received
  fin : x.shutdowns = if x.stdineof ∧ x.to_.pending = [] then 1 else 0
  returned : x.at_ = .returned → x.stdineof = true

theorem Starts.kept (hx : Starts x) : Kept x := by
  obtain ⟨⟨arr, hto⟩, ⟨arr', hfr⟩, heof, hat, htyped, hsent, hreceived, hprinted, hfin⟩ := hx
  refine ⟨?_, ?_, ?_, ?_⟩
  · rw [hsent, hto, htyped, LinearBuffer.pending_empty, List.append_nil]
  · rw [hprinted, hfr, hreceived, LinearBuffer.pending_empty, List.append_nil]
  · simp [hfin, heof]
  · simp [hat]

/-- The end of the input is seen once: it is not asked about again. -/
theorem Kept.readStdin (hx : Kept x) (heof : inp.ready.stdin → x.stdineof = false)
    (h : readStdin inp x = some (y, more)) : Kept y := by
  simp only [StrCliNonb.readStdin] at h
  split at h
  · next hready =>
    have hfalse := heof hready
    split at h
    · obtain ⟨rfl, _⟩ := Prod.mk.inj (Option.some.inj h)
      exact hx
    · obtain ⟨rfl, _⟩ := Prod.mk.inj (Option.some.inj h)
      exact ⟨hx.up, hx.down, hx.fin, by simp⟩
    · obtain ⟨rfl, _⟩ := Prod.mk.inj (Option.some.inj h)
      have hfin := hx.fin
      rw [if_neg (by simp [hfalse])] at hfin
      by_cases hempty : x.to_.optr = x.to_.iptr
      · refine ⟨?_, ?_, ?_, ?_⟩
        · simpa [shutdownIf, hempty] using hx.up
        · simpa [shutdownIf, hempty] using hx.down
        · simp [shutdownIf, hempty, hfin, LinearBuffer.pending_eq_nil_iff]
        · simp [shutdownIf, hempty]
      · refine ⟨?_, ?_, ?_, ?_⟩
        · simpa [shutdownIf, hempty] using hx.up
        · simpa [shutdownIf, hempty] using hx.down
        · simp [shutdownIf, hempty, hfin, LinearBuffer.pending_eq_nil_iff]
        · simp [shutdownIf, hempty]
    · obtain ⟨buf, hpush, hy⟩ := Option.map_eq_some_iff.mp h
      obtain ⟨rfl, _⟩ := Prod.mk.inj hy
      refine ⟨?_, hx.down, ?_, hx.returned⟩
      · rw [LinearBuffer.pending_push hpush, ← List.append_assoc, hx.up]
      · have hfin := hx.fin
        rw [if_neg (by simp [hfalse])] at hfin
        simp [hfalse, hfin]
  · obtain ⟨rfl, _⟩ := Prod.mk.inj (Option.some.inj h)
    exact hx

theorem Kept.readSock (hx : Kept x) (h : readSock inp x = some (y, more)) : Kept y := by
  simp only [StrCliNonb.readSock] at h
  split at h
  · split at h
    · obtain ⟨rfl, _⟩ := Prod.mk.inj (Option.some.inj h)
      exact hx
    · obtain ⟨rfl, _⟩ := Prod.mk.inj (Option.some.inj h)
      exact ⟨hx.up, hx.down, hx.fin, by simp⟩
    · obtain ⟨rfl, _⟩ := Prod.mk.inj (Option.some.inj h)
      refine ⟨hx.up, hx.down, hx.fin, fun hreturned => ?_⟩
      by_contra heof
      simp [heof] at hreturned
    · obtain ⟨fr, hpush, hy⟩ := Option.map_eq_some_iff.mp h
      obtain ⟨rfl, _⟩ := Prod.mk.inj hy
      refine ⟨hx.up, ?_, hx.fin, hx.returned⟩
      rw [LinearBuffer.pending_push hpush, ← List.append_assoc, hx.down]
  · obtain ⟨rfl, _⟩ := Prod.mk.inj (Option.some.inj h)
    exact hx

theorem Kept.writeStdout (hx : Kept x) (h : writeStdout inp more x = some y) : Kept y := by
  simp only [StrCliNonb.writeStdout] at h
  split at h
  · split at h
    · obtain rfl := Option.some.inj h
      exact hx
    · obtain rfl := Option.some.inj h
      exact ⟨hx.up, hx.down, hx.fin, by simp⟩
    · obtain ⟨fr, hpop, rfl⟩ := Option.map_eq_some_iff.mp h
      refine ⟨hx.up, ?_, hx.fin, hx.returned⟩
      rw [LinearBuffer.pending_pop hpop, List.append_assoc, List.take_append_drop, hx.down]
  · obtain rfl := Option.some.inj h
    exact hx

/-- The FIN follows the last byte. -/
theorem Kept.writeSock (hx : Kept x) (h : writeSock inp more x = some y) : Kept y := by
  simp only [StrCliNonb.writeSock] at h
  split at h
  · next hguard =>
    split at h
    · obtain rfl := Option.some.inj h
      exact hx
    · obtain rfl := Option.some.inj h
      exact ⟨hx.up, hx.down, hx.fin, by simp⟩
    · next n _ =>
      obtain ⟨buf, hpop, rfl⟩ := Option.map_eq_some_iff.mp h
      have hsome : x.to_.pending ≠ [] := by
        rw [ne_eq, LinearBuffer.pending_eq_nil_iff]
        omega
      have hfin := hx.fin
      rw [if_neg fun hboth => hsome hboth.2] at hfin
      have hup : x.sent ++ x.to_.pending.take n ++ buf.pending = x.typed := by
        rw [LinearBuffer.pending_pop hpop, List.append_assoc, List.take_append_drop, hx.up]
      by_cases hlast : buf.optr = buf.iptr ∧ x.stdineof
      · refine ⟨?_, ?_, ?_, ?_⟩
        · simpa [shutdownIf, hlast] using hup
        · simpa [shutdownIf, hlast] using hx.down
        · simp [shutdownIf, hlast, hfin, LinearBuffer.pending_eq_nil_iff]
        · simp [shutdownIf, hlast]
      · have hnot : ¬(x.stdineof ∧ buf.pending = []) := fun hboth =>
          hlast ⟨LinearBuffer.pending_eq_nil_iff.mp hboth.2, hboth.1⟩
        refine ⟨?_, ?_, ?_, ?_⟩
        · simpa [shutdownIf, hlast] using hup
        · simpa [shutdownIf, hlast] using hx.down
        · simpa [shutdownIf, hlast, hfin] using hnot
        · simpa [shutdownIf, hlast] using hx.returned
  · obtain rfl := Option.some.inj h
    exact hx

theorem Kept.next (hx : Kept x) (h : next x inp = some y) : Kept y := by
  simp only [StrCliNonb.next] at h
  split at h
  · next hguard =>
    simp only [Option.bind_eq_bind, Option.bind_eq_some_iff, Prod.exists] at h
    obtain ⟨z, sockOut, hstdin, w, stdout, hsock, v, hstdout, hlast⟩ := h
    have heof : inp.ready.stdin → x.stdineof = false := by
      intro hready
      have hwatch := hguard.2.1 hready
      simp only [watch, Bool.and_eq_true, Bool.not_eq_true'] at hwatch
      exact hwatch.1
    exact (((hx.readStdin heof hstdin).readSock hsock).writeStdout hstdout).writeSock hlast
  · cases h

/-! ## What an iteration does to the streams -/

theorem readStdin_streams (h : readStdin inp x = some (y, more)) :
    y.sent = x.sent ∧ y.received = x.received ∧ (y.at_ = x.at_ ∨ y.at_ = .failed) ∧
      (inp.ready.stdin = false → y = x ∧ more = false) := by
  simp only [readStdin] at h
  split at h
  · next hready =>
    have hnot : inp.ready.stdin ≠ false := by simp [hready]
    split at h
    · obtain ⟨rfl, rfl⟩ := Prod.mk.inj (Option.some.inj h)
      exact ⟨rfl, rfl, .inl rfl, fun hfalse => absurd hfalse hnot⟩
    · obtain ⟨rfl, _⟩ := Prod.mk.inj (Option.some.inj h)
      exact ⟨rfl, rfl, .inr rfl, fun hfalse => absurd hfalse hnot⟩
    · obtain ⟨rfl, _⟩ := Prod.mk.inj (Option.some.inj h)
      by_cases hempty : x.to_.optr = x.to_.iptr
      · simp [shutdownIf, hempty, hready]
      · simp [shutdownIf, hempty, hready]
    · obtain ⟨buf, _, hy⟩ := Option.map_eq_some_iff.mp h
      obtain ⟨rfl, _⟩ := Prod.mk.inj hy
      exact ⟨rfl, rfl, .inl rfl, fun hfalse => absurd hfalse hnot⟩
  · obtain ⟨rfl, rfl⟩ := Prod.mk.inj (Option.some.inj h)
    exact ⟨rfl, rfl, .inl rfl, fun _ => ⟨rfl, rfl⟩⟩

theorem readSock_streams (h : readSock inp x = some (y, more)) :
    y.sent = x.sent ∧ y.to_ = x.to_ ∧ y.stdineof = x.stdineof ∧
      (y.received = x.received ∨
        ∃ bytes, bytes ≠ [] ∧ inp.sock = .data bytes ∧ y.received = x.received ++ bytes) ∧
      (y.at_ = x.at_ ∨ y.at_ = .failed ∨
        inp.sock = .data [] ∧ y.at_ = if x.stdineof then .returned else .quit) := by
  simp only [readSock] at h
  split at h
  · split at h
    · obtain ⟨rfl, _⟩ := Prod.mk.inj (Option.some.inj h)
      exact ⟨rfl, rfl, rfl, .inl rfl, .inl rfl⟩
    · obtain ⟨rfl, _⟩ := Prod.mk.inj (Option.some.inj h)
      exact ⟨rfl, rfl, rfl, .inl rfl, .inr (.inl rfl)⟩
    · next hsock =>
      obtain ⟨rfl, _⟩ := Prod.mk.inj (Option.some.inj h)
      exact ⟨rfl, rfl, rfl, .inl rfl, .inr (.inr ⟨hsock, rfl⟩)⟩
    · next bytes hne hsock =>
      obtain ⟨fr, _, hy⟩ := Option.map_eq_some_iff.mp h
      obtain ⟨rfl, _⟩ := Prod.mk.inj hy
      exact ⟨rfl, rfl, rfl, .inr ⟨bytes, hne, hsock, rfl⟩, .inl rfl⟩
  · obtain ⟨rfl, _⟩ := Prod.mk.inj (Option.some.inj h)
    exact ⟨rfl, rfl, rfl, .inl rfl, .inl rfl⟩

theorem writeStdout_streams (h : writeStdout inp more x = some y) :
    y.sent = x.sent ∧ y.to_ = x.to_ ∧ y.stdineof = x.stdineof ∧ y.received = x.received ∧
      (y.at_ = x.at_ ∨ y.at_ = .failed) := by
  simp only [writeStdout] at h
  split at h
  · split at h
    · obtain rfl := Option.some.inj h
      exact ⟨rfl, rfl, rfl, rfl, .inl rfl⟩
    · obtain rfl := Option.some.inj h
      exact ⟨rfl, rfl, rfl, rfl, .inr rfl⟩
    · obtain ⟨fr, _, rfl⟩ := Option.map_eq_some_iff.mp h
      exact ⟨rfl, rfl, rfl, rfl, .inl rfl⟩
  · obtain rfl := Option.some.inj h
    exact ⟨rfl, rfl, rfl, rfl, .inl rfl⟩

theorem writeSock_streams (h : writeSock inp more x = some y) :
    (∃ bytes, y.sent = x.sent ++ bytes) ∧ y.stdineof = x.stdineof ∧
      y.received = x.received ∧ (y.at_ = x.at_ ∨ y.at_ = .failed) ∧
      (x.to_.pending = [] → y = x) := by
  simp only [writeSock] at h
  split at h
  · next hguard =>
    have hsome : x.to_.pending ≠ [] := by
      rw [ne_eq, LinearBuffer.pending_eq_nil_iff]
      omega
    split at h
    · obtain rfl := Option.some.inj h
      exact ⟨⟨[], by simp⟩, rfl, rfl, .inl rfl, fun _ => rfl⟩
    · obtain rfl := Option.some.inj h
      exact ⟨⟨[], by simp⟩, rfl, rfl, .inr rfl, fun hnil => absurd hnil hsome⟩
    · next n _ =>
      obtain ⟨buf, _, rfl⟩ := Option.map_eq_some_iff.mp h
      by_cases hlast : buf.optr = buf.iptr ∧ x.stdineof
      · simp [shutdownIf, hlast, hsome]
      · simp [shutdownIf, hlast, hsome]
  · obtain rfl := Option.some.inj h
    exact ⟨⟨[], by simp⟩, rfl, rfl, .inl rfl, fun _ => rfl⟩

/-- What an iteration does to the streams, and how it ends. -/
structure Moved (inp : Input) (x y : State) : Prop where
  sent : ∃ bytes, y.sent = x.sent ++ bytes
  received : y.received = x.received ∨
    ∃ bytes, bytes ≠ [] ∧ inp.sock = .data bytes ∧ y.received = x.received ++ bytes
  /-- Behind the FIN, nothing is sent. -/
  quiet : x.stdineof → x.to_.pending = [] →
    y.sent = x.sent ∧ y.stdineof ∧ y.to_.pending = []
  ended : y.at_ = .head ∨ y.at_ = .failed ∨
    inp.sock = .data [] ∧ (y.at_ = .returned ∨ y.at_ = .quit)
  quit : y.at_ = .quit → x.stdineof = false

theorem next_moved (h : next x inp = some y) : x.at_ = .head ∧ Moved inp x y := by
  simp only [next] at h
  split at h
  · next hguard =>
    simp only [Option.bind_eq_bind, Option.bind_eq_some_iff, Prod.exists] at h
    obtain ⟨z, sockOut, hstdin, w, stdout, hsock, v, hstdout, hlast⟩ := h
    obtain ⟨hzsent, hzreceived, hzat, hzquiet⟩ := readStdin_streams hstdin
    obtain ⟨hwsent, hwto, hweof, hwreceived, hwat⟩ := readSock_streams hsock
    obtain ⟨hvsent, hvto, hveof, hvreceived, hvat⟩ := writeStdout_streams hstdout
    obtain ⟨⟨bytes, hysent⟩, hyeof, hyreceived, hyat, hyquiet⟩ := writeSock_streams hlast
    -- where the input has ended, it is not asked about
    have hstopped : x.stdineof = true → z = x := by
      intro heof
      refine (hzquiet ?_).1
      by_contra hready
      have hwatch := hguard.2.1 (by simpa using hready)
      simp [watch, heof] at hwatch
    refine ⟨hguard.1, ⟨bytes, ?_⟩, ?_, ?_, ?_, ?_⟩
    · rw [hysent, hvsent, hwsent, hzsent]
    · rw [hyreceived, hvreceived, ← hzreceived]
      exact hwreceived
    · intro heof hnil
      obtain rfl := hstopped heof
      have hvnil : v.to_.pending = [] := by rw [hvto, hwto, hnil]
      obtain rfl := hyquiet hvnil
      exact ⟨by rw [hvsent, hwsent], by rw [hveof, hweof, heof], hvnil⟩
    · grind
    · intro hquit
      by_contra heof
      have heof' : x.stdineof = true := by simpa using heof
      obtain rfl := hstopped heof'
      grind
  · cases h

/-! ## Runs -/

/-- **Nothing is lost in the loop.** What was written to the socket is what was read from the
standard input, but for what `to` still holds; what was printed is what was read from the socket,
but for what `fr` still holds. `shutdown` was called once where the input has ended and all of it
is written, and not before; the client returns only after the end of its input. -/
theorem conserves (tr : List (State × Input)) (x : State) (h : system.Exec tr x) :
    x.sent ++ x.to_.pending = x.typed ∧ x.printed ++ x.fr.pending = x.received ∧
      x.shutdowns = (if x.stdineof ∧ x.to_.pending = [] then 1 else 0) ∧
      (x.at_ = .returned → x.stdineof = true) := by
  have hx : Kept x := h.invariant Kept (fun _ _ => True) (fun x (hx : Starts x) => hx.kept)
    (fun _ _ _ _ hx hstep => hx.next hstep) fun _ _ => trivial
  exact ⟨hx.up, hx.down, hx.fin, hx.returned⟩

/-- A client at its start, with zeroed memory. -/
def atStart : State :=
  ⟨.empty (.fillWith maxLine 0), .empty (.fillWith maxLine 0), false, .head, [], [], [], [], 0⟩

/-- The input is sent and ends; a text comes back, while the standard output blocks, and after it
the end of the socket. -/
theorem lost_run :
    ∃ tr x, system.Exec tr x ∧ (x.at_ = .returned ∧ x.received = ascii "hi" ∧ x.printed = []) := by
  have hrun : (System.replay next atStart
      [⟨⟨true, false, false, false⟩, .data (ascii "a"), .wouldBlock, .wouldBlock, .wrote 1⟩,
        ⟨⟨true, true, false, false⟩, .data [], .data (ascii "hi"), .wouldBlock, .wouldBlock⟩,
        ⟨⟨false, true, false, false⟩, .wouldBlock, .data [], .wouldBlock, .wouldBlock⟩]).map
          (fun p => (p.2.at_, p.2.received, p.2.printed)) =
        some (.returned, ascii "hi", []) := by decide +kernel
  have hinit : system.init atStart :=
    ⟨⟨_, rfl⟩, ⟨_, rfl⟩, rfl, rfl, rfl, rfl, rfl, rfl, rfl⟩
  obtain ⟨tr, x, hexec, hx⟩ := System.exec_of_replay hinit hrun
  simp only [Prod.mk.injEq] at hx
  exact ⟨tr, x, hexec, hx⟩

/-- The client returns with the text in its buffer. -/
theorem conserves_lost :
    ∃ tr x, system.Exec tr x ∧ x.at_ = .returned ∧ x.printed = [] ∧
      x.fr.pending = ascii "hi" := by
  obtain ⟨tr, x, hexec, hat, hreceived, hprinted⟩ := lost_run
  have hdown := (conserves tr x hexec).2.1
  rw [hprinted, hreceived, List.nil_append] at hdown
  exact ⟨tr, x, hexec, hat, hprinted, hdown⟩

end SocketPrograms.Unp.StrCliNonb
