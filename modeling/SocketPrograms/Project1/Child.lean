import SocketPrograms.Project1.Retrieval

/-!
# The streams and replies of a child

The child of `ServerM.c` opens a stream in each pass of its loop and closes one behind it. The
pass in which `recv` returns no byte is executed to its end: it opens the empty name, sends a
buffer, and leaves `NULL` for `fclose`. The limit of open streams is left out.

## Main definitions

* `Child` — the child and its history; `pass`, `next` — the loop.
* `Kept` — what every run keeps.

## Main results

* `never_accounts` — no finished run closes the streams that it opened, or sends one reply per
  request; and there is no bound on the open streams.
-/

namespace SocketPrograms.Project1.Child

open ServerM

/-- What `recv` returns: the bytes, none of them where the peer closed the connection; or -1. -/
abbrev Recv := Option (List Byte)

/-- The bytes received. -/
def Recv.bytes (result : Recv) : List Byte := result.getD []

/-- The value returned. -/
def Recv.value : Recv → ℤ
  | none => -1
  | some bytes => bytes.length

/-- Where the child stands. -/
inductive At
  /-- At the head of its loop. -/
  | head
  /-- Behind `fclose`. -/
  | left
  /-- After a pass that C leaves undefined. -/
  | undefined
  deriving DecidableEq

/-- A child on its connection. A `FILE *` is the number of its stream, `none` where it is
`NULL`. -/
structure State where
  server : Server
  recvVal : ℤ
  fp : Option ℕ
  at_ : At
  /-- The streams that `fopen` returned, the arguments of `fclose`, the buffers sent, and the
  results of `recv` (history). -/
  opened : List ℕ
  closed : List (Option ℕ)
  sent : List (List Byte)
  received : List Recv

/-- What the system does in a step: the result of `recv`, the stream that `fopen` returns for a
file that exists, and what the overrun of `memset` leaves. -/
inductive Label
  | pass (result : Recv) (stream : ℕ) (overrun : Overrun)
  | leave

/-- `fopen(recvline, "r")`. -/
def fopen (files : Files) (stream : ℕ) (name : List Byte) : Option ℕ :=
  (files name).map fun _ => stream

/-- The body of the loop. -/
def pass (files : Files) (result : Recv) (stream : ℕ) (overrun : Overrun) (x : State) :
    Option State := do
  let server ← take x.server (Recv.bytes result)
  let name ← server.recvline.text
  let (server, bytes) ← work files overrun server
  let fp := fopen files stream name
  return { x with
    server, recvVal := Recv.value result, fp, opened := x.opened ++ fp.toList
    sent := x.sent ++ [bytes], received := x.received ++ [result] }

/-- `while (recvVal > 0) { ... } fclose(fp);`. `recv` is given 1024 bytes, and a new stream is
not one that was opened before. -/
def next (files : Files) (x : State) : Label → Option State
  | .pass result stream overrun =>
      if x.at_ = .head ∧ 0 < x.recvVal ∧ (Recv.bytes result).length ≤ 1024 ∧ stream ∉ x.opened then
        match pass files result stream overrun x with
        | none => some { x with at_ := .undefined }
        | some x => some x
      else none
  | .leave =>
      if x.at_ = .head ∧ x.recvVal ≤ 0 then
        some { x with closed := x.closed ++ [x.fp], at_ := .left }
      else none

/-- A child at its start: `int recvVal = 5`, and any memory. -/
structure Starts (x : State) : Prop where
  recvVal_eq : x.recvVal = 5
  at_eq : x.at_ = .head
  opened_eq : x.opened = []
  closed_eq : x.closed = []
  sent_eq : x.sent = []
  received_eq : x.received = []

def system (files : Files) : System State Label := .ofNext Starts (next files)

/-- The number of `recv` calls that returned a positive count. -/
def requests (x : State) : ℕ := x.received.countP fun r => 0 < Recv.value r

/-- `fclose` was called once on each stream that `fopen` returned, and never on `NULL`. -/
def ClosesEach (x : State) : Prop :=
  (∀ stream ∈ x.opened, x.closed.count (some stream) = 1) ∧ none ∉ x.closed

/-- One reply was sent for each request. -/
def RepliesOnce (x : State) : Prop := x.sent.length = requests x

/-- The streams that are open. -/
def openStreams (x : State) : List ℕ := x.opened.filter fun stream => some stream ∉ x.closed

variable {files : Files} {x y : State}

/-! ## Any run -/

theorem pass_eq_some {result : Recv} {stream : ℕ} {overrun : Overrun}
    (h : pass files result stream overrun x = some y) :
    y.recvVal = Recv.value result ∧ y.at_ = x.at_ ∧ y.closed = x.closed ∧
      y.received = x.received ++ [result] ∧ y.sent.length = x.sent.length + 1 ∧
      ∃ server name, take x.server (Recv.bytes result) = some server ∧
        server.recvline.text = some name ∧ y.fp = fopen files stream name ∧
        y.opened = x.opened ++ y.fp.toList := by
  simp only [pass, Option.bind_eq_bind, Option.bind_eq_some_iff] at h
  obtain ⟨server, htake, name, htext, p, _, h⟩ := h
  rw [← Option.some.inj h]
  exact ⟨rfl, rfl, rfl, rfl, by simp, server, name, htake, htext, rfl, rfl⟩

theorem next_of_pass {result : Recv} {stream : ℕ} {overrun : Overrun} (hat : x.at_ = .head)
    (hvalue : 0 < x.recvVal) (hlen : (Recv.bytes result).length ≤ 1024) (hnew : stream ∉ x.opened)
    (h : pass files result stream overrun x = some y) :
    next files x (.pass result stream overrun) = some y := by
  simp only [next]
  rw [if_pos ⟨hat, hvalue, hlen, hnew⟩, h]

/-- A pass in which `recv` returned no byte opens the empty name. -/
theorem fp_of_no_bytes (hempty : files [] = none) {result : Recv} {stream : ℕ}
    {overrun : Overrun} (h : pass files result stream overrun x = some y)
    (hvalue : Recv.value result ≤ 0) : y.fp = none := by
  obtain ⟨_, _, _, _, _, server, name, htake, htext, hfp, _⟩ := pass_eq_some h
  have hbytes : Recv.bytes result = [] := by
    cases result with
    | none => rfl
    | some bytes =>
        have hlen : bytes.length = 0 := by
          simp only [Recv.value] at hvalue
          omega
        exact List.length_eq_zero_iff.mp hlen
  obtain rfl : { x.server with
      recvline := (x.server.recvline.memset 1024).store (Recv.bytes result) } = server :=
    Option.some.inj htake
  have hname : some (cstr []) = some name := by
    have hterm : CharArray.Terminates 1024 [] := .inl (Nat.zero_lt_succ 1023)
    rw [← htext, hbytes]
    exact (x.server.recvline.text_store_memset hterm).symm
  rw [hfp, ← Option.some.inj hname, cstr_nil, fopen, hempty]
  rfl

/-- What every run keeps: nothing is closed in the loop, and each pass sends one reply, the last
one too. -/
structure Kept (x : State) : Prop where
  closed : x.at_ ≠ .left → x.closed = []
  running : x.at_ = .head → 0 < x.recvVal → x.sent.length = requests x
  ended : x.at_ = .head → x.recvVal ≤ 0 → x.fp = none ∧ x.sent.length = requests x + 1
  left : x.at_ = .left → x.closed = [none] ∧ x.sent.length = requests x + 1

theorem Kept.pass (H : Kept x) (hempty : files [] = none) (hat : x.at_ = .head)
    (hvalue : 0 < x.recvVal) {result : Recv} {stream : ℕ} {overrun : Overrun}
    (h : pass files result stream overrun x = some y) : Kept y := by
  obtain ⟨hrecv, hat', hclosed, hreceived, hsent, _⟩ := pass_eq_some h
  have hpast := H.running hat hvalue
  have hrequests : requests y = requests x + if 0 < Recv.value result then 1 else 0 := by
    simp [requests, hreceived, List.countP_append, List.countP_singleton]
  refine ⟨?_, ?_, ?_, ?_⟩
  · intro _
    rw [hclosed]
    exact H.closed (by simp [hat])
  · intro _ hpos
    rw [hrecv] at hpos
    rw [hsent, hrequests, if_pos hpos, hpast]
  · intro _ hend
    rw [hrecv] at hend
    rw [hsent, hrequests, if_neg (by omega), hpast]
    exact ⟨fp_of_no_bytes hempty h hend, rfl⟩
  · intro hleft
    rw [hat', hat] at hleft
    cases hleft

theorem Kept.next (H : Kept x) (hempty : files [] = none) {a : Label}
    (h : next files x a = some y) : Kept y := by
  cases a with
  | pass result stream overrun =>
      simp only [Child.next] at h
      split at h
      · next hguard =>
        cases hpass : Child.pass files result stream overrun x with
        | none =>
            rw [hpass] at h
            obtain rfl := Option.some.inj h
            exact ⟨fun _ => H.closed (by simp [hguard.1]), by simp, by simp, by simp⟩
        | some z =>
            rw [hpass] at h
            obtain rfl := Option.some.inj h
            exact H.pass hempty hguard.1 hguard.2.1 hpass
      · cases h
  | leave =>
      simp only [Child.next] at h
      split at h
      · next hguard =>
        obtain rfl := Option.some.inj h
        obtain ⟨hfp, hsent⟩ := H.ended hguard.1 hguard.2
        have hclosed : x.closed = [] := H.closed (by simp [hguard.1])
        exact ⟨by simp, by simp, by simp, fun _ => ⟨by simp [hclosed, hfp], hsent⟩⟩
      · cases h

theorem kept (hempty : files [] = none) {tr : List (State × Label)}
    (h : (system files).Exec tr x) : Kept x := by
  refine h.invariant Kept (fun _ _ => True) ?_ ?_ (fun _ _ => trivial)
  · intro s hs
    refine ⟨fun _ => hs.closed_eq, fun _ _ => ?_, fun _ hvalue => ?_, fun hleft => ?_⟩
    · rw [hs.sent_eq, requests, hs.received_eq]
      rfl
    · rw [hs.recvVal_eq] at hvalue
      exact absurd hvalue (by decide)
    · rw [hs.at_eq] at hleft
      cases hleft
  · intro s a t _ H hstep
    exact H.next hempty hstep

/-- Every stream that was opened is open at the head of the loop. -/
theorem openStreams_eq (H : Kept x) (hat : x.at_ = .head) : openStreams x = x.opened := by
  rw [openStreams, H.closed (by simp [hat])]
  simp

/-! ## The same file, again and again -/

/-- The child after `n` requests for a file that exists. -/
structure After (n : ℕ) (x : State) : Prop where
  at_eq : x.at_ = .head
  recvVal_pos : 0 < x.recvVal
  sendline : x.server.sendline.bytes = padded 1024 []
  opened : x.opened = List.range n

/-- One more request opens one more stream. -/
theorem After.pass (hfiles : Fits files) {bytes contents : List Byte} (hne : bytes ≠ [])
    (hlen : bytes.length ≤ 1024) (hterm : CharArray.Terminates 1024 bytes)
    (hname : files (cstr bytes) = some contents) {n : ℕ} (H : After n x) (overrun : Overrun) :
    ∃ y, next files x (.pass (some bytes) n overrun) = some y ∧ After (n + 1) y := by
  have htext : ((x.server.recvline.memset 1024).store bytes).text = some (cstr bytes) :=
    x.server.recvline.text_store_memset hterm
  obtain ⟨s, hwork, hclear, _⟩ := work_spec hfiles overrun
    (s := { x.server with recvline := (x.server.recvline.memset 1024).store bytes }) H.sendline
    htext
  have hpass : Child.pass files (some bytes) n overrun x = some { x with
      server := s, recvVal := bytes.length, fp := some n
      opened := x.opened ++ [n], sent := x.sent ++ [padded 1024 (page files (cstr bytes))]
      received := x.received ++ [some bytes] } := by
    simp only [Child.pass, take, Recv.bytes, Option.getD_some, Option.bind_eq_bind,
      Option.bind_some, htext, hwork, fopen, hname]
    rfl
  have hfresh : n ∉ x.opened := by
    rw [H.opened]
    simp
  refine ⟨_, next_of_pass H.at_eq H.recvVal_pos hlen hfresh hpass, H.at_eq, ?_, hclear, ?_⟩
  · have hpos := List.length_pos_of_ne_nil hne
    simpa using hpos
  · rw [H.opened, List.range_succ]

/-- Any number of requests, and nothing closed. -/
theorem After.run (hfiles : Fits files) {bytes contents : List Byte} (hne : bytes ≠ [])
    (hlen : bytes.length ≤ 1024) (hterm : CharArray.Terminates 1024 bytes)
    (hname : files (cstr bytes) = some contents) (overrun : Overrun) (hstart : Starts x)
    (hsend : x.server.sendline.bytes = padded 1024 []) (n : ℕ) :
    ∃ tr y, (system files).Exec tr y ∧ After n y := by
  induction n with
  | zero =>
      have hpos : 0 < x.recvVal := by
        rw [hstart.recvVal_eq]
        decide
      exact ⟨[], x, .start hstart, hstart.at_eq, hpos, hsend, hstart.opened_eq⟩
  | succ n ih =>
      obtain ⟨tr, y, h, H⟩ := ih
      obtain ⟨z, hstep, H'⟩ := H.pass hfiles hne hlen hterm hname overrun
      exact ⟨_, z, .snoc h hstep, H'⟩

/-- A child with zeroed memory. -/
def zeroed : State :=
  ⟨⟨.fillWith 1024 0, .fillWith 1024 0, .fillWith 1024 0, []⟩, 5, none, .head, [], [], [], []⟩

theorem zeroed_starts : Starts zeroed := ⟨rfl, rfl, rfl, rfl, rfl, rfl⟩

/-- **No child that leaves its loop has closed its streams, or sent one reply per request**: it
called `fclose` once, on `NULL`, and it sent one buffer too many, whatever it was asked and in
whichever of the two ways the connection ended. Nor is there a bound on the streams that are
open at the head of the loop, where some name that can be received is that of a file. -/
theorem never_accounts (files : Files) (hempty : files [] = none) :
    (∀ (tr : List (State × Label)) (x : State), (system files).Exec tr x → x.at_ = .left →
      ¬ ClosesEach x ∧ ¬ RepliesOnce x) ∧
    ∀ bytes contents : List Byte, Fits files → bytes.length ≤ 1024 →
      CharArray.Terminates 1024 bytes → files (cstr bytes) = some contents →
      ¬ ∃ bound, ∀ (tr : List (State × Label)) (x : State), (system files).Exec tr x →
        ∀ y ∈ System.visited tr x, y.at_ = .head → (openStreams y).length ≤ bound := by
  constructor
  · intro tr x h hat
    obtain ⟨hclosed, hsent⟩ := (kept hempty h).left hat
    constructor
    · intro hcloses
      apply hcloses.2
      rw [hclosed]
      exact List.mem_singleton_self none
    · intro hreplies
      rw [RepliesOnce, hsent] at hreplies
      omega
  · rintro bytes contents hfiles hlen hterm hname ⟨bound, hbound⟩
    have hne : bytes ≠ [] := by
      intro hnil
      rw [hnil] at hname
      cases hempty.symm.trans hname
    obtain ⟨tr, x, h, H⟩ := After.run hfiles hne hlen hterm hname Retrieval.garbage zeroed_starts
      rfl (bound + 1)
    have hle := hbound tr x h x (by simp) H.at_eq
    rw [openStreams_eq (kept hempty h) H.at_eq, H.opened, List.length_range] at hle
    omega

/-- One request for a file that exists, and an orderly close. -/
def oneRequest : List Label :=
  [.pass (some (ascii "a" ++ [0])) 4 Retrieval.garbage, .pass (some []) 5 Retrieval.garbage, .leave]

theorem oneRequest_run :
    ∃ tr x, (system Retrieval.twoFiles).Exec tr x ∧ x.at_ = .left ∧ x.opened = [4] ∧
      x.closed = [none] := by
  have hrun : (System.replay (next Retrieval.twoFiles) zeroed oneRequest).map
      (fun p => (p.2.at_, p.2.opened, p.2.closed)) = some (.left, [4], [none]) := by
    decide +kernel
  obtain ⟨tr, x, hexec, hx⟩ := System.exec_of_replay zeroed_starts hrun
  obtain ⟨hat, hlists⟩ := Prod.mk.inj hx
  obtain ⟨hopened, hclosed⟩ := Prod.mk.inj hlists
  exact ⟨tr, x, hexec, hat, hopened, hclosed⟩

/-- A child that served one request, and one that is asked for the same file forever. -/
theorem never_accounts_one :
    (∃ tr x, (system Retrieval.twoFiles).Exec tr x ∧ x.at_ = .left ∧ ¬ ClosesEach x ∧
      ¬ RepliesOnce x) ∧
    ¬ ∃ bound, ∀ (tr : List (State × Label)) (x : State),
      (system Retrieval.twoFiles).Exec tr x →
        ∀ y ∈ System.visited tr x, y.at_ = .head → (openStreams y).length ≤ bound := by
  obtain ⟨hfinished, hbound⟩ := never_accounts Retrieval.twoFiles (by decide)
  constructor
  · obtain ⟨tr, x, hexec, hat, _, _⟩ := oneRequest_run
    exact ⟨tr, x, hexec, hat, hfinished tr x hexec hat⟩
  · exact hbound (ascii "a" ++ [0]) (ascii "A\n") Retrieval.twoFiles_fits (by decide) (by decide)
      (by decide)

/-- After one request and a close, the stream of the request is open and `fclose` was given
`NULL`. -/
theorem null_is_closed :
    ¬ ∀ files : Files, files [] = none →
      ∀ (tr : List (State × Label)) (x : State), (system files).Exec tr x → x.at_ = .left →
        ClosesEach x ∧ RepliesOnce x := by
  intro haccounts
  obtain ⟨tr, x, hexec, hat, _, hclosed⟩ := oneRequest_run
  obtain ⟨hcloses, _⟩ := haccounts Retrieval.twoFiles (by decide) tr x hexec hat
  apply hcloses.2
  rw [hclosed]
  exact List.mem_singleton_self none

end SocketPrograms.Project1.Child
