import SocketPrograms.Lib.Stdio
import SocketPrograms.Lib.Transition
import Mathlib.Algebra.Group.Nat.Defs

/-!
# A datagram client that retransmits

`dg_send_recv` gives each request the next sequence number, sends it again after each timeout, and
waits for a reply with its number; after three retransmissions it gives up, and the client ends.
`dg_cli` does this for each line of its input. The server, `dg_echo`, sends each datagram back.

The network may lose, delay, reorder and duplicate datagrams: one that was sent may arrive at any
time after, any number of times or never. The timer may expire at any time, also while a reply is
on its way. Left out are the timestamps, which only decide how long the timer runs, and a timer that
expires before `sigsetjmp`.

## Main definitions

* `State`, `next`, `system` — the client, the server, and all that was sent.
* `dgEcho` — what the server sends back: it receives no more than `MAXLINE` bytes.

## Main results

* `own_reply` — **what is printed for a request is its echo**, up to a request whose number differs
  by a multiple of 2^32.
* `transmissions` — each request is sent one to four times, one request after the other.
-/

namespace SocketPrograms.Unp.DgSendRecv

/-- `MAXLINE`. -/
abbrev maxLine : ℕ := 4096

/-- `sizeof(struct hdr)`. -/
abbrev hdrSize : ℕ := 8

/-- `RTT_MAXNREXMT`. -/
abbrev maxNrexmt : ℕ := 3

/-- A datagram: the sequence number in its header, and the bytes behind the header. -/
structure Msg where
  seq : UInt32
  data : List Byte
  deriving DecidableEq

/-- Where the client stands. -/
inductive ClientAt
  /-- In front of its `fgets`. -/
  | head
  /-- In `recvmsg`, with the timer running. -/
  | waiting
  /-- Behind `dg_cli`. -/
  | left
  /-- Behind `err_quit("dg_send_recv error")`. -/
  | quit
  deriving DecidableEq

/-- The client, and what both sides have sent. -/
structure State where
  /-- What `fgets` has not read. -/
  stdin : List Byte
  clientAt : ClientAt
  /-- `sendhdr.seq`. -/
  seq : UInt32
  /-- `rtt_nrexmt`. -/
  nrexmt : ℕ
  outbuff : List Byte
  /-- What the client has sent, in order. -/
  up : List Msg
  /-- What the server has sent. -/
  down : List Msg
  /-- What `fputs` has printed, text by text (history). -/
  printed : List (List Byte)

/-- The steps: datagram `i` of those sent arrives at the server, or at the client. -/
inductive Label
  | ask
  | timeout
  | serve (i : ℕ)
  | recv (i : ℕ)

/-- `sendmsg(fd, &msgsend, 0)`. -/
def sendmsg (x : State) : State := { x with up := x.up ++ [⟨x.seq, x.outbuff⟩] }

/-- A new request: `fgets`, and `dg_send_recv` up to the first `sendmsg`. -/
def pose (x : State) : State :=
  let (sendline, stdin) := lineCut (maxLine - 1) x.stdin
  sendmsg { x with
    stdin, seq := x.seq + 1, nrexmt := 0, outbuff := cstr sendline, clientAt := .waiting }

/-- `recvfrom` into `MAXLINE` bytes, and `sendto`. -/
def dgEcho (m : Msg) : Msg := { m with data := m.data.take (maxLine - hdrSize) }

/-- One step. -/
def next (x : State) : Label → Option State
  | .ask =>
      if x.clientAt = .head then
        if x.stdin = [] then some { x with clientAt := .left } else some (pose x)
      else none
  | .timeout =>
      if x.clientAt = .waiting then
        if maxNrexmt < x.nrexmt + 1 then
          some { x with nrexmt := x.nrexmt + 1, clientAt := .quit }
        else some (sendmsg { x with nrexmt := x.nrexmt + 1 })
      else none
  | .serve i => x.up[i]?.map fun m => { x with down := x.down ++ [dgEcho m] }
  | .recv i =>
      if x.clientAt = .waiting then
        x.down[i]?.map fun m =>
          if m.seq = x.seq then
            { x with clientAt := .head, printed := x.printed ++ [cstr m.data] }
          else x
      else none

/-- A client at its start, with this input. -/
structure Starts (typed : List Byte) (x : State) : Prop where
  stdin_eq : x.stdin = typed
  client_eq : x.clientAt = .head
  seq_eq : x.seq = 0
  up_eq : x.up = []
  down_eq : x.down = []
  printed_eq : x.printed = []

/-- The client, the server and the network, with this input. -/
def system (typed : List Byte) : System State Label := .ofNext (Starts typed) next

/-- What `fgets` takes of the input. -/
abbrev cut : List Byte → List Byte × List Byte := lineCut (maxLine - 1)

/-- The text of request `k`, counted from 0. -/
def request (typed : List Byte) (k : ℕ) : List Byte := cstr (pieceAt cut k typed)

/-- The datagram of request `k`. -/
def msgOf (typed : List Byte) (k : ℕ) : Msg := ⟨.ofNat (k + 1), request typed k⟩

/-- What a request is echoed as. -/
def echoed (typed : List Byte) (k : ℕ) : List Byte :=
  (request typed k).take (maxLine - hdrSize)

/-- The number of requests that were sent. -/
def asked (x : State) : ℕ :=
  x.printed.length + if x.clientAt = .waiting ∨ x.clientAt = .quit then 1 else 0

variable {typed : List Byte} {x y : State} {i : ℕ}

theorem asked_waiting (h : x.clientAt = .waiting) : asked x = x.printed.length + 1 := by
  simp [asked, h]

theorem cstr_echoed (typed : List Byte) (k : ℕ) : cstr (echoed typed k) = echoed typed k :=
  cstr_of_nulFree ((nulFree_cstr _).sublist (List.take_sublist _ _))

/-- Two requests have one number where they differ by a multiple of 2^32. -/
theorem seq_eq_iff {j k : ℕ} : (msgOf typed j).seq = .ofNat (k + 1) ↔ j % 2 ^ 32 = k % 2 ^ 32 := by
  rw [msgOf, ← UInt32.toNat_inj, UInt32.toNat_ofNat', UInt32.toNat_ofNat']
  omega

/-- What every run keeps. -/
structure Kept (typed : List Byte) (x : State) : Prop where
  stdin : x.stdin = unread cut (asked x) typed
  seq : x.seq = .ofNat (asked x)
  outbuff : x.clientAt = .waiting → x.outbuff = request typed x.printed.length
  up : ∀ m ∈ x.up, ∃ j < asked x, m = msgOf typed j
  down : ∀ m ∈ x.down, ∃ j < asked x, m = dgEcho (msgOf typed j)
  printed : ∀ (k : ℕ) (t : List Byte), x.printed[k]? = some t →
    ∃ j ≤ k, j % 2 ^ 32 = k % 2 ^ 32 ∧ t = echoed typed j

theorem Starts.kept (hx : Starts typed x) : Kept typed x := by
  obtain ⟨hstdin, hclient, hseq, hup, hdown, hprinted⟩ := hx
  have hasked : asked x = 0 := by simp [asked, hprinted, hclient]
  refine ⟨by rw [hasked, hstdin]; rfl, by rw [hasked, hseq]; rfl, ?_, ?_, ?_, ?_⟩
  · simp [hclient]
  · simp [hup]
  · simp [hdown]
  · simp [hprinted]

/-- A step of the client that asks for nothing new. -/
theorem Kept.of_asked (hx : Kept typed x) (hasked : asked y = asked x) (hstdin : y.stdin = x.stdin)
    (hseq : y.seq = x.seq) (hdown : y.down = x.down)
    (hup : ∀ m ∈ y.up, ∃ j < asked y, m = msgOf typed j)
    (houtbuff : y.clientAt = .waiting → y.outbuff = request typed y.printed.length)
    (hprinted : ∀ (k : ℕ) (t : List Byte), y.printed[k]? = some t →
      ∃ j ≤ k, j % 2 ^ 32 = k % 2 ^ 32 ∧ t = echoed typed j) : Kept typed y := by
  refine ⟨?_, ?_, houtbuff, hup, ?_, hprinted⟩
  · rw [hstdin, hasked, hx.stdin]
  · rw [hseq, hasked, hx.seq]
  · rw [hdown, hasked]
    exact hx.down

theorem Kept.ask (hx : Kept typed x) (h : next x .ask = some y) : Kept typed y := by
  simp only [next] at h
  split at h
  · next hat =>
    have hasked : asked x = x.printed.length := by simp [asked, hat]
    split at h
    · obtain rfl := Option.some.inj h
      refine hx.of_asked (by simp [asked, hat]) rfl rfl rfl ?_ (by simp) hx.printed
      rw [show asked { x with clientAt := .left } = asked x by simp [asked, hat]]
      exact hx.up
    · obtain rfl := Option.some.inj h
      have hasked' : asked (pose x) = asked x + 1 := by
        rw [hasked]
        exact asked_waiting rfl
      have hrequest : (pose x).outbuff = request typed x.printed.length := by
        rw [← hasked, request, pieceAt, ← hx.stdin]
        rfl
      have hseq : (pose x).seq = .ofNat (asked x + 1) := by
        rw [UInt32.ofNat_add, ← hx.seq]
        rfl
      refine ⟨?_, by rw [hseq, hasked'], fun _ => hrequest, ?_, ?_, hx.printed⟩
      · rw [hasked', unread_succ, ← hx.stdin]
        rfl
      · rw [hasked']
        intro m hm
        rcases List.mem_append.mp hm with hm | hm
        · obtain ⟨j, hj, rfl⟩ := hx.up m hm
          exact ⟨j, by omega, rfl⟩
        · refine ⟨x.printed.length, by omega, ?_⟩
          rw [List.mem_singleton.mp hm, msgOf, ← hrequest, ← hasked, ← hseq]
          rfl
      · rw [hasked']
        intro m hm
        obtain ⟨j, hj, rfl⟩ := hx.down m hm
        exact ⟨j, by omega, rfl⟩
  · cases h

theorem Kept.timeout (hx : Kept typed x) (h : next x .timeout = some y) : Kept typed y := by
  simp only [next] at h
  split at h
  · next hat =>
    have hasked := asked_waiting hat
    split at h
    · obtain rfl := Option.some.inj h
      refine hx.of_asked (by simp [asked, hat]) rfl rfl rfl ?_ (by simp) hx.printed
      rw [show asked { x with nrexmt := x.nrexmt + 1, clientAt := .quit } = asked x by
        simp [asked, hat]]
      exact hx.up
    · obtain rfl := Option.some.inj h
      refine hx.of_asked rfl rfl rfl rfl ?_ hx.outbuff hx.printed
      intro m hm
      rcases List.mem_append.mp hm with hm | hm
      · exact hx.up m hm
      · refine ⟨x.printed.length, ?_, ?_⟩
        · change x.printed.length < asked x
          omega
        · rw [List.mem_singleton.mp hm, msgOf]
          change (⟨x.seq, x.outbuff⟩ : Msg) = _
          rw [hx.seq, hx.outbuff hat, hasked]
  · cases h

theorem Kept.serve (hx : Kept typed x) (h : next x (.serve i) = some y) : Kept typed y := by
  obtain ⟨m, hm, rfl⟩ := Option.map_eq_some_iff.mp h
  refine ⟨hx.stdin, hx.seq, hx.outbuff, hx.up, ?_, hx.printed⟩
  intro m' hm'
  rcases List.mem_append.mp hm' with hm' | hm'
  · exact hx.down m' hm'
  · obtain ⟨j, hj, hmsg⟩ := hx.up m (List.mem_of_getElem? hm)
    exact ⟨j, hj, by rw [List.mem_singleton.mp hm', hmsg]⟩

/-- **A reply is taken** where its number is that of the request, and is the echo of a request with
this number. -/
theorem Kept.recv (hx : Kept typed x) (h : next x (.recv i) = some y) : Kept typed y := by
  simp only [next] at h
  split at h
  · next hat =>
    obtain ⟨m, hm, rfl⟩ := Option.map_eq_some_iff.mp h
    split
    · next hseq =>
      have hasked := asked_waiting hat
      obtain ⟨j, hj, rfl⟩ := hx.down m (List.mem_of_getElem? hm)
      rw [hx.seq, hasked] at hseq
      have hmod := seq_eq_iff.mp (show (msgOf typed j).seq = _ from hseq)
      have hstays : asked { x with
          clientAt := .head, printed := x.printed ++ [cstr (dgEcho (msgOf typed j)).data] } =
            asked x := by
        rw [hasked]
        simp [asked]
      refine hx.of_asked hstays rfl rfl rfl ?_ (by simp) ?_
      · rw [hstays]
        exact hx.up
      · intro k t ht
        rcases Nat.lt_or_ge k x.printed.length with hlt | hge
        · rw [List.getElem?_append_left hlt] at ht
          exact hx.printed k t ht
        · rw [List.getElem?_append_right hge] at ht
          have hk : k - x.printed.length = 0 := by
            by_contra hne
            rw [List.getElem?_singleton, if_neg hne] at ht
            cases ht
          rw [hk, List.getElem?_cons_zero, Option.some_inj] at ht
          have hlast : k = x.printed.length := by omega
          refine ⟨j, by omega, by rw [hmod, hlast], ?_⟩
          rw [← ht]
          exact cstr_echoed typed j
    · exact hx
  · cases h

theorem Kept.next (hx : Kept typed x) {l : Label} (h : next x l = some y) : Kept typed y := by
  cases l with
  | ask => exact hx.ask h
  | timeout => exact hx.timeout h
  | serve i => exact hx.serve h
  | recv i => exact hx.recv h

theorem kept {tr : List (State × Label)} (h : (system typed).Exec tr x) : Kept typed x :=
  h.invariant (Kept typed) (fun _ _ => True) (fun x (hx : Starts typed x) => hx.kept)
    (fun _ _ _ _ hx hstep => hx.next hstep) fun _ _ => trivial

/-! ## Replies -/

/-- Two lines. -/
def twoLines : List Byte := ascii "a\nb\n"

/-- The first request is sent again and answered twice; the second answer comes late. -/
theorem late_run :
    ∃ tr x, (system twoLines).Exec tr x ∧ x.printed = [ascii "a\n", ascii "b\n"] ∧
      x.up.length = 3 := by
  have hrun : (System.replay next ⟨twoLines, .head, 0, 0, [], [], [], []⟩
      [.ask, .timeout, .serve 0, .serve 1, .recv 1, .ask, .recv 0, .serve 2, .recv 2]).map
        (fun p => (p.2.printed, p.2.up.length)) = some ([ascii "a\n", ascii "b\n"], 3) := by
    decide +kernel
  have hinit : (system twoLines).init ⟨twoLines, .head, 0, 0, [], [], [], []⟩ :=
    ⟨rfl, rfl, rfl, rfl, rfl, rfl⟩
  obtain ⟨tr, x, hexec, hx⟩ := System.exec_of_replay hinit hrun
  exact ⟨tr, x, hexec, (Prod.mk.inj hx).1, (Prod.mk.inj hx).2⟩

/-- **Each printed text is an echo of its request**, whatever the network loses, delays, reorders
and duplicates, and whenever the timer expires: text `k` is the echo of a request `j ≤ k` with the
same sequence number, and so of request `k` itself while fewer than 2^32 were answered. -/
theorem own_reply (typed : List Byte) (tr : List (State × Label)) (x : State)
    (h : (system typed).Exec tr x) :
    (∀ (k : ℕ) (t : List Byte), x.printed[k]? = some t →
      ∃ j ≤ k, j % 2 ^ 32 = k % 2 ^ 32 ∧ t = echoed typed j) ∧
    (x.printed.length ≤ 2 ^ 32 →
      x.printed = (List.range x.printed.length).map (echoed typed)) := by
  have hprinted := (kept h).printed
  refine ⟨hprinted, fun hfew => ?_⟩
  refine List.ext_getElem? fun k => ?_
  rcases Nat.lt_or_ge k x.printed.length with hlt | hge
  · obtain ⟨j, hj, hmod, ht⟩ := hprinted k x.printed[k] (List.getElem?_eq_getElem hlt)
    have hjk : j = k := by
      rw [Nat.mod_eq_of_lt (by omega), Nat.mod_eq_of_lt (by omega)] at hmod
      exact hmod
    rw [List.getElem?_eq_getElem hlt, ht, hjk]
    simp [hlt]
  · rw [List.getElem?_eq_none hge, List.getElem?_eq_none (by simpa using hge)]

theorem own_reply_late :
    ∃ tr x, (system twoLines).Exec tr x ∧ x.printed.length = 2 ∧
      x.printed = [echoed twoLines 0, echoed twoLines 1] := by
  obtain ⟨tr, x, hexec, hprinted, _⟩ := late_run
  have hlen : x.printed.length = 2 := by rw [hprinted]; rfl
  refine ⟨tr, x, hexec, hlen, ?_⟩
  have hechoes := (own_reply twoLines tr x hexec).2 (by rw [hlen]; decide)
  rw [hlen] at hechoes
  exact hechoes

/-! ## Transmissions -/

/-- Request after request was sent, each as often as `copies` says. -/
structure Sent (typed : List Byte) (copies : ℕ → ℕ) (x : State) : Prop where
  bounds : ∀ j < asked x, 1 ≤ copies j ∧ copies j ≤ maxNrexmt + 1
  up : x.up = (List.range (asked x)).flatMap fun j => List.replicate (copies j) (msgOf typed j)
  waiting : x.clientAt = .waiting → copies x.printed.length = x.nrexmt + 1
  quit : x.clientAt = .quit → copies x.printed.length = maxNrexmt + 1

/-- What is sent last is one copy more of the last request. -/
theorem flatMap_range_update (copies : ℕ → ℕ) (n c : ℕ) (m : ℕ → Msg) :
    (List.range (n + 1)).flatMap (fun j => List.replicate (Function.update copies n c j) (m j)) =
      (List.range n).flatMap (fun j => List.replicate (copies j) (m j)) ++
        List.replicate c (m n) := by
  rw [List.range_succ, List.flatMap_append, List.flatMap_singleton, Function.update_self]
  congr 1
  refine List.flatMap_congr fun j hj => ?_
  rw [Function.update_of_ne (Nat.ne_of_lt (List.mem_range.mp hj))]

theorem Sent.ask {copies : ℕ → ℕ} (hkept : Kept typed x) (hx : Sent typed copies x)
    (h : next x .ask = some y) : ∃ copies, Sent typed copies y := by
  simp only [DgSendRecv.next] at h
  split at h
  · next hat =>
    split at h
    · obtain rfl := Option.some.inj h
      have hstays : asked { x with clientAt := .left } = asked x := by simp [asked, hat]
      refine ⟨copies, ?_, ?_, by simp, by simp⟩
      · rw [hstays]
        exact hx.bounds
      · rw [hstays]
        exact hx.up
    · obtain rfl := Option.some.inj h
      have hasked : asked x = x.printed.length := by simp [asked, hat]
      have hasked' : asked (pose x) = asked x + 1 := by
        rw [hasked]
        exact asked_waiting rfl
      have hmsg : (pose x).up = x.up ++ [msgOf typed (asked x)] := by
        have hrequest : cstr (lineCut (maxLine - 1) x.stdin).1 = request typed (asked x) := by
          rw [request, pieceAt, ← hkept.stdin]
        rw [msgOf, ← hrequest, UInt32.ofNat_add, ← hkept.seq]
        rfl
      refine ⟨Function.update copies (asked x) 1, ?_, ?_, fun _ => ?_, by simp [pose, sendmsg]⟩
      · intro j hj
        rw [hasked'] at hj
        by_cases hlast : j = asked x
        · rw [hlast, Function.update_self]
          decide
        · rw [Function.update_of_ne hlast]
          exact hx.bounds j (by omega)
      · rw [hasked', flatMap_range_update, ← hx.up, hmsg]
        rfl
      · change Function.update copies (asked x) 1 x.printed.length = 0 + 1
        rw [hasked, Function.update_self]
  · cases h

theorem Sent.timeout {copies : ℕ → ℕ} (hkept : Kept typed x) (hx : Sent typed copies x)
    (h : next x .timeout = some y) : ∃ copies, Sent typed copies y := by
  simp only [DgSendRecv.next] at h
  split at h
  · next hat =>
    have hasked := asked_waiting hat
    have hcopies := hx.waiting hat
    have hlast := hx.bounds x.printed.length (by omega)
    split at h
    · next hgives =>
      obtain rfl := Option.some.inj h
      have hstays : asked { x with nrexmt := x.nrexmt + 1, clientAt := .quit } = asked x := by
        simp [asked, hat]
      refine ⟨copies, ?_, ?_, by simp, fun _ => ?_⟩
      · rw [hstays]
        exact hx.bounds
      · rw [hstays]
        exact hx.up
      · change copies x.printed.length = maxNrexmt + 1
        omega
    · next hgoes =>
      obtain rfl := Option.some.inj h
      refine ⟨Function.update copies x.printed.length (x.nrexmt + 2), ?_, ?_, fun _ => ?_, ?_⟩
      · intro j hj
        by_cases hj' : j = x.printed.length
        · rw [hj', Function.update_self]
          omega
        · rw [Function.update_of_ne hj']
          exact hx.bounds j hj
      · have hup := hx.up
        have hsame : Function.update copies x.printed.length (x.nrexmt + 1) = copies := by
          rw [← hcopies, Function.update_eq_self]
        rw [hasked, ← hsame, flatMap_range_update] at hup
        have hmsg : (⟨x.seq, x.outbuff⟩ : Msg) = msgOf typed x.printed.length := by
          rw [hkept.seq, hkept.outbuff hat, hasked]
          rfl
        change x.up ++ [⟨x.seq, x.outbuff⟩] = List.flatMap _ (List.range (asked x))
        rw [hasked, flatMap_range_update, hup, hmsg, List.append_assoc, ← List.replicate_succ']
      · exact Function.update_self _ _ _
      · simp [sendmsg, hat]
  · cases h

theorem Sent.next {copies : ℕ → ℕ} (hkept : Kept typed x) (hx : Sent typed copies x) {l : Label}
    (h : next x l = some y) : ∃ copies, Sent typed copies y := by
  cases l with
  | ask => exact hx.ask hkept h
  | timeout => exact hx.timeout hkept h
  | serve i =>
      obtain ⟨m, _, rfl⟩ := Option.map_eq_some_iff.mp h
      exact ⟨copies, hx.bounds, hx.up, hx.waiting, hx.quit⟩
  | recv i =>
      simp only [DgSendRecv.next] at h
      split at h
      · next hat =>
        obtain ⟨m, _, rfl⟩ := Option.map_eq_some_iff.mp h
        split
        · have hstays : asked { x with
              clientAt := .head, printed := x.printed ++ [cstr m.data] } = asked x := by
            rw [asked_waiting hat]
            simp [asked]
          refine ⟨copies, ?_, ?_, by simp, by simp⟩
          · rw [hstays]
            exact hx.bounds
          · rw [hstays]
            exact hx.up
        · exact ⟨copies, hx⟩
      · cases h

/-- **What the client sends**: one request after the other, each of them one to four times, and
four times where it gives up. -/
theorem transmissions (typed : List Byte) (tr : List (State × Label)) (x : State)
    (h : (system typed).Exec tr x) :
    ∃ copies : ℕ → ℕ, (∀ j < asked x, 1 ≤ copies j ∧ copies j ≤ 4) ∧
      (x.clientAt = .quit → copies x.printed.length = 4) ∧
      x.up = (List.range (asked x)).flatMap fun j =>
        List.replicate (copies j) (msgOf typed j) := by
  have hsent : Kept typed x ∧ ∃ copies, Sent typed copies x := by
    refine h.invariant (fun x => Kept typed x ∧ ∃ copies, Sent typed copies x) (fun _ _ => True)
      ?_ ?_ fun _ _ => trivial
    · rintro x ⟨hstdin, hclient, hseq, hup, hdown, hprinted⟩
      have hasked : asked x = 0 := by simp [asked, hprinted, hclient]
      refine ⟨Starts.kept ⟨hstdin, hclient, hseq, hup, hdown, hprinted⟩, fun _ => 0, ?_, ?_, ?_, ?_⟩
      · simp [hasked]
      · simp [hasked, hup]
      · simp [hclient]
      · simp [hclient]
    · rintro x l y _ ⟨hkept, copies, hx⟩ hstep
      exact ⟨hkept.next hstep, hx.next hkept hstep⟩
  obtain ⟨_, copies, hx⟩ := hsent
  exact ⟨copies, hx.bounds, hx.quit, hx.up⟩

theorem transmissions_late :
    ∃ tr x, (system twoLines).Exec tr x ∧ x.up.length = 3 ∧
      ∃ copies : ℕ → ℕ, (∀ j < asked x, 1 ≤ copies j ∧ copies j ≤ 4) ∧
        x.up = (List.range (asked x)).flatMap fun j =>
          List.replicate (copies j) (msgOf twoLines j) := by
  obtain ⟨tr, x, hexec, _, hup⟩ := late_run
  obtain ⟨copies, hbounds, _, hsent⟩ := transmissions twoLines tr x hexec
  exact ⟨tr, x, hexec, hup, copies, hbounds, hsent⟩

end SocketPrograms.Unp.DgSendRecv
