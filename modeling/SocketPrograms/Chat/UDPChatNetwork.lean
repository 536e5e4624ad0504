import SocketPrograms.Chat.UDPChatClient

/-!
# The UDP chat

Any number of `UDPChatClient.c` send their messages to `UDPChatServer2.c`, which prints each one
that arrives and sends nothing. It is a daemon: `daemonic` closes its first three descriptors and
opens `/dev/null` on them.

The network may lose, delay, reorder and duplicate datagrams: one that was sent may arrive at any
time after, any number of times or never. Each client has the address that it sends to, which
`recvfrom` overwrites. Left out are the notices in front of the server's loop, and an `open` or
`dup` that fails.

## Main definitions

* `daemonic` — what the daemon's descriptors refer to.
* `State`, `next`, `system` — the clients, the server, and all that was sent.

## Main results

* `prints_messages` — **what the server prints, and where**: messages of the clients, each whole and
  with the address of its sender, all of them to `/dev/null`; and no client prints anything.
-/

namespace SocketPrograms.Chat.UDPChatNetwork

open UDPChatClient (Client Select Starts enterName closing)

/-! ## The daemon -/

/-- What a descriptor refers to. -/
inductive File
  | devNull
  /-- A terminal, a socket or any other file. -/
  | other (k : ℕ)
  deriving DecidableEq

/-- Give the file the lowest descriptor that is free. -/
def allot (f : File) : List (Option File) → List (Option File)
  | [] => [some f]
  | none :: fds => some f :: fds
  | some g :: fds => some g :: allot f fds

def close (fd : ℕ) (fds : List (Option File)) : List (Option File) := fds.set fd none

def dup (fd : ℕ) (fds : List (Option File)) : List (Option File) :=
  match fds[fd]? with
  | some (some f) => allot f fds
  | _ => fds

/-- `close(0); close(1); close(2); open("/dev/null", O_RDWR); dup(0); dup(0);` -/
def daemonic (fds : List (Option File)) : List (Option File) :=
  dup 0 (dup 0 (allot .devNull (close 2 (close 1 (close 0 fds)))))

/-- Whatever was open: the first three are `/dev/null`, and the others are as they were. -/
theorem daemonic_eq (fds : List (Option File)) :
    daemonic fds = List.replicate 3 (some .devNull) ++ fds.drop 3 := by
  cases fds with
  | nil => rfl
  | cons _ fds =>
      cases fds with
      | nil => rfl
      | cons _ fds => cases fds <;> rfl

/-! ## The system -/

/-- A party of the network. -/
inductive Endpoint (ι : Type)
  | server
  | client (i : ι)
  deriving DecidableEq

structure Datagram (ι : Type) where
  src : Endpoint ι
  dst : Endpoint ι
  payload : List Byte

/-- A client, and the address it sends to. -/
structure Peer (ι : Type) where
  prog : Client
  serv_addr : Endpoint ι

/-- Where the server stands. -/
inductive ServerAt
  /-- In its `recvfrom`. -/
  | receiving
  /-- Behind `exit(1)`. -/
  | exited
  /-- After a step that C leaves undefined. -/
  | undefined
  deriving DecidableEq

/-- What one `printf` of the loop prints. -/
structure Notice (ι : Type) where
  /-- What its standard output refers to. -/
  output : Option File
  src : Endpoint ι
  data : List Byte

/-- `UDPChatServer2.c`. -/
structure Server (ι : Type) where
  recvBuf : CharArray 2048
  cli_addr : Endpoint ι
  fds : List (Option File)
  at_ : ServerAt
  /-- What was printed (history). -/
  printed : List (Notice ι)

structure State (ι : Type) where
  clients : ι → Peer ι
  server : Server ι
  /-- Every datagram that was sent. -/
  posted : List (Datagram ι)

/-- The steps; `j` is a place among the datagrams that were sent. -/
inductive Label (ι : Type)
  /-- An iteration of a client to which nothing arrives. -/
  | iterate (i : ι) (select : Select) (date : List Byte) (sendto : Bool)
  /-- An iteration in which `select` reports the socket and datagram `j` arrives. -/
  | hear (i : ι) (fds : Finset ℕ) (j : ℕ)
  /-- Datagram `j` arrives at the server. -/
  | recv (j : ℕ)
  /-- The server's `recvfrom` returns -1. -/
  | recvFails

variable {ι : Type} [DecidableEq ι]

namespace Server

/-- `memset`, `recvfrom` and `printf`. -/
def receive (s : Server ι) (d : Datagram ι) : Server ι :=
  let recvBuf := (s.recvBuf.memset 2048).store d.payload
  match recvBuf.text with
  | none => { s with recvBuf, cli_addr := d.src, at_ := .undefined }
  | some data => { s with
      recvBuf, cli_addr := d.src
      printed := s.printed ++ [⟨s.fds[1]?.join, d.src, data⟩] }

end Server

/-- Client `i` has made an iteration that leaves it in `peer`: what it sent goes to the address that
it had. -/
def State.advance (x : State ι) (i : ι) (peer : Peer ι) : State ι :=
  let c := x.clients i
  { x with
    clients := Function.update x.clients i peer
    posted := x.posted ++ (peer.prog.sent.drop c.prog.sent.length).map fun m =>
      ⟨.client i, c.serv_addr, m.1⟩ }

@[simp] theorem advance_clients_self (x : State ι) (i : ι) (peer : Peer ι) :
    (x.advance i peer).clients i = peer := by
  simp [State.advance]

theorem advance_clients_of_ne (x : State ι) {i j : ι} (h : j ≠ i) (peer : Peer ι) :
    (x.advance i peer).clients j = x.clients j := by
  simp [State.advance, h]

/-- One step. -/
def next (sizeofFp : ℕ) (x : State ι) : Label ι → Option (State ι)
  | .iterate i select date sendto =>
      let c := x.clients i
      (UDPChatClient.next sizeofFp c.prog ⟨select, none, date, sendto⟩).map fun prog =>
        x.advance i { c with prog }
  | .hear i fds j =>
      let c := x.clients i
      x.posted[j]?.bind fun d =>
        if d.dst = .client i ∧ c.prog.client_fd ∈ fds ∧ closing c.prog = false then
          (UDPChatClient.next sizeofFp c.prog ⟨.ready fds, some d.payload, [], true⟩).map
            fun prog => x.advance i ⟨prog, d.src⟩
        else none
  | .recv j =>
      x.posted[j]?.bind fun d =>
        if x.server.at_ = .receiving ∧ d.dst = .server then
          some { x with server := x.server.receive d }
        else none
  | .recvFails =>
      if x.server.at_ = .receiving then
        some { x with server := { x.server with at_ := .exited } }
      else none

/-- The start: each client has asked for its name, with this text typed behind it, and the server
has become a daemon. Memory, and what the server had open, are arbitrary. -/
structure Begins (name typed : ι → List Byte) (x : State ι) : Prop where
  starts : ∀ i, ∃ garbage, Starts garbage (x.clients i).prog
  named : ∀ i, ∃ a line, Typed [name i] line ∧ enterName a line = some (x.clients i).prog.name
  typed : ∀ i, (x.clients i).prog.stdin = typed i
  serv_addr : ∀ i, (x.clients i).serv_addr = .server
  receiving : x.server.at_ = .receiving
  daemon : ∃ fds, x.server.fds = daemonic fds
  printed : x.server.printed = []
  posted : x.posted = []

/-- The chat, with these names and these texts typed. -/
def system (sizeofFp : ℕ) (name typed : ι → List Byte) : System (State ι) (Label ι) :=
  .ofNext (Begins name typed) (next sizeofFp)

/-! ## A client -/

/-- The text of message `k`, counted from 0, where `date` printed this: the name, the next bytes of
what was typed, up to 9 or the end of the line, and the date. -/
def message (sizeofFp : ℕ) (name typed : List Byte) (k : ℕ) (date : List Byte) : List Byte :=
  name ++ ascii ": " ++ cstr (pieceAt (lineCut 9) k typed) ++ gathered sizeofFp date

/-- A datagram that holds a text: 2048 bytes, with this text in front of the first NUL. -/
def Carries (payload text : List Byte) : Prop :=
  payload.length = 2048 ∧ textOf payload = some text

/-- What an iteration to which nothing arrives keeps, for a client with this name and input. -/
structure Sends (sizeofFp : ℕ) (name typed : List Byte) (c : Client) : Prop where
  named : c.name.text = some (name ++ ascii ": ")
  stdin : c.at_ = .head → c.stdin = unread (lineCut 9) c.sent.length typed
  sent : ∀ k m, c.sent[k]? = some m → Carries m.1 (message sizeofFp name typed k m.2)
  printed : c.printed = []

variable {sizeofFp : ℕ} {name typed : List Byte} {c c' : Client}

/-- An iteration that neither reads nor sends. -/
theorem Sends.idle (H : Sends sizeofFp name typed c) (hname : c'.name = c.name)
    (hhead : c'.at_ = .head → c.at_ = .head) (hstdin : c'.stdin = c.stdin)
    (hsent : c'.sent = c.sent) (hprinted : c'.printed = c.printed) :
    Sends sizeofFp name typed c' := by
  refine ⟨?_, ?_, ?_, ?_⟩
  · rw [hname]
    exact H.named
  · intro hat
    rw [hstdin, hsent]
    exact H.stdin (hhead hat)
  · rw [hsent]
    exact H.sent
  · rw [hprinted]
    exact H.printed

/-- An iteration that reads and sends: the message is sent, or it is too long, or `sendto` fails. -/
theorem Sends.send (H : Sends sizeofFp name typed c) (hsize : 2 ≤ sizeofFp)
    (hmax : sizeofFp ≤ 2048) (hat : c.at_ = .head) (date : List Byte) (sendto : Bool)
    (fds : Finset ℕ) :
    Sends sizeofFp name typed (UDPChatClient.send sizeofFp date sendto
      (UDPChatClient.clear { c with readfds := fds })) := by
  have htext : name ++ ascii ": " ++ cstr (lineCut 9 c.stdin).1 ++ gathered sizeofFp date =
      message sizeofFp name typed c.sent.length date := by
    rw [message, pieceAt, H.stdin hat]
  have hnamed : ({ c with readfds := fds } : Client).name.text = some (name ++ ascii ": ") :=
    H.named
  by_cases hfits : (message sizeofFp name typed c.sent.length date).length < 2048
  · obtain ⟨sendline, out, hbytes, hsend⟩ :=
      UDPChatClient.send_spec hsize hmax date sendto hnamed htext hfits
    rw [hsend]
    by_cases hsendto : sendto = true
    · rw [if_pos hsendto]
      have hfree : NulFree (message sizeofFp name typed c.sent.length date) :=
        nulFree_append.mpr ⟨nulFree_append.mpr
          ⟨(CharArray.text_eq_some_iff.mp H.named).1, nulFree_cstr _⟩, nulFree_gathered _ _⟩
      have hcarries : Carries sendline.bytes (message sizeofFp name typed c.sent.length date) :=
        ⟨sendline.length_bytes, by rw [hbytes, textOf_padded_of_lt hfree hfits]⟩
      refine ⟨H.named, ?_, ?_, H.printed⟩
      · intro _
        have hrest : (lineCut 9 c.stdin).2 = unread (lineCut 9) (c.sent.length + 1) typed := by
          rw [unread_succ, H.stdin hat]
        rw [List.length_append, List.length_singleton, ← hrest]
        rfl
      · intro k m hm
        rcases Nat.lt_or_ge k c.sent.length with hlt | hge
        · rw [List.getElem?_append_left hlt] at hm
          exact H.sent k m hm
        · rw [List.getElem?_append_right hge, List.getElem?_singleton] at hm
          have hk : k = c.sent.length := by
            by_contra hne
            rw [if_neg (by omega)] at hm
            cases hm
          rw [hk, Nat.sub_self, if_pos rfl] at hm
          rw [hk, ← Option.some.inj hm]
          exact hcarries
    · rw [if_neg hsendto]
      exact ⟨H.named, by simp, H.sent, H.printed⟩
  · have hnone := (UDPChatClient.assemble_spec hsize hmax date hnamed htext).2 (not_lt.mp hfits)
    rw [UDPChatClient.send, hnone]
    exact ⟨H.named, by simp, H.sent, H.printed⟩

/-- **One iteration of a client to which nothing arrives.** -/
theorem Sends.next (H : Sends sizeofFp name typed c) (hsize : 2 ≤ sizeofFp)
    (hmax : sizeofFp ≤ 2048) {select : Select} {date : List Byte} {sendto : Bool}
    (h : UDPChatClient.next sizeofFp c ⟨select, none, date, sendto⟩ = some c') :
    Sends sizeofFp name typed c' := by
  have hcases := UDPChatClient.next_cases h
  have hat := hcases.1
  rcases hcases.2 with ⟨_, rfl⟩ | ⟨_, ⟨_, rfl⟩ | ⟨_, rfl⟩ | ⟨fds, _, _, hbranch⟩⟩
  · exact H.idle rfl (by simp) rfl rfl rfl
  · exact H.idle rfl id rfl rfl rfl
  · exact H.idle rfl id rfl rfl rfl
  · rcases hbranch with ⟨_, rfl⟩ | ⟨_, rfl⟩
    · exact H.idle rfl (by simp [UDPChatClient.receive]) rfl rfl rfl
    · exact H.send hsize hmax hat date sendto fds

/-! ## The chat -/

variable {names typeds : ι → List Byte} {x y : State ι}

/-- A text that client `i` has sent, with the place of its message and what `date` printed. -/
def IsMessage (sizeofFp : ℕ) (names typeds : ι → List Byte) (x : State ι) (i : ι)
    (text : List Byte) : Prop :=
  ∃ k m, (x.clients i).prog.sent[k]? = some m ∧
    text = message sizeofFp (names i) (typeds i) k m.2

/-- What every run keeps. -/
structure Chats (sizeofFp : ℕ) (names typeds : ι → List Byte) (x : State ι) : Prop where
  sends : ∀ i, Sends sizeofFp (names i) (typeds i) (x.clients i).prog
  serv_addr : ∀ i, (x.clients i).serv_addr = .server
  posted : ∀ d ∈ x.posted, d.dst = .server ∧ ∃ i text, d.src = .client i ∧
    Carries d.payload text ∧ IsMessage sizeofFp names typeds x i text
  output : x.server.fds[1]? = some (some .devNull)
  defined : x.server.at_ ≠ .undefined
  printed : ∀ p ∈ x.server.printed, p.output = some .devNull ∧
    ∃ i, p.src = .client i ∧ IsMessage sizeofFp names typeds x i p.data

/-- What was sent stays sent. -/
theorem sent_prefix_send (date : List Byte) (sendto : Bool) (c : Client) :
    c.sent <+: (UDPChatClient.send sizeofFp date sendto c).sent := by
  rw [UDPChatClient.send]
  cases hassemble : UDPChatClient.assemble sizeofFp date c with
  | none => exact List.prefix_rfl
  | some c' =>
      have hsent : c'.sent = c.sent := by
        simp only [UDPChatClient.assemble, Option.bind_eq_bind,
          Option.bind_eq_some_iff] at hassemble
        obtain ⟨_, _, _, _, _, _, _, _, _, _, hc'⟩ := hassemble
        rw [← Option.some.inj hc']
        rfl
      cases sendto with
      | true => simp [hsent]
      | false => simp [hsent]

theorem sent_prefix {inp : UDPChatClient.Input} (h : UDPChatClient.next sizeofFp c inp = some c') :
    c.sent <+: c'.sent := by
  have hcases := UDPChatClient.next_cases h
  rcases hcases.2 with ⟨_, rfl⟩ | ⟨_, ⟨_, rfl⟩ | ⟨_, rfl⟩ | ⟨fds, _, _, hbranch⟩⟩
  · exact List.prefix_rfl
  · exact List.prefix_rfl
  · exact List.prefix_rfl
  · rcases hbranch with ⟨_, rfl⟩ | ⟨_, rfl⟩
    · cases inp.datagram <;> exact List.prefix_rfl
    · exact sent_prefix_send inp.date inp.sendto (UDPChatClient.clear { c with readfds := fds })

/-- A message that was sent stays one. -/
theorem IsMessage.advance {i j : ι} {text : List Byte}
    (h : IsMessage sizeofFp names typeds x j text) {peer : Peer ι}
    (hsent : (x.clients i).prog.sent <+: peer.prog.sent) :
    IsMessage sizeofFp names typeds (x.advance i peer) j text := by
  obtain ⟨k, m, hm, htext⟩ := h
  refine ⟨k, m, ?_, htext⟩
  by_cases hj : j = i
  · subst hj
    obtain ⟨more, hmore⟩ := hsent
    rw [advance_clients_self, ← hmore,
      List.getElem?_append_left (List.getElem?_eq_some_iff.mp hm).1]
    exact hm
  · rw [advance_clients_of_ne x hj]
    exact hm

/-- **A client makes an iteration**: what it sends is posted to the server. -/
theorem Chats.iterate (hx : Chats sizeofFp names typeds x) (hsize : 2 ≤ sizeofFp)
    (hmax : sizeofFp ≤ 2048) {i : ι} {select : Select} {date : List Byte} {sendto : Bool}
    (h : next sizeofFp x (.iterate i select date sendto) = some y) :
    Chats sizeofFp names typeds y := by
  obtain ⟨prog, hprog, rfl⟩ := Option.map_eq_some_iff.mp h
  have hsends := (hx.sends i).next hsize hmax hprog
  have hpre := sent_prefix hprog
  refine ⟨?_, ?_, ?_, hx.output, hx.defined, ?_⟩
  · intro j
    by_cases hj : j = i
    · subst hj
      rw [advance_clients_self]
      exact hsends
    · rw [advance_clients_of_ne x hj]
      exact hx.sends j
  · intro j
    by_cases hj : j = i
    · subst hj
      rw [advance_clients_self]
      exact hx.serv_addr j
    · rw [advance_clients_of_ne x hj]
      exact hx.serv_addr j
  · intro d hd
    rcases List.mem_append.mp hd with hold | hnew
    · obtain ⟨hdst, j, text, hsrc, hcarries, hmessage⟩ := hx.posted d hold
      exact ⟨hdst, j, text, hsrc, hcarries, hmessage.advance hpre⟩
    · obtain ⟨m, hm, rfl⟩ := List.mem_map.mp hnew
      obtain ⟨k, hk⟩ := List.mem_iff_getElem?.mp (List.mem_of_mem_drop hm)
      refine ⟨hx.serv_addr i, i, _, rfl, hsends.sent k m hk, k, m, ?_, rfl⟩
      rw [advance_clients_self]
      exact hk
  · intro p hp
    have hprinted := hx.printed p hp
    obtain ⟨j, hsrc, hmessage⟩ := hprinted.2
    exact ⟨hprinted.1, j, hsrc, hmessage.advance hpre⟩

/-- Nothing arrives at a client. -/
theorem Chats.not_hear (hx : Chats sizeofFp names typeds x) {i : ι} {fds : Finset ℕ} {j : ℕ} :
    next sizeofFp x (.hear i fds j) = none := by
  simp only [next, Option.bind_eq_none_iff]
  intro d hd
  have hdst := (hx.posted d (List.mem_of_getElem? hd)).1
  rw [if_neg (by simp [hdst])]

/-- **A datagram arrives at the server**: it prints the text. -/
theorem Chats.recv (hx : Chats sizeofFp names typeds x) {j : ℕ}
    (h : next sizeofFp x (.recv j) = some y) : Chats sizeofFp names typeds y := by
  obtain ⟨d, hd, hstep⟩ := Option.bind_eq_some_iff.mp h
  split at hstep
  · next hat =>
    obtain rfl := Option.some.inj hstep
    obtain ⟨_, i, text, hsrc, hcarries, hmessage⟩ := hx.posted d (List.mem_of_getElem? hd)
    have hbytes : ((x.server.recvBuf.memset 2048).store d.payload).bytes = d.payload := by
      rw [CharArray.bytes_store_of_le _ hcarries.1.ge, List.take_of_length_le hcarries.1.le]
    have hreceive : x.server.receive d = { x.server with
        recvBuf := (x.server.recvBuf.memset 2048).store d.payload, cli_addr := d.src
        printed := x.server.printed ++ [⟨some .devNull, d.src, text⟩] } := by
      have htext : ((x.server.recvBuf.memset 2048).store d.payload).text = some text := by
        rw [CharArray.text, hbytes, hcarries.2]
      simp only [Server.receive, htext, hx.output, Option.join_some]
    refine ⟨hx.sends, hx.serv_addr, hx.posted, ?_, ?_, ?_⟩
    · rw [hreceive]
      exact hx.output
    · rw [hreceive]
      exact hx.defined
    · rw [hreceive]
      intro p hp
      rcases List.mem_append.mp hp with hold | hnew
      · exact hx.printed p hold
      · rw [List.mem_singleton.mp hnew]
        exact ⟨rfl, i, hsrc, hmessage⟩
  · cases hstep

theorem Chats.recvFails (hx : Chats sizeofFp names typeds x)
    (h : next sizeofFp x .recvFails = some y) : Chats sizeofFp names typeds y := by
  simp only [next] at h
  split at h
  · obtain rfl := Option.some.inj h
    exact ⟨hx.sends, hx.serv_addr, hx.posted, hx.output, by simp, hx.printed⟩
  · cases h

theorem Chats.next (hx : Chats sizeofFp names typeds x) (hsize : 2 ≤ sizeofFp)
    (hmax : sizeofFp ≤ 2048) {l : Label ι} (h : next sizeofFp x l = some y) :
    Chats sizeofFp names typeds y := by
  cases l with
  | iterate i select date sendto => exact hx.iterate hsize hmax h
  | hear i fds j => cases (hx.not_hear).symm.trans h
  | recv j => exact hx.recv h
  | recvFails => exact hx.recvFails h

omit [DecidableEq ι] in
theorem Begins.chats (hx : Begins names typeds x) : Chats sizeofFp names typeds x := by
  refine ⟨?_, hx.serv_addr, by simp [hx.posted], ?_, by simp [hx.receiving], by simp [hx.printed]⟩
  · intro i
    obtain ⟨_, hstarts⟩ := hx.starts i
    obtain ⟨a, line, htyped, henter⟩ := hx.named i
    have hlen := UDPChatClient.length_lt_of_enterName htyped henter
    refine ⟨UDPChatClient.enterName_text htyped hlen henter, ?_, ?_, hstarts.printed_eq⟩
    · intro _
      rw [hx.typed i, hstarts.sent_eq]
      rfl
    · simp [hstarts.sent_eq]
  · obtain ⟨fds, hdaemon⟩ := hx.daemon
    rw [hdaemon, daemonic_eq]
    rfl

theorem chats (hsize : 2 ≤ sizeofFp) (hmax : sizeofFp ≤ 2048) {tr : List (State ι × Label ι)}
    (h : (system sizeofFp names typeds).Exec tr x) : Chats sizeofFp names typeds x :=
  h.invariant (Chats sizeofFp names typeds) (fun _ _ => True)
    (fun x (hx : Begins names typeds x) => hx.chats)
    (fun _ _ _ _ hx hstep => hx.next hsize hmax hstep) fun _ _ => trivial

/-! ## Two clients to run -/

/-- Both are called John and have a line to send. -/
def twoJohns : State Bool where
  clients := fun _ => ⟨UDPChatClient.zeroed 0 (ascii "hi\n"), .server⟩
  server := ⟨.fillWith 2048 0, .server, daemonic [some (.other 0), some (.other 0)], .receiving, []⟩
  posted := []

theorem twoJohns_begins : Begins (fun _ => ascii "John") (fun _ => ascii "hi\n") twoJohns := by
  refine ⟨?_, ?_, fun _ => rfl, fun _ => rfl, rfl,
    ⟨[some (.other 0), some (.other 0)], rfl⟩, rfl, rfl⟩
  · intro _
    exact ⟨0, UDPChatClient.zeroed_starts UDPChatClient.zero_inSet (ascii "hi\n")⟩
  · intro _
    exact ⟨.fillWith 2048 0, UDPChatClient.john, UDPChatClient.john_typed,
      UDPChatClient.zeroed_name 0 (ascii "hi\n")⟩

/-- One of them sends, and its message arrives twice. -/
theorem twice_run :
    ∃ tr x, (system 8 (fun _ : Bool => ascii "John") (fun _ => ascii "hi\n")).Exec tr x ∧
      x.server.printed.map Notice.data =
        [ascii "John: hi\nnoon\n", ascii "John: hi\nnoon\n"] := by
  have hrun : (System.replay (next 8) twoJohns
      [.iterate true (.ready {0}) (ascii "noon\n") true, .recv 0, .recv 0]).map
        (fun p => p.2.server.printed.map Notice.data) =
      some [ascii "John: hi\nnoon\n", ascii "John: hi\nnoon\n"] := by
    decide +kernel
  exact System.exec_of_replay twoJohns_begins hrun

/-- **What the chat prints, in every run**: each text that the server prints is a whole message that
was sent by the client whose address it prints with it, and goes to `/dev/null`; the server never
reads behind its buffer; and no client prints what anyone wrote. -/
theorem prints_messages (sizeofFp : ℕ) (names typeds : ι → List Byte) (hsize : 2 ≤ sizeofFp)
    (hmax : sizeofFp ≤ 2048) (tr : List (State ι × Label ι)) (x : State ι)
    (h : (system sizeofFp names typeds).Exec tr x) :
    x.server.at_ ≠ .undefined ∧ (∀ i, (x.clients i).prog.printed = []) ∧
      ∀ p ∈ x.server.printed, p.output = some .devNull ∧
        ∃ i k m, p.src = .client i ∧ (x.clients i).prog.sent[k]? = some m ∧
          p.data = message sizeofFp (names i) (typeds i) k m.2 := by
  have hx := chats hsize hmax h
  refine ⟨hx.defined, fun i => (hx.sends i).printed, ?_⟩
  intro p hp
  have hprinted := hx.printed p hp
  obtain ⟨i, hsrc, k, m, hm, hdata⟩ := hprinted.2
  exact ⟨hprinted.1, i, k, m, hsrc, hm, hdata⟩

theorem prints_messages_twice :
    ∃ tr x, (system 8 (fun _ : Bool => ascii "John") (fun _ => ascii "hi\n")).Exec tr x ∧
      x.server.printed.length = 2 ∧ ∀ p ∈ x.server.printed, p.output = some .devNull := by
  obtain ⟨tr, x, hexec, hdata⟩ := twice_run
  have hprints := prints_messages 8 _ _ (by decide) (by decide) tr x hexec
  have hlength : x.server.printed.length = 2 := by
    have hlen := congrArg List.length hdata
    rwa [List.length_map] at hlen
  exact ⟨tr, x, hexec, hlength, fun p hp => (hprints.2.2 p hp).1⟩

end SocketPrograms.Chat.UDPChatNetwork
