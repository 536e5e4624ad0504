import SocketPrograms.HW4.DateServer
import SocketPrograms.Lib.Exchange
import SocketPrograms.LineClient

/-!
# The date server and its clients on a network

Any number of `Lab8Test` clients and the HW4 server exchange datagrams. The network
delivers them in any order and may lose them; it neither repeats nor makes up any. A
client takes any datagram for its reply and sends its next request to where that came
from; the server keeps one `cli_addr`.

Each datagram carries the ticket of its request, and the states carry what was sent,
received and served. These are history: no step depends on them.

## Main definitions

* `Lab8Test` — the client; `Network.State`, `Network.next` — the joint steps.
* `Network.outstanding` — the requests and replies of a client in flight or being
  served.
* `Network.exchange` — what the network is as an exchange of requests and replies.
-/

namespace SocketPrograms.HW4

/-- A party of the network. -/
inductive Endpoint (ι : Type)
  | server
  | client (i : ι)
  deriving DecidableEq

/-- `Lab8Test.c`: the loop of the line clients on arrays of 512 bytes, and the address
it sends to. -/
structure Lab8Test (ι : Type) where
  line : LineClient 512
  server : Endpoint ι

namespace Lab8Test

variable {ι : Type}

/-- The iteration up to `sendto(client_fd, sendline, BUFFER, 0, &server, slen)`: the text
typed, and what the array holds behind its NUL. -/
def ask (c : Lab8Test ι) : Option (Lab8Test ι × List Byte) := do
  let line ← c.line.prompt
  return ({ c with line }, line.sendline.bytes)

/-- The iteration from `recvfrom(client_fd, recvline, BUFFER, 0, &server, &slen)`, which
writes the address the datagram came from over `server`. -/
def hear (c : Lab8Test ι) (src : Endpoint ι) (payload : List Byte) : Lab8Test ι :=
  ⟨c.line.hear payload, src⟩

/-- A request is the whole array, with a NUL in it. -/
theorem ask_spec (c : Lab8Test ι) :
    ∃ c' bytes, ask c = some (c', bytes) ∧ CharArray.Terminates 512 bytes ∧
      c'.server = c.server ∧ c'.line.printed = c.line.printed := by
  obtain ⟨line, hprompt, htext, _, hprinted, _⟩ := LineClient.prompt_spec (by decide) c.line
  have hmem : (0 : Byte) ∈ line.sendline.bytes := by
    by_contra hfree
    rw [CharArray.text, textOf, if_neg hfree] at htext
    cases htext
  refine ⟨{ c with line }, line.sendline.bytes, by simp [ask, hprompt], .inr ?_, rfl, hprinted⟩
  rwa [List.take_of_length_le (by simp)]

/-- A datagram of 512 bytes fills the array. -/
theorem hear_spec (c : Lab8Test ι) (src : Endpoint ι) {payload : List Byte}
    (h : payload.length = 512) :
    (c.hear src payload).line.printed = c.line.printed ++ [textOf payload] := by
  have hstore : (c.line.recvline.store payload).bytes = payload := by
    rw [CharArray.bytes_store (le_of_eq h), List.drop_eq_nil_of_le (by simp [h]), List.append_nil]
  simp [hear, LineClient.hear, CharArray.text, hstore]

end Lab8Test

namespace Network

/-- A datagram, and the ticket of its request. -/
structure Datagram (ι : Type) where
  src : Endpoint ι
  dst : Endpoint ι
  payload : List Byte
  ticket : Ticket ι

/-- A client, where it stands, what it sent and what it received. -/
structure Client (ι : Type) where
  prog : Lab8Test ι
  at_ : Pair.ClientAt
  sent : List (List Byte)
  heard : List (List Byte)

/-- Where the server stands. -/
inductive ServerAt (ι : Type)
  /-- In its `recvfrom`. -/
  | receiving
  /-- Between `recvfrom` and the end of `sendto`, with this `cli_addr`; the ticket and the
  payload of the request. -/
  | working (cli_addr : Endpoint ι) (ticket : Ticket ι) (request : List Byte)
  /-- After a step that C leaves undefined. -/
  | undefined

/-- The programs, the datagrams in flight, and the requests served with their replies. -/
structure State (ι : Type) where
  clients : ι → Client ι
  server : DateServer.Server
  serverAt : ServerAt ι
  flying : List (Datagram ι)
  served : List (Ticket ι × List Byte × List Byte)

/-- The steps; `j` is a place among the datagrams in flight. -/
inductive Label (ι : Type)
  | ask (i : ι)
  | recv (j : ℕ)
  | send (output : List Byte)
  | hear (j : ℕ)
  | lose (j : ℕ)

variable {ι : Type} [DecidableEq ι]

/-- Put client `i` into a new state. -/
def State.setClient (x : State ι) (i : ι) (c : Client ι) : State ι :=
  { x with clients := Function.update x.clients i c }

/-- One step. -/
def next (sizeofFp : ℕ) (x : State ι) : Label ι → Option (State ι)
  | .ask i =>
      let c := x.clients i
      if c.at_ = .head then
        if c.prog.line.closing then some (x.setClient i { c with at_ := .left })
        else match c.prog.ask with
          | none => some (x.setClient i { c with at_ := .undefined })
          | some (prog, bytes) => some {
              x.setClient i { c with prog, at_ := .reading, sent := c.sent ++ [bytes] } with
              flying := x.flying ++ [⟨.client i, prog.server, bytes, ⟨i, c.sent.length⟩⟩] }
      else none
  | .recv j =>
      match x.serverAt, x.flying[j]? with
      | .receiving, some d =>
          if d.dst = .server then
            some { x with
              server := DateServer.take x.server d.payload
              serverAt := .working d.src d.ticket d.payload
              flying := x.flying.eraseIdx j }
          else none
      | _, _ => none
  | .send output =>
      match x.serverAt with
      | .working cli_addr ticket request =>
          match DateServer.work sizeofFp output x.server with
          | none => some { x with serverAt := .undefined }
          | some (server, bytes) => some { x with
              server, serverAt := .receiving
              flying := x.flying ++ [⟨.server, cli_addr, bytes, ticket⟩]
              served := x.served ++ [(ticket, request, bytes)] }
      | _ => none
  | .hear j =>
      match x.flying[j]? with
      | none => none
      | some d =>
          match d.dst with
          | .server => none
          | .client i =>
              let c := x.clients i
              if c.at_ = .reading then
                some {
                  x.setClient i { c with
                    prog := c.prog.hear d.src d.payload, at_ := .head
                    heard := c.heard ++ [d.payload] } with
                  flying := x.flying.eraseIdx j }
              else none
  | .lose j => if j < x.flying.length then some { x with flying := x.flying.eraseIdx j } else none

/-- A client at its start: it knows the address of the server, and has sent and printed
nothing. Its input and its memory are arbitrary. -/
structure Client.Starts (c : Client ι) : Prop where
  server : c.prog.server = .server
  at_ : c.at_ = .head
  sent : c.sent = []
  heard : c.heard = []
  printed : c.prog.line.printed = []

/-- The network, with a server in any state and memory. -/
def system (ι : Type) [DecidableEq ι] (sizeofFp : ℕ) : System (State ι) (Label ι) :=
  .ofNext (fun x => (∀ i, (x.clients i).Starts) ∧ x.serverAt = .receiving ∧ x.flying = [] ∧
    x.served = []) (next sizeofFp)

/-- The requests and replies of client `i` that are in flight or being served. -/
def outstanding (x : State ι) (i : ι) : ℕ :=
  (x.flying.filter fun d => d.src = .client i ∨ d.dst = .client i).length +
    match x.serverAt with
    | .working cli_addr _ _ => if cli_addr = .client i then 1 else 0
    | _ => 0

/-! ## What each step can do -/

variable {sizeofFp : ℕ} {x y : State ι}

theorem ask_cases {i : ι} (h : next sizeofFp x (.ask i) = some y) :
    (x.clients i).at_ = .head ∧
      (y = x.setClient i { x.clients i with at_ := .left } ∨
       ∃ prog bytes, (x.clients i).prog.ask = some (prog, bytes) ∧
        y = {
          x.setClient i { x.clients i with
            prog, at_ := .reading, sent := (x.clients i).sent ++ [bytes] } with
          flying := x.flying ++
            [⟨.client i, prog.server, bytes, ⟨i, (x.clients i).sent.length⟩⟩] }) := by
  simp only [next] at h
  split at h
  · next hat =>
    refine ⟨hat, ?_⟩
    split at h
    · exact .inl (by simpa using h.symm)
    · split at h
      · next hnone =>
        obtain ⟨c', bytes, hask, _⟩ := (x.clients i).prog.ask_spec
        rw [hnone] at hask
        cases hask
      · next prog bytes hask => exact .inr ⟨prog, bytes, hask, by simpa using h.symm⟩
  · cases h

theorem recv_cases {j : ℕ} (h : next sizeofFp x (.recv j) = some y) :
    x.serverAt = .receiving ∧ ∃ d, x.flying[j]? = some d ∧ d.dst = .server ∧
      y = { x with
        server := DateServer.take x.server d.payload
        serverAt := .working d.src d.ticket d.payload
        flying := x.flying.eraseIdx j } := by
  simp only [next] at h
  split at h
  · next d hat hd =>
    split at h
    · next hdst => exact ⟨hat, d, hd, hdst, by simpa using h.symm⟩
    · cases h
  · cases h

theorem send_cases {output : List Byte} (h : next sizeofFp x (.send output) = some y) :
    ∃ cli_addr ticket request, x.serverAt = .working cli_addr ticket request ∧
      ((DateServer.work sizeofFp output x.server = none ∧
          y = { x with serverAt := .undefined }) ∨
       ∃ server bytes, DateServer.work sizeofFp output x.server = some (server, bytes) ∧
          y = { x with
            server, serverAt := .receiving
            flying := x.flying ++ [⟨.server, cli_addr, bytes, ticket⟩]
            served := x.served ++ [(ticket, request, bytes)] }) := by
  simp only [next] at h
  split at h
  · next cli_addr ticket request hat =>
    refine ⟨cli_addr, ticket, request, hat, ?_⟩
    split at h
    · next hwork => exact .inl ⟨hwork, by simpa using h.symm⟩
    · next server bytes hwork => exact .inr ⟨server, bytes, hwork, by simpa using h.symm⟩
  · cases h

theorem hear_cases {j : ℕ} (h : next sizeofFp x (.hear j) = some y) :
    ∃ d i, x.flying[j]? = some d ∧ d.dst = .client i ∧ (x.clients i).at_ = .reading ∧
      y = {
        x.setClient i { x.clients i with
          prog := (x.clients i).prog.hear d.src d.payload, at_ := .head
          heard := (x.clients i).heard ++ [d.payload] } with
        flying := x.flying.eraseIdx j } := by
  simp only [next] at h
  split at h
  · cases h
  · next d hd =>
    split at h
    · cases h
    · next i hdst =>
      split at h
      · next hat => exact ⟨d, i, hd, hdst, hat, by simpa using h.symm⟩
      · cases h

theorem lose_cases {j : ℕ} (h : next sizeofFp x (.lose j) = some y) :
    ∃ d, x.flying[j]? = some d ∧ y = { x with flying := x.flying.eraseIdx j } := by
  simp only [next] at h
  split at h
  · next hj => exact ⟨x.flying[j], List.getElem?_eq_getElem hj, by simpa using h.symm⟩
  · cases h

end Network

end SocketPrograms.HW4
