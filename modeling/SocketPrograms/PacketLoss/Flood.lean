import SocketPrograms.Lib.Decimal
import SocketPrograms.Lib.Transition

/-!
# The packet loss calculator

`UDPFloodClient.c` sends a million datagrams, each with the value of its counter as a text, and
`UDPFloodServer.c` counts what it receives until its own counter is 385000. The network
delivers the datagrams in any order and may lose them; it neither repeats nor makes up any.

A datagram in flight carries its place among those sent. That, and the places of the datagrams
received, are history: no step depends on them.

## Main definitions

* `UDPFloodClient.send`, `UDPFloodServer.receive` — one pass of each loop.
* `State`, `next`, `system` — the two programs and the network.
* `Reports` — the server is behind its loop, and prints its report.
-/

namespace SocketPrograms.PacketLoss

/-- The client's array and counter. -/
structure UDPFloodClient where
  sendline : CharArray 512
  counter : ℕ

/-- The server's array and counter. -/
structure UDPFloodServer where
  buf : CharArray 512
  counter : ℕ

/-- `memset(sendline, 0, 100); snprintf(sendline, BUFFER, "%d", counter); sendto(...)`: the
datagram is all of the array. -/
def UDPFloodClient.send (c : UDPFloodClient) : Option (UDPFloodClient × List Byte) := do
  let sendline ← snprintf (c.sendline.memset 100) 512 (decimal c.counter)
  return (⟨sendline, c.counter + 1⟩, sendline.bytes)

/-- `memset(buf, 0, BUFLEN); recvfrom(sockfd, buf, BUFLEN, ...); counter++`. -/
def UDPFloodServer.receive (s : UDPFloodServer) (payload : List Byte) : UDPFloodServer :=
  ⟨(s.buf.memset 512).store payload, s.counter + 1⟩

/-- A datagram, and how many were sent before it. -/
structure Datagram where
  place : ℕ
  payload : List Byte

/-- The programs, the datagrams in flight, the number of those sent, and the places of those
received, in order. -/
structure State where
  client : UDPFloodClient
  server : UDPFloodServer
  flying : List Datagram
  sent : ℕ
  received : List ℕ

/-- The steps; `j` is a place among the datagrams in flight. -/
inductive Label
  | send
  | recv (j : ℕ)
  | lose (j : ℕ)

/-- One step. -/
def next (x : State) : Label → Option State
  | .send =>
      if x.client.counter < 1000000 then
        x.client.send.map fun p =>
          { x with client := p.1, flying := x.flying ++ [⟨x.sent, p.2⟩], sent := x.sent + 1 }
      else none
  | .recv j =>
      if x.server.counter < 385000 then
        x.flying[j]?.map fun d =>
          { x with
            server := x.server.receive d.payload, flying := x.flying.eraseIdx j
            received := x.received ++ [d.place] }
      else none
  | .lose j => if j < x.flying.length then some { x with flying := x.flying.eraseIdx j } else none

/-- Both programs in front of their loops, with any memory. -/
structure Starts (x : State) : Prop where
  client_eq : x.client.counter = 0
  server_eq : x.server.counter = 1
  flying_eq : x.flying = []
  sent_eq : x.sent = 0
  received_eq : x.received = []

def system : System State Label := .ofNext Starts next

/-- The server is behind its loop:
`printf(" %d packets recieved of %s sent\n", counter, buf)`. -/
def Reports (x : State) : Prop := 385000 ≤ x.server.counter

/-- The number of datagrams that the client had sent up to the last one received. -/
def sentUpToLast (x : State) : ℕ := x.received.getLast?.elim 0 (· + 1)

/-- The figure reported as received is the number of datagrams that `recvfrom` returned. -/
def CountsReceived (x : State) : Prop := x.server.counter = x.received.length

/-- The text reported as sent is the number of datagrams sent up to the last one received. -/
def NamesSent (x : State) : Prop := x.server.buf.text = some (decimal (sentUpToLast x))

/-! ## One pass of each loop -/

/-- A datagram starts with the counter as a string. -/
theorem UDPFloodClient.send_spec (c : UDPFloodClient) (h : c.counter < 1000000) :
    ∃ c' payload, c.send = some (c', payload) ∧ c'.counter = c.counter + 1 ∧
      payload.length = 512 ∧ ∃ tail, payload = decimal c.counter ++ 0 :: tail := by
  have hlen : (decimal c.counter).length ≤ 6 := length_decimal_le (by decide) h
  obtain ⟨sendline, tail, hprint, hbytes⟩ :=
    snprintf_spec (c.sendline.memset 100) (show (decimal c.counter).length < 512 by omega) le_rfl
  exact ⟨⟨sendline, c.counter + 1⟩, sendline.bytes, by simp [send, hprint], rfl,
    sendline.length_bytes, tail, hbytes⟩

/-- The server's buffer holds the number that a datagram starts with. -/
theorem UDPFloodServer.text_receive (s : UDPFloodServer) {payload tail : List Byte} {k : ℕ}
    (hlen : payload.length = 512) (hpayload : payload = decimal k ++ 0 :: tail) :
    (s.receive payload).buf.text = some (decimal k) := by
  have hterm : CharArray.Terminates 512 payload := by
    right
    rw [List.take_of_length_le (by omega), hpayload]
    simp
  have htext := s.buf.text_store_memset hterm
  rw [hpayload, cstr_append_zero, cstr_of_nulFree (nulFree_decimal k), ← hpayload] at htext
  exact htext

/-! ## Any run -/

/-- What every run keeps: the client's counter is the number of datagrams sent, the server's is
one more than the number of those received, and its buffer holds the place of the last one. -/
structure Counted (x : State) : Prop where
  client : x.client.counter = x.sent
  server : x.server.counter = x.received.length + 1
  flying : ∀ d ∈ x.flying,
    d.payload.length = 512 ∧ ∃ tail, d.payload = decimal d.place ++ 0 :: tail
  buf : ∀ k, x.received.getLast? = some k → x.server.buf.text = some (decimal k)

variable {x y : State}

theorem Counted.send (H : Counted x) (h : next x .send = some y) : Counted y := by
  simp only [next] at h
  split at h
  · next hlt =>
    obtain ⟨c, payload, hsend, hcounter, hlen, hpayload⟩ := x.client.send_spec hlt
    rw [hsend, Option.map_some] at h
    obtain rfl := Option.some.inj h
    refine ⟨?_, H.server, ?_, H.buf⟩
    · rw [hcounter, H.client]
    · intro d hd
      cases List.mem_append.mp hd with
      | inl hd => exact H.flying d hd
      | inr hd =>
          rw [List.mem_singleton.mp hd, ← H.client]
          exact ⟨hlen, hpayload⟩
  · cases h

theorem Counted.recv (H : Counted x) {j : ℕ} (h : next x (.recv j) = some y) : Counted y := by
  simp only [next] at h
  split at h
  · obtain ⟨d, hd, rfl⟩ := Option.map_eq_some_iff.mp h
    obtain ⟨hlen, tail, hpayload⟩ := H.flying d (List.mem_of_getElem? hd)
    refine ⟨H.client, ?_, ?_, ?_⟩
    · rw [UDPFloodServer.receive, List.length_append, H.server]
      rfl
    · intro e he
      exact H.flying e (List.mem_of_mem_eraseIdx he)
    · intro k hk
      rw [List.getLast?_concat] at hk
      rw [← Option.some.inj hk]
      exact x.server.text_receive hlen hpayload
  · cases h

theorem Counted.lose (H : Counted x) {j : ℕ} (h : next x (.lose j) = some y) : Counted y := by
  simp only [next] at h
  split at h
  · obtain rfl := Option.some.inj h
    exact ⟨H.client, H.server, fun e he => H.flying e (List.mem_of_mem_eraseIdx he), H.buf⟩
  · cases h

theorem counted {tr : List (State × Label)} (h : system.Exec tr x) : Counted x := by
  refine h.invariant Counted (fun _ _ => True) ?_ ?_ (fun _ _ => trivial)
  · intro s hs
    refine ⟨?_, ?_, ?_, ?_⟩
    · rw [hs.client_eq, hs.sent_eq]
    · rw [hs.server_eq, hs.received_eq]
      rfl
    · rw [hs.flying_eq]
      simp
    · rw [hs.received_eq]
      simp
  · intro s a t _ H hstep
    cases a with
    | send => exact H.send hstep
    | recv j => exact H.recv hstep
    | lose j => exact H.lose hstep

end SocketPrograms.PacketLoss
