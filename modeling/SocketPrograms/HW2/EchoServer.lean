import SocketPrograms.CommandReply

/-!
# The command server of HW2

`EchoServer.cpp` accepts one connection after another. On a connection it treats
what one `recv` returns as one command, runs it with `popen` and sends the whole
1024-byte buffer that holds its output.
-/

namespace SocketPrograms.HW2.EchoServer

/-- The server's buffers, and what it has run so far. -/
structure Server where
  bufs : Buffers 1024
  /-- The strings given to `popen`. -/
  ran : List (List Byte)
  /-- What those commands printed, read to the end. -/
  outputs : List (List Byte)
  deriving DecidableEq

/-- From the head of the loop to `popen`: clear, receive, run. -/
def take (s : Server) (bytes : List Byte) : Option Server := do
  let bufs := s.bufs.receive bytes
  let command ← bufs.rcvBuf.text
  return { s with bufs, ran := s.ran ++ [command] }

/-- From the gather loop to `pclose`: the bytes sent are `sendBuf`, all of it. -/
def work (sizeofFp : ℕ) (output : List Byte) (s : Server) : Option (Server × List Byte) := do
  let bufs ← s.bufs.gatherOutput sizeofFp output
  return ({ s with bufs, outputs := s.outputs ++ [output] }, bufs.sendBuf.bytes)

/-- What one `recv` returns, and what the command it holds prints. -/
structure Request where
  bytes : List Byte
  output : List Byte

/-- A client: the descriptor `accept` returned for it, and its requests. -/
structure Connection where
  client_fd : ℕ
  requests : List Request

/-- The inner loop on one connection: the server, and the descriptor and buffer of
each `send`. A `recv` that returns no byte ends it. -/
def serve (sizeofFp client_fd : ℕ) :
    Server → List Request → Option (Server × List (ℕ × List Byte))
  | s, [] => some (s, [])
  | s, r :: rs =>
      if r.bytes = [] then some ({ s with bufs := s.bufs.clear }, [])
      else do
        let s ← take s r.bytes
        let (s, reply) ← work sizeofFp r.output s
        let (s, sends) ← serve sizeofFp client_fd s rs
        return (s, (client_fd, reply) :: sends)

/-- The outer loop on a sequence of connections. -/
def run (sizeofFp : ℕ) :
    Server → List Connection → Option (Server × List (ℕ × List Byte))
  | s, [] => some (s, [])
  | s, c :: cs => do
      let (s, sends) ← serve sizeofFp c.client_fd s c.requests
      let (s, sends') ← run sizeofFp s cs
      return (s, sends ++ sends')

/-- A request that leaves a NUL in the receive buffer, and an output that is a string
shorter than the send buffer. -/
structure Request.Fits (r : Request) : Prop where
  received : r.bytes ≠ []
  terminates : CharArray.Terminates 1024 r.bytes
  nulFree : NulFree r.output
  short : r.output.length < 1024

/-- The command run is the string the received bytes hold. -/
theorem take_spec (s : Server) {bytes : List Byte} (h : CharArray.Terminates 1024 bytes) :
    take s bytes =
      some { s with bufs := s.bufs.receive bytes, ran := s.ran ++ [cstr bytes] } := by
  simp [take, s.bufs.text_receive h]

/-- `popen` is given a string of the message exactly where this leaves a NUL in the buffer. -/
theorem take_holdsText_iff (s : Server) (bytes : List Byte) :
    (∃ s', take s bytes = some s' ∧ s'.bufs.rcvBuf.HoldsText bytes) ↔
      CharArray.Terminates 1024 bytes := by
  have hiff := s.bufs.rcvBuf.holdsText_store_memset_iff bytes
  constructor
  · rintro ⟨s', htake, hholds⟩
    obtain ⟨command, _, hsome⟩ := Option.bind_eq_some_iff.mp htake
    obtain rfl := Option.some.inj hsome
    exact hiff.mp hholds
  · intro hterm
    exact ⟨_, take_spec s hterm, hiff.mpr hterm⟩

/-- A `recv` hands `popen` the string in the bytes it returned, unless no NUL is in the
buffer. -/
theorem take_cases {s : Server} {bytes : List Byte} (hlen : bytes.length ≤ 1024) :
    take s bytes = some { s with bufs := s.bufs.receive bytes, ran := s.ran ++ [cstr bytes] } ∨
      take s bytes = none ∧ NulFree bytes := by
  have hbuf : (s.bufs.receive bytes).rcvBuf.bytes = padded 1024 bytes :=
    CharArray.bytes_store_padded (s.bufs.rcvBuf.bytes_memset_of_le le_rfl) hlen
  rcases textOf_padded 1024 bytes with htext | ⟨htext, hfree⟩
  · left
    simp [take, CharArray.text, hbuf, htext]
  · right
    exact ⟨by simp [take, CharArray.text, hbuf, htext], hfree⟩

theorem take_eq_some {s s' : Server} {bytes : List Byte} (hlen : bytes.length ≤ 1024)
    (h : take s bytes = some s') :
    s' = { s with bufs := s.bufs.receive bytes, ran := s.ran ++ [cstr bytes] } := by
  rcases take_cases hlen with htake | ⟨htake, _⟩
  · exact Option.some.inj (h.symm.trans htake)
  · exact absurd (h.symm.trans htake) (by simp)

section Reply

variable {sizeofFp : ℕ}

/-- The buffer sent after a request is the output of its command and zeros. -/
theorem work_spec (h2 : 2 ≤ sizeofFp) (hn : sizeofFp ≤ 1024) (s : Server) (bytes : List Byte)
    {output : List Byte} (hnul : NulFree output) (hlen : output.length < 1024) :
    ∃ s', work sizeofFp output { s with bufs := s.bufs.receive bytes } =
        some (s', padded 1024 output) ∧
      s'.ran = s.ran ∧ s'.outputs = s.outputs ++ [output] := by
  obtain ⟨b', hgather, hsend⟩ := s.bufs.gatherOutput_receive h2 hn bytes hnul hlen
  exact ⟨{ s with bufs := b', outputs := s.outputs ++ [output] },
    by simp [work, hgather, hsend], rfl, rfl⟩

/-- One connection, from any server: its replies are its outputs, in order. -/
theorem serve_spec (h2 : 2 ≤ sizeofFp) (hn : sizeofFp ≤ 1024) (client_fd : ℕ)
    (rs : List Request) :
    ∀ (s : Server), (∀ r ∈ rs, r.Fits) →
      ∃ s', serve sizeofFp client_fd s rs =
          some (s', rs.map fun r => (client_fd, padded 1024 r.output)) ∧
        s'.ran = s.ran ++ rs.map (fun r => cstr r.bytes) := by
  induction rs with
  | nil => intro s _; exact ⟨s, rfl, by simp⟩
  | cons r rs ih =>
      intro s hfits
      have hr : r.Fits := hfits r (by simp)
      obtain ⟨s₁, hwork, hran, _⟩ :=
        work_spec h2 hn { s with ran := s.ran ++ [cstr r.bytes] } r.bytes hr.nulFree hr.short
      obtain ⟨s₂, hserve, hran₂⟩ := ih s₁ (fun q hq => hfits q (List.mem_cons_of_mem _ hq))
      refine ⟨s₂, ?_, ?_⟩
      · simp [serve, hr.received, take_spec s hr.terminates, hwork, hserve]
      · simp [hran₂, hran]

/-- A sequence of connections: each reply goes to the descriptor of its request. -/
theorem run_spec (h2 : 2 ≤ sizeofFp) (hn : sizeofFp ≤ 1024) (cs : List Connection) :
    ∀ (s : Server), (∀ c ∈ cs, ∀ r ∈ c.requests, r.Fits) →
      ∃ s', run sizeofFp s cs =
          some (s', cs.flatMap fun c =>
            c.requests.map fun r => (c.client_fd, padded 1024 r.output)) ∧
        s'.ran = s.ran ++ cs.flatMap fun c => c.requests.map fun r => cstr r.bytes := by
  induction cs with
  | nil => intro s _; exact ⟨s, rfl, by simp⟩
  | cons c cs ih =>
      intro s hfits
      obtain ⟨s₁, hserve, hran⟩ :=
        serve_spec h2 hn c.client_fd c.requests s (hfits c (by simp))
      obtain ⟨s₂, hrun, hran₂⟩ := ih s₁ (fun d hd => hfits d (List.mem_cons_of_mem _ hd))
      refine ⟨s₂, ?_, ?_⟩
      · simp [run, hserve, hrun]
      · simp [hran₂, hran]

end Reply

end SocketPrograms.HW2.EchoServer
