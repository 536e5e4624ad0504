import SocketPrograms.CommandReply

/-!
# The date server of HW4

The UDP server receives a datagram, runs it as a command when it starts with `date`
and refuses it otherwise, and answers the address it came from with the whole
512-byte buffer.
-/

namespace SocketPrograms.HW4.DateServer

/-- The server's buffers, and the strings it has given to `popen`. -/
structure Server where
  bufs : Buffers 512
  ran : List (List Byte)
  deriving DecidableEq

/-- The text of the refusal. -/
def refusal : List Byte := ascii "Sorry, unacceptable command. Please use the date command\n"

/-- `rcvBuf[0] == 'd' && rcvBuf[1] == 'a' && rcvBuf[2] == 't' && rcvBuf[3] == 'e'`. -/
def isDate (bytes : List Byte) : Bool := bytes.take 4 = ascii "date"

/-- The head of the loop: clear and receive. A datagram longer than the buffer is
cut. -/
def take (s : Server) (payload : List Byte) : Server :=
  { s with bufs := s.bufs.receive payload }

/-- The rest of the pass, given what the command prints: the bytes sent. -/
def work (sizeofFp : ℕ) (output : List Byte) (s : Server) : Option (Server × List Byte) :=
  if isDate s.bufs.rcvBuf.bytes then do
    let command ← s.bufs.rcvBuf.text
    let bufs ← s.bufs.gatherOutput sizeofFp output
    return ({ bufs, ran := s.ran ++ [command] }, bufs.sendBuf.bytes)
  else do
    let sendBuf ← s.bufs.sendBuf.strcpy refusal
    return ({ s with bufs := { s.bufs with sendBuf } }, sendBuf.bytes)

/-- A datagram: the address it came from, its bytes, and what the command it holds
would print. -/
structure Request (Addr : Type) where
  cli_addr : Addr
  payload : List Byte
  output : List Byte

/-- The loop on a sequence of datagrams: the server, and the address and buffer of
each `sendto`. -/
def run {Addr : Type} (sizeofFp : ℕ) :
    Server → List (Request Addr) → Option (Server × List (Addr × List Byte))
  | s, [] => some (s, [])
  | s, r :: rs => do
      let (s, reply) ← work sizeofFp r.output (take s r.payload)
      let (s, sends) ← run sizeofFp s rs
      return (s, (r.cli_addr, reply) :: sends)

/-- The datagrams that `recvfrom` returned in the loop, each with the buffer it left. The loop
stops where C leaves it undefined. -/
def received {Addr : Type} (sizeofFp : ℕ) :
    Server → List (Request Addr) → List (List Byte × CharArray 512)
  | _, [] => []
  | s, r :: rs =>
      (r.payload, (take s r.payload).bufs.rcvBuf) ::
        match work sizeofFp r.output (take s r.payload) with
        | none => []
        | some (s, _) => received sizeofFp s rs

/-- What the server is for: the command's output when the request starts with `date`,
else the refusal. -/
def answer (command output : List Byte) : List Byte :=
  if isDate command then output else refusal

/-- The commands a request makes the server run. -/
def commands (command : List Byte) : List (List Byte) :=
  if isDate command then [command] else []

/-- A request that leaves a NUL in the receive buffer, and an output that is a string
shorter than the send buffer. -/
structure Request.Fits {Addr : Type} (r : Request Addr) : Prop where
  terminates : CharArray.Terminates 512 r.payload
  nulFree : NulFree r.output
  short : r.output.length < 512

theorem nulFree_refusal : NulFree refusal := by decide

theorem length_refusal_lt : refusal.length < 512 := by decide

/-- The four tests never look past a terminator: no NUL is in `date`. -/
theorem isDate_cstr (bytes : List Byte) : isDate (cstr bytes) = isDate bytes := by
  have hdate : NulFree (ascii "date") := by decide
  have hlen : (ascii "date").length = 4 := by decide
  have key : (cstr bytes).take 4 = ascii "date" ↔ bytes.take 4 = ascii "date" := by
    constructor
    · intro h
      have h4 : 4 ≤ (cstr bytes).length := by
        have := congrArg List.length h
        rw [List.length_take, hlen] at this
        omega
      obtain ⟨t, ht⟩ := cstr_isPrefix bytes
      rw [← ht, List.take_append_of_le_length h4, h]
    · intro h
      rw [← List.take_append_drop 4 bytes, h, cstr_append hdate,
        List.take_append_of_le_length (by omega), ← hlen, List.take_length]
  simp only [isDate, key]

/-- The four tests see the first bytes of the datagram, or the zeros behind a short one. -/
theorem isDate_receive (s : Server) (payload : List Byte) :
    isDate (take s payload).bufs.rcvBuf.bytes = isDate payload := by
  have hclear : (s.bufs.rcvBuf.memset 512).bytes = padded 512 [] :=
    s.bufs.rcvBuf.bytes_memset_of_le le_rfl
  have hbytes : (take s payload).bufs.rcvBuf.bytes =
      ((s.bufs.rcvBuf.memset 512).store payload).bytes := rfl
  by_cases hlen : payload.length ≤ 512
  · rw [hbytes, CharArray.bytes_store_padded hclear hlen, ← isDate_cstr, cstr_padded,
      isDate_cstr]
  · rw [hbytes, CharArray.bytes_store_of_le _ (by omega), isDate, isDate, List.take_take]
    rfl

/-- What `recvfrom` returned is in the buffer, which was cleared before. -/
theorem received_eq {Addr : Type} {sizeofFp : ℕ} {rs : List (Request Addr)} :
    ∀ {s : Server}, ∀ p ∈ received sizeofFp s rs, ∃ s', p.2 = (take s' p.1).bufs.rcvBuf := by
  induction rs with
  | nil => simp [received]
  | cons r rs ih =>
      intro s p hp
      rw [received] at hp
      rcases List.mem_cons.mp hp with rfl | hp
      · exact ⟨s, rfl⟩
      · split at hp
        · cases hp
        · exact ih p hp

section Reply

variable {sizeofFp : ℕ}

/-- What one pass sends and runs, from any server: both depend on the string in the
datagram and on what the loop gathers of the output only. -/
theorem work_take_gathered (h2 : 2 ≤ sizeofFp) (hn : sizeofFp ≤ 512) (s : Server)
    {payload output : List Byte} (hterm : CharArray.Terminates 512 payload)
    (hlen : isDate (cstr payload) → (gathered sizeofFp output).length < 512) :
    ∃ s', work sizeofFp output (take s payload) =
        some (s', padded 512 (answer (cstr payload) (gathered sizeofFp output))) ∧
      s'.ran = s.ran ++ commands (cstr payload) := by
  have htext := s.bufs.text_receive hterm
  have hbytes : isDate (s.bufs.receive payload).rcvBuf.bytes = isDate (cstr payload) := by
    have hcstr : cstr (s.bufs.receive payload).rcvBuf.bytes = cstr payload := by
      rw [CharArray.text, textOf] at htext
      split at htext
      · simpa using htext
      · cases htext
    rw [← isDate_cstr, hcstr]
  by_cases hdate : isDate (cstr payload) = true
  · obtain ⟨b', hgather, hsend⟩ := s.bufs.gatherOutput_gathered h2 hn payload (hlen hdate)
    refine ⟨⟨b', s.ran ++ [cstr payload]⟩, ?_, by simp [commands, hdate]⟩
    simp [work, take, hbytes, hdate, htext, hgather, hsend, answer]
  · obtain ⟨b', hcpy, hsend⟩ :=
      CharArray.strcpy_padded (s.bufs.sendBuf_receive payload) length_refusal_lt
    refine ⟨{ s with bufs := { s.bufs.receive payload with sendBuf := b' } }, ?_,
      by simp [commands, hdate]⟩
    simp [work, take, hbytes, hdate, hcpy, hsend, answer]

/-- An output without NUL is sent whole. -/
theorem work_take (h2 : 2 ≤ sizeofFp) (hn : sizeofFp ≤ 512) (s : Server)
    {payload output : List Byte} (hterm : CharArray.Terminates 512 payload)
    (hnul : NulFree output) (hlen : output.length < 512) :
    ∃ s', work sizeofFp output (take s payload) =
        some (s', padded 512 (answer (cstr payload) output)) ∧
      s'.ran = s.ran ++ commands (cstr payload) := by
  have hsame : gathered sizeofFp output = output := gathered_of_nulFree h2 hnul
  have hreply := work_take_gathered h2 hn s hterm fun _ => hsame.symm ▸ hlen
  rwa [hsame] at hreply

/-- A sequence of datagrams: each reply goes to the address of its request. -/
theorem run_spec {Addr : Type} (h2 : 2 ≤ sizeofFp) (hn : sizeofFp ≤ 512)
    (rs : List (Request Addr)) :
    ∀ (s : Server), (∀ r ∈ rs, r.Fits) →
      ∃ s', run sizeofFp s rs =
          some (s', rs.map fun r =>
            (r.cli_addr, padded 512 (answer (cstr r.payload) r.output))) ∧
        s'.ran = s.ran ++ rs.flatMap fun r => commands (cstr r.payload) := by
  induction rs with
  | nil => intro s _; exact ⟨s, rfl, by simp⟩
  | cons r rs ih =>
      intro s hfits
      have hr : r.Fits := hfits r (by simp)
      obtain ⟨s₁, hwork, hran⟩ := work_take h2 hn s hr.terminates hr.nulFree hr.short
      obtain ⟨s₂, hrun, hran₂⟩ := ih s₁ (fun q hq => hfits q (List.mem_cons_of_mem _ hq))
      refine ⟨s₂, ?_, ?_⟩
      · simp [run, hwork, hrun]
      · simp [hran₂, hran]

end Reply

end SocketPrograms.HW4.DateServer
