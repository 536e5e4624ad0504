import SocketPrograms.Lib.CharArray

/-!
# The UDP server of HW3

`UDPServer.c` clears its buffer of 512 bytes, receives a datagram into it, and prints the
buffer as a string. A longer datagram is cut.
-/

namespace SocketPrograms.HW3

/-- The server's buffer. -/
structure UDPServer where
  buf : CharArray 512
  deriving DecidableEq

namespace UDPServer

/-- `memset(buf, 0, BUFLEN); recvfrom(sockfd, buf, BUFLEN, ...)`. -/
def receive (s : UDPServer) (payload : List Byte) : UDPServer :=
  ⟨(s.buf.memset 512).store payload⟩

/-- The loop on a sequence of datagrams: what is printed behind `Data: `. A text is `none`
where `printf` runs past the buffer. -/
def run : UDPServer → List (List Byte) → UDPServer × List (Option (List Byte))
  | s, [] => (s, [])
  | s, payload :: payloads =>
      let s := receive s payload
      let (s', texts) := run s payloads
      (s', s.buf.text :: texts)

/-- The datagrams that `recvfrom` returned in the loop, each with the buffer it left. -/
def received : UDPServer → List (List Byte) → List (List Byte × CharArray 512)
  | _, [] => []
  | s, payload :: payloads =>
      (payload, (receive s payload).buf) :: received (receive s payload) payloads

/-- What is printed for a datagram, whatever came before it. -/
theorem text_receive (s : UDPServer) {payload : List Byte}
    (h : CharArray.Terminates 512 payload) :
    (receive s payload).buf.text = some (cstr payload) :=
  s.buf.text_store_memset h

/-- **The texts printed** depend on the datagrams only, each on its own. -/
theorem run_texts (s s' : UDPServer) (payloads : List (List Byte)) :
    (run s payloads).2 = payloads.map fun payload => (receive s' payload).buf.text := by
  have htext (s : UDPServer) (payload : List Byte) :
      (receive s payload).buf.text = (receive s' payload).buf.text := by
    by_cases h : CharArray.Terminates 512 payload
    · rw [text_receive s h, text_receive s' h]
    · exact ((s.buf.memset 512).text_store_of_not_terminates h).trans
        ((s'.buf.memset 512).text_store_of_not_terminates h).symm
  induction payloads generalizing s with
  | nil => rfl
  | cons payload payloads ih => simp only [run, List.map_cons, ih, htext s payload]

/-- What `recvfrom` returned is in the buffer, which was cleared before. -/
theorem received_eq {payloads : List (List Byte)} :
    ∀ {s : UDPServer}, ∀ p ∈ received s payloads, ∃ s', p.2 = (receive s' p.1).buf := by
  induction payloads with
  | nil => simp [received]
  | cons payload payloads ih =>
      intro s p hp
      rcases List.mem_cons.mp hp with rfl | hp
      · exact ⟨s, rfl⟩
      · exact ih p hp

end UDPServer

end SocketPrograms.HW3
