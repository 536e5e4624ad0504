import SocketPrograms.Lib.Stdio

/-!
# The buffers of the command servers

The TCP server of HW2 and the UDP server of HW4 keep the same three buffers, clear
them at the head of every pass, and assemble the reply with the same loop: `fgets`
is given the size of a pointer, so the output of the command is cut at every newline
and at every few bytes, and `strcat` joins the pieces again. They differ in the size
of the buffers.
-/

namespace SocketPrograms

/-- `rcvBuf`, `comBuf` and `sendBuf`, of `n` bytes each. -/
structure Buffers (n : ℕ) where
  rcvBuf : CharArray n
  comBuf : CharArray n
  sendBuf : CharArray n
  deriving DecidableEq

namespace Buffers

variable {n : ℕ}

/-- The three `memset` calls at the head of the loop. -/
def clear (b : Buffers n) : Buffers n :=
  ⟨b.rcvBuf.memset n, b.comBuf.memset n, b.sendBuf.memset n⟩

/-- The buffers after a request was received into the cleared `rcvBuf`. -/
def receive (b : Buffers n) (bytes : List Byte) : Buffers n :=
  { b.clear with rcvBuf := b.clear.rcvBuf.store bytes }

/-- `while (fgets(comBuf, sizeof fp, fp) != NULL) strcat(sendBuf, comBuf);` on the
output of a command. -/
def gatherOutput (sizeofFp : ℕ) (b : Buffers n) (output : List Byte) :
    Option (Buffers n) := do
  let (comBuf, sendBuf) ← gather sizeofFp b.comBuf b.sendBuf output
  return { b with comBuf, sendBuf }

/-- The received string, whatever the buffers held before. -/
theorem text_receive (b : Buffers n) {bytes : List Byte}
    (h : CharArray.Terminates n bytes) : (b.receive bytes).rcvBuf.text = some (cstr bytes) :=
  CharArray.text_store_memset b.rcvBuf h

@[simp] theorem sendBuf_receive (b : Buffers n) (bytes : List Byte) :
    (b.receive bytes).sendBuf.bytes = padded n [] :=
  b.sendBuf.bytes_memset_of_le le_rfl

/-- **The reply that is assembled**: what the loop appends and zeros, for every size of a
pointer that leaves `fgets` room for a byte and fits the buffer. -/
theorem gatherOutput_gathered {sizeofFp : ℕ} (h2 : 2 ≤ sizeofFp) (hn : sizeofFp ≤ n)
    (b : Buffers n) (bytes : List Byte) {output : List Byte}
    (hlen : (gathered sizeofFp output).length < n) :
    ∃ b', (b.receive bytes).gatherOutput sizeofFp output = some b' ∧
      b'.sendBuf.bytes = padded n (gathered sizeofFp output) := by
  obtain ⟨hfit, _⟩ := gather_padded h2 hn (b.receive bytes).comBuf output
    (b.sendBuf_receive bytes) nulFree_nil (show ([] : List Byte).length < n by simp; omega)
  obtain ⟨com, send, hgather, hsend⟩ := hfit (by simpa using hlen)
  refine ⟨_, by simp [gatherOutput, hgather]; rfl, ?_⟩
  simpa using hsend

/-- An output without NUL is sent whole. -/
theorem gatherOutput_receive {sizeofFp : ℕ} (h2 : 2 ≤ sizeofFp) (hn : sizeofFp ≤ n)
    (b : Buffers n) (bytes : List Byte) {output : List Byte} (hnul : NulFree output)
    (hlen : output.length < n) :
    ∃ b', (b.receive bytes).gatherOutput sizeofFp output = some b' ∧
      b'.sendBuf.bytes = padded n output := by
  have hsame : gathered sizeofFp output = output := gathered_of_nulFree h2 hnul
  have hreply := b.gatherOutput_gathered h2 hn bytes (hsame.symm ▸ hlen)
  rwa [hsame] at hreply

end Buffers

end SocketPrograms
