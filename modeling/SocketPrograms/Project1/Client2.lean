import SocketPrograms.Lib.Pair
import SocketPrograms.Lib.Stdio

/-!
# The client of Project1

`Client2.c` clears both of its 1024-byte arrays in every iteration, takes one token
from the keyboard, writes all 1024 bytes of `sendline` and prints what one read
returned.
-/

namespace SocketPrograms.Project1

/-- The client's memory, the input it has not read yet, and the texts it has printed
after `S: `. A text is `none` when `printf` ran past the array. -/
structure Client2 where
  sendline : CharArray 1024
  recvline : CharArray 1024
  stdin : List Byte
  printed : List (Option (List Byte))
  deriving DecidableEq

namespace Client2

/-- `(sendline[0]=='c') && ... && (sendline[4]=='e')`. -/
def closing (c : Client2) : Bool := c.sendline.bytes.take 5 = ascii "close"

/-- The iteration up to `write(client_fd, sendline, 1024)`: the token typed, and zeros. -/
def ask (c : Client2) : Option (Client2 × List Byte) := do
  let recvline := c.recvline.memset 1024
  let (sendline, stdin) ← scanf (c.sendline.memset 1024) c.stdin
  return ({ c with sendline, recvline, stdin }, sendline.bytes)

/-- The iteration after `read(client_fd, recvline, 1024)` returned these bytes:
`printf("S: %s", recvline)`. -/
def hear (c : Client2) (bytes : List Byte) : Client2 :=
  let recvline := c.recvline.store bytes
  { c with recvline, printed := c.printed ++ [recvline.text] }

/-- A client at its start: this input, nothing printed, and any memory. -/
structure Starts (stdin : List Byte) (c : Client2) : Prop where
  stdin_eq : c.stdin = stdin
  printed_eq : c.printed = []

/-- The names of the first `k` writes. -/
def names (k : ℕ) (stdin : List Byte) : List (List Byte) := pieces scanToken k stdin

/-- Every name fits the array. -/
def Fits (stdin : List Byte) : Prop := ∀ k, ∀ name ∈ names k stdin, name.length ≤ 1023

theorem ask_spec (c : Client2) (hlen : (scanToken c.stdin).1.length ≤ 1023) :
    ∃ c', ask c = some (c', padded 1024 (scanToken c.stdin).1) ∧
      c'.stdin = (scanToken c.stdin).2 ∧ c'.printed = c.printed ∧
      c'.recvline.bytes = padded 1024 [] := by
  obtain ⟨a, hscan, ha⟩ :=
    scanf_memset c.sendline (show (scanToken c.stdin).1.length < 1024 by omega)
  exact ⟨⟨a, c.recvline.memset 1024, (scanToken c.stdin).2, c.printed⟩,
    by simp [ask, hscan, ha], rfl, rfl, c.recvline.bytes_memset_of_le le_rfl⟩

/-- The client's history: `w` are its writes, `h` the results of its reads. -/
structure History (stdin : List Byte) (at_ : Pair.ClientAt) (c : Client2)
    (w h : List (List Byte)) : Prop where
  stdin_eq : c.stdin = unread scanToken w.length stdin
  wrote : w = (names w.length stdin).map (padded 1024)
  printed : c.printed = h.map fun bytes => textOf (padded 1024 bytes)
  cleared : at_ = .reading → c.recvline.bytes = padded 1024 []

/-- Each iteration writes the next name of the input as one record and prints one
read. -/
theorem history_inv {S W : Type} {recvMax : ℕ} {take : S → List Byte → Option S}
    {work : W → S → Option (S × List Byte)} {stdin : List Byte} (hfits : Fits stdin) :
    Pair.ClientInv (⟨closing, ask, 1024, hear, recvMax, take, work⟩ : Pair Client2 S W)
      (Starts stdin) (History stdin) where
  start := by
    intro c hc
    exact ⟨hc.stdin_eq, rfl, hc.printed_eq, by simp⟩
  leave := by
    intro c w h H _
    exact ⟨H.stdin_eq, H.wrote, H.printed, by simp⟩
  undefined := by
    intro c w h H _
    exact ⟨H.stdin_eq, H.wrote, H.printed, by simp⟩
  ask := by
    intro c c' bytes w h H _ hsome
    have hnames : names (w.length + 1) stdin =
        names w.length stdin ++ [(scanToken c.stdin).1] := by
      rw [names, pieces_succ, H.stdin_eq]
      rfl
    have hlen : (scanToken c.stdin).1.length ≤ 1023 := by
      apply hfits (w.length + 1)
      rw [hnames]
      simp
    obtain ⟨c₁, hask, hstdin, hprinted, hrecv⟩ := ask_spec c hlen
    obtain ⟨rfl, rfl⟩ : c₁ = c' ∧ padded 1024 (scanToken c.stdin).1 = bytes := by
      simpa using hask.symm.trans hsome
    refine ⟨?_, ?_, hprinted.trans H.printed, fun _ => hrecv⟩
    · rw [hstdin, H.stdin_eq, List.length_append, List.length_singleton, unread_succ]
    · rw [List.length_append, List.length_singleton, hnames, List.map_append, ← H.wrote]
      rfl
  read := by
    intro c bytes w h H _ hlen
    have hstore : (c.recvline.store bytes).bytes = padded 1024 bytes :=
      CharArray.bytes_store_padded (H.cleared rfl) hlen
    refine ⟨H.stdin_eq, H.wrote, ?_, by simp⟩
    simp [hear, CharArray.text, hstore, H.printed]

end Client2

end SocketPrograms.Project1
