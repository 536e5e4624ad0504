import SocketPrograms.Lib.Stdio

/-!
# The UDP client of HW3

`UDPClient.c` takes one token from the keyboard in each iteration and sends all 2048 bytes
of `sendline` as one datagram. It reads nothing back.
-/

namespace SocketPrograms.HW3

/-- The client's memory, and the input it has not read yet. -/
structure UDPClient where
  sendline : CharArray 2048
  recvline : CharArray 2048
  stdin : List Byte
  deriving DecidableEq

namespace UDPClient

/-- `(sendline[0]=='c') && ... && (sendline[4]=='e')`. -/
def closing (c : UDPClient) : Bool := c.sendline.bytes.take 5 = ascii "close"

/-- One iteration: both arrays are cleared, a token is read, and `sendline` is sent. -/
def iterate (c : UDPClient) : Option (UDPClient × List Byte) := do
  let recvline := c.recvline.memset 2048
  let (sendline, stdin) ← scanf (c.sendline.memset 2048) c.stdin
  return (⟨sendline, recvline, stdin⟩, sendline.bytes)

/-- `k` iterations of the loop, fewer where it ends before: the datagrams sent. -/
def run : ℕ → UDPClient → Option (UDPClient × List (List Byte))
  | 0, c => some (c, [])
  | k + 1, c =>
      if c.closing then some (c, [])
      else do
        let (c, datagram) ← iterate c
        let (c, datagrams) ← run k c
        return (c, datagram :: datagrams)

/-- An iteration sends the next token and zeros. -/
theorem iterate_spec (c : UDPClient) (h : (scanToken c.stdin).1.length ≤ 2047) :
    ∃ c', iterate c = some (c', padded 2048 (scanToken c.stdin).1) ∧
      c'.stdin = (scanToken c.stdin).2 := by
  obtain ⟨a, hscan, ha⟩ :=
    scanf_memset c.sendline (show (scanToken c.stdin).1.length < 2048 by omega)
  exact ⟨⟨a, c.recvline.memset 2048, (scanToken c.stdin).2⟩, by simp [iterate, hscan, ha], rfl⟩

/-- **The client sends** the tokens of its input, each in a record of 2048 bytes. -/
theorem run_spec (k : ℕ) :
    ∀ (c c' : UDPClient) (sent : List (List Byte)),
      (∀ j, ∀ t ∈ pieces scanToken j c.stdin, t.length ≤ 2047) → run k c = some (c', sent) →
      sent = (pieces scanToken sent.length c.stdin).map (padded 2048) := by
  induction k with
  | zero =>
      intro c c' sent _ h
      obtain ⟨_, rfl⟩ : c = c' ∧ [] = sent := by simpa [run] using h
      rfl
  | succ k ih =>
      intro c c' sent hfits h
      rw [run] at h
      split at h
      · obtain ⟨_, rfl⟩ : c = c' ∧ [] = sent := by simpa using h
        rfl
      · have hfirst : (scanToken c.stdin).1.length ≤ 2047 :=
          hfits 1 _ (by simp [pieces_succ_eq_cons])
        obtain ⟨c₁, hiterate, hstdin⟩ := iterate_spec c hfirst
        simp only [hiterate, Option.bind_eq_bind, Option.bind_some, Option.bind_eq_some_iff,
          Prod.exists, Option.pure_def, Option.some.injEq, Prod.mk.injEq] at h
        obtain ⟨c₂, rest, hrun, rfl, rfl⟩ := h
        have hrest : ∀ j, ∀ t ∈ pieces scanToken j c₁.stdin, t.length ≤ 2047 := by
          intro j t ht
          apply hfits (j + 1)
          rw [pieces_succ_eq_cons, ← hstdin]
          exact List.mem_cons_of_mem _ ht
        have hsent := ih c₁ c₂ rest hrest hrun
        rw [hstdin] at hsent
        rw [List.length_cons, pieces_succ_eq_cons, List.map_cons]
        exact congrArg (padded 2048 (scanToken c.stdin).1 :: ·) hsent

end UDPClient

end SocketPrograms.HW3
