import SocketPrograms.LineClient

/-!
# The chat client

`TCPClient.c` runs the loop of the line clients in another order, on arrays of 1000 bytes:
it clears the first 100 bytes of both, reads and prints, and then writes one typed line
with its NUL.
-/

namespace SocketPrograms.Chat.TCPClient

/-- One iteration, in which `read(client_fd, recvline, 100)` returned these bytes: what is
written. -/
def iterate (c : LineClient 1000) (bytes : List Byte) :
    Option (LineClient 1000 × List Byte) := do
  let c ← (c.clear.hear bytes).typeLine
  let text ← c.sendline.text
  return (c, text ++ [0])

/-- The loop, on the results of its reads: the writes. It ends after `close` was typed. -/
def run : LineClient 1000 → List (List Byte) → Option (LineClient 1000 × List (List Byte))
  | c, [] => some (c, [])
  | c, bytes :: reads =>
      if c.closing then some (c, [])
      else do
        let (c, written) ← iterate c bytes
        let (c, wrote) ← run c reads
        return (c, written :: wrote)

/-- An iteration writes the next piece of the input, whatever it read. -/
theorem iterate_spec (c : LineClient 1000) (bytes : List Byte) :
    ∃ c', iterate c bytes = some (c', cstr (lineCut 99 c.stdin).1 ++ [0]) ∧
      c'.stdin = (lineCut 99 c.stdin).2 := by
  obtain ⟨c', htype, htext, hstdin, _⟩ :=
    LineClient.typeLine_spec (c := c.clear.hear bytes) (a := c.sendline) (by decide) rfl
  have hinput : (c.clear.hear bytes).stdin = c.stdin := rfl
  rw [hinput] at htext hstdin
  exact ⟨c', by simp only [iterate, htype, htext, Option.bind_eq_bind, Option.bind_some,
    Option.pure_def], hstdin⟩

/-- **The client writes** the pieces of its input, each as its text and a NUL. -/
theorem run_spec (reads : List (List Byte)) :
    ∀ (c c' : LineClient 1000) (wrote : List (List Byte)), run c reads = some (c', wrote) →
      wrote = (LineClient.texts wrote.length c.stdin).map (· ++ [0]) := by
  induction reads with
  | nil =>
      intro c c' wrote h
      obtain ⟨_, rfl⟩ : c = c' ∧ [] = wrote := by simpa [run] using h
      rfl
  | cons bytes reads ih =>
      intro c c' wrote h
      rw [run] at h
      split at h
      · obtain ⟨_, rfl⟩ : c = c' ∧ [] = wrote := by simpa using h
        rfl
      · obtain ⟨c₁, hiterate, hstdin⟩ := iterate_spec c bytes
        simp only [hiterate, Option.bind_eq_bind, Option.bind_some, Option.bind_eq_some_iff,
          Prod.exists, Option.pure_def, Option.some.injEq, Prod.mk.injEq] at h
        obtain ⟨c₂, wrote', hrun, rfl, rfl⟩ := h
        have hrest := ih c₁ c₂ wrote' hrun
        rw [hstdin] at hrest
        rw [List.length_cons, LineClient.texts, pieces_succ_eq_cons, List.map_cons, List.map_cons]
        congr 1

end SocketPrograms.Chat.TCPClient
