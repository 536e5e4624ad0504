import SocketPrograms.ClosingWord

/-!
# The clients at the end of their input

Behind the end of the input `fgets` and `scanf` leave the cleared `sendline` as it is, and their
results are not looked at. The loops then go on with empty messages: only the word `"close"`
ends them.

## Main results

* `loops_stop_iff` — the inputs on which each of the four loops has finitely many iterations.
-/

namespace SocketPrograms.EndOfInput

/-- **Where the loops stop**, whatever the peer answers: where the memory of `sendline` begins
with `"close"` before the loop, or, in the clients of HW1 and HW2, some line has the word at a
multiple of 99 bytes from its start, or, in the clients of HW3 and Project1, some token begins
with it, and this one and those before it fit the array. -/
theorem loops_stop_iff (l : LineClient 100) (l' : LineClient 1000) (u : HW3.UDPClient)
    (c : Project1.Client2) :
    ((LineClient.loop 100).Stops l ↔ l.closing = true ∨
      ∃ line ∈ textLines l.stdin, ∃ k, BeginsClose (line.drop (99 * k))) ∧
    ((LineClient.loop 1000).Stops l' ↔ l'.closing = true ∨
      ∃ line ∈ textLines l'.stdin, ∃ k, BeginsClose (line.drop (99 * k))) ∧
    (HW3.UDPClient.loop.Stops u ↔ u.closing = true ∨
      ∃ k, BeginsClose (pieceAt scanToken k u.stdin) ∧
        ∀ j ≤ k, (pieceAt scanToken j u.stdin).length < 2048) ∧
    (Project1.Client2.loop.Stops c ↔ c.closing = true ∨
      ∃ k, BeginsClose (pieceAt scanToken k c.stdin) ∧
        ∀ j ≤ k, (pieceAt scanToken j c.stdin).length < 1024) := by
  refine ⟨?_, ?_, HW3.UDPClient.loop_reads.stops_iff u, Project1.Client2.loop_reads.stops_iff c⟩
  · rw [(LineClient.loop_reads le_rfl).stops_iff l, ← exists_pieceAt_iff]
    simp [LineClient.loop]
  · rw [(LineClient.loop_reads (by decide)).stops_iff l', ← exists_pieceAt_iff]
    simp [LineClient.loop]

/-- On an empty input, with zeroed memory, none of the four loops stops. -/
theorem empty_input_never_stops :
    ¬ (LineClient.loop 100).Stops ⟨.fillWith 100 0, .fillWith 100 0, [], []⟩ ∧
    ¬ (LineClient.loop 1000).Stops ⟨.fillWith 1000 0, .fillWith 1000 0, [], []⟩ ∧
    ¬ HW3.UDPClient.loop.Stops ⟨.fillWith 2048 0, .fillWith 2048 0, []⟩ ∧
    ¬ Project1.Client2.loop.Stops ⟨.fillWith 1024 0, .fillWith 1024 0, [], []⟩ := by
  have hline : ¬ ∃ k, BeginsClose (pieceAt (lineCut 99) k []) ∧
      ∀ j ≤ k, (fun _ => True) (pieceAt (lineCut 99) j []) := by
    simp [pieceAt_nil (lineCut 99) (lineCut_nil 99)]
  have htoken (n : ℕ) : ¬ ∃ k, BeginsClose (pieceAt scanToken k []) ∧
      ∀ j ≤ k, (pieceAt scanToken j []).length < n := by
    simp [pieceAt_nil scanToken scanToken_nil]
  refine ⟨?_, ?_, ?_, ?_⟩
  · rw [(LineClient.loop_reads le_rfl).stops_iff]
    exact not_or.mpr ⟨by decide +kernel, hline⟩
  · rw [(LineClient.loop_reads (by decide)).stops_iff]
    exact not_or.mpr ⟨by decide +kernel, hline⟩
  · rw [HW3.UDPClient.loop_reads.stops_iff]
    exact not_or.mpr ⟨by decide +kernel, htoken 2048⟩
  · rw [Project1.Client2.loop_reads.stops_iff]
    exact not_or.mpr ⟨by decide +kernel, htoken 1024⟩

end SocketPrograms.EndOfInput
