import SocketPrograms.Chat.Broadcast
import SocketPrograms.Chat.TCPClient
import SocketPrograms.Lib.Framing

/-!
# The text the chat server forwards

The client ends each line with a NUL; the server ends each chunk it reads with another one
and forwards what comes before the first. A chunk in which a line follows the NUL of
another loses that line.

## Main results

* `forwarded_eq` — what is forwarded of a connection: the text of each chunk.
* `text_kept_iff` — no text of a client is lost exactly where no chunk has text behind a
  NUL.
-/

namespace SocketPrograms.Chat.TCPServer

variable {x : Server} {tr : List (Server × Input)}

/-- One event, for the connection on `fd`: the chunks read and the texts forwarded since
it was accepted. -/
def track (fd : ℕ) (chunks : List (List Byte × List Byte)) : Event → List (List Byte × List Byte)
  | .closed sd => if sd = fd then [] else chunks
  | .message sd bytes text _ _ => if sd = fd then chunks ++ [(bytes, text)] else chunks

/-- What was read from the connection on `fd`, chunk by chunk. -/
def readFrom (fd : ℕ) (tr : List (Server × Input)) : List (List Byte) :=
  ((events tr).foldl (track fd) []).map Prod.fst

/-- What was forwarded of the connection on `fd`. -/
def forwarded (fd : ℕ) (tr : List (Server × Input)) : List (List Byte) :=
  ((events tr).foldl (track fd) []).map Prod.snd

/-- A text forwarded of the connection is the text of its chunk. -/
theorem foldl_track_spec {fd : ℕ} {es : List Event} (hes : ∀ e ∈ es, e.Spec) :
    ∀ chunks : List (List Byte × List Byte), (∀ q ∈ chunks, q.2 = cstr q.1) →
      ∀ q ∈ es.foldl (track fd) chunks, q.2 = cstr q.1 := by
  induction es with
  | nil => intro chunks hchunks; exact hchunks
  | cons e es ih =>
      intro chunks hchunks
      apply ih (fun e' he' => hes e' (List.mem_cons_of_mem _ he'))
      cases e with
      | closed sd =>
          rw [track]
          split
          · simp
          · exact hchunks
      | message sd bytes text ts connected =>
          have htext : text = cstr bytes := (hes _ List.mem_cons_self).2.2.1
          rw [track]
          split
          · exact List.forall_mem_append.mpr ⟨hchunks, by simpa using htext⟩
          · exact hchunks

/-- **What is forwarded** is the text of each chunk. -/
theorem forwarded_eq (h : system.Exec tr x) (hinp : ∀ p ∈ tr, Allowed p.1 p.2) (fd : ℕ) :
    forwarded fd tr = (readFrom fd tr).map cstr := by
  rw [forwarded, readFrom, List.map_map]
  exact List.map_congr_left (foldl_track_spec (event_spec h hinp) [] (by simp))

/-- **No text of a client is lost exactly where no chunk read from it has text behind a
NUL.** The client has typed these lines, and the server has read this much of what it
wrote; what it read, without the NULs, is a prefix of the lines. -/
theorem text_kept_iff (lines : List (List Byte)) (hlines : ∀ l ∈ lines, IsLine 99 l)
    (c c' : LineClient 1000) (hc : c.stdin = lines.flatten) (reads wrote : List (List Byte))
    (hclient : TCPClient.run c reads = some (c', wrote)) (tr : List (Server × Input))
    (x : Server) (h : system.Exec tr x) (hinp : ∀ p ∈ tr, Allowed p.1 p.2) (fd : ℕ)
    (hstream : (readFrom fd tr).flatten <+: wrote.flatten) :
    ((forwarded fd tr).flatten = nonNul (readFrom fd tr).flatten ↔
        ∀ b ∈ readFrom fd tr, ZerosAfterText b) ∧
      nonNul (readFrom fd tr).flatten <+: lines.flatten := by
  constructor
  · rw [forwarded_eq h hinp]
    exact flatten_map_cstr_eq_iff _
  · have hwrote := TCPClient.run_spec reads c c' wrote hclient
    rw [hc, LineClient.texts_lines hlines] at hwrote
    have hfree : ∀ t ∈ (List.range wrote.length).map fun i => lines[i]?.getD [], NulFree t := by
      intro t ht
      obtain ⟨i, _, rfl⟩ := List.mem_map.mp ht
      cases hi : lines[i]? with
      | none => simp
      | some l => simpa using (hlines l (List.mem_of_getElem? hi)).nulFree
    have htext : nonNul wrote.flatten = (lines.take wrote.length).flatten := by
      rw [← flatten_map_getD, ← nonNul_terminated hfree, terminated, ← hwrote]
    have hread : nonNul (readFrom fd tr).flatten <+: nonNul wrote.flatten := hstream.filter _
    rw [htext] at hread
    exact hread.trans (List.take_prefix _ _).flatten

/-- Two short lines. -/
def twoLines : List (List Byte) := [ascii "hi\n", ascii "yo\n"]

theorem twoLines_isLine : ∀ l ∈ twoLines, IsLine 99 l := by decide

/-- A client that has typed them, after the welcome text and a message of another client. -/
theorem twoLines_written :
    ∃ c', TCPClient.run ⟨.fillWith 1000 0, .fillWith 1000 0, twoLines.flatten, []⟩
      [message, ascii "hello\n"] = some (c', [ascii "hi\n" ++ [0], ascii "yo\n" ++ [0]]) := by
  have hrun : (TCPClient.run ⟨.fillWith 1000 0, .fillWith 1000 0, twoLines.flatten, []⟩
      [message, ascii "hello\n"]).map Prod.snd =
      some [ascii "hi\n" ++ [0], ascii "yo\n" ++ [0]] := by decide +kernel
  obtain ⟨⟨c', wrote⟩, hclient, rfl⟩ := Option.map_eq_some_iff.mp hrun
  exact ⟨c', hclient⟩

/-- A run in which the client on 4 is read in these chunks, and what is forwarded. -/
theorem forwarded_run (chunks texts : List (List Byte))
    (hrun : (System.replay next atStart (connects 4 :: chunks.map (talks 4))).map
      (fun p => (readFrom 4 p.1, forwarded 4 p.1, decide (∀ q ∈ p.1, Allowed q.1 q.2))) =
        some (chunks, texts, true)) :
    ∃ tr x, system.Exec tr x ∧ (∀ p ∈ tr, Allowed p.1 p.2) ∧ readFrom 4 tr = chunks ∧
      forwarded 4 tr = texts := by
  obtain ⟨tr, x, hexec, hx⟩ := System.exec_of_replay atStart_starts hrun
  obtain ⟨hread, hrest⟩ := Prod.mk.inj hx
  obtain ⟨hforwarded, hallowed⟩ := Prod.mk.inj hrest
  exact ⟨tr, x, hexec, of_decide_eq_true hallowed, hread,
    hforwarded⟩

/-- The first line is read in two chunks, the second line in one. -/
theorem text_kept_iff_split :
    ∃ tr x, system.Exec tr x ∧
      (forwarded 4 tr).flatten = nonNul (readFrom 4 tr).flatten := by
  obtain ⟨c', hclient⟩ := twoLines_written
  obtain ⟨tr, x, hexec, hallowed, hread, _⟩ := forwarded_run
    ([ascii "h", ascii "i\n" ++ [0], ascii "yo\n" ++ [0]])
    ([ascii "h", ascii "i\n", ascii "yo\n"]) (by decide +kernel)
  refine ⟨tr, x, hexec, (text_kept_iff twoLines twoLines_isLine _ c' rfl _ _ hclient tr x hexec
    hallowed 4 ?_).1.mpr ?_⟩
  · rw [hread]
    exact ⟨[], rfl⟩
  · rw [hread]
    decide +kernel

/-- Both lines are read in one chunk: the second is forwarded to nobody. -/
theorem coalesced_line_lost :
    ¬ ∀ (lines : List (List Byte)), (∀ l ∈ lines, IsLine 99 l) →
      ∀ (c c' : LineClient 1000), c.stdin = lines.flatten →
      ∀ (reads wrote : List (List Byte)), TCPClient.run c reads = some (c', wrote) →
      ∀ (tr : List (Server × Input)) (x : Server), system.Exec tr x →
        (∀ p ∈ tr, Allowed p.1 p.2) →
        ∀ fd : ℕ, (readFrom fd tr).flatten <+: wrote.flatten →
          (forwarded fd tr).flatten = nonNul (readFrom fd tr).flatten := by
  intro hkept
  obtain ⟨c', hclient⟩ := twoLines_written
  obtain ⟨tr, x, hexec, hallowed, hread, hforwarded⟩ := forwarded_run
    ([ascii "hi\n" ++ 0 :: ascii "yo\n" ++ [0]])
    ([ascii "hi\n"]) (by decide +kernel)
  have htext := hkept twoLines twoLines_isLine _ c' rfl _ _ hclient tr x hexec hallowed 4
    (by rw [hread]; exact ⟨[], rfl⟩)
  rw [hread, hforwarded] at htext
  exact absurd htext (by decide)

end SocketPrograms.Chat.TCPServer
