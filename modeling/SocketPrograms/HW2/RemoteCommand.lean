import SocketPrograms.HW2.EchoServer
import SocketPrograms.LineClient

/-!
# The remote-command pair of HW2

`EchoClient.cpp` against `EchoServer.cpp` on one connection. The client ends each
line with a NUL and the server runs whatever one `recv` returns, so the commands run
are the lines typed only where TCP keeps the writes apart.

## Main results

* `served` — in every run, each `popen` is one `recv`.
* `runs_lines_iff` — the commands run are the lines typed exactly where every `recv`
  returns one whole write.
-/

namespace SocketPrograms.HW2.RemoteCommand

/-- The client and the server on one connection. What a step of the server's work
depends on is the output of the command. -/
def pair (sizeofFp : ℕ) : Pair (LineClient 1000) EchoServer.Server (List Byte) :=
  LineClient.pair 1000 1024 EchoServer.take (EchoServer.work sizeofFp)

/-- A server that has run nothing yet, with any memory. -/
def Fresh (s : EchoServer.Server) : Prop := s.ran = [] ∧ s.outputs = []

/-- The pair, for a client with this input and `tail` in `recvline[100..]`. -/
def system (sizeofFp : ℕ) (stdin tail : List Byte) :
    System (Pair.State (LineClient 1000) EchoServer.Server) (Pair.Label (List Byte)) :=
  (pair sizeofFp).system (LineClient.Starts stdin tail) Fresh

variable {sizeofFp : ℕ} {stdin tail : List Byte}
  {tr : List (Pair.State (LineClient 1000) EchoServer.Server × Pair.Label (List Byte))}
  {x : Pair.State (LineClient 1000) EchoServer.Server}

/-! ## The commands run -/

/-- The server's history: `r` are the results of its `recv` calls, `t` its sends. Only a
`recv` without a NUL is not handed to `popen` as its text. -/
structure Served (at_ : Pair.ServerAt) (s : EchoServer.Server) (r t : List (List Byte)) :
    Prop where
  ran : s.ran <+: r.map cstr
  current : at_ ≠ .undefined → s.ran = r.map cstr
  unterminated : s.ran = r.map cstr ∨ ∃ b ∈ r, NulFree b

theorem served_inv (Ok : List Byte → Prop) :
    Pair.ServerInv (pair sizeofFp) Fresh Ok Served where
  start := by
    intro s hs
    exact ⟨by simp [hs.1], by simp [hs.1], by simp [hs.1]⟩
  take_none := by
    intro s bytes r t H _ hlen hnone
    have hfree : NulFree bytes := by
      rcases EchoServer.take_cases hlen with htake | ⟨_, hfree⟩
      · exact absurd (hnone.symm.trans htake) (by simp)
      · exact hfree
    refine ⟨?_, by simp, .inr ⟨bytes, by simp, hfree⟩⟩
    rw [List.map_append]
    exact H.ran.trans (List.prefix_append _ _)
  take_some := by
    intro s s' bytes r t H _ hlen htake
    obtain rfl := EchoServer.take_eq_some hlen htake
    have hran : s.ran ++ [cstr bytes] = (r ++ [bytes]).map cstr := by
      rw [H.current (by simp), List.map_append]
      rfl
    exact ⟨hran ▸ List.prefix_rfl, fun _ => hran, .inl hran⟩
  work_none := by
    intro s w r t H _ _
    exact ⟨H.ran, by simp, H.unterminated⟩
  work_some := by
    intro s s' w bytes r t H _ hwork
    have hran : s'.ran = r.map cstr := by
      obtain ⟨b, _, hb⟩ := Option.bind_eq_some_iff.mp hwork
      simp only [Option.pure_def, Option.some.injEq, Prod.mk.injEq] at hb
      rw [← hb.1, ← H.current (by simp)]
    exact ⟨hran ▸ List.prefix_rfl, fun _ => hran, .inl hran⟩

theorem served (h : (system sizeofFp stdin tail).Exec tr x) :
    Served x.serverAt x.server x.recvd x.sent :=
  Pair.server_rule (served_inv fun _ => True) h (fun _ _ _ _ => trivial)

/-- The client's writes are texts without NUL, each with its terminator. -/
theorem wrote_eq (h : (system sizeofFp stdin tail).Exec tr x) :
    x.wrote.map cstr = LineClient.texts x.wrote.length stdin ∧
      x.wrote = (x.wrote.map cstr).map (· ++ [0]) :=
  (Pair.client_rule (LineClient.history_inv (by decide) stdin tail) h).wrote_eq

/-- What the server is to run: the lines written, in order, and no byte of a line that
it received is outside of a line it ran whole. -/
structure RunsLines (x : Pair.State (LineClient 1000) EchoServer.Server) : Prop where
  isPrefix : x.server.ran <+: x.wrote.map cstr
  bytes : x.recvd.flatten = (x.server.ran.map (· ++ [0])).flatten

theorem runsLines_of_whole (h : (system sizeofFp stdin tail).Exec tr x)
    (hwhole : ∀ p ∈ tr, Pair.WholeRecv p.1 p.2) : RunsLines x := by
  have hprefix : x.recvd <+: x.wrote := Pair.recvd_isPrefix h hwhole
  have hmem : ∀ b ∈ x.recvd, b = cstr b ++ [0] := by
    intro b hb
    have hb' : b ∈ (x.wrote.map cstr).map (· ++ [0]) := (wrote_eq h).2 ▸ hprefix.subset hb
    obtain ⟨t, ht, rfl⟩ := List.mem_map.mp hb'
    obtain ⟨w, _, rfl⟩ := List.mem_map.mp ht
    rw [cstr_append_zero, cstr_of_nulFree (nulFree_cstr w)]
  have hran : x.server.ran = x.recvd.map cstr := by
    rcases (served h).unterminated with hran | ⟨b, hb, hfree⟩
    · exact hran
    · rw [hmem b hb] at hfree
      simp at hfree
  refine ⟨hran ▸ hprefix.map cstr, ?_⟩
  rw [hran, List.map_map]
  congr 1
  exact ((List.map_congr_left fun b hb => (hmem b hb).symm).trans (List.map_id _)).symm

/-- A `recv` after which the lines run are still right returned one whole write. -/
theorem wholeRecv_of_runsLines {y : Pair.State (LineClient 1000) EchoServer.Server}
    {a : Pair.Label (List Byte)} (h : (system sizeofFp stdin tail).Exec tr x)
    (hx : RunsLines x) (hstep : (pair sizeofFp).next x a = some y) (hy : RunsLines y) :
    Pair.WholeRecv x a := by
  cases a with
  | ask => trivial
  | read n => trivial
  | send w => trivial
  | recv n =>
      obtain ⟨hat, h1, hmax, hn, hcases⟩ := Pair.recv_cases hstep
      have hne : x.up.take n ≠ [] := Pair.take_ne_nil h1 hn
      have hran : x.server.ran = x.recvd.map cstr := (served h).current (by simp [hat])
      rcases hcases with ⟨_, rfl⟩ | ⟨s, htake, rfl⟩
      · -- nothing was run for these bytes
        have hbytes := hy.bytes
        rw [List.flatten_append, hx.bytes] at hbytes
        exact absurd (by simpa using hbytes) hne
      · have hlen : (x.up.take n).length ≤ 1024 := by
          have : n ≤ 1024 := hmax
          rw [List.length_take]
          omega
        obtain rfl := EchoServer.take_eq_some hlen htake
        have hbytes : x.up.take n = cstr (x.up.take n) ++ [0] := by
          have := hy.bytes
          rw [List.flatten_append, hx.bytes, List.map_append, List.flatten_append] at this
          simpa using this
        have hline : (x.wrote.map cstr)[x.recvd.length]? = some (cstr (x.up.take n)) := by
          obtain ⟨rest, hrest⟩ := hy.isPrefix
          rw [← hrest]
          simp [hran]
        rw [Pair.WholeRecv, (wrote_eq h).2, List.getElem?_map, hline, Option.map_some, ← hbytes]

/-- Four short commands. -/
def fourLines : List (List Byte) := [ascii "ls\n", ascii "id\n", ascii "pwd\n", ascii "who\n"]

theorem fourLines_isLine : ∀ l ∈ fourLines, IsLine 99 l := by decide

/-- A pair at its start, with zeroed memory. -/
def zeroed (stdin : List Byte) : Pair.State (LineClient 1000) EchoServer.Server :=
  .initial ⟨.fillWith 1000 0, .fillWith 1000 0, stdin, []⟩
    ⟨⟨.fillWith 1024 0, .fillWith 1024 0, .fillWith 1024 0⟩, [], []⟩

theorem zeroed_init (sizeofFp : ℕ) (stdin : List Byte) :
    (system sizeofFp stdin (List.replicate 900 0)).init (zeroed stdin) :=
  ⟨_, _, ⟨rfl, rfl, List.drop_replicate⟩, ⟨rfl, rfl⟩, rfl⟩

/-- **The commands run are at all times a prefix of the lines written, none dropped,
split or merged, exactly where every `recv` returned one whole write.** The lines
written are the lines typed. -/
theorem runs_lines_iff (sizeofFp : ℕ) (lines : List (List Byte)) (tail : List Byte)
    (hlines : ∀ l ∈ lines, IsLine 99 l)
    (tr : List (Pair.State (LineClient 1000) EchoServer.Server × Pair.Label (List Byte)))
    (x : Pair.State (LineClient 1000) EchoServer.Server)
    (h : (system sizeofFp lines.flatten tail).Exec tr x) :
    ((∀ y ∈ System.visited tr x, RunsLines y) ↔ ∀ p ∈ tr, Pair.WholeRecv p.1 p.2) ∧
      ∀ y ∈ System.visited tr x,
        y.wrote.map cstr = (List.range y.wrote.length).map fun i => lines[i]?.getD [] := by
  refine ⟨⟨?_, ?_⟩, ?_⟩
  · induction h with
    | start _ => simp
    | @snoc tr x y a hr hst ih =>
        intro hall p hp
        obtain ⟨hpast, hy⟩ := System.forall_visited_snoc.mp hall
        rcases List.mem_append.mp hp with hp | hp
        · exact ih hpast p hp
        · rw [List.mem_singleton.mp hp]
          exact wholeRecv_of_runsLines hr (hpast x (by simp)) hst hy
  · intro hwhole y hy
    obtain ⟨tr', hpre, h'⟩ := h.exec_of_mem_visited y hy
    exact runsLines_of_whole h' fun p hp => hwhole p (hpre.subset hp)
  · intro y hy
    obtain ⟨tr', _, h'⟩ := h.exec_of_mem_visited y hy
    exact (wrote_eq h').1.trans (LineClient.texts_lines hlines _)

/-- Two commands, each received whole. -/
theorem runs_lines_iff_two :
    ∃ tr x, (system 8 fourLines.flatten (List.replicate 900 0)).Exec tr x ∧
      x.server.ran = [ascii "ls\n", ascii "id\n"] ∧
      ∀ y ∈ System.visited tr x, RunsLines y := by
  have hrun : (System.replay (pair 8).next (zeroed fourLines.flatten)
      [.ask, .recv 4, .send (ascii "notes\n"), .read 100, .ask, .recv 4]).map
        (fun p => (p.2.server.ran, decide (∀ q ∈ p.1, Pair.WholeRecv q.1 q.2))) =
      some ([ascii "ls\n", ascii "id\n"], true) := by decide +kernel
  obtain ⟨tr, x, hexec, hx⟩ := System.exec_of_replay (zeroed_init 8 fourLines.flatten) hrun
  obtain ⟨hran, hwhole⟩ := Prod.mk.inj hx
  exact ⟨tr, x, hexec, hran,
    (runs_lines_iff 8 fourLines _ fourLines_isLine tr x hexec).1.mpr (of_decide_eq_true hwhole)⟩

/-- After one answered command the client reads the rest of that reply twice without
waiting, so two commands wait for one `recv`: the second of them is never run. -/
theorem merged_command_dropped :
    ¬ ∀ (sizeofFp : ℕ) (lines : List (List Byte)) (tail : List Byte),
      (∀ l ∈ lines, IsLine 99 l) →
      ∀ (tr : List (Pair.State (LineClient 1000) EchoServer.Server × Pair.Label (List Byte)))
        (x : Pair.State (LineClient 1000) EchoServer.Server),
        (system sizeofFp lines.flatten tail).Exec tr x →
        ∀ y ∈ System.visited tr x, y.server.ran <+: y.wrote.map cstr := by
  intro hcarried
  have hrun : (System.replay (pair 8).next (zeroed fourLines.flatten)
      [.ask, .recv 4, .send (ascii "notes\n"), .read 100, .ask, .read 100, .ask, .read 100,
        .recv 9, .send (ascii "uid=1000\n"), .ask, .recv 5]).map
        (fun p => (p.2.server.ran, p.2.wrote.map cstr)) =
      some ([ascii "ls\n", ascii "id\n", ascii "who\n"], fourLines) := by decide +kernel
  obtain ⟨tr, x, hexec, hx⟩ := System.exec_of_replay (zeroed_init 8 fourLines.flatten) hrun
  obtain ⟨hran, hwrote⟩ := Prod.mk.inj hx
  have hlines := hcarried 8 fourLines _ fourLines_isLine tr x
    hexec x (by simp)
  rw [hran, hwrote] at hlines
  exact absurd hlines (by decide)

end SocketPrograms.HW2.RemoteCommand
