import SocketPrograms.Project1.Retrieval

/-!
# Names arrive terminated

The child of `ServerM.c` receives up to 1024 bytes into a cleared array of 1024 and gives it
to `fopen`. The records that `Client2.c` writes have the same length and each ends with a
NUL, so 1024 consecutive bytes of the stream, wherever they start, contain one.
-/

namespace SocketPrograms.Project1.Terminated

open ServerM (Files Overrun)

/-- The pair, for a client with this input; both memories are arbitrary. -/
def system (files : Files) (stdin : List Byte) :
    System (Pair.State Client2 ServerM.Server) (Pair.Label Overrun) :=
  (Retrieval.pair files).system (Client2.Starts stdin) fun _ => True

variable {files : Files} {stdin : List Byte}
  {tr : List (Pair.State Client2 ServerM.Server × Pair.Label Overrun)}
  {x : Pair.State Client2 ServerM.Server}

/-- After a `recv`, what it returned is in `recvline`, with zeros behind. -/
def Received (at_ : Pair.ServerAt) (s : ServerM.Server) (r _t : List (List Byte)) : Prop :=
  at_ = .working → ∃ bytes ∈ r, s.recvline.bytes = padded 1024 bytes

theorem received_inv :
    Pair.ServerInv (Retrieval.pair files) (fun _ => True) (fun _ => True) Received where
  start := by
    intro s _ hat
    cases hat
  take_none := by
    intro s bytes r t _ _ _ hnone
    cases hnone
  take_some := by
    intro s s' bytes r t _ _ hlen hsome _
    obtain rfl : { s with recvline := (s.recvline.memset 1024).store bytes } = s' :=
      Option.some.inj hsome
    exact ⟨bytes, by simp,
      CharArray.bytes_store_padded (s.recvline.bytes_memset_of_le le_rfl) hlen⟩
  work_none := by
    intro s w r t _ _ _ hat
    cases hat
  work_some := by
    intro s s' w bytes r t _ _ _ hat
    cases hat

/-- The records written are the names, padded to 1023 bytes, each with a NUL. -/
theorem wrote_flatten (hfits : Client2.Fits stdin) (h : (system files stdin).Exec tr x) :
    x.wrote.flatten =
      terminated ((Client2.names x.wrote.length stdin).map (padded 1023)) := by
  have H := Pair.client_rule (Client2.history_inv hfits) h
  have hrecord : ∀ name ∈ Client2.names x.wrote.length stdin,
      padded 1024 name = padded 1023 name ++ [0] := by
    intro name hname
    have hlen := hfits _ name hname
    rw [padded, padded, show 1024 - name.length = (1023 - name.length) + 1 by omega,
      List.replicate_succ', List.append_assoc]
  conv_lhs => rw [H.wrote]
  rw [terminated, List.map_map]
  exact congrArg List.flatten (List.map_congr_left hrecord)

/-- What a `recv` returned has a NUL, unless it is shorter than a record. -/
theorem zero_mem_of_mem_recvd (hfits : Client2.Fits stdin) (h : (system files stdin).Exec tr x)
    {bytes : List Byte} (hbytes : bytes ∈ x.recvd) (hlen : 1024 ≤ bytes.length) :
    (0 : Byte) ∈ bytes := by
  by_contra hfree
  have hkept := Pair.streams_kept h
  have hinfix : bytes <:+: x.wrote.flatten :=
    (List.infix_of_mem_flatten hbytes).trans (List.IsPrefix.isInfix ⟨x.up, hkept.up.symm⟩)
  rw [wrote_flatten hfits h] at hinfix
  have hshort : ∀ t ∈ (Client2.names x.wrote.length stdin).map (padded 1023),
      t.length ≤ 1023 := by
    intro t ht
    obtain ⟨name, hname, rfl⟩ := List.mem_map.mp ht
    exact le_of_eq (length_padded (hfits _ name hname))
  have hle := length_le_of_infix hshort hinfix hfree
  omega

/-- **After each `recv`, `recvline` contains a NUL**, however TCP splits or merges the
records: in every state that a run comes to, between a `recv` and its `send`, the name given
to `fopen` is a string inside of the array. -/
theorem recvline_terminated (files : Files) (stdin : List Byte) (hfits : Client2.Fits stdin)
    (tr : List (Pair.State Client2 ServerM.Server × Pair.Label Overrun))
    (x : Pair.State Client2 ServerM.Server) (h : (system files stdin).Exec tr x) :
    ∀ y ∈ System.visited tr x, y.serverAt = .working →
      (∃ i < 1024, y.server.recvline.bytes[i]? = some 0) ∧
        ∃ name, y.server.recvline.text = some name := by
  intro y hy hat
  obtain ⟨tr', _, h'⟩ := h.exec_of_mem_visited y hy
  obtain ⟨bytes, hbytes, hrecv⟩ :=
    Pair.server_rule received_inv h' (fun _ _ _ _ => trivial) hat
  have hmem : (0 : Byte) ∈ y.server.recvline.bytes := by
    rw [hrecv]
    by_cases hlen : bytes.length < 1024
    · exact zero_mem_padded hlen
    · exact List.mem_append_left _ (zero_mem_of_mem_recvd hfits h' hbytes (by omega))
  refine ⟨?_, _, textOf_of_mem hmem⟩
  obtain ⟨i, hi⟩ := List.mem_iff_getElem?.mp hmem
  exact ⟨i, by simpa using (List.getElem?_eq_some_iff.mp hi).1, hi⟩

/-- Two names, and a `recv` of 1024 bytes that starts in the middle of a record. -/
theorem recvline_terminated_two :
    ∃ tr x, (system Retrieval.twoFiles (tokenLines [ascii "a", ascii "b"])).Exec tr x ∧
      x.recvd.map List.length = [10, 1024] ∧
      ∃ name, x.server.recvline.text = some name := by
  have hfits : Client2.Fits (tokenLines [ascii "a", ascii "b"]) := by
    have htoken : ∀ t ∈ [ascii "a", ascii "b"], IsToken t := by decide
    intro k name hname
    rcases Retrieval.name_of_mem htoken hname with rfl | hmem
    · simp
    · exact (show ∀ t ∈ [ascii "a", ascii "b"], t.length ≤ 1023 by decide) name hmem
  have hrun : (System.replay (Retrieval.pair Retrieval.twoFiles).next
      (Retrieval.zeroed (tokenLines [ascii "a", ascii "b"]))
      [.ask, .recv 10, .send Retrieval.garbage, .read 1024, .ask, .recv 1024]).map
        (fun p => (p.2.recvd.map List.length, p.2.serverAt)) = some ([10, 1024], .working) := by
    decide +kernel
  have hinit : (system Retrieval.twoFiles (tokenLines [ascii "a", ascii "b"])).init
      (Retrieval.zeroed (tokenLines [ascii "a", ascii "b"])) :=
    ⟨_, _, ⟨rfl, rfl⟩, trivial, rfl⟩
  obtain ⟨tr, x, hexec, hx⟩ := System.exec_of_replay hinit hrun
  obtain ⟨hlens, hat⟩ := Prod.mk.inj hx
  exact ⟨tr, x, hexec, hlens,
    (recvline_terminated _ _ hfits tr x hexec x (by simp) hat).2⟩

end SocketPrograms.Project1.Terminated
