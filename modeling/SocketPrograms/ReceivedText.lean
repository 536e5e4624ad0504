import SocketPrograms.HW2.Descriptors
import SocketPrograms.HW3.UDPServer
import SocketPrograms.HW4.DateServer

/-!
# What the servers take for strings

The servers of HW2, HW3 and HW4 clear their buffer, receive into all of it, and then hand it
to `popen` or `printf` as a string. Nothing but the `memset` ends that string, and a message
that fills the buffer overwrites what the `memset` left.
-/

namespace SocketPrograms

open HW2 HW3 HW4

/-- **Received data is a terminated string exactly where no message fills the buffer with
bytes other than NUL**: in every run of the server of HW2, on any connections; in every run
of the date server, for the datagrams that it hands to `popen`; and in every run of the
server of HW3. The peers and the memory at the start are arbitrary. -/
theorem received_text_iff {Addr : Type} (sizeofFp : ℕ) :
    (∀ (opened : Finset ℕ) (tr : List (Descriptors.Process × Descriptors.Answer))
        (x : Descriptors.Process), (Descriptors.system sizeofFp opened).Exec tr x →
      ((∀ p ∈ Descriptors.received tr, ∃ s, p.2 = some s ∧ s.bufs.rcvBuf.HoldsText p.1) ↔
        ∀ p ∈ Descriptors.received tr, CharArray.Terminates 1024 p.1)) ∧
    (∀ (s : DateServer.Server) (rs : List (DateServer.Request Addr)),
      (∀ p ∈ DateServer.received sizeofFp s rs,
          DateServer.isDate p.2.bytes → p.2.HoldsText p.1) ↔
        ∀ p ∈ DateServer.received sizeofFp s rs,
          DateServer.isDate p.1 → CharArray.Terminates 512 p.1) ∧
    ∀ (s : UDPServer) (payloads : List (List Byte)),
      (∀ p ∈ s.received payloads, p.2.HoldsText p.1) ↔
        ∀ p ∈ s.received payloads, CharArray.Terminates 512 p.1 := by
  refine ⟨fun opened tr x _ => ?_, fun s rs => ?_, fun s payloads => ?_⟩
  · refine forall₂_congr fun p hp => ?_
    obtain ⟨s, hs⟩ := Descriptors.received_eq hp
    rw [hs]
    exact EchoServer.take_holdsText_iff s p.1
  · refine forall₂_congr fun p hp => ?_
    obtain ⟨s', hs'⟩ := DateServer.received_eq p hp
    rw [hs', DateServer.isDate_receive]
    exact imp_congr_right fun _ => s'.bufs.rcvBuf.holdsText_store_memset_iff p.1
  · refine forall₂_congr fun p hp => ?_
    obtain ⟨s', hs'⟩ := UDPServer.received_eq p hp
    rw [hs']
    exact s'.buf.holdsText_store_memset_iff p.1

/-- A command, a request for the date with garbage behind its NUL, and a text. -/
theorem received_text_iff_three :
    (∃ tr x, (Descriptors.system 8 {0, 1, 2, 3}).Exec tr x ∧
      (Descriptors.received tr).map Prod.fst = [ascii "ls\n" ++ [0]] ∧
      ∀ p ∈ Descriptors.received tr, ∃ s, p.2 = some s ∧ s.bufs.rcvBuf.HoldsText p.1) ∧
    (∀ p ∈ DateServer.received 8 ⟨⟨.fillWith 512 88, .fillWith 512 88, .fillWith 512 88⟩, []⟩
        [⟨"a", ascii "date\n" ++ [0, 88], ascii "Fri May 4\n"⟩],
      DateServer.isDate p.2.bytes → p.2.HoldsText p.1) ∧
    ∀ p ∈ UDPServer.received ⟨.fillWith 512 88⟩ [ascii "hello"], p.2.HoldsText p.1 := by
  obtain ⟨htcp, hdate, hudp⟩ := @received_text_iff String 8
  refine ⟨?_, ?_, ?_⟩
  · have hrun : (System.replay (Descriptors.next 8) Descriptors.zeroed
        [.accept 4, .command (ascii "ls\n" ++ [0]) (ascii "notes\n") 5 true]).map
          (fun p => (Descriptors.received p.1).map Prod.fst) = some [ascii "ls\n" ++ [0]] := by
      decide +kernel
    obtain ⟨tr, x, hexec, hbytes⟩ := System.exec_of_replay Descriptors.zeroed_starts hrun
    refine ⟨tr, x, hexec, hbytes, (htcp _ tr x hexec).mpr fun p hp => ?_⟩
    have hp' : p.1 ∈ [ascii "ls\n" ++ [0]] := hbytes ▸ List.mem_map_of_mem hp
    rw [List.mem_singleton.mp hp']
    decide
  · exact (hdate _ _).mpr (by decide +kernel)
  · exact (hudp _ _).mpr (by decide +kernel)

/-- Messages that fill the buffer of their server, with no NUL among their bytes. -/
theorem full_buffer_unterminated :
    (¬ ∀ (sizeofFp : ℕ) (opened : Finset ℕ)
        (tr : List (Descriptors.Process × Descriptors.Answer)) (x : Descriptors.Process),
      (Descriptors.system sizeofFp opened).Exec tr x →
        ∀ p ∈ Descriptors.received tr, ∃ s, p.2 = some s ∧ s.bufs.rcvBuf.HoldsText p.1) ∧
    (¬ ∀ (sizeofFp : ℕ) (s : DateServer.Server) (rs : List (DateServer.Request String)),
      ∀ p ∈ DateServer.received sizeofFp s rs, DateServer.isDate p.2.bytes → p.2.HoldsText p.1) ∧
    ¬ ∀ (s : UDPServer) (payloads : List (List Byte)),
      ∀ p ∈ s.received payloads, p.2.HoldsText p.1 := by
  refine ⟨fun hreceived => ?_, fun hreceived => ?_, fun hreceived => ?_⟩
  · have hrun : (System.replay (Descriptors.next 8) Descriptors.zeroed
        [.accept 4, .command (List.replicate 1024 97) [] 5 true]).map
          (fun p => (Descriptors.received p.1).map Prod.fst) =
        some [List.replicate 1024 97] := by decide +kernel
    obtain ⟨tr, x, hexec, hbytes⟩ := System.exec_of_replay Descriptors.zeroed_starts hrun
    obtain ⟨p, hp, hpbytes⟩ := List.mem_map.mp
      (hbytes ▸ List.mem_singleton_self (List.replicate 1024 97))
    have htext := hreceived 8 {0, 1, 2, 3} tr x hexec p hp
    obtain ⟨s, hs⟩ := Descriptors.received_eq hp
    rw [hs, hpbytes] at htext
    exact absurd ((EchoServer.take_holdsText_iff s _).mp htext) (by decide +kernel)
  · have htext := hreceived 8 ⟨⟨.fillWith 512 88, .fillWith 512 88, .fillWith 512 88⟩, []⟩
      [⟨"a", ascii "date" ++ List.replicate 508 97, []⟩] _ List.mem_cons_self
      (by decide +kernel)
    exact absurd ((CharArray.holdsText_store_memset_iff _ _).mp htext) (by decide +kernel)
  · have htext := hreceived ⟨.fillWith 512 88⟩ [List.replicate 512 97] _ List.mem_cons_self
    exact absurd ((CharArray.holdsText_store_memset_iff _ _).mp htext) (by decide +kernel)

end SocketPrograms
