import SocketPrograms.HW2.EchoServer
import SocketPrograms.HW4.DateServer

/-!
# What the command servers send

Over a whole run, from any initial memory, each buffer sent is a function of the
string in its own request and of the output of its own command. Neither earlier
requests, nor other clients, nor the bytes behind a terminator, nor the pieces that
`fgets` cuts the output into have any part in it.
-/

namespace SocketPrograms

/-- **Reply fidelity.** The sends of the HW2 server are the outputs of the commands of
its requests, each zero-padded to 1024 bytes and on its own connection; those of the
HW4 server are the answers to its datagrams, each zero-padded to 512 bytes and to its
own address. Both servers are in any state and memory at the start. -/
theorem reply_fidelity {Addr : Type} (sizeofFp : ℕ) (h2 : 2 ≤ sizeofFp) :
    (sizeofFp ≤ 1024 →
      ∀ (s : HW2.EchoServer.Server) (cs : List HW2.EchoServer.Connection),
        (∀ c ∈ cs, ∀ r ∈ c.requests, r.Fits) →
        ∃ s', HW2.EchoServer.run sizeofFp s cs =
            some (s', cs.flatMap fun c =>
              c.requests.map fun r => (c.client_fd, padded 1024 r.output)) ∧
          s'.ran = s.ran ++ cs.flatMap fun c => c.requests.map fun r => cstr r.bytes) ∧
    (sizeofFp ≤ 512 →
      ∀ (s : HW4.DateServer.Server) (rs : List (HW4.DateServer.Request Addr)),
        (∀ r ∈ rs, r.Fits) →
        ∃ s', HW4.DateServer.run sizeofFp s rs =
            some (s', rs.map fun r =>
              (r.cli_addr, padded 512 (HW4.DateServer.answer (cstr r.payload) r.output))) ∧
          s'.ran = s.ran ++ rs.flatMap fun r => HW4.DateServer.commands (cstr r.payload)) :=
  ⟨fun hn s cs => HW2.EchoServer.run_spec h2 hn cs s,
    fun hn s rs => HW4.DateServer.run_spec h2 hn rs s⟩

/-- Two connections and two datagrams, with bytes behind the terminators, from buffers
full of garbage: a pointer has 8 bytes. -/
theorem reply_fidelity_two_clients :
    (∃ s', HW2.EchoServer.run 8 ⟨⟨.fillWith 1024 88, .fillWith 1024 88, .fillWith 1024 88⟩, [], []⟩
        [⟨4, [⟨ascii "ls\n" ++ [0, 88], ascii "notes\na.out\n"⟩]⟩,
          ⟨5, [⟨ascii "id\n" ++ [0], ascii "uid=1000\n"⟩]⟩] =
      some (s', [(4, padded 1024 (ascii "notes\na.out\n")),
        (5, padded 1024 (ascii "uid=1000\n"))])) ∧
    ∃ s', HW4.DateServer.run 8 ⟨⟨.fillWith 512 88, .fillWith 512 88, .fillWith 512 88⟩, []⟩
        [⟨"a", ascii "date\n" ++ [0, 88], ascii "Fri May 4\n"⟩, ⟨"b", ascii "rm *\n" ++ [0], []⟩] =
      some (s', [("a", padded 512 (ascii "Fri May 4\n")),
        ("b", padded 512 HW4.DateServer.refusal)]) := by
  have h := @reply_fidelity String 8 (by decide)
  constructor
  · obtain ⟨s', hrun, _⟩ := h.1 (by decide)
      ⟨⟨.fillWith 1024 88, .fillWith 1024 88, .fillWith 1024 88⟩, [], []⟩
      [⟨4, [⟨ascii "ls\n" ++ [0, 88], ascii "notes\na.out\n"⟩]⟩,
        ⟨5, [⟨ascii "id\n" ++ [0], ascii "uid=1000\n"⟩]⟩] (by
        intro c hc r hr
        simp only [List.mem_cons, List.not_mem_nil, or_false] at hc
        rcases hc with rfl | rfl
        · obtain rfl : r = _ := by simpa using hr
          exact ⟨by decide, by decide, by decide, by decide⟩
        · obtain rfl : r = _ := by simpa using hr
          exact ⟨by decide, by decide, by decide, by decide⟩)
    exact ⟨s', hrun⟩
  · obtain ⟨s', hrun, _⟩ := h.2 (by decide)
      ⟨⟨.fillWith 512 88, .fillWith 512 88, .fillWith 512 88⟩, []⟩
      [⟨"a", ascii "date\n" ++ [0, 88], ascii "Fri May 4\n"⟩, ⟨"b", ascii "rm *\n" ++ [0], []⟩] (by
        intro r hr
        simp only [List.mem_cons, List.not_mem_nil, or_false] at hr
        rcases hr with rfl | rfl
        · exact ⟨by decide, by decide, by decide⟩
        · exact ⟨by decide, by decide, by decide⟩)
    refine ⟨s', hrun.trans ?_⟩
    have hdate : HW4.DateServer.isDate (cstr (ascii "date\n" ++ [0, 88])) = true := by decide
    have hrm : HW4.DateServer.isDate (cstr (ascii "rm *\n" ++ [0])) = false := by decide
    simp [HW4.DateServer.answer, hdate, hrm]

end SocketPrograms
