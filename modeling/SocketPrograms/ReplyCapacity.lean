import SocketPrograms.Chat.UDPChatClient
import SocketPrograms.HW4.DateServer
import SocketPrograms.Project1.ServerM

/-!
# Where the replies are assembled

Four programs append a whole stream to an array with `strcat`, piece by piece, and clear the
array with `memset` before or after. No piece is too long, and nothing bounds their number.
The child of `ServerM.c` also clears twice the size of its array.

## Main definitions

* `commandWrites`, `dateWrites`, `pageWrites`, `messageWrites` — the indices written in one
  pass of each program.

## Main results

* `capacity_iff` — where all of them are inside the array.
-/

namespace SocketPrograms.ReplyCapacity

open Chat.UDPChatClient HW4 Project1

/-- What the gather loop of a command server writes into `sendBuf`, after these bytes were
received, and the `memset` of the next pass. -/
def commandWrites {n : ℕ} (sizeofFp : ℕ) (b : Buffers n) (bytes output : List Byte) : List ℕ :=
  (gatherTraced sizeofFp (b.receive bytes).comBuf (b.receive bytes).sendBuf output).writes ++
    memsetWrites n

/-- The date server runs the loop for the requests that start with `date`. -/
def dateWrites (sizeofFp : ℕ) (s : DateServer.Server) (payload output : List Byte) : List ℕ :=
  if DateServer.isDate (DateServer.take s payload).bufs.rcvBuf.bytes then
    commandWrites sizeofFp s.bufs payload output
  else memsetWrites 512

/-- What the child writes into `sendline` for a file with these contents: the gather loop, and
`memset(sendline, 0, 2048)`. -/
def pageWrites (s : ServerM.Server) (contents : List Byte) : List ℕ :=
  (gatherTraced 1024 s.commline s.sendline contents).writes ++ memsetWrites 2048

/-- What the chat client writes into `sendline` for a message, and the `memset` of the next
iteration. -/
def messageWrites (sizeofFp : ℕ) (c : Client) (output : List Byte) : List ℕ :=
  (assembleTraced sizeofFp output (clear c)).writes ++ memsetWrites 2048

variable {sizeofFp : ℕ}

/-- A `memset` of the whole array stays in it. -/
theorem inBounds_memset_iff {α : Type} {n : ℕ} (t : Traced α) :
    (∀ i ∈ t.writes ++ memsetWrites n, i < n) ↔ t.InBounds n := by
  rw [List.forall_mem_append]
  constructor
  · intro h
    exact h.1
  · intro h
    exact ⟨h, fun i hi => List.mem_range.mp hi⟩

/-- A command server writes inside of its buffer where the output and a terminator fit. -/
theorem commandWrites_iff {n : ℕ} (hsize : 2 ≤ sizeofFp) (hmax : sizeofFp ≤ n) (b : Buffers n)
    (bytes output : List Byte) :
    (∀ i ∈ commandWrites sizeofFp b bytes output, i < n) ↔
      (gathered sizeofFp output).length < n := by
  have hclear : (b.receive bytes).sendBuf.bytes = [] ++ 0 :: List.replicate (n - 1) 0 := by
    rw [b.sendBuf_receive, padded_eq_append_zero (show ([] : List Byte).length < n by
      rw [List.length_nil]; omega)]
    rfl
  rw [commandWrites, inBounds_memset_iff,
    gatherTraced_inBounds_iff hsize hmax _ output hclear nulFree_nil, List.length_replicate]
  omega

/-- The gather loop of the child stays in `sendline` where the contents and a terminator
fit. -/
theorem pageGather_iff {s : ServerM.Server} (hsend : s.sendline.bytes = padded 1024 [])
    (contents : List Byte) :
    (gatherTraced 1024 s.commline s.sendline contents).InBounds 1024 ↔
      (gathered 1024 contents).length < 1024 := by
  rw [padded_eq_append_zero (by decide)] at hsend
  rw [gatherTraced_inBounds_iff (by decide) le_rfl _ contents hsend nulFree_nil,
    List.length_replicate]
  exact Nat.lt_succ_iff.symm

/-- The child writes behind its array whatever the file holds, even where the gather loop
does not. -/
theorem not_pageWrites (s : ServerM.Server) (contents : List Byte) :
    ¬ ∀ i ∈ pageWrites s contents, i < 1024 := by
  intro h
  have hlast : 1024 ∈ pageWrites s contents :=
    List.mem_append_right _ (List.mem_range.mpr (by decide))
  exact absurd (h 1024 hlast) (by decide)

/-- Every call of the message assembly is exact, and so is the assembly. -/
theorem assembleTraced_exact (hsize : 2 ≤ sizeofFp) (hmax : sizeofFp ≤ 2048) {c : Client}
    {name : List Byte} (hname : c.name.text = some name) (output : List Byte) :
    (assembleTraced sizeofFp output (clear c)).Exact 2048 := by
  have hname' : (clear c).name.text = some name := hname
  rw [assembleTraced, hname', text_readTyped]
  apply (Traced.exact_some name).bind
  intro name' _
  apply (strcatTraced_exact _ name').bind
  intro a _
  apply (Traced.exact_some _).bind
  intro data _
  apply (strcatTraced_exact a data).bind
  intro sendline _
  exact gatherTraced_exact hsize hmax _ sendline output

/-- The chat client writes inside of `sendline` where the name, what was read and the date
fit. -/
theorem messageWrites_iff (hsize : 2 ≤ sizeofFp) (hmax : sizeofFp ≤ 2048) {c : Client}
    {name : List Byte} (hname : c.name.text = some name) (output : List Byte) :
    (∀ i ∈ messageWrites sizeofFp c output, i < 2048) ↔
      (name ++ cstr (lineCut 9 c.stdin).1 ++ gathered sizeofFp output).length < 2048 := by
  obtain ⟨hfit, hover⟩ := assemble_spec hsize hmax output hname rfl
  rw [messageWrites, inBounds_memset_iff, (assembleTraced_exact hsize hmax hname output).iff,
    result_assembleTraced, Option.isSome_map]
  constructor
  · intro h
    by_contra hlong
    rw [hover (by omega)] at h
    cases h
  · intro h
    obtain ⟨sendline, date, hassemble, _⟩ := hfit h
    rw [hassemble]
    rfl

/-- **Every index that `strcat` or the following `memset` writes is inside the array, exactly
where the text that is assembled and a terminator fit it**: in the server of HW2; in the date
server, for the requests that it runs; in the chat client, for every name that fits; and
never in the child of `ServerM.c`. The memory, the input, and what the command prints or the
file holds are arbitrary. -/
theorem capacity_iff (sizeofFp : ℕ) (hsize : 2 ≤ sizeofFp) (hmax : sizeofFp ≤ 512) :
    (∀ (b : Buffers 1024) (bytes output : List Byte),
      (∀ i ∈ commandWrites sizeofFp b bytes output, i < 1024) ↔
        (gathered sizeofFp output).length < 1024) ∧
    (∀ (s : DateServer.Server) (payload output : List Byte),
      (∀ i ∈ dateWrites sizeofFp s payload output, i < 512) ↔
        (DateServer.isDate payload → (gathered sizeofFp output).length < 512)) ∧
    (∀ (s : ServerM.Server) (contents : List Byte), s.sendline.bytes = padded 1024 [] →
      ((gatherTraced 1024 s.commline s.sendline contents).InBounds 1024 ↔
        (gathered 1024 contents).length < 1024) ∧ ¬ ∀ i ∈ pageWrites s contents, i < 1024) ∧
    ∀ (c : Client) (a : CharArray 2048) (name typed output : List Byte), Typed [name] typed →
      name.length + 2 < 2048 → enterName a typed = some c.name →
      ((∀ i ∈ messageWrites sizeofFp c output, i < 2048) ↔
        name.length + 2 + (cstr (lineCut 9 c.stdin).1).length +
          (gathered sizeofFp output).length < 2048) := by
  refine ⟨?_, ?_, ?_, ?_⟩
  · intro b bytes output
    exact commandWrites_iff hsize (by omega) b bytes output
  · intro s payload output
    rw [dateWrites, DateServer.isDate_receive]
    by_cases hdate : DateServer.isDate payload = true
    · rw [if_pos hdate, commandWrites_iff hsize hmax]
      simp [hdate]
    · rw [if_neg hdate]
      simp [hdate, memsetWrites]
  · intro s contents hsend
    exact ⟨pageGather_iff hsend contents, not_pageWrites s contents⟩
  · intro c a name typed output htyped hlen henter
    rw [messageWrites_iff hsize (by omega) (enterName_text htyped hlen henter),
      List.length_append, List.length_append, List.length_append,
      show (ascii ": ").length = 2 from rfl]

/-- Garbage in the buffers of a server. -/
def garbage (n : ℕ) : Buffers n := ⟨.fillWith n 88, .fillWith n 88, .fillWith n 88⟩

/-- A child whose `sendline` is zeroed. -/
def child : ServerM.Server := ⟨.fillWith 1024 0, .fillWith 1024 88, .fillWith 1024 88, []⟩

/-- Short outputs, a date and a file of four bytes. -/
theorem capacity_iff_four :
    (∀ i ∈ commandWrites 8 (garbage 1024) (ascii "ls\n") (ascii "notes\n"), i < 1024) ∧
    (∀ i ∈ dateWrites 8 ⟨garbage 512, []⟩ (ascii "date\n") (ascii "Fri May 4\n"), i < 512) ∧
    (gatherTraced 1024 child.commline child.sendline (ascii "<p>\n")).InBounds 1024 ∧
    ∀ i ∈ messageWrites 8 (zeroed 0 (ascii "hi\n")) (ascii "Fri May 4\n"), i < 2048 := by
  obtain ⟨hcommand, hdate, hpage, hmessage⟩ := capacity_iff 8 (by decide) (by decide)
  refine ⟨?_, ?_, ?_, ?_⟩
  · exact (hcommand _ _ _).mpr (by decide)
  · exact (hdate _ _ _).mpr (by decide)
  · exact (hpage child _ rfl).1.mpr (by decide)
  · exact (hmessage _ _ _ _ _ john_typed (by decide) (zeroed_name 0 _)).mpr (by decide)

/-- A stream of `k` letters is appended whole. -/
theorem length_gathered_letters (k : ℕ) : (gathered 8 (List.replicate k 97)).length = k := by
  have hfree : NulFree (List.replicate k 97) := by simp [NulFree]
  rw [gathered_of_nulFree (by decide) hfree, List.length_replicate]

/-- An output as long as the array overruns it, in each of the programs; `memset` overruns the
array of the child for an empty file. -/
theorem long_output_overruns :
    (¬ ∀ (b : Buffers 1024) (bytes output : List Byte),
      ∀ i ∈ commandWrites 8 b bytes output, i < 1024) ∧
    (¬ ∀ (s : DateServer.Server) (payload output : List Byte),
      ∀ i ∈ dateWrites 8 s payload output, i < 512) ∧
    (¬ ∀ (s : ServerM.Server) (contents : List Byte), s.sendline.bytes = padded 1024 [] →
      ∀ i ∈ pageWrites s contents, i < 1024) ∧
    ¬ ∀ (c : Client) (a : CharArray 2048) (name typed output : List Byte), Typed [name] typed →
      name.length + 2 < 2048 → enterName a typed = some c.name →
      ∀ i ∈ messageWrites 8 c output, i < 2048 := by
  refine ⟨fun hwithin => ?_, fun hwithin => ?_, fun hwithin => ?_, fun hwithin => ?_⟩
  · have hlong := (commandWrites_iff (by decide) (by decide) (garbage 1024) (ascii "ls\n")
      (List.replicate 1024 97)).mp (hwithin _ _ _)
    rw [length_gathered_letters] at hlong
    exact absurd hlong (by decide)
  · have hwrites := hwithin ⟨garbage 512, []⟩ (ascii "date\n") (List.replicate 512 97)
    rw [dateWrites, DateServer.isDate_receive, if_pos (by decide),
      commandWrites_iff (by decide) (by decide), length_gathered_letters] at hwrites
    exact absurd hwrites (by decide)
  · exact not_pageWrites child [] (hwithin child [] rfl)
  · have hwrites := hwithin (zeroed 0 (ascii "hi\n")) _ _ john (List.replicate 2048 97)
      john_typed (by decide) (zeroed_name 0 _)
    rw [messageWrites_iff (by decide) (by decide)
      (enterName_text john_typed (by decide) (zeroed_name 0 _)), List.length_append,
      length_gathered_letters] at hwrites
    omega

end SocketPrograms.ReplyCapacity
