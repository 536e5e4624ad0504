import SocketPrograms.Lib.Pair
import SocketPrograms.Lib.Stdio

/-!
# The line-based TCP clients

`EchoClient2.c` of HW1 and `EchoClient.cpp` of HW2 run the same loop and differ in
the size `n` of their two arrays, 100 and 1000 bytes: only the first 100 bytes are
cleared, at most 99 are typed and at most 100 are read. `LineClient.pair` joins the
client to a server.

## Main definitions

* `LineClient n` — the two arrays, the input left, the texts printed.
* `LineClient.ask`, `LineClient.hear` — the two halves of an iteration.
* `LineClient.History` — what the client has written and printed, from its input and
  from what its reads returned.
-/

namespace SocketPrograms

/-- The client's memory, the input it has not read yet, and the texts it has printed
after `S: `. A text is `none` when `printf` ran past the array. -/
structure LineClient (n : ℕ) where
  sendline : CharArray n
  recvline : CharArray n
  stdin : List Byte
  printed : List (Option (List Byte))
  deriving DecidableEq

namespace LineClient

variable {n : ℕ}

/-- `(sendline[0]=='c') && ... && (sendline[4]=='e')`. -/
def closing (c : LineClient n) : Bool := c.sendline.bytes.take 5 = ascii "close"

/-- `memset(sendline, 0, 100); memset(recvline, 0, 100)`. -/
def clear (c : LineClient n) : LineClient n :=
  { c with sendline := c.sendline.memset 100, recvline := c.recvline.memset 100 }

/-- `fgets(sendline, 100, stdin)`. At the end of the input `sendline` stays as it is. -/
def typeLine (c : LineClient n) : Option (LineClient n) := do
  let (_, sendline, stdin) ← fgets 100 c.sendline c.stdin
  return { c with sendline, stdin }

/-- The iteration up to and with its `fgets`. -/
def prompt (c : LineClient n) : Option (LineClient n) := c.clear.typeLine

/-- The iteration up to `write(client_fd, sendline, strlen(sendline)+1)`. -/
def ask (c : LineClient n) : Option (LineClient n × List Byte) := do
  let c ← c.prompt
  let text ← c.sendline.text
  return (c, text ++ [0])

/-- The iteration after `read(client_fd, recvline, 100)` returned these bytes:
`printf("S: %s", recvline)`. -/
def hear (c : LineClient n) (bytes : List Byte) : LineClient n :=
  let recvline := c.recvline.store bytes
  { c with recvline, printed := c.printed ++ [recvline.text] }

/-- The client and a server on one connection. -/
def pair {S W : Type} (n recvMax : ℕ) (take : S → List Byte → Option S)
    (work : W → S → Option (S × List Byte)) : Pair (LineClient n) S W where
  closing := closing
  ask := ask
  readMax := 100
  hear := hear
  recvMax := recvMax
  take := take
  work := work

/-- A client at its start: this input, nothing printed, and any memory. `tail` is what
`recvline` holds behind the part that is cleared. -/
structure Starts (stdin tail : List Byte) (c : LineClient n) : Prop where
  stdin_eq : c.stdin = stdin
  printed_eq : c.printed = []
  tail_eq : c.recvline.bytes.drop 100 = tail

/-- What `%s` prints after a read into the cleared part of `recvline`. -/
def shown (tail bytes : List Byte) : Option (List Byte) := textOf (padded 100 bytes ++ tail)

/-- The texts of the first `k` writes. -/
def texts (k : ℕ) (stdin : List Byte) : List (List Byte) := (pieces (lineCut 99) k stdin).map cstr

/-- What `sendline` holds after a line was typed into it, cleared: the next piece of the
input, as a string. -/
theorem typeLine_spec (hn : 100 ≤ n) {c : LineClient n} {a : CharArray n}
    (hclear : c.sendline = a.memset 100) :
    ∃ c', typeLine c = some c' ∧ c'.sendline.text = some (cstr (lineCut 99 c.stdin).1) ∧
      c'.stdin = (lineCut 99 c.stdin).2 ∧ c'.printed = c.printed ∧ c'.recvline = c.recvline := by
  by_cases h : c.stdin = []
  · refine ⟨{ c with stdin := [] }, by simp [typeLine, fgets, h], ?_, by simp [h], rfl, rfl⟩
    have hzero : (a.memset 100).bytes = [] ++ 0 :: (List.replicate 99 0 ++ a.bytes.drop 100) := by
      rw [CharArray.bytes_memset, Nat.min_eq_left hn]
      rfl
    simp only [h, lineCut_nil]
    rw [CharArray.text, hclear, hzero, textOf_append_zero]
  · have hlen := length_lineCut_le 99 c.stdin
    obtain ⟨b, hb, hbytes⟩ := c.sendline.write_of_le
      (show 0 + ((lineCut 99 c.stdin).1 ++ [0]).length ≤ n by simp; omega)
    refine ⟨{ c with sendline := b, stdin := (lineCut 99 c.stdin).2 },
      by simp [typeLine, fgets, h, hb], ?_, rfl, rfl, rfl⟩
    rw [CharArray.text, hbytes]
    simpa using textOf_append_zero (lineCut 99 c.stdin).1 _

theorem prompt_spec (hn : 100 ≤ n) (c : LineClient n) :
    ∃ c', prompt c = some c' ∧ c'.sendline.text = some (cstr (lineCut 99 c.stdin).1) ∧
      c'.stdin = (lineCut 99 c.stdin).2 ∧ c'.printed = c.printed ∧
      c'.recvline = c.recvline.memset 100 :=
  typeLine_spec hn (c := c.clear) rfl

theorem ask_spec (hn : 100 ≤ n) (c : LineClient n) :
    ∃ c', ask c = some (c', cstr (lineCut 99 c.stdin).1 ++ [0]) ∧
      c'.stdin = (lineCut 99 c.stdin).2 ∧ c'.printed = c.printed ∧
      c'.recvline = c.recvline.memset 100 := by
  obtain ⟨c', hprompt, htext, hrest⟩ := prompt_spec hn c
  exact ⟨c', by simp [ask, hprompt, htext], hrest⟩

/-- A read into the cleared `recvline` prints what was read, and what stands behind
the cleared part when 100 bytes without NUL were read. -/
theorem hear_spec (hn : 100 ≤ n) {c : LineClient n} {tail bytes : List Byte}
    (hrecv : c.recvline.bytes = padded 100 [] ++ tail) (hlen : bytes.length ≤ 100) :
    (c.hear bytes).printed = c.printed ++ [shown tail bytes] ∧
      (c.hear bytes).recvline.bytes.drop 100 = tail := by
  have hstore : (c.recvline.store bytes).bytes = padded 100 bytes ++ tail := by
    rw [CharArray.bytes_store (by omega), hrecv]
    simp only [padded, List.nil_append, List.length_nil, Nat.sub_zero]
    rw [List.drop_append_of_le_length (by simpa using hlen), List.drop_replicate,
      List.append_assoc]
  refine ⟨by simp [hear, CharArray.text, hstore, shown], ?_⟩
  simp only [hear, hstore]
  rw [List.drop_append_of_le_length (by rw [length_padded hlen]),
    List.drop_eq_nil_of_le (by rw [length_padded hlen]), List.nil_append]

/-- The client's history: `w` are its writes, `h` the results of its reads. -/
structure History (stdin tail : List Byte) (at_ : Pair.ClientAt) (c : LineClient n)
    (w h : List (List Byte)) : Prop where
  stdin_eq : c.stdin = unread (lineCut 99) w.length stdin
  wrote : w = (texts w.length stdin).map (· ++ [0])
  printed : c.printed = h.map (shown tail)
  tail_eq : c.recvline.bytes.drop 100 = tail
  cleared : at_ = .reading → c.recvline.bytes = padded 100 [] ++ tail
  defined : at_ ≠ .undefined

/-- The client's writes are texts without NUL, each with its terminator. -/
theorem History.wrote_eq {stdin tail : List Byte} {at_ : Pair.ClientAt} {c : LineClient n}
    {w h : List (List Byte)} (H : History stdin tail at_ c w h) :
    w.map cstr = texts w.length stdin ∧ w = (w.map cstr).map (· ++ [0]) := by
  have hcstr : ∀ t ∈ texts w.length stdin, cstr (t ++ [0]) = t := by
    intro t ht
    obtain ⟨p, _, rfl⟩ := List.mem_map.mp ht
    rw [cstr_append_zero, cstr_of_nulFree (nulFree_cstr p)]
  have htexts : w.map cstr = texts w.length stdin := by
    conv_lhs => rw [H.wrote]
    rw [List.map_map]
    exact (List.map_congr_left hcstr).trans (List.map_id _)
  exact ⟨htexts, by rw [htexts]; exact H.wrote⟩

theorem length_le_of_mem_texts {k : ℕ} {stdin t : List Byte} (ht : t ∈ texts k stdin) :
    t.length ≤ 99 := by
  obtain ⟨p, hp, rfl⟩ := List.mem_map.mp ht
  exact (cstr_length_le p).trans (length_le_of_mem_pieces hp)

/-- The texts of typed lines are the lines, then empty texts after the last. -/
theorem texts_lines {lines : List (List Byte)} (hlines : ∀ l ∈ lines, IsLine 99 l) (k : ℕ) :
    texts k lines.flatten = (List.range k).map fun i => lines[i]?.getD [] := by
  rw [texts, pieces_lines hlines k, List.map_map]
  refine List.map_congr_left fun i _ => ?_
  cases hi : lines[i]? with
  | none => simp [hi]
  | some l =>
      have hl : IsLine 99 l := hlines l (List.mem_of_getElem? hi)
      simp [hi, cstr_of_nulFree hl.nulFree]

section Pair

variable {S W : Type} {recvMax : ℕ} {serverTake : S → List Byte → Option S}
  {serverWork : W → S → Option (S × List Byte)}

/-- Each iteration writes the next piece of the input and prints one read. -/
theorem history_inv (hn : 100 ≤ n) (stdin tail : List Byte) :
    Pair.ClientInv (pair n recvMax serverTake serverWork) (Starts stdin tail)
      (History stdin tail) where
  start := by
    intro c hc
    exact ⟨hc.stdin_eq, rfl, hc.printed_eq, hc.tail_eq, by simp, by simp⟩
  leave := by
    intro c w h H _
    exact ⟨H.stdin_eq, H.wrote, H.printed, H.tail_eq, by simp, by simp⟩
  undefined := by
    intro c w h _ hnone
    obtain ⟨c', hask, _⟩ := ask_spec hn c
    exact absurd (hnone.symm.trans hask) (by simp)
  ask := by
    intro c c' bytes w h H _ hsome
    obtain ⟨c₁, hask, hstdin, hprinted, hrecv⟩ := ask_spec hn c
    obtain ⟨rfl, rfl⟩ : c₁ = c' ∧ cstr (lineCut 99 c.stdin).1 ++ [0] = bytes := by
      simpa using hask.symm.trans hsome
    have hmem : c₁.recvline.bytes = padded 100 [] ++ tail := by
      rw [hrecv, CharArray.bytes_memset, H.tail_eq, Nat.min_eq_left hn]
      rfl
    refine ⟨?_, ?_, hprinted.trans H.printed, ?_, fun _ => hmem, by simp⟩
    · rw [hstdin, H.stdin_eq, List.length_append, List.length_singleton, unread_succ]
    · rw [List.length_append, List.length_singleton, texts, pieces_succ, List.map_append,
        List.map_append, ← texts, ← H.wrote, H.stdin_eq]
      rfl
    · rw [hmem, List.drop_append_of_le_length (by simp [padded])]
      simp [padded]
  read := by
    intro c bytes w h H _ hlen
    obtain ⟨hprinted, htail⟩ := hear_spec hn (H.cleared rfl) hlen
    refine ⟨H.stdin_eq, H.wrote, ?_, htail, by simp, by simp⟩
    calc
      (c.hear bytes).printed = c.printed ++ [shown tail bytes] := hprinted
      _ = (h ++ [bytes]).map (shown tail) := by rw [H.printed, List.map_append]; rfl

end Pair

end LineClient

end SocketPrograms
