import SocketPrograms.HW3.UDPClient
import SocketPrograms.HW3.UDPServer

/-!
# One-way messages of HW3

`UDPClient.c` sends each token in a datagram of 2048 bytes, and `UDPServer.c` keeps the first
512 of them. A token of 512 bytes or more leaves no NUL in the server's buffer.

## Main results

* `text_of_token` — what the server prints for a token.
* `prints_tokens_iff` — the texts printed are the tokens sent exactly where none of them is
  longer than 511 bytes.
-/

namespace SocketPrograms.HW3.Messaging

/-- What is printed for a token: the token, or nothing that is defined. -/
theorem text_of_token (s : UDPServer) {t : List Byte} (hfree : NulFree t)
    (hlen : t.length ≤ 2047) :
    (s.receive (padded 2048 t)).buf.text = if t.length ≤ 511 then some t else none := by
  by_cases hshort : t.length ≤ 511
  · have hterm : CharArray.Terminates 512 (padded 2048 t) := by
      right
      rw [padded_eq_append_zero (by omega), List.take_append, List.take_of_length_le (by omega)]
      refine List.mem_append_right _ ?_
      rw [show 512 - t.length = (511 - t.length) + 1 by omega, List.take_succ_cons]
      exact List.mem_cons_self
    rw [s.text_receive hterm, cstr_padded, cstr_of_nulFree hfree, if_pos hshort]
  · have hterm : ¬ CharArray.Terminates 512 (padded 2048 t) := by
      rintro (h | h)
      · rw [length_padded (by omega)] at h
        omega
      · rw [padded, List.take_append_of_le_length (by omega)] at h
        exact hfree (List.mem_of_mem_take h)
    rw [if_neg hshort]
    exact (s.buf.memset 512).text_store_of_not_terminates hterm

/-- **The text printed for each datagram is its token, exactly where no token sent is
longer than 511 bytes.** The tokens are typed with any white space between them; the client
and the server start from any memory, and `k` iterations of the client are delivered in
order. -/
theorem prints_tokens_iff (tokens : List (List Byte)) (c c' : UDPClient) (s : UDPServer)
    (htyped : Typed tokens c.stdin) (hfits : ∀ t ∈ tokens, t.length ≤ 2047) (k : ℕ)
    (sent : List (List Byte)) (hrun : c.run k = some (c', sent)) :
    (∀ (i : ℕ) (t : List Byte), i < sent.length → tokens[i]? = some t →
        (s.run sent).2[i]? = some (some t)) ↔
      ∀ t ∈ tokens.take sent.length, t.length ≤ 511 := by
  have hpieces := pieces_typed htyped
  have hsent : sent = ((List.range sent.length).map fun i => tokens[i]?.getD []).map
      (padded 2048) := by
    rw [← hpieces]
    refine c.run_spec k c' sent (fun j t ht => ?_) hrun
    rw [hpieces] at ht
    obtain ⟨i, _, rfl⟩ := List.mem_map.mp ht
    cases hi : tokens[i]? with
    | none => simp
    | some t => exact hfits t (List.mem_of_getElem? hi)
  have htext : ∀ (i : ℕ) (t : List Byte), i < sent.length → tokens[i]? = some t →
      (s.run sent).2[i]? = some (if t.length ≤ 511 then some t else none) := by
    intro i t hi ht
    have hfree : NulFree t := (htyped.isToken t (List.mem_of_getElem? ht)).nulFree
    have hpayload : sent[i]? = some (padded 2048 t) := by
      rw [hsent]
      simp [hi, ht]
    rw [s.run_texts s, List.getElem?_map, hpayload, Option.map_some,
      text_of_token s hfree (hfits t (List.mem_of_getElem? ht))]
  constructor
  · intro hprints t ht
    obtain ⟨i, hi⟩ := List.mem_iff_getElem?.mp ht
    have hlt : i < sent.length := by
      have := (List.getElem?_eq_some_iff.mp hi).1
      rw [List.length_take] at this
      omega
    rw [List.getElem?_take_of_lt hlt] at hi
    by_contra hlong
    have hprinted := hprints i t hlt hi
    rw [htext i t hlt hi, if_neg hlong] at hprinted
    cases hprinted
  · intro hshort i t hi ht
    have hmem : t ∈ tokens.take sent.length :=
      List.mem_iff_getElem?.mpr ⟨i, by rw [List.getElem?_take_of_lt hi, ht]⟩
    rw [htext i t hi ht, if_pos (hshort t hmem)]

/-- A client and a server with garbage in their memory. -/
def garbage (stdin : List Byte) : UDPClient × UDPServer :=
  (⟨.fillWith 2048 88, .fillWith 2048 88, stdin⟩, ⟨.fillWith 512 88⟩)

/-- Two tokens, the second after blanks. -/
theorem prints_tokens_iff_two :
    ∃ c' sent, (garbage (ascii "hello  you\n")).1.run 2 = some (c', sent) ∧
      ((garbage []).2.run sent).2[1]? = some (some (ascii "you")) := by
  have hblanks : ∀ c ∈ ascii "  ", isSpace c = true := List.all_eq_true.mp (by decide)
  have hend : ∀ c ∈ ascii "\n", isSpace c = true := List.all_eq_true.mp (by decide)
  have hhead : ∀ c ∈ (ascii "  you\n").head?, isSpace c = true := by
    intro c hc
    rw [← Option.some.inj hc]
    decide
  have hhead' : ∀ c ∈ (ascii "\n").head?, isSpace c = true := by
    intro c hc
    rw [← Option.some.inj hc]
    decide
  have htyped : Typed [ascii "hello", ascii "you"] (ascii "hello  you\n") :=
    ⟨by decide, [], ascii "  you\n", rfl, by simp, hhead, by decide, ascii "  ", ascii "\n", rfl,
      hblanks, hhead', hend⟩
  have hrun : ((garbage (ascii "hello  you\n")).1.run 2).map (fun p => p.2.length) = some 2 := by
    decide +kernel
  obtain ⟨⟨c', sent⟩, hsent, hlen⟩ := Option.map_eq_some_iff.mp hrun
  have hlen : sent.length = 2 := hlen
  refine ⟨c', sent, hsent, ?_⟩
  exact (prints_tokens_iff [ascii "hello", ascii "you"] (garbage (ascii "hello  you\n")).1 c'
    (garbage []).2 htyped (by decide) 2 sent hsent).mpr (by rw [hlen]; decide) 1 (ascii "you")
    (by omega) rfl

/-- A token of 512 bytes. -/
def longToken : List Byte := List.replicate 512 97

theorem longToken_isToken : ∀ t ∈ [longToken], IsToken t ∧ t.length ≤ 2047 := by
  decide +kernel

/-- A token of 512 bytes fills the buffer of the server, and `printf` runs past it. -/
theorem long_token_unterminated :
    ¬ ∀ (tokens : List (List Byte)) (c c' : UDPClient) (s : UDPServer),
      Typed tokens c.stdin → (∀ t ∈ tokens, t.length ≤ 2047) →
      ∀ (k : ℕ) (sent : List (List Byte)), c.run k = some (c', sent) →
        ∀ (i : ℕ) (t : List Byte), i < sent.length → tokens[i]? = some t →
          (s.run sent).2[i]? = some (some t) := by
  intro hprints
  have hrun : ((garbage (tokenLines [longToken])).1.run 1).map
      (fun p => (p.2.length, ((garbage []).2.run p.2).2)) = some (1, [none]) := by
    decide +kernel
  obtain ⟨⟨c', sent⟩, hsent, hprinted⟩ := Option.map_eq_some_iff.mp hrun
  obtain ⟨hlen, htexts⟩ := Prod.mk.inj hprinted
  have hlen : sent.length = 1 := hlen
  have htyped : Typed [longToken] (garbage (tokenLines [longToken])).1.stdin :=
    typed_tokenLines fun t ht => (longToken_isToken t ht).1
  have htext := hprints [longToken] _ c' (garbage []).2 htyped
    (fun t ht => (longToken_isToken t ht).2) 1 sent hsent 0 longToken (by omega) rfl
  have htexts : ((garbage []).2.run sent).2 = [none] := htexts
  rw [htexts] at htext
  cases htext

end SocketPrograms.HW3.Messaging
