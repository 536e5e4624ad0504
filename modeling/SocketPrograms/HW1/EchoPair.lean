import SocketPrograms.LineClient

/-!
# The echo pair of HW1

`EchoClient2.c` against `EchoServer.cpp`. The server sends back the bytes of each
`recv`; the client prints what one read returned up to its first NUL. Each text is on
the wire with its terminator, so a read that takes the end of one text and the start
of the next loses the second.

## Main results

* `printed_eq` — in every run, each print is defined and is the text of one read.
* `echoes_iff` — nothing echoed is lost and the texts come in order exactly where no
  read returned text behind a NUL.
-/

namespace SocketPrograms.HW1.EchoPair

/-- The server's buffer, and the count of its last `recv`. -/
structure Server where
  buf : CharArray 1024
  read : ℕ
  deriving DecidableEq

/-- `recv(client_fd, buf, BUFFER_SIZE, 0)`. -/
def take (s : Server) (bytes : List Byte) : Option Server :=
  some ⟨s.buf.store bytes, bytes.length⟩

/-- `send(client_fd, buf, read, 0)`. -/
def work (_ : Unit) (s : Server) : Option (Server × List Byte) :=
  some (s, s.buf.bytes.take s.read)

/-- The client and the server on one connection. -/
def pair : Pair (LineClient 100) Server Unit := LineClient.pair 100 1024 take work

/-- The pair, for a client with this input; both memories are arbitrary. -/
def system (stdin : List Byte) : System (Pair.State (LineClient 100) Server) (Pair.Label Unit) :=
  pair.system (LineClient.Starts stdin []) fun _ => True

variable {stdin : List Byte} {tr : List (Pair.State (LineClient 100) Server × Pair.Label Unit)}
  {x : Pair.State (LineClient 100) Server}

/-- What the server sends is what it received. -/
structure Echoed (at_ : Pair.ServerAt) (s : Server) (r t : List (List Byte)) : Prop where
  receiving : at_ = .receiving → t = r
  working : at_ = .working → t ++ [s.buf.bytes.take s.read] = r
  defined : at_ ≠ .undefined

theorem echoed_inv : Pair.ServerInv pair (fun _ => True) (fun _ => True) Echoed where
  start := by
    intro s _
    exact ⟨fun _ => rfl, by simp, by simp⟩
  take_none := by
    intro s bytes r t _ _ _ hnone
    cases hnone
  take_some := by
    intro s s' bytes r t H _ hlen hsome
    obtain rfl : (⟨s.buf.store bytes, bytes.length⟩ : Server) = s' := Option.some.inj hsome
    have hlen : bytes.length ≤ 1024 := hlen
    have hbuf : (s.buf.store bytes).bytes.take bytes.length = bytes := by
      rw [CharArray.bytes_store hlen, List.take_left]
    refine ⟨by simp, fun _ => ?_, by simp⟩
    rw [H.receiving rfl]
    exact congrArg (fun b => r ++ [b]) hbuf
  work_none := by
    intro s w r t _ _ hnone
    cases hnone
  work_some := by
    intro s s' w bytes r t H _ hsome
    obtain ⟨rfl, rfl⟩ : s = s' ∧ s.buf.bytes.take s.read = bytes := by
      simpa [work] using (show work w s = some (s', bytes) from hsome)
    exact ⟨fun _ => H.working rfl, by simp, by simp⟩

theorem sent_isPrefix (h : (system stdin).Exec tr x) : x.sent <+: x.recvd := by
  have H := Pair.server_rule echoed_inv h (fun _ _ _ _ => trivial)
  cases hat : x.serverAt with
  | receiving => rw [H.receiving hat]
  | working => exact ⟨_, H.working hat⟩
  | undefined => exact absurd hat H.defined

/-- The bytes read are a prefix of the texts written, each with its terminator. -/
theorem heard_isPrefix_terminated (h : (system stdin).Exec tr x) :
    x.heard.flatten <+: terminated (x.wrote.map cstr) := by
  have H := Pair.client_rule (LineClient.history_inv (by decide) stdin []) h
  have hkept := Pair.streams_kept h
  have hsent : x.sent.flatten <+: x.recvd.flatten := (sent_isPrefix h).flatten
  have hheard : x.heard.flatten <+: x.sent.flatten := ⟨x.down, hkept.down.symm⟩
  have hrecvd : x.recvd.flatten <+: x.wrote.flatten := ⟨x.up, hkept.up.symm⟩
  have hwrote : terminated (x.wrote.map cstr) = x.wrote.flatten :=
    congrArg List.flatten H.wrote_eq.2.symm
  exact hwrote ▸ (hheard.trans hsent).trans hrecvd

/-- **Each print is defined**: a read of 100 bytes has a NUL among them, since no text
is longer than 99 bytes. What is printed is the text of the read. -/
theorem printed_eq (h : (system stdin).Exec tr x) :
    x.client.printed = (x.heard.map cstr).map some := by
  have H := Pair.client_rule (LineClient.history_inv (by decide) stdin []) h
  rw [H.printed, List.map_map]
  refine List.map_congr_left fun b hb => ?_
  have hinfix : b <:+: terminated (x.wrote.map cstr) :=
    (List.infix_of_mem_flatten hb).trans (heard_isPrefix_terminated h).isInfix
  have hterm : (0 : Byte) ∈ padded 100 b := by
    by_cases h0 : (0 : Byte) ∈ b
    · exact List.mem_append_left _ h0
    · have hlen : b.length ≤ 99 := by
        refine length_le_of_infix (fun t ht => ?_) hinfix h0
        rw [H.wrote_eq.1] at ht
        exact LineClient.length_le_of_mem_texts ht
      exact zero_mem_padded (by omega)
  rw [LineClient.shown, List.append_nil, textOf_of_mem hterm, cstr_padded]
  rfl

/-- What the client is to print: the texts it has sent, in order, and all of the text
it has read. -/
def Echoes (x : Pair.State (LineClient 100) Server) : Prop :=
  ∃ texts : List (List Byte), x.client.printed = texts.map some ∧
    texts.flatten <+: (x.wrote.map cstr).flatten ∧ texts.flatten = nonNul x.heard.flatten

/-- A read returns no text behind a NUL. -/
def KeepsText (x : Pair.State (LineClient 100) Server) : Pair.Label Unit → Prop
  | .read n => ZerosAfterText (x.down.take n)
  | _ => True

instance (x : Pair.State (LineClient 100) Server) (a : Pair.Label Unit) :
    Decidable (KeepsText x a) :=
  match a with
  | .read _ => inferInstanceAs (Decidable (ZerosAfterText _))
  | .ask => .isTrue trivial
  | .recv _ => .isTrue trivial
  | .send _ => .isTrue trivial

theorem keepsText_iff (h : (system stdin).Exec tr x) :
    (∀ p ∈ tr, KeepsText p.1 p.2) ↔ ∀ b ∈ x.heard, ZerosAfterText b := by
  rw [Pair.heard_eq h]
  constructor
  · intro hall b hb
    obtain ⟨⟨y, a⟩, hp, hread⟩ := List.mem_filterMap.mp hb
    cases a with
    | read n =>
        obtain rfl : y.down.take n = b := by simpa [Pair.readOf] using hread
        exact hall _ hp
    | ask => simp [Pair.readOf] at hread
    | recv n => simp [Pair.readOf] at hread
    | send w => simp [Pair.readOf] at hread
  · rintro hall ⟨y, a⟩ hp
    cases a with
    | read n => exact hall _ (List.mem_filterMap.mpr ⟨_, hp, rfl⟩)
    | ask => trivial
    | recv n => trivial
    | send w => trivial

/-- In the state a run has come to, the texts are right exactly where its reads kept
them. -/
theorem echoes_iff_heard (h : (system stdin).Exec tr x) :
    Echoes x ↔ ∀ b ∈ x.heard, ZerosAfterText b := by
  rw [← flatten_map_cstr_eq_iff]
  constructor
  · rintro ⟨texts, hprinted, _, hall⟩
    have htexts : texts = x.heard.map cstr :=
      List.map_injective_iff.mpr (fun _ _ => Option.some.inj) (hprinted.symm.trans (printed_eq h))
    rw [← htexts, hall]
  · intro hall
    refine ⟨x.heard.map cstr, printed_eq h, ?_, hall⟩
    have hfree : ∀ t ∈ x.wrote.map cstr, NulFree t := by
      intro t ht
      obtain ⟨w, _, rfl⟩ := List.mem_map.mp ht
      exact nulFree_cstr w
    rw [hall, ← nonNul_terminated hfree]
    exact (heard_isPrefix_terminated h).filter _

/-- **The texts printed are at all times a prefix of the texts sent, nothing echoed
lost, exactly where no read returned text behind a NUL.** -/
theorem echoes_iff (stdin : List Byte)
    (tr : List (Pair.State (LineClient 100) Server × Pair.Label Unit))
    (x : Pair.State (LineClient 100) Server) (h : (system stdin).Exec tr x) :
    (∀ y ∈ System.visited tr x, Echoes y) ↔ ∀ p ∈ tr, KeepsText p.1 p.2 := by
  constructor
  · intro hall
    exact (keepsText_iff h).mpr ((echoes_iff_heard h).mp (hall x (by simp)))
  · intro hkeeps y hy
    obtain ⟨tr', hpre, h'⟩ := h.exec_of_mem_visited y hy
    exact (echoes_iff_heard h').mpr
      ((keepsText_iff h').mp fun p hp => hkeeps p (hpre.subset hp))

/-- A pair at its start, with zeroed memory. -/
def zeroed (stdin : List Byte) : Pair.State (LineClient 100) Server :=
  .initial ⟨.fillWith 100 0, .fillWith 100 0, stdin, []⟩ ⟨.fillWith 1024 0, 0⟩

theorem zeroed_init (stdin : List Byte) : (system stdin).init (zeroed stdin) :=
  ⟨_, _, ⟨rfl, rfl, List.drop_replicate⟩, trivial, rfl⟩

/-- One text, in two reads. -/
theorem echoes_iff_split :
    ∃ tr x, (system (ascii "hello\n")).Exec tr x ∧
      x.client.printed = [some (ascii "hel"), some (ascii "lo\n")] ∧
      ∀ y ∈ System.visited tr x, Echoes y := by
  have hrun : (System.replay pair.next (zeroed (ascii "hello\n"))
      [.ask, .recv 7, .send (), .read 3, .ask, .read 4]).map
        (fun p => (p.2.client.printed, decide (∀ q ∈ p.1, KeepsText q.1 q.2))) =
      some ([some (ascii "hel"), some (ascii "lo\n")], true) := by decide +kernel
  obtain ⟨tr, x, hexec, hx⟩ := System.exec_of_replay (zeroed_init _) hrun
  obtain ⟨hprinted, hkeeps⟩ := Prod.mk.inj hx
  exact ⟨tr, x, hexec, hprinted,
    (echoes_iff _ tr x hexec).mpr (of_decide_eq_true hkeeps)⟩

/-- The end of the first text and the second text come in one read: the second is
lost, and the third is printed in its place. -/
theorem split_text_lost :
    ¬ ∀ (stdin : List Byte), NulFree stdin →
      ∀ (tr : List (Pair.State (LineClient 100) Server × Pair.Label Unit))
        (x : Pair.State (LineClient 100) Server), (system stdin).Exec tr x →
        ∀ texts : List (List Byte), x.client.printed = texts.map some →
          texts.flatten <+: (x.wrote.map cstr).flatten := by
  intro hechoes
  have hrun : (System.replay pair.next (zeroed (ascii "hello\nx\ny\n"))
      [.ask, .recv 7, .send (), .read 3, .ask, .recv 3, .send (), .read 7,
        .ask, .recv 3, .send (), .read 3]).map
        (fun p => (p.2.client.printed, p.2.wrote.map cstr)) =
      some ([ascii "hel", ascii "lo\n", ascii "y\n"].map some,
        [ascii "hello\n", ascii "x\n", ascii "y\n"]) := by decide +kernel
  obtain ⟨tr, x, hexec, hx⟩ := System.exec_of_replay (zeroed_init _) hrun
  obtain ⟨hprinted, hwrote⟩ := Prod.mk.inj hx
  have htexts := hechoes _ (by decide) tr x hexec _ hprinted
  rw [hwrote] at htexts
  exact absurd htexts (by decide)

end SocketPrograms.HW1.EchoPair
