import SocketPrograms.HW2.RemoteCommand

/-!
# The backlog of unread replies in the HW2 pair

Each reply is 1024 bytes and each iteration of the client reads at most 100. Even
where TCP keeps the client's writes apart and every read takes all it may, the reads
fall behind: the read of iteration `k` starts at most `100 * k` bytes into the reply
stream, and reply `k` starts at byte `1024 * k`.

## Main results

* `FirstRead` — the invariant of the reading side.
* `own_reply_iff` — the client prints each reply in its own iteration exactly where it
  has completed at most one iteration, and that one printed a short output or found a
  zero behind the cleared part of `recvline`.
-/

namespace SocketPrograms.HW2.RemoteCommand

variable {sizeofFp : ℕ} {stdin tail : List Byte}
  {tr : List (Pair.State (LineClient 1000) EchoServer.Server × Pair.Label (List Byte))}
  {x : Pair.State (LineClient 1000) EchoServer.Server}

/-- A read takes as many of the available bytes as it may. -/
def ReadsAll (x : Pair.State (LineClient 1000) EchoServer.Server) :
    Pair.Label (List Byte) → Prop
  | .read n => n = min 100 x.down.length
  | _ => True

/-- The output of a command is a string of at most 1023 bytes. -/
def OutputFits : Pair.Label (List Byte) → Prop
  | .send output => NulFree output ∧ output.length ≤ 1023
  | _ => True

/-- A step of the kindest network: each `recv` is one write, each read takes all it
may, and the outputs fit. -/
def Ideal (x : Pair.State (LineClient 1000) EchoServer.Server) (a : Pair.Label (List Byte)) :
    Prop :=
  Pair.WholeRecv x a ∧ ReadsAll x a ∧ OutputFits a

instance (x : Pair.State (LineClient 1000) EchoServer.Server) (a : Pair.Label (List Byte)) :
    Decidable (ReadsAll x a) :=
  match a with
  | .read _ => inferInstanceAs (Decidable (_ = _))
  | .ask => .isTrue trivial
  | .recv _ => .isTrue trivial
  | .send _ => .isTrue trivial

instance (a : Pair.Label (List Byte)) : Decidable (OutputFits a) :=
  match a with
  | .send _ => inferInstanceAs (Decidable (_ ∧ _))
  | .ask => .isTrue trivial
  | .recv _ => .isTrue trivial
  | .read _ => .isTrue trivial

instance (x : Pair.State (LineClient 1000) EchoServer.Server) (a : Pair.Label (List Byte)) :
    Decidable (Ideal x a) :=
  inferInstanceAs (Decidable (_ ∧ _ ∧ _))

/-- What the client is to print in iteration `k`: the output of command `k`, cut to the
100 bytes it reads, and from the bytes of reply `k`. -/
structure OwnReply (x : Pair.State (LineClient 1000) EchoServer.Server) (k : ℕ) : Prop where
  command : x.server.ran[k]? = (x.wrote.map cstr)[k]?
  text : ∃ output, x.server.outputs[k]? = some output ∧
    x.client.printed[k]? = some (some (output.take 100))
  starts : 1024 * k ≤ (x.heard.take k).flatten.length
  ends : (x.heard.take (k + 1)).flatten.length ≤ 1024 * (k + 1)

/-! ## The replies -/

/-- The server's sends are the outputs, zero-padded to the whole buffer; no output is
there before its command was run. -/
structure Replied (at_ : Pair.ServerAt) (s : EchoServer.Server) (r t : List (List Byte)) :
    Prop where
  sent : t = s.outputs.map (padded 1024)
  fits : ∀ o ∈ s.outputs, NulFree o ∧ o.length ≤ 1023
  ran : s.outputs.length ≤ s.ran.length
  working : at_ = .working → s.outputs.length < s.ran.length ∧
    ∃ (b : Buffers 1024) (bytes : List Byte), s.bufs = b.receive bytes

theorem replied_inv (h2 : 2 ≤ sizeofFp) (hn : sizeofFp ≤ 1024) :
    Pair.ServerInv (pair sizeofFp) Fresh (fun w => NulFree w ∧ w.length ≤ 1023) Replied where
  start := by
    intro s hs
    exact ⟨by simp [hs.2], by simp [hs.2], by simp [hs.2], by simp⟩
  take_none := by
    intro s bytes r t H _ _ _
    exact ⟨H.sent, H.fits, H.ran, by simp⟩
  take_some := by
    intro s s' bytes r t H _ hlen htake
    obtain rfl := EchoServer.take_eq_some hlen htake
    have hran := H.ran
    exact ⟨H.sent, H.fits, by simp; omega, fun _ => ⟨by simp; omega, s.bufs, bytes, rfl⟩⟩
  work_none := by
    intro s w r t H _ _
    exact ⟨H.sent, H.fits, H.ran, by simp⟩
  work_some := by
    intro s s' w bytes r t H hw hwork
    obtain ⟨hlt, b, received, hb⟩ := H.working rfl
    obtain ⟨s₁, hspec, hran, houtputs⟩ :=
      EchoServer.work_spec h2 hn { s with bufs := b } received hw.1 (Nat.lt_succ_of_le hw.2)
    have hs : { s with bufs := b.receive received } = s := by rw [← hb]
    obtain ⟨rfl, rfl⟩ : s₁ = s' ∧ padded 1024 w = bytes := by
      simpa [hs] using hspec.symm.trans ((congrArg _ hs).trans hwork)
    refine ⟨by rw [houtputs, H.sent, List.map_append]; rfl, ?_, ?_, by simp⟩
    · rw [houtputs]
      exact List.forall_mem_append.mpr ⟨H.fits, by simpa using hw⟩
    · rw [houtputs, hran, List.length_append, List.length_singleton]
      exact hlt

/-! ## The reads -/

/-- Each send is a whole buffer, no read exceeds 100 bytes, and the first read takes
100 bytes, since a whole reply is there. -/
structure FirstRead (x : Pair.State (LineClient 1000) EchoServer.Server) : Prop where
  kept : Pair.StreamsKept x
  sent : ∀ b ∈ x.sent, b.length = 1024
  heard : ∀ b ∈ x.heard, b.length ≤ 100
  first : ∀ b, x.heard.head? = some b → b.length = 100

/-- A send is the 1024 bytes of `sendBuf`. -/
theorem length_sent {s s' : EchoServer.Server} {output bytes : List Byte}
    (h : EchoServer.work sizeofFp output s = some (s', bytes)) : bytes.length = 1024 := by
  obtain ⟨b, _, hb⟩ := Option.bind_eq_some_iff.mp h
  simp only [Option.pure_def, Option.some.injEq, Prod.mk.injEq] at hb
  rw [← hb.2, CharArray.length_bytes]

theorem FirstRead.next {y : Pair.State (LineClient 1000) EchoServer.Server}
    {a : Pair.Label (List Byte)} (hall : ReadsAll x a) (hx : FirstRead x)
    (h : (pair sizeofFp).next x a = some y) : FirstRead y := by
  have hkept := hx.kept.next h
  cases a with
  | ask =>
      rcases (Pair.ask_cases h).2 with ⟨_, rfl⟩ | ⟨_, _, rfl⟩ | ⟨c, bytes, _, _, rfl⟩ <;>
        exact ⟨hkept, hx.sent, hx.heard, hx.first⟩
  | recv n =>
      rcases (Pair.recv_cases h).2.2.2.2 with ⟨_, rfl⟩ | ⟨s, _, rfl⟩ <;>
        exact ⟨hkept, hx.sent, hx.heard, hx.first⟩
  | send w =>
      rcases (Pair.send_cases h).2 with ⟨_, rfl⟩ | ⟨s, bytes, hwork, rfl⟩
      · exact ⟨hkept, hx.sent, hx.heard, hx.first⟩
      · have hlen : bytes.length = 1024 := length_sent hwork
        exact ⟨hkept, List.forall_mem_append.mpr ⟨hx.sent, by simpa using hlen⟩, hx.heard, hx.first⟩
  | read n =>
      obtain ⟨_, h1, _, hn, rfl⟩ := Pair.read_cases h
      have hall : n = min 100 x.down.length := hall
      have hlen : (x.down.take n).length ≤ 100 := by
        rw [List.length_take]
        omega
      refine ⟨hkept, hx.sent, List.forall_mem_append.mpr ⟨hx.heard, by simpa using hlen⟩, ?_⟩
      · intro b hb
        cases hheard : x.heard with
        | cons c cs =>
            refine hx.first b ?_
            simpa [hheard] using hb
        | nil =>
            -- nothing was read before, so the bytes at hand are whole replies
            have hdown : x.sent.flatten = x.down := by simpa [hheard] using hx.kept.down
            have hlen : 1024 ≤ x.down.length := by
              cases hsent : x.sent with
              | nil => rw [← hdown, hsent] at hn; simp at hn; omega
              | cons t ts =>
                  have ht := hx.sent t (by simp [hsent])
                  rw [← hdown, hsent, List.flatten_cons, List.length_append]
                  omega
            obtain rfl : x.down.take n = b := by simpa [hheard] using hb
            rw [List.length_take]
            omega

theorem firstRead (h : (system sizeofFp stdin tail).Exec tr x)
    (hall : ∀ p ∈ tr, ReadsAll p.1 p.2) : FirstRead x := by
  refine h.invariant FirstRead ReadsAll ?_ ?_ hall
  · rintro x ⟨c, s, _, _, rfl⟩
    exact ⟨⟨rfl, rfl⟩, by simp [Pair.State.initial], by simp [Pair.State.initial],
      by simp [Pair.State.initial]⟩
  · intro x a y hg hx hstep
    exact hx.next hg hstep

/-- Reads of at most `m` bytes are at most `m * k` bytes in after `k` of them. -/
theorem length_flatten_take_le {m : ℕ} {bs : List (List Byte)} (h : ∀ b ∈ bs, b.length ≤ m)
    (k : ℕ) : (bs.take k).flatten.length ≤ m * k := by
  induction k generalizing bs with
  | zero => simp
  | succ k ih =>
      cases bs with
      | nil => simp
      | cons b bs =>
          have hb : b.length ≤ m := h b (by simp)
          have hbs := ih (fun c hc => h c (List.mem_cons_of_mem _ hc))
          rw [List.take_succ_cons, List.flatten_cons, List.length_append, Nat.mul_succ]
          omega

/-! ## What is printed -/

/-- The first 100 bytes of a reply print its output, unless 100 bytes without NUL meet
garbage behind the cleared part of `recvline`. -/
theorem shown_take_eq_iff {output : List Byte} (hnul : NulFree output) :
    LineClient.shown tail ((padded 1024 output).take 100) = some (output.take 100) ↔
      output.length < 100 ∨ tail.head? = some 0 := by
  have hfree : NulFree (output.take 100) := hnul.sublist (List.take_sublist _ _)
  have hshown : LineClient.shown tail ((padded 1024 output).take 100) =
      textOf (padded 100 (output.take 100) ++ tail) := by
    rw [LineClient.shown, padded_of_length (by rw [List.length_take, padded]; simp; omega),
      take_padded (by decide)]
  rw [hshown]
  by_cases hshort : output.length < 100
  · have hlen : (output.take 100).length < 100 := by
      rw [List.length_take]
      omega
    simp only [hshort, true_or, iff_true]
    rw [padded_eq_append_zero hlen, List.append_assoc, List.cons_append, textOf_append_zero,
      cstr_of_nulFree hfree]
  · simp only [hshort, false_or]
    rw [padded_of_length (by rw [List.length_take]; omega)]
    exact textOf_append_eq_iff hfree tail

/-- The first read takes the first 100 bytes of the first reply. -/
theorem first_bytes (hread : FirstRead x)
    (hreplied : Replied x.serverAt x.server x.recvd x.sent) {b : List Byte}
    (hb : x.heard = [b]) :
    ∃ output outputs, x.server.outputs = output :: outputs ∧
      b = (padded 1024 output).take 100 := by
  have hlen : b.length = 100 := hread.first b (by simp [hb])
  have hdown : b ++ x.down = (x.server.outputs.map (padded 1024)).flatten := by
    rw [← hreplied.sent]
    simpa [hb] using hread.kept.down.symm
  cases houtputs : x.server.outputs with
  | nil =>
      rw [houtputs, List.map_nil, List.flatten_nil] at hdown
      have hnil : b = [] := (List.append_eq_nil_iff.mp hdown).1
      rw [hnil] at hlen
      cases hlen
  | cons output outputs =>
      refine ⟨output, outputs, rfl, ?_⟩
      have hfits := hreplied.fits output (by simp [houtputs])
      rw [houtputs, List.map_cons, List.flatten_cons] at hdown
      have htake := congrArg (List.take 100) hdown
      rwa [List.take_append_of_le_length (by omega), List.take_of_length_le (by omega),
        List.take_append_of_le_length (by rw [length_padded (by omega)]; omega)] at htake

/-- The reply printed first is the reply to the first command. -/
theorem ownReply_zero (h2 : 2 ≤ sizeofFp) (hn : sizeofFp ≤ 1024)
    (h : (system sizeofFp stdin tail).Exec tr x) (hideal : ∀ p ∈ tr, Ideal p.1 p.2)
    (hone : x.heard.length = 1) :
    ∃ output, x.server.outputs[0]? = some output ∧
      (OwnReply x 0 ↔ output.length < 100 ∨ tail.head? = some 0) := by
  have H := Pair.client_rule (LineClient.history_inv (by decide) stdin tail) h
  have hread : FirstRead x := firstRead h fun p hp => (hideal p hp).2.1
  have hreplied : Replied x.serverAt x.server x.recvd x.sent := by
    refine Pair.server_rule (replied_inv h2 hn) h fun p hp w hw => ?_
    have hfits := (hideal p hp).2.2
    rwa [hw] at hfits
  obtain ⟨b, hb⟩ := List.length_eq_one_iff.mp hone
  obtain ⟨output, outputs, houtputs, hbytes⟩ := first_bytes hread hreplied hb
  have hfits := hreplied.fits output (by simp [houtputs])
  have hprinted : x.client.printed[0]? = some (LineClient.shown tail b) := by
    rw [H.printed, hb]
    rfl
  have hcommand : x.server.ran[0]? = (x.wrote.map cstr)[0]? := by
    have hran := hreplied.ran
    obtain ⟨rest, hrest⟩ := (runsLines_of_whole h fun p hp => (hideal p hp).1).isPrefix
    rw [houtputs, List.length_cons] at hran
    rw [← hrest, List.getElem?_append_left (by omega)]
  refine ⟨output, by rw [houtputs]; rfl, ?_⟩
  rw [← shown_take_eq_iff hfits.1, ← hbytes]
  constructor
  · intro hown
    obtain ⟨o, ho, htext⟩ := hown.text
    obtain rfl : o = output := by simpa [houtputs] using ho.symm
    simpa [hprinted] using htext
  · intro hshown
    have hends : b.length = 100 := hread.first b (by simp [hb])
    refine ⟨hcommand, ⟨output, by simp [houtputs], by rw [hprinted, hshown]⟩, by simp, ?_⟩
    simp [hb, hends]

/-- **The client prints each reply in its own iteration exactly where** it has completed
at most one iteration, and that one had an output shorter than 100 bytes or a zero in
`recvline[100]`. -/
theorem own_reply_iff (sizeofFp : ℕ) (stdin tail : List Byte) (h2 : 2 ≤ sizeofFp)
    (hn : sizeofFp ≤ 1024)
    (tr : List (Pair.State (LineClient 1000) EchoServer.Server × Pair.Label (List Byte)))
    (x : Pair.State (LineClient 1000) EchoServer.Server)
    (h : (system sizeofFp stdin tail).Exec tr x) (hideal : ∀ p ∈ tr, Ideal p.1 p.2) :
    (∀ k < x.client.printed.length, OwnReply x k) ↔
      x.client.printed.length ≤ 1 ∧
        (x.client.printed.length = 1 →
          (∃ output, x.server.outputs[0]? = some output ∧ output.length < 100) ∨
            tail.head? = some 0) := by
  have H := Pair.client_rule (LineClient.history_inv (by decide) stdin tail) h
  have hread : FirstRead x := firstRead h fun p hp => (hideal p hp).2.1
  have hcount : x.client.printed.length = x.heard.length := by rw [H.printed, List.length_map]
  rw [hcount]
  constructor
  · intro hown
    -- the second read starts within the first reply
    have hle : x.heard.length ≤ 1 := by
      by_contra hgt
      have hstart := (hown 1 (by omega)).starts
      have hpos := length_flatten_take_le hread.heard 1
      omega
    refine ⟨hle, fun hone => ?_⟩
    obtain ⟨output, houtput, hiff⟩ := ownReply_zero h2 hn h hideal hone
    rcases hiff.mp (hown 0 (by omega)) with hshort | hzero
    · exact .inl ⟨output, houtput, hshort⟩
    · exact .inr hzero
  · rintro ⟨hle, hfirst⟩ k hk
    have hone : x.heard.length = 1 := by omega
    obtain rfl : k = 0 := by omega
    obtain ⟨output, houtput, hiff⟩ := ownReply_zero h2 hn h hideal hone
    refine hiff.mpr ((hfirst hone).imp_left ?_)
    rintro ⟨output', houtput', hshort⟩
    obtain rfl : output' = output := Option.some.inj (houtput'.symm.trans houtput)
    exact hshort

/-- One iteration prints its own reply. -/
theorem own_reply_iff_one :
    ∃ tr x, (system 8 fourLines.flatten (List.replicate 900 0)).Exec tr x ∧
      x.client.printed.length = 1 ∧ ∀ k < x.client.printed.length, OwnReply x k := by
  have hrun : (System.replay (pair 8).next (zeroed fourLines.flatten)
      [.ask, .recv 4, .send (ascii "notes\n"), .read 100]).map
        (fun p => (p.2.client.printed.length, decide (∀ q ∈ p.1, Ideal q.1 q.2))) =
      some (1, true) := by decide +kernel
  obtain ⟨tr, x, hexec, hx⟩ := System.exec_of_replay (zeroed_init 8 fourLines.flatten) hrun
  obtain ⟨hlen, hideal⟩ := Prod.mk.inj hx
  refine ⟨tr, x, hexec, hlen, ?_⟩
  refine (own_reply_iff 8 _ _ (by decide) (by decide) tr x hexec
    (of_decide_eq_true hideal)).mpr ⟨le_of_eq hlen, fun _ => .inr ?_⟩
  rw [List.head?_replicate]
  rfl

/-- On the kindest network, the second text printed is empty where the output of the
second command is not: the second read finds the zeros behind the first output. -/
theorem second_text_is_stale :
    ¬ ∀ (sizeofFp : ℕ) (stdin tail : List Byte), 2 ≤ sizeofFp → sizeofFp ≤ 1024 →
      ∀ (tr : List (Pair.State (LineClient 1000) EchoServer.Server × Pair.Label (List Byte)))
        (x : Pair.State (LineClient 1000) EchoServer.Server),
        (system sizeofFp stdin tail).Exec tr x → (∀ p ∈ tr, Ideal p.1 p.2) →
        ∀ (k : ℕ) (text : Option (List Byte)) (output : List Byte),
          x.client.printed[k]? = some text →
          x.server.outputs[k]? = some output → text = some (output.take 100) := by
  intro hown
  have hrun : (System.replay (pair 8).next (zeroed fourLines.flatten)
      [.ask, .recv 4, .send (ascii "notes\n"), .read 100,
        .ask, .recv 4, .send (ascii "uid=1000\n"), .read 100]).map
        (fun p => (p.2.client.printed, p.2.server.outputs,
          decide (∀ q ∈ p.1, Ideal q.1 q.2))) =
      some ([some (ascii "notes\n"), some []], [ascii "notes\n", ascii "uid=1000\n"],
        true) := by decide +kernel
  obtain ⟨tr, x, hexec, hx⟩ := System.exec_of_replay (zeroed_init 8 fourLines.flatten) hrun
  obtain ⟨hprinted, hrest⟩ := Prod.mk.inj hx
  obtain ⟨houtputs, hideal⟩ := Prod.mk.inj hrest
  have htext := hown 8 _ _ (by decide) (by decide) tr x
    hexec (of_decide_eq_true hideal)
    1 (some []) (ascii "uid=1000\n") (by rw [hprinted]; rfl) (by rw [houtputs]; rfl)
  exact absurd htext (by decide)

end SocketPrograms.HW2.RemoteCommand
