import SocketPrograms.Project1.Retrieval

/-!
# The first reply on a connection

`sendline` is an array on the stack of `ServerM.c` that is cleared behind each `send`, and not
before the first. The contents of a file are appended to what it holds; the error text is
copied over it.

## Main results

* `serve_spec` — from a cleared `sendline`, each buffer sent is the page of its request.
* `replies_iff` — from any memory, exactly where the first request does not find it.
-/

namespace SocketPrograms.Project1.FirstReply

open ServerM

/-- The loop of the child on the requests of a connection, each with what the overrun of
`memset` leaves: the child, and the buffer of each `send`. It has no test of `recvVal > 0`: the list
gives the passes that the loop makes. -/
def serve (files : Files) :
    Server → List (List Byte × Overrun) → Option (Server × List (List Byte))
  | s, [] => some (s, [])
  | s, (bytes, overrun) :: rs => do
      let s ← take s bytes
      let (s, sent) ← work files overrun s
      let (s, sends) ← serve files s rs
      return (s, sent :: sends)

/-- A request is one whole name: what a `recv` of 1024 bytes returned, with the name
terminated in `recvline`. -/
def IsRequest (bytes : List Byte) : Prop :=
  bytes.length ≤ 1024 ∧ CharArray.Terminates 1024 bytes

variable {files : Files}

/-- The name received, whatever `recvline` held. -/
theorem text_take {s : Server} {bytes : List Byte} (h : IsRequest bytes) :
    ∃ s', take s bytes = some s' ∧ s'.recvline.text = some (cstr bytes) ∧
      s'.sendline = s.sendline :=
  ⟨_, rfl, s.recvline.text_store_memset h.2, rfl⟩

/-- A first pass that sends its page, and the rest of the loop. -/
theorem serve_cons {s s₁ s₂ : Server} {bytes sent : List Byte} {overrun : Overrun}
    (rs : List (List Byte × Overrun)) (htake : take s bytes = some s₁)
    (hwork : work files overrun s₁ = some (s₂, sent)) :
    serve files s ((bytes, overrun) :: rs) =
      (serve files s₂ rs).map fun p => (p.1, sent :: p.2) := by
  rw [serve, htake, Option.bind_eq_bind, Option.bind_some, hwork]
  simp only [Option.bind_eq_bind, Option.bind_some]
  cases serve files s₂ rs <;> rfl

/-- From a cleared `sendline`, the buffers sent are the pages of the requests. -/
theorem serve_spec (hfiles : Fits files) (requests : List (List Byte × Overrun)) :
    ∀ s : Server, s.sendline.bytes = padded 1024 [] → (∀ r ∈ requests, IsRequest r.1) →
      ∃ s', serve files s requests = some (s', requests.map fun r => reply files r.1) := by
  induction requests with
  | nil =>
      intro s _ _
      exact ⟨s, rfl⟩
  | cons r rs ih =>
      intro s hsend hrequests
      obtain ⟨hr, hrs⟩ := List.forall_mem_cons.mp hrequests
      obtain ⟨s₁, htake, htext, hsame⟩ := text_take (s := s) hr
      obtain ⟨s₂, hwork, hclear, _⟩ :=
        work_spec hfiles r.2 (by rw [hsame]; exact hsend) htext
      obtain ⟨s', hserve⟩ := ih s₂ hclear hrs
      exact ⟨s', by rw [serve_cons rs htake hwork, hserve]; rfl⟩

/-- The loop sends the pages of its requests exactly where its first pass does. -/
theorem serve_cons_iff (hfiles : Fits files) {s s₁ : Server} {bytes : List Byte}
    (overrun : Overrun) {rs : List (List Byte × Overrun)} (htake : take s bytes = some s₁)
    (htext : s₁.recvline.text = some (cstr bytes)) (hrs : ∀ r ∈ rs, IsRequest r.1) :
    (∃ s', serve files s ((bytes, overrun) :: rs) =
        some (s', reply files bytes :: rs.map fun r => reply files r.1)) ↔
      ∃ s₂, work files overrun s₁ = some (s₂, reply files bytes) := by
  constructor
  · rintro ⟨s', hserve⟩
    cases hwork : work files overrun s₁ with
    | none =>
        rw [serve, htake, Option.bind_eq_bind, Option.bind_some, hwork] at hserve
        cases hserve
    | some p =>
        rw [serve_cons rs htake hwork, Option.map_eq_some_iff] at hserve
        obtain ⟨q, _, hq⟩ := hserve
        have hsent : p.2 = reply files bytes := by
          simpa using congrArg (fun q => q.2.head?) hq
        exact ⟨p.1, by rw [← hsent]⟩
  · rintro ⟨s₂, hwork⟩
    obtain ⟨s', hserve⟩ := serve_spec hfiles rs s₂ (work_after htext hwork).1 hrs
    exact ⟨s', by rw [serve_cons rs htake hwork, hserve]; rfl⟩

/-- **From any memory, the buffers that the child sends are the files named, each followed by
zeros, exactly where** the first file named, if it exists, finds the empty string in
`sendline`, and zeros behind its own length. -/
theorem replies_iff (files : Files) (hfiles : Fits files) (s : Server)
    (requests : List (List Byte × Overrun)) (hrequests : ∀ r ∈ requests, IsRequest r.1) :
    (∃ s', serve files s requests =
        some (s', requests.map fun r => padded 1024 (page files (cstr r.1)))) ↔
      ∀ r contents, requests.head? = some r → files (cstr r.1) = some contents →
        s.sendline.bytes.head? = some 0 ∧
          ∀ b ∈ s.sendline.bytes.drop (contents.length + 1), b = 0 := by
  cases requests with
  | nil => simp [serve]
  | cons r rs =>
      obtain ⟨hr, hrs⟩ := List.forall_mem_cons.mp hrequests
      obtain ⟨s₁, htake, htext, hsame⟩ := text_take (s := s) hr
      have hfirst := serve_cons_iff hfiles r.2 htake htext hrs
      rw [show (∃ s', serve files s (r :: rs) =
          some (s', (r :: rs).map fun r => padded 1024 (page files (cstr r.1)))) ↔
        ∃ s₂, work files r.2 s₁ = some (s₂, reply files r.1) from hfirst, reply, page]
      cases hname : files (cstr r.1) with
      | none =>
          constructor
          · intro _ r' contents hr' hcontents
            obtain rfl := Option.some.inj hr'
            cases hname.symm.trans hcontents
          · intro _
            exact work_absent r.2 htext hname
      | some contents =>
          obtain ⟨hfree, hlen⟩ := hfiles _ contents hname
          rw [Option.getD_some, work_present_iff r.2 htext hname hfree hlen, hsame]
          constructor
          · intro h r' contents' hr' hcontents
            obtain rfl := Option.some.inj hr'
            obtain rfl := Option.some.inj (hname.symm.trans hcontents)
            exact h
          · intro h
            exact h r contents rfl hname

/-- A child whose `sendline` holds this text and zeros, with garbage in its other buffers. -/
def holding (text : List Byte) (h : text.length ≤ 1024) : Server :=
  ⟨⟨padded 1024 text, length_padded h⟩, .fillWith 1024 88, .fillWith 1024 88, []⟩

/-- Garbage in `sendline`: the first file is absent, the second one exists. -/
theorem replies_iff_two :
    ∃ s', serve Retrieval.twoFiles (holding (ascii "old") (by decide))
        [(ascii "c" ++ [0], Retrieval.garbage), (ascii "a" ++ [0], Retrieval.garbage)] =
      some (s', [padded 1024 absentText, padded 1024 (ascii "A\n")]) := by
  have hrequests : ∀ r ∈ [(ascii "c" ++ [0], Retrieval.garbage),
      (ascii "a" ++ [0], Retrieval.garbage)], IsRequest r.1 := by
    rw [List.forall_mem_cons, List.forall_mem_singleton]
    exact ⟨⟨by decide, by decide⟩, by decide, by decide⟩
  apply (replies_iff Retrieval.twoFiles Retrieval.twoFiles_fits
    (holding (ascii "old") (by decide)) _ hrequests).mpr
  intro r contents hr hcontents
  have habsent : Retrieval.twoFiles (cstr (ascii "c" ++ [0])) = none := by decide
  obtain rfl := Option.some.inj hr
  cases habsent.symm.trans hcontents

/-- Three letters in `sendline` are sent in front of the first file. -/
theorem old_text_is_sent :
    ¬ ∀ (files : Files), Fits files → ∀ (s : Server) (requests : List (List Byte × Overrun)),
      (∀ r ∈ requests, IsRequest r.1) →
      ∃ s', serve files s requests =
        some (s', requests.map fun r => padded 1024 (page files (cstr r.1))) := by
  intro hreplies
  obtain ⟨s', hserve⟩ := hreplies Retrieval.twoFiles Retrieval.twoFiles_fits
    (holding (ascii "old") (by decide)) [(ascii "a" ++ [0], Retrieval.garbage)]
    (by rw [List.forall_mem_singleton]; exact ⟨by decide, by decide⟩)
  have hsent : (serve Retrieval.twoFiles (holding (ascii "old") (by decide))
      [(ascii "a" ++ [0], Retrieval.garbage)]).map (fun p => p.2.map cstr) =
        some [ascii "oldA\n"] := by decide +kernel
  have hpage : cstr (padded 1024 (page Retrieval.twoFiles (cstr (ascii "a" ++ [0])))) =
      ascii "A\n" := by decide +kernel
  rw [hserve, Option.map_some, List.map_singleton, List.map_singleton, hpage] at hsent
  exact absurd hsent (by decide)

end SocketPrograms.Project1.FirstReply
