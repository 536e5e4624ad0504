import SocketPrograms.Lib.Pair
import SocketPrograms.Lib.Stdio

/-!
# The file server of Project1

The child process of `ServerM.c` treats what one `recv` returns as one file name and
answers with the whole 1024-byte buffer that holds the contents, or an error text.

It clears `sendline` with `memset(sendline, 0, 2048)`, twice its size. What the overrun
leaves in the other two buffers is arbitrary here; neither is read before it is
rewritten. `fopen` fails on an absent file only.
-/

namespace SocketPrograms.Project1.ServerM

/-- The buffers of the child, and the names it has given to `fopen`. -/
structure Server where
  sendline : CharArray 1024
  recvline : CharArray 1024
  commline : CharArray 1024
  opened : List (List Byte)
  deriving DecidableEq

/-- What the overrun of `memset` leaves in `recvline` and in `commline`. -/
abbrev Overrun := CharArray 1024 × CharArray 1024

/-- The files of the server: the contents of a name, `none` where it is absent. -/
abbrev Files := List Byte → Option (List Byte)

/-- The text sent for an absent file. -/
def absentText : List Byte := ascii "Error! File does not exist. \n"

/-- `memset(recvline, 0, BUFFER_SIZE); recv(client_fd, &recvline, sizeof(recvline), 0)`. -/
def take (s : Server) (bytes : List Byte) : Option Server :=
  some { s with recvline := (s.recvline.memset 1024).store bytes }

/-- From `fopen` to the second `memset`: the bytes sent are `sendline`, all of it. -/
def work (files : Files) (overrun : Overrun) (s : Server) : Option (Server × List Byte) := do
  let name ← s.recvline.text
  let sendline ← match files name with
    | none => s.sendline.strncpy absentText 1024
    | some contents => (gather 1024 s.commline s.sendline contents).map Prod.snd
  return (⟨sendline.memset 2048, overrun.1, overrun.2, s.opened ++ [name]⟩, sendline.bytes)

/-- What the server is for: the contents of the file, or the error text. -/
def page (files : Files) (name : List Byte) : List Byte := (files name).getD absentText

/-- Every file is a string that fits the send buffer. -/
def Fits (files : Files) : Prop :=
  ∀ name contents, files name = some contents → NulFree contents ∧ contents.length ≤ 1023

/-- The bytes sent for the bytes of one `recv`. -/
def reply (files : Files) (bytes : List Byte) : List Byte := padded 1024 (page files (cstr bytes))

/-- A server at its start: `sendline` is zeroed, the rest of the memory is arbitrary. -/
structure Fresh (s : Server) : Prop where
  sendline : s.sendline.bytes = padded 1024 []
  opened : s.opened = []

variable {files : Files}

theorem page_fits (hfiles : Fits files) (name : List Byte) :
    NulFree (page files name) ∧ (page files name).length ≤ 1023 := by
  rw [page]
  cases hname : files name with
  | none => exact ⟨by decide, by decide⟩
  | some contents => exact hfiles name contents hname

theorem length_reply (hfiles : Fits files) (bytes : List Byte) :
    (reply files bytes).length = 1024 := by
  have := (page_fits hfiles (cstr bytes)).2
  exact length_padded (by omega)

/-- The child after a pass that opened `name` and sent the array `a`. -/
def sent (overrun : Overrun) (s : Server) (name : List Byte) (a : CharArray 1024) : Server :=
  ⟨a.memset 2048, overrun.1, overrun.2, s.opened ++ [name]⟩

theorem sendline_sent (overrun : Overrun) (s : Server) (name : List Byte) (a : CharArray 1024) :
    (sent overrun s name a).sendline.bytes = padded 1024 [] :=
  a.bytes_memset_of_le (by decide)

theorem work_of_none {overrun : Overrun} {s : Server} {name : List Byte}
    (htext : s.recvline.text = some name) (hname : files name = none) :
    work files overrun s = (s.sendline.strncpy absentText 1024).map fun a =>
      (sent overrun s name a, a.bytes) := by
  simp only [work, htext, hname, Option.bind_eq_bind, Option.bind_some]
  cases s.sendline.strncpy absentText 1024 <;> rfl

theorem work_of_some {overrun : Overrun} {s : Server} {name contents : List Byte}
    (htext : s.recvline.text = some name) (hname : files name = some contents) :
    work files overrun s = (gather 1024 s.commline s.sendline contents).map fun p =>
      (sent overrun s name p.2, p.2.bytes) := by
  simp only [work, htext, hname, Option.bind_eq_bind, Option.bind_some]
  cases gather 1024 s.commline s.sendline contents <;> rfl

/-- Every pass leaves `sendline` cleared, and has opened the name received. -/
theorem work_after {overrun : Overrun} {s s' : Server} {name bytes : List Byte}
    (htext : s.recvline.text = some name) (h : work files overrun s = some (s', bytes)) :
    s'.sendline.bytes = padded 1024 [] ∧ s'.opened = s.opened ++ [name] := by
  have hsent : ∃ a, s' = sent overrun s name a := by
    cases hname : files name with
    | none =>
        rw [work_of_none htext hname, Option.map_eq_some_iff] at h
        obtain ⟨a, _, ha⟩ := h
        exact ⟨a, (congrArg Prod.fst ha).symm⟩
    | some contents =>
        rw [work_of_some htext hname, Option.map_eq_some_iff] at h
        obtain ⟨p, _, hp⟩ := h
        exact ⟨p.2, (congrArg Prod.fst hp).symm⟩
  obtain ⟨a, rfl⟩ := hsent
  exact ⟨sendline_sent overrun s name a, rfl⟩

/-- The error text is copied over all of `sendline`, whatever that held. -/
theorem work_absent (overrun : Overrun) {s : Server} {name : List Byte}
    (htext : s.recvline.text = some name) (hname : files name = none) :
    ∃ s', work files overrun s = some (s', padded 1024 absentText) := by
  obtain ⟨a, hcopy, ha⟩ :=
    s.sendline.strncpy_padded (show absentText.length ≤ 1024 by decide)
  exact ⟨sent overrun s name a, by rw [work_of_none htext hname, hcopy, Option.map_some, ha]⟩

/-- The contents of a file are appended to what `sendline` held: they are sent with zeros
behind them exactly where it held the empty string, and zeros behind the length of the
contents. -/
theorem work_present_iff (overrun : Overrun) {s : Server} {name contents : List Byte}
    (htext : s.recvline.text = some name) (hname : files name = some contents)
    (hfree : NulFree contents) (hlen : contents.length ≤ 1023) :
    (∃ s', work files overrun s = some (s', padded 1024 contents)) ↔
      s.sendline.bytes.head? = some 0 ∧
        ∀ b ∈ s.sendline.bytes.drop (contents.length + 1), b = 0 := by
  rw [← gather_eq_padded_iff (by decide) le_rfl s.commline s.sendline hfree
    (show contents.length < 1024 by omega), work_of_some htext hname]
  constructor
  · rintro ⟨s', hwork⟩
    obtain ⟨p, hgather, hp⟩ := Option.map_eq_some_iff.mp hwork
    exact ⟨p.1, p.2, hgather, congrArg Prod.snd hp⟩
  · rintro ⟨com, a, hgather, ha⟩
    exact ⟨sent overrun s name a, by rw [hgather, Option.map_some, ha]⟩

/-- **One request**, from a cleared `sendline`: the page of the name received, and
`sendline` cleared again. -/
theorem work_spec (hfiles : Fits files) (overrun : Overrun) {s : Server} {name : List Byte}
    (hsend : s.sendline.bytes = padded 1024 []) (htext : s.recvline.text = some name) :
    ∃ s', work files overrun s = some (s', padded 1024 (page files name)) ∧
      s'.sendline.bytes = padded 1024 [] ∧ s'.opened = s.opened ++ [name] := by
  have hsent : ∃ s', work files overrun s = some (s', padded 1024 (page files name)) := by
    rw [page]
    cases hname : files name with
    | none => exact work_absent overrun htext hname
    | some contents =>
        obtain ⟨hfree, hlen⟩ := hfiles name contents hname
        apply (work_present_iff overrun htext hname hfree hlen).mpr
        rw [hsend, padded, List.nil_append]
        exact ⟨rfl, fun b hb => List.eq_of_mem_replicate (List.mem_of_mem_drop hb)⟩
  obtain ⟨s', hwork⟩ := hsent
  exact ⟨s', hwork, work_after htext hwork⟩

/-- Without a NUL in `recvline` there is no name. -/
theorem work_cases (hfiles : Fits files) (overrun : Overrun) {s : Server} {bytes : List Byte}
    (hsend : s.sendline.bytes = padded 1024 []) (hrecv : s.recvline.bytes = padded 1024 bytes) :
    work files overrun s = none ∨
      ∃ s', work files overrun s = some (s', reply files bytes) ∧
        s'.sendline.bytes = padded 1024 [] ∧ s'.opened = s.opened ++ [cstr bytes] := by
  rcases textOf_padded 1024 bytes with hterm | ⟨hterm, _⟩
  · right
    exact work_spec hfiles overrun hsend (by rw [CharArray.text, hrecv, hterm])
  · left
    have htext : s.recvline.text = none := by rw [CharArray.text, hrecv, hterm]
    simp [work, htext]

/-! ## Any run -/

/-- The server's history: `r` are the results of its `recv` calls, `t` its sends. -/
structure Served (files : Files) (at_ : Pair.ServerAt) (s : Server) (r t : List (List Byte)) :
    Prop where
  sendline : s.sendline.bytes = padded 1024 []
  sent : t <+: r.map (reply files)
  receiving : at_ = .receiving → t = r.map (reply files)
  working : at_ = .working → ∃ r' bytes, r = r' ++ [bytes] ∧ t = r'.map (reply files) ∧
    s.recvline.bytes = padded 1024 bytes

/-- Each request received is answered once, in order, whatever the client and the two
streams do. -/
theorem served_inv {C : Type} {closing : C → Bool} {ask : C → Option (C × List Byte)}
    {readMax : ℕ} {hear : C → List Byte → C} (hfiles : Fits files) (Ok : Overrun → Prop) :
    Pair.ServerInv (⟨closing, ask, readMax, hear, 1024, take, work files⟩ : Pair C Server Overrun)
      Fresh Ok (Served files) where
  start := by
    intro s hs
    exact ⟨hs.sendline, by simp, by simp, by simp⟩
  take_none := by
    intro s bytes r t _ _ _ hnone
    cases hnone
  take_some := by
    intro s s' bytes r t H _ hlen hsome
    obtain rfl : { s with recvline := (s.recvline.memset 1024).store bytes } = s' :=
      Option.some.inj hsome
    have hrecv : ((s.recvline.memset 1024).store bytes).bytes = padded 1024 bytes :=
      CharArray.bytes_store_padded (s.recvline.bytes_memset_of_le le_rfl) hlen
    have ht : t = r.map (reply files) := H.receiving rfl
    refine ⟨H.sendline, ?_, by simp, fun _ => ⟨r, bytes, rfl, ht, hrecv⟩⟩
    rw [ht, List.map_append]
    exact List.prefix_append _ _
  work_none := by
    intro s w r t H _ _
    exact ⟨H.sendline, H.sent, by simp, by simp⟩
  work_some := by
    intro s s' w bytes r t H _ hwork
    obtain ⟨r', received, hr, ht, hrecv⟩ := H.working rfl
    rcases work_cases hfiles w H.sendline hrecv with hnone | ⟨s₁, hspec, hsend, _⟩
    · exact absurd (hnone.symm.trans hwork) (by simp)
    · obtain ⟨rfl, rfl⟩ : s₁ = s' ∧ reply files received = bytes := by
        simpa using hspec.symm.trans hwork
      have hsent : t ++ [reply files received] = r.map (reply files) := by
        rw [ht, hr, List.map_append]
        rfl
      exact ⟨hsend, hsent ▸ List.prefix_rfl, fun _ => hsent, by simp⟩

end SocketPrograms.Project1.ServerM
