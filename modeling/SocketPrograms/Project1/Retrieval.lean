import SocketPrograms.Project1.Client2
import SocketPrograms.Project1.ServerM

/-!
# The file retrieval pair of Project1

`Client2.c` against the child of `ServerM.c` on one connection. Both sides write records
of 1024 bytes and take one `recv` or read for one record. TCP keeps no records: after a
short read the rest of a page is the next page read.

## Main results

* `printed_isPrefix` — where every `recv` and every read returns a record, the client
  prints the pages of the names it wrote, in order.
* `retrieves_of_records` — so each text printed is the page of the name typed.
-/

namespace SocketPrograms.Project1.Retrieval

open ServerM (Files Overrun page reply)

/-- The client and the child on one connection. What a step of the server's work depends
on is what the overrun of `memset` leaves. -/
def pair (files : Files) : Pair Client2 ServerM.Server Overrun where
  closing := Client2.closing
  ask := Client2.ask
  readMax := 1024
  hear := Client2.hear
  recvMax := 1024
  take := ServerM.take
  work := ServerM.work files

/-- The pair, for a client with this input. -/
def system (files : Files) (stdin : List Byte) :
    System (Pair.State Client2 ServerM.Server) (Pair.Label Overrun) :=
  (pair files).system (Client2.Starts stdin) ServerM.Fresh

variable {files : Files} {stdin : List Byte}
  {tr : List (Pair.State Client2 ServerM.Server × Pair.Label Overrun)}
  {x : Pair.State Client2 ServerM.Server}

/-- What the client is to print in each iteration: the contents of the file named in that
iteration, or the error text where it is absent. After the last name typed, it asks for
the empty name. -/
def Retrieves (files : Files) (typed : List (List Byte))
    (x : Pair.State Client2 ServerM.Server) : Prop :=
  ∀ (k : ℕ) (text : Option (List Byte)), x.client.printed[k]? = some text →
    text = some (page files (typed[k]?.getD []))

/-- **A record read is a page**, whatever `recvline` held. -/
theorem textOf_reply (hfiles : ServerM.Fits files) {name : List Byte} (hname : NulFree name) :
    textOf (padded 1024 (reply files (padded 1024 name))) = some (page files name) := by
  obtain ⟨hfree, hlen⟩ := ServerM.page_fits hfiles name
  have hmem : (0 : Byte) ∈ padded 1024 (reply files (padded 1024 name)) := by
    apply List.mem_append_left
    rw [reply, cstr_padded, cstr_of_nulFree hname]
    exact zero_mem_padded (by omega)
  rw [textOf_of_mem hmem, cstr_padded, reply, cstr_padded, cstr_padded, cstr_of_nulFree hname,
    cstr_of_nulFree hfree]

/-- The texts printed are the pages of the names written, in order. -/
theorem printed_isPrefix (hfiles : ServerM.Fits files) (hfits : Client2.Fits stdin)
    (hfree : ∀ k, ∀ name ∈ Client2.names k stdin, NulFree name)
    (h : (system files stdin).Exec tr x) (hrec : ∀ p ∈ tr, Pair.ReadsRecord 1024 p.2) :
    x.client.printed <+:
      (Client2.names x.wrote.length stdin).map fun name => some (page files name) := by
  have C := Pair.client_rule (Client2.history_inv hfits) h
  have S := Pair.server_rule (ServerM.served_inv hfiles fun _ => True) h (fun _ _ _ _ => trivial)
  have hwrote : ∀ b ∈ x.wrote, b.length = 1024 := by
    intro b hb
    rw [C.wrote] at hb
    obtain ⟨name, hname, rfl⟩ := List.mem_map.mp hb
    have := hfits _ name hname
    exact length_padded (by omega)
  have hsent : ∀ b ∈ x.sent, b.length = 1024 := by
    intro b hb
    obtain ⟨bytes, _, rfl⟩ := List.mem_map.mp (S.sent.subset hb)
    exact ServerM.length_reply hfiles bytes
  obtain ⟨hrecvd, hheard⟩ := Pair.records_kept (by decide) h hrec hwrote hsent
  have hreplies : x.heard <+: x.wrote.map (reply files) :=
    (hheard.trans S.sent).trans (hrecvd.map _)
  calc
    x.client.printed = x.heard.map fun bytes => textOf (padded 1024 bytes) := C.printed
    _ <+: (x.wrote.map (reply files)).map fun bytes => textOf (padded 1024 bytes) :=
      hreplies.map _
    _ = (Client2.names x.wrote.length stdin).map fun name => some (page files name) := by
      conv_lhs => rw [C.wrote]
      rw [List.map_map, List.map_map]
      exact List.map_congr_left fun name hname => textOf_reply hfiles (hfree _ name hname)

/-- The names written are the tokens typed, then the empty name. -/
theorem names_tokens {typed : List (List Byte)} (htyped : ∀ t ∈ typed, IsToken t) (k : ℕ) :
    Client2.names k (tokenLines typed) = (List.range k).map fun i => typed[i]?.getD [] :=
  pieces_tokens htyped k

theorem name_of_mem {typed : List (List Byte)} (htyped : ∀ t ∈ typed, IsToken t) {k : ℕ}
    {name : List Byte} (hname : name ∈ Client2.names k (tokenLines typed)) :
    name = [] ∨ name ∈ typed := by
  rw [names_tokens htyped] at hname
  obtain ⟨i, _, rfl⟩ := List.mem_map.mp hname
  cases hi : typed[i]? with
  | none => exact .inl rfl
  | some t => exact .inr (List.mem_of_getElem? hi)

/-- **The client prints, in each iteration, the page of the name typed in it, in every
run in which each `recv` and each read returns one record.** -/
theorem retrieves_of_records (files : Files) (typed : List (List Byte))
    (hfiles : ServerM.Fits files) (htyped : ∀ t ∈ typed, IsToken t ∧ t.length ≤ 1023)
    (tr : List (Pair.State Client2 ServerM.Server × Pair.Label Overrun))
    (x : Pair.State Client2 ServerM.Server)
    (h : (system files (tokenLines typed)).Exec tr x)
    (hrec : ∀ p ∈ tr, Pair.ReadsRecord 1024 p.2) :
    ∀ y ∈ System.visited tr x, Retrieves files typed y := by
  have htoken : ∀ t ∈ typed, IsToken t := fun t ht => (htyped t ht).1
  have hfits : Client2.Fits (tokenLines typed) := by
    intro k name hname
    rcases name_of_mem htoken hname with rfl | hmem
    · simp
    · exact (htyped name hmem).2
  have hfree : ∀ k, ∀ name ∈ Client2.names k (tokenLines typed), NulFree name := by
    intro k name hname
    rcases name_of_mem htoken hname with rfl | hmem
    · simp
    · exact (htyped name hmem).1.nulFree
  intro y hy k text htext
  obtain ⟨tr', hpre, h'⟩ := h.exec_of_mem_visited y hy
  have hprinted := printed_isPrefix hfiles hfits hfree h' fun p hp => hrec p (hpre.subset hp)
  rw [names_tokens htoken, List.map_map] at hprinted
  obtain ⟨hlt, rfl⟩ := List.getElem?_eq_some_iff.mp htext
  rw [hprinted.getElem hlt, List.getElem_map, List.getElem_range]
  rfl

/-- Two files of one letter each. -/
def twoFiles : Files := fun name =>
  if name = ascii "a" then some (ascii "A\n")
  else if name = ascii "b" then some (ascii "B\n")
  else none

theorem twoFiles_fits : ServerM.Fits twoFiles := by
  intro name contents h
  rw [twoFiles] at h
  split at h
  · obtain rfl := Option.some.inj h
    exact ⟨by decide, by decide⟩
  · split at h
    · obtain rfl := Option.some.inj h
      exact ⟨by decide, by decide⟩
    · cases h

/-- Three names, the last of them of no file. -/
def threeNames : List (List Byte) := [ascii "a", ascii "b", ascii "c"]

theorem threeNames_isToken : ∀ t ∈ threeNames, IsToken t ∧ t.length ≤ 1023 := by
  decide +kernel

/-- A pair at its start, with zeroed memory. -/
def zeroed (stdin : List Byte) : Pair.State Client2 ServerM.Server :=
  .initial ⟨.fillWith 1024 0, .fillWith 1024 0, stdin, []⟩
    ⟨.fillWith 1024 0, .fillWith 1024 0, .fillWith 1024 0, []⟩

theorem zeroed_init (files : Files) (stdin : List Byte) :
    (system files stdin).init (zeroed stdin) :=
  ⟨_, _, ⟨rfl, rfl⟩, ⟨rfl, rfl⟩, rfl⟩

/-- An overrun that writes over both buffers. -/
def garbage : Overrun := (.fillWith 1024 88, .fillWith 1024 88)

/-- Three iterations with whole records. -/
theorem retrieves_of_records_three :
    ∃ tr x, (system twoFiles (tokenLines threeNames)).Exec tr x ∧
      x.client.printed.length = 3 ∧ Retrieves twoFiles threeNames x := by
  have hrun : (System.replay (pair twoFiles).next (zeroed (tokenLines threeNames))
      [.ask, .recv 1024, .send garbage, .read 1024, .ask, .recv 1024, .send garbage, .read 1024,
        .ask, .recv 1024, .send garbage, .read 1024]).map
        (fun p => (p.2.client.printed.length,
          decide (∀ q ∈ p.1, Pair.ReadsRecord 1024 q.2))) = some (3, true) := by
    decide +kernel
  obtain ⟨tr, x, hexec, hx⟩ := System.exec_of_replay (zeroed_init twoFiles _) hrun
  obtain ⟨hlen, hrec⟩ := Prod.mk.inj hx
  exact ⟨tr, x, hexec, hlen,
    retrieves_of_records twoFiles threeNames twoFiles_fits threeNames_isToken tr x hexec
      (of_decide_eq_true hrec) x (by simp)⟩

/-- The first read returns the text of the first page and not the zeros behind it: the
next read returns these, and the second page is not printed in its iteration. -/
theorem short_read_shifts :
    ¬ ∀ (files : Files) (typed : List (List Byte)), ServerM.Fits files →
      (∀ t ∈ typed, IsToken t ∧ t.length ≤ 1023) →
      ∀ (tr : List (Pair.State Client2 ServerM.Server × Pair.Label Overrun))
        (x : Pair.State Client2 ServerM.Server),
        (system files (tokenLines typed)).Exec tr x →
        ∀ (k : ℕ) (name : List Byte) (text : Option (List Byte)),
          typed[k]? = some name → x.client.printed[k]? = some text →
          text = some (page files name) := by
  intro hretrieves
  have hrun : (System.replay (pair twoFiles).next (zeroed (tokenLines threeNames))
      [.ask, .recv 1024, .send garbage, .read 2, .ask, .read 1022]).map
        (fun p => p.2.client.printed) = some [some (ascii "A\n"), some []] := by
    decide +kernel
  obtain ⟨tr, x, hexec, hprinted⟩ := System.exec_of_replay (zeroed_init twoFiles _) hrun
  have htext := hretrieves twoFiles threeNames twoFiles_fits threeNames_isToken tr x
    hexec 1 (ascii "b") (some []) rfl
    (by rw [hprinted]; rfl)
  exact absurd htext (by decide)

end SocketPrograms.Project1.Retrieval
