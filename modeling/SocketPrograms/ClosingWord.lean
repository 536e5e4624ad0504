import SocketPrograms.LineClient
import SocketPrograms.HW3.UDPClient
import SocketPrograms.Project1.Client2
import SocketPrograms.Lib.Lines
import SocketPrograms.Lib.Loop

/-!
# The word that ends a client

The loops of the clients go on until `sendline` starts with `"close"`; what their input calls
return is not looked at. This module states the loops by themselves, with whatever the peer
answers, and shows what drives each of them: the pieces of a line in the TCP clients of HW1 and
HW2, the tokens in the clients of HW3 and Project1. What they print of an answer has no part in
this.

## Main results

* `LineClient.loop_reads`, `UDPClient.loop_reads`, `Client2.loop_reads` — what one iteration
  of each loop takes, which iterations are defined, and behind which the loop ends.
-/

namespace SocketPrograms

/-- The text starts with `"close"`. -/
def BeginsClose (s : List Byte) : Prop := s.take 5 = ascii "close"

instance (s : List Byte) : Decidable (BeginsClose s) :=
  inferInstanceAs (Decidable (s.take 5 = ascii "close"))

theorem beginsClose_append_zero (s t : List Byte) : BeginsClose (s ++ 0 :: t) ↔ BeginsClose s :=
  take_append_cons_eq_iff (w := ascii "close") (by decide) s t

@[simp] theorem not_beginsClose_nil : ¬ BeginsClose [] := by decide

/-- The string at the start of a text decides. -/
theorem beginsClose_cstr (s : List Byte) : BeginsClose (cstr s) ↔ BeginsClose s := by
  by_cases h : (0 : Byte) ∈ s
  · have htext : (⟨s, rfl⟩ : CharArray s.length).text = some (cstr s) := textOf_of_mem h
    obtain ⟨_, tail, hs⟩ := CharArray.text_eq_some_iff.mp htext
    have hs : s = cstr s ++ 0 :: tail := hs
    conv_rhs => rw [hs, beginsClose_append_zero]
  · rw [cstr_of_nulFree h]

/-- The test of an array that holds a string. -/
theorem beginsClose_bytes {n : ℕ} {a : CharArray n} {s : List Byte} (h : a.text = some s) :
    BeginsClose a.bytes ↔ BeginsClose s := by
  obtain ⟨_, tail, hbytes⟩ := CharArray.text_eq_some_iff.mp h
  rw [hbytes, beginsClose_append_zero]

/-! ## The word in a long line -/

variable {s l : List Byte} {ls : List (List Byte)}

/-- A piece of the first line is tested by its first five bytes. -/
theorem beginsClose_pieceAt (h : textLines s = l :: ls) {j : ℕ} (hj : j < pieceCount 99 l) :
    BeginsClose (pieceAt (lineCut 99) j s) ↔ BeginsClose (l.drop (99 * j)) := by
  rw [pieceAt_textLines (by decide) h ((lt_pieceCount_iff (by decide)).mp hj), BeginsClose,
    BeginsClose, List.take_take]
  rfl

/-- Behind the end of a line there is no word. -/
theorem lt_pieceCount_of_beginsClose {j : ℕ} (h : BeginsClose (l.drop (99 * j))) :
    j < pieceCount 99 l := by
  rw [lt_pieceCount_iff (by decide)]
  by_contra hend
  rw [List.drop_eq_nil_of_le (by omega)] at h
  exact not_beginsClose_nil h

/-- **Some piece of an input begins with the word** exactly where some line has it at the start
of one of its pieces. -/
theorem exists_pieceAt_iff :
    (∃ k, BeginsClose (pieceAt (lineCut 99) k s)) ↔
      ∃ l ∈ textLines s, ∃ k, BeginsClose (l.drop (99 * k)) := by
  generalize h : textLines s = ls
  induction ls generalizing s with
  | nil =>
      rw [textLines_eq_nil h]
      simp [pieceAt_nil (lineCut 99) (lineCut_nil 99)]
  | cons l ls ih =>
      have hrest := ih (unread_pieceCount (m := 99) (by decide) h)
      rw [List.exists_mem_cons_iff, ← hrest]
      constructor
      · rintro ⟨k, hk⟩
        by_cases hlt : k < pieceCount 99 l
        · exact .inl ⟨k, (beginsClose_pieceAt h hlt).mp hk⟩
        · obtain ⟨i, rfl⟩ := Nat.exists_eq_add_of_le (not_lt.mp hlt)
          rw [pieceAt_add] at hk
          exact .inr ⟨i, hk⟩
      · rintro (⟨k, hk⟩ | ⟨i, hi⟩)
        · exact ⟨k, (beginsClose_pieceAt h (lt_pieceCount_of_beginsClose hk)).mpr hk⟩
        · rw [← pieceAt_add] at hi
          exact ⟨_, hi⟩

/-! ## The TCP clients of HW1 and HW2 -/

namespace LineClient

variable {n : ℕ}

/-- The loop, with what each `read` returns. -/
def loop (n : ℕ) : Loop (LineClient n) (Answer Byte 100) where
  closing := closing
  body := fun bytes c => (ask c).map fun p => p.1.hear bytes.1

/-- One iteration takes the next piece of the input. -/
theorem body_spec (hn : 100 ≤ n) (c : LineClient n) (bytes : Answer Byte 100) :
    ∃ c', (loop n).body bytes c = some c' ∧ c'.stdin = (lineCut 99 c.stdin).2 ∧
      (closing c' = true ↔ BeginsClose (lineCut 99 c.stdin).1) := by
  obtain ⟨c₁, hprompt, htext, hstdin, _⟩ := prompt_spec hn c
  have hask : ask c = some (c₁, cstr (lineCut 99 c.stdin).1 ++ [0]) := by
    simp [ask, hprompt, htext]
  refine ⟨c₁.hear bytes.1, by simp [loop, hask], hstdin, ?_⟩
  have hclosing : closing (c₁.hear bytes.1) = true ↔ BeginsClose c₁.sendline.bytes :=
    decide_eq_true_iff
  rw [hclosing, beginsClose_bytes htext, beginsClose_cstr]

/-- **The loop takes the pieces of its input**, and ends behind one that starts with the
word. -/
theorem loop_reads (hn : 100 ≤ n) :
    (loop n).Reads LineClient.stdin (lineCut 99) BeginsClose (fun _ => True) where
  body_some := fun c bytes _ => body_spec hn c bytes
  body_none := fun _ _ h => absurd trivial h

end LineClient

/-! ## The clients that scan tokens -/

/-- The array that a token was scanned into, cleared before. -/
theorem beginsClose_scanf {n : ℕ} (a : CharArray n) {s : List Byte}
    (h : (scanToken s).1.length < n) :
    ∃ b, scanf (a.memset n) s = some (b, (scanToken s).2) ∧
      (BeginsClose b.bytes ↔ BeginsClose (scanToken s).1) := by
  obtain ⟨b, hscanf, hb⟩ := scanf_memset a h
  refine ⟨b, hscanf, ?_⟩
  rw [hb, padded_eq_append_zero h, beginsClose_append_zero]

/-- One that does not fit is written behind the array. -/
theorem scanf_memset_eq_none {n : ℕ} (hn : 0 < n) (a : CharArray n) {s : List Byte}
    (h : ¬ (scanToken s).1.length < n) : scanf (a.memset n) s = none := by
  apply scanf_eq_none
  · intro hnil
    rw [hnil, List.length_nil] at h
    exact h hn
  · omega

namespace HW3.UDPClient

/-- The loop. Nothing is read from the peer. -/
def loop : Loop UDPClient Unit where
  closing := closing
  body := fun _ c => (iterate c).map Prod.fst

theorem loop_reads :
    loop.Reads UDPClient.stdin scanToken BeginsClose (fun token => token.length < 2048) where
  body_some := by
    intro c _ hfits
    obtain ⟨b, hscanf, hbegins⟩ := beginsClose_scanf c.sendline hfits
    refine ⟨⟨b, c.recvline.memset 2048, (scanToken c.stdin).2⟩, ?_, rfl, ?_⟩
    · simp [loop, iterate, hscanf]
    · exact decide_eq_true_iff.trans hbegins
  body_none := by
    intro c _ hfits
    simp [loop, iterate, scanf_memset_eq_none (by decide) c.sendline hfits]

end HW3.UDPClient

namespace Project1.Client2

/-- The loop, with what each `read` returns. -/
def loop : Loop Client2 (Answer Byte 1024) where
  closing := closing
  body := fun bytes c => (ask c).map fun p => p.1.hear bytes.1

theorem loop_reads :
    loop.Reads Client2.stdin scanToken BeginsClose (fun token => token.length < 1024) where
  body_some := by
    intro c bytes hfits
    obtain ⟨b, hscanf, hbegins⟩ := beginsClose_scanf c.sendline hfits
    refine ⟨hear ⟨b, c.recvline.memset 1024, (scanToken c.stdin).2, c.printed⟩ bytes.1, ?_, rfl, ?_⟩
    · simp [loop, ask, hscanf]
    · exact decide_eq_true_iff.trans hbegins
  body_none := by
    intro c _ hfits
    simp [loop, ask, scanf_memset_eq_none (by decide) c.sendline hfits]

end Project1.Client2

end SocketPrograms
