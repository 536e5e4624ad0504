import SocketPrograms.ClosingWord
import Mathlib.Data.Nat.Find

/-!
# Where the line-based clients leave

`EchoClient2.c` and `EchoClient.cpp` test the first five bytes of `sendline`, which holds the
last piece of 99 bytes that `fgets` took, and before the first iteration whatever was in memory.
A long line has pieces that are not its start, so it can end the client in its middle.

## Main results

* `exitAfter` — after how many exchanges a client that looked at whole lines would leave.
* `agrees_iff` — the pieces of an input end the client there exactly where no earlier line has
  the word at the start of a piece.
* `leaves_of_short` — on short lines the clients leave where they should.
* `leaves_iff` — where the clients leave, from any memory.
-/

namespace SocketPrograms.LineExit

open LineClient

/-- The exchanges up to and with the first piece of the first line that begins with the word, if
there is one. -/
def exitAfter : List (List Byte) → Option ℕ
  | [] => none
  | l :: ls => if BeginsClose l then some 1 else (exitAfter ls).map (pieceCount 99 l + ·)

/-- The client leaves its loop after that exchange, and after no other number of exchanges. -/
def Leaves {n : ℕ} (c : LineClient n) : Prop :=
  ∀ tr y, ((loop n).system c).Exec tr y →
    (closing y = true ↔ exitAfter (textLines c.stdin) = some tr.length)

/-- No piece of a line that comes before the first one that begins with the word begins with
it. -/
def NoneInside (ls : List (List Byte)) : Prop :=
  ∀ l ∈ ls.takeWhile (fun l => !BeginsClose l), ∀ k, ¬ BeginsClose (l.drop (99 * k))

/-- Up to the first piece that ends the client, the pieces end it where the lines do. -/
def Agrees (s : List Byte) : Prop :=
  ∀ k, (∀ j < k, ¬ BeginsClose (pieceAt (lineCut 99) j s)) →
    (BeginsClose (pieceAt (lineCut 99) k s) ↔ exitAfter (textLines s) = some (k + 1))

variable {s l : List Byte} {ls : List (List Byte)}

/-! ## The first line -/

theorem exitAfter_pos {k : ℕ} (h : exitAfter ls = some k) : 0 < k := by
  induction ls generalizing k with
  | nil => cases h
  | cons l ls ih =>
      rw [exitAfter] at h
      split at h
      · obtain rfl := Option.some.inj h
        exact Nat.one_pos
      · obtain ⟨k', hk', rfl⟩ := Option.map_eq_some_iff.mp h
        have := ih hk'
        omega

/-- A line that does not begin with the word is passed, with all of its pieces. -/
theorem exitAfter_cons (hl : ¬ BeginsClose l) {k : ℕ} :
    exitAfter (l :: ls) = some (pieceCount 99 l + k) ↔ exitAfter ls = some k := by
  rw [exitAfter, if_neg hl, Option.map_eq_some_iff]
  constructor
  · rintro ⟨k', hk', hadd⟩
    rw [hk', show k' = k by omega]
  · intro h
    exact ⟨k, h, rfl⟩

theorem lt_of_exitAfter_cons (hl : ¬ BeginsClose l) {k : ℕ}
    (h : exitAfter (l :: ls) = some k) : pieceCount 99 l < k := by
  rw [exitAfter, if_neg hl, Option.map_eq_some_iff] at h
  obtain ⟨k', hk', rfl⟩ := h
  have := exitAfter_pos hk'
  omega

theorem noneInside_cons_of_close (hl : BeginsClose l) : NoneInside (l :: ls) := by
  simp [NoneInside, hl]

theorem noneInside_cons (hl : ¬ BeginsClose l) :
    NoneInside (l :: ls) ↔ (∀ k, ¬ BeginsClose (l.drop (99 * k))) ∧ NoneInside ls := by
  simp [NoneInside, hl]

/-- The client leaves with the first line. -/
theorem agrees_of_close (h : textLines s = l :: ls) (hl : BeginsClose l) : Agrees s := by
  have hpos : 0 < pieceCount 99 l :=
    pieceCount_pos (by decide) (ne_nil_of_mem_textLines (s := s) (by simp [h]))
  have hfirst : BeginsClose (pieceAt (lineCut 99) 0 s) := by
    rw [beginsClose_pieceAt h hpos]
    exact hl
  intro k hbefore
  cases k with
  | zero => simp [h, exitAfter, hl, hfirst]
  | succ k => exact absurd hfirst (hbefore 0 (Nat.zero_lt_succ k))

/-- The client leaves too early where a piece inside of the first line begins with the word. -/
theorem not_agrees_of_inside (h : textLines s = l :: ls) (hl : ¬ BeginsClose l) {j : ℕ}
    (hj : BeginsClose (l.drop (99 * j))) : ¬ Agrees s := by
  intro hagrees
  have hlt := lt_pieceCount_of_beginsClose hj
  have hends : BeginsClose (pieceAt (lineCut 99) j s) := (beginsClose_pieceAt h hlt).mpr hj
  have hex : ∃ i, BeginsClose (pieceAt (lineCut 99) i s) := ⟨j, hends⟩
  have hle : Nat.find hex ≤ j := Nat.find_min' hex hends
  have hexit := (hagrees (Nat.find hex) fun i hi => Nat.find_min hex hi).mp (Nat.find_spec hex)
  rw [h] at hexit
  have := lt_of_exitAfter_cons hl hexit
  omega

/-- A line without the word at the start of a piece is passed. -/
theorem agrees_iff_rest (h : textLines s = l :: ls) (hl : ∀ k, ¬ BeginsClose (l.drop (99 * k))) :
    Agrees s ↔ Agrees (unread (lineCut 99) (pieceCount 99 l) s) := by
  have hrest := unread_pieceCount (m := 99) (by decide) h
  have hnot : ¬ BeginsClose l := hl 0
  have hpieces : ∀ j < pieceCount 99 l, ¬ BeginsClose (pieceAt (lineCut 99) j s) := by
    intro j hj
    rw [beginsClose_pieceAt h hj]
    exact hl j
  constructor
  · intro hagrees k hbefore
    rw [← pieceAt_add, hrest, hagrees _ ?_, h, Nat.add_assoc, exitAfter_cons hnot]
    intro j hj
    by_cases hlt : j < pieceCount 99 l
    · exact hpieces j hlt
    · obtain ⟨i, rfl⟩ := Nat.exists_eq_add_of_le (not_lt.mp hlt)
      rw [pieceAt_add]
      exact hbefore i (by omega)
  · intro hagrees k hbefore
    by_cases hlt : k < pieceCount 99 l
    · constructor
      · exact fun hclose => absurd hclose (hpieces k hlt)
      · intro hexit
        rw [h] at hexit
        have := lt_of_exitAfter_cons hnot hexit
        omega
    · obtain ⟨i, rfl⟩ := Nat.exists_eq_add_of_le (not_lt.mp hlt)
      rw [pieceAt_add, h, Nat.add_assoc, exitAfter_cons hnot, ← hrest]
      apply hagrees
      intro j hj
      rw [← pieceAt_add]
      exact hbefore _ (by omega)

/-! ## All lines -/

/-- **The pieces end the client where the lines do**, exactly where no piece inside of an earlier
line begins with the word. -/
theorem agrees_iff (h : textLines s = ls) : Agrees s ↔ NoneInside ls := by
  induction ls generalizing s with
  | nil =>
      obtain rfl := textLines_eq_nil h
      simp [Agrees, NoneInside, exitAfter, pieceAt_nil (lineCut 99) (lineCut_nil 99)]
  | cons l ls ih =>
      by_cases hl : BeginsClose l
      · exact iff_of_true (agrees_of_close h hl) (noneInside_cons_of_close hl)
      · rw [noneInside_cons hl]
        by_cases hinside : ∀ k, ¬ BeginsClose (l.drop (99 * k))
        · rw [agrees_iff_rest h hinside, ih (unread_pieceCount (by decide) h)]
          exact (and_iff_right hinside).symm
        · obtain ⟨j, hj⟩ := not_forall_not.mp hinside
          exact iff_of_false (not_agrees_of_inside h hl hj) fun hnone => hinside hnone.1

/-! ## The clients -/

variable {n : ℕ}

/-- A run is decided by the memory at its start, then by the pieces. -/
theorem leaves_iff_agrees (hn : 100 ≤ n) (c : LineClient n) :
    Leaves c ↔ closing c = false ∧ Agrees c.stdin := by
  have hruns := ((loop_reads hn).driven c).forall_closing_iff
    fun k => exitAfter (textLines c.stdin) = some k
  have hzero : exitAfter (textLines c.stdin) ≠ some 0 := fun h => lt_irrefl 0 (exitAfter_pos h)
  refine hruns.trans ?_
  constructor
  · intro hall
    have hstart : closing c = false := by
      have hfirst := hall 0 (by simp)
      rw [← Bool.not_eq_true]
      exact fun h => hzero (hfirst.mp h)
    refine ⟨hstart, fun k hbefore => hall (k + 1) fun j hj => ⟨?_, trivial⟩⟩
    cases j with
    | zero => exact fun h => Bool.false_ne_true (hstart.symm.trans h)
    | succ j => exact hbefore j (by omega)
  · rintro ⟨hstart, hagrees⟩ k hbefore
    cases k with
    | zero =>
        constructor
        · exact fun h => absurd (hstart.symm.trans h) Bool.false_ne_true
        · exact fun h => absurd h hzero
    | succ k => exact hagrees k fun j hj => (hbefore (j + 1) (by omega)).1

/-- Lines that one call of `fgets` takes have no piece inside of them. -/
theorem noneInside_of_short (hls : ∀ l ∈ ls, l.length ≤ 99) : NoneInside ls := by
  intro l hl k
  have hnot : ¬ BeginsClose l := by simpa using List.mem_takeWhile_imp hl
  have hlen : l.length ≤ 99 := hls l ((List.takeWhile_sublist _).mem hl)
  cases k with
  | zero => exact hnot
  | succ k =>
      rw [List.drop_eq_nil_of_le (by omega)]
      exact not_beginsClose_nil

/-- On lines of at most 99 bytes, from memory that does not begin with the word, the clients leave
where they should. -/
theorem leaves_of_short (hn : 100 ≤ n) {c : LineClient n} (hstart : closing c = false)
    (hls : ∀ l ∈ ls, IsLine 99 l) (hstdin : c.stdin = ls.flatten) : Leaves c := by
  have hlines : textLines c.stdin = ls := by
    rw [hstdin]
    exact textLines_flatten fun l hl => ⟨(hls l hl).nulFree, le_rfl, (hls l hl).ends⟩
  rw [leaves_iff_agrees hn, agrees_iff hlines]
  exact ⟨hstart, noneInside_of_short fun l hl => (hls l hl).short⟩

/-- **Where the line-based clients leave.** From any memory and on any input, the client leaves
right after the exchange for the first piece of the first line that begins with `"close"`, and
nowhere else, exactly where `sendline` does not begin with it before the loop and no earlier line
has it at a multiple of 99 bytes from its start. -/
theorem leaves_iff (n : ℕ) (hn : 100 ≤ n) (c : LineClient n) :
    Leaves c ↔ closing c = false ∧ NoneInside (textLines c.stdin) := by
  rw [leaves_iff_agrees hn, agrees_iff rfl]

/-- A client with zeroed memory. -/
def zeroed (n : ℕ) (stdin : List Byte) : LineClient n := ⟨.fillWith n 0, .fillWith n 0, stdin, []⟩

/-- Both clients, on two short lines. -/
theorem leaves_iff_both :
    Leaves (zeroed 100 (ascii "hi\nclose\n")) ∧ Leaves (zeroed 1000 (ascii "hi\nclose\n")) := by
  have hnone : NoneInside (textLines (ascii "hi\nclose\n")) := by
    have hlines : (textLines (ascii "hi\nclose\n")).takeWhile (fun l => !BeginsClose l) =
        [ascii "hi\n"] := by decide
    intro l hl k hclose
    rw [hlines, List.mem_singleton] at hl
    have hlt := lt_pieceCount_of_beginsClose hclose
    have hcount : pieceCount 99 (ascii "hi\n") = 1 := by decide
    rw [hl, hcount, Nat.lt_one_iff] at hlt
    rw [hl, hlt] at hclose
    exact absurd hclose (by decide)
  exact ⟨(leaves_iff 100 (by decide) (zeroed 100 _)).mpr ⟨by decide +kernel, hnone⟩,
    (leaves_iff 1000 (by decide) (zeroed 1000 _)).mpr ⟨by decide +kernel, hnone⟩⟩

/-- A line of 99 letters in front of the word. -/
def longLine : List Byte := List.replicate 99 97 ++ ascii "close\n"

/-- The second piece of the line ends the client in its middle. -/
theorem middle_of_line_leaves :
    ¬ ∀ (n : ℕ) (c : LineClient n), 100 ≤ n → NulFree c.stdin → Leaves c := by
  intro hexits
  have hrun : (System.replay (loop 100).next (zeroed 100 longLine)
      [⟨[0], by decide⟩, ⟨[0], by decide⟩]).map (fun p => (p.1.length, closing p.2)) =
        some (2, true) := by decide +kernel
  have hinit : ((loop 100).system (zeroed 100 longLine)).init (zeroed 100 longLine) := rfl
  obtain ⟨tr, y, hexec, hy⟩ := System.exec_of_replay hinit hrun
  obtain ⟨hlen, hclosing⟩ := Prod.mk.inj hy
  have hexit := (hexits 100 _ (by decide) (by decide) tr y hexec).mp hclosing
  rw [hlen] at hexit
  exact absurd hexit (by decide +kernel)

end SocketPrograms.LineExit
