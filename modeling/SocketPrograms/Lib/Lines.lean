import SocketPrograms.Lib.Stdio

/-!
# Lines of any length

A line that is longer than the limit of `fgets` is cut into several pieces. This module
relates the pieces of a whole input to its lines: which piece is the start of a line, and how
many pieces a line has.

## Main definitions

* `textLines s` — the lines of `s`, each with its newline; the last may have none.
* `pieceCount m l` — the number of pieces of a line.
* `pieceAt_textLines`, `unread_pieceCount` — the pieces of the first line, and what they leave.
-/

namespace SocketPrograms

/-- The lines of a text, each with its newline; the last may have none. -/
def textLines : List Byte → List (List Byte)
  | [] => []
  | c :: s =>
      if c = newline then [c] :: textLines s
      else match textLines s with
        | [] => [[c]]
        | l :: ls => (c :: l) :: ls

/-- The number of pieces of at most `m` bytes in a line. -/
def pieceCount (m : ℕ) (l : List Byte) : ℕ := (l.length + m - 1) / m

@[simp] theorem textLines_nil : textLines [] = [] := rfl

theorem textLines_newline (s : List Byte) :
    textLines (newline :: s) = [newline] :: textLines s := by
  rw [textLines, if_pos rfl]

theorem textLines_cons {c : Byte} (hc : c ≠ newline) (s : List Byte) :
    textLines (c :: s) =
      (c :: (textLines s).headD []) :: (textLines s).tail := by
  rw [textLines, if_neg hc]
  cases textLines s <;> rfl

/-- The lines make up the text. -/
theorem flatten_textLines (s : List Byte) : (textLines s).flatten = s := by
  induction s with
  | nil => rfl
  | cons c s ih =>
      by_cases hc : c = newline
      · rw [hc, textLines_newline, List.flatten_cons, ih]
        rfl
      · rw [textLines_cons hc]
        conv_rhs => rw [← ih]
        cases textLines s <;> rfl

theorem textLines_eq_nil {s : List Byte} (h : textLines s = []) : s = [] := by
  rw [← flatten_textLines s, h]
  rfl

/-- A line has at least one byte. -/
theorem ne_nil_of_mem_textLines {s l : List Byte} (h : l ∈ textLines s) : l ≠ [] := by
  induction s generalizing l with
  | nil => simp at h
  | cons c s ih =>
      by_cases hc : c = newline
      · rw [hc, textLines_newline] at h
        cases List.mem_cons.mp h with
        | inl h => simp [h]
        | inr h => exact ih h
      · rw [textLines_cons hc] at h
        cases List.mem_cons.mp h with
        | inl h => simp [h]
        | inr h => exact ih (List.mem_of_mem_tail h)

/-- Lines that end with their newlines are the lines of their concatenation. -/
theorem textLines_flatten {ls : List (List Byte)} (h : ∀ l ∈ ls, IsLine l.length l) :
    textLines ls.flatten = ls := by
  have hline : ∀ t s : List Byte, newline ∉ t →
      textLines (t ++ newline :: s) = (t ++ [newline]) :: textLines s := by
    intro t s
    induction t with
    | nil => exact fun _ => textLines_newline s
    | cons c t ih =>
        intro ht
        have hc : c ≠ newline := fun hc => ht (by simp [hc])
        rw [List.cons_append, textLines_cons hc, ih fun hmem => ht (List.mem_cons_of_mem _ hmem)]
        rfl
  induction ls with
  | nil => rfl
  | cons l ls ih =>
      obtain ⟨t, ht, rfl⟩ := (h l (by simp)).ends
      rw [List.flatten_cons, List.append_assoc, List.singleton_append, hline t _ ht,
        ih fun l' hl' => h l' (List.mem_cons_of_mem _ hl')]

/-! ## The pieces of a line -/

variable {m : ℕ} {s l : List Byte} {ls : List (List Byte)}

/-- **One call** takes the start of the first line, and leaves the rest of it in front of the
other lines. -/
theorem lineCut_textLines (hm : 0 < m) (h : textLines s = l :: ls) :
    (lineCut m s).1 = l.take m ∧
      textLines (lineCut m s).2 = if l.length ≤ m then ls else l.drop m :: ls := by
  induction m generalizing s l ls with
  | zero => exact absurd hm (lt_irrefl 0)
  | succ m ih =>
      cases s with
      | nil => cases h
      | cons c s =>
          by_cases hc : c = newline
          · rw [hc, textLines_newline] at h
            obtain ⟨rfl, rfl⟩ := List.cons.inj h
            simp [lineCut, hc]
          · rw [textLines_cons hc] at h
            obtain ⟨rfl, rfl⟩ := List.cons.inj h
            simp only [lineCut, hc, if_false]
            cases hs : textLines s with
            | nil =>
                -- the line ends with the text
                rw [textLines_eq_nil hs]
                simp
            | cons l' ls' =>
                have hl' : l' ≠ [] := ne_nil_of_mem_textLines (s := s) (by simp [hs])
                by_cases hzero : m = 0
                · have hpos := List.length_pos_of_ne_nil hl'
                  have hlong : ¬ l'.length + 1 ≤ 1 := by omega
                  simp [hzero, lineCut, hs, hlong]
                · obtain ⟨hfirst, hrest⟩ := ih (by omega) hs
                  simp [hfirst, hrest]

/-- The calls before the end of the first line leave the rest of it. -/
theorem unread_textLines (hm : 0 < m) (h : textLines s = l :: ls) {j : ℕ}
    (hj : m * j < l.length) :
    textLines (unread (lineCut m) j s) = l.drop (m * j) :: ls := by
  induction j with
  | zero => simpa using h
  | succ j ih =>
      rw [Nat.mul_succ] at hj
      have hcut := (lineCut_textLines hm (ih (by omega))).2
      have hlong : ¬ (l.drop (m * j)).length ≤ m := by
        rw [List.length_drop]
        omega
      rw [if_neg hlong, List.drop_drop] at hcut
      rw [unread_succ, hcut, Nat.mul_succ]

/-- **A piece of the first line.** -/
theorem pieceAt_textLines (hm : 0 < m) (h : textLines s = l :: ls) {j : ℕ}
    (hj : m * j < l.length) :
    pieceAt (lineCut m) j s = (l.drop (m * j)).take m :=
  (lineCut_textLines hm (unread_textLines hm h hj)).1

/-- A call belongs to a line where it starts inside of it. -/
theorem lt_pieceCount_iff (hm : 0 < m) {j : ℕ} : j < pieceCount m l ↔ m * j < l.length := by
  rw [pieceCount, Nat.lt_iff_add_one_le, Nat.le_div_iff_mul_le hm, Nat.add_mul, Nat.mul_comm j m]
  omega

theorem pieceCount_pos (hm : 0 < m) (hl : l ≠ []) : 0 < pieceCount m l := by
  rw [lt_pieceCount_iff hm]
  simpa using List.length_pos_of_ne_nil hl

/-- **The pieces of the first line leave the other lines.** -/
theorem unread_pieceCount (hm : 0 < m) (h : textLines s = l :: ls) :
    textLines (unread (lineCut m) (pieceCount m l) s) = ls := by
  have hl : l ≠ [] := ne_nil_of_mem_textLines (s := s) (by simp [h])
  obtain ⟨j, hj⟩ : ∃ j, pieceCount m l = j + 1 :=
    ⟨pieceCount m l - 1, by have := pieceCount_pos hm hl; omega⟩
  have hlast : m * j < l.length := (lt_pieceCount_iff hm).mp (by omega)
  have hend : ¬ m * (j + 1) < l.length := by
    rw [← lt_pieceCount_iff hm]
    omega
  have hcut := (lineCut_textLines hm (unread_textLines hm h hlast)).2
  rw [Nat.mul_succ] at hend
  rw [if_pos (by rw [List.length_drop]; omega)] at hcut
  rw [hj, unread_succ, hcut]

end SocketPrograms
