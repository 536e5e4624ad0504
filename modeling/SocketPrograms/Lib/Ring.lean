import Mathlib.Data.List.Basic
import Mathlib.Tactic.Common

/-!
# Circular buffers with two indices

A value is stored at the one index and taken at the other; each goes back to 0 at the end of the
array. The indices are equal in an empty buffer, so one slot stays free: where storing makes them
equal, the buffer was full but for that slot.

## Main definitions

* `Ring n α` — the array and the indices.
* `Ring.pending` — the values in the buffer, in order.
* `Ring.put`, `Ring.get` — the two operations, with `pending_put` and `pending_get`.
-/

namespace SocketPrograms

universe u

/-- An array with the indices of the next value to take and of the next free slot. -/
structure Ring (n : ℕ) (α : Type u) where
  slots : List α
  iget : ℕ
  iput : ℕ
  length_slots : slots.length = n
  iget_lt : iget < n
  iput_lt : iput < n

namespace Ring

variable {n : ℕ} {α : Type u}

/-- The values in the buffer, in order. -/
def pending (r : Ring n α) : List α :=
  if r.iget ≤ r.iput then (r.slots.drop r.iget).take (r.iput - r.iget)
  else r.slots.drop r.iget ++ r.slots.take r.iput

/-- `if (++i == n) i = 0`. -/
def advance (n i : ℕ) : ℕ := if i + 1 = n then 0 else i + 1

theorem advance_lt {i : ℕ} (h : i < n) : advance n i < n := by
  rw [advance]
  split <;> omega

/-- A buffer in which nothing has been stored, over any memory. -/
def empty (slots : List α) (hn : 0 < n) (hlen : slots.length = n) : Ring n α :=
  ⟨slots, 0, 0, hlen, hn, hn⟩

/-- Store a value, whether a slot is free or not. -/
def put (r : Ring n α) (a : α) : Ring n α :=
  { r with
    slots := r.slots.set r.iput a
    iput := advance n r.iput
    length_slots := by rw [List.length_set, r.length_slots]
    iput_lt := advance_lt r.iput_lt }

/-- The value at the index of the next to take. -/
def first (r : Ring n α) : α := r.slots.get ⟨r.iget, by rw [r.length_slots]; exact r.iget_lt⟩

/-- The buffer behind that value. -/
def get (r : Ring n α) : Ring n α :=
  { r with iget := advance n r.iget, iget_lt := advance_lt r.iget_lt }

variable {r : Ring n α} {a : α}

@[simp] theorem pending_empty (slots : List α) (hn : 0 < n) (hlen : slots.length = n) :
    (empty slots hn hlen).pending = [] := by
  simp [pending, empty]

theorem length_pending (r : Ring n α) :
    r.pending.length = if r.iget ≤ r.iput then r.iput - r.iget else n - r.iget + r.iput := by
  have hget := r.iget_lt
  have hput := r.iput_lt
  have hlen := r.length_slots
  rw [pending]
  split
  · rw [List.length_take, List.length_drop]
    omega
  · rw [List.length_append, List.length_drop, List.length_take]
    omega

theorem pending_eq_nil_iff : r.pending = [] ↔ r.iget = r.iput := by
  have hget := r.iget_lt
  rw [← List.length_eq_zero_iff, length_pending]
  split <;> omega

/-- **The indices meet where the buffer was full.** -/
theorem iput_put_eq_iff : (r.put a).iput = (r.put a).iget ↔ r.pending.length + 1 = n := by
  have hget := r.iget_lt
  have hput := r.iput_lt
  rw [length_pending]
  simp only [put, advance]
  split <;> split <;> omega

/-- The array around a slot. -/
theorem exists_slots {i : ℕ} (r : Ring n α) (h : i < n) :
    ∃ before b behind, r.slots = before ++ b :: behind ∧ before.length = i := by
  have hi : i < r.slots.length := by rw [r.length_slots]; exact h
  refine ⟨r.slots.take i, r.slots[i], r.slots.drop (i + 1), ?_, ?_⟩
  · rw [List.getElem_cons_drop hi, List.take_append_drop]
  · rw [List.length_take, Nat.min_eq_left (Nat.le_of_lt hi)]

/-- **What is stored comes last.** -/
theorem pending_put (h : (r.put a).iput ≠ (r.put a).iget) :
    (r.put a).pending = r.pending ++ [a] := by
  have hget := r.iget_lt
  obtain ⟨before, b, behind, hslots, hbefore⟩ := r.exists_slots r.iput_lt
  have hlen := r.length_slots
  rw [hslots, List.length_append, List.length_cons] at hlen
  have hset : (r.put a).slots = before ++ a :: behind := by
    change r.slots.set r.iput a = _
    rw [hslots, ← hbefore, List.set_append_right _ _ (Nat.le_refl _), Nat.sub_self,
      List.set_cons_zero]
  have hadvance : (r.put a).iput = if r.iput + 1 = n then 0 else r.iput + 1 := rfl
  have hsame : (r.put a).iget = r.iget := rfl
  rw [hadvance, hsame] at h
  rw [pending, pending, hset, hslots, hadvance, hsame, ← hbefore]
  rw [← hbefore] at h
  have htake : (before.drop r.iget ++ b :: behind).take (before.length - r.iget) =
      before.drop r.iget := List.take_left' (List.length_drop ..)
  have htake' : (before ++ b :: behind).take before.length = before := List.take_left
  by_cases hlast : before.length + 1 = n
  · -- the index goes back to 0, and the values are those behind `iget`
    have hnil : behind = [] := List.eq_nil_of_length_eq_zero (by omega)
    rw [if_pos hlast] at h ⊢
    rw [hnil] at htake ⊢
    rw [if_neg (by omega), if_pos (by omega), List.drop_append_of_le_length (by omega),
      List.drop_append_of_le_length (by omega), htake, List.take_zero, List.append_nil]
  · rw [if_neg hlast] at h ⊢
    by_cases hle : r.iget ≤ before.length
    · rw [if_pos (by omega), if_pos hle, List.drop_append_of_le_length hle,
        List.drop_append_of_le_length hle, htake]
      have hmore : before.length + 1 - r.iget = (before.drop r.iget ++ [a]).length := by
        simp only [List.length_append, List.length_drop, List.length_singleton]
        omega
      rw [List.append_cons _ a behind, hmore, List.take_left]
    · obtain ⟨j, hj⟩ : ∃ j, r.iget = before.length + (j + 1) :=
        ⟨r.iget - before.length - 1, by omega⟩
      have hmore : (before ++ a :: behind).take (before.length + 1) = before ++ [a] := by
        rw [List.append_cons, List.take_left' (by simp)]
      rw [if_neg (by omega), if_neg hle, hj, List.drop_length_add_append,
        List.drop_length_add_append, List.drop_succ_cons, List.drop_succ_cons, htake', hmore,
        List.append_assoc]

/-- **What is taken came first.** -/
theorem pending_get (h : r.iget ≠ r.iput) : r.pending = r.first :: r.get.pending := by
  have hput := r.iput_lt
  obtain ⟨before, b, behind, hslots, hbefore⟩ := r.exists_slots r.iget_lt
  have hlen := r.length_slots
  rw [hslots, List.length_append, List.length_cons] at hlen
  have hfirst : r.first = b := by
    simp [first, hslots, ← hbefore]
  have hadvance : r.get.iget = if r.iget + 1 = n then 0 else r.iget + 1 := rfl
  have hsame : r.get.iput = r.iput := rfl
  have hslots' : r.get.slots = r.slots := rfl
  rw [pending, pending, hslots', hslots, hadvance, hsame, hfirst, ← hbefore]
  rw [← hbefore] at h
  have hdrop : (before ++ b :: behind).drop (before.length + 1) = behind := by
    rw [List.append_cons, List.drop_left' (by simp)]
  by_cases hlast : before.length + 1 = n
  · -- the index goes back to 0, and the values are those in front of `iput`
    have hnil : behind = [] := List.eq_nil_of_length_eq_zero (by omega)
    rw [if_pos hlast, if_neg (by omega), if_pos (Nat.zero_le _), List.drop_left, hnil]
    simp
  · rw [if_neg hlast, hdrop, List.drop_left]
    by_cases hle : before.length ≤ r.iput
    · obtain ⟨j, hj⟩ : ∃ j, r.iput - before.length = j + 1 := ⟨r.iput - before.length - 1, by omega⟩
      rw [if_pos hle, if_pos (by omega), hj, List.take_succ_cons]
      congr 2
      omega
    · rw [if_neg hle, if_neg (by omega)]
      rfl

end Ring

end SocketPrograms
