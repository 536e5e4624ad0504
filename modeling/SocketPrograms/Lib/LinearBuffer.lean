import SocketPrograms.Lib.CharArray

/-!
# Buffers with two pointers

Bytes are put in behind the input pointer and taken out at the output pointer; both go back to the
beginning when they meet. The buffer is a queue, but has room only behind its input pointer.

## Main definitions

* `LinearBuffer n` — the array and its pointers, with what always holds of them.
* `LinearBuffer.pending` — the bytes between them.
* `LinearBuffer.push`, `LinearBuffer.pop` — the two operations, with `pending_push` and
  `pending_pop`.
-/

namespace SocketPrograms

/-- An array with an input and an output pointer. -/
structure LinearBuffer (n : ℕ) where
  arr : CharArray n
  iptr : ℕ
  optr : ℕ
  optr_le : optr ≤ iptr
  iptr_le : iptr ≤ n
  /-- An empty buffer has its pointers at the beginning. -/
  reset : iptr = optr → iptr = 0

namespace LinearBuffer

variable {n : ℕ}

/-- The bytes in the buffer, in order. -/
def pending (b : LinearBuffer n) : List Byte := (b.arr.bytes.drop b.optr).take (b.iptr - b.optr)

/-- A buffer at its beginning, over any memory. -/
def empty (arr : CharArray n) : LinearBuffer n := ⟨arr, 0, 0, le_rfl, Nat.zero_le n, fun _ => rfl⟩

/-- Put bytes in behind the input pointer, where they fit. -/
def push (b : LinearBuffer n) (xs : List Byte) : Option (LinearBuffer n) :=
  if h : xs ≠ [] ∧ b.iptr + xs.length ≤ n then
    (b.arr.write b.iptr xs).map fun arr =>
      { arr, iptr := b.iptr + xs.length, optr := b.optr
        optr_le := le_trans b.optr_le (Nat.le_add_right _ _)
        iptr_le := h.2
        reset := fun heq => by
          have hpos := List.length_pos_iff.mpr h.1
          have hle := b.optr_le
          omega }
  else none

/-- Take bytes out at the output pointer, where as many are there. -/
def pop (b : LinearBuffer n) (k : ℕ) : Option (LinearBuffer n) :=
  if h : k ≤ b.iptr - b.optr then
    some (if hmeet : b.optr + k = b.iptr then empty b.arr
    else
      { b with
        optr := b.optr + k
        optr_le := by
          have hle := b.optr_le
          omega
        reset := fun heq => absurd heq.symm hmeet })
  else none

variable {b b' : LinearBuffer n} {xs : List Byte} {k : ℕ}

@[simp] theorem length_pending (b : LinearBuffer n) : b.pending.length = b.iptr - b.optr := by
  have hle := b.iptr_le
  rw [pending, List.length_take, List.length_drop, b.arr.length_bytes]
  omega

theorem pending_eq_nil_iff : b.pending = [] ↔ b.optr = b.iptr := by
  have hle := b.optr_le
  rw [← List.length_eq_zero_iff, length_pending]
  omega

@[simp] theorem pending_empty (arr : CharArray n) : (empty arr).pending = [] :=
  pending_eq_nil_iff.mpr rfl

/-- **What is put in comes last.** -/
theorem pending_push (h : b.push xs = some b') : b'.pending = b.pending ++ xs := by
  simp only [push] at h
  split at h
  · next hfits =>
    obtain ⟨arr, hwrite, rfl⟩ := Option.map_eq_some_iff.mp h
    obtain ⟨arr', hwrite', hbytes⟩ := b.arr.write_of_le hfits.2
    obtain rfl : arr = arr' := Option.some.inj (hwrite.symm.trans hwrite')
    have hle := b.optr_le
    have hlen := b.iptr_le
    have htake : (b.arr.bytes.take b.iptr).drop b.optr =
        (b.arr.bytes.drop b.optr).take (b.iptr - b.optr) := List.drop_take
    have hpending : (b.pending ++ xs).length = b.iptr + xs.length - b.optr := by
      rw [List.length_append, length_pending]
      omega
    have hdrop : (b.arr.bytes.take b.iptr ++ xs).drop b.optr = b.pending ++ xs := by
      rw [List.drop_append_of_le_length (by simp; omega), htake, pending]
    have hshort : b.optr ≤ (b.arr.bytes.take b.iptr ++ xs).length := by
      simp only [List.length_append, List.length_take, CharArray.length_bytes]
      omega
    rw [pending, hbytes, List.drop_append_of_le_length hshort, hdrop, ← hpending, List.take_left]
  · cases h

/-- **What is taken out came first.** -/
theorem pending_pop (h : b.pop k = some b') : b'.pending = b.pending.drop k := by
  simp only [pop] at h
  split at h
  · next hle =>
    obtain rfl := Option.some.inj h
    split
    · next hmeet =>
      have hall : b.pending.length ≤ k := by
        rw [length_pending]
        omega
      rw [pending_empty, List.drop_eq_nil_of_le hall]
    · next hmeet =>
      rw [pending, pending, List.drop_take, List.drop_drop, Nat.sub_sub]
  · cases h

end LinearBuffer

end SocketPrograms
