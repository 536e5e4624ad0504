import SocketPrograms.Lib.CharArray
import Mathlib.Algebra.Group.Nat.Defs

/-!
# Formatted numbers

`%d` of a number that is not negative prints its decimal digits, and the digits determine the
number.

## Main definitions

* `decimal` — what `%d` prints.
* `snprintf` — a formatted text, cut to the size that is given.
-/

namespace SocketPrograms

/-- What `%d` prints. -/
def decimal (k : ℕ) : List Byte := ascii (toString k)

/-- The digit that a byte stands for. -/
def digitOf (b : Byte) : Char := Char.ofNat b.toNat

theorem decimal_eq (k : ℕ) : decimal k = (Nat.toDigits 10 k).map fun c => c.toNat.toUInt8 := by
  rw [decimal, ascii, Nat.toString_eq_repr, Nat.toList_repr]

theorem digit_of_mem {k : ℕ} {c : Char} (hc : c ∈ Nat.toDigits 10 k) :
    48 ≤ c.toNat ∧ c.toNat ≤ 57 := by
  have hdigit : c.isDigit = true := Nat.isDigit_of_mem_toDigits (by decide) (by decide) hc
  simp only [Char.isDigit, Bool.and_eq_true, decide_eq_true_eq] at hdigit
  exact ⟨UInt32.le_iff_toNat_le.mp hdigit.1, UInt32.le_iff_toNat_le.mp hdigit.2⟩

theorem toNat_byte {c : Char} (hc : c.toNat ≤ 57) : c.toNat.toUInt8.toNat = c.toNat := by
  simp
  omega

/-- The digits can be read back. -/
theorem map_digitOf_decimal (k : ℕ) : (decimal k).map digitOf = Nat.toDigits 10 k := by
  have hback : ∀ c ∈ Nat.toDigits 10 k, digitOf c.toNat.toUInt8 = c := by
    intro c hc
    rw [digitOf, toNat_byte (digit_of_mem hc).2, Char.ofNat_toNat]
  rw [decimal_eq, List.map_map]
  exact (List.map_congr_left hback).trans (List.map_id' _)

theorem decimal_injective : Function.Injective decimal := by
  intro k l h
  calc
    k = Nat.ofDigitChars 10 ((decimal k).map digitOf) 0 := by
      rw [map_digitOf_decimal, Nat.ofDigitChars_ten_toDigits]
    _ = Nat.ofDigitChars 10 ((decimal l).map digitOf) 0 := by rw [h]
    _ = l := by rw [map_digitOf_decimal, Nat.ofDigitChars_ten_toDigits]

theorem nulFree_decimal (k : ℕ) : NulFree (decimal k) := by
  rw [decimal_eq]
  intro hzero
  obtain ⟨c, hc, hbyte⟩ := List.mem_map.mp hzero
  have hnat := congrArg UInt8.toNat hbyte
  rw [toNat_byte (digit_of_mem hc).2] at hnat
  have := (digit_of_mem hc).1
  simp at hnat
  omega

theorem length_decimal_le {k e : ℕ} (he : 0 < e) (h : k < 10 ^ e) : (decimal k).length ≤ e := by
  rw [decimal_eq, List.length_map]
  exact (Nat.length_toDigits_le_iff (by decide) he).mpr h

/-- `snprintf(a, size, ...)` where the format gives the text `s`: at most `size - 1` bytes of
it, and a terminator. -/
def snprintf {n : ℕ} (a : CharArray n) (size : ℕ) (s : List Byte) : Option (CharArray n) :=
  if size = 0 then some a else a.write 0 (s.take (size - 1) ++ [0])

/-- A text that fits is the string that the array holds. -/
theorem snprintf_spec {n size : ℕ} (a : CharArray n) {s : List Byte} (hlen : s.length < size)
    (hsize : size ≤ n) :
    ∃ b tail, snprintf a size s = some b ∧ b.bytes = s ++ 0 :: tail := by
  obtain ⟨b, hb, hbytes⟩ := a.write_of_le (show 0 + (s ++ [0]).length ≤ n by simp; omega)
  have htake : s.take (size - 1) = s := List.take_of_length_le (by omega)
  refine ⟨b, a.bytes.drop (s.length + 1), ?_, ?_⟩
  · rw [snprintf, if_neg (by omega), htake, hb]
  · rw [hbytes]
    simp

end SocketPrograms
