import SocketPrograms.Lib.CharArray
import Mathlib.Algebra.Group.Nat.Defs

/-!
# Numerals in a base

`%u` and `%x` print the digits of a number, the most significant first. A reader that multiplies by
the base and adds the next digit gets the number back; it may look the digits up in a table of its
own.

## Main definitions

* `numeral b k` — the digits of `k` in base `b`.
* `valueFrom b look v s` — the number read from the digits `s` behind those of `v`.
* `valueFrom_numeral` — what was printed is read back.
-/

namespace SocketPrograms

/-- The digits of a number, as `%u` prints them in base 10 and `%x` in base 16. -/
def numeral (b k : ℕ) : List Byte := (Nat.toDigits b k).map fun c => c.toNat.toUInt8

/-- The byte of a digit. -/
def digitByte (d : ℕ) : Byte := (Nat.digitChar d).toNat.toUInt8

/-- The number read from these digits, behind those of `v`. -/
def valueFrom (b : ℕ) (look : Byte → Option ℕ) (v : ℕ) (s : List Byte) : ℕ :=
  s.foldl (fun v c => v * b + (look c).getD 0) v

variable {b k v : ℕ} {look : Byte → Option ℕ} {s : List Byte}

@[simp] theorem valueFrom_nil : valueFrom b look v [] = v := rfl

@[simp] theorem valueFrom_cons (c : Byte) :
    valueFrom b look v (c :: s) = valueFrom b look (v * b + (look c).getD 0) s := rfl

/-- More digits do not make less. -/
theorem le_valueFrom (hb : 0 < b) (s : List Byte) : v ≤ valueFrom b look v s := by
  induction s generalizing v with
  | nil => exact Nat.le_refl v
  | cons c s ih => exact le_trans (le_trans (Nat.le_mul_of_pos_right v hb) (Nat.le_add_right ..)) ih

/-- So many digits do not make more. -/
theorem valueFrom_lt (hs : ∀ c ∈ s, (look c).getD 0 < b) :
    valueFrom b look v s < (v + 1) * b ^ s.length := by
  induction s generalizing v with
  | nil => simp
  | cons c s ih =>
      obtain ⟨hc, hs⟩ := List.forall_mem_cons.mp hs
      have hstep : v * b + (look c).getD 0 + 1 ≤ (v + 1) * b := by
        rw [Nat.add_mul, Nat.one_mul]
        omega
      calc valueFrom b look v (c :: s)
        _ < (v * b + (look c).getD 0 + 1) * b ^ s.length := ih hs
        _ ≤ (v + 1) * b * b ^ s.length := Nat.mul_le_mul_right _ hstep
        _ = (v + 1) * b ^ (c :: s).length := by rw [List.length_cons, pow_succ', Nat.mul_assoc]

theorem numeral_of_lt (h : k < b) : numeral b k = [digitByte k] := by
  rw [numeral, Nat.toDigits_of_lt_base h]
  rfl

theorem numeral_of_le (hb : 1 < b) (h : b ≤ k) :
    numeral b k = numeral b (k / b) ++ [digitByte (k % b)] := by
  rw [numeral, Nat.toDigits_of_base_le hb h, List.map_append]
  rfl

theorem numeral_ne_nil : numeral b k ≠ [] := by
  rw [numeral, ne_eq, List.map_eq_nil_iff]
  exact Nat.toDigits_ne_nil

theorem length_numeral_le {e : ℕ} (hb : 1 < b) (he : 0 < e) (h : k < b ^ e) :
    (numeral b k).length ≤ e := by
  rw [numeral, List.length_map]
  exact (Nat.length_toDigits_le_iff hb he).mpr h

/-- Each digit is found in the table. -/
theorem look_of_mem (hb : 1 < b) (hlook : ∀ d < b, look (digitByte d) = some d) (k : ℕ) :
    ∀ c ∈ numeral b k, ∃ d < b, c = digitByte d ∧ look c = some d := by
  induction k using Nat.strong_induction_on with
  | _ k ih =>
    intro c hc
    by_cases hk : k < b
    · rw [numeral_of_lt hk, List.mem_singleton] at hc
      exact ⟨k, hk, hc, by rw [hc, hlook k hk]⟩
    · rw [numeral_of_le hb (by omega), List.mem_append, List.mem_singleton] at hc
      rcases hc with hc | hc
      · exact ih (k / b) (Nat.div_lt_self (by omega) hb) c hc
      · have hlt : k % b < b := Nat.mod_lt k (by omega)
        exact ⟨k % b, hlt, hc, by rw [hc, hlook _ hlt]⟩

/-- **What was printed is read back.** -/
theorem valueFrom_numeral (hb : 1 < b) (hlook : ∀ d < b, look (digitByte d) = some d) (k : ℕ) :
    valueFrom b look 0 (numeral b k) = k := by
  induction k using Nat.strong_induction_on with
  | _ k ih =>
    by_cases hk : k < b
    · rw [numeral_of_lt hk, valueFrom_cons, hlook k hk]
      simp
    · have hlt : k % b < b := Nat.mod_lt k (by omega)
      have hback := ih (k / b) (Nat.div_lt_self (by omega) hb)
      rw [valueFrom] at hback
      rw [numeral_of_le hb (by omega), valueFrom, List.foldl_append, hback, List.foldl_cons,
        List.foldl_nil, hlook _ hlt]
      exact Nat.div_add_mod' k b

end SocketPrograms
