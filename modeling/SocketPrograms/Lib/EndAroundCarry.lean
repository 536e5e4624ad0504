import Mathlib.Data.Nat.ModEq
import Mathlib.Tactic.Ring

/-!
# End-around carry

One's complement addition with digits up to `m`: a carry out of the digit is added back at its low
end. What is left of a sum is a digit that agrees with it modulo `m`, and 0 is left of nothing but
0.

## Main definitions

* `carryBack m s` — the part of `s` above a digit, added to the digit.
* `onesSum m s` — the digit that is left of `s`.

## Main results

* `onesSum_of_carryBack` — two carries are enough for a sum of two digits' width.
* `onesSum_eq_iff` — the digit that is left.
-/

namespace SocketPrograms

/-- The part above a digit, added to the digit. -/
def carryBack (m s : ℕ) : ℕ := s / (m + 1) + s % (m + 1)

/-- The digit that is left. -/
def onesSum (m s : ℕ) : ℕ := if s = 0 then 0 else (s - 1) % m + 1

variable {m s r : ℕ}

theorem carryBack_modEq (m s : ℕ) : carryBack m s ≡ s [MOD m] := by
  have hone : m + 1 ≡ 1 [MOD m] := by simp [Nat.ModEq]
  calc
    carryBack m s = 1 * (s / (m + 1)) + s % (m + 1) := by rw [carryBack, one_mul]
    _ ≡ (m + 1) * (s / (m + 1)) + s % (m + 1) [MOD m] := (hone.symm.mul_right _).add_right _
    _ = s := Nat.div_add_mod s (m + 1)

theorem onesSum_modEq (m s : ℕ) : onesSum m s ≡ s [MOD m] := by
  rw [onesSum]
  split
  · next hs => rw [hs]
  · next hs =>
    have hmod : (s - 1) % m ≡ s - 1 [MOD m] := Nat.mod_modEq _ _
    have hadd := hmod.add_right 1
    rwa [Nat.sub_add_cancel (Nat.pos_of_ne_zero hs)] at hadd

theorem onesSum_le (hm : 0 < m) (s : ℕ) : onesSum m s ≤ m := by
  rw [onesSum]
  split
  · exact Nat.zero_le m
  · exact Nat.mod_lt _ hm

@[simp] theorem onesSum_eq_zero_iff : onesSum m s = 0 ↔ s = 0 := by
  rw [onesSum]
  split
  · next hs => simp [hs]
  · next hs => simp [hs]

/-- Two digits that agree modulo `m` are one, or they are 0 and `m`. -/
theorem eq_of_modEq {a b : ℕ} (ha : a ≤ m) (hb : b ≤ m) (h : a ≡ b [MOD m])
    (hzero : a = 0 ↔ b = 0) : a = b := by
  rcases Nat.eq_or_lt_of_le ha with rfl | ha
  · rcases Nat.eq_or_lt_of_le hb with hb | hb
    · exact hb.symm
    · have hmod : b = 0 := by
        have hself := h
        rw [Nat.ModEq, Nat.mod_self, Nat.mod_eq_of_lt hb] at hself
        exact hself.symm
      rw [hmod, hzero.mpr hmod]
  · rcases Nat.eq_or_lt_of_le hb with rfl | hb
    · have hmod : a = 0 := by
        have hself := h
        rwa [Nat.ModEq, Nat.mod_self, Nat.mod_eq_of_lt ha] at hself
      rw [hmod, hzero.mp hmod]
    · exact h.eq_of_lt_of_lt ha hb

/-- **The digit that is left**: the one that agrees with the sum modulo `m`, and is 0 where the sum
is. -/
theorem onesSum_eq_iff (hr : r ≤ m) (hm : 0 < m) :
    onesSum m s = r ↔ s ≡ r [MOD m] ∧ (s = 0 ↔ r = 0) := by
  constructor
  · rintro rfl
    exact ⟨(onesSum_modEq m s).symm, onesSum_eq_zero_iff.symm⟩
  · rintro ⟨hmod, hzero⟩
    exact eq_of_modEq (onesSum_le hm s) hr ((onesSum_modEq m s).trans hmod)
      (onesSum_eq_zero_iff.trans hzero)

/-- All of the digit is left exactly of the multiples of `m`, but for 0. -/
theorem onesSum_eq_self_iff (hm : 0 < m) : onesSum m s = m ↔ s ≠ 0 ∧ s ≡ 0 [MOD m] := by
  rw [onesSum_eq_iff le_rfl hm]
  have hself : m ≡ 0 [MOD m] := by simp [Nat.ModEq]
  constructor
  · intro h
    exact ⟨fun hs => hm.ne' (h.2.mp hs), h.1.trans hself⟩
  · intro h
    exact ⟨h.2.trans hself.symm, fun hs => absurd hs h.1, fun hzero => absurd hzero hm.ne'⟩

/-- **Two carries**: the first leaves a digit and a carry of 1 at most, and the second none. -/
theorem onesSum_of_carryBack (hm : 0 < m) (hs : s < (m + 1) * (m + 1)) :
    (carryBack m s + carryBack m s / (m + 1)) % (m + 1) = onesSum m s := by
  have hhigh : s / (m + 1) ≤ m := Nat.lt_succ_iff.mp (Nat.div_lt_of_lt_mul hs)
  have hlow : s % (m + 1) ≤ m := Nat.lt_succ_iff.mp (Nat.mod_lt s (Nat.succ_pos m))
  have hmod := carryBack_modEq m s
  have hzero : carryBack m s = 0 ↔ s = 0 := by
    constructor
    · intro h
      have hparts := Nat.add_eq_zero_iff.mp h
      have hsplit := Nat.div_add_mod s (m + 1)
      rw [hparts.1, hparts.2] at hsplit
      simpa using hsplit.symm
    · rintro rfl
      simp [carryBack]
  have hbound : carryBack m s ≤ 2 * m := by
    rw [carryBack]
    omega
  generalize carryBack m s = t at hmod hzero hbound
  rcases Nat.lt_or_ge t (m + 1) with hlt | hge
  · rw [Nat.div_eq_of_lt hlt, Nat.add_zero, Nat.mod_eq_of_lt hlt]
    exact ((onesSum_eq_iff (Nat.lt_succ_iff.mp hlt) hm).mpr ⟨hmod.symm, hzero.symm⟩).symm
  · have hcarry : t / (m + 1) = 1 := Nat.div_eq_of_lt_le (by omega) (by omega)
    have hrest : (t + 1) % (m + 1) = t - m := by
      rw [show t + 1 = (t - m) + (m + 1) by omega, Nat.add_mod_right, Nat.mod_eq_of_lt (by omega)]
    rw [hcarry, hrest]
    have hback : t - m ≡ t [MOD m] := by
      have hadd : (t - m) + m ≡ t - m [MOD m] := by simp [Nat.ModEq]
      rw [Nat.sub_add_cancel (by omega)] at hadd
      exact hadd.symm
    refine ((onesSum_eq_iff (by omega) hm).mpr ⟨(hback.trans hmod).symm, ?_⟩).symm
    rw [← hzero]
    omega

end SocketPrograms
