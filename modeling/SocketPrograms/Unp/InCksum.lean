import SocketPrograms.Lib.EndAroundCarry

/-!
# The Internet checksum

`in_cksum` adds the 16-bit words of a packet, as the machine reads them from memory, in 32 bits,
adds the carries back and returns the complement. The module is about this function alone: what its
callers put into a packet, and over which of its bytes they sum, is not modelled.

## Main definitions

* `load`, `store` — two bytes of memory as a number, in either byte order.
* `in_cksum` — the function; `packet` — the bytes it is given, with a field among them.

## Main results

* `checksum_verifies` — **the checksum is 0 where the field holds the checksum with 0 in it**, and
  nowhere else but for `0xffff`.
* `same_bytes` — machines of either byte order store the same bytes.
-/

namespace SocketPrograms.Unp.InCksum

/-- The byte order of the machine. -/
inductive Order
  | little
  | big
  deriving DecidableEq

/-- Two bytes of memory as a `uint16_t`. -/
def load : Order → UInt8 → UInt8 → UInt16
  | .little, a, b => a.toUInt16 + b.toUInt16 * 256
  | .big, a, b => a.toUInt16 * 256 + b.toUInt16

/-- A `uint16_t` in memory. -/
def store : Order → UInt16 → List UInt8
  | .little, v => [v.toUInt8, (v >>> 8).toUInt8]
  | .big, v => [(v >>> 8).toUInt8, v.toUInt8]

/-- The loop over the words, and the odd byte at the end, which is the first byte of a word. -/
def addWords (o : Order) : List UInt8 → UInt32 → UInt32
  | a :: b :: rest, sum => addWords o rest (sum + (load o a b).toUInt32)
  | [a], sum => sum + (load o a 0).toUInt32
  | [], sum => sum

def in_cksum (o : Order) (bytes : List UInt8) : UInt16 :=
  let sum := addWords o bytes 0
  let sum := (sum >>> 16) + (sum &&& 0xffff)
  let sum := sum + (sum >>> 16)
  (~~~sum).toUInt16

/-- Bytes that have `v` in a field behind `front`. This is no function of the source, but how the
statements below name an argument of `in_cksum`. -/
def packet (o : Order) (front : List UInt8) (v : UInt16) (back : List UInt8) : List UInt8 :=
  front ++ (store o v ++ back)

/-! ## The sum -/

/-- The sum of the words, as a number. -/
def total (o : Order) : List UInt8 → ℕ
  | a :: b :: rest => (load o a b).toNat + total o rest
  | [a] => (load o a 0).toNat
  | [] => 0

variable {o : Order} {front back bytes : List UInt8} {v : UInt16}

theorem load_little (a b : UInt8) : (load .little a b).toNat = a.toNat + 256 * b.toNat := by
  have ha := a.toNat_lt
  have hb := b.toNat_lt
  simp only [load, UInt16.toNat_add, UInt16.toNat_mul, UInt8.toNat_toUInt16, UInt16.reduceToNat]
  omega

theorem load_big (a b : UInt8) : (load .big a b).toNat = 256 * a.toNat + b.toNat := by
  have ha := a.toNat_lt
  have hb := b.toNat_lt
  simp only [load, UInt16.toNat_add, UInt16.toNat_mul, UInt8.toNat_toUInt16, UInt16.reduceToNat]
  omega

theorem low_toNat (v : UInt16) : v.toUInt8.toNat = v.toNat % 256 := UInt16.toNat_toUInt8 v

theorem high_toNat (v : UInt16) : (v >>> 8).toUInt8.toNat = v.toNat / 256 := by
  have hv := v.toNat_lt
  simp only [UInt16.toNat_toUInt8, UInt16.toNat_shiftRight, UInt16.reduceToNat,
    Nat.shiftRight_eq_div_pow, Nat.reduceMod, Nat.reducePow]
  omega

/-- A number is read as it was stored. -/
theorem total_store (o : Order) (v : UInt16) (back : List UInt8) :
    total o (store o v ++ back) = v.toNat + total o back := by
  cases o with
  | little =>
      simp only [store, List.cons_append, List.nil_append, total]
      rw [load_little, high_toNat, low_toNat]
      omega
  | big =>
      simp only [store, List.cons_append, List.nil_append, total]
      rw [load_big, high_toNat, low_toNat]
      omega

theorem addWords_toNat (o : Order) (bytes : List UInt8) (sum : UInt32) :
    (addWords o bytes sum).toNat = (sum.toNat + total o bytes) % 2 ^ 32 := by
  fun_induction addWords o bytes sum with
  | case1 a b rest sum ih =>
      rw [ih, UInt32.toNat_add, UInt16.toNat_toUInt32, total]
      omega
  | case2 a sum =>
      rw [UInt32.toNat_add, UInt16.toNat_toUInt32, total]
  | case3 sum =>
      rw [total, Nat.add_zero, Nat.mod_eq_of_lt sum.toNat_lt]

/-- Each word adds at most `0xffff`. -/
theorem total_le (o : Order) (bytes : List UInt8) :
    total o bytes ≤ 65535 * ((bytes.length + 1) / 2) := by
  fun_induction total o bytes with
  | case1 a b rest ih =>
      have hlt := (load o a b).toNat_lt
      simp only [List.length_cons]
      omega
  | case2 a =>
      have hlt := (load o a 0).toNat_lt
      simp only [List.length_singleton]
      omega
  | case3 => exact Nat.zero_le _

/-- Behind whole words, the sum goes on. -/
theorem total_append (o : Order) (back : List UInt8) (front : List UInt8)
    (heven : Even front.length) : total o (front ++ back) = total o front + total o back := by
  fun_induction total o front with
  | case1 a b rest ih =>
      have hrest : Even rest.length := by
        simpa [Nat.even_add_one] using heven
      rw [List.cons_append, List.cons_append, total, ih hrest, Nat.add_assoc]
  | case2 a => simp at heven
  | case3 => rw [List.nil_append, Nat.zero_add]

/-- The carries are added back, and the complement is taken. -/
theorem fold_toNat (sum : UInt32) :
    (~~~((sum >>> 16) + (sum &&& (0xffff : UInt32)) +
        (((sum >>> 16) + (sum &&& (0xffff : UInt32))) >>> 16))).toUInt16.toNat =
      65535 - onesSum 65535 sum.toNat := by
  have hsum := sum.toNat_lt
  have hfirst : ((sum >>> 16) + (sum &&& (0xffff : UInt32))).toNat =
      carryBack 65535 sum.toNat := by
    have hlow : sum.toNat &&& 65535 = sum.toNat % 65536 := Nat.and_two_pow_sub_one_eq_mod _ 16
    simp only [UInt32.toNat_add, UInt32.toNat_shiftRight, UInt32.toNat_and, UInt32.reduceToNat,
      Nat.shiftRight_eq_div_pow, Nat.reduceMod, Nat.reducePow, hlow, carryBack]
    omega
  have hbound : carryBack 65535 sum.toNat ≤ 131070 := by
    rw [carryBack]
    omega
  have hfold := onesSum_of_carryBack (s := sum.toNat) (m := 65535) (by decide) hsum
  generalize (sum >>> 16) + (sum &&& (0xffff : UInt32)) = folded at hfirst
  have hsecond : (folded + (folded >>> 16)).toNat =
      carryBack 65535 sum.toNat + carryBack 65535 sum.toNat / (65535 + 1) := by
    simp only [UInt32.toNat_add, UInt32.toNat_shiftRight, UInt32.reduceToNat,
      Nat.shiftRight_eq_div_pow, Nat.reduceMod, Nat.reducePow, hfirst]
    omega
  rw [UInt32.toNat_toUInt16, UInt32.toNat_not, hsecond, ← hfold]
  have hsize : UInt32.size = 2 ^ 32 := rfl
  omega

/-- **The checksum**, of a packet whose sum fits 32 bits. -/
theorem in_cksum_toNat (h : total o bytes < 2 ^ 32) :
    (in_cksum o bytes).toNat = 65535 - onesSum 65535 (total o bytes) := by
  have hsum : (addWords o bytes 0).toNat = total o bytes := by
    rw [addWords_toNat, UInt32.toNat_zero, Nat.zero_add, Nat.mod_eq_of_lt h]
  rw [← hsum]
  exact fold_toNat (addWords o bytes 0)

/-! ## The field -/

/-- A sum of 32 bits is enough for 65537 words. -/
theorem total_lt (hlen : bytes.length ≤ 131074) : total o bytes < 2 ^ 32 := by
  have hle := total_le o bytes
  omega

theorem length_packet (o : Order) (front : List UInt8) (v : UInt16) (back : List UInt8) :
    (packet o front v back).length = front.length + back.length + 2 := by
  cases o <;> simp [packet, store] <;> omega

theorem total_packet (heven : Even front.length) :
    total o (packet o front v back) = total o front + total o back + v.toNat := by
  rw [packet, total_append o _ front heven, total_store]
  omega

/-- The checksum of a packet with `v` in its field, by the sum of the others. -/
theorem in_cksum_packet (heven : Even front.length)
    (hlen : front.length + back.length + 2 ≤ 131074) :
    (in_cksum o (packet o front v back)).toNat =
      65535 - onesSum 65535 (total o front + total o back + v.toNat) := by
  have hpacket : (packet o front v back).length ≤ 131074 := by
    rw [length_packet]
    exact hlen
  rw [in_cksum_toNat (total_lt hpacket), total_packet heven]

/-- **The checksum is 0 where the field holds the checksum of the bytes with 0 in it**, for a field
at an even place of up to 131074 bytes, and also where it holds `0xffff` for a checksum 0; any other
value is noticed. -/
theorem checksum_verifies (o : Order) (front back : List UInt8) (v : UInt16)
    (heven : Even front.length) (hlen : front.length + back.length + 2 ≤ 131074) :
    in_cksum o (packet o front v back) = 0 ↔
      v = in_cksum o (packet o front 0 back) ∨
        in_cksum o (packet o front 0 back) = 0 ∧ v = 0xffff := by
  have hempty : (in_cksum o (packet o front 0 back)).toNat =
      65535 - onesSum 65535 (total o front + total o back) := in_cksum_packet heven hlen
  have hfull := in_cksum_packet (o := o) (v := v) heven hlen
  generalize total o front + total o back = s at hempty hfull
  have hle := onesSum_le (m := 65535) (by decide) (s + v.toNat)
  have hself := onesSum_eq_self_iff (s := s + v.toNat) (m := 65535) (by decide)
  have hmod : onesSum 65535 s % 65535 = s % 65535 := onesSum_modEq 65535 s
  have hdigit := onesSum_le (m := 65535) (by decide) s
  have hzero : onesSum 65535 s = 0 ↔ s = 0 := onesSum_eq_zero_iff
  have hv := v.toNat_lt
  rw [Nat.ModEq] at hself
  simp only [← UInt16.toNat_inj, hempty, hfull, UInt16.reduceToNat]
  omega

/-- Eight bytes, with the field behind the first two. -/
theorem checksum_verifies_echo :
    in_cksum .little (packet .little [8, 0] (in_cksum .little
      (packet .little [8, 0] 0 [1, 2, 3, 4])) [1, 2, 3, 4]) = 0 :=
  (checksum_verifies .little [8, 0] [1, 2, 3, 4] _ (by decide) (by decide)).mpr (.inl rfl)

/-! ## The byte order -/

/-- With the bytes of each word exchanged, a word is 256 times what it was. -/
theorem total_big (bytes : List UInt8) :
    total .big bytes ≡ 256 * total .little bytes [MOD 65535] ∧
      (total .big bytes = 0 ↔ total .little bytes = 0) := by
  fun_induction total .little bytes with
  | case1 a b rest ih =>
      have hword : (load .big a b).toNat ≡ 256 * (load .little a b).toNat [MOD 65535] := by
        rw [load_big, load_little, Nat.ModEq]
        omega
      rw [total, Nat.mul_add]
      refine ⟨hword.add ih.1, ?_⟩
      rw [Nat.add_eq_zero_iff, Nat.add_eq_zero_iff, ih.2, load_big, load_little]
      omega
  | case2 a =>
      rw [total, load_big, load_little, UInt8.toNat_zero, Nat.ModEq]
      omega
  | case3 => exact ⟨Nat.ModEq.refl 0, Iff.rfl⟩

/-- The digits that are left differ by the exchange of their bytes. -/
theorem onesSum_big (bytes : List UInt8) :
    onesSum 65535 (total .big bytes) =
      256 * (onesSum 65535 (total .little bytes) % 256) +
        onesSum 65535 (total .little bytes) / 256 := by
  have hle := onesSum_le (m := 65535) (by decide) (total .little bytes)
  have hmod := (onesSum_modEq 65535 (total .little bytes)).mul_left 256
  have hzero : onesSum 65535 (total .little bytes) = 0 ↔ total .little bytes = 0 :=
    onesSum_eq_zero_iff
  have hbig := total_big bytes
  generalize onesSum 65535 (total .little bytes) = r at hle hmod hzero
  rw [onesSum_eq_iff (by omega) (by decide)]
  constructor
  · refine (hbig.1.trans hmod.symm).trans ?_
    rw [Nat.ModEq]
    omega
  · rw [hbig.2, ← hzero]
    omega

theorem div_mod_bytes {h l : ℕ} (hl : l < 256) :
    (256 * h + l) / 256 = h ∧ (256 * h + l) % 256 = l := by
  omega

/-- **Machines of either byte order store the same bytes** for a checksum, whatever the packet. -/
theorem same_bytes (bytes : List UInt8) (hlen : bytes.length ≤ 131074) :
    store .big (in_cksum .big bytes) = store .little (in_cksum .little bytes) := by
  have hbig := in_cksum_toNat (o := .big) (total_lt hlen)
  have hlittle := in_cksum_toNat (o := .little) (total_lt hlen)
  have hle := onesSum_le (m := 65535) (by decide) (total .little bytes)
  rw [onesSum_big] at hbig
  generalize onesSum 65535 (total .little bytes) = r at hbig hlittle hle
  have hhigh : r / 256 ≤ 255 := by omega
  have hlow : r % 256 ≤ 255 := by omega
  have hsplit : r = 256 * (r / 256) + r % 256 := (Nat.div_add_mod r 256).symm
  generalize r / 256 = h at hbig hhigh hsplit
  generalize r % 256 = l at hbig hlow hsplit
  have hlittle₁ : (in_cksum .little bytes).toNat = 256 * (255 - h) + (255 - l) := by omega
  have hbig₁ : (in_cksum .big bytes).toNat = 256 * (255 - l) + (255 - h) := by omega
  simp only [store, List.cons.injEq, ← UInt8.toNat_inj, and_true]
  have hlittle₂ := div_mod_bytes (h := 255 - h) (l := 255 - l) (by omega)
  have hbig₂ := div_mod_bytes (h := 255 - l) (l := 255 - h) (by omega)
  rw [high_toNat, high_toNat, low_toNat, low_toNat, hlittle₁, hbig₁, hlittle₂.1, hlittle₂.2,
    hbig₂.1, hbig₂.2]
  exact ⟨rfl, rfl⟩

theorem same_bytes_echo :
    store .big (in_cksum .big [8, 0, 0, 0, 1, 2, 3, 4]) =
      store .little (in_cksum .little [8, 0, 0, 0, 1, 2, 3, 4]) :=
  same_bytes [8, 0, 0, 0, 1, 2, 3, 4] (by decide)

end SocketPrograms.Unp.InCksum
