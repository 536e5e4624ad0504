import SocketPrograms.Unp.InetNtop

/-!
# Reading an address back

What `inet_ntop4` and `inet_ntop6` write is read back by `inet_pton4` and `inet_pton6` as the
address it was written from.

## Main results

* `ntop4_reads_back` — the dotted quad; `inet_ntop4` writes behind an array that has as many bytes
  as the text.
* `ntop6_reads_back` — the IPv6 address, which `inet_ntop6` writes where it fits.
* `full_gap_cleared` — what `inet_pton6` makes of `::` in an address of eight words: the comment in
  the source says that it is ignored.
-/

namespace SocketPrograms.Unp.InetRoundTrip

open InetPton InetNtop

/-! ## The dotted quad -/

theorem digit_digitByte : ∀ d < 10, digit (digitByte d) = some d := by decide

/-- A byte is written as an octet. -/
theorem isOctet_numeral (b : Byte) :
    IsOctet (numeral 10 b.toNat) ∧ decimalValue (numeral 10 b.toNat) = b.toNat := by
  have hvalue : decimalValue (numeral 10 b.toNat) = b.toNat :=
    valueFrom_numeral (by decide) digit_digitByte _
  refine ⟨⟨numeral_ne_nil, fun c hc => ?_, ?_⟩, hvalue⟩
  · obtain ⟨d, _, _, hd⟩ := look_of_mem (by decide) digit_digitByte _ c hc
    rw [hd, Option.isSome_some]
  · have hb := b.toNat_lt
    omega

/-- A quad is read back. -/
theorem pton4_text4 (mem : CharArray 4) {src : List Byte} (hsrc : src.length = 4) :
    inet_pton4 mem (text4 src) = .ok src := by
  have hdot : ∀ s ∈ src.map fun b => numeral 10 b.toNat, dot ∉ s := by
    intro s hs hmem
    obtain ⟨b, _, rfl⟩ := List.mem_map.mp hs
    exact ne_of_mem_numeral (by decide) (by decide) hmem (by decide) rfl
  have hsplit : (text4 src).splitOn dot = src.map fun b => numeral 10 b.toNat := by
    refine List.splitOn_intercalate dot hdot ?_
    rw [ne_eq, List.map_eq_nil_iff]
    rintro rfl
    cases hsrc
  have hall : ((src.map fun b => numeral 10 b.toNat).length = 4 ∧
      ∀ p ∈ src.map fun b => numeral 10 b.toNat, IsOctet p) := by
    refine ⟨by rw [List.length_map, hsrc], fun p hp => ?_⟩
    obtain ⟨b, _, rfl⟩ := List.mem_map.mp hp
    exact (isOctet_numeral b).1
  have hback : octets (src.map fun b => numeral 10 b.toNat) = src := by
    rw [octets, List.map_map]
    refine (List.map_congr_left fun b _ => ?_).trans (List.map_id src)
    rw [Function.comp_apply, (isOctet_numeral b).2]
    exact UInt8.ofNat_toNat
  rw [pton4_accepts, hsplit, if_pos hall, hback]

/-- **A quad is read back**, where the array has room for the text and its terminator. Where it
has room for the text only, the terminator is written behind it. -/
theorem ntop4_reads_back {n : ℕ} (mem src : CharArray 4) (dst : CharArray n) :
    (inet_ntop4 src dst n = .error .invalid ↔ n < (text4 src.bytes).length) ∧
      (inet_ntop4 src dst n = .error .undefined ↔ n = (text4 src.bytes).length) ∧
      ∀ d, inet_ntop4 src dst n = .ok d →
        ∃ s, d.text = some s ∧ inet_pton4 mem s = .ok src.bytes := by
  have hlen := length_text4_le src.length_bytes
  have hback := pton4_text4 mem src.length_bytes
  obtain ⟨hfits, hover⟩ := dst.strcpy_spec (nulFree_text4 src.length_bytes)
  rw [inet_ntop4, if_neg (by omega)]
  rcases Nat.lt_trichotomy n (text4 src.bytes).length with hlt | heq | hgt
  · rw [if_pos (by omega)]
    refine ⟨by simp [hlt], by simp; omega, fun d hd => by cases hd⟩
  · rw [if_neg (by omega), hover (by omega)]
    refine ⟨by simp; omega, by simp [heq], fun d hd => by cases hd⟩
  · obtain ⟨d, hcopy, htext⟩ := hfits hgt
    rw [if_neg (by omega), hcopy]
    refine ⟨by simp; omega, by simp; omega, ?_⟩
    rintro d' ⟨⟩
    exact ⟨_, htext, hback⟩

/-! ## The groups of an IPv6 address -/

/-- In front of a group, with these bytes stored. -/
structure Has (g : Groups) (bytes : List Byte) : Prop where
  tmp_eq : g.tmp.bytes = padded 16 bytes
  tp_eq : g.tp = bytes.length
  le : bytes.length ≤ 16
  saw_eq : g.saw_xdigit = false
  val_eq : g.val = 0

variable {mem : CharArray 4} {g : Groups} {bytes rest : List Byte} {w : ℕ}

/-- Bytes that fit are stored behind the others. -/
theorem write_padded (more : List Byte) (hg : g.tmp.bytes = padded 16 bytes)
    (hlen : bytes.length + more.length ≤ 16) :
    ∃ tmp, g.write bytes.length more = .ok { g with tmp } ∧
      tmp.bytes = padded 16 (bytes ++ more) := by
  obtain ⟨tmp, hwrite, hbytes⟩ := g.write_eq hlen
  refine ⟨tmp, hwrite, ?_⟩
  rw [hbytes, hg, padded, List.take_left, List.drop_length_add_append, List.drop_replicate, padded,
    List.length_append, Nat.sub_sub]

/-- The digits of a group. -/
theorem loop_digits (s : List Byte) (hs : ∀ c ∈ s, ∃ d < 16, xdigit c = some d)
    (hle : valueFrom 16 xdigit g.val s ≤ 0xffff) :
    loop mem (s ++ rest) g =
      loop mem rest { g with
        val := valueFrom 16 xdigit g.val s, saw_xdigit := g.saw_xdigit || !s.isEmpty } := by
  induction s generalizing g with
  | nil => simp
  | cons c s ih =>
      obtain ⟨⟨d, hd, hc⟩, hs⟩ := List.forall_mem_cons.mp hs
      have hval : g.val <<< 4 ||| d = g.val * 16 + d := by
        rw [← Nat.shiftLeft_add_eq_or_of_lt hd, Nat.shiftLeft_eq]
      rw [valueFrom_cons, hc, Option.getD_some] at hle
      have hnext : g.val * 16 + d ≤ valueFrom 16 xdigit (g.val * 16 + d) s :=
        le_valueFrom (by decide) s
      rw [List.cons_append, loop, hc]
      dsimp only
      rw [hval, if_neg (by omega), ih hs hle, valueFrom_cons, hc, Option.getD_some]
      simp

/-- A word. -/
theorem loop_word (hg : Has g bytes) (hw : w < 65536) :
    loop mem (numeral 16 w ++ rest) g =
      loop mem rest { g with val := w, saw_xdigit := true } := by
  have hvalue : valueFrom 16 xdigit g.val (numeral 16 w) = w := by
    rw [hg.val_eq]
    exact valueFrom_numeral (by decide) xdigit_digitByte w
  have hdigits : ∀ c ∈ numeral 16 w, ∃ d < 16, xdigit c = some d := fun c hc => by
    obtain ⟨d, hd, _, hc⟩ := look_of_mem (by decide) xdigit_digitByte w c hc
    exact ⟨d, hd, hc⟩
  have hne : (numeral 16 w).isEmpty = false := by
    rw [List.isEmpty_eq_false_iff]
    exact numeral_ne_nil
  rw [loop_digits (numeral 16 w) hdigits (by rw [hvalue]; omega), hvalue, hne]
  simp

/-- A word is stored. -/
theorem store_word (hg : Has g bytes) (hlen : bytes.length + 2 ≤ 16) (curtok : List Byte) :
    ∃ tmp, Groups.store { g with curtok, val := w, saw_xdigit := true } =
        .ok { g with tmp, tp := bytes.length + 2, curtok, val := w, saw_xdigit := true } ∧
      tmp.bytes = padded 16 (bytes ++ bytesOf [w]) := by
  obtain ⟨tmp, hwrite, hbytes⟩ :=
    write_padded (g := { g with curtok, val := w, saw_xdigit := true }) (bytesOf [w])
      hg.tmp_eq (by rw [length_bytesOf]; exact hlen)
  have hroom : ¬bytes.length + 2 > 16 := by omega
  have hpair : [(w >>> 8).toUInt8, w.toUInt8] = bytesOf [w] := rfl
  refine ⟨tmp, ?_, hbytes⟩
  dsimp only at hwrite
  rw [Groups.store]
  dsimp only
  rw [hg.tp_eq] at hwrite ⊢
  rw [if_neg hroom, hpair, hwrite, ok_bind]

/-- Words, each with a colon behind it. -/
theorem loop_trailed (mem : CharArray 4) (ws : List ℕ) (hws : ∀ w ∈ ws, w < 65536)
    (hg : Has g bytes) (hcurtok : g.curtok = trailed ws ++ rest)
    (hlen : bytes.length + 2 * ws.length ≤ 16) :
    ∃ y, loop mem (trailed ws ++ rest) g = loop mem rest y ∧ Has y (bytes ++ bytesOf ws) ∧
      y.colonp = g.colonp ∧ y.curtok = rest := by
  induction ws generalizing g bytes with
  | nil => exact ⟨g, rfl, by simpa [bytesOf] using hg, rfl, hcurtok⟩
  | cons w ws ih =>
      obtain ⟨hw, hws⟩ := List.forall_mem_cons.mp hws
      rw [List.length_cons] at hlen
      have hterm : trailed (w :: ws) ++ rest =
          numeral 16 w ++ (colon :: (trailed ws ++ rest)) := by simp [trailed]
      have hcolon : xdigit colon = none := by decide
      obtain ⟨tmp, hstore, hbytes⟩ := store_word (w := w) hg (by omega) (trailed ws ++ rest)
      have hnext : Has { g with
          tmp, tp := bytes.length + 2, curtok := trailed ws ++ rest
          saw_xdigit := false, val := 0 } (bytes ++ bytesOf [w]) :=
        ⟨hbytes, by simp, by simp; omega, rfl, rfl⟩
      obtain ⟨y, hloop, hy, hcolonp, hcur⟩ := ih hws hnext rfl (by simp; omega)
      refine ⟨y, ?_, ?_, hcolonp, hcur⟩
      · rw [hterm, loop_word hg hw, loop, hcolon]
        dsimp only
        rw [if_pos rfl, if_pos rfl, hstore, ok_bind]
        exact hloop
      · rw [List.append_assoc, ← bytesOf_append] at hy
        exact hy

/-- The colon behind another one. -/
theorem loop_colon (hg : Has g bytes) (hcolonp : g.colonp = none) :
    loop mem (colon :: rest) g =
      loop mem rest { g with curtok := rest, colonp := some bytes.length } := by
  have hcolon : xdigit colon = none := by decide
  rw [loop, hcolon]
  dsimp only
  rw [if_pos rfl, hg.saw_eq, if_neg (by simp), hcolonp, if_neg (by simp), hg.tp_eq]

/-- Words with colons in between, and the last of them. -/
theorem loop_joined (mem : CharArray 4) (w : ℕ) (ws : List ℕ) (hws : ∀ v ∈ w :: ws, v < 65536)
    (hg : Has g bytes) (hcurtok : g.curtok = joined (w :: ws))
    (hlen : bytes.length + 2 * (ws.length + 1) ≤ 16) :
    ∃ y z, loop mem (joined (w :: ws)) g = .ok y ∧ y.flush = .ok z ∧
      z.tmp.bytes = padded 16 (bytes ++ bytesOf (w :: ws)) ∧
      z.tp = bytes.length + 2 * (ws.length + 1) ∧ z.colonp = g.colonp := by
  induction ws generalizing g bytes w with
  | nil =>
      have hw := hws w List.mem_cons_self
      obtain ⟨tmp, hstore, hbytes⟩ := store_word (w := w) hg (by simpa using hlen) g.curtok
      have hjoined : joined [w] = numeral 16 w ++ [] := by simp [joined, led]
      have hflush : Groups.flush { g with val := w, saw_xdigit := true } =
          .ok { g with tmp, tp := bytes.length + 2, val := w, saw_xdigit := true } := hstore
      refine ⟨_, _, ?_, hflush, hbytes, rfl, rfl⟩
      rw [hjoined, loop_word hg hw, loop]
  | cons v ws ih =>
      have hsplit : joined (w :: v :: ws) = trailed [w] ++ joined (v :: ws) := by
        simp [joined, led, trailed]
      have hw : ∀ u ∈ [w], u < 65536 := by simpa using hws w List.mem_cons_self
      rw [List.length_cons] at hlen
      obtain ⟨y, hloop, hy, hcolonp, hcur⟩ := loop_trailed mem [w] hw hg
        (hcurtok.trans hsplit) (by simp; omega)
      obtain ⟨y', z, hloop', hflush, hbytes, htp, hcolonp'⟩ := ih v
        (fun u hu => hws u (List.mem_cons_of_mem w hu)) hy hcur (by simp; omega)
      refine ⟨y', z, ?_, hflush, ?_, ?_, hcolonp'.trans hcolonp⟩
      · rw [hsplit, hloop, hloop']
      · rw [hbytes, List.append_assoc, ← bytesOf_append]
        rfl
      · rw [htp, List.length_append, length_bytesOf, List.length_cons]
        simp
        omega

/-- The same, where there may be no words. -/
theorem loop_words (mem : CharArray 4) (ws : List ℕ) (hws : ∀ v ∈ ws, v < 65536) (hg : Has g bytes)
    (hcurtok : g.curtok = joined ws) (hlen : bytes.length + 2 * ws.length ≤ 16) :
    ∃ y z, loop mem (joined ws) g = .ok y ∧ y.flush = .ok z ∧
      z.tmp.bytes = padded 16 (bytes ++ bytesOf ws) ∧
      z.tp = bytes.length + 2 * ws.length ∧ z.colonp = g.colonp := by
  cases ws with
  | nil =>
      refine ⟨g, g, rfl, ?_, ?_, hg.tp_eq, rfl⟩
      · rw [Groups.flush, if_neg (by simp [hg.saw_eq])]
      · simpa [bytesOf] using hg.tmp_eq
  | cons w ws => exact loop_joined mem w ws hws hg hcurtok hlen

/-- An octet is read as if it were a group. -/
theorem loop_octet (mem : CharArray 4) (b : Byte) (rest : List Byte) (hg : Has g bytes) :
    ∃ val, loop mem (numeral 10 b.toNat ++ rest) g =
      loop mem rest { g with val, saw_xdigit := true } := by
  have hdigits : ∀ c ∈ numeral 10 b.toNat, ∃ d < 16, xdigit c = some d := fun c hc => by
    obtain ⟨d, hd, _, hc⟩ := look_of_mem (by decide)
      (fun d hd => xdigit_digitByte d (by omega)) b.toNat c hc
    exact ⟨d, by omega, hc⟩
  have hlen : (numeral 10 b.toNat).length ≤ 3 :=
    length_numeral_le (by decide) (by decide) (lt_trans b.toNat_lt (by decide))
  have hlt : valueFrom 16 xdigit g.val (numeral 10 b.toNat) < 16 ^ 3 := by
    have hvalue : valueFrom 16 xdigit 0 (numeral 10 b.toNat) <
        (0 + 1) * 16 ^ (numeral 10 b.toNat).length :=
      valueFrom_lt fun c hc => by
        obtain ⟨d, hd, hc⟩ := hdigits c hc
        rw [hc]
        exact hd
    rw [hg.val_eq]
    refine lt_of_lt_of_le hvalue ?_
    rw [Nat.zero_add, Nat.one_mul]
    exact Nat.pow_le_pow_right (by decide) hlen
  have hne : (numeral 10 b.toNat).isEmpty = false := by
    rw [List.isEmpty_eq_false_iff]
    exact numeral_ne_nil
  refine ⟨valueFrom 16 xdigit g.val (numeral 10 b.toNat), ?_⟩
  rw [loop_digits _ hdigits (by omega), hne]
  simp

/-- An IPv4 address behind the other groups. -/
theorem loop_quad (mem : CharArray 4) {quad : List Byte} (hquad : quad.length = 4)
    (hg : Has g bytes) (hcurtok : g.curtok = text4 quad) (hlen : bytes.length + 4 ≤ 16) :
    ∃ y, loop mem (text4 quad) g = .ok y ∧ y.flush = .ok y ∧
      y.tmp.bytes = padded 16 (bytes ++ quad) ∧ y.tp = bytes.length + 4 ∧
      y.colonp = g.colonp := by
  obtain ⟨a, tail, htext⟩ : ∃ (a : Byte) (tail : List Byte),
      text4 quad = numeral 10 a.toNat ++ dot :: tail := by
    match quad, hquad with
    | [a, b, c, d], _ => exact ⟨a, _, rfl⟩
  obtain ⟨val, hloop⟩ := loop_octet mem a (dot :: tail) hg
  have hback := pton4_text4 mem hquad
  rw [← hcurtok] at hback
  have hdot : xdigit dot = none := by decide
  obtain ⟨tmp, hwrite, hbytes⟩ := write_padded (g := { g with val, saw_xdigit := true }) quad
    hg.tmp_eq (by rw [hquad]; exact hlen)
  dsimp only at hwrite
  refine ⟨{ g with tmp, tp := bytes.length + 4, val, saw_xdigit := false }, ?_, rfl, hbytes, rfl,
    rfl⟩
  rw [htext, hloop, loop, hdot]
  dsimp only
  rw [hg.tp_eq] at hwrite ⊢
  rw [if_neg (by decide), if_pos ⟨rfl, hlen⟩, hback, ok_bind, hwrite, ok_bind]

/-! ## The bytes behind the gap -/

/-- One byte is replaced. -/
theorem write_cons {us vs : List Byte} {a : Byte} (hg : g.tmp.bytes = us ++ a :: vs) (b : Byte) :
    ∃ tmp, g.write us.length [b] = .ok { g with tmp } ∧ tmp.bytes = us ++ b :: vs := by
  have hlen := g.tmp.length_bytes
  rw [hg, List.length_append, List.length_cons] at hlen
  have hroom : us.length + [b].length ≤ 16 := by
    rw [List.length_singleton]
    omega
  obtain ⟨tmp, hwrite, hbytes⟩ := g.write_eq hroom
  refine ⟨tmp, hwrite, ?_⟩
  rw [hbytes, hg, List.take_left, List.append_cons us a vs, List.length_singleton,
    List.drop_left' (by simp), List.append_assoc]
  rfl

/-- One byte is moved over the zeros behind it. -/
theorem shift_one {us vs : List Byte} {b : Byte} {e c n i : ℕ}
    (hg : g.tmp.bytes = us ++ b :: (List.replicate (e + 1) 0 ++ vs))
    (hfrom : c + (n - i) = us.length) (hto : 16 - i = us.length + (e + 1)) :
    ∃ y, Groups.shift c n g i = .ok y ∧
      y.tmp.bytes = us ++ (List.replicate (e + 1) 0 ++ b :: vs) := by
  have hlast : g.tmp.bytes = (us ++ b :: List.replicate e 0) ++ 0 :: vs := by
    rw [hg, List.replicate_succ']
    simp
  have hplace : (us ++ b :: List.replicate e 0).length = us.length + (e + 1) := by simp
  obtain ⟨tmp, hwrite, hbytes⟩ := write_cons hlast b
  have hbytes' : tmp.bytes = us ++ b :: (List.replicate e 0 ++ b :: vs) := by
    rw [hbytes, List.append_assoc, List.cons_append]
  obtain ⟨tmp', hwrite', hzero⟩ := write_cons (g := { g with tmp }) hbytes' 0
  refine ⟨{ g with tmp := tmp' }, ?_, ?_⟩
  · have hget : g.tmp.bytes[us.length]? = some b := by
      rw [hg, List.getElem?_append_right le_rfl, Nat.sub_self, List.getElem?_cons_zero]
    rw [hplace] at hwrite
    simp only [Groups.shift, hfrom, hto, hget, hwrite, ok_bind]
    exact hwrite'
  · rw [hzero, List.replicate_succ]
    rfl

/-- The loop that moves them to the end. -/
theorem shift_spec {front back : List Byte} {e : ℕ}
    (hlen : front.length + back.length + (e + 1) = 16)
    (hg : g.tmp.bytes = front ++ (back ++ List.replicate (e + 1) 0)) :
    ∃ y, (List.range' 1 back.length).foldlM (Groups.shift front.length back.length) g = .ok y ∧
      y.tmp.bytes = front ++ (List.replicate (e + 1) 0 ++ back) := by
  have hsome : ∀ m ≤ back.length,
      ∃ y, (List.range' 1 m).foldlM (Groups.shift front.length back.length) g = .ok y ∧
        y.tmp.bytes = front ++ (back.take (back.length - m) ++
          (List.replicate (e + 1) 0 ++ back.drop (back.length - m))) := by
    intro m
    induction m with
    | zero =>
        intro _
        refine ⟨g, rfl, ?_⟩
        rw [Nat.sub_zero, List.take_length, List.drop_length, List.append_nil, hg]
    | succ m ih =>
        intro hm
        obtain ⟨y, hfold, hy⟩ := ih (by omega)
        obtain ⟨k, hk⟩ : ∃ k, back.length - m = k + 1 := ⟨back.length - m - 1, by omega⟩
        have hkm : back.length - (m + 1) = k := by omega
        have hlt : k < back.length := by omega
        have hus : (front ++ back.take k).length = front.length + k := by
          rw [List.length_append, List.length_take, Nat.min_eq_left (by omega)]
        have hy' : y.tmp.bytes = front ++ back.take k ++
            back[k] :: (List.replicate (e + 1) 0 ++ back.drop (k + 1)) := by
          rw [hy, hk, ← List.take_append_getElem hlt]
          simp only [List.append_assoc, List.singleton_append]
        obtain ⟨z, hshift, hz⟩ := shift_one (c := front.length) (n := back.length) (i := m + 1) hy'
          (by rw [hus, hkm]) (by rw [hus]; omega)
        refine ⟨z, ?_, ?_⟩
        · rw [List.range'_concat, List.foldlM_append, hfold, ok_bind, List.foldlM_cons,
            Nat.one_mul, Nat.add_comm 1 m, hshift, ok_bind]
          rfl
        · rw [hz, hkm, List.drop_eq_getElem_cons hlt, List.append_assoc]
  obtain ⟨y, hfold, hy⟩ := hsome back.length le_rfl
  refine ⟨y, hfold, ?_⟩
  rw [hy, Nat.sub_self, List.take_zero, List.drop_zero, List.nil_append]

variable {y z : Groups} {front back src tmp : List Byte} {ws : List ℕ}

/-- An address without `::`. -/
theorem finish_full (hflush : y.flush = .ok z) (hbytes : z.tmp.bytes = src) (htp : z.tp = 16)
    (hcolonp : z.colonp = none) : y.finish = .ok src := by
  have hspread : z.spread = .ok z := by rw [Groups.spread, hcolonp]
  rw [Groups.finish, hflush, ok_bind, hspread, ok_bind, if_neg (by simp [htp]), hbytes]

/-- An address with `::`. -/
theorem finish_gap {e : ℕ} (hflush : y.flush = .ok z)
    (hbytes : z.tmp.bytes = padded 16 (front ++ back)) (htp : z.tp = front.length + back.length)
    (hcolonp : z.colonp = some front.length)
    (hroom : front.length + back.length + (e + 1) = 16) :
    y.finish = .ok (front ++ (List.replicate (e + 1) 0 ++ back)) := by
  have hzeros : 16 - (front ++ back).length = e + 1 := by
    rw [List.length_append]
    omega
  rw [padded, hzeros, List.append_assoc] at hbytes
  obtain ⟨u, hfold, hu⟩ := shift_spec hroom hbytes
  have hspread : z.spread = .ok { u with tp := 16 } := by
    rw [Groups.spread, hcolonp]
    dsimp only
    rw [htp, Nat.add_sub_cancel_left, hfold, ok_bind]
  rw [Groups.finish, hflush, ok_bind, hspread, ok_bind, if_neg (by simp), hu]

/-! ## The round trip -/

/-- A word does not start with a colon. -/
theorem skipColon_numeral (w : ℕ) (rest : List Byte) :
    skipColon (numeral 16 w ++ rest) = .ok (numeral 16 w ++ rest) := by
  obtain ⟨c, s, hs⟩ := List.exists_cons_of_ne_nil (numeral_ne_nil (b := 16) (k := w))
  have hc : c ≠ colon := ne_colon_of_mem (by rw [hs]; exact List.mem_cons_self)
  rw [hs, List.cons_append, skipColon, if_neg (by simp [hc]), if_neg hc]

theorem skipColon_gapped (front : List ℕ) (tail : List Byte) :
    skipColon (gapped front tail) = .ok (trailed front ++ colon :: tail) := by
  cases front with
  | nil => simp [gapped, skipColon, trailed]
  | cons w ws =>
      have hterm : trailed (w :: ws) ++ colon :: tail =
          numeral 16 w ++ (colon :: trailed ws ++ colon :: tail) := by simp [trailed]
      rw [gapped, if_neg (by simp), hterm, skipColon_numeral]

/-- The reader at its start. -/
theorem has_start (arr : CharArray 16) (s : List Byte) :
    Has ⟨arr.memset 16, 0, none, s, false, 0⟩ [] :=
  ⟨arr.bytes_memset_of_le le_rfl, rfl, Nat.zero_le _, rfl, rfl⟩

/-- In front of what is behind `::`. -/
theorem loop_gap (arr : CharArray 16) (mem : CharArray 4) (front : List ℕ)
    (hfront : ∀ w ∈ front, w < 65536) (hlen : 2 * front.length ≤ 16) (tail : List Byte) :
    ∃ y, loop mem (trailed front ++ colon :: tail)
        ⟨arr.memset 16, 0, none, trailed front ++ colon :: tail, false, 0⟩ = loop mem tail y ∧
      Has y (bytesOf front) ∧ y.colonp = some (bytesOf front).length ∧ y.curtok = tail := by
  obtain ⟨y, hloop, hy, hcolonp, hcurtok⟩ := loop_trailed mem front hfront
    (has_start arr _) rfl (by simpa using hlen)
  rw [List.nil_append] at hy
  refine ⟨{ y with curtok := tail, colonp := some (bytesOf front).length }, ?_,
    ⟨hy.tmp_eq, hy.tp_eq, hy.le, hy.saw_eq, hy.val_eq⟩, rfl, rfl⟩
  rw [hloop, loop_colon hy hcolonp]

/-- **The text of an address is read back.** -/
theorem pton6_text (arr : CharArray 16) (mem : CharArray 4) (h : Text src ws tmp)
    (hsrc : src.length = 16) (hlen : ws.length = 8) (hlt : ∀ w ∈ ws, w < 65536)
    (hbytes : bytesOf ws = src) : inet_pton6 arr mem tmp = .ok src := by
  cases h with
  | plain =>
      obtain ⟨w, ws, rfl⟩ : ∃ w us, ws = w :: us := by
        refine List.exists_cons_of_ne_nil ?_
        rintro rfl
        cases hlen
      rw [List.length_cons] at hlen
      obtain ⟨y, z, hloop, hflush, hz, htp, hcolonp⟩ := loop_joined mem w ws hlt
        (has_start arr _) rfl (by simp; omega)
      rw [List.nil_append, hbytes, padded_of_length hsrc] at hz
      have hfinish := finish_full hflush hz (by rw [htp]; simp; omega) hcolonp
      rw [inet_pton6, joined, skipColon_numeral, ok_bind]
      exact (congrArg (· >>= Groups.finish) hloop).trans hfinish
  | gap front back k hr hout hws =>
      have hk := hr.two
      dsimp only at hk
      rw [hws] at hlt hlen hbytes
      simp only [List.length_append, List.length_replicate] at hlen
      rw [bytesOf_append, bytesOf_append, bytesOf_replicate_zero] at hbytes
      obtain ⟨y, hloop, hy, hcolonp, hcurtok⟩ := loop_gap arr mem front
        (fun w hw => hlt w (by simp [hw])) (by omega) (joined back)
      obtain ⟨u, z, hloop', hflush, hz, htp, hcolonp'⟩ := loop_words mem back
        (fun w hw => hlt w (by simp [hw])) hy hcurtok (by simp; omega)
      obtain ⟨e, he⟩ : ∃ e, 2 * k = e + 1 := ⟨2 * k - 1, by omega⟩
      have hfinish := finish_gap (e := e) hflush hz (by rw [htp, length_bytesOf back])
        (hcolonp'.trans hcolonp) (by simp only [length_bytesOf]; omega)
      rw [he] at hbytes
      rw [hbytes] at hfinish
      rw [inet_pton6, skipColon_gapped, ok_bind]
      exact (congrArg (· >>= Groups.finish) (hloop.trans hloop')).trans hfinish
  | quad vs rest k hr hk hsix hvs hws =>
      have hquad : (src.drop 12).length = 4 := by rw [List.length_drop, hsrc]
      have hvs' : ∀ v ∈ vs, v < 65536 := fun v hv => by rw [hvs v hv]; decide
      rw [hws, bytesOf_append, bytesOf_append, bytesOf_replicate_zero, ← List.append_assoc]
        at hbytes
      have hdrop : src.drop 12 = bytesOf rest := by
        rw [← hbytes, List.drop_left' (by simp; omega)]
      obtain ⟨y, hloop, hy, hcolonp, hcurtok⟩ := loop_gap arr mem [] (by simp) (by simp)
        (trailed vs ++ text4 (src.drop 12))
      obtain ⟨u, hloop', hu, hcolonp', hcurtok'⟩ := loop_trailed mem vs hvs' hy hcurtok
        (by simp [bytesOf]; omega)
      obtain ⟨z, hloop'', hflush, hz, htp, hcolonp''⟩ := loop_quad mem hquad hu hcurtok'
        (by rw [List.length_append, length_bytesOf, length_bytesOf, List.length_nil]; omega)
      obtain ⟨e, he⟩ : ∃ e, 2 * k = e + 1 := ⟨2 * k - 1, by omega⟩
      have hz' : z.tmp.bytes = padded 16 ([] ++ (bytesOf vs ++ src.drop 12)) := by
        simpa [bytesOf] using hz
      have hfinish := finish_gap (e := e) hflush hz' (by rw [htp]; simp [bytesOf, hquad])
        ((hcolonp''.trans hcolonp').trans hcolonp) (by simp [hquad]; omega)
      rw [← he, hdrop, List.nil_append, ← List.append_assoc, hbytes] at hfinish
      rw [inet_pton6, skipColon_gapped, ok_bind]
      exact (congrArg (· >>= Groups.finish) ((hloop.trans hloop').trans hloop'')).trans hfinish

/-- **An address is read back.** `inet_ntop6` writes a text of at most 45 bytes where it fits with
its terminator, and fails elsewhere; `inet_pton6` reads it as the address. -/
theorem ntop6_reads_back {n : ℕ} (arr src : CharArray 16) (mem : CharArray 4)
    (dst : CharArray n) :
    ∃ s, s.length ≤ 45 ∧ inet_pton6 arr mem s = .ok src.bytes ∧
      (n ≤ s.length → inet_ntop6 src dst n = .error .invalid) ∧
      (s.length < n → ∃ d, inet_ntop6 src dst n = .ok d ∧ d.text = some s) := by
  obtain ⟨hlen, hlt, hbytes⟩ := words_spec src.length_bytes
  obtain ⟨s, htext, hle, hwritten⟩ := ntop6_spec src dst
  exact ⟨s, hle, pton6_text arr mem htext src.length_bytes hlen hlt hbytes, (hwritten n).1,
    fun hroom => (hwritten n).2 hroom hroom⟩

/-! ## A full address with `::` -/

/-- Where the array is full, a byte is moved to its own place, and cleared. -/
theorem shift_full {us vs : List Byte} {b : Byte} {c n i : ℕ} (hg : g.tmp.bytes = us ++ b :: vs)
    (hfrom : c + (n - i) = us.length) (hto : 16 - i = us.length) :
    ∃ y, Groups.shift c n g i = .ok y ∧ y.tmp.bytes = us ++ 0 :: vs := by
  obtain ⟨tmp, hwrite, hbytes⟩ := write_cons hg b
  obtain ⟨tmp', hwrite', hzero⟩ := write_cons (g := { g with tmp }) hbytes 0
  have hget : g.tmp.bytes[us.length]? = some b := by
    rw [hg, List.getElem?_append_right le_rfl, Nat.sub_self, List.getElem?_cons_zero]
  refine ⟨{ g with tmp := tmp' }, ?_, hzero⟩
  simp only [Groups.shift, hfrom, hto, hget, hwrite, ok_bind]
  exact hwrite'

/-- The loop that moves the bytes behind `::` clears them. -/
theorem shift_full_spec (hlen : front.length + back.length = 16)
    (hg : g.tmp.bytes = front ++ back) :
    ∃ y, (List.range' 1 back.length).foldlM (Groups.shift front.length back.length) g = .ok y ∧
      y.tmp.bytes = front ++ List.replicate back.length 0 := by
  have hsome : ∀ m ≤ back.length,
      ∃ y, (List.range' 1 m).foldlM (Groups.shift front.length back.length) g = .ok y ∧
        y.tmp.bytes = front ++ (back.take (back.length - m) ++ List.replicate m 0) := by
    intro m
    induction m with
    | zero =>
        intro _
        exact ⟨g, rfl, by simpa using hg⟩
    | succ m ih =>
        intro hm
        obtain ⟨y, hfold, hy⟩ := ih (by omega)
        obtain ⟨k, hk⟩ : ∃ k, back.length - m = k + 1 := ⟨back.length - m - 1, by omega⟩
        have hkm : back.length - (m + 1) = k := by omega
        have hlt : k < back.length := by omega
        have hus : (front ++ back.take k).length = front.length + k := by
          rw [List.length_append, List.length_take, Nat.min_eq_left (by omega)]
        have hy' : y.tmp.bytes = front ++ back.take k ++ back[k] :: List.replicate m 0 := by
          rw [hy, hk, ← List.take_append_getElem hlt]
          simp only [List.append_assoc, List.singleton_append]
        obtain ⟨z, hshift, hz⟩ := shift_full (c := front.length) (n := back.length) (i := m + 1) hy'
          (by rw [hus, hkm]) (by rw [hus]; omega)
        refine ⟨z, ?_, ?_⟩
        · rw [List.range'_concat, List.foldlM_append, hfold, ok_bind, List.foldlM_cons,
            Nat.one_mul, Nat.add_comm 1 m, hshift, ok_bind]
          rfl
        · rw [hz, hkm, List.replicate_succ, List.append_assoc]
  obtain ⟨y, hfold, hy⟩ := hsome back.length le_rfl
  refine ⟨y, hfold, ?_⟩
  rw [hy, Nat.sub_self, List.take_zero, List.nil_append]

/-- **`::` in a full address is not ignored**: the words behind it are read as zeros. -/
theorem full_gap_cleared (arr : CharArray 16) (mem : CharArray 4) (front back : List ℕ)
    (hlen : front.length + back.length = 8) (hfront : ∀ w ∈ front, w < 65536)
    (hback : ∀ w ∈ back, w < 65536) :
    inet_pton6 arr mem (gapped front (joined back)) =
      .ok (bytesOf (front ++ List.replicate back.length 0)) := by
  obtain ⟨y, hloop, hy, hcolonp, hcurtok⟩ := loop_gap arr mem front hfront (by omega) (joined back)
  obtain ⟨u, z, hloop', hflush, hz, htp, hcolonp'⟩ := loop_words mem back hback hy hcurtok
    (by simp; omega)
  have hsixteen : (bytesOf front).length + (bytesOf back).length = 16 := by
    simp only [length_bytesOf]
    omega
  rw [padded_of_length (by rw [List.length_append]; exact hsixteen)] at hz
  obtain ⟨v, hfold, hv⟩ := shift_full_spec hsixteen hz
  have hspread : z.spread = .ok { v with tp := 16 } := by
    rw [Groups.spread, hcolonp', hcolonp]
    dsimp only
    rw [htp, ← length_bytesOf back, Nat.add_sub_cancel_left, hfold, ok_bind]
  have hfinish : u.finish = .ok (bytesOf (front ++ List.replicate back.length 0)) := by
    rw [Groups.finish, hflush, ok_bind, hspread, ok_bind, if_neg (by simp), hv, bytesOf_append,
      bytesOf_replicate_zero, length_bytesOf]
  rw [inet_pton6, skipColon_gapped, ok_bind]
  exact (congrArg (· >>= Groups.finish) (hloop.trans hloop')).trans hfinish

/-- `1:2:3:4::5:6:7:8`. -/
theorem full_gap_cleared_eight :
    gapped [1, 2, 3, 4] (joined [5, 6, 7, 8]) = ascii "1:2:3:4::5:6:7:8" ∧
      inet_pton6 (.fillWith 16 0) (.fillWith 4 0) (gapped [1, 2, 3, 4] (joined [5, 6, 7, 8])) =
        .ok (bytesOf ([1, 2, 3, 4] ++ List.replicate 4 0)) :=
  ⟨by decide, full_gap_cleared _ _ _ _ rfl (by decide) (by decide)⟩

end SocketPrograms.Unp.InetRoundTrip
