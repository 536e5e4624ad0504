import SocketPrograms.Lib.Numeral

/-!
# Reading an address

`inet_pton4` reads a dotted quad and `inet_pton6` reads an IPv6 address, from a C string into an
array of their own. A read or write outside of that array is undefined.

## Main definitions

* `inet_pton4`, `inet_pton6` — the two readers.

## Main results

* `pton4_accepts` — **what `inet_pton4` accepts is four decimal numbers up to 255, with dots in
  between**, and it gives their values.
* `pton6_defined` — `inet_pton6` stays in its array, whatever it is given.
-/

namespace SocketPrograms.Unp.InetPton

/-- Why there is no address. -/
inductive Fault
  /-- The function returns 0. -/
  | invalid
  /-- After a step that C leaves undefined. -/
  | undefined
  deriving DecidableEq

@[simp] theorem ok_bind {α β : Type} (a : α) (f : α → Except Fault β) :
    (Except.ok a >>= f) = f a := rfl

/-- `strchr(s, c) - s`, for a byte that is no NUL. -/
def strchr (s : List Byte) (c : Byte) : Option ℕ := s.idxOf? c

/-- The full stop, and the colon. -/
def dot : Byte := 46

def colon : Byte := 58

/-! ## The dotted quad -/

/-- `strchr(digits, ch)`. -/
def digit : Byte → Option ℕ := strchr (ascii "0123456789")

/-- The variables of `inet_pton4`. -/
structure Quad where
  tmp : CharArray 4
  tp : ℕ
  saw_digit : Bool
  octets : ℕ

/-- `*tp = b`. -/
def Quad.put (x : Quad) (b : Byte) : Except Fault Quad :=
  match x.tmp.write x.tp [b] with
  | some tmp => .ok { x with tmp }
  | none => .error .undefined

/-- `*tp`. -/
def Quad.cur (x : Quad) : Except Fault ℕ :=
  match x.tmp.bytes[x.tp]? with
  | some b => .ok b.toNat
  | none => .error .undefined

/-- One character of the string. -/
def Quad.next (x : Quad) (ch : Byte) : Except Fault Quad :=
  match digit ch with
  | some d => do
      let cur ← x.cur
      let new := cur * 10 + d
      if new > 255 then .error .invalid
      else do
        let x ← x.put new.toUInt8
        if x.saw_digit then .ok x
        else if x.octets + 1 > 4 then .error .invalid
        else .ok { x with saw_digit := true, octets := x.octets + 1 }
  | none =>
      if ch = dot ∧ x.saw_digit then
        if x.octets = 4 then .error .invalid
        else do
          let x ← Quad.put { x with tp := x.tp + 1 } 0
          .ok { x with saw_digit := false }
      else .error .invalid

/-- What follows the loop. -/
def Quad.finish (x : Quad) : Except Fault (List Byte) :=
  if x.octets < 4 then .error .invalid else .ok x.tmp.bytes

/-- `inet_pton4(src, dst)`, where `tmp` holds this: the four bytes copied to `dst`. -/
def inet_pton4 (tmp : CharArray 4) (src : List Byte) : Except Fault (List Byte) := do
  let x ← Quad.put ⟨tmp, 0, false, 0⟩ 0
  let x ← src.foldlM Quad.next x
  x.finish

example : inet_pton4 (.fillWith 4 7) (ascii "127.0.0.01") = .ok [127, 0, 0, 1] := by decide

/-! ## What is accepted -/

/-- The number read from decimal digits. -/
abbrev decimalValue (s : List Byte) : ℕ := valueFrom 10 digit 0 s

/-- A decimal number up to 255. -/
def IsOctet (s : List Byte) : Prop :=
  s ≠ [] ∧ (∀ c ∈ s, (digit c).isSome) ∧ decimalValue s ≤ 255

instance (s : List Byte) : Decidable (IsOctet s) := inferInstanceAs (Decidable (_ ∧ _ ∧ _))

/-- The numbers that the parts of a string between its dots stand for. -/
def octets (parts : List (List Byte)) : List Byte := parts.map fun s => (decimalValue s).toUInt8

/-- Where the reader stands: `done` octets are complete, and the next is `cur` so far. -/
structure Quad.At (x : Quad) (done : List Byte) (cur : ℕ) (saw : Bool) : Prop where
  bytes : ∃ rest, x.tmp.bytes = done ++ cur.toUInt8 :: rest
  tp_eq : x.tp = done.length
  saw_eq : x.saw_digit = saw
  octets_eq : x.octets = done.length + saw.toNat
  cur_le : cur ≤ 255

variable {x : Quad} {done : List Byte} {cur : ℕ} {saw : Bool} {c : Byte} {d : ℕ}

theorem Quad.At.length_lt (hx : x.At done cur saw) : done.length < 4 := by
  obtain ⟨rest, hbytes⟩ := hx.bytes
  have hlen := x.tmp.length_bytes
  rw [hbytes, List.length_append, List.length_cons] at hlen
  omega

theorem Quad.At.cur_eq (hx : x.At done cur saw) : x.cur = .ok cur := by
  obtain ⟨rest, hbytes⟩ := hx.bytes
  have hget : x.tmp.bytes[x.tp]? = some cur.toUInt8 := by
    rw [hbytes, hx.tp_eq, List.getElem?_append_right (Nat.le_refl _), Nat.sub_self,
      List.getElem?_cons_zero]
  have hcur := hx.cur_le
  rw [Quad.cur, hget]
  simp
  omega

/-- A byte is stored in an octet of the array. -/
theorem Quad.put_eq (hx : x.tp < 4) (b : Byte) :
    ∃ tmp, x.put b = .ok { x with tmp } ∧
      tmp.bytes = x.tmp.bytes.take x.tp ++ b :: x.tmp.bytes.drop (x.tp + 1) := by
  have hroom : x.tp + [b].length ≤ 4 := hx
  obtain ⟨tmp, hwrite, hbytes⟩ := x.tmp.write_of_le hroom
  exact ⟨tmp, by rw [Quad.put, hwrite], by simpa using hbytes⟩

/-- A digit goes to the octet at hand. -/
theorem Quad.At.next_digit (hx : x.At done cur saw) (hd : digit c = some d) :
    (255 < cur * 10 + d → x.next c = .error .invalid) ∧
      (cur * 10 + d ≤ 255 → ∃ y, x.next c = .ok y ∧ y.At done (cur * 10 + d) true) := by
  obtain ⟨tmp, hput, hbytes⟩ := Quad.put_eq (x := x) (by rw [hx.tp_eq]; exact hx.length_lt)
    (cur * 10 + d).toUInt8
  obtain ⟨rest, hrest⟩ := hx.bytes
  rw [hrest, hx.tp_eq, List.take_left] at hbytes
  have hnext : x.next c =
      if cur * 10 + d > 255 then .error .invalid
      else if x.saw_digit then .ok { x with tmp }
      else if x.octets + 1 > 4 then .error .invalid
      else .ok { x with tmp, saw_digit := true, octets := x.octets + 1 } := by
    simp only [Quad.next, hd, hx.cur_eq, ok_bind, hput]
  refine ⟨fun hbig => by rw [hnext, if_pos hbig], fun hle => ?_⟩
  rw [hnext, if_neg (by omega)]
  have hlt := hx.length_lt
  have hsaw := hx.saw_eq
  have hoctets := hx.octets_eq
  cases saw with
  | true =>
      rw [if_pos hsaw]
      exact ⟨_, rfl, ⟨_, hbytes⟩, hx.tp_eq, hsaw, hoctets, hle⟩
  | false =>
      simp only [Bool.toNat_false] at hoctets
      rw [hsaw, if_neg (by simp), if_neg (by omega)]
      exact ⟨_, rfl, ⟨_, hbytes⟩, hx.tp_eq, rfl, by simp [hoctets], hle⟩

/-- A dot ends an octet that has digits, but not the last. -/
theorem Quad.At.next_dot (hx : x.At done cur saw) :
    (saw = false ∨ done.length = 3 → x.next dot = .error .invalid) ∧
      (saw = true → done.length < 3 →
        ∃ y, x.next dot = .ok y ∧ y.At (done ++ [cur.toUInt8]) 0 false) := by
  have hlt := hx.length_lt
  have hnone : digit dot = none := by decide
  have hoctets := hx.octets_eq
  constructor
  · rintro (rfl | hthree)
    · simp [Quad.next, hnone, hx.saw_eq]
    · by_cases hsaw : saw
      · have hfour : x.octets = 4 := by simp [hoctets, hsaw, hthree]
        simp [Quad.next, hnone, hfour]
      · simp [Quad.next, hnone, hx.saw_eq, hsaw]
  · rintro rfl hthree
    have hfour : x.octets ≠ 4 := by
      rw [hoctets, Bool.toNat_true]
      omega
    obtain ⟨tmp, hput, hbytes⟩ := Quad.put_eq (x := { x with tp := x.tp + 1 })
      (by dsimp only; rw [hx.tp_eq]; omega) 0
    obtain ⟨rest, hrest⟩ := hx.bytes
    have htake : (done ++ cur.toUInt8 :: rest).take (done.length + 1) = done ++ [cur.toUInt8] := by
      rw [List.append_cons, List.take_left' (by simp)]
    dsimp only at hbytes
    rw [hrest, hx.tp_eq, htake] at hbytes
    refine ⟨{ x with tmp, tp := x.tp + 1, saw_digit := false }, ?_, ⟨_, hbytes⟩, ?_, rfl, ?_, ?_⟩
    · simp only [Quad.next, hnone, hx.saw_eq, and_self, if_true, if_neg hfour] at hput ⊢
      rw [hput, ok_bind]
    · rw [List.length_append, List.length_singleton, hx.tp_eq]
    · rw [hoctets, List.length_append]
      rfl
    · exact Nat.zero_le _

theorem next_other (hd : digit c = none) (hc : c ≠ dot) : x.next c = .error .invalid := by
  simp [Quad.next, hd, hc]

/-- What is left of the string completes an address: behind `n` octets, the first part goes on
with an octet, and the others are octets. -/
def Fits (n cur : ℕ) (saw : Bool) : List (List Byte) → Prop
  | [] => False
  | part :: parts =>
      (saw ∨ part ≠ []) ∧ (∀ c ∈ part, (digit c).isSome) ∧ valueFrom 10 digit cur part ≤ 255 ∧
        (∀ p ∈ parts, IsOctet p) ∧ n + 1 + parts.length = 4

instance (n cur : ℕ) (saw : Bool) (parts : List (List Byte)) :
    Decidable (Fits n cur saw parts) := by
  cases parts with
  | nil => exact inferInstanceAs (Decidable False)
  | cons _ _ => exact inferInstanceAs (Decidable (_ ∧ _ ∧ _ ∧ _ ∧ _))

/-- The octets that the parts give. -/
def octetsFrom (cur : ℕ) : List (List Byte) → List Byte
  | [] => []
  | part :: parts => (valueFrom 10 digit cur part).toUInt8 :: octets parts

variable {n : ℕ} {part : List Byte} {parts : List (List Byte)}

theorem Fits.lt_four (h : Fits n cur saw parts) : n < 4 := by
  cases parts with
  | nil => exact h.elim
  | cons part parts =>
      have hcount := h.2.2.2.2
      omega

theorem Fits.cur_le (h : Fits n cur saw parts) : cur ≤ 255 := by
  cases parts with
  | nil => exact h.elim
  | cons part parts => exact (le_valueFrom (by decide) part).trans h.2.2.1

/-- At the start of an octet, the rest is octets. -/
theorem fits_start : Fits n 0 false (part :: parts) ↔
    n + (part :: parts).length = 4 ∧ ∀ p ∈ part :: parts, IsOctet p := by
  rw [List.forall_mem_cons, List.length_cons]
  constructor
  · rintro ⟨hne, hdigits, hle, hrest, hcount⟩
    exact ⟨by omega, ⟨by simpa using hne, hdigits, hle⟩, hrest⟩
  · rintro ⟨hcount, ⟨hne, hdigits, hle⟩, hrest⟩
    exact ⟨.inr hne, hdigits, hle, hrest, by omega⟩

theorem valueFrom_digit (hd : digit c = some d) :
    valueFrom 10 digit cur (c :: part) = valueFrom 10 digit (cur * 10 + d) part := by
  rw [valueFrom_cons, hd, Option.getD_some]

theorem fits_digit (hd : digit c = some d) :
    Fits n cur saw ((c :: part) :: parts) ↔ Fits n (cur * 10 + d) true (part :: parts) := by
  simp only [Fits, valueFrom_digit hd]
  simp [hd]

theorem fits_dot (hcur : cur ≤ 255) :
    Fits n cur saw ([] :: part :: parts) ↔ saw ∧ Fits (n + 1) 0 false (part :: parts) := by
  rw [fits_start, List.length_cons]
  constructor
  · rintro ⟨hsaw, _, _, hall, hcount⟩
    rw [List.length_cons] at hcount
    exact ⟨by simpa using hsaw, by omega, hall⟩
  · rintro ⟨hsaw, hcount, hall⟩
    exact ⟨.inl hsaw, by simp, hcur, hall, by rw [List.length_cons]; omega⟩

theorem not_fits_other (hd : digit c = none) : ¬Fits n cur saw ((c :: part) :: parts) := by
  rintro ⟨_, hdigits, _⟩
  simp [hd] at hdigits

/-- At the end of the string, all four octets have digits. -/
theorem Quad.At.finish_eq (hx : x.At done cur saw) :
    x.finish = if Fits done.length cur saw [[]] then .ok (done ++ octetsFrom cur [[]])
      else .error .invalid := by
  obtain ⟨rest, hbytes⟩ := hx.bytes
  have hlen := x.tmp.length_bytes
  rw [hbytes, List.length_append, List.length_cons] at hlen
  have hoctets := hx.octets_eq
  have hcur := hx.cur_le
  rw [Quad.finish]
  cases saw with
  | false =>
      rw [Bool.toNat_false] at hoctets
      rw [if_pos (by omega), if_neg (by simp [Fits])]
  | true =>
      rw [Bool.toNat_true] at hoctets
      by_cases hlast : done.length = 3
      · have hrest : rest = [] := List.eq_nil_of_length_eq_zero (by omega)
        rw [if_neg (by omega), if_pos (by simp [Fits, hlast, hcur]), hbytes, hrest]
        rfl
      · rw [if_pos (by omega), if_neg (by simp [Fits]; omega)]

/-- **The loop and what follows it.** -/
theorem Quad.At.run (s : List Byte) (hx : x.At done cur saw) :
    (s.foldlM Quad.next x >>= Quad.finish) =
      if Fits done.length cur saw (s.splitOn dot) then
        .ok (done ++ octetsFrom cur (s.splitOn dot))
      else .error .invalid := by
  induction s generalizing x done cur saw with
  | nil => exact hx.finish_eq
  | cons c s ih =>
      obtain ⟨part, parts, hparts⟩ := List.exists_cons_of_ne_nil (List.splitOn_ne_nil dot s)
      have hsplit := List.splitOn_cons_eq_if_modifyHead (a := dot) c s
      rw [hparts] at hsplit
      rw [List.foldlM_cons]
      cases hd : digit c with
      | some d =>
          have hdot : c ≠ dot := by
            rintro rfl
            have hnone : digit dot = none := by decide
            rw [hnone] at hd
            cases hd
          rw [if_neg (by simpa using hdot), List.modifyHead_cons] at hsplit
          rw [hsplit, if_congr (fits_digit hd) rfl rfl]
          by_cases hbig : 255 < cur * 10 + d
          · rw [(hx.next_digit hd).1 hbig, if_neg fun h => hbig.not_ge h.cur_le]
            rfl
          · obtain ⟨y, hnext, hy⟩ := (hx.next_digit hd).2 (by omega)
            rw [hnext, ok_bind, ih hy, hparts, octetsFrom, octetsFrom, valueFrom_digit hd]
      | none =>
          by_cases hdot : c = dot
          · subst hdot
            rw [beq_self_eq_true, if_pos rfl] at hsplit
            rw [hsplit, if_congr (fits_dot hx.cur_le) rfl rfl]
            by_cases hgo : saw = true ∧ done.length < 3
            · obtain ⟨y, hnext, hy⟩ := hx.next_dot.2 hgo.1 hgo.2
              rw [hnext, ok_bind, ih hy, hparts, List.length_append, List.length_singleton,
                if_congr (and_iff_right hgo.1) rfl rfl, List.append_assoc]
              rfl
            · have hstop : ¬(saw = true ∧ Fits (done.length + 1) 0 false (part :: parts)) :=
                fun h => hgo ⟨h.1, by have hfour := h.2.lt_four; omega⟩
              have hlt := hx.length_lt
              have hend : saw = false ∨ done.length = 3 := by
                by_cases hsaw : saw = true
                · have hge : ¬done.length < 3 := fun h => hgo ⟨hsaw, h⟩
                  exact .inr (by omega)
                · exact .inl (by simpa using hsaw)
              rw [hx.next_dot.1 hend, if_neg hstop]
              rfl
          · rw [if_neg (by simpa using hdot), List.modifyHead_cons] at hsplit
            rw [hsplit, next_other hd hdot, if_neg (not_fits_other hd)]
            rfl

/-- **What is accepted.** `inet_pton4` accepts exactly the strings whose parts between the dots are
four decimal numbers up to 255, and gives these, whatever its array held. -/
theorem pton4_accepts (tmp : CharArray 4) (s : List Byte) :
    inet_pton4 tmp s =
      if (s.splitOn dot).length = 4 ∧ ∀ p ∈ s.splitOn dot, IsOctet p then
        .ok (octets (s.splitOn dot))
      else .error .invalid := by
  obtain ⟨tmp', hput, hbytes⟩ := Quad.put_eq (x := ⟨tmp, 0, false, 0⟩) (Nat.zero_lt_succ 3) 0
  have hx : Quad.At ⟨tmp', 0, false, 0⟩ [] 0 false :=
    ⟨⟨_, hbytes⟩, rfl, rfl, rfl, Nat.zero_le _⟩
  have hrun := hx.run s
  obtain ⟨part, parts, hparts⟩ := List.exists_cons_of_ne_nil (List.splitOn_ne_nil dot s)
  rw [hparts] at hrun ⊢
  rw [inet_pton4, hput, ok_bind, hrun, List.length_nil, if_congr fits_start rfl rfl, Nat.zero_add]
  rfl

/-! ## The IPv6 address -/

/-- `strchr(xdigits_l, ch)`, or `strchr(xdigits_u, ch)`. -/
def xdigit (ch : Byte) : Option ℕ :=
  (strchr (ascii "0123456789abcdef") ch).orElse fun _ => strchr (ascii "0123456789ABCDEF") ch

/-- The variables of `inet_pton6`; `curtok` is the string from there on. -/
structure Groups where
  tmp : CharArray 16
  tp : ℕ
  colonp : Option ℕ
  curtok : List Byte
  saw_xdigit : Bool
  val : ℕ

/-- Write bytes at an index of `tmp`. -/
def Groups.write (x : Groups) (i : ℕ) (bytes : List Byte) : Except Fault Groups :=
  match x.tmp.write i bytes with
  | some tmp => .ok { x with tmp }
  | none => .error .undefined

/-- `*tp++ = (u_char) (val >> 8) & 0xff; *tp++ = (u_char) val & 0xff`, where both fit. -/
def Groups.store (x : Groups) : Except Fault Groups :=
  if x.tp + 2 > 16 then .error .invalid
  else do
    let y ← x.write x.tp [(x.val >>> 8).toUInt8, x.val.toUInt8]
    .ok { y with tp := x.tp + 2 }

/-- The loop. `inet_pton4` has an array of its own, which holds `mem`. -/
def loop (mem : CharArray 4) : List Byte → Groups → Except Fault Groups
  | [], x => .ok x
  | ch :: src, x =>
      match xdigit ch with
      | some d =>
          -- the value is below `0x10000`, so the shift does not overflow
          let val := x.val <<< 4 ||| d
          if val > 0xffff then .error .invalid else loop mem src { x with val, saw_xdigit := true }
      | none =>
          if ch = colon then
            if x.saw_xdigit then do
              let y ← Groups.store { x with curtok := src }
              loop mem src { y with saw_xdigit := false, val := 0 }
            else if x.colonp.isSome then .error .invalid
            else loop mem src { x with curtok := src, colonp := some x.tp }
          else if ch = dot ∧ x.tp + 4 ≤ 16 then do
            let quad ← inet_pton4 mem x.curtok
            let y ← x.write x.tp quad
            .ok { y with tp := x.tp + 4, saw_xdigit := false }
          else .error .invalid

/-- `endp[-i] = colonp[n - i]; colonp[n - i] = 0`. -/
def Groups.shift (c n : ℕ) (x : Groups) (i : ℕ) : Except Fault Groups :=
  match x.tmp.bytes[c + (n - i)]? with
  | some b => do
      let y ← x.write (16 - i) [b]
      y.write (c + (n - i)) [0]
  | none => .error .undefined

/-- The last group is stored. -/
def Groups.flush (x : Groups) : Except Fault Groups := if x.saw_xdigit then x.store else .ok x

/-- The bytes behind `::` are moved to the end. -/
def Groups.spread (x : Groups) : Except Fault Groups :=
  match x.colonp with
  | some c => do
      let y ← (List.range' 1 (x.tp - c)).foldlM (Groups.shift c (x.tp - c)) x
      .ok { y with tp := 16 }
  | none => .ok x

/-- What follows the loop. -/
def Groups.finish (x : Groups) : Except Fault (List Byte) := do
  let y ← x.flush
  let z ← y.spread
  if z.tp ≠ 16 then .error .invalid else .ok z.tmp.bytes

/-- The string behind a colon that is followed by another one. -/
def skipColon : List Byte → Except Fault (List Byte)
  | ch :: src => if ch = colon ∧ src.head? ≠ some colon then .error .invalid
      else .ok (if ch = colon then src else ch :: src)
  | [] => .ok []

/-- `inet_pton6(src, dst)`: the sixteen bytes copied to `dst`. -/
def inet_pton6 (tmp : CharArray 16) (mem : CharArray 4) (src : List Byte) :
    Except Fault (List Byte) := do
  let src ← skipColon src
  let x ← loop mem src ⟨tmp.memset 16, 0, none, src, false, 0⟩
  x.finish

example : inet_pton6 (.fillWith 16 7) (.fillWith 4 7) (ascii "1:2::8:127.0.0.1") =
    .ok [0, 1, 0, 2, 0, 0, 0, 0, 0, 0, 0, 8, 127, 0, 0, 1] := by decide +kernel

/-! ## Staying in the array -/

/-- The function goes on with such a value, or returns 0. -/
def Safe {α : Type} (P : α → Prop) : Except Fault α → Prop
  | .ok a => P a
  | .error e => e = .invalid

theorem Safe.bind {α β : Type} {P : α → Prop} {Q : β → Prop} {r : Except Fault α}
    {f : α → Except Fault β} (hr : Safe P r) (hf : ∀ a, P a → Safe Q (f a)) :
    Safe Q (r >>= f) := by
  cases r with
  | ok a => exact hf a hr
  | error e => exact hr

/-- The pointers are in the array. -/
structure Groups.Ok (x : Groups) : Prop where
  tp_le : x.tp ≤ 16
  colonp_le : ∀ c, x.colonp = some c → c ≤ x.tp

variable {g g' : Groups}

/-- A write that fits. -/
theorem Groups.write_eq (g : Groups) {i : ℕ} {bytes : List Byte} (h : i + bytes.length ≤ 16) :
    ∃ tmp, g.write i bytes = .ok { g with tmp } ∧
      tmp.bytes = g.tmp.bytes.take i ++ bytes ++ g.tmp.bytes.drop (i + bytes.length) := by
  obtain ⟨tmp, hwrite, hbytes⟩ := g.tmp.write_of_le h
  exact ⟨tmp, by rw [Groups.write, hwrite], hbytes⟩

theorem Groups.Ok.store (hg : g.Ok) : Safe Groups.Ok g.store := by
  rw [Groups.store]
  split
  · rfl
  · next hroom =>
    have hfits : g.tp + [(g.val >>> 8).toUInt8, g.val.toUInt8].length ≤ 16 := by
      simpa using hroom
    obtain ⟨tmp, hwrite, _⟩ := g.write_eq hfits
    rw [hwrite]
    exact ⟨by dsimp only; omega, fun c hc => le_trans (hg.colonp_le c hc) (Nat.le_add_right ..)⟩

/-- `inet_pton4` gives four bytes or none. -/
theorem pton4_safe (mem : CharArray 4) (s : List Byte) :
    Safe (fun quad => quad.length = 4) (inet_pton4 mem s) := by
  rw [pton4_accepts]
  split
  · next h => exact (List.length_map ..).trans h.1
  · rfl

theorem Groups.Ok.loop (mem : CharArray 4) (src : List Byte) (hg : g.Ok) :
    Safe Groups.Ok (loop mem src g) := by
  induction src generalizing g with
  | nil => exact hg
  | cons ch src ih =>
      rw [InetPton.loop]
      split
      · dsimp only
        split
        · rfl
        · exact ih ⟨hg.tp_le, hg.colonp_le⟩
      · split
        · split
          · have hmoved : Groups.Ok { g with curtok := src } := ⟨hg.tp_le, hg.colonp_le⟩
            exact hmoved.store.bind fun y hy => ih ⟨hy.tp_le, hy.colonp_le⟩
          · split
            · rfl
            · refine ih ⟨hg.tp_le, fun c hc => ?_⟩
              obtain rfl := Option.some.inj hc
              exact le_rfl
        · split
          · next hdot =>
            refine (pton4_safe mem g.curtok).bind fun quad hquad => ?_
            have hfits : g.tp + quad.length ≤ 16 := by rw [hquad]; exact hdot.2
            obtain ⟨tmp, hwrite, _⟩ := g.write_eq hfits
            rw [hwrite]
            exact ⟨hdot.2, fun c hc => le_trans (hg.colonp_le c hc) (Nat.le_add_right ..)⟩
          · rfl

/-- The bytes are moved within the array. -/
theorem Groups.shift_safe {c n : ℕ} (hn : c + n ≤ 16) (is : List ℕ)
    (his : ∀ i ∈ is, 1 ≤ i ∧ i ≤ n) (g : Groups) :
    Safe (fun _ => True) (is.foldlM (Groups.shift c n) g) := by
  induction is generalizing g with
  | nil => trivial
  | cons i is ih =>
      obtain ⟨⟨hone, hle⟩, his⟩ := List.forall_mem_cons.mp his
      have hlt : c + (n - i) < g.tmp.bytes.length := by
        rw [g.tmp.length_bytes]
        omega
      have hstep : ∃ y, Groups.shift c n g i = .ok y := by
        have hlast : 16 - i + [g.tmp.bytes[c + (n - i)]].length ≤ 16 := by
          rw [List.length_singleton]
          omega
        have hfrom : c + (n - i) + [(0 : Byte)].length ≤ 16 := by
          rw [List.length_singleton]
          omega
        obtain ⟨tmp, hwrite, _⟩ := g.write_eq hlast
        obtain ⟨tmp', hwrite', _⟩ := Groups.write_eq { g with tmp } hfrom
        rw [Groups.shift, List.getElem?_eq_getElem hlt]
        simp only [hwrite, ok_bind]
        exact ⟨_, hwrite'⟩
      obtain ⟨y, hy⟩ := hstep
      rw [List.foldlM_cons, hy]
      exact ih his y

theorem Groups.Ok.flush (hg : g.Ok) : Safe Groups.Ok g.flush := by
  rw [Groups.flush]
  split
  · exact hg.store
  · exact hg

theorem Groups.Ok.spread (hg : g.Ok) : Safe (fun _ => True) g.spread := by
  rw [Groups.spread]
  split
  · next c hc =>
    have hle := hg.colonp_le c hc
    have htp := hg.tp_le
    refine Safe.bind (P := fun _ => True) ?_ fun _ _ => trivial
    refine Groups.shift_safe (by omega) _ (fun i hi => ?_) g
    rw [List.mem_range'_1] at hi
    omega
  · trivial

theorem Groups.Ok.finish (hg : g.Ok) : Safe (fun _ => True) g.finish := by
  refine hg.flush.bind fun y hy => hy.spread.bind fun z _ => ?_
  split <;> trivial

/-- **No access outside of the array**: `inet_pton6` gives an address or returns 0, for every
string. -/
theorem pton6_defined (tmp : CharArray 16) (mem : CharArray 4) (src : List Byte) :
    inet_pton6 tmp mem src ≠ .error .undefined := by
  have hsafe : Safe (fun _ => True) (inet_pton6 tmp mem src) := by
    refine Safe.bind (P := fun _ => True) ?_ fun s _ => ?_
    · rw [skipColon.eq_def]
      split
      · split <;> trivial
      · trivial
    · have hstart : Groups.Ok ⟨tmp.memset 16, 0, none, s, false, 0⟩ :=
        ⟨Nat.zero_le _, fun c hc => by cases hc⟩
      exact (hstart.loop mem s).bind fun x hx => hx.finish
  intro hundefined
  rw [hundefined] at hsafe
  cases hsafe

end SocketPrograms.Unp.InetPton
