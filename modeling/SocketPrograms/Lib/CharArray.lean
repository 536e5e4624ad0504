import Mathlib.Data.List.TakeDrop
import Mathlib.Data.List.TakeWhile
import Mathlib.Tactic.Common

/-!
# Character arrays and C strings

A `char` array of fixed size, and the string functions of the C library on it.
The size is carried by the type, so an array can never change its length; a
library call that would read or write outside of its array is undefined in C and
is `none` here.

## Main definitions

* `cstr bs` — the C string at the start of `bs`.
* `CharArray n` — an array of exactly `n` bytes.
* `CharArray.text` — the string a `%s` or a `const char *` argument reads.
* `CharArray.memset`, `store`, `strcat`, `strcpy`, `strncpy`.
* `CharArray.Terminates n bs`, `HoldsText` — received bytes that leave a NUL in the array.
* `padded n s` — `s` followed by zero bytes up to length `n`.
-/

namespace SocketPrograms

/-- A `char`, as the byte it is. -/
abbrev Byte := UInt8

/-! ## C strings -/

/-- The C string that starts `bs`: the bytes before the first NUL. -/
def cstr (bs : List Byte) : List Byte := bs.takeWhile (· ≠ 0)

/-- No byte of `s` is a NUL. -/
def NulFree (s : List Byte) : Prop := (0 : Byte) ∉ s

instance (s : List Byte) : Decidable (NulFree s) :=
  inferInstanceAs (Decidable ((0 : Byte) ∉ s))

@[simp] theorem nulFree_nil : NulFree [] := by simp [NulFree]

@[simp] theorem nulFree_cons {c : Byte} {s : List Byte} :
    NulFree (c :: s) ↔ c ≠ 0 ∧ NulFree s := by
  simp [NulFree, eq_comm]

@[simp] theorem nulFree_append {s t : List Byte} :
    NulFree (s ++ t) ↔ NulFree s ∧ NulFree t := by
  simp [NulFree]

theorem NulFree.sublist {s t : List Byte} (ht : NulFree t) (h : s.Sublist t) : NulFree s :=
  fun h0 => ht (h.subset h0)

@[simp] theorem cstr_nil : cstr [] = [] := rfl

@[simp] theorem cstr_zero_cons (t : List Byte) : cstr (0 :: t) = [] := by simp [cstr]

theorem cstr_cons {c : Byte} (hc : c ≠ 0) (t : List Byte) : cstr (c :: t) = c :: cstr t := by
  simp [cstr, hc]

/-- A string without NUL stays in front of what follows it. -/
theorem cstr_append {s : List Byte} (hs : NulFree s) (t : List Byte) :
    cstr (s ++ t) = s ++ cstr t := by
  induction s with
  | nil => rfl
  | cons c s ih =>
      obtain ⟨hc, hs⟩ := nulFree_cons.mp hs
      rw [List.cons_append, cstr_cons hc, ih hs, List.cons_append]

@[simp] theorem cstr_of_nulFree {s : List Byte} (hs : NulFree s) : cstr s = s := by
  simpa using cstr_append hs []

/-- The terminator ends the string, whatever follows it. -/
theorem cstr_append_zero (s t : List Byte) : cstr (s ++ 0 :: t) = cstr s := by
  induction s with
  | nil => simp
  | cons c s ih =>
      by_cases hc : c = 0
      · subst hc; simp
      · rw [List.cons_append, cstr_cons hc, cstr_cons hc, ih]

@[simp] theorem nulFree_cstr (bs : List Byte) : NulFree (cstr bs) := by
  intro h
  simpa using List.mem_takeWhile_imp h

theorem cstr_isPrefix (bs : List Byte) : cstr bs <+: bs := List.takeWhile_prefix _

theorem cstr_length_le (bs : List Byte) : (cstr bs).length ≤ bs.length :=
  (cstr_isPrefix bs).length_le

@[simp] theorem cstr_replicate_zero (k : ℕ) : cstr (List.replicate k 0) = [] := by
  cases k <;> simp [List.replicate_succ]

/-- Once a NUL has been seen, nothing after it matters. -/
theorem cstr_append_of_mem {s : List Byte} (h : (0 : Byte) ∈ s) (t : List Byte) :
    cstr (s ++ t) = cstr s := by
  obtain ⟨u, v, rfl⟩ := List.append_of_mem h
  rw [List.append_assoc, List.cons_append, cstr_append_zero, cstr_append_zero]

/-- A byte that a word does not have hides what is behind it: whether the word starts the text is
decided in front of it. -/
theorem take_append_cons_eq_iff {w : List Byte} {c : Byte} (hc : c ∉ w) (s t : List Byte) :
    (s ++ c :: t).take w.length = w ↔ s.take w.length = w := by
  by_cases h : w.length ≤ s.length
  · rw [List.take_append_of_le_length h]
  · -- the byte is among those compared
    have hmem : c ∈ (s ++ c :: t).take w.length := by
      obtain ⟨k, hk⟩ : ∃ k, w.length - s.length = k + 1 := ⟨w.length - s.length - 1, by omega⟩
      rw [List.take_append, hk, List.take_succ_cons]
      exact List.mem_append_right _ List.mem_cons_self
    constructor
    · intro htake
      rw [htake] at hmem
      exact absurd hmem hc
    · intro htake
      have hlen := congrArg List.length htake
      rw [List.length_take] at hlen
      omega

/-- The bytes of an ASCII string literal, without its terminator. -/
def ascii (s : String) : List Byte := s.toList.map fun c => c.toNat.toUInt8

/-- What a C function that wants a string finds at the start of `bs`; `none` when
no NUL ends it. -/
def textOf (bs : List Byte) : Option (List Byte) :=
  if (0 : Byte) ∈ bs then some (cstr bs) else none

theorem textOf_of_mem {bs : List Byte} (h : (0 : Byte) ∈ bs) : textOf bs = some (cstr bs) :=
  if_pos h

theorem textOf_append_zero (s t : List Byte) : textOf (s ++ 0 :: t) = some (cstr s) := by
  rw [textOf_of_mem (by simp), cstr_append_zero]

/-- A string is found as it is exactly where its terminator follows it. -/
theorem textOf_append_eq_iff {s : List Byte} (hs : NulFree s) (t : List Byte) :
    textOf (s ++ t) = some s ↔ t.head? = some 0 := by
  cases t with
  | nil =>
      have hmem : (0 : Byte) ∉ s := hs
      rw [List.append_nil, textOf, if_neg hmem]
      simp
  | cons c t =>
      by_cases hc : c = 0
      · rw [hc, textOf_append_zero, cstr_of_nulFree hs]
        simp
      · have hne : cstr (s ++ c :: t) ≠ s := by
          rw [cstr_append hs, cstr_cons hc]
          simp
        constructor
        · intro h
          rw [textOf] at h
          split at h
          · exact absurd (Option.some.inj h) hne
          · cases h
        · intro h
          exact absurd (Option.some.inj h) hc

/-- `s` followed by zero bytes up to length `n`. -/
def padded (n : ℕ) (s : List Byte) : List Byte := s ++ List.replicate (n - s.length) 0

@[simp] theorem length_padded {n : ℕ} {s : List Byte} (h : s.length ≤ n) :
    (padded n s).length = n := by
  simp [padded]; omega

theorem padded_eq_append_zero {n : ℕ} {s : List Byte} (h : s.length < n) :
    padded n s = s ++ 0 :: List.replicate (n - s.length - 1) 0 := by
  obtain ⟨k, hk⟩ : ∃ k, n - s.length = k + 1 := ⟨n - s.length - 1, by omega⟩
  rw [padded, hk, List.replicate_succ]
  rfl

/-- A string that fills the whole length needs no zeros. -/
theorem padded_of_length {n : ℕ} {s : List Byte} (h : s.length = n) : padded n s = s := by
  rw [padded, h, Nat.sub_self, List.replicate_zero, List.append_nil]

/-- The start of a padded string is the start of the string, padded. -/
theorem take_padded {k n : ℕ} (h : k ≤ n) (s : List Byte) :
    (padded n s).take k = padded k (s.take k) := by
  rw [padded, padded, List.take_append, List.take_replicate, List.length_take]
  congr 2
  omega

/-- A longer string over a padded one, with its terminator over the zeros. -/
theorem padded_append {n : ℕ} {s t : List Byte} (h : s.length + t.length < n) :
    s ++ t ++ 0 :: (List.replicate (n - s.length - 1) 0).drop t.length = padded n (s ++ t) := by
  rw [padded_eq_append_zero (by rw [List.length_append]; exact h), List.drop_replicate,
    List.length_append]
  congr 3
  omega

theorem cstr_padded (n : ℕ) (s : List Byte) : cstr (padded n s) = cstr s := by
  by_cases h : (0 : Byte) ∈ s
  · exact cstr_append_of_mem h _
  · rw [padded, cstr_append h, cstr_replicate_zero, List.append_nil, cstr_of_nulFree h]

theorem zero_mem_padded {n : ℕ} {s : List Byte} (h : s.length < n) : (0 : Byte) ∈ padded n s := by
  rw [padded_eq_append_zero h]
  simp

/-- A padded string is read back. -/
theorem textOf_padded_of_lt {n : ℕ} {s : List Byte} (hs : NulFree s) (h : s.length < n) :
    textOf (padded n s) = some s := by
  rw [textOf_of_mem (zero_mem_padded h), cstr_padded, cstr_of_nulFree hs]

/-- What is behind a string is zero exactly where the string is padded. -/
theorem append_zero_eq_padded_iff {n : ℕ} {s tail : List Byte}
    (h : s.length + (tail.length + 1) = n) :
    s ++ 0 :: tail = padded n s ↔ ∀ b ∈ tail, b = 0 := by
  rw [padded_eq_append_zero (by omega), List.append_cancel_left_eq, List.cons.injEq,
    List.eq_replicate_iff]
  constructor
  · intro htail
    exact htail.2.2
  · intro hzero
    exact ⟨rfl, by omega, hzero⟩

/-- A padded string ends with a NUL, or is as long as it may be and has none. -/
theorem textOf_padded (n : ℕ) (s : List Byte) :
    textOf (padded n s) = some (cstr s) ∨ textOf (padded n s) = none ∧ NulFree s := by
  by_cases h : (0 : Byte) ∈ padded n s
  · left
    rw [textOf_of_mem h, cstr_padded]
  · right
    exact ⟨if_neg h, fun h0 => h (List.mem_append_left _ h0)⟩

/-! ## Arrays -/

/-- A `char` array of `n` bytes. -/
@[ext] structure CharArray (n : ℕ) where
  bytes : List Byte
  length_bytes : bytes.length = n
  deriving DecidableEq

attribute [simp] CharArray.length_bytes

namespace CharArray

variable {n : ℕ}

/-- An array all of whose bytes are `c`. -/
def fillWith (n : ℕ) (c : Byte) : CharArray n := ⟨List.replicate n c, by simp⟩

/-- The string read by a function that is given the array: `none` when it would
read past the end. -/
def text (a : CharArray n) : Option (List Byte) := textOf a.bytes

/-- `memset(a, 0, k)`. -/
def memset (a : CharArray n) (k : ℕ) : CharArray n :=
  ⟨List.replicate (min k n) 0 ++ a.bytes.drop k, by simp; omega⟩

/-- Copy `xs` to the start of the array, as a receive of at most `n` bytes does;
the other bytes stay. -/
def store (a : CharArray n) (xs : List Byte) : CharArray n :=
  ⟨xs.take n ++ a.bytes.drop xs.length, by simp; omega⟩

/-- Write `xs` from index `i` on, if it fits. -/
def write (a : CharArray n) (i : ℕ) (xs : List Byte) : Option (CharArray n) :=
  if h : i + xs.length ≤ n then
    some ⟨a.bytes.take i ++ xs ++ a.bytes.drop (i + xs.length), by simp; omega⟩
  else none

/-- `strcat(a, s)` for a string `s`. -/
def strcat (a : CharArray n) (s : List Byte) : Option (CharArray n) := do
  let t ← a.text
  a.write t.length (s ++ [0])

/-- `strcpy(a, s)` for a string `s`. -/
def strcpy (a : CharArray n) (s : List Byte) : Option (CharArray n) :=
  a.write 0 (s ++ [0])

/-- `strncpy(a, s, k)` for a string `s`: cut at `k` bytes, filled up with zeros. -/
def strncpy (a : CharArray n) (s : List Byte) (k : ℕ) : Option (CharArray n) :=
  a.write 0 ((padded k s).take k)

@[simp] theorem bytes_memset (a : CharArray n) (k : ℕ) :
    (a.memset k).bytes = List.replicate (min k n) 0 ++ a.bytes.drop k := rfl

/-- Clearing the whole array, whatever it held. -/
theorem bytes_memset_of_le (a : CharArray n) {k : ℕ} (h : n ≤ k) :
    (a.memset k).bytes = padded n [] := by
  have hd : a.bytes.drop k = [] := List.drop_eq_nil_of_le (by simpa using h)
  simp [hd, padded, Nat.min_eq_right h]

theorem bytes_store {a : CharArray n} {xs : List Byte} (h : xs.length ≤ n) :
    (a.store xs).bytes = xs ++ a.bytes.drop xs.length := by
  simp [store, List.take_of_length_le h]

/-- Storing into a cleared array leaves the bytes stored and zeros. -/
theorem bytes_store_padded {a : CharArray n} (ha : a.bytes = padded n []) {xs : List Byte}
    (h : xs.length ≤ n) : (a.store xs).bytes = padded n xs := by
  rw [bytes_store h, ha]
  simp [padded]

theorem write_of_le (a : CharArray n) {i : ℕ} {xs : List Byte} (h : i + xs.length ≤ n) :
    ∃ b, a.write i xs = some b ∧
      b.bytes = a.bytes.take i ++ xs ++ a.bytes.drop (i + xs.length) := by
  rw [write, dif_pos h]
  exact ⟨_, rfl, rfl⟩

theorem text_of_bytes {a : CharArray n} {s tail : List Byte} (ha : a.bytes = s ++ 0 :: tail)
    (hs : NulFree s) : a.text = some s := by
  rw [text, ha, textOf_append_zero, cstr_of_nulFree hs]

/-- An array that holds a string: the string, its terminator, and anything. -/
theorem text_eq_some_iff {a : CharArray n} {s : List Byte} :
    a.text = some s ↔ NulFree s ∧ ∃ tail, a.bytes = s ++ 0 :: tail := by
  constructor
  · intro h
    rw [text, textOf] at h
    split at h
    · next hmem =>
      obtain ⟨u, tail, hbytes, hu⟩ := List.eq_append_cons_of_mem hmem
      obtain rfl : u = s := by
        rw [hbytes, cstr_append_zero, cstr_of_nulFree hu] at h
        exact Option.some.inj h
      exact ⟨hu, tail, hbytes⟩
    · cases h
  · rintro ⟨hs, tail, hbytes⟩
    exact text_of_bytes hbytes hs

/-- The terminator of a string is inside of its array. -/
theorem length_lt_of_text {a : CharArray n} {s : List Byte} (h : a.text = some s) :
    s.length < n := by
  obtain ⟨_, tail, hbytes⟩ := text_eq_some_iff.mp h
  rw [← a.length_bytes, hbytes, List.length_append, List.length_cons]
  omega

/-- Bytes received into a cleared array end with a NUL inside of it: fewer bytes than
the array holds, or a NUL among those it keeps. -/
def Terminates (n : ℕ) (xs : List Byte) : Prop := xs.length < n ∨ (0 : Byte) ∈ xs.take n

instance (n : ℕ) (xs : List Byte) : Decidable (Terminates n xs) :=
  inferInstanceAs (Decidable (_ ∨ _))

/-- At least as many bytes as the array holds leave nothing of what it held. -/
theorem bytes_store_of_le (a : CharArray n) {xs : List Byte} (h : n ≤ xs.length) :
    (a.store xs).bytes = xs.take n := by
  have hdrop : a.bytes.drop xs.length = [] := List.drop_eq_nil_of_le (by simpa using h)
  simp [store, hdrop]

/-- The string in an array that was cleared before the bytes were received: the bytes
before their first NUL, whatever follows it and whatever the array held. -/
theorem text_store_memset (a : CharArray n) {xs : List Byte} (h : Terminates n xs) :
    ((a.memset n).store xs).text = some (cstr xs) := by
  have hclear : (a.memset n).bytes = padded n [] := a.bytes_memset_of_le le_rfl
  by_cases hlen : xs.length < n
  · rw [text, bytes_store_padded hclear (by omega), textOf_of_mem (zero_mem_padded hlen),
      cstr_padded]
  · have hmem : (0 : Byte) ∈ xs.take n := h.resolve_left hlen
    calc
      ((a.memset n).store xs).text = some (cstr (xs.take n)) := by
        rw [text, bytes_store_of_le _ (by omega), textOf_of_mem hmem]
      _ = some (cstr xs) := by
        conv_rhs => rw [← List.take_append_drop n xs, cstr_append_of_mem hmem]

/-- Else the bytes received fill the array and no NUL is among them. -/
theorem text_store_of_not_terminates (a : CharArray n) {xs : List Byte} (h : ¬ Terminates n xs) :
    (a.store xs).text = none := by
  obtain ⟨hlen, hmem⟩ := not_or.mp h
  rw [text, bytes_store_of_le a (by omega)]
  exact if_neg hmem

/-- The array holds a string of the message `bytes`: a NUL is in it, and what comes before
the first is how the message starts. -/
def HoldsText (a : CharArray n) (bytes : List Byte) : Prop :=
  (∃ i < n, a.bytes[i]? = some 0) ∧ cstr a.bytes <+: bytes

/-- **A message received into a cleared array** is a string there exactly where it leaves
a NUL in the array. -/
theorem holdsText_store_memset_iff (a : CharArray n) (xs : List Byte) :
    HoldsText ((a.memset n).store xs) xs ↔ Terminates n xs := by
  constructor
  · intro h
    by_contra hnot
    obtain ⟨i, _, hi⟩ := h.1
    have htext := (a.memset n).text_store_of_not_terminates hnot
    rw [text, textOf_of_mem (List.mem_of_getElem? hi)] at htext
    cases htext
  · intro h
    have htext := a.text_store_memset h
    obtain ⟨hnul, tail, hbytes⟩ := text_eq_some_iff.mp htext
    refine ⟨⟨(cstr xs).length, length_lt_of_text htext, by simp [hbytes]⟩, ?_⟩
    rw [hbytes, cstr_append_zero, cstr_of_nulFree hnul]
    exact cstr_isPrefix xs

/-- **Appending to a string**, whatever is behind its terminator: what is there is
overwritten as far as the longer string and its terminator reach. -/
theorem strcat_tail {a : CharArray n} {s t tail : List Byte} (ha : a.bytes = s ++ 0 :: tail)
    (hs : NulFree s) (ht : t.length ≤ tail.length) :
    ∃ b, a.strcat t = some b ∧ b.bytes = s ++ t ++ 0 :: tail.drop t.length := by
  have hlen : s.length + (tail.length + 1) = n := by
    rw [← a.length_bytes, ha, List.length_append, List.length_cons]
  obtain ⟨b, hb, hbytes⟩ :=
    write_of_le a (show s.length + (t ++ [0]).length ≤ n by simp; omega)
  refine ⟨b, by simp [strcat, text_of_bytes ha hs, hb], ?_⟩
  rw [hbytes, ha, List.take_left, List.length_append, List.length_singleton,
    List.drop_length_add_append, List.drop_succ_cons]
  simp

/-- Appending a string that does not fit writes behind the array. -/
theorem strcat_eq_none {a : CharArray n} {s t tail : List Byte} (ha : a.bytes = s ++ 0 :: tail)
    (hs : NulFree s) (ht : tail.length < t.length) : a.strcat t = none := by
  have hlen : s.length + (tail.length + 1) = n := by
    rw [← a.length_bytes, ha, List.length_append, List.length_cons]
  have hover : ¬ s.length + (t.length + 1) ≤ n := by omega
  simpa [strcat, text_of_bytes ha hs, write] using hover

/-- Appending to a padded string: the longer string, padded, where that fits. -/
theorem strcat_padded {a : CharArray n} {s t : List Byte} (ha : a.bytes = padded n s)
    (hs : NulFree s) (hlt : s.length < n) :
    (s.length + t.length < n → ∃ b, a.strcat t = some b ∧ b.bytes = padded n (s ++ t)) ∧
      (n ≤ s.length + t.length → a.strcat t = none) := by
  rw [padded_eq_append_zero hlt] at ha
  constructor
  · intro hfit
    obtain ⟨b, hcat, hb⟩ := strcat_tail ha hs (t := t) (by rw [List.length_replicate]; omega)
    exact ⟨b, hcat, hb.trans (padded_append hfit)⟩
  · intro hover
    exact strcat_eq_none ha hs (by rw [List.length_replicate]; omega)

/-- `strcpy` where the text and its terminator fit, and only there. -/
theorem strcpy_spec (a : CharArray n) {s : List Byte} (hs : NulFree s) :
    (s.length < n → ∃ d, a.strcpy s = some d ∧ d.text = some s) ∧
      (n ≤ s.length → a.strcpy s = none) := by
  constructor
  · intro hfits
    have hroom : 0 + (s ++ [0]).length ≤ n := by
      rw [List.length_append, List.length_singleton]
      omega
    obtain ⟨d, hwrite, hbytes⟩ := a.write_of_le hroom
    have htext : d.bytes = s ++ 0 :: a.bytes.drop (s.length + 1) := by
      rw [hbytes]
      simp
    exact ⟨d, hwrite, text_of_bytes htext hs⟩
  · intro hover
    have hno : ¬0 + (s ++ [0]).length ≤ n := by
      rw [List.length_append, List.length_singleton]
      omega
    rw [strcpy, write, dif_neg hno]

/-- Copying over a cleared array leaves the string and zeros. -/
theorem strcpy_padded {a : CharArray n} {s : List Byte} (ha : a.bytes = padded n [])
    (hn : s.length < n) : ∃ b, a.strcpy s = some b ∧ b.bytes = padded n s := by
  obtain ⟨b, hb, hbytes⟩ := a.write_of_le (show 0 + (s ++ [0]).length ≤ n by simp; omega)
  refine ⟨b, hb, ?_⟩
  rw [hbytes, ha, padded_eq_append_zero hn]
  simp [padded]
  omega

/-- A bounded copy over the whole array leaves the string and zeros, whatever was
there. -/
theorem strncpy_padded (a : CharArray n) {s : List Byte} (hn : s.length ≤ n) :
    ∃ b, a.strncpy s n = some b ∧ b.bytes = padded n s := by
  have hlen : ((padded n s).take n).length = n := by
    rw [List.length_take, length_padded hn, Nat.min_self]
  obtain ⟨b, hb, hbytes⟩ := a.write_of_le (show 0 + ((padded n s).take n).length ≤ n by omega)
  refine ⟨b, hb, ?_⟩
  rw [hbytes, List.take_zero, List.nil_append, List.drop_eq_nil_of_le (by simp [hlen]),
    List.append_nil, List.take_of_length_le (by rw [length_padded hn])]

end CharArray

end SocketPrograms
