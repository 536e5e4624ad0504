import SocketPrograms.Lib.Stdio

/-!
# Where a program writes

A call that would write outside of its array has no result in `CharArray`. Here each call
also leaves the indices that it writes, up to and with the first call that has no result, so
that a bound on the indices can be stated of the program itself.

A computation is `Exact` when its indices are inside the array exactly where it has a result;
sequences of exact computations are exact.

## Main definitions

* `Traced α` — the indices written and the result, if there is one; `Traced.bind`.
* `Traced.Exact` — the indices are in bounds exactly where there is a result.
* `strcatTraced`, `gatherTraced` — the calls; their results are those of `strcat` and
  `gather`.
-/

namespace SocketPrograms

universe u v

/-- The indices written, and the result. -/
structure Traced (α : Type u) where
  writes : List ℕ
  result : Option α

namespace Traced

variable {α : Type u} {β : Type v} {n : ℕ}

/-- A result, and nothing written. -/
def ofOption (r : Option α) : Traced α := ⟨[], r⟩

/-- One computation after another; the second is not reached without a result of the
first. -/
def bind (t : Traced α) (f : α → Traced β) : Traced β :=
  match t.result with
  | none => ⟨t.writes, none⟩
  | some a => ⟨t.writes ++ (f a).writes, (f a).result⟩

/-- All indices are inside an array of `n` elements. -/
def InBounds (n : ℕ) (t : Traced α) : Prop := ∀ i ∈ t.writes, i < n

/-- The indices are inside exactly where there is a result. -/
def Exact (n : ℕ) (t : Traced α) : Prop := t.InBounds n ↔ t.result.isSome

@[simp] theorem writes_ofOption (r : Option α) : (ofOption r).writes = [] := rfl

@[simp] theorem result_ofOption (r : Option α) : (ofOption r).result = r := rfl

@[simp] theorem result_bind (t : Traced α) (f : α → Traced β) :
    (t.bind f).result = t.result.bind fun a => (f a).result := by
  rw [bind]
  cases t.result <;> rfl

theorem Exact.iff {t : Traced α} (ht : t.Exact n) : t.InBounds n ↔ t.result.isSome := ht

theorem exact_some (a : α) : (ofOption (some a)).Exact n := by simp [Exact, InBounds]

theorem Exact.bind {t : Traced α} {f : α → Traced β} (ht : t.Exact n)
    (hf : ∀ a ∈ t.result, (f a).Exact n) : (t.bind f).Exact n := by
  rw [Traced.bind]
  cases hresult : t.result with
  | none =>
      rw [Exact, hresult] at ht
      simpa [Exact, InBounds] using ht
  | some a =>
      rw [Exact, hresult] at ht
      have hfirst : t.InBounds n := ht.mpr rfl
      rw [Exact, ← (hf a (by simp [hresult])).iff]
      exact ⟨fun h i hi => h i (List.mem_append_right _ hi),
        fun h => List.forall_mem_append.mpr ⟨hfirst, h⟩⟩

end Traced

section Calls

variable {m n : ℕ}

/-- `strcat(a, s)` writes from the terminator of `a` on; without one, from behind the
array. -/
def strcatTraced (a : CharArray n) (s : List Byte) : Traced (CharArray n) :=
  ⟨List.range' (cstr a.bytes).length (s.length + 1), a.strcat s⟩

/-- The indices that `memset(a, 0, k)` writes. -/
def memsetWrites (k : ℕ) : List ℕ := List.range k

@[simp] theorem result_strcatTraced (a : CharArray n) (s : List Byte) :
    (strcatTraced a s).result = a.strcat s := rfl

theorem strcatTraced_exact (a : CharArray n) (s : List Byte) : (strcatTraced a s).Exact n := by
  have hle : (cstr a.bytes).length ≤ n := (cstr_length_le a.bytes).trans_eq a.length_bytes
  have hbounds : (strcatTraced a s).InBounds n ↔ (cstr a.bytes).length + s.length < n := by
    constructor
    · intro h
      apply h
      simp only [strcatTraced, List.mem_range'_1]
      omega
    · intro h i hi
      simp only [strcatTraced, List.mem_range'_1] at hi
      omega
  rw [Traced.Exact, hbounds]
  by_cases h0 : (0 : Byte) ∈ a.bytes
  · have htext : a.text = some (cstr a.bytes) := textOf_of_mem h0
    by_cases hfit : (cstr a.bytes).length + (s.length + 1) ≤ n
    · simp only [strcatTraced, CharArray.strcat, htext, CharArray.write]
      simp [hfit]
      omega
    · simp only [strcatTraced, CharArray.strcat, htext, CharArray.write]
      simp [hfit]
      omega
  · have htext : a.text = none := if_neg h0
    have hall : (cstr a.bytes).length = n := by
      rw [cstr_of_nulFree (show NulFree a.bytes from h0), a.length_bytes]
    simp [strcatTraced, CharArray.strcat, htext]
    omega

/-- `fuel` passes of the gather loop, with the indices of `send` that they write. -/
def gatherLoopTraced (size : ℕ) :
    ℕ → CharArray m → CharArray n → List Byte → Traced (CharArray m × CharArray n)
  | fuel, com, send, out =>
      match fgets size com out with
      | none => .ofOption none
      | some (false, com', _) => .ofOption (some (com', send))
      | some (true, com', rest) =>
          match fuel with
          | 0 => .ofOption none
          | fuel + 1 =>
              match com'.text with
              | none => .ofOption none
              | some piece =>
                  (strcatTraced send piece).bind fun send' =>
                    gatherLoopTraced size fuel com' send' rest

/-- The gather loop, with the indices of `send` that its `strcat` calls write. -/
def gatherTraced (size : ℕ) (com : CharArray m) (send : CharArray n) (out : List Byte) :
    Traced (CharArray m × CharArray n) :=
  gatherLoopTraced size out.length com send out

theorem result_gatherLoopTraced (size fuel : ℕ) :
    ∀ (com : CharArray m) (send : CharArray n) (out : List Byte),
      (gatherLoopTraced size fuel com send out).result = gatherLoop size fuel com send out := by
  induction fuel with
  | zero =>
      intro com send out
      rw [gatherLoopTraced, gatherLoop]
      rcases fgets size com out with _ | ⟨_ | _, com', rest⟩ <;> rfl
  | succ fuel ih =>
      intro com send out
      rw [gatherLoopTraced, gatherLoop]
      rcases fgets size com out with _ | ⟨_ | _, com', rest⟩
      · rfl
      · rfl
      · cases htext : com'.text with
        | none => simp [htext]
        | some piece => simp [htext, ih]

/-- The result is that of the loop. -/
@[simp] theorem result_gatherTraced (size : ℕ) (com : CharArray m) (send : CharArray n)
    (out : List Byte) : (gatherTraced size com send out).result = gather size com send out :=
  result_gatherLoopTraced size out.length com send out

theorem gatherLoopTraced_exact {size : ℕ} (hsize : 2 ≤ size) (hm : size ≤ m) (fuel : ℕ) :
    ∀ (com : CharArray m) (send : CharArray n) (out : List Byte), out.length ≤ fuel →
      (gatherLoopTraced size fuel com send out).Exact n := by
  have hnil (fuel : ℕ) (com : CharArray m) (send : CharArray n) :
      gatherLoopTraced size fuel com send [] = .ofOption (some (com, send)) := by
    rw [gatherLoopTraced]
    simp [fgets]
  induction fuel with
  | zero =>
      intro com send out hfuel
      obtain rfl : out = [] := List.length_eq_zero_iff.mp (by omega)
      rw [hnil]
      exact Traced.exact_some _
  | succ fuel ih =>
      intro com send out hfuel
      by_cases hout : out = []
      · rw [hout, hnil]
        exact Traced.exact_some _
      · obtain ⟨com', hfgets, htext⟩ := fgets_of_ne_nil (by omega) hm com hout
        have hrest := length_lineCut_rest_lt (m := size - 1) (by omega) hout
        rw [gatherLoopTraced, hfgets]
        simp only [htext]
        apply (strcatTraced_exact send _).bind
        intro send' _
        exact ih com' send' _ (by omega)

/-- **The gather loop writes inside of its array exactly where it has a result.** -/
theorem gatherTraced_exact {size : ℕ} (hsize : 2 ≤ size) (hm : size ≤ m) (com : CharArray m)
    (send : CharArray n) (out : List Byte) : (gatherTraced size com send out).Exact n :=
  gatherLoopTraced_exact hsize hm out.length com send out le_rfl

/-- The loop writes inside of an array that holds a string exactly where what it appends
and a terminator fit. -/
theorem gatherTraced_inBounds_iff {size : ℕ} (hsize : 2 ≤ size) (hm : size ≤ m)
    (com : CharArray m) {send : CharArray n} {s tail : List Byte} (out : List Byte)
    (hsend : send.bytes = s ++ 0 :: tail) (hs : NulFree s) :
    (gatherTraced size com send out).InBounds n ↔ (gathered size out).length ≤ tail.length := by
  obtain ⟨hfit, hover⟩ := gather_tail hsize hm com out hsend hs
  rw [(gatherTraced_exact hsize hm com send out).iff, result_gatherTraced]
  constructor
  · intro h
    by_contra hlong
    rw [hover (by omega)] at h
    cases h
  · intro h
    obtain ⟨com', send', hgather, _⟩ := hfit h
    rw [hgather]
    rfl

end Calls

end SocketPrograms
