import SocketPrograms.Lib.Stdio
import SocketPrograms.Lib.Transition

/-!
# Loops that stop on a test

A program repeats: test a condition, do one iteration, which depends on an answer from
outside. A run of the loop has one step for each iteration. Where neither the test nor the
iteration depends on the answers, the number of iterations alone decides how the run goes on:
the loop is driven by two predicates on it. A loop that takes one piece of its input in each
iteration, and tests that piece, is driven by its input.

## Main definitions

* `Loop C R` — the test and the body; `Loop.system` — its runs.
* `Loop.Stops` — finitely many iterations in every run, and none undefined.
* `Loop.Driven` — what a run does depends on the number of its iterations only.
* `Driven.exists_run_iff` — how many iterations there are runs of.
* `Driven.stops_iff` — where the loop stops; `Driven.forall_closing_iff` — after how many
  iterations it does.
* `Loop.Reads`, `Reads.driven` — loops driven by their input.
-/

namespace SocketPrograms

universe u v

/-- What a read returned: at least one element and at most `m`. -/
abbrev Answer (α : Type u) (m : ℕ) : Type u := {xs : List α // xs ≠ [] ∧ xs.length ≤ m}

instance {α : Type u} [Nonempty α] (m : ℕ) : Nonempty (Answer α (m + 1)) := by
  obtain ⟨a⟩ := ‹Nonempty α›
  exact ⟨⟨[a], by simp⟩⟩

/-- A loop over states `C`; `R` is what an iteration depends on besides the state. -/
structure Loop (C : Type u) (R : Type v) where
  /-- The loop condition fails. -/
  closing : C → Bool
  /-- One iteration. -/
  body : R → C → Option C

namespace Loop

variable {C : Type u} {R : Type v} (L : Loop C R)

/-- One iteration, if the loop goes on. -/
def next (c : C) (r : R) : Option C := if L.closing c then none else L.body r c

/-- The runs of the loop from this state: one step for each iteration. -/
def system (c : C) : System C R := .ofNext (· = c) L.next

/-- There are finitely many iterations, whatever the answers are, and no iteration is
undefined. -/
structure Stops (c : C) : Prop where
  bounded : ∃ n, ∀ tr y, (L.system c).Exec tr y → tr.length ≤ n
  defined : ∀ tr y, (L.system c).Exec tr y → L.closing y = false → ∀ r, (L.body r y).isSome

/-- After `k` iterations the loop ends where `stop k` holds, and iteration `k` is defined
where `fits k` does. -/
structure Driven (c : C) (stop fits : ℕ → Prop) : Prop where
  closing_iff : ∀ tr y, (L.system c).Exec tr y → (L.closing y = true ↔ stop tr.length)
  isSome_iff : ∀ tr y, (L.system c).Exec tr y → ∀ r, (L.body r y).isSome ↔ fits tr.length

variable {L} {c x y : C} {r : R} {tr : List (C × R)} {stop fits : ℕ → Prop}

theorem next_cases (h : L.next x r = some y) : L.closing x = false ∧ L.body r x = some y := by
  rw [next] at h
  split at h
  · cases h
  · next hclosing => exact ⟨by simpa using hclosing, h⟩

namespace Driven

theorem not_closing (H : L.Driven c stop fits) (h : (L.system c).Exec tr y)
    (hstop : ¬ stop tr.length) : L.closing y = false := by
  rw [← H.closing_iff tr y h] at hstop
  simpa using hstop

/-- A run with one iteration more. -/
theorem exists_snoc [Nonempty R] (H : L.Driven c stop fits) (h : (L.system c).Exec tr y)
    (hstop : ¬ stop tr.length) (hfits : fits tr.length) :
    ∃ tr' y', (L.system c).Exec tr' y' ∧ tr'.length = tr.length + 1 := by
  obtain ⟨r⟩ := ‹Nonempty R›
  have hclosing := H.not_closing h hstop
  obtain ⟨y', hy'⟩ := Option.isSome_iff_exists.mp ((H.isSome_iff tr y h r).mpr hfits)
  have hstep : L.next y r = some y' := by
    rw [next, if_neg (by simp [hclosing]), hy']
  exact ⟨_, y', .snoc h hstep, by simp⟩

/-- A run did not stop before, and its iterations were defined. -/
theorem of_lt (H : L.Driven c stop fits) (h : (L.system c).Exec tr y) :
    ∀ j < tr.length, ¬ stop j ∧ fits j := by
  induction h with
  | start _ => simp
  | @snoc tr y y' r h hstep ih =>
      obtain ⟨hclosing, hbody⟩ := next_cases hstep
      intro j hj
      rw [List.length_append, List.length_singleton] at hj
      rcases Nat.lt_succ_iff_lt_or_eq.mp hj with hlt | rfl
      · exact ih j hlt
      · constructor
        · rw [← H.closing_iff tr y h, hclosing]
          exact Bool.false_ne_true
        · rw [← H.isSome_iff tr y h r, hbody]
          rfl

/-- **There are runs of `k` iterations** exactly where the loop has not stopped before, and
all of them are defined. -/
theorem exists_run_iff [Nonempty R] (H : L.Driven c stop fits) (k : ℕ) :
    (∃ tr y, (L.system c).Exec tr y ∧ tr.length = k) ↔ ∀ j < k, ¬ stop j ∧ fits j := by
  constructor
  · rintro ⟨tr, y, h, rfl⟩
    exact H.of_lt h
  · intro hbefore
    induction k with
    | zero => exact ⟨[], c, .start rfl, rfl⟩
    | succ k ih =>
        obtain ⟨tr, y, h, hlen⟩ := ih fun j hj => hbefore j (by omega)
        obtain ⟨hstop, hfits⟩ := hbefore k (by omega)
        rw [← hlen] at hstop hfits ⊢
        exact H.exists_snoc h hstop hfits

/-- **The loop stops** exactly where it ends after some number of iterations and those are
defined. -/
theorem stops_iff [Nonempty R] (H : L.Driven c stop fits) :
    L.Stops c ↔ ∃ k, stop k ∧ ∀ j < k, fits j := by
  constructor
  · rintro ⟨⟨n, hbound⟩, hdefined⟩
    by_contra hno
    -- then every run can go on
    have hruns : ∀ k, ∃ tr y, (L.system c).Exec tr y ∧ tr.length = k := by
      intro k
      induction k with
      | zero => exact ⟨[], c, .start rfl, rfl⟩
      | succ k ih =>
          obtain ⟨tr, y, h, rfl⟩ := ih
          have hstop : ¬ stop tr.length := fun hstop =>
            hno ⟨tr.length, hstop, fun j hj => (H.of_lt h j hj).2⟩
          have hclosing := H.not_closing h hstop
          have hfits : fits tr.length :=
            (H.isSome_iff tr y h (Classical.arbitrary R)).mp (hdefined tr y h hclosing _)
          exact H.exists_snoc h hstop hfits
    obtain ⟨tr, y, h, hlen⟩ := hruns (n + 1)
    have := hbound tr y h
    omega
  · rintro ⟨k, hstop, hfits⟩
    have hbound : ∀ tr y, (L.system c).Exec tr y → tr.length ≤ k := by
      intro tr y h
      by_contra hlong
      exact (H.of_lt h k (by omega)).1 hstop
    refine ⟨⟨k, hbound⟩, fun tr y h hclosing r => ?_⟩
    have hle := hbound tr y h
    have hne : tr.length ≠ k := by
      intro hlen
      rw [← hlen, ← H.closing_iff tr y h, hclosing] at hstop
      cases hstop
    exact (H.isSome_iff tr y h r).mpr (hfits _ (by omega))

/-- **When the loop ends**, in terms of the number of iterations. -/
theorem forall_closing_iff [Nonempty R] (H : L.Driven c stop fits) (p : ℕ → Prop) :
    (∀ tr y, (L.system c).Exec tr y → (L.closing y = true ↔ p tr.length)) ↔
      ∀ k, (∀ j < k, ¬ stop j ∧ fits j) → (stop k ↔ p k) := by
  constructor
  · intro hall k hbefore
    obtain ⟨tr, y, h, rfl⟩ := (H.exists_run_iff k).mpr hbefore
    rw [← H.closing_iff tr y h]
    exact hall tr y h
  · intro hall tr y h
    rw [H.closing_iff tr y h]
    exact hall _ (H.of_lt h)

end Driven

/-! ## Loops driven by their input -/

/-- Each iteration takes the next piece of the input, if that fits, and the test behind it is
one of this piece. -/
structure Reads (L : Loop C R) (input : C → List Byte)
    (cut : List Byte → List Byte × List Byte) (p fits : List Byte → Prop) : Prop where
  body_some : ∀ c r, fits (cut (input c)).1 →
    ∃ c', L.body r c = some c' ∧ input c' = (cut (input c)).2 ∧
      (L.closing c' = true ↔ p (cut (input c)).1)
  body_none : ∀ c r, ¬ fits (cut (input c)).1 → L.body r c = none

/-- The test after so many iterations: before the first it is that of the start, then that of
the last piece. -/
def testAfter (start : Prop) (p : List Byte → Prop) (cut : List Byte → List Byte × List Byte)
    (s : List Byte) : ℕ → Prop
  | 0 => start
  | k + 1 => p (pieceAt cut k s)

variable {input : C → List Byte} {cut : List Byte → List Byte × List Byte}
  {p fits : List Byte → Prop}

theorem Reads.isSome_iff (H : L.Reads input cut p fits) (c : C) (r : R) :
    (L.body r c).isSome ↔ fits (cut (input c)).1 := by
  constructor
  · intro hsome
    by_contra hfits
    rw [H.body_none c r hfits] at hsome
    cases hsome
  · intro hfits
    obtain ⟨c', hbody, _⟩ := H.body_some c r hfits
    rw [hbody]
    rfl

/-- The pieces that a run has taken, and the test at its end. -/
theorem Reads.exec (H : L.Reads input cut p fits) (h : (L.system c).Exec tr y) :
    input y = unread cut tr.length (input c) ∧
      (L.closing y = true ↔ testAfter (L.closing c = true) p cut (input c) tr.length) := by
  induction h with
  | start h0 =>
      obtain rfl : _ = c := h0
      exact ⟨rfl, Iff.rfl⟩
  | @snoc tr y y' r _ hstep ih =>
      obtain ⟨_, hbody⟩ := next_cases hstep
      have hfits : fits (cut (input y)).1 := by
        rw [← H.isSome_iff y r, hbody]
        rfl
      obtain ⟨c', hbody', hinput, hclosing⟩ := H.body_some y r hfits
      obtain rfl : c' = y' := Option.some.inj (hbody'.symm.trans hbody)
      rw [List.length_append, List.length_singleton, unread_succ, hinput, hclosing, ih.1]
      exact ⟨rfl, Iff.rfl⟩

/-- **A loop that reads its input is driven by it.** -/
theorem Reads.driven (H : L.Reads input cut p fits) (c : C) :
    L.Driven c (testAfter (L.closing c = true) p cut (input c))
      (fun k => fits (pieceAt cut k (input c))) where
  closing_iff := fun tr y h => (H.exec h).2
  isSome_iff := by
    intro tr y h r
    rw [H.isSome_iff, (H.exec h).1]
    rfl

/-- **Such a loop stops** exactly where it does not start, or some piece passes the test and
every piece up to it fits. -/
theorem Reads.stops_iff [Nonempty R] (H : L.Reads input cut p fits) (c : C) :
    L.Stops c ↔ L.closing c = true ∨
      ∃ k, p (pieceAt cut k (input c)) ∧ ∀ j ≤ k, fits (pieceAt cut j (input c)) := by
  rw [(H.driven c).stops_iff]
  constructor
  · rintro ⟨k, hstop, hfits⟩
    cases k with
    | zero => exact .inl hstop
    | succ k => exact .inr ⟨k, hstop, fun j hj => hfits j (Nat.lt_succ_of_le hj)⟩
  · rintro (hstart | ⟨k, hp, hfits⟩)
    · exact ⟨0, hstart, by simp⟩
    · exact ⟨k + 1, hp, fun j hj => hfits j (Nat.le_of_lt_succ hj)⟩

end Loop

end SocketPrograms
