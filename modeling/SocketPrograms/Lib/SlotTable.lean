import Mathlib.Data.List.Perm.Basic
import Mathlib.Tactic.Common

/-!
# Tables of slots

A table of fixed size in which one value marks a vacant slot. An element is put into the
first vacant slot and a slot is vacated by its index. What the table means is the list
of its entries, up to order.

## Main definitions

* `SlotTable α n` — a table of `n` slots; `SlotTable.entries` — what it holds.
* `SlotTable.place`, `SlotTable.vacate` — the two updates.
* `SlotTable.entries_place`, `SlotTable.entries_vacate` — one entry more, one less;
  `SlotTable.place_of_full` — a full table forgets what is put into it.
-/

namespace SocketPrograms

/-- A table of `n` slots. -/
@[ext] structure SlotTable (α : Type*) (n : ℕ) where
  slots : List α
  length_slots : slots.length = n
  deriving DecidableEq

attribute [simp] SlotTable.length_slots

namespace SlotTable

variable {α : Type*} [DecidableEq α] {n : ℕ}

/-- Put `a` into the first of these slots that is vacant. -/
def placeIn (vacant a : α) : List α → List α
  | [] => []
  | s :: ss => if s = vacant then a :: ss else s :: placeIn vacant a ss

@[simp] theorem length_placeIn (vacant a : α) (ss : List α) :
    (placeIn vacant a ss).length = ss.length := by
  induction ss with
  | nil => rfl
  | cons s ss ih =>
      by_cases hs : s = vacant
      · simp [placeIn, hs]
      · simp [placeIn, hs, ih]

/-- An element put in where a slot is vacant is one more. -/
theorem filter_placeIn_perm {vacant a : α} (ha : a ≠ vacant) {ss : List α} (h : vacant ∈ ss) :
    ((placeIn vacant a ss).filter (· ≠ vacant)).Perm (a :: ss.filter (· ≠ vacant)) := by
  induction ss with
  | nil => simp at h
  | cons s ss ih =>
      by_cases hs : s = vacant
      · simp [placeIn, hs, ha]
      · have hss : vacant ∈ ss := by
          rcases List.mem_cons.mp h with h | h
          · exact absurd h.symm hs
          · exact h
        simp only [placeIn, hs, if_false, List.filter_cons_of_pos, decide_true, ne_eq,
          not_false_eq_true]
        exact ((ih hss).cons s).trans (List.Perm.swap a s _)

theorem placeIn_eq_self {vacant a : α} {ss : List α} (h : vacant ∉ ss) :
    placeIn vacant a ss = ss := by
  induction ss with
  | nil => rfl
  | cons s ss ih =>
      have hs : s ≠ vacant := fun hs => h (by simp [hs])
      rw [placeIn, if_neg hs, ih fun hmem => h (List.mem_cons_of_mem _ hmem)]

/-- Where the element is put. -/
theorem placeIn_eq_set (vacant a : α) (ss : List α) :
    placeIn vacant a ss = ss.set (ss.idxOf vacant) a := by
  induction ss with
  | nil => rfl
  | cons s ss ih =>
      by_cases hs : s = vacant
      · subst hs
        simp [placeIn]
      · simp [placeIn, hs, List.idxOf_cons_ne, ih]

/-- A slot in use stays as it is. -/
theorem getElem?_placeIn {vacant a s : α} (hs : s ≠ vacant) {ss : List α} {j : ℕ}
    (hj : ss[j]? = some s) : (placeIn vacant a ss)[j]? = some s := by
  induction ss generalizing j with
  | nil => simp at hj
  | cons t ss ih =>
      by_cases ht : t = vacant
      · cases j with
        | zero =>
            obtain rfl : t = s := by simpa using hj
            exact absurd ht hs
        | succ j => simpa [placeIn, ht] using hj
      · cases j with
        | zero => simpa [placeIn, ht] using hj
        | succ j => simpa [placeIn, ht] using ih (j := j) (by simpa using hj)

/-- An element overwritten by the mark of a vacant slot is one less. -/
theorem filter_set_perm {vacant a : α} (ha : a ≠ vacant) {ss : List α} {i : ℕ}
    (hi : ss[i]? = some a) :
    (ss.filter (· ≠ vacant)).Perm (a :: (ss.set i vacant).filter (· ≠ vacant)) := by
  induction ss generalizing i with
  | nil => simp at hi
  | cons s ss ih =>
      cases i with
      | zero =>
          obtain rfl : s = a := by simpa using hi
          simp [ha]
      | succ i =>
          have hperm := ih (i := i) (by simpa using hi)
          by_cases hs : s = vacant
          · simpa [hs] using hperm
          · simp only [List.set_cons_succ, List.filter_cons_of_pos, hs, decide_true, ne_eq,
              not_false_eq_true]
            exact (hperm.cons s).trans (List.Perm.swap a s _)

/-- A table without entries. -/
def blank (n : ℕ) (vacant : α) : SlotTable α n := ⟨List.replicate n vacant, by simp⟩

/-- Put `a` into the first vacant slot, if there is one. -/
def place (vacant a : α) (t : SlotTable α n) : SlotTable α n :=
  ⟨placeIn vacant a t.slots, by simp⟩

/-- The index of the first vacant slot; `n` where none is. -/
def firstVacant (vacant : α) (t : SlotTable α n) : ℕ := t.slots.idxOf vacant

/-- Make slot `i` vacant. -/
def vacate (vacant : α) (i : ℕ) (t : SlotTable α n) : SlotTable α n :=
  ⟨t.slots.set i vacant, by simp⟩

/-- What the table holds. -/
def entries (vacant : α) (t : SlotTable α n) : List α := t.slots.filter (· ≠ vacant)

/-- No slot is vacant. -/
def Full (vacant : α) (t : SlotTable α n) : Prop := vacant ∉ t.slots

instance (vacant : α) (t : SlotTable α n) : Decidable (t.Full vacant) :=
  inferInstanceAs (Decidable (vacant ∉ t.slots))

variable {vacant a : α} {t : SlotTable α n}

@[simp] theorem mem_entries : a ∈ t.entries vacant ↔ a ∈ t.slots ∧ a ≠ vacant := by
  simp [entries]

@[simp] theorem entries_blank : (blank n vacant).entries vacant = [] := by
  simp [entries, blank]

/-- An element put into a table with a vacant slot is one more entry. -/
theorem entries_place (ha : a ≠ vacant) (hroom : ¬t.Full vacant) :
    ((t.place vacant a).entries vacant).Perm (a :: t.entries vacant) :=
  filter_placeIn_perm ha (not_not.mp hroom)

/-- A slot is vacant before the end of the table, unless the table is full. -/
theorem not_full_of_firstVacant (h : t.firstVacant vacant ≠ n) : ¬t.Full vacant := by
  have hle : t.slots.idxOf vacant ≤ t.slots.length := List.idxOf_le_length
  have hlt : t.slots.idxOf vacant < t.slots.length := by
    rw [t.length_slots] at hle ⊢
    exact Nat.lt_of_le_of_ne hle h
  exact not_not.mpr (List.idxOf_lt_length_iff.mp hlt)

theorem full_of_firstVacant (h : t.firstVacant vacant = n) : t.Full vacant := by
  have hlen := t.length_slots
  intro hmem
  have hlt : t.slots.idxOf vacant < t.slots.length := List.idxOf_lt_length_iff.mpr hmem
  rw [firstVacant] at h
  omega

/-- A full table stays as it is. -/
theorem place_of_full (hfull : t.Full vacant) : t.place vacant a = t := by
  ext1
  exact placeIn_eq_self hfull

theorem mem_entries_place (ha : a ≠ vacant) {b : α} :
    b ∈ (t.place vacant a).entries vacant ↔ b ∈ t.entries vacant ∨ (b = a ∧ ¬t.Full vacant) := by
  by_cases hfull : t.Full vacant
  · simp [place_of_full hfull, hfull]
  · rw [(entries_place ha hfull).mem_iff, List.mem_cons]
    simp only [hfull, not_false_eq_true, and_true]
    exact or_comm

theorem nodup_entries_place (ha : a ≠ vacant) (h : (t.entries vacant).Nodup)
    (hfresh : a ∉ t.entries vacant) : ((t.place vacant a).entries vacant).Nodup := by
  by_cases hfull : t.Full vacant
  · rwa [place_of_full hfull]
  · rw [(entries_place ha hfull).nodup_iff]
    exact List.nodup_cons.mpr ⟨hfresh, h⟩

/-- A slot in use held its element before, or is the one that was filled. -/
theorem getElem?_place {i : ℕ} {b : α} (h : (t.place vacant a).slots[i]? = some b) :
    t.slots[i]? = some b ∨ (i = t.firstVacant vacant ∧ b = a) := by
  simp only [place, placeIn_eq_set, List.getElem?_set] at h
  split at h
  · next hi =>
    split at h
    · exact .inr ⟨hi.symm, (Option.some.inj h).symm⟩
    · cases h
  · exact .inl h

/-- A slot that is vacated held one entry. -/
theorem entries_vacate {i : ℕ} (hi : t.slots[i]? = some a) (ha : a ≠ vacant) :
    (t.entries vacant).Perm (a :: (t.vacate vacant i).entries vacant) :=
  filter_set_perm ha hi

theorem mem_entries_vacate {i : ℕ} (hi : t.slots[i]? = some a) (ha : a ≠ vacant)
    (h : (t.entries vacant).Nodup) {b : α} :
    b ∈ (t.vacate vacant i).entries vacant ↔ b ∈ t.entries vacant ∧ b ≠ a := by
  have hperm := entries_vacate hi ha
  rw [hperm.nodup_iff, List.nodup_cons] at h
  rw [hperm.mem_iff, List.mem_cons]
  constructor
  · intro hb
    exact ⟨.inr hb, fun hba => h.1 (hba ▸ hb)⟩
  · rintro ⟨hb | hb, hne⟩
    · exact absurd hb hne
    · exact hb

theorem nodup_entries_vacate {i : ℕ} (hi : t.slots[i]? = some a) (ha : a ≠ vacant)
    (h : (t.entries vacant).Nodup) : ((t.vacate vacant i).entries vacant).Nodup := by
  rw [(entries_vacate hi ha).nodup_iff] at h
  exact (List.nodup_cons.mp h).2

/-- Where each entry is there once, it is in one slot. -/
theorem slot_unique {i j : ℕ} (ha : a ≠ vacant) (h : (t.entries vacant).Nodup)
    (hi : t.slots[i]? = some a) (hj : t.slots[j]? = some a) : i = j := by
  by_contra hne
  have hstays : (t.vacate vacant i).slots[j]? = some a := by
    rw [vacate, List.getElem?_set_ne hne, hj]
  have hmem : a ∈ (t.vacate vacant i).entries vacant :=
    mem_entries.mpr ⟨List.mem_of_getElem? hstays, ha⟩
  exact ((mem_entries_vacate hi ha h).mp hmem).2 rfl

omit [DecidableEq α] in
/-- Later slots are as they were. -/
theorem drop_vacate {i j : ℕ} (h : i < j) : (t.vacate vacant i).slots.drop j = t.slots.drop j :=
  List.drop_set_of_lt h

end SlotTable

end SocketPrograms
