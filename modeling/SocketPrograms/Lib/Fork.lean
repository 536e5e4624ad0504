import SocketPrograms.Lib.Transition

/-!
# Processes that fork

A parent takes steps, some of which create a child: a process with a state of its own that no
other process touches. The steps of the parent and of all children interleave in any order. What
one child does is then a run of that child alone, whatever the others do in between.

## Main definitions

* `Forking` — a parent, the children its steps create, and the steps of a child.
* `Forking.system` — the parent and its children together.
* `parentSteps`, `births`, `own` — what a run contains of the parent, and of each child.
* `parent_exec`, `child_exec` — **projection**: each of them has made a run of its own.
-/

namespace SocketPrograms

variable {π β σ α : Type*}

/-- A parent whose steps may create children. -/
structure Forking (π β σ α : Type*) where
  init : π → Prop
  /-- A step of the parent. -/
  parent : π → β → Option π
  /-- The child that this step of the parent creates, if it does. -/
  born : π → β → Option σ
  /-- A step of a child. -/
  child : σ → α → Option σ

namespace Forking

/-- The parent and its children, in the order of their births. -/
structure State (π σ : Type*) where
  parent : π
  children : List σ

/-- Who takes a step. -/
inductive Label (β α : Type*)
  | parent (b : β)
  | child (k : ℕ) (a : α)

/-- A joint step. -/
def next (F : Forking π β σ α) (x : State π σ) : Label β α → Option (State π σ)
  | .parent b => (F.parent x.parent b).map fun p =>
      ⟨p, x.children ++ (F.born x.parent b).toList⟩
  | .child k a => (x.children[k]?.bind fun s => F.child s a).map fun t =>
      { x with children := x.children.set k t }

/-- The parent at its start, with no child, and any interleaving from there. -/
def system (F : Forking π β σ α) : System (State π σ) (Label β α) :=
  .ofNext (fun x => F.init x.parent ∧ x.children = []) F.next

/-- The parent by itself. -/
def parentSystem (F : Forking π β σ α) : System π β := .ofNext F.init F.parent

/-- A child by itself, created in this state. -/
def childSystem (F : Forking π β σ α) (s₀ : σ) : System σ α := .ofNext (· = s₀) F.child

/-- The steps of the parent. -/
def parentSteps (tr : List (State π σ × Label β α)) : List (π × β) :=
  tr.filterMap fun p =>
    match p.2 with
    | .parent b => some (p.1.parent, b)
    | .child _ _ => none

/-- The states in which the children were created. -/
def births (F : Forking π β σ α) (tr : List (State π σ × Label β α)) : List σ :=
  (parentSteps tr).filterMap fun p => F.born p.1 p.2

/-- The steps of child `k`. -/
def own (k : ℕ) (tr : List (State π σ × Label β α)) : List (σ × α) :=
  tr.filterMap fun p =>
    match p.2 with
    | .parent _ => none
    | .child j a => if j = k then p.1.children[k]?.map fun s => (s, a) else none

variable {F : Forking π β σ α} {tr : List (State π σ × Label β α)} {x : State π σ}

/-! ## What a step adds -/

section Snoc

variable {y : State π σ} {b : β} {a : α} {j k : ℕ} {s : σ}

theorem next_parent_cases (h : F.next x (.parent b) = some y) :
    F.parent x.parent b = some y.parent ∧
      y.children = x.children ++ (F.born x.parent b).toList := by
  obtain ⟨p, hp, rfl⟩ := Option.map_eq_some_iff.mp h
  exact ⟨hp, rfl⟩

theorem next_child_cases (h : F.next x (.child k a) = some y) :
    ∃ s t, x.children[k]? = some s ∧ F.child s a = some t ∧ y.parent = x.parent ∧
      y.children = x.children.set k t := by
  obtain ⟨t, hbind, rfl⟩ := Option.map_eq_some_iff.mp h
  obtain ⟨s, hs, ht⟩ := Option.bind_eq_some_iff.mp hbind
  exact ⟨s, t, hs, ht, rfl, rfl⟩

theorem parentSteps_snoc_parent :
    parentSteps (tr ++ [(x, .parent b)]) = parentSteps tr ++ [(x.parent, b)] := by
  simp [parentSteps]

theorem parentSteps_snoc_child : parentSteps (tr ++ [(x, .child k a)]) = parentSteps tr := by
  simp [parentSteps]

theorem births_snoc_parent :
    F.births (tr ++ [(x, .parent b)]) = F.births tr ++ (F.born x.parent b).toList := by
  rw [births, parentSteps_snoc_parent]
  cases h : F.born x.parent b <;> simp [births, h]

theorem births_snoc_child : F.births (tr ++ [(x, .child k a)]) = F.births tr := by
  rw [births, parentSteps_snoc_child, births]

theorem own_snoc_parent : own k (tr ++ [(x, .parent b)]) = own k tr := by
  simp [own]

theorem own_snoc_other (h : j ≠ k) : own k (tr ++ [(x, .child j a)]) = own k tr := by
  simp [own, h]

theorem own_snoc_self (h : x.children[k]? = some s) :
    own k (tr ++ [(x, .child k a)]) = own k tr ++ [(s, a)] := by
  simp [own, h]

end Snoc

/-! ## Projection -/

/-- **The parent has made a run of its own.** -/
theorem parent_exec (h : F.system.Exec tr x) :
    F.parentSystem.Exec (parentSteps tr) x.parent := by
  induction h with
  | start h0 => exact .start h0.1
  | @snoc tr x y l _ hstep ih =>
      cases l with
      | parent b =>
          rw [parentSteps_snoc_parent]
          exact .snoc ih (next_parent_cases hstep).1
      | child k a =>
          obtain ⟨_, _, _, _, hparent, _⟩ := next_child_cases hstep
          rw [parentSteps_snoc_child, hparent]
          exact ih

/-- There is a child for each birth. -/
theorem length_births (h : F.system.Exec tr x) : (F.births tr).length = x.children.length := by
  induction h with
  | start h0 => simp [h0.2, births, parentSteps]
  | @snoc tr x y l _ hstep ih =>
      cases l with
      | parent b => rw [births_snoc_parent, (next_parent_cases hstep).2, List.length_append,
          List.length_append, ih]
      | child k a =>
          obtain ⟨_, _, _, _, _, hchildren⟩ := next_child_cases hstep
          rw [births_snoc_child, hchildren, List.length_set, ih]

/-- A child that does not exist has taken no step. -/
theorem own_of_le (h : F.system.Exec tr x) {k : ℕ} (hk : x.children.length ≤ k) :
    own k tr = [] := by
  induction h with
  | start _ => rfl
  | @snoc tr x y l _ hstep ih =>
      cases l with
      | parent b =>
          rw [(next_parent_cases hstep).2, List.length_append] at hk
          rw [own_snoc_parent]
          exact ih (le_trans (Nat.le_add_right _ _) hk)
      | child j a =>
          obtain ⟨s, t, hj, _, _, hchildren⟩ := next_child_cases hstep
          have hlt : j < x.children.length := (List.getElem?_eq_some_iff.mp hj).1
          rw [hchildren, List.length_set] at hk
          rw [own_snoc_other (by omega)]
          exact ih hk

/-- **Each child has made a run of its own** from the state it was created in, whatever the
parent and the other children have done in between. -/
theorem child_exec (h : F.system.Exec tr x) :
    ∀ (k : ℕ) (s₀ s : σ), (F.births tr)[k]? = some s₀ → x.children[k]? = some s →
      (F.childSystem s₀).Exec (own k tr) s := by
  induction h with
  | start h0 =>
      intro k s₀ s _ hs
      simp [h0.2] at hs
  | @snoc tr x y l h hstep ih =>
      intro k s₀ s hs₀ hs
      have hlen := length_births h
      cases l with
      | parent b =>
          rw [births_snoc_parent] at hs₀
          rw [(next_parent_cases hstep).2] at hs
          rw [own_snoc_parent]
          rcases Nat.lt_or_ge k x.children.length with hlt | hge
          · rw [List.getElem?_append_left (by rw [hlen]; exact hlt)] at hs₀
            rw [List.getElem?_append_left hlt] at hs
            exact ih k s₀ s hs₀ hs
          · -- the child that was born just now
            rw [List.getElem?_append_right (by rw [hlen]; exact hge), hlen] at hs₀
            rw [List.getElem?_append_right hge] at hs
            obtain rfl : s₀ = s := Option.some.inj (hs₀.symm.trans hs)
            rw [own_of_le h hge]
            exact .start rfl
      | child j a =>
          obtain ⟨s₁, t, hj, hchild, _, hchildren⟩ := next_child_cases hstep
          rw [births_snoc_child] at hs₀
          rw [hchildren] at hs
          by_cases hjk : j = k
          · subst hjk
            have hlt : j < x.children.length := (List.getElem?_eq_some_iff.mp hj).1
            obtain rfl : t = s := by simpa [hlt] using hs
            rw [own_snoc_self hj]
            exact .snoc (ih j s₀ s₁ hs₀ hj) hchild
          · rw [own_snoc_other hjk]
            rw [List.getElem?_set_ne hjk] at hs
            exact ih k s₀ s hs₀ hs

end Forking

end SocketPrograms
