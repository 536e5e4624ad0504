import Mathlib.Data.List.Infix
import Mathlib.Tactic.Common

/-!
# Labelled transition systems and their runs

A run keeps the steps it took, each with the state it left and its label. A
condition on the steps of a run is then a condition on the members of that list,
and a property that holds in every state reached is one of the visited states.

## Main definitions

* `System`, `System.Exec` — a system and its runs.
* `System.visited` — the states a run has been in.
* `Exec.invariant`, `Exec.always` — the invariant rule, for runs whose steps all
  meet a condition.
* `System.ofNext`, `replay` — a system given by a partial function, and the run a
  list of labels determines.
* `Exec.simulates` — a forward simulation carries runs to reachable states; `Exec.refines` — a
  refinement carries each run to the run of its images.
-/

namespace SocketPrograms

universe u v

/-- A labelled transition system. -/
structure System (σ : Type u) (α : Type v) where
  init : σ → Prop
  step : σ → α → σ → Prop

namespace System

variable {σ : Type u} {α : Type v} {M : System σ α}

/-- `M.Exec tr s`: a run that started in an initial state, took the steps `tr` and is
now in `s`. -/
inductive Exec (M : System σ α) : List (σ × α) → σ → Prop
  | start {s : σ} : M.init s → Exec M [] s
  | snoc {tr : List (σ × α)} {s t : σ} {a : α} :
      Exec M tr s → M.step s a t → Exec M (tr ++ [(s, a)]) t

/-- Some run ends in `s`. -/
def Reachable (M : System σ α) (s : σ) : Prop := ∃ tr, M.Exec tr s

/-- The states a run has been in, the last one included. -/
def visited (tr : List (σ × α)) (s : σ) : List σ := tr.map Prod.fst ++ [s]

@[simp] theorem mem_visited {tr : List (σ × α)} {s x : σ} :
    x ∈ visited tr s ↔ (∃ a, (x, a) ∈ tr) ∨ x = s := by
  simp [visited]

/-- A step visits the states before it, and the state it leads to. -/
theorem forall_visited_snoc {tr : List (σ × α)} {s t : σ} {a : α} {p : σ → Prop} :
    (∀ x ∈ visited (tr ++ [(s, a)]) t, p x) ↔ (∀ x ∈ visited tr s, p x) ∧ p t := by
  simp [visited, or_imp, forall_and, and_assoc]

/-- The steps of a run and the one it is about to take start in states visited. -/
theorem fst_mem_visited {tr : List (σ × α)} {s : σ} {a : α} {p : σ × α}
    (hp : p ∈ tr ++ [(s, a)]) : p.1 ∈ visited tr s := by
  have hmem : p.1 ∈ (tr ++ [(s, a)]).map Prod.fst := List.mem_map_of_mem hp
  rwa [List.map_append] at hmem

/-- **The invariant rule.** `Good` is what the run is assumed to do in each step. -/
theorem Exec.invariant (Inv : σ → Prop) (Good : σ → α → Prop)
    (hinit : ∀ s, M.init s → Inv s)
    (hstep : ∀ s a t, Good s a → Inv s → M.step s a t → Inv t)
    {tr : List (σ × α)} {s : σ} (h : M.Exec tr s) (hgood : ∀ p ∈ tr, Good p.1 p.2) :
    Inv s := by
  induction h with
  | start h0 => exact hinit _ h0
  | @snoc tr s t a _ hst ih =>
      have hpast : ∀ p ∈ tr, Good p.1 p.2 := fun p hp => hgood p (List.mem_append_left _ hp)
      exact hstep s a t (hgood (s, a) (by simp)) (ih hpast) hst

/-- A run of no steps has not left its start. -/
theorem Exec.init_of_nil {s : σ} (h : M.Exec [] s) : M.init s := by
  generalize htr : ([] : List (σ × α)) = tr at h
  cases h with
  | start h0 => exact h0
  | snoc _ _ => simp at htr

/-- The last step of a run, and the run before it. -/
theorem Exec.snoc_inv {tr : List (σ × α)} {s t : σ} {a : α} (h : M.Exec (tr ++ [(s, a)]) t) :
    M.Exec tr s ∧ M.step s a t := by
  generalize htr : tr ++ [(s, a)] = tr' at h
  cases h with
  | start h0 => simp at htr
  | snoc h hst =>
      obtain ⟨rfl, hlast⟩ := List.append_inj' htr rfl
      obtain ⟨rfl, rfl⟩ := Prod.mk.inj (List.cons.inj hlast).1
      exact ⟨h, hst⟩

/-- A state visited is the end of a shorter run. -/
theorem Exec.exec_of_mem_visited {tr : List (σ × α)} {s : σ} (h : M.Exec tr s) :
    ∀ x ∈ visited tr s, ∃ tr', tr' <+: tr ∧ M.Exec tr' x := by
  induction h with
  | start h0 =>
      intro x hx
      obtain rfl : x = _ := by simpa using hx
      exact ⟨[], List.prefix_rfl, .start h0⟩
  | @snoc tr s t a hr hst ih =>
      intro x hx
      rcases mem_visited.mp hx with ⟨b, hb⟩ | rfl
      · have hx' : x ∈ visited tr s := by
          rcases List.mem_append.mp hb with hb | hb
          · exact mem_visited.mpr (.inl ⟨b, hb⟩)
          · simp only [List.mem_singleton, Prod.mk.injEq] at hb
            exact mem_visited.mpr (.inr hb.1)
        rcases ih x hx' with ⟨tr', hpre, hr'⟩
        exact ⟨tr', hpre.trans (List.prefix_append _ _), hr'⟩
      · exact ⟨_, List.prefix_rfl, .snoc hr hst⟩

/-- A step of a run was taken from a state visited. -/
theorem Exec.step_of_mem {tr : List (σ × α)} {s : σ} (h : M.Exec tr s) :
    ∀ p ∈ tr, ∃ t, M.step p.1 p.2 t ∧ p.1 ∈ visited tr s ∧ t ∈ visited tr s := by
  induction h with
  | start _ => simp
  | @snoc tr s t a _ hst ih =>
      intro p hp
      rcases List.mem_append.mp hp with hp | hp
      · obtain ⟨u, hu, hfrom, hto⟩ := ih p hp
        have hpast : ∀ x ∈ visited tr s, x ∈ visited (tr ++ [(s, a)]) t :=
          (forall_visited_snoc.mp fun _ hx => hx).1
        exact ⟨u, hu, hpast _ hfrom, hpast _ hto⟩
      · rw [List.mem_singleton.mp hp]
        exact ⟨t, hst, by simp, by simp⟩

/-- The invariant rule, for every state of the run. -/
theorem Exec.always (Inv : σ → Prop) (Good : σ → α → Prop)
    (hinit : ∀ s, M.init s → Inv s)
    (hstep : ∀ s a t, Good s a → Inv s → M.step s a t → Inv t)
    {tr : List (σ × α)} {s : σ} (h : M.Exec tr s) (hgood : ∀ p ∈ tr, Good p.1 p.2) :
    ∀ x ∈ visited tr s, Inv x := by
  intro x hx
  obtain ⟨tr', hpre, hr⟩ := h.exec_of_mem_visited x hx
  exact hr.invariant Inv Good hinit hstep (fun p hp => hgood p (hpre.subset hp))

/-- An invariant of every step holds in every reachable state. -/
theorem Reachable.invariant (Inv : σ → Prop) (hinit : ∀ s, M.init s → Inv s)
    (hstep : ∀ s a t, Inv s → M.step s a t → Inv t) {s : σ} (h : M.Reachable s) : Inv s := by
  obtain ⟨tr, hr⟩ := h
  exact hr.invariant Inv (fun _ _ => True) hinit (fun s a t _ => hstep s a t)
    (fun _ _ => trivial)

/-! ## Systems given by a function -/

/-- The system whose steps are the defined values of `next`. -/
def ofNext (init : σ → Prop) (next : σ → α → Option σ) : System σ α :=
  ⟨init, fun s a t => next s a = some t⟩

/-- The steps of a run from a given state decide where it is. -/
theorem Exec.unique {s₀ : σ} {next : σ → α → Option σ} {tr : List (σ × α)} {s t : σ}
    (h : (ofNext (· = s₀) next).Exec tr s) (h' : (ofNext (· = s₀) next).Exec tr t) : s = t := by
  cases h with
  | start h0 =>
      have h0' : t = s₀ := h'.init_of_nil
      exact Eq.trans h0 h0'.symm
  | snoc _ hst => exact Option.some.inj (Eq.trans (Eq.symm hst) h'.snoc_inv.2)

/-- The run from `s` that a list of labels determines. -/
def replay (next : σ → α → Option σ) : σ → List α → Option (List (σ × α) × σ)
  | s, [] => some ([], s)
  | s, a :: as =>
      (next s a).bind fun t => (replay next t as).map fun p => ((s, a) :: p.1, p.2)

theorem Exec.append_replay {init : σ → Prop} {next : σ → α → Option σ} (as : List α) :
    ∀ {tr tr' : List (σ × α)} {s t : σ}, (ofNext init next).Exec tr s →
      replay next s as = some (tr', t) → (ofNext init next).Exec (tr ++ tr') t := by
  induction as with
  | nil =>
      intro tr tr' s t h hrun
      obtain ⟨rfl, rfl⟩ : [] = tr' ∧ s = t := by simpa [replay] using hrun
      simpa using h
  | cons a as ih =>
      intro tr tr' s t h hrun
      simp only [replay, Option.bind_eq_some_iff, Option.map_eq_some_iff, Prod.exists,
        Prod.mk.injEq] at hrun
      obtain ⟨u, hu, tr'', w, hrest, rfl, rfl⟩ := hrun
      simpa using ih (.snoc h hu) hrest

/-- **A replayed run is a run**, and what is computed of the replay holds of it. -/
theorem exec_of_replay {init : σ → Prop} {next : σ → α → Option σ} {as : List α} {s : σ}
    {β : Type*} {f : List (σ × α) × σ → β} {b : β} (h0 : init s)
    (hrun : (replay next s as).map f = some b) :
    ∃ tr t, (ofNext init next).Exec tr t ∧ f (tr, t) = b := by
  obtain ⟨⟨tr, t⟩, hreplay, hf⟩ := Option.map_eq_some_iff.mp hrun
  exact ⟨tr, t, by simpa using Exec.append_replay as (.start h0) hreplay, hf⟩

/-- The labels of a replayed run. -/
theorem labels_of_replay {next : σ → α → Option σ} (as : List α) :
    ∀ {tr : List (σ × α)} {s t : σ}, replay next s as = some (tr, t) → tr.map Prod.snd = as := by
  induction as with
  | nil =>
      intro tr s t hrun
      obtain ⟨rfl, _⟩ : [] = tr ∧ s = t := by simpa [replay] using hrun
      rfl
  | cons a as ih =>
      intro tr s t hrun
      simp only [replay, Option.bind_eq_some_iff, Option.map_eq_some_iff, Prod.exists,
        Prod.mk.injEq] at hrun
      obtain ⟨u, _, tr', w, hrest, rfl, _⟩ := hrun
      rw [List.map_cons, ih hrest]

/-- A replayed run, with its labels. -/
theorem exec_of_replay_labels {init : σ → Prop} {next : σ → α → Option σ} {as : List α} {s : σ}
    {β : Type*} {f : List (σ × α) × σ → β} {b : β} (h0 : init s)
    (hrun : (replay next s as).map f = some b) :
    ∃ tr t, (ofNext init next).Exec tr t ∧ tr.map Prod.snd = as ∧ f (tr, t) = b := by
  obtain ⟨⟨tr, t⟩, hreplay, hf⟩ := Option.map_eq_some_iff.mp hrun
  exact ⟨tr, t, by simpa using Exec.append_replay as (.start h0) hreplay,
    labels_of_replay as hreplay, hf⟩

/-! ## Forward simulation -/

variable {τ β : Type*} {A : System τ β}

/-- **Forward simulation**: a relation that holds initially, and that each step keeps
by a step of the abstract system or by none, relates the end of every run to a
reachable abstract state. -/
theorem Exec.simulates (R : σ → τ → Prop) (Good : σ → α → Prop)
    (hinit : ∀ s, M.init s → ∃ x, A.init x ∧ R s x)
    (hstep : ∀ s a t x, Good s a → R s x → M.step s a t →
      R t x ∨ ∃ b y, A.step x b y ∧ R t y)
    {tr : List (σ × α)} {s : σ} (h : M.Exec tr s) (hgood : ∀ p ∈ tr, Good p.1 p.2) :
    ∃ x, A.Reachable x ∧ R s x := by
  refine h.invariant (fun s => ∃ x, A.Reachable x ∧ R s x) Good ?_ ?_ hgood
  · intro s h0
    obtain ⟨x, hx, hR⟩ := hinit s h0
    exact ⟨x, ⟨[], .start hx⟩, hR⟩
  · rintro s a t hg ⟨x, ⟨tx, hx⟩, hR⟩ hst
    rcases hstep s a t x hg hR hst with hR' | ⟨b, y, hxy, hR'⟩
    · exact ⟨x, ⟨tx, hx⟩, hR'⟩
    · exact ⟨y, ⟨_, .snoc hx hxy⟩, hR'⟩

/-- **Refinement**: where the image of each step, from a state that meets the invariant, is a
step of the abstract system, the image of a run is a run. -/
theorem Exec.refines (f : σ → τ) (g : σ → α → β) (Inv : σ → Prop)
    (hinit : ∀ s, M.init s → Inv s ∧ A.init (f s))
    (hstep : ∀ s a t, Inv s → M.step s a t → Inv t ∧ A.step (f s) (g s a) (f t))
    {tr : List (σ × α)} {s : σ} (h : M.Exec tr s) :
    Inv s ∧ A.Exec (tr.map fun p => (f p.1, g p.1 p.2)) (f s) := by
  induction h with
  | start h0 => exact ⟨(hinit _ h0).1, .start (hinit _ h0).2⟩
  | @snoc tr s t a _ hst ih =>
      obtain ⟨hInv, hstep'⟩ := hstep s a t ih.1 hst
      rw [List.map_append]
      exact ⟨hInv, .snoc ih.2 hstep'⟩

end System

end SocketPrograms
