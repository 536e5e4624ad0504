import SocketPrograms.Lib.Transition
import Mathlib.Data.Multiset.MapFold
import Mathlib.Logic.Function.Basic

/-!
# Requests and replies over a lossy network

Any number of clients, each of which asks again only after it got its reply, and a
server that replies to what arrives. The messages under way are a multiset: they
arrive in any order and may be lost, but none is repeated or made up. What a client
asks, what a reply says and how the two sides are programmed is left open.

## Main definitions

* `Ticket` — the name of a request: its client and its number among the client's.
* `Exchange.State`, `Exchange.Step` — the exchange.
* `Exchange.Paired` — the invariant, and `Exchange.paired`, that it holds in every
  reachable state: at most one message is under way for a client, each request is
  served at most once, and the `k`-th reply a client got is the one to its `k`-th
  request.
-/

namespace SocketPrograms

/-- A request: the client that makes it, and how many it made before. -/
@[ext] structure Ticket (ι : Type*) where
  client : ι
  round : ℕ
  deriving DecidableEq

namespace Exchange

/-- What is under way for a request. -/
inductive Message (Req Rep : Type*)
  | request (q : Req)
  | reply (r : Rep)

/-- The state of an exchange. -/
structure State (ι Req Rep : Type*) where
  /-- The requests each client made, in order. -/
  asked : ι → List Req
  /-- The replies each client got, in order. -/
  got : ι → List Rep
  pending : Multiset (Ticket ι × Message Req Rep)
  /-- The requests served, with their replies, in order. -/
  served : List (Ticket ι × Req × Rep)

variable {ι Req Rep : Type*} [DecidableEq ι]

/-- The steps of an exchange. -/
inductive Step : State ι Req Rep → State ι Req Rep → Prop
  /-- A client that has got all of its replies asks. -/
  | ask (x : State ι Req Rep) (i : ι) (q : Req) (hi : (x.asked i).length = (x.got i).length) :
      Step x { x with
        asked := Function.update x.asked i (x.asked i ++ [q])
        pending := (⟨i, (x.asked i).length⟩, .request q) ::ₘ x.pending }
  /-- The server replies to a request. -/
  | serve (x : State ι Req Rep) (t : Ticket ι) (q : Req) (r : Rep)
      (rest : Multiset (Ticket ι × Message Req Rep))
      (h : x.pending = (t, .request q) ::ₘ rest) :
      Step x { x with
        pending := (t, .reply r) ::ₘ rest, served := x.served ++ [(t, q, r)] }
  /-- A client gets a reply. -/
  | get (x : State ι Req Rep) (t : Ticket ι) (r : Rep)
      (rest : Multiset (Ticket ι × Message Req Rep)) (h : x.pending = (t, .reply r) ::ₘ rest) :
      Step x { x with
        got := Function.update x.got t.client (x.got t.client ++ [r]), pending := rest }
  /-- A message is lost. -/
  | lose (x : State ι Req Rep) (m : Ticket ι × Message Req Rep)
      (rest : Multiset (Ticket ι × Message Req Rep)) (h : x.pending = m ::ₘ rest) :
      Step x { x with pending := rest }

/-- The exchange, from a state in which nothing was asked. -/
def system (ι Req Rep : Type*) [DecidableEq ι] : System (State ι Req Rep) Unit where
  init x := x = ⟨fun _ => [], fun _ => [], 0, []⟩
  step x _ y := Step x y

/-- What every reachable state keeps. -/
structure Paired (x : State ι Req Rep) : Prop where
  /-- At most one message is under way for a client. -/
  one : (x.pending.map fun m => m.1.client).Nodup
  /-- It is for the last request, and that has no reply yet. -/
  last : ∀ m ∈ x.pending, (x.asked m.1.client).length = m.1.round + 1 ∧
    (x.got m.1.client).length = m.1.round
  request : ∀ t q, (t, Message.request q) ∈ x.pending →
    (x.asked t.client)[t.round]? = some q ∧ t ∉ x.served.map Prod.fst
  reply : ∀ t r, (t, Message.reply r) ∈ x.pending → ∃ q, (t, q, r) ∈ x.served
  once : (x.served.map Prod.fst).Nodup
  served : ∀ t q r, (t, q, r) ∈ x.served → (x.asked t.client)[t.round]? = some q
  got : ∀ i k r, (x.got i)[k]? = some r → ∃ q, (⟨i, k⟩, q, r) ∈ x.served

/-- One element more in the list of `i`. -/
theorem getElem?_update_append {α : Type*} (f : ι → List α) (i : ι) (a : α) (j : ι) (k : ℕ)
    (b : α) :
    (Function.update f i (f i ++ [a]) j)[k]? = some b ↔
      (f j)[k]? = some b ∨ (j = i ∧ k = (f i).length ∧ b = a) := by
  by_cases hj : j = i
  · subst hj
    rw [Function.update_self]
    rcases Nat.lt_trichotomy k (f j).length with hlt | rfl | hgt
    · have hne : k ≠ (f j).length := by omega
      simp [List.getElem?_append_left hlt, hne]
    · simp [eq_comm]
    · have hne : k ≠ (f j).length := by omega
      have hsub : k - (f j).length ≠ 0 := by omega
      simp [List.getElem?_append_right hgt.le, List.getElem?_eq_none hgt.le, hne, hsub]
  · simp [hj]

/-- A client that asks has nothing under way. -/
theorem Paired.ask {x : State ι Req Rep} (hx : Paired x) {i : ι} (q : Req)
    (hi : (x.asked i).length = (x.got i).length) :
    Paired { x with
      asked := Function.update x.asked i (x.asked i ++ [q])
      pending := (⟨i, (x.asked i).length⟩, .request q) ::ₘ x.pending } := by
  have hother : ∀ m ∈ x.pending, m.1.client ≠ i := by
    intro m hm hmi
    have hlast := hx.last m hm
    rw [hmi] at hlast
    omega
  -- what was asked before stays where it was
  have hasked : ∀ (j : ι) (k : ℕ) (p : Req), (x.asked j)[k]? = some p →
      (Function.update x.asked i (x.asked i ++ [q]) j)[k]? = some p :=
    fun j k p hp => (getElem?_update_append x.asked i q j k p).mpr (.inl hp)
  refine ⟨?_, ?_, ?_, ?_, hx.once, fun t p r ht => hasked _ _ _ (hx.served t p r ht), hx.got⟩
  · rw [Multiset.map_cons, Multiset.nodup_cons]
    refine ⟨fun hmem => ?_, hx.one⟩
    obtain ⟨m, hm, hmi⟩ := Multiset.mem_map.mp hmem
    exact hother m hm hmi
  · intro m hm
    rcases Multiset.mem_cons.mp hm with rfl | hm
    · simp [hi]
    · simpa [Function.update_of_ne (hother m hm)] using hx.last m hm
  · intro t p ht
    rcases Multiset.mem_cons.mp ht with ht | ht
    · obtain ⟨rfl, hp⟩ := Prod.mk.inj ht
      obtain rfl : p = q := Message.request.inj hp
      refine ⟨by simp, fun hmem => ?_⟩
      obtain ⟨⟨t, p', r⟩, hserved, rfl⟩ := List.mem_map.mp hmem
      have hnone := hx.served _ _ _ hserved
      simp at hnone
    · obtain ⟨hp, hfresh⟩ := hx.request t p ht
      exact ⟨hasked _ _ _ hp, hfresh⟩
  · intro t r ht
    rcases Multiset.mem_cons.mp ht with ht | ht
    · cases (Prod.mk.inj ht).2
    · exact hx.reply t r ht

omit [DecidableEq ι] in
/-- A request that is served was not served before. -/
theorem Paired.serve {x : State ι Req Rep} (hx : Paired x) {t : Ticket ι} {q : Req} (r : Rep)
    {rest : Multiset (Ticket ι × Message Req Rep)}
    (h : x.pending = (t, .request q) ::ₘ rest) :
    Paired { x with
      pending := (t, .reply r) ::ₘ rest, served := x.served ++ [(t, q, r)] } := by
  have hmem : (t, Message.request q) ∈ x.pending := h ▸ Multiset.mem_cons_self _ _
  have hrest : ∀ m ∈ rest, m ∈ x.pending := fun m hm => h ▸ Multiset.mem_cons_of_mem hm
  obtain ⟨hasked, hfresh⟩ := hx.request t q hmem
  have hone := hx.one
  rw [h, Multiset.map_cons] at hone
  have hother : ∀ m ∈ rest, m.1 ≠ t := by
    intro m hm hmt
    exact (Multiset.nodup_cons.mp hone).1 (Multiset.mem_map.mpr ⟨m, hm, by rw [hmt]⟩)
  refine ⟨?_, ?_, ?_, ?_, ?_, ?_, ?_⟩
  · rw [Multiset.map_cons]
    exact hone
  · intro m hm
    rcases Multiset.mem_cons.mp hm with rfl | hm
    · exact hx.last (t, .request q) hmem
    · exact hx.last m (hrest m hm)
  · intro u p hu
    rcases Multiset.mem_cons.mp hu with hu | hu
    · cases (Prod.mk.inj hu).2
    · obtain ⟨hp, hnot⟩ := hx.request u p (hrest _ hu)
      refine ⟨hp, ?_⟩
      simpa using ⟨by simpa using hnot, hother _ hu⟩
  · intro u s hu
    rcases Multiset.mem_cons.mp hu with hu | hu
    · obtain ⟨rfl, hs⟩ := Prod.mk.inj hu
      obtain rfl : s = r := Message.reply.inj hs
      exact ⟨q, by simp⟩
    · obtain ⟨p, hp⟩ := hx.reply u s (hrest _ hu)
      exact ⟨p, List.mem_append_left _ hp⟩
  · rw [List.map_append, List.nodup_append]
    refine ⟨hx.once, by simp, ?_⟩
    intro a ha b hb hab
    obtain rfl : b = t := by simpa using hb
    exact hfresh (hab ▸ ha)
  · intro u p s hu
    rcases List.mem_append.mp hu with hu | hu
    · exact hx.served u p s hu
    · obtain ⟨rfl, rfl, rfl⟩ : u = t ∧ p = q ∧ s = r := by simpa using hu
      exact hasked
  · intro i k s hs
    obtain ⟨p, hp⟩ := hx.got i k s hs
    exact ⟨p, List.mem_append_left _ hp⟩

/-- A reply that a client gets is the one to the request it waits for. -/
theorem Paired.get {x : State ι Req Rep} (hx : Paired x) {t : Ticket ι} {r : Rep}
    {rest : Multiset (Ticket ι × Message Req Rep)} (h : x.pending = (t, .reply r) ::ₘ rest) :
    Paired { x with
      got := Function.update x.got t.client (x.got t.client ++ [r]), pending := rest } := by
  have hmem : (t, Message.reply r) ∈ x.pending := h ▸ Multiset.mem_cons_self _ _
  have hrest : ∀ m ∈ rest, m ∈ x.pending := fun m hm => h ▸ Multiset.mem_cons_of_mem hm
  have hone := hx.one
  rw [h, Multiset.map_cons, Multiset.nodup_cons] at hone
  have hother : ∀ m ∈ rest, m.1.client ≠ t.client := by
    intro m hm hmt
    exact hone.1 (Multiset.mem_map.mpr ⟨m, hm, hmt⟩)
  refine ⟨hone.2, ?_, ?_, ?_, hx.once, hx.served, ?_⟩
  · intro m hm
    simpa [Function.update_of_ne (hother m hm)] using hx.last m (hrest m hm)
  · intro u p hu
    exact hx.request u p (hrest _ hu)
  · intro u s hu
    exact hx.reply u s (hrest _ hu)
  · intro i k s hs
    rcases (getElem?_update_append x.got t.client r i k s).mp hs with hold | ⟨rfl, rfl, rfl⟩
    · exact hx.got i k s hold
    · -- the new reply has the number of the request under way
      have hround : (x.got t.client).length = t.round := (hx.last _ hmem).2
      rw [hround]
      exact hx.reply t s hmem

omit [DecidableEq ι] in
theorem Paired.lose {x : State ι Req Rep} (hx : Paired x) {m : Ticket ι × Message Req Rep}
    {rest : Multiset (Ticket ι × Message Req Rep)} (h : x.pending = m ::ₘ rest) :
    Paired { x with pending := rest } := by
  have hrest : ∀ m' ∈ rest, m' ∈ x.pending := fun m' hm => h ▸ Multiset.mem_cons_of_mem hm
  have hone := hx.one
  rw [h, Multiset.map_cons, Multiset.nodup_cons] at hone
  exact ⟨hone.2, fun m' hm => hx.last m' (hrest m' hm),
    fun t q ht => hx.request t q (hrest _ ht), fun t r ht => hx.reply t r (hrest _ ht),
    hx.once, hx.served, hx.got⟩

theorem Step.paired {x y : State ι Req Rep} (h : Step x y) (hx : Paired x) : Paired y := by
  cases h with
  | ask i q hi => exact hx.ask q hi
  | serve t q r rest h => exact hx.serve r h
  | get t r rest h => exact hx.get h
  | lose m rest h => exact hx.lose h

/-- **Replies are paired with requests** in every reachable state. -/
theorem paired {x : State ι Req Rep} (h : (system ι Req Rep).Reachable x) : Paired x := by
  refine h.invariant Paired ?_ ?_
  · rintro x rfl
    exact ⟨by simp, by simp, by simp, by simp, by simp, by simp, by simp⟩
  · intro x _ y hx hstep
    exact Step.paired hstep hx

end Exchange

end SocketPrograms
