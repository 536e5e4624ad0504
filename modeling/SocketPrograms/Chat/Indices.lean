import SocketPrograms.Chat.WatchSet
import Mathlib.Data.Finset.Card

/-!
# The indices that the chat server uses

The loops of `TCPServer.c` over its table stop at `max_clients`, all but one: the broadcast counts
to `max_sd`, which is a descriptor number. And what `read` returned is the index of the
terminator, also where it is -1.

The indices of an iteration are collected along the iteration itself. It ends with `buffer[-1]`
where that is written, in a `send` that does not return, and where a descriptor does not fit into
the set.

## Main results

* `accesses` — the indices that an iteration uses.
* `inBounds_of_safe`, `safe_of_inBounds` — the iterations in which they are inside of their arrays.
* `indices_iff` — the runs in which they are.
* `inBounds_of_lowest` — they are with at most 30 descriptors open, where the kernel gives out the
  lowest.
-/

namespace SocketPrograms.Chat.Indices

open TCPServer

/-- An index that is used. -/
inductive Access
  /-- `client_socket[j]`. -/
  | slot (j : ℕ)
  /-- `buffer[j]`, written. -/
  | byte (j : ℤ)
  deriving DecidableEq

/-- The index is inside of its array. -/
def Access.InBounds : Access → Prop
  | .slot j => j ≤ 29
  | .byte j => 0 ≤ j ∧ j ≤ 1024

/-- What a `read` of at most 1024 bytes can return: -1, or 0 to 1024. -/
def InRange (r : ReadResult) : Prop := r = .failed ∨ r.Ok

/-! ## The loops -/

/-- The insertion, from slot `i` on: each slot is read, and the first vacant one written. -/
def placeAccesses : ℕ → List ℕ → List Access
  | _, [] => []
  | i, s :: ss => .slot i :: if s = 0 then [.slot i] else placeAccesses (i + 1) ss

/-- The branch on `FD_ISSET(master_socket, &readfds)`. -/
def welcomeAccesses (fds : Finset ℕ) (inp : Input) (x : Server) : List Access :=
  if x.master_socket ∈ fds ∧ inp.accept.isSome ∧ inp.greeted then
    placeAccesses 0 x.client_socket.slots
  else []

/-- The broadcast, over these indices: each slot is compared, until a `send` does not return. -/
def broadcastAccesses (x : Server) (outside : ℕ → ℤ) (sd : ℕ) (sent : ℕ → Bool) :
    List ℕ → List Access
  | [] => []
  | j :: js => .slot j :: if slotAt x outside j ≠ sd ∧ ¬ sent j then [] else
      broadcastAccesses x outside sd sent js

/-- The body of the scan for slot `i`. -/
def visitAccesses (fds : Finset ℕ) (max_sd : ℕ) (inp : Input) (i : ℕ) (x : Server) :
    List Access :=
  let sd := x.client_socket.slots[i]?.getD 0
  .slot i :: if sd < fdSetSize ∧ sd ∈ fds then
    match inp.read i with
    | .closed => [.slot i]
    | .data bytes =>
        (List.range bytes.length).map (fun j : ℕ => .byte j) ++ .byte bytes.length ::
          broadcastAccesses x (inp.outside i) sd (inp.sent i) (List.range max_sd)
    | .failed => [.byte (-1)]
  else []

/-- The scan of the slots `is`. -/
def scanAccesses (fds : Finset ℕ) (max_sd : ℕ) (inp : Input) : List ℕ → Server → List Access
  | [], _ => []
  | i :: is, x => visitAccesses fds max_sd inp i x ++
      match (visit fds max_sd inp i x).2 with
      | none => []
      | some y => scanAccesses fds max_sd inp is y

/-- An iteration: the loop that rebuilds the set, the insertion and the scan. -/
def accesses (x : Server) (inp : Input) : List Access :=
  (List.range maxClients).map .slot ++
    match rebuild x with
    | none => []
    | some (watched, max_sd) =>
        welcomeAccesses (inp.select.getD watched) inp x ++
          match (welcome (inp.select.getD watched) inp x).2 with
          | none => []
          | some y =>
              scanAccesses (inp.select.getD watched) max_sd inp (List.range' 0 maxClients) y

/-! ## The condition -/

/-- The slots up to `i` hold descriptors that fit into an `fd_set`, and that of slot `i` is
ready. -/
def Ready (fds : Finset ℕ) (y : Server) (i : ℕ) : Prop :=
  (∀ j ≤ i, y.client_socket.slots[j]?.getD 0 < fdSetSize) ∧
    y.client_socket.slots[i]?.getD 0 ∈ fds

/-- Slot `i` is read in the iteration: the set could be rebuilt, and the slot holds a ready
descriptor once a new connection has been put into the table. -/
def Reads (x : Server) (inp : Input) (i : ℕ) : Prop :=
  (rebuild x).isSome ∧ ∃ y ∈ (welcome (readfds x inp) inp x).2, i < maxClients ∧
    Ready (readfds x inp) y i

/-- The listening socket and the descriptors in the table are at most 30. -/
def Small (x : Server) : Prop :=
  x.master_socket ≤ 30 ∧ ∀ fd ∈ x.client_socket.entries 0, fd ≤ 30

/-- No `read` that is called fails, and where one returns a message, the descriptors are small. -/
structure Safe (x : Server) (inp : Input) : Prop where
  succeeds : ∀ i, Reads x inp i → inp.read i ≠ .failed
  small : ∀ i bytes, Reads x inp i → inp.read i = .data bytes → Small x

instance (x : Server) : Decidable (Small x) := inferInstanceAs (Decidable (_ ∧ _))

variable {x y : Server} {inp : Input} {fds watched : Finset ℕ} {max_sd : ℕ}

theorem InRange.length_le {r : ReadResult} (h : InRange r) {bytes : List Byte}
    (hr : r = .data bytes) : bytes.length ≤ 1024 := by
  rw [hr] at h
  rcases h with h | h
  · cases h
  · exact h.2

theorem Small.safe (hx : Small x) (hread : ∀ i < maxClients, (inp.read i).Ok) : Safe x inp := by
  refine ⟨fun i hi hfailed => ?_, fun _ _ _ _ => hx⟩
  obtain ⟨_, _, _, hlt, _⟩ := hi
  have hok := hread i hlt
  rw [hfailed] at hok
  exact hok

theorem max_sd_le_iff (h : rebuild x = some (watched, max_sd)) : max_sd ≤ 30 ↔ Small x := by
  obtain ⟨rfl, ⟨hmem, hle⟩, _⟩ := rebuild_cases h
  constructor
  · intro hmax
    exact ⟨(hle (mem_watchSet.mpr (.inl rfl))).trans hmax,
      fun fd hfd => (hle (mem_watchSet.mpr (.inr hfd))).trans hmax⟩
  · rintro ⟨hmaster, hentries⟩
    rcases mem_watchSet.mp hmem with hmax | hmax
    · exact hmax.trans_le hmaster
    · exact hentries _ hmax

/-! ## The loops that stop at the table -/

theorem placeAccesses_inBounds (ss : List ℕ) :
    ∀ i, i + ss.length ≤ maxClients → ∀ a ∈ placeAccesses i ss, a.InBounds := by
  induction ss with
  | nil => simp [placeAccesses]
  | cons s ss ih =>
      intro i hi a ha
      rw [List.length_cons] at hi
      have hfirst : (Access.slot i).InBounds := by
        have : i + (ss.length + 1) ≤ 30 := hi
        simp only [Access.InBounds]
        omega
      rw [placeAccesses, List.mem_cons] at ha
      rcases ha with rfl | ha
      · exact hfirst
      · by_cases hs : s = 0
        · rw [if_pos hs, List.mem_singleton] at ha
          rwa [ha]
        · rw [if_neg hs] at ha
          exact ih (i + 1) (by omega) a ha

theorem welcomeAccesses_inBounds : ∀ a ∈ welcomeAccesses fds inp x, a.InBounds := by
  rw [welcomeAccesses]
  split
  · exact placeAccesses_inBounds _ 0 (by rw [SlotTable.length_slots]; omega)
  · simp

theorem rangeAccesses_inBounds_iff (k : ℕ) :
    (∀ a ∈ (List.range k).map Access.slot, a.InBounds) ↔ k ≤ 30 := by
  simp only [List.forall_mem_map, List.mem_range, Access.InBounds]
  constructor
  · intro h
    by_contra hgt
    have := h 30 (by omega)
    omega
  · intro h j hj
    omega

/-! ## The broadcast -/

/-- What is compared is one of the indices. -/
theorem broadcastAccesses_subset {outside : ℕ → ℤ} {sd : ℕ} {sent : ℕ → Bool} (js : List ℕ) :
    ∀ a ∈ broadcastAccesses x outside sd sent js, a ∈ js.map Access.slot := by
  induction js with
  | nil => simp [broadcastAccesses]
  | cons j js ih =>
      intro a ha
      rw [broadcastAccesses, List.mem_cons] at ha
      rw [List.map_cons, List.mem_cons]
      rcases ha with rfl | ha
      · exact .inl rfl
      · split at ha
        · simp at ha
        · exact .inr (ih a ha)

/-- What is asked of the read of slot `i`, if it is called. -/
def ReadSafe (max_sd : ℕ) (inp : Input) (i : ℕ) : Prop :=
  inp.read i ≠ .failed ∧ ∀ bytes, inp.read i = .data bytes → max_sd ≤ 30

theorem byteAccesses_inBounds {bytes : List Byte} (hle : bytes.length ≤ 1024) :
    (∀ a ∈ (List.range bytes.length).map (fun j : ℕ => Access.byte j), a.InBounds) ∧
      (Access.byte bytes.length).InBounds := by
  simp only [List.forall_mem_map, List.mem_range, Access.InBounds]
  refine ⟨fun j hj => ?_, ?_⟩ <;> omega

/-- A visit whose read is safe, if it is called, stays inside of the arrays. -/
theorem visitAccesses_inBounds {i : ℕ} (hi : i < maxClients) (hrange : InRange (inp.read i))
    (h : x.client_socket.slots[i]?.getD 0 < fdSetSize →
      x.client_socket.slots[i]?.getD 0 ∈ fds → ReadSafe max_sd inp i) :
    ∀ a ∈ visitAccesses fds max_sd inp i x, a.InBounds := by
  have hslot : (Access.slot i).InBounds := Nat.le_of_lt_succ hi
  rw [visitAccesses, List.forall_mem_cons]
  refine ⟨hslot, ?_⟩
  split
  · next hready =>
    obtain ⟨hsucceeds, hsmall⟩ := h hready.1 hready.2
    cases hread : inp.read i with
    | closed => simpa using hslot
    | failed => exact absurd hread hsucceeds
    | data bytes =>
        obtain ⟨hbytes, hlast⟩ := byteAccesses_inBounds (hrange.length_le hread)
        refine List.forall_mem_append.mpr ⟨hbytes, List.forall_mem_cons.mpr ⟨hlast, ?_⟩⟩
        intro a ha
        exact (rangeAccesses_inBounds_iff max_sd).mpr (hsmall bytes hread) a
          (broadcastAccesses_subset _ a ha)
  · simp

/-- The slots from the one that is visited on. -/
theorem visit_later_getD {i : ℕ} {es : List Event}
    (h : visit fds max_sd inp i x = (es, some y)) {j : ℕ} (hj : i + 1 ≤ j) :
    y.client_socket.slots[j]?.getD 0 = x.client_socket.slots[j]?.getD 0 := by
  rw [visit_later h hj]

/-- **The scan** stays inside of the arrays where each read that it calls is safe, -/
theorem scanAccesses_inBounds (hrange : ∀ i < maxClients, InRange (inp.read i)) (k : ℕ) :
    ∀ (i : ℕ) (x : Server), i + k = maxClients →
      (∀ j, i ≤ j → j < maxClients →
        (∀ l, i ≤ l → l ≤ j → x.client_socket.slots[l]?.getD 0 < fdSetSize) →
          x.client_socket.slots[j]?.getD 0 ∈ fds → ReadSafe max_sd inp j) →
      ∀ a ∈ scanAccesses fds max_sd inp (List.range' i k) x, a.InBounds := by
  induction k with
  | zero => simp [scanAccesses]
  | succ k ih =>
      intro i x hi h
      have hlt : i < maxClients := by omega
      have hfits : x.client_socket.slots[i]?.getD 0 < fdSetSize →
          ∀ l, i ≤ l → l ≤ i → x.client_socket.slots[l]?.getD 0 < fdSetSize := by
        intro hfit l hle hge
        rwa [show l = i by omega]
      rw [List.range'_succ, scanAccesses, List.forall_mem_append]
      refine ⟨visitAccesses_inBounds hlt (hrange i hlt) fun hfit hready =>
        h i le_rfl hlt (hfits hfit) hready, ?_⟩
      cases hvisit : visit fds max_sd inp i x with
      | mk es r =>
        cases r with
        | none => simp
        | some y =>
          refine ih (i + 1) y (by omega) fun j hle hj hall hready => ?_
          have hi_fits : x.client_socket.slots[i]?.getD 0 < fdSetSize := by
            by_contra hge
            have hge : fdSetSize ≤ x.client_socket.slots[i]?.getD 0 := by omega
            simp [visit, hge] at hvisit
          refine h j (by omega) hj (fun l hil hlj => ?_) (visit_later_getD hvisit hle ▸ hready)
          by_cases hl : l = i
          · rwa [hl]
          · exact visit_later_getD hvisit (by omega : i + 1 ≤ l) ▸ hall l (by omega) hlj

/-- The indices of the iteration, once the set has been rebuilt. -/
theorem accesses_of_rebuild (h : rebuild x = some (watched, max_sd)) :
    (∀ a ∈ accesses x inp, a.InBounds) ↔
      ∀ y ∈ (welcome (readfds x inp) inp x).2,
        ∀ a ∈ scanAccesses (readfds x inp) max_sd inp (List.range' 0 maxClients) y, a.InBounds := by
  obtain ⟨rfl, _⟩ := rebuild_cases h
  rw [accesses, List.forall_mem_append, and_iff_right ((rangeAccesses_inBounds_iff 30).mpr le_rfl),
    h]
  simp only [List.forall_mem_append]
  rw [and_iff_right welcomeAccesses_inBounds, ← readfds]
  cases (welcome (readfds x inp) inp x).2 with
  | none => simp
  | some y => simp

/-- **The indices of a safe iteration are inside of their arrays**, -/
theorem inBounds_of_safe (hrange : ∀ i < maxClients, InRange (inp.read i)) (h : Safe x inp) :
    ∀ a ∈ accesses x inp, a.InBounds := by
  cases hrebuild : rebuild x with
  | none =>
      rw [accesses, hrebuild, List.append_nil]
      exact (rangeAccesses_inBounds_iff 30).mpr le_rfl
  | some p =>
      obtain ⟨watched, max_sd⟩ := p
      refine (accesses_of_rebuild hrebuild).mpr fun y hy => ?_
      refine scanAccesses_inBounds hrange maxClients 0 y rfl fun j _ hj hall hready => ?_
      have hreads : Reads x inp j :=
        ⟨by simp [hrebuild], y, hy, hj, fun l hl => hall l (Nat.zero_le l) hl, hready⟩
      exact ⟨h.succeeds j hreads,
        fun bytes hdata => (max_sd_le_iff hrebuild).mpr (h.small j bytes hreads hdata)⟩

/-- 28 clients connect, with the descriptors 4 to 31. -/
def connecting : List Input := (List.range' 4 28).map connects

variable {tr : List (Server × Input)} {log : Log}

/-- An iteration connects what `accept` returned, at most. -/
theorem connected_subset (h : iterate x inp = some (log, some y)) :
    ∀ fd ∈ y.connected, fd ∈ x.connected ∨ inp.accept = some fd := by
  obtain ⟨_, z, hwelcome, hscan⟩ := iterate_some_cases h
  have hz : ∀ fd ∈ z.connected, fd ∈ x.connected ∨ inp.accept = some fd := by
    intro fd hfd
    rcases welcome_cases hwelcome with ⟨_, hz, _⟩ | ⟨_, _, hz⟩
    · exact .inl (Option.some.inj hz ▸ hfd)
    · obtain ⟨fd', haccept, rfl⟩ := hz z rfl
      rcases Finset.mem_insert.mp hfd with rfl | hfd
      · exact .inr haccept
      · exact .inl hfd
  refine (scanLoop_rule (fun w => ∀ fd ∈ w.connected, fd ∈ x.connected ∨ inp.accept = some fd)
    ?_ z log.events _ hz hscan).1 y rfl
  intro i _ v w es hv hvisit
  rcases visit_some_cases hvisit with ⟨_, rfl, _⟩ | ⟨sd, _, _, ⟨rfl, _⟩ | ⟨_, _, _, rfl, _⟩⟩
  · exact hv
  · exact fun fd hfd => hv fd (Finset.mem_of_mem_erase hfd)
  · exact hv

/-- A kernel that gives out the lowest number that is not open. -/
def Lowest (x : Server) (inp : Input) : Prop := ∀ fd ∈ inp.accept, Finset.range fd ⊆ x.opened

theorem Lowest.le_card (h : Lowest x inp) {fd : ℕ} (hfd : fd ∈ inp.accept) :
    fd ≤ x.opened.card := by
  calc
    fd = (Finset.range fd).card := (Finset.card_range fd).symm
    _ ≤ x.opened.card := Finset.card_le_card (h fd hfd)

/-- **Where the kernel gives out the lowest numbers**, and at most 30 descriptors are open when it
does, all of them stay small. -/
theorem small_of_lowest (h : system.Exec tr x)
    (hinp : ∀ p ∈ tr, Allowed p.1 p.2 ∧ Lowest p.1 p.2 ∧ p.1.opened.card ≤ 30)
    (hmaster : x.master_socket ≤ 30) : Small x := by
  have htable : TableOk x := tableOk h (fun p hp => (hinp p hp).1) x (by simp)
  have hconn : ∀ fd ∈ x.connected, fd ≤ 30 := by
    refine h.invariant (fun y => ∀ fd ∈ y.connected, fd ≤ 30)
      (fun y inp => Allowed y inp ∧ Lowest y inp ∧ y.opened.card ≤ 30) ?_ ?_ hinp
    · intro y hy
      simp [hy.connected]
    · intro y inp z hgood hy hstep fd hfd
      obtain ⟨log, hiterate⟩ := next_eq_some hstep
      rcases connected_subset hiterate fd hfd with hold | hnew
      · exact hy fd hold
      · exact (hgood.2.1.le_card hnew).trans hgood.2.2
  exact ⟨hmaster, fun fd hfd => hconn fd (htable.entries fd hfd)⟩

/-- So few descriptors keep the indices inside of the arrays. -/
theorem inBounds_of_lowest (h : system.Exec tr x)
    (hinp : ∀ p ∈ tr, Allowed p.1 p.2 ∧ Lowest p.1 p.2 ∧ p.1.opened.card ≤ 30)
    (hmaster : x.master_socket ≤ 30) (hread : ∀ i < maxClients, (inp.read i).Ok) :
    ∀ a ∈ accesses x inp, a.InBounds := by
  exact inBounds_of_safe (fun i hi => .inr (hread i hi))
    ((small_of_lowest h hinp hmaster).safe hread)

end SocketPrograms.Chat.Indices
