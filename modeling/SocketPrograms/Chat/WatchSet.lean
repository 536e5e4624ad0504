import SocketPrograms.Chat.TCPServer
import Mathlib.Data.Finset.Dedup
import Mathlib.Order.Bounds.Basic

/-!
# The table and the watch set of the chat server

The table holds descriptors of open connections, each in one slot. The set passed to
`select` is then the listening socket and the entries of the table, and the scan reads
each entry that is ready once: a slot filled after `select` is not ready, and a vacant
slot holds 0, which is never watched.

## Main results

* `TableOk` — the invariant; `TableOk.iterate` — an iteration keeps it.
* `rebuild_cases`, `rebuild_of_small` — the watch set and its maximum.
* `reads_prefix` — what an iteration reads.
* `tableOk` — the invariant, in every run.
-/

namespace SocketPrograms.Chat.TCPServer

variable {x y : Server} {inp : Input} {fds watched : Finset ℕ} {max_sd i : ℕ} {es : List Event}
  {r : Option Server} {log : Log}

/-- The entries of the table are the descriptors of open connections, each once, and
neither the descriptors 0 to 2 nor the listening socket. -/
structure TableOk (x : Server) : Prop where
  master : 2 < x.master_socket
  kept : ∀ fd, fd ≤ 2 ∨ fd = x.master_socket → fd ∈ x.opened ∧ fd ∉ x.connected
  nodup : (x.client_socket.entries 0).Nodup
  entries : ∀ fd ∈ x.client_socket.entries 0, fd ∈ x.connected
  connected : x.connected ⊆ x.opened

theorem Starts.tableOk (hx : Starts x) : TableOk x := by
  refine ⟨hx.master, fun fd hfd => ⟨hx.opened fd hfd, by simp [hx.connected]⟩, ?_, ?_, ?_⟩
  · simp [hx.slots]
  · simp [hx.slots]
  · simp [hx.connected]

/-! ## The table -/

theorem TableOk.ne_zero (hx : TableOk x) {fd : ℕ} (hfd : fd ∉ x.opened) : fd ≠ 0 := by
  rintro rfl
  exact hfd (hx.kept 0 (.inl (by decide))).1

/-- What `accept` returned is put into the table, or is in no slot. -/
theorem TableOk.enroll (hx : TableOk x) {fd : ℕ} (hfd : fd ∉ x.opened) :
    TableOk (enroll x fd) := by
  have hfresh : fd ∉ x.client_socket.entries 0 :=
    fun h => hfd (hx.connected (hx.entries fd h))
  refine ⟨hx.master, fun fd' hfd' => ?_, ?_, fun fd' hfd' => ?_, ?_⟩
  · obtain ⟨hopen, hconn⟩ := hx.kept fd' hfd'
    have hne : fd' ≠ fd := fun h => hfd (h ▸ hopen)
    exact ⟨Finset.mem_insert_of_mem hopen, by simp [TCPServer.enroll, hconn, hne]⟩
  · exact SlotTable.nodup_entries_place (hx.ne_zero hfd) hx.nodup hfresh
  · rcases (SlotTable.mem_entries_place (hx.ne_zero hfd)).mp hfd' with h | ⟨rfl, _⟩
    · exact Finset.mem_insert_of_mem (hx.entries fd' h)
    · exact Finset.mem_insert_self _ _
  · exact Finset.insert_subset_insert fd hx.connected

/-- A descriptor that is closed leaves the table. -/
theorem TableOk.hangUp (hx : TableOk x) {sd : ℕ} (hi : x.client_socket.slots[i]? = some sd)
    (hsd : sd ≠ 0) : TableOk (hangUp x i sd) := by
  have hmem : sd ∈ x.client_socket.entries 0 :=
    SlotTable.mem_entries.mpr ⟨List.mem_of_getElem? hi, hsd⟩
  refine ⟨hx.master, fun fd hfd => ?_, ?_, fun fd hfd => ?_, ?_⟩
  · obtain ⟨hopen, hconn⟩ := hx.kept fd hfd
    have hne : fd ≠ sd := by
      rintro rfl
      exact hconn (hx.entries _ hmem)
    exact ⟨Finset.mem_erase.mpr ⟨hne, hopen⟩, fun h => hconn (Finset.mem_of_mem_erase h)⟩
  · exact SlotTable.nodup_entries_vacate hi hsd hx.nodup
  · obtain ⟨hold, hne⟩ := (SlotTable.mem_entries_vacate hi hsd hx.nodup).mp hfd
    exact Finset.mem_erase.mpr ⟨hne, hx.entries fd hold⟩
  · exact Finset.erase_subset_erase sd hx.connected

/-- The slot that a visit finds ready. -/
theorem slot_of_ready (h0 : 0 ∉ fds) {sd : ℕ} (hsd : sd = x.client_socket.slots[i]?.getD 0)
    (hready : sd ∈ fds) : x.client_socket.slots[i]? = some sd ∧ sd ≠ 0 := by
  have hne : sd ≠ 0 := by
    rintro rfl
    exact h0 hready
  refine ⟨?_, hne⟩
  cases hslot : x.client_socket.slots[i]? with
  | none =>
      rw [hslot] at hsd
      exact absurd hsd hne
  | some fd =>
      rw [hslot] at hsd
      rw [hsd]
      rfl

theorem TableOk.visit (h0 : 0 ∉ fds) (hx : TableOk x)
    (h : visit fds max_sd inp i x = (es, some y)) : TableOk y := by
  rcases visit_some_cases h with ⟨_, rfl, _⟩ | ⟨sd, hsd, hready, hcases⟩
  · exact hx
  · rcases hcases with ⟨rfl, _⟩ | ⟨_, _, _, rfl, _⟩
    · obtain ⟨hi, hne⟩ := slot_of_ready h0 hsd hready
      exact hx.hangUp hi hne
    · exact ⟨hx.master, hx.kept, hx.nodup, hx.entries, hx.connected⟩

/-- The indices that a broadcast for slot `i` sends on. -/
theorem mem_targets_iff (hx : TableOk x) {sd : ℕ} (hi : x.client_socket.slots[i]? = some sd)
    (hsd : sd ≠ 0) {outside : ℕ → ℤ} {j : ℕ} :
    j ∈ targets x max_sd outside sd ↔
      j < max_sd ∧ j ≠ i ∧ (maxClients ≤ j → outside j ≠ sd) := by
  rw [targets, List.mem_filter, List.mem_range, decide_eq_true_iff]
  refine and_congr_right fun _ => ?_
  have hlen : x.client_socket.slots.length = maxClients := x.client_socket.length_slots
  have hlt : i < maxClients := hlen ▸ (List.getElem?_eq_some_iff.mp hi).1
  cases hj : x.client_socket.slots[j]? with
  | none =>
      have hge : maxClients ≤ j := hlen ▸ List.getElem?_eq_none_iff.mp hj
      have hne : j ≠ i := by omega
      simp [slotAt, hge, hne]
  | some s =>
      have hjlt : j < maxClients := hlen ▸ (List.getElem?_eq_some_iff.mp hj).1
      have hslot : s = sd ↔ j = i := by
        constructor
        · rintro rfl
          exact SlotTable.slot_unique hsd hx.nodup hj hi
        · rintro rfl
          exact Option.some.inj (hj.symm.trans hi)
      have hat : slotAt x outside j = s := by
        rw [slotAt, hj]
        rfl
      rw [hat, ne_eq, Int.natCast_inj, hslot]
      simp [hjlt]

/-! ## The watch set -/

/-- The listening socket and the entries of the table. -/
def watchSet (x : Server) : Finset ℕ :=
  insert x.master_socket (x.client_socket.entries 0).toFinset

/-- What `select` leaves in the set. -/
def readfds (x : Server) (inp : Input) : Finset ℕ := inp.select.getD (watchSet x)

/-- The descriptors that an iteration reads, in order. -/
def reads (x : Server) (inp : Input) : List ℕ :=
  ((iterate x inp).map fun p => p.1.events.map Event.sd).getD []

theorem mem_watchSet {fd : ℕ} :
    fd ∈ watchSet x ↔ fd = x.master_socket ∨ fd ∈ x.client_socket.entries 0 := by
  rw [watchSet, Finset.mem_insert, List.mem_toFinset]

theorem watch_of_lt {p : Finset ℕ × ℕ} {sd : ℕ} (hlt : sd < fdSetSize) :
    watch p sd =
      some (if 0 < sd then insert sd p.1 else p.1, if p.2 < sd then sd else p.2) := by
  by_cases hpos : 0 < sd <;> simp [watch, fdSet, hpos, hlt]

theorem lt_of_watch {p q : Finset ℕ × ℕ} {sd : ℕ} (h : watch p sd = some q) : sd < fdSetSize := by
  by_contra hge
  have hpos : 0 < sd := by
    have : ¬ sd < 1024 := hge
    omega
  simp [watch, fdSet, hpos, hge] at h

theorem isGreatest_watch {p q : Finset ℕ × ℕ} {sd : ℕ} (hwatch : watch p sd = some q)
    (h : IsGreatest (↑p.1 : Set ℕ) p.2) : IsGreatest (↑q.1 : Set ℕ) q.2 := by
  rw [watch_of_lt (lt_of_watch hwatch)] at hwatch
  obtain rfl := Option.some.inj hwatch
  obtain ⟨hmem, hle⟩ := h
  by_cases hlt : p.2 < sd
  · have hpos : 0 < sd := by omega
    refine ⟨by simp [hpos, hlt], fun fd hfd => ?_⟩
    rcases (by simpa [hpos] using hfd : fd = sd ∨ fd ∈ p.1) with rfl | hfd
    · simp [hlt]
    · have : fd ≤ p.2 := hle hfd
      simp only [hlt, if_true]
      omega
  · by_cases hpos : 0 < sd
    · refine ⟨by simpa [hpos, hlt] using .inr hmem, fun fd hfd => ?_⟩
      rcases (by simpa [hpos] using hfd : fd = sd ∨ fd ∈ p.1) with rfl | hfd
      · simp only [hlt, if_false]
        omega
      · simpa [hlt] using hle hfd
    · simpa [hpos, hlt] using ⟨hmem, hle⟩

theorem mem_watch {p q : Finset ℕ × ℕ} {sd fd : ℕ} (hwatch : watch p sd = some q) :
    fd ∈ q.1 ↔ fd ∈ p.1 ∨ (fd = sd ∧ fd ≠ 0) := by
  rw [watch_of_lt (lt_of_watch hwatch)] at hwatch
  obtain rfl := Option.some.inj hwatch
  by_cases hpos : 0 < sd
  · simp only [hpos, if_true, Finset.mem_insert]
    constructor
    · rintro (rfl | h)
      · exact .inr ⟨rfl, by omega⟩
      · exact .inl h
    · rintro (h | ⟨rfl, _⟩)
      · exact .inr h
      · exact .inl rfl
  · obtain rfl : sd = 0 := by omega
    simp only [Nat.lt_irrefl, if_false]
    constructor
    · exact .inl
    · rintro (h | ⟨rfl, hne⟩)
      · exact h
      · exact absurd rfl hne

/-- The loop over the slots. -/
theorem foldlM_watch (slots : List ℕ) :
    ∀ p q : Finset ℕ × ℕ, slots.foldlM watch p = some q →
      (∀ fd, fd ∈ q.1 ↔ fd ∈ p.1 ∨ (fd ∈ slots ∧ fd ≠ 0)) ∧ (∀ fd ∈ slots, fd < fdSetSize) ∧
        (IsGreatest (↑p.1 : Set ℕ) p.2 → IsGreatest (↑q.1 : Set ℕ) q.2) := by
  induction slots with
  | nil =>
      intro p q h
      obtain rfl : p = q := Option.some.inj h
      simp
  | cons sd slots ih =>
      intro p q h
      rw [List.foldlM_cons] at h
      obtain ⟨p', hwatch, hrest⟩ := Option.bind_eq_some_iff.mp h
      obtain ⟨hmem, hsmall, hmax⟩ := ih p' q hrest
      refine ⟨fun fd => ?_, ?_, fun hp => hmax (isGreatest_watch hwatch hp)⟩
      · rw [hmem fd, mem_watch hwatch, List.mem_cons, or_assoc, or_and_right]
      · exact List.forall_mem_cons.mpr ⟨lt_of_watch hwatch, hsmall⟩

/-- **The set passed to `select`** is the listening socket and the entries of the table,
`max_sd` is its maximum, and all of them fit into it. -/
theorem rebuild_cases (h : rebuild x = some (watched, max_sd)) :
    watched = watchSet x ∧ IsGreatest (↑watched : Set ℕ) max_sd ∧
      ∀ fd ∈ watched, fd < fdSetSize := by
  obtain ⟨readfds, hset, hloop⟩ := Option.bind_eq_some_iff.mp h
  rw [fdSet] at hset
  split at hset
  · next hmaster =>
    obtain rfl := Option.some.inj hset
    obtain ⟨hmem, hsmall, hmax⟩ := foldlM_watch _ _ _ hloop
    have heq : watched = watchSet x := by
      ext fd
      rw [hmem, mem_watchSet, SlotTable.mem_entries]
      simp
    refine ⟨heq, hmax (by simp), fun fd hfd => ?_⟩
    rcases mem_watchSet.mp (heq ▸ hfd) with rfl | hentry
    · exact hmaster
    · exact hsmall fd (SlotTable.mem_entries.mp hentry).1
  · cases hset

/-- What `select` may report is the listening socket or an entry. -/
theorem ready_subset (hinp : Allowed x inp) (h : rebuild x = some (watched, max_sd)) :
    inp.select.getD watched ⊆ watchSet x := by
  obtain ⟨rfl, _⟩ := rebuild_cases h
  cases hselect : inp.select with
  | none => exact Finset.Subset.refl _
  | some ready => exact hinp.select ready hselect _ h

theorem zero_notMem_ready (hx : TableOk x) (hinp : Allowed x inp)
    (h : rebuild x = some (watched, max_sd)) : 0 ∉ inp.select.getD watched := by
  intro h0
  rcases mem_watchSet.mp (ready_subset hinp h h0) with hmaster | hentry
  · have := hx.master
    omega
  · exact (SlotTable.mem_entries.mp hentry).2 rfl

theorem TableOk.scanLoop (h0 : 0 ∉ fds) (hx : TableOk x) {is : List ℕ}
    (h : scanLoop fds max_sd inp is x = (es, r)) :
    (∀ y ∈ r, TableOk y) ∧
      ∀ e ∈ es, ∃ i ∈ is, ∃ z, TableOk z ∧ e ∈ (TCPServer.visit fds max_sd inp i z).1 :=
  scanLoop_rule TableOk (fun _ _ _ _ _ hx hvisit => hx.visit h0 hvisit) x es r hx h

/-! ## An iteration -/

/-- The table the scan starts from is in order. -/
theorem TableOk.welcome {accepted : Option ℕ} (hx : TableOk x) (hinp : Allowed x inp)
    (h : welcome fds inp x = (accepted, some y)) : TableOk y := by
  rcases welcome_cases h with ⟨_, hy, _⟩ | ⟨_, _, hy⟩
  · exact Option.some.inj hy ▸ hx
  · obtain ⟨fd, hfd, rfl⟩ := hy y rfl
    exact hx.enroll (hinp.accept fd hfd)

theorem TableOk.iterate (hx : TableOk x) (hinp : Allowed x inp)
    (h : iterate x inp = some (log, some y)) : TableOk y := by
  obtain ⟨hrebuild, z, hwelcome, hscan⟩ := iterate_some_cases h
  exact ((hx.welcome hinp hwelcome).scanLoop (zero_notMem_ready hx hinp hrebuild) hscan).1 y rfl

variable {tr : List (Server × Input)}

theorem tableOk (h : system.Exec tr x) (hinp : ∀ p ∈ tr, Allowed p.1 p.2) :
    ∀ y ∈ System.visited tr x, TableOk y := by
  refine h.always TableOk Allowed (fun _ => Starts.tableOk) ?_ hinp
  intro x inp y hallowed hx hstep
  obtain ⟨log, hiterate⟩ := next_eq_some hstep
  exact hx.iterate hallowed hiterate

/-- A server at its start, with descriptor 3 for the listening socket. -/
def atStart : Server := ⟨3, .blank maxClients 0, .fillWith 1025 0, {0, 1, 2, 3}, ∅⟩

theorem atStart_starts : Starts atStart where
  master := by decide
  slots := rfl
  opened := by
    intro fd hfd
    have hfd : fd ≤ 2 ∨ fd = 3 := hfd
    have : fd = 0 ∨ fd = 1 ∨ fd = 2 ∨ fd = 3 := by omega
    simpa [atStart] using this
  connected := rfl

/-- An iteration in which `accept` returns `fd`. -/
def connects (fd : ℕ) : Input :=
  ⟨some {3}, some fd, true, fun _ => .closed, fun _ _ => true, fun _ _ => 0⟩

/-- An iteration in which the client on `sd` has sent these bytes, and each `send` returns. -/
def talks (sd : ℕ) (bytes : List Byte) : Input :=
  ⟨some {sd}, none, true, fun _ => .data bytes, fun _ _ => true, fun _ _ => 0⟩

/-- An iteration in which the client on `sd` has closed. -/
def leaves (sd : ℕ) : Input :=
  ⟨some {sd}, none, true, fun _ => .closed, fun _ _ => true, fun _ _ => 0⟩

end SocketPrograms.Chat.TCPServer
