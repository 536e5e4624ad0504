import SocketPrograms.Chat.WatchSet

/-!
# The chat server after a failed select

Where `select` fails, `TCPServer.c` prints a message at most, and goes on as if every descriptor
that it had passed were ready: it calls `accept`, and then reads from each client.

## Main results

* `accepted_of_failed` — a failed `select` leaves the listening socket in the set.
* `entries_read` — each client in the table is read.
* `never_without_effect` — no iteration with a failed `select` is without effect.
-/

namespace SocketPrograms.Chat.FailedSelect

open TCPServer

/-- The iteration calls `accept`, `read`, `send` and `close` on no descriptor, and leaves the server
as it was. -/
def NoEffect (x : Server) (inp : Input) : Prop :=
  ∃ log, iterate x inp = some (log, some x) ∧ log.accepted = none ∧ log.events = []

variable {x y : Server} {inp : Input} {fds : Finset ℕ} {max_sd i : ℕ} {es : List Event}
  {log : Log} {r : Option Server}

/-- A failed `select` leaves the set as it was passed. -/
theorem readfds_of_failed (h : inp.select = none)
    (hrebuild : rebuild x = some (log.watched, log.max_sd)) :
    inp.select.getD log.watched = watchSet x := by
  rw [h, Option.getD_none]
  exact (rebuild_cases hrebuild).1

/-! ## The listening socket -/

/-- `accept` is called, and the program ends where that fails. -/
theorem accepted_of_failed (h : inp.select = none) (hiterate : iterate x inp = some (log, r)) :
    log.accepted = inp.accept ∧ (inp.accept = none → r = none) := by
  obtain ⟨hrebuild, hcases⟩ := iterate_cases hiterate
  have hready : x.master_socket ∈ inp.select.getD log.watched := by
    rw [readfds_of_failed h hrebuild]
    exact mem_watchSet.mpr (.inl rfl)
  obtain ⟨q, hwelcome, hq⟩ : ∃ q, welcome (inp.select.getD log.watched) inp x = (log.accepted, q) ∧
      (q = none → r = none) := by
    rcases hcases with ⟨hwelcome, _, hended⟩ | ⟨z, hwelcome, _⟩
    · exact ⟨none, hwelcome, fun _ => hended⟩
    · exact ⟨some z, hwelcome, nofun⟩
  rcases welcome_cases hwelcome with ⟨hnot, _⟩ | ⟨_, haccepted, hz⟩
  · exact absurd hready hnot
  · refine ⟨haccepted, fun hnone => hq ?_⟩
    refine Option.eq_none_iff_forall_not_mem.mpr fun y hy => ?_
    obtain ⟨fd, hfd, _⟩ := hz y hy
    cases hnone.symm.trans hfd

/-! ## The clients -/

/-- A scan that the process outlives reads each slot that is ready. -/
theorem scanLoop_of_ready (k : ℕ) :
    ∀ (i : ℕ) (x y : Server) (es : List Event),
      scanLoop fds max_sd inp (List.range' i k) x = (es, some y) →
      ∀ fd ∈ fds, ∀ j < i + k, i ≤ j → x.client_socket.slots[j]? = some fd →
        fd ∈ es.map Event.sd := by
  induction k with
  | zero =>
      intro i x y es _ fd _ j hlt hle
      omega
  | succ k ih =>
      intro i x y es h fd hfd j hlt hle hslot
      rcases scanLoop_cases h with ⟨_, hended⟩ | ⟨z, es₁, es₂, hz, hrest, rfl⟩
      · cases hended
      · rw [List.map_append, List.mem_append]
        by_cases hj : j = i
        · exact .inl ((visit_of_ready hz).1 fd hfd (hj ▸ hslot))
        · right
          apply ih (i + 1) z y es₂ hrest fd hfd j (by omega) (by omega)
          rw [visit_later hz (by omega), hslot]

/-- **Each client in the table is read** after a failed `select`. -/
theorem entries_read (h : inp.select = none) (hiterate : iterate x inp = some (log, some y)) :
    ∀ fd ∈ x.client_socket.entries 0, fd ∈ log.events.map Event.sd := by
  intro fd hfd
  obtain ⟨hslot, hne⟩ := SlotTable.mem_entries.mp hfd
  obtain ⟨hrebuild, z, hwelcome, hscan⟩ := iterate_some_cases hiterate
  obtain ⟨j, hj⟩ := List.mem_iff_getElem?.mp hslot
  have hlt : j < maxClients := by
    have := (List.getElem?_eq_some_iff.mp hj).1
    rwa [SlotTable.length_slots] at this
  have hready : fd ∈ inp.select.getD log.watched := by
    rw [readfds_of_failed h hrebuild]
    exact mem_watchSet.mpr (.inr hfd)
  -- a connection that was accepted is put into another slot
  have hstays : z.client_socket.slots[j]? = some fd := by
    rcases welcome_cases hwelcome with ⟨_, hz, _⟩ | ⟨_, _, hz⟩
    · rwa [Option.some.inj hz]
    · obtain ⟨_, _, rfl⟩ := hz z rfl
      exact SlotTable.getElem?_placeIn hne hj
  exact scanLoop_of_ready maxClients 0 z y log.events hscan fd hready j (by omega)
    (Nat.zero_le j) hstays

/-! ## The server -/

/-- **No failed `select` is without effect**, in any run: from every state reached, whatever
`accept` and the reads return, the iteration calls `accept`, and where it does not end the program
it has accepted a connection and read every client in the table. Where a descriptor does not fit
into the set, the iteration is undefined before `select` is called. -/
theorem never_without_effect :
    ∀ (tr : List (Server × Input)) (x : Server), system.Exec tr x →
      ∀ y ∈ System.visited tr x, ∀ inp : Input, inp.select = none →
        ¬ NoEffect y inp ∧
          (∀ log r, iterate y inp = some (log, r) →
            log.accepted = inp.accept ∧ (inp.accept = none → r = none)) ∧
          ∀ log z, iterate y inp = some (log, some z) →
            (∃ fd ∈ inp.accept, log.accepted = some fd) ∧
              ∀ fd ∈ y.client_socket.entries 0, fd ∈ log.events.map Event.sd := by
  intro tr x _ y _ inp hselect
  have haccepts : ∀ log z, iterate y inp = some (log, some z) →
      ∃ fd ∈ inp.accept, log.accepted = some fd := by
    intro log z hiterate
    obtain ⟨haccepted, hended⟩ := accepted_of_failed hselect hiterate
    obtain ⟨fd, hfd⟩ := Option.ne_none_iff_exists'.mp fun hnone => nomatch hended hnone
    exact ⟨fd, hfd, haccepted.trans hfd⟩
  refine ⟨?_, fun log r => accepted_of_failed hselect, fun log z hiterate =>
    ⟨haccepts log z hiterate, entries_read hselect hiterate⟩⟩
  rintro ⟨log, hiterate, hnone, _⟩
  obtain ⟨fd, _, haccepted⟩ := haccepts log y hiterate
  cases hnone.symm.trans haccepted

/-- An iteration in which `select` fails and `accept` returns 4. -/
def interrupted : Input :=
  ⟨none, some 4, true, fun _ => .closed, fun _ _ => true, fun _ _ => 0⟩

/-- A server that has no client yet. -/
theorem never_without_effect_start : ¬ NoEffect atStart interrupted :=
  (never_without_effect [] atStart (.start atStart_starts) atStart (by simp) interrupted rfl).1

/-- The server that has no client yet accepts one. -/
theorem failed_select_accepts :
    ¬ ∀ (tr : List (Server × Input)) (x : Server), system.Exec tr x →
      ∀ inp : Input, inp.select = none → NoEffect x inp := by
  intro hnoEffect
  obtain ⟨log, hiterate, hnone, _⟩ :=
    hnoEffect [] atStart (.start atStart_starts) interrupted rfl
  have haccepted : (iterate atStart interrupted).map (fun p => p.1.accepted) = some (some 4) := by
    decide +kernel
  rw [hiterate, Option.map_some, hnone] at haccepted
  cases haccepted

end SocketPrograms.Chat.FailedSelect
