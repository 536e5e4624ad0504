import SocketPrograms.Chat.WatchSet

/-!
# The connections the chat server forgets

A connection that `accept` returned is put into the first vacant slot. Where no slot is
vacant the server sends the welcome text and keeps the descriptor nowhere: the connection
stays open and is never watched. Nothing else takes a connection out of the table but the
end of the connection.

## Main results

* `iterate_forgotten` — what an iteration forgets.
* `remembered_iff` — in a run no connection is forgotten exactly where no connection was
  accepted into a full table.
-/

namespace SocketPrograms.Chat.TCPServer

variable {x y : Server} {inp : Input} {fds : Finset ℕ} {max_sd i : ℕ} {es : List Event}
  {log : Log}

/-- An open connection that is in no slot. -/
def Forgotten (x : Server) (fd : ℕ) : Prop :=
  fd ∈ x.connected ∧ fd ∉ x.client_socket.slots

theorem forgotten_iff_entries (hx : TableOk x) {fd : ℕ} :
    Forgotten x fd ↔ fd ∈ x.connected ∧ fd ∉ x.client_socket.entries 0 := by
  rw [Forgotten, SlotTable.mem_entries]
  constructor
  · rintro ⟨hconn, hslot⟩
    exact ⟨hconn, fun h => hslot h.1⟩
  · rintro ⟨hconn, hentry⟩
    refine ⟨hconn, fun hslot => hentry ⟨hslot, ?_⟩⟩
    rintro rfl
    exact (hx.kept 0 (.inl (by decide))).2 hconn

/-- What is forgotten when a connection is accepted. -/
theorem enroll_forgotten (hx : TableOk x) {fd : ℕ} (hfd : fd ∉ x.opened) {fd' : ℕ} :
    Forgotten (enroll x fd) fd' ↔
      Forgotten x fd' ∨ (fd' = fd ∧ x.client_socket.Full 0) := by
  rw [forgotten_iff_entries (hx.enroll hfd), forgotten_iff_entries hx]
  have hfresh : fd ∉ x.client_socket.entries 0 :=
    fun h => hfd (hx.connected (hx.entries fd h))
  have hmem := SlotTable.mem_entries_place (t := x.client_socket) (hx.ne_zero hfd) (b := fd')
  simp only [enroll, Finset.mem_insert, hmem]
  constructor
  · rintro ⟨rfl | hconn, hnot⟩
    · exact .inr ⟨rfl, by_contra fun hroom => hnot (.inr ⟨rfl, hroom⟩)⟩
    · exact .inl ⟨hconn, fun h => hnot (.inl h)⟩
  · rintro (⟨hconn, hnot⟩ | ⟨rfl, hfull⟩)
    · refine ⟨.inr hconn, ?_⟩
      rintro (h | ⟨rfl, _⟩)
      · exact hnot h
      · exact hfd (hx.connected hconn)
    · refine ⟨.inl rfl, ?_⟩
      rintro (h | ⟨_, hroom⟩)
      · exact hfresh h
      · exact hroom hfull

/-- A connection that ends was in the table; the others are where they were. -/
theorem hangUp_forgotten (hx : TableOk x) {sd : ℕ} (hi : x.client_socket.slots[i]? = some sd)
    (hsd : sd ≠ 0) {fd : ℕ} : Forgotten (hangUp x i sd) fd ↔ Forgotten x fd := by
  rw [forgotten_iff_entries (hx.hangUp hi hsd), forgotten_iff_entries hx]
  have hmem : sd ∈ x.client_socket.entries 0 :=
    SlotTable.mem_entries.mpr ⟨List.mem_of_getElem? hi, hsd⟩
  simp only [hangUp, Finset.mem_erase, SlotTable.mem_entries_vacate hi hsd hx.nodup]
  constructor
  · rintro ⟨⟨hne, hconn⟩, hnot⟩
    exact ⟨hconn, fun h => hnot ⟨h, hne⟩⟩
  · rintro ⟨hconn, hnot⟩
    refine ⟨⟨?_, hconn⟩, fun h => hnot h.1⟩
    rintro rfl
    exact hnot hmem

theorem visit_forgotten (h0 : 0 ∉ fds) (hx : TableOk x)
    (h : visit fds max_sd inp i x = (es, some y)) {fd : ℕ} : Forgotten y fd ↔ Forgotten x fd := by
  rcases visit_some_cases h with ⟨_, rfl, _⟩ | ⟨sd, hsd, hready, hcases⟩
  · rfl
  · rcases hcases with ⟨rfl, _⟩ | ⟨_, _, _, rfl, _⟩
    · obtain ⟨hi, hne⟩ := slot_of_ready h0 hsd hready
      exact hangUp_forgotten hx hi hne
    · rfl

/-- **What an iteration forgets** is the connection it accepted into a full table. -/
theorem iterate_forgotten (hx : TableOk x) (hinp : Allowed x inp)
    (h : iterate x inp = some (log, some y)) {fd : ℕ} :
    Forgotten y fd ↔ Forgotten x fd ∨ (log.accepted = some fd ∧ x.client_socket.Full 0) := by
  obtain ⟨hrebuild, z, hwelcome, hscan⟩ := iterate_some_cases h
  have h0 := zero_notMem_ready hx hinp hrebuild
  have hscanned : TableOk y ∧ (Forgotten y fd ↔ Forgotten z fd) := by
    refine (scanLoop_rule (fun w => TableOk w ∧ (Forgotten w fd ↔ Forgotten z fd)) ?_
      z log.events _ ⟨hx.welcome hinp hwelcome, Iff.rfl⟩ hscan).1 y rfl
    rintro i _ v w es ⟨hv, hiff⟩ hvisit
    exact ⟨hv.visit h0 hvisit, (visit_forgotten h0 hv hvisit).trans hiff⟩
  rw [hscanned.2]
  rcases welcome_cases hwelcome with ⟨_, hz, haccepted⟩ | ⟨_, haccepted, hz⟩
  · rw [Option.some.inj hz]
    simp [haccepted]
  · obtain ⟨fd', hfd', rfl⟩ := hz z rfl
    rw [enroll_forgotten hx (hinp.accept fd' hfd'), haccepted, hfd', Option.some.injEq, eq_comm]

/-- An iteration in which `accept` is called starts with a vacant slot. -/
def HasRoom (x : Server) (inp : Input) : Prop :=
  x.master_socket ∈ readfds x inp → ¬x.client_socket.Full 0

instance (x : Server) (inp : Input) : Decidable (HasRoom x inp) :=
  inferInstanceAs (Decidable (_ → _))

/-- An iteration that the process outlives has accepted a connection exactly where the listening
socket was in the set. -/
theorem ready_iff_accepted (h : iterate x inp = some (log, some y)) :
    x.master_socket ∈ readfds x inp ↔ ∃ fd, log.accepted = some fd := by
  obtain ⟨hrebuild, z, hwelcome, _⟩ := iterate_some_cases h
  rw [(rebuild_cases hrebuild).1] at hwelcome
  rcases welcome_cases hwelcome with ⟨hnot, _, hnone⟩ | ⟨hready, haccepted, hz⟩
  · exact iff_of_false hnot (by simp [hnone])
  · obtain ⟨fd, hfd, _⟩ := hz z rfl
    exact iff_of_true hready ⟨fd, haccepted.trans hfd⟩

/-- **No connection is forgotten at any loop head exactly where no connection was accepted
into a full table.** -/
theorem remembered_iff (tr : List (Server × Input)) (x : Server) (h : system.Exec tr x)
    (hinp : ∀ p ∈ tr, Allowed p.1 p.2) :
    (∀ y ∈ System.visited tr x, ∀ fd ∈ y.connected, fd ∈ y.client_socket.slots) ↔
      ∀ p ∈ tr, HasRoom p.1 p.2 := by
  constructor
  · intro hall p hp hready hfull
    obtain ⟨y, hstep, hfrom, hto⟩ := h.step_of_mem p hp
    obtain ⟨log, hiterate⟩ := next_eq_some hstep
    obtain ⟨fd, haccepted⟩ := (ready_iff_accepted hiterate).mp hready
    have hforgotten : Forgotten y fd :=
      (iterate_forgotten (tableOk h hinp _ hfrom) (hinp p hp) hiterate).mpr
        (.inr ⟨haccepted, hfull⟩)
    exact hforgotten.2 (hall y hto fd hforgotten.1)
  · intro hroom y hy fd hconn
    have hinv : TableOk y ∧ ∀ fd, ¬Forgotten y fd := by
      refine h.always (fun y => TableOk y ∧ ∀ fd, ¬Forgotten y fd)
        (fun x inp => Allowed x inp ∧ HasRoom x inp) ?_ ?_
        (fun p hp => ⟨hinp p hp, hroom p hp⟩) y hy
      · intro x h0
        refine ⟨h0.tableOk, fun fd hfd => ?_⟩
        have hmem := hfd.1
        rw [h0.connected] at hmem
        simp at hmem
      · rintro x inp y ⟨hallowed, hroom⟩ ⟨hx, hnone⟩ hstep
        obtain ⟨log, hiterate⟩ := next_eq_some hstep
        refine ⟨hx.iterate hallowed hiterate, fun fd hfd => ?_⟩
        rcases (iterate_forgotten hx hallowed hiterate).mp hfd with hold | ⟨haccepted, hfull⟩
        · exact hnone fd hold
        · exact hroom ((ready_iff_accepted hiterate).mpr ⟨fd, haccepted⟩) hfull
    by_contra hslot
    exact hinv.2 fd ⟨hconn, hslot⟩

/-- Two connections, a message and an end of connection. -/
theorem remembered_iff_two :
    ∃ tr x, system.Exec tr x ∧ x.client_socket.entries 0 = [5] ∧
      ∀ y ∈ System.visited tr x, ∀ fd ∈ y.connected, fd ∈ y.client_socket.slots := by
  have hrun : (System.replay next atStart
      [connects 4, connects 5, talks 4 (ascii "hi\n"), leaves 4]).map
        (fun p => (p.2.client_socket.entries 0,
          decide (∀ q ∈ p.1, Allowed q.1 q.2 ∧ HasRoom q.1 q.2))) =
      some ([5], true) := by decide +kernel
  obtain ⟨tr, x, hexec, hx⟩ := System.exec_of_replay atStart_starts hrun
  obtain ⟨hentries, hgood⟩ := Prod.mk.inj hx
  have hgood : ∀ q ∈ tr, Allowed q.1 q.2 ∧ HasRoom q.1 q.2 := of_decide_eq_true hgood
  exact ⟨tr, x, hexec, hentries,
    (remembered_iff tr x hexec fun p hp => (hgood p hp).1).mpr fun p hp => (hgood p hp).2⟩

/-- Of 31 clients that connect the last is in no slot. -/
theorem last_of_31_forgotten :
    ¬ ∀ (tr : List (Server × Input)) (x : Server), system.Exec tr x →
      (∀ p ∈ tr, Allowed p.1 p.2) → ∀ fd ∈ x.connected, fd ∈ x.client_socket.slots := by
  intro hremembered
  have hrun : (System.replay next atStart ((List.range' 4 31).map connects)).map
        (fun p => (decide (34 ∈ p.2.connected), decide (34 ∈ p.2.client_socket.slots),
          decide (∀ q ∈ p.1, Allowed q.1 q.2))) =
      some (true, false, true) := by decide +kernel
  obtain ⟨tr, x, hexec, hx⟩ := System.exec_of_replay atStart_starts hrun
  obtain ⟨hconn, hrest⟩ := Prod.mk.inj hx
  obtain ⟨hslot, hallowed⟩ := Prod.mk.inj hrest
  have hmem := hremembered tr x hexec (of_decide_eq_true hallowed) 34 (of_decide_eq_true hconn)
  exact of_decide_eq_false hslot hmem

end SocketPrograms.Chat.TCPServer
