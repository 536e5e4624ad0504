import SocketPrograms.Chat.WatchSet

/-!
# Whom the chat server sends to

The broadcast loop runs an index up to the largest descriptor number, compares the slot at
that index with the sender, and sends on the index itself. At most one slot holds the
sender and at least the indices 0 and 1 are visited, so every message goes to the standard
input or output of the server; it goes to a client only by chance. A broadcast in which a send
ends the process has called it.

## Main results

* `event_spec` — what each message of a run is and where it goes.
* `never_reaches_others` — no message is sent exactly to the other clients.
-/

namespace SocketPrograms.Chat.TCPServer

variable {x y : Server} {inp : Input} {tr : List (Server × Input)}

/-- What a message of the scan is: the text of one read from a slot, sent on the indices
whose slots do not hold the sender. -/
def Event.Spec : Event → Prop
  | .closed _ => True
  | .message sd bytes text ts connected =>
      1 ≤ bytes.length ∧ bytes.length ≤ 1024 ∧ text = cstr bytes ∧
        ∃ (z : Server) (i max_sd : ℕ) (outside : ℕ → ℤ) (sent : ℕ → Bool), TableOk z ∧ sd ≠ 0 ∧
          z.client_socket.slots[i]? = some sd ∧ 2 < max_sd ∧
          ts = called sent (targets z max_sd outside sd) ∧ connected = z.connected

theorem visit_spec {fds : Finset ℕ} {max_sd i : ℕ} (h0 : 0 ∉ fds) (hmax : 2 < max_sd)
    (hread : (inp.read i).Ok) (hx : TableOk x) : ∀ e ∈ (visit fds max_sd inp i x).1, e.Spec := by
  intro e he
  cases hvisit : visit fds max_sd inp i x with
  | mk es r =>
    rw [hvisit] at he
    rcases visit_cases hread hvisit with ⟨_, _, rfl⟩ | ⟨_, _, rfl⟩ | ⟨sd, hsd, hready, hcases⟩
    · simp at he
    · simp at he
    · obtain ⟨hi, hne⟩ := slot_of_ready h0 hsd hready
      rcases hcases with ⟨_, _, rfl⟩ | ⟨bytes, _, _, hpos, hlen, _, rfl⟩
      · rw [List.mem_singleton.mp he]
        trivial
      · rw [List.mem_singleton.mp he]
        exact ⟨hpos, hlen, rfl, x, i, max_sd, inp.outside i, inp.sent i, hx, hne, hi, hmax,
          rfl, rfl⟩

theorem iterate_spec {log : Log} {r : Option Server} (hx : TableOk x) (hinp : Allowed x inp)
    (h : iterate x inp = some (log, r)) : ∀ e ∈ log.events, e.Spec := by
  obtain ⟨hrebuild, ⟨_, hnone, _⟩ | ⟨z, hwelcome, hscan⟩⟩ := iterate_cases h
  · simp [hnone]
  · obtain ⟨hwatched, hgreatest, _⟩ := rebuild_cases hrebuild
    have hmax : 2 < log.max_sd := by
      refine lt_of_lt_of_le hx.master (hgreatest.2 ?_)
      rw [hwatched]
      exact mem_watchSet.mpr (.inl rfl)
    have h0 := zero_notMem_ready hx hinp hrebuild
    intro e he
    obtain ⟨i, hi, w, hw, he⟩ := ((hx.welcome hinp hwelcome).scanLoop h0 hscan).2 e he
    exact visit_spec h0 hmax (hinp.read i (by simpa using hi)) hw e he

/-- **What each message is**, where the table is in order. -/
theorem events_spec {ps : List (Server × Input)} (h : ∀ p ∈ ps, TableOk p.1 ∧ Allowed p.1 p.2) :
    ∀ e ∈ events ps, e.Spec := by
  intro e he
  obtain ⟨p, hp, he⟩ := List.mem_flatMap.mp he
  cases hiterate : iterate p.1 p.2 with
  | none => simp [hiterate] at he
  | some q =>
      obtain ⟨log, r⟩ := q
      rw [hiterate] at he
      exact iterate_spec (h p hp).1 (h p hp).2 hiterate e he

/-- **What each message of a run is.** -/
theorem event_spec (h : system.Exec tr x) (hinp : ∀ p ∈ tr, Allowed p.1 p.2) :
    ∀ e ∈ events tr, e.Spec :=
  events_spec fun p hp =>
    ⟨tableOk h hinp p.1 (System.mem_visited.mpr (.inl ⟨p.2, hp⟩)), hinp p hp⟩

/-- The iteration that the server is in included. -/
theorem event_spec_snoc (h : system.Exec tr x) (hinp : ∀ p ∈ tr ++ [(x, inp)], Allowed p.1 p.2) :
    ∀ e ∈ events (tr ++ [(x, inp)]), e.Spec := by
  have htable := tableOk h fun p hp => hinp p (List.mem_append_left _ hp)
  exact events_spec fun p hp => ⟨htable p.1 (System.fst_mem_visited hp), hinp p hp⟩

/-- A message is sent once to each other client, and to nothing else. -/
def ReachesOthers (sd : ℕ) (ts : List ℕ) (connected : Finset ℕ) : Prop :=
  ts.Nodup ∧ ∀ fd, fd ∈ ts ↔ fd ∈ connected ∧ fd ≠ sd

/-- The first descriptor that a broadcast sends on is 0 or 1. -/
theorem targets_cons (hx : TableOk x) {i sd max_sd : ℕ} (hi : x.client_socket.slots[i]? = some sd)
    (hsd : sd ≠ 0) (hmax : 2 < max_sd) (outside : ℕ → ℤ) :
    ∃ js, targets x max_sd outside sd = 0 :: js ∨ targets x max_sd outside sd = 1 :: js := by
  obtain ⟨k, rfl⟩ : ∃ k, max_sd = k + 2 := ⟨max_sd - 2, by omega⟩
  have hmem : ∀ j < 2, slotAt x outside j ≠ sd ↔ j ≠ i := by
    intro j hj
    have htarget : j ∈ targets x (k + 2) outside sd ↔
        j < k + 2 ∧ j ≠ i ∧ (maxClients ≤ j → outside j ≠ sd) := mem_targets_iff hx hi hsd
    rw [targets, List.mem_filter, List.mem_range, decide_eq_true_iff] at htarget
    have hlt : j < k + 2 := by omega
    have hin : ¬ maxClients ≤ j := by
      have : ¬ 30 ≤ j := by omega
      exact this
    simpa [hlt, hin] using htarget
  rw [targets, List.range_eq_range', List.range'_succ, List.range'_succ, List.filter_cons]
  by_cases h0 : i = 0
  · have hne : slotAt x outside 0 = sd := not_not.mp fun h => (hmem 0 (by decide)).mp h h0.symm
    have h1 : slotAt x outside (0 + 1) ≠ sd := (hmem 1 (by decide)).mpr (by omega)
    rw [if_neg (by simp [hne]), List.filter_cons, if_pos (decide_eq_true h1)]
    exact ⟨_, .inr rfl⟩
  · have hne : slotAt x outside 0 ≠ sd := (hmem 0 (by decide)).mpr fun h => h0 h.symm
    rw [if_pos (decide_eq_true hne)]
    exact ⟨_, .inl rfl⟩

/-- **No message of any run is sent exactly to the other clients**: each is sent on descriptor 0 or
1 of the server. The iteration that the server is in is included, also where a send ends it. -/
theorem never_reaches_others (tr : List (Server × Input)) (x : Server) (h : system.Exec tr x)
    (inp : Input) (hinp : ∀ p ∈ tr ++ [(x, inp)], Allowed p.1 p.2) (sd : ℕ)
    (bytes text : List Byte) (ts : List ℕ) (connected : Finset ℕ)
    (hmessage : .message sd bytes text ts connected ∈ events (tr ++ [(x, inp)])) :
    (0 ∈ ts ∨ 1 ∈ ts) ∧ ¬ReachesOthers sd ts connected := by
  obtain ⟨_, _, _, z, i, max_sd, outside, sent, hz, hne, hi, hmax, rfl, rfl⟩ :=
    event_spec_snoc h hinp _ hmessage
  have hstdio : 0 ∈ called sent (targets z max_sd outside sd) ∨
      1 ∈ called sent (targets z max_sd outside sd) := by
    obtain ⟨js, hjs | hjs⟩ := targets_cons hz hi hne hmax outside
    · left
      rw [hjs, called]
      exact List.mem_cons_self
    · right
      rw [hjs, called]
      exact List.mem_cons_self
  refine ⟨hstdio, fun hreaches => ?_⟩
  rcases hstdio with h0 | h1
  · exact (hz.kept 0 (.inl (by decide))).2 ((hreaches.2 0).mp h0).1
  · exact (hz.kept 1 (.inl (by decide))).2 ((hreaches.2 1).mp h1).1

/-- Of two clients on 4 and 5 the first talks: the message goes to the standard output and
error, the listening socket and the sender. -/
theorem two_clients_run :
    ∃ tr x y, system.Exec tr x ∧ next x (talks 4 (ascii "hi\n")) = some y ∧
      (∀ p ∈ tr ++ [(x, talks 4 (ascii "hi\n"))], Allowed p.1 p.2) ∧
      events (tr ++ [(x, talks 4 (ascii "hi\n"))]) =
        [.message 4 (ascii "hi\n") (ascii "hi\n") [1, 2, 3, 4] {5, 4}] := by
  have hrun : (System.replay next atStart [connects 4, connects 5]).map (fun p =>
      ((next p.2 (talks 4 (ascii "hi\n"))).isSome,
        events (p.1 ++ [(p.2, talks 4 (ascii "hi\n"))]),
        decide (∀ q ∈ p.1 ++ [(p.2, talks 4 (ascii "hi\n"))], Allowed q.1 q.2))) =
      some (true, [.message 4 (ascii "hi\n") (ascii "hi\n") [1, 2, 3, 4] {5, 4}], true) := by
    decide +kernel
  obtain ⟨tr, x, hexec, hx⟩ := System.exec_of_replay atStart_starts hrun
  obtain ⟨hnext, hx⟩ := Prod.mk.inj hx
  obtain ⟨hevents, hallowed⟩ := Prod.mk.inj hx
  obtain ⟨y, hy⟩ := Option.isSome_iff_exists.mp hnext
  exact ⟨tr, x, y, hexec, hy, of_decide_eq_true hallowed, hevents⟩

theorem never_reaches_others_two : ¬ReachesOthers 4 [1, 2, 3, 4] {5, 4} := by
  obtain ⟨tr, x, _, hexec, _, hallowed, hevents⟩ := two_clients_run
  exact (never_reaches_others tr x hexec _ hallowed 4 (ascii "hi\n") (ascii "hi\n") _ _
    (by rw [hevents]; simp)).2

/-- The other client gets nothing. -/
theorem message_misses :
    ¬ ∀ (tr : List (Server × Input)) (x : Server), system.Exec tr x →
      (∀ p ∈ tr, Allowed p.1 p.2) →
      ∀ (sd : ℕ) (bytes text : List Byte) (ts : List ℕ) (connected : Finset ℕ),
        .message sd bytes text ts connected ∈ events tr → ReachesOthers sd ts connected := by
  intro hreaches
  obtain ⟨tr, x, y, hexec, hnext, hallowed, hevents⟩ := two_clients_run
  have hothers := hreaches _ y (.snoc hexec hnext) hallowed 4 (ascii "hi\n") (ascii "hi\n")
    [1, 2, 3, 4] {5, 4} (by rw [hevents]; simp)
  exact absurd ((hothers.2 5).mpr (by decide)) (by decide)

end SocketPrograms.Chat.TCPServer
