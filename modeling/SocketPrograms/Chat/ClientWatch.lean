import SocketPrograms.Chat.UDPChatClient

/-!
# What the UDP chat client watches

`FD_SET(client_fd, &readfds)` is executed before `client_fd` has a value, and `select`
overwrites the set that it is given. The set is never built again: after any answer but an
error, the socket is not in it, and after a timeout nothing is.

## Main results

* `readfds_of_next` — what one iteration does to the set.
* `watches_iff` — the runs in which every call of `select` watches the standard input and the
  socket.
-/

namespace SocketPrograms.Chat.ClientWatch

open UDPChatClient

/-- The steps of a run that call `select`. -/
def calls (tr : List (Client × Input)) : List (Client × Input) := tr.filter fun p => !closing p.1

/-- The sets that `select` was given, in order. -/
def watched (tr : List (Client × Input)) : List (Finset ℕ) := (calls tr).map fun p => p.1.readfds

/-- What it returned, in order. -/
def results (tr : List (Client × Input)) : List Select := (calls tr).map fun p => p.2.select

variable {sizeofFp : ℕ} {garbage : ℤ} {c y y' : Client} {inp : Input}
  {tr : List (Client × Input)}

/-- A step that leaves the loop calls nothing. -/
theorem snoc_of_closing (tr : List (Client × Input)) (inp : Input) (h : closing y = true) :
    watched (tr ++ [(y, inp)]) = watched tr ∧ results (tr ++ [(y, inp)]) = results tr := by
  simp [watched, results, calls, h]

theorem snoc_of_call (tr : List (Client × Input)) (inp : Input) (h : closing y = false) :
    watched (tr ++ [(y, inp)]) = watched tr ++ [y.readfds] ∧
      results (tr ++ [(y, inp)]) = results tr ++ [inp.select] := by
  simp [watched, results, calls, h]

/-- The socket is in the set that is built exactly where `client_fd` held its number. -/
theorem mem_readfds_iff (hstart : Starts garbage c) : c.client_fd ∈ c.readfds ↔
    garbage = c.client_fd := by
  have hinSet := inSet_of_buildSets hstart.readfds_eq
  have hpos := hstart.client_fd_pos
  rw [hstart.readfds, Finset.mem_insert, Finset.mem_singleton]
  simp only [InSet] at hinSet
  omega

/-- Assembling a message, or failing to, leaves the set and the socket. -/
theorem send_keeps (sizeofFp : ℕ) (output : List Byte) (sendto : Bool) (c : Client) :
    (send sizeofFp output sendto c).readfds = c.readfds ∧
      (send sizeofFp output sendto c).client_fd = c.client_fd := by
  have hkeeps : ∀ c' ∈ assemble sizeofFp output c,
      c'.readfds = c.readfds ∧ c'.client_fd = c.client_fd := by
    intro c' hc'
    simp only [assemble, Option.bind_eq_bind, Option.mem_def, Option.bind_eq_some_iff] at hc'
    obtain ⟨_, _, _, _, _, _, _, _, _, _, hc'⟩ := hc'
    rw [← Option.some.inj hc']
    exact ⟨rfl, rfl⟩
  rw [send]
  cases hassemble : assemble sizeofFp output c with
  | none => exact ⟨rfl, rfl⟩
  | some c' =>
      have hc' := hkeeps c' hassemble
      by_cases hsendto : sendto = true
      · simpa [hsendto] using hc'
      · simpa [hsendto] using hc'

/-- **One iteration that calls `select`**: an error leaves the set, and after anything else
the socket is not in it. -/
theorem readfds_of_next (hclosing : closing y = false) (hstep : next sizeofFp y inp = some y') :
    y'.client_fd = y.client_fd ∧ y'.readfds ⊆ y.readfds ∧
      (inp.select = .error → y'.readfds = y.readfds) ∧
      (inp.select ≠ .error → y.client_fd ∉ y'.readfds) := by
  obtain ⟨_, hcases⟩ := next_cases hstep
  rcases hcases with ⟨hnot, _⟩ | ⟨_, ⟨hselect, rfl⟩ | ⟨hselect, rfl⟩ | ⟨fds, hselect, hsub, h⟩⟩
  · cases hclosing.symm.trans hnot
  · exact ⟨rfl, Finset.empty_subset _, by simp [hselect], fun _ => Finset.notMem_empty _⟩
  · exact ⟨rfl, Finset.Subset.refl _, fun _ => rfl, by simp [hselect]⟩
  · rcases h with ⟨hmem, rfl⟩ | ⟨hnot, rfl⟩
    · rw [receive_client_fd, receive_readfds]
      exact ⟨rfl, (Finset.erase_subset _ _).trans hsub, by simp [hselect],
        fun _ => Finset.notMem_erase _ _⟩
    · obtain ⟨hset, hfd⟩ :=
        send_keeps sizeofFp inp.date inp.sendto { clear y with readfds := fds }
      rw [hset]
      exact ⟨hfd, hsub, by simp [hselect], fun _ => hnot⟩

/-- What a run does to the set: as long as `select` fails, it is the set that was built; after
the first call that does not, the socket is not in it. -/
structure Watches (c : Client) (tr : List (Client × Input)) (y : Client) : Prop where
  client_fd_eq : y.client_fd = c.client_fd
  built : (∀ r ∈ results tr, r = .error) →
    y.readfds = c.readfds ∧ ∀ s ∈ watched tr, s = c.readfds
  lost : ¬ (∀ r ∈ results tr, r = .error) → c.client_fd ∉ y.readfds

theorem watches (h : (system sizeofFp c).Exec tr y) : Watches c tr y := by
  induction h with
  | start h0 =>
      obtain rfl : _ = c := h0
      exact ⟨rfl, fun _ => ⟨rfl, by simp [watched, calls]⟩,
        fun hnot => absurd (by simp [results, calls]) hnot⟩
  | @snoc tr y y' inp _ hstep ih =>
      by_cases hclosing : closing y = true
      · -- it leaves
        obtain ⟨_, ⟨_, rfl⟩ | ⟨hnot, _⟩⟩ := next_cases hstep
        · obtain ⟨hwatched, hresults⟩ := snoc_of_closing tr inp hclosing
          refine ⟨ih.client_fd_eq, ?_, ?_⟩
          · rw [hwatched, hresults]
            exact ih.built
          · rw [hresults]
            exact ih.lost
        · cases hclosing.symm.trans hnot
      · have hclosing : closing y = false := by simpa using hclosing
        obtain ⟨hfd, hsub, herror, hother⟩ := readfds_of_next hclosing hstep
        obtain ⟨hwatched, hresults⟩ := snoc_of_call tr inp hclosing
        refine ⟨hfd.trans ih.client_fd_eq, ?_, ?_⟩
        · intro hall
          rw [hresults, List.forall_mem_append] at hall
          obtain ⟨hset, hpast⟩ := ih.built hall.1
          refine ⟨(herror (hall.2 _ (List.mem_singleton_self _))).trans hset, ?_⟩
          rw [hwatched, List.forall_mem_append]
          exact ⟨hpast, by simpa using hset⟩
        · intro hnot
          rw [hresults, List.forall_mem_append] at hnot
          by_cases hpast : ∀ r ∈ results tr, r = .error
          · have hselect : inp.select ≠ .error := fun h => hnot ⟨hpast, by simpa using h⟩
            rw [← ih.client_fd_eq]
            exact hother hselect
          · exact fun hmem => ih.lost hpast (hsub hmem)

/-- The runs of a client whose set was built. -/
theorem watches_iff_of_starts (hstart : Starts garbage c) (h : (system sizeofFp c).Exec tr y) :
    (∀ s ∈ watched tr, 0 ∈ s ∧ c.client_fd ∈ s ∧ c.client_fd < 6) ↔
      watched tr = [] ∨ (garbage = c.client_fd ∧ c.client_fd < 6 ∧
        ∀ r ∈ (results tr).dropLast, r = .error) := by
  induction h with
  | start _ => simp [watched, calls]
  | @snoc tr y y' inp h hstep ih =>
      by_cases hclosing : closing y = true
      · obtain ⟨hwatched, hresults⟩ := snoc_of_closing tr inp hclosing
        rw [hwatched, hresults]
        exact ih
      · have hclosing : closing y = false := by simpa using hclosing
        have hwatches := watches h
        obtain ⟨hwatched, hresults⟩ := snoc_of_call tr inp hclosing
        rw [hwatched, hresults, List.dropLast_concat]
        constructor
        · intro hall
          right
          obtain ⟨_, hmem, hlt⟩ := hall y.readfds (by simp)
          have herrors : ∀ r ∈ results tr, r = .error := by
            by_contra hnot
            exact hwatches.lost hnot hmem
          rw [(hwatches.built herrors).1] at hmem
          exact ⟨(mem_readfds_iff hstart).mp hmem, hlt, herrors⟩
        · intro hcond
          obtain ⟨hgarbage, hlt, herrors⟩ := hcond.resolve_left (by simp)
          obtain ⟨hset, hpast⟩ := hwatches.built herrors
          intro s hs
          have hbuilt : s = c.readfds := by
            cases List.mem_append.mp hs with
            | inl hs => exact hpast s hs
            | inr hs => rw [List.mem_singleton.mp hs, hset]
          rw [hbuilt]
          exact ⟨hstart.zero_mem, (mem_readfds_iff hstart).mpr hgarbage, hlt⟩

/-- A client that comes to its loop, whatever `client_fd` held: the set was built, or built out of
bounds. -/
def Enters (garbage : ℤ) (c : Client) : Prop :=
  Starts garbage c ∨ (buildSets garbage = none ∧ c.at_ = .undefined)

/-- **The set is built in bounds and every call of `select` watches the standard input and the
socket, below its first argument 6, exactly in these runs**: `client_fd` held a number that an
`fd_set` has a bit for, and `select` is not called; or it held the number of the socket, which is
below 6, and every call but the last failed. -/
theorem watches_iff (sizeofFp : ℕ) (garbage : ℤ) (c : Client) (henters : Enters garbage c)
    (tr : List (Client × Input)) (y : Client) (h : (system sizeofFp c).Exec tr y) :
    (c.at_ = .head ∧ ∀ s ∈ watched tr, 0 ∈ s ∧ c.client_fd ∈ s ∧ c.client_fd < 6) ↔
      InSet garbage ∧ (watched tr = [] ∨ (garbage = c.client_fd ∧ c.client_fd < 6 ∧
        ∀ r ∈ (results tr).dropLast, r = .error)) := by
  rcases henters with hstart | ⟨hnone, hundefined⟩
  · exact and_congr (iff_of_true hstart.at_eq (inSet_of_buildSets hstart.readfds_eq))
      (watches_iff_of_starts hstart h)
  · refine iff_of_false (fun hall => ?_) fun hcond => ?_
    · rw [hundefined] at hall
      cases hall.1
    · cases hnone.symm.trans (buildSets_of_inSet hcond.1)

/-- An answer of `select` and nothing else. -/
def only (select : Select) : Input := ⟨select, none, [], true⟩

/-- Two calls, where `client_fd` held 3 by luck and the first call fails. -/
theorem watches_iff_two :
    ∃ tr y, (system 8 (zeroed 3 [])).Exec tr y ∧ (watched tr).length = 2 ∧
      ∀ s ∈ watched tr, 0 ∈ s ∧ (zeroed 3 []).client_fd ∈ s ∧ (zeroed 3 []).client_fd < 6 := by
  have hrun : (System.replay (next 8) (zeroed 3 []) [only .error, only .timeout]).map
      (fun p => results p.1) = some [.error, .timeout] := by decide +kernel
  obtain ⟨tr, y, hexec, hresults⟩ := System.exec_of_replay (zeroed_init 3 []) hrun
  have hlen : (watched tr).length = (results tr).length := by simp [watched, results]
  refine ⟨tr, y, hexec, by rw [hlen, hresults]; rfl, ?_⟩
  refine ((watches_iff 8 3 (zeroed 3 []) (.inl (zeroed_starts (by decide) [])) tr y hexec).mpr
    ⟨by decide, .inr ⟨rfl, by decide, ?_⟩⟩).2
  rw [hresults]
  decide

/-- Where `client_fd` held 7, the first call does not watch the socket, which is 3. -/
theorem socket_not_watched :
    ¬ ∀ (sizeofFp : ℕ) (garbage : ℤ) (c : Client), Starts garbage c →
      ∀ (tr : List (Client × Input)) (y : Client), (system sizeofFp c).Exec tr y →
        ∀ s ∈ watched tr, 0 ∈ s ∧ c.client_fd ∈ s ∧ c.client_fd < 6 := by
  intro hinvariant
  have hrun : (System.replay (next 8) (zeroed 7 []) [only .timeout]).map
      (fun p => watched p.1) = some [{7, 0}] := by decide +kernel
  obtain ⟨tr, y, hexec, hwatched⟩ := System.exec_of_replay (zeroed_init 7 []) hrun
  have hset := hinvariant 8 7 (zeroed 7 []) (zeroed_starts (by decide) []) tr y hexec {7, 0}
    (by rw [hwatched]; exact List.mem_singleton_self _)
  exact absurd hset.2.1 (by decide)

end SocketPrograms.Chat.ClientWatch
