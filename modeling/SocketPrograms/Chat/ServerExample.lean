import SocketPrograms.Lib.CharArray
import SocketPrograms.Lib.Multiplexer

/-!
# The select server of the manual

`ServerExample.c` keeps its connections in a descriptor set. Each iteration passes a copy of the
set to `select` and scans all descriptors; where it accepts or closes in the middle of the scan,
it changes the set and not the copy. What a client has sent is printed as a string, although
nothing terminates it: the stack behind it is printed as well, up to its first NUL.

What the kernel answers is the input of an iteration. It reports descriptors that it was asked
about, accepts on one that is not open, and reads no more than it was asked for.

## Main definitions

* `Server`, `iterate` — the server and an iteration of its loop.
* `readFromClient`, `welcome`, `hear`, `scan` — its parts.

## Main results

* `Ok.scan` — what a scan does, in the middle of which the set changes.
* `example_multiplexes` — **the server refines the multiplexer**.
-/

namespace SocketPrograms.Chat.ServerExample

open Multiplexer

/-- `FD_SETSIZE`. -/
abbrev fdSetSize : ℕ := 1024

/-- `MAXMSG`. -/
abbrev maxMsg : ℕ := 512

/-- Why an iteration does not come to its end. -/
inductive Halt
  /-- `exit(EXIT_FAILURE)`. -/
  | exited
  /-- A step that C leaves undefined. -/
  | undefined
  /-- An answer that the kernel does not give. -/
  | refused
  deriving DecidableEq

/-- The variables that outlive an iteration, and the descriptors open in the process. -/
structure Server where
  sock : ℕ
  active_fd_set : Finset ℕ
  opened : Finset ℕ
  /-- The messages printed (history). -/
  printed : List (List Byte)

/-- What the kernel answers in an iteration. -/
structure Input extends Answers Byte where
  /-- What the array `buffer` holds when this descriptor is read. -/
  stack : ℕ → CharArray maxMsg

/-- `read_from_client`: the text printed, or `none` where it returns -1. -/
def readFromClient (buffer : CharArray maxMsg) : Option (List Byte) →
    Except Halt (Option (List Byte))
  | none => .error .exited
  | some [] => .ok none
  | some bytes =>
      if bytes.length ≤ maxMsg then
        match (buffer.store bytes).text with
        | none => .error .undefined
        | some text => .ok (some text)
      else .error .refused

/-- The branch for `sock`. `FD_SET` has no bit for a descriptor from `FD_SETSIZE` on. -/
def welcome (inp : Input) (x : Server) : Except Halt (Server × List (Event (List Byte))) :=
  match inp.accept with
  | none => .error .exited
  | some new =>
      if new ∈ x.opened then .error .refused
      else if new < fdSetSize then
        .ok ({ x with
          active_fd_set := insert new x.active_fd_set, opened := insert new x.opened },
          [.opened new])
      else .error .undefined

/-- The branch for a connection. -/
def hear (inp : Input) (i : ℕ) (x : Server) : Except Halt (Server × List (Event (List Byte))) := do
  match ← readFromClient (inp.stack i) (inp.read i) with
  | none =>
      return ({ x with active_fd_set := x.active_fd_set.erase i, opened := x.opened.erase i },
        [.closed i])
  | some text =>
      return ({ x with printed := x.printed ++ [text] }, [.data i ((inp.read i).getD [])])

/-- The body of the scan. -/
def visit (read_fd_set : Finset ℕ) (inp : Input) (i : ℕ) (x : Server) :
    Except Halt (Server × List (Event (List Byte))) :=
  if i ∈ read_fd_set then
    if i = x.sock then welcome inp x else hear inp i x
  else .ok (x, [])

/-- The scan of these descriptors. -/
def scan (read_fd_set : Finset ℕ) (inp : Input) :
    List ℕ → Server → Except Halt (Server × List (Event (List Byte)))
  | [], x => .ok (x, [])
  | i :: is, x => do
      let (x, es) ← visit read_fd_set inp i x
      let (x, es') ← scan read_fd_set inp is x
      return (x, es ++ es')

/-- One iteration of the server loop. -/
def iterate (x : Server) (inp : Input) : Except Halt (Server × List (Event (List Byte))) :=
  match inp.select with
  | none => .error .exited
  | some read_fd_set =>
      if read_fd_set ⊆ x.active_fd_set then scan read_fd_set inp (List.range fdSetSize) x
      else .error .refused

/-- A server at its start: it listens, and has no connection. -/
structure Starts (sock : ℕ) (x : Server) : Prop where
  sock_eq : x.sock = sock
  small : sock < fdSetSize
  active_eq : x.active_fd_set = {sock}
  opened : sock ∈ x.opened

/-- The server, started on this socket. -/
def system (sock : ℕ) : System Server Input := loop (Starts sock) iterate

/-- The connections: what is watched beside the socket. -/
def conns (x : Server) : Finset ℕ := x.active_fd_set.erase x.sock

variable {sock i : ℕ} {x y : Server} {inp : Input} {read_fd_set : Finset ℕ}
  {es : List (Event (List Byte))}

/-! ## What each part can do -/

theorem readFromClient_cases {buffer : CharArray maxMsg} {result message : Option (List Byte)}
    (h : readFromClient buffer result = .ok message) :
    (result = some [] ∧ message = none) ∨
      ∃ bytes text, result = some bytes ∧ bytes ≠ [] ∧ message = some text := by
  match result with
  | none => cases h
  | some [] => exact .inl ⟨rfl, (Except.ok.inj h).symm⟩
  | some (b :: bs) =>
      simp only [readFromClient] at h
      split at h
      · split at h
        · cases h
        · next text _ => exact .inr ⟨_, text, rfl, List.cons_ne_nil b bs, (Except.ok.inj h).symm⟩
      · cases h

theorem welcome_cases (h : welcome inp x = .ok (y, es)) :
    ∃ new, inp.accept = some new ∧ new ∉ x.opened ∧ new < fdSetSize ∧
      y = { x with
        active_fd_set := insert new x.active_fd_set, opened := insert new x.opened } ∧
      es = [.opened new] := by
  simp only [welcome] at h
  split at h
  · cases h
  · next new haccept =>
    split at h
    · cases h
    · next hnew =>
      split at h
      · next hsmall =>
        obtain ⟨rfl, rfl⟩ := Prod.mk.inj (Except.ok.inj h)
        exact ⟨new, haccept, hnew, hsmall, rfl, rfl⟩
      · cases h

theorem hear_cases (h : hear inp i x = .ok (y, es)) :
    (inp.read i = some [] ∧ es = [.closed i] ∧
      y = { x with
        active_fd_set := x.active_fd_set.erase i, opened := x.opened.erase i }) ∨
    ∃ bytes printed, inp.read i = some bytes ∧ bytes ≠ [] ∧ es = [.data i bytes] ∧
      y = { x with printed } := by
  simp only [hear] at h
  cases hmessage : readFromClient (inp.stack i) (inp.read i) with
  | error _ =>
      rw [hmessage] at h
      cases h
  | ok message =>
      rw [hmessage] at h
      rcases readFromClient_cases hmessage with ⟨hread, rfl⟩ | ⟨bytes, text, hread, hne, rfl⟩
      · obtain ⟨rfl, rfl⟩ := Prod.mk.inj (Except.ok.inj h)
        exact .inl ⟨hread, rfl, rfl⟩
      · obtain ⟨rfl, rfl⟩ := Prod.mk.inj (Except.ok.inj h)
        exact .inr ⟨bytes, _, hread, hne, by simp [hread], rfl⟩

theorem scan_cases {is : List ℕ} (h : scan read_fd_set inp (i :: is) x = .ok (y, es)) :
    ∃ z es₁ es₂, visit read_fd_set inp i x = .ok (z, es₁) ∧
      scan read_fd_set inp is z = .ok (y, es₂) ∧ es = es₁ ++ es₂ := by
  simp only [scan, bind, bind_eq_ok, Prod.exists] at h
  obtain ⟨z, es₁, hvisit, w, es₂, hscan, hret⟩ := h
  obtain ⟨rfl, rfl⟩ := Prod.mk.inj (Except.ok.inj hret)
  exact ⟨z, es₁, es₂, hvisit, hscan, rfl⟩

/-! ## The invariant -/

/-- What is watched is open, and has a bit in the set. -/
structure Ok (x : Server) : Prop where
  sock : x.sock ∈ x.active_fd_set
  opened : x.active_fd_set ⊆ x.opened
  small : ∀ fd ∈ x.active_fd_set, fd < fdSetSize

theorem Starts.ok (hx : Starts sock x) : Ok x := by
  refine ⟨?_, ?_, ?_⟩
  · rw [hx.active_eq, hx.sock_eq]
    exact Finset.mem_singleton_self sock
  · rw [hx.active_eq]
    exact Finset.singleton_subset_iff.mpr hx.opened
  · rw [hx.active_eq]
    intro fd hfd
    rw [Finset.mem_singleton.mp hfd]
    exact hx.small

theorem Starts.conns_eq (hx : Starts sock x) : conns x = ∅ := by
  rw [conns, hx.active_eq, hx.sock_eq]
  exact Finset.erase_singleton sock

theorem Ok.insert_conns (hx : Ok x) : insert x.sock (conns x) = x.active_fd_set :=
  Finset.insert_erase hx.sock

/-- A visit serves its descriptor if that is ready; it leaves the others watched. -/
theorem Ok.visit (hx : Ok x) (hready : i ∈ read_fd_set → i ∈ x.active_fd_set)
    (h : visit read_fd_set inp i x = .ok (y, es)) :
    Ok y ∧ y.sock = x.sock ∧ (∀ fd ∈ x.active_fd_set, fd ≠ i → fd ∈ y.active_fd_set) ∧
      es = (if i ∈ read_fd_set then [serve x.sock inp.round i] else []) ∧
      es.foldlM apply (conns x) = some (conns y) := by
  by_cases hi : i ∈ read_fd_set
  · by_cases hsock : i = x.sock
    · rw [ServerExample.visit, if_pos hi, if_pos hsock] at h
      obtain ⟨new, haccept, hnew, hsmall, rfl, rfl⟩ := welcome_cases h
      have hfresh : new ∉ x.active_fd_set := fun hmem => hnew (hx.opened hmem)
      have hne : new ≠ x.sock := fun heq => hfresh (heq ▸ hx.sock)
      refine ⟨⟨Finset.mem_insert_of_mem hx.sock, Finset.insert_subset_insert new hx.opened, ?_⟩,
        rfl, fun fd hfd _ => Finset.mem_insert_of_mem hfd, ?_, ?_⟩
      · intro fd hfd
        rcases Finset.mem_insert.mp hfd with rfl | hfd
        · exact hsmall
        · exact hx.small fd hfd
      · rw [if_pos hi, hsock, serve_listening]
        simp [Answers.round, haccept]
      · simp [apply, conns, hne, hfresh, Finset.erase_insert_of_ne]
    · rw [ServerExample.visit, if_pos hi, if_neg hsock] at h
      have hmem : i ∈ conns x := Finset.mem_erase.mpr ⟨hsock, hready hi⟩
      rcases hear_cases h with ⟨hread, rfl, rfl⟩ | ⟨bytes, printed, hread, hne, rfl, rfl⟩
      · refine ⟨⟨Finset.mem_erase.mpr ⟨Ne.symm hsock, hx.sock⟩,
          Finset.erase_subset_erase i hx.opened, fun fd hfd => hx.small fd ?_⟩,
          rfl, fun fd hfd hne => Finset.mem_erase.mpr ⟨hne, hfd⟩, ?_, ?_⟩
        · exact Finset.mem_of_mem_erase hfd
        · rw [if_pos hi, serve_of_ne hsock, outcome_end hread]
        · simp only [List.foldlM_cons, apply, if_pos hmem, List.foldlM_nil]
          exact congrArg some Finset.erase_right_comm
      · refine ⟨⟨hx.sock, hx.opened, hx.small⟩, rfl, fun fd hfd _ => hfd, ?_, ?_⟩
        · rw [if_pos hi, serve_of_ne hsock, outcome_data hread hne]
        · simp only [List.foldlM_cons, apply, if_pos hmem, List.foldlM_nil]
          rfl
  · rw [ServerExample.visit, if_neg hi] at h
    obtain ⟨rfl, rfl⟩ := Prod.mk.inj (Except.ok.inj h)
    exact ⟨hx, rfl, fun fd hfd _ => hfd, by simp [hi], by simp⟩

/-- **A scan serves what is ready**, in the order of the descriptors. What is still to be visited
and ready is watched: only a visit ends a connection. -/
theorem Ok.scan {is : List ℕ} (hnodup : is.Nodup) (hx : Ok x)
    (hready : ∀ i ∈ is, i ∈ read_fd_set → i ∈ x.active_fd_set)
    (h : scan read_fd_set inp is x = .ok (y, es)) :
    Ok y ∧ y.sock = x.sock ∧
      es = (is.filter (· ∈ read_fd_set)).map (serve x.sock inp.round) ∧
      es.foldlM apply (conns x) = some (conns y) := by
  induction is generalizing x es with
  | nil =>
      obtain ⟨rfl, rfl⟩ := Prod.mk.inj (Except.ok.inj h)
      exact ⟨hx, rfl, rfl, rfl⟩
  | cons i is ih =>
      obtain ⟨z, es₁, es₂, hvisit, hscan, rfl⟩ := scan_cases h
      obtain ⟨hi, hrest⟩ := List.nodup_cons.mp hnodup
      obtain ⟨hz, hsock, hstays, hes₁, hlegal₁⟩ := hx.visit (hready i (by simp)) hvisit
      have hready' : ∀ j ∈ is, j ∈ read_fd_set → j ∈ z.active_fd_set := by
        intro j hj hmem
        have hne : j ≠ i := fun heq => hi (heq ▸ hj)
        exact hstays j (hready j (List.mem_cons_of_mem i hj) hmem) hne
      obtain ⟨hy, hsock', hes₂, hlegal₂⟩ := ih hrest hz hready' hscan
      refine ⟨hy, hsock'.trans hsock, ?_, ?_⟩
      · rw [hes₁, hes₂, hsock]
        by_cases hmem : i ∈ read_fd_set <;> simp [hmem]
      · rw [List.foldlM_append, hlegal₁]
        exact hlegal₂

/-- All descriptors below `FD_SETSIZE` are scanned. -/
theorem coe_filter_range {ready : Finset ℕ} (h : ∀ fd ∈ ready, fd < fdSetSize) :
    (((List.range fdSetSize).filter (· ∈ ready) : List ℕ) : Multiset ℕ) = ready.val := by
  have hnodup : ((List.range fdSetSize).filter (· ∈ ready)).Nodup :=
    List.nodup_range.filter _
  refine (Multiset.Nodup.ext (Multiset.coe_nodup.mpr hnodup) ready.nodup).mpr fun fd => ?_
  rw [Multiset.mem_coe, List.mem_filter, List.mem_range, decide_eq_true_eq]
  exact ⟨fun hfd => hfd.2, fun hfd => ⟨h fd hfd, hfd⟩⟩

theorem Ok.iterate (hx : Ok x) (h : iterate x inp = .ok (y, es)) :
    Ok y ∧ y.sock = x.sock ∧ Serves x.sock (conns x) inp.round es (conns y) := by
  simp only [ServerExample.iterate] at h
  split at h
  · cases h
  · next read_fd_set hselect =>
    split at h
    · next hsub =>
      obtain ⟨hy, hsock, hes, hlegal⟩ :=
        hx.scan List.nodup_range (fun i _ hi => hsub hi) h
      have hround : inp.round.ready = read_fd_set := by simp [Answers.round, hselect]
      refine ⟨hy, hsock, ?_, ?_, hlegal⟩
      · rw [hround, hx.insert_conns]
        exact hsub
      · rw [hround, hes, ← Multiset.map_coe,
          coe_filter_range fun fd hfd => hx.small fd (hsub hfd)]
    · cases h

/-! ## Runs -/

/-- Each iteration serves its round. -/
theorem implements (sock : ℕ) :
    Implements sock (Starts sock) iterate conns (fun inp => inp.round)
      (fun x => Ok x ∧ x.sock = sock) where
  start _ hx := ⟨⟨hx.ok, hx.sock_eq⟩, hx.conns_eq⟩
  step := by
    rintro x inp y es ⟨hx, rfl⟩ h
    obtain ⟨hy, hsock, hserves⟩ := hx.iterate h
    exact ⟨⟨hy, hsock⟩, hserves⟩

/-- **The server refines the multiplexer.** In every run, and also where the set changes in the
middle of a scan or a descriptor that was just closed is accepted again: an iteration accepts or
reads exactly once on each descriptor that `select` reported, and on no other. The set passed to
`select` is the listening socket and what was accepted and is not closed. -/
theorem example_multiplexes (sock : ℕ) (tr : List (Server × Input)) (x : Server)
    (h : (system sock).Exec tr x) :
    (∀ p ∈ tr, (eventsOf iterate p : Multiset (Event (List Byte))) =
      p.2.round.ready.val.map (serve sock p.2.round)) ∧
    sock ∈ x.active_fd_set ∧
    ∀ fd, (tr.flatMap (eventsOf iterate)).count (.opened fd) =
      (tr.flatMap (eventsOf iterate)).count (.closed fd) +
        if fd ∈ x.active_fd_set ∧ fd ≠ sock then 1 else 0 := by
  obtain ⟨⟨hx, rfl⟩, _⟩ := (implements sock).exec h
  refine ⟨(implements x.sock).served h, hx.sock, fun fd => ?_⟩
  have hcount := (implements x.sock).count_eq h fd
  simpa [conns, and_comm] using hcount

/-- The server with its socket on descriptor 5. -/
def atStart : Server := ⟨5, {5}, {0, 1, 2, 5}, []⟩

/-- A client connects on descriptor 4 and leaves, and in the same scan another one connects. -/
theorem reused_run :
    ∃ tr x, (system 5).Exec tr x ∧ tr.flatMap (eventsOf iterate) =
      [.opened 4, .closed 4, .opened 4] := by
  have hrun : (System.replay (nextOf iterate) atStart
      [⟨⟨some {5}, some 4, fun _ => none⟩, fun _ => .fillWith 512 0⟩,
        ⟨⟨some {4, 5}, some 4, fun _ => some []⟩, fun _ => .fillWith 512 0⟩]).map
          (fun p => p.1.flatMap (eventsOf iterate)) =
        some [.opened 4, .closed 4, .opened 4] := by decide +kernel
  have hinit : (system 5).init atStart := ⟨rfl, by decide, rfl, by decide⟩
  exact System.exec_of_replay hinit hrun

theorem example_multiplexes_reused :
    ∃ tr x, (system 5).Exec tr x ∧ (tr.flatMap (eventsOf iterate)).length = 3 ∧
      4 ∈ x.active_fd_set ∧ 5 ∈ x.active_fd_set := by
  obtain ⟨tr, x, hexec, hevents⟩ := reused_run
  obtain ⟨_, hsock, hcounts⟩ := example_multiplexes 5 tr x hexec
  refine ⟨tr, x, hexec, by rw [hevents]; rfl, ?_, hsock⟩
  have hcount := hcounts 4
  rw [hevents] at hcount
  by_contra hmem
  simp [hmem] at hcount

end SocketPrograms.Chat.ServerExample
