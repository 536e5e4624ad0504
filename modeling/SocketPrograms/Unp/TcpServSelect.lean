import SocketPrograms.Chat.ServerExample
import SocketPrograms.Lib.SlotTable

/-!
# The echo server with one process and `select`

`tcpservselect01.c` keeps its clients in the array `client`, where -1 marks an available entry,
beside the descriptor set `allset`. It saves work: `select` looks at the descriptors up to
`maxfd`, the scan at the entries up to `maxi`, and the scan ends when as many descriptors were
served as `select` counted.

A descriptor in `client` is an `Option`, `none` where the entry is -1. What the kernel answers is
the input of an iteration. The wrappers of the library end the program where a call fails.

## Main definitions

* `Server`, `iterate` — the server and an iteration of its loop.
* `welcome`, `echo`, `scan` — its parts.

## Main results

* `Ok.scan` — the scan serves all that is ready, although it ends early.
* `select_multiplexes` — **the server refines the multiplexer**, and what it writes is what it read.
* `never_full` — the array has always room for a client that `FD_SET` can watch.
* `watches_alike` — it watches what the server of the manual watches, which scans all descriptors.
-/

namespace SocketPrograms.Unp.TcpServSelect

open Multiplexer

/-- `FD_SETSIZE`. -/
abbrev fdSetSize : ℕ := 1024

/-- `MAXLINE`. -/
abbrev maxLine : ℕ := 4096

/-- Why an iteration does not come to its end. -/
inductive Halt
  /-- `err_sys`. -/
  | failed
  /-- `err_quit("too many clients")`. -/
  | tooMany
  /-- A step that C leaves undefined. -/
  | undefined
  /-- An answer that the kernel does not give. -/
  | refused
  deriving DecidableEq

/-- The variables that outlive an iteration, and the descriptors open in the process. -/
structure Server where
  listenfd : ℕ
  client : SlotTable (Option ℕ) fdSetSize
  maxi : ℤ
  maxfd : ℕ
  allset : Finset ℕ
  buf : CharArray maxLine
  opened : Finset ℕ

/-- What the kernel answers in an iteration. -/
structure Input extends Answers Byte where
  /-- Whether `writen` writes all it is given on this descriptor. -/
  writen : ℕ → Bool

/-- The branch on `FD_ISSET(listenfd, &rset)`, up to the test of `nready`. -/
def welcome (inp : Input) (x : Server) : Except Halt (Server × List (Event (List Byte))) :=
  match inp.accept with
  | none => .error .failed
  | some connfd =>
      let i := x.client.firstVacant none
      if connfd ∈ x.opened then .error .refused
      else if i = fdSetSize then .error .tooMany
      else if connfd < fdSetSize then
        .ok ({ x with
          client := x.client.place none (some connfd)
          allset := insert connfd x.allset
          maxfd := if x.maxfd < connfd then connfd else x.maxfd
          maxi := if x.maxi < i then i else x.maxi
          opened := insert connfd x.opened }, [.opened connfd])
      else .error .undefined

/-- The branch on `FD_ISSET(sockfd, &rset)`. The event holds what was written. -/
def echo (inp : Input) (i sockfd : ℕ) (x : Server) :
    Except Halt (Server × Event (List Byte)) :=
  match inp.read sockfd with
  | none => .error .failed
  | some [] =>
      .ok ({ x with
        client := x.client.vacate none i
        allset := x.allset.erase sockfd
        opened := x.opened.erase sockfd }, .closed sockfd)
  | some bytes =>
      let buf := x.buf.store bytes
      if maxLine < bytes.length then .error .refused
      else if inp.writen sockfd then
        .ok ({ x with buf }, .data sockfd (buf.bytes.take bytes.length))
      else .error .failed

/-- `client[i]`, where it is not -1. -/
def slotAt (x : Server) (i : ℕ) : Option ℕ := x.client.slots[i]?.join

/-- The scan of these entries; `if (--nready <= 0) break`. -/
def scan (rset : Finset ℕ) (inp : Input) :
    List ℕ → ℤ → Server → Except Halt (Server × List (Event (List Byte)))
  | [], _, x => .ok (x, [])
  | i :: is, nready, x =>
      match slotAt x i with
      | none => scan rset inp is nready x
      | some sockfd =>
          if sockfd ∈ rset then do
            let (x, e) ← echo inp i sockfd x
            if nready - 1 ≤ 0 then return (x, [e])
            else
              let (x, es) ← scan rset inp is (nready - 1) x
              return (x, e :: es)
          else scan rset inp is nready x

/-- `for (i = 0; i <= maxi; i++)`. -/
def scanAll (rset : Finset ℕ) (inp : Input) (nready : ℤ) (x : Server) :
    Except Halt (Server × List (Event (List Byte))) :=
  scan rset inp (List.range (x.maxi + 1).toNat) nready x

/-- One iteration of the server loop. -/
def iterate (x : Server) (inp : Input) : Except Halt (Server × List (Event (List Byte))) :=
  match inp.select with
  | none => .error .failed
  | some rset =>
      -- `select` looks at `maxfd + 1` descriptors
      if rset ⊆ x.allset ∧ ∀ fd ∈ rset, fd < x.maxfd + 1 then
        let nready : ℤ := rset.card
        if x.listenfd ∈ rset then do
          let (x, es) ← welcome inp x
          if nready - 1 ≤ 0 then return (x, es)
          else
            let (x, es') ← scanAll rset inp (nready - 1) x
            return (x, es ++ es')
        else scanAll rset inp nready x
      else .error .refused

/-- A server at its start: it listens, and has no client. -/
structure Starts (listenfd : ℕ) (x : Server) : Prop where
  listenfd_eq : x.listenfd = listenfd
  small : listenfd < fdSetSize
  client_eq : x.client = .blank fdSetSize none
  maxi_eq : x.maxi = -1
  maxfd_eq : x.maxfd = listenfd
  allset_eq : x.allset = {listenfd}
  opened : listenfd ∈ x.opened

/-- The server, started on this socket. -/
def system (listenfd : ℕ) : System Server Input := loop (Starts listenfd) iterate

/-- The clients: what is watched beside the socket. -/
def conns (x : Server) : Finset ℕ := x.allset.erase x.listenfd

variable {listenfd i sockfd : ℕ} {nready : ℤ} {x y : Server} {inp : Input} {rset : Finset ℕ}
  {e : Event (List Byte)} {es : List (Event (List Byte))}

/-! ## What each part can do -/

theorem welcome_cases (h : welcome inp x = .ok (y, es)) :
    ∃ connfd, inp.accept = some connfd ∧ connfd ∉ x.opened ∧ ¬x.client.Full none ∧
      connfd < fdSetSize ∧ es = [.opened connfd] ∧
      y = { x with
        client := x.client.place none (some connfd)
        allset := insert connfd x.allset
        maxfd := if x.maxfd < connfd then connfd else x.maxfd
        maxi := if x.maxi < x.client.firstVacant none then x.client.firstVacant none else x.maxi
        opened := insert connfd x.opened } := by
  simp only [welcome] at h
  split at h
  · cases h
  · next connfd haccept =>
    split at h
    · cases h
    · next hnew =>
      split at h
      · cases h
      · next hroom =>
        split at h
        · next hsmall =>
          obtain ⟨rfl, rfl⟩ := Prod.mk.inj (Except.ok.inj h)
          exact ⟨connfd, haccept, hnew, SlotTable.not_full_of_firstVacant hroom, hsmall, rfl, rfl⟩
        · cases h

/-- What is written is what was read. -/
theorem echo_cases (h : echo inp i sockfd x = .ok (y, e)) :
    (inp.read sockfd = some [] ∧ e = .closed sockfd ∧
      y = { x with
        client := x.client.vacate none i
        allset := x.allset.erase sockfd
        opened := x.opened.erase sockfd }) ∨
    ∃ bytes buf, inp.read sockfd = some bytes ∧ bytes ≠ [] ∧ e = .data sockfd bytes ∧
      y = { x with buf } := by
  simp only [echo] at h
  split at h
  · cases h
  · next hread =>
    obtain ⟨rfl, rfl⟩ := Prod.mk.inj (Except.ok.inj h)
    exact .inl ⟨hread, rfl, rfl⟩
  · next bytes hne hread =>
    split at h
    · cases h
    · next hlen =>
      split at h
      · obtain ⟨rfl, rfl⟩ := Prod.mk.inj (Except.ok.inj h)
        refine .inr ⟨bytes, _, hread, hne, ?_, rfl⟩
        rw [CharArray.bytes_store (Nat.le_of_not_lt hlen), List.take_left]
      · cases h

/-! ## The invariant -/

/-- The set holds the socket and the entries of the array, each of them in one entry up to
`maxi`. -/
structure Ok (x : Server) : Prop where
  watched : ∀ fd, fd ∈ x.allset ↔ fd = x.listenfd ∨ some fd ∈ x.client.entries none
  nodup : (x.client.entries none).Nodup
  listen : some x.listenfd ∉ x.client.entries none
  opened : x.allset ⊆ x.opened
  small : ∀ fd ∈ x.allset, fd < fdSetSize
  maxfd : ∀ fd ∈ x.allset, fd ≤ x.maxfd
  maxi : ∀ (i fd : ℕ), x.client.slots[i]? = some (some fd) → (i : ℤ) ≤ x.maxi

theorem Starts.ok (hx : Starts listenfd x) : Ok x := by
  obtain ⟨rfl, hsmall, hclient, _, hmaxfd, hallset, hopened⟩ := hx
  refine ⟨?_, ?_, ?_, ?_, ?_, ?_, ?_⟩
  · simp [hallset, hclient]
  · simp [hclient]
  · simp [hclient]
  · simpa [hallset] using hopened
  · simpa [hallset] using hsmall
  · simp [hallset, hmaxfd]
  · intro i fd hi
    rw [hclient, SlotTable.blank, List.getElem?_replicate] at hi
    split at hi <;> simp at hi

theorem Starts.conns_eq (hx : Starts listenfd x) : conns x = ∅ := by
  rw [conns, hx.allset_eq, hx.listenfd_eq]
  exact Finset.erase_singleton listenfd

theorem Ok.listen_mem (hx : Ok x) : x.listenfd ∈ x.allset := (hx.watched x.listenfd).mpr (.inl rfl)

theorem Ok.insert_conns (hx : Ok x) : insert x.listenfd (conns x) = x.allset :=
  Finset.insert_erase hx.listen_mem

theorem slotAt_eq_some : slotAt x i = some sockfd ↔ x.client.slots[i]? = some (some sockfd) := by
  rw [slotAt, Option.join_eq_some_iff]

theorem mem_entries_of_slotAt (h : slotAt x i = some sockfd) :
    some sockfd ∈ x.client.entries none :=
  SlotTable.mem_entries.mpr
    ⟨List.mem_of_getElem? (slotAt_eq_some.mp h), Option.some_ne_none sockfd⟩

/-- A new client is saved in one entry and watched. -/
theorem Ok.welcome (hx : Ok x) (h : welcome inp x = .ok (y, es)) :
    Ok y ∧ y.listenfd = x.listenfd ∧ es = [.opened inp.round.accept] ∧
      inp.round.accept ∉ x.allset ∧ y.allset = insert inp.round.accept x.allset ∧
      es.foldlM apply (conns x) = some (conns y) := by
  obtain ⟨connfd, haccept, hnew, hroom, hsmall, rfl, rfl⟩ := welcome_cases h
  have hround : inp.round.accept = connfd := by simp [Answers.round, haccept]
  have hfresh : connfd ∉ x.allset := fun hmem => hnew (hx.opened hmem)
  have hne : connfd ≠ x.listenfd := fun heq => hfresh (heq ▸ hx.listen_mem)
  have hsome : some connfd ≠ none := Option.some_ne_none connfd
  have hentry : ∀ fd, some fd ∈ (x.client.place none (some connfd)).entries none ↔
      some fd ∈ x.client.entries none ∨ fd = connfd := by
    intro fd
    rw [SlotTable.mem_entries_place hsome, Option.some_inj]
    simp [hroom]
  rw [hround]
  refine ⟨⟨fun fd => ?_, ?_, ?_, ?_, ?_, ?_, ?_⟩, rfl, rfl, hfresh, rfl, ?_⟩
  · rw [Finset.mem_insert, hx.watched fd, hentry]
    exact or_comm.trans or_assoc
  · exact SlotTable.nodup_entries_place hsome hx.nodup fun hmem =>
      hfresh ((hx.watched connfd).mpr (.inr hmem))
  · intro hmem
    rcases (hentry x.listenfd).mp hmem with hmem | heq
    · exact hx.listen hmem
    · exact hne heq.symm
  · exact Finset.insert_subset_insert connfd hx.opened
  · intro fd hfd
    rcases Finset.mem_insert.mp hfd with rfl | hfd
    · exact hsmall
    · exact hx.small fd hfd
  · intro fd hfd
    rcases Finset.mem_insert.mp hfd with rfl | hfd
    · change fd ≤ if x.maxfd < fd then fd else x.maxfd
      split <;> omega
    · have hle := hx.maxfd fd hfd
      change fd ≤ if x.maxfd < connfd then connfd else x.maxfd
      split <;> omega
  · intro i fd hi
    change (i : ℤ) ≤ if x.maxi < x.client.firstVacant none then (x.client.firstVacant none : ℤ)
      else x.maxi
    rcases SlotTable.getElem?_place hi with hold | ⟨rfl, _⟩
    · have hle := hx.maxi i fd hold
      split <;> omega
    · split <;> omega
  · simp [apply, conns, hne, hfresh, Finset.erase_insert_of_ne]

/-- Serving a client leaves the other entries as they are. -/
theorem Ok.echo (hx : Ok x) (hi : slotAt x i = some sockfd)
    (h : echo inp i sockfd x = .ok (y, e)) :
    Ok y ∧ y.listenfd = x.listenfd ∧ (∀ j ≠ i, slotAt y j = slotAt x j) ∧
      e = serve x.listenfd inp.round sockfd ∧ apply (conns x) e = some (conns y) := by
  have hslot := slotAt_eq_some.mp hi
  have hentry := mem_entries_of_slotAt hi
  have hne : sockfd ≠ x.listenfd := fun heq => hx.listen (heq ▸ hentry)
  have hmem : sockfd ∈ conns x :=
    Finset.mem_erase.mpr ⟨hne, (hx.watched sockfd).mpr (.inr hentry)⟩
  have hsome : some sockfd ≠ none := Option.some_ne_none sockfd
  rw [serve_of_ne hne]
  rcases echo_cases h with ⟨hread, rfl, rfl⟩ | ⟨bytes, buf, hread, hne', rfl, rfl⟩
  · refine ⟨⟨fun fd => ?_, SlotTable.nodup_entries_vacate hslot hsome hx.nodup, ?_,
      Finset.erase_subset_erase sockfd hx.opened, fun fd hfd => hx.small fd ?_,
      fun fd hfd => hx.maxfd fd ?_, fun j fd hj => ?_⟩, rfl, fun j hj => ?_, ?_, ?_⟩
    · rw [Finset.mem_erase, hx.watched fd, SlotTable.mem_entries_vacate hslot hsome hx.nodup,
        ne_eq (some fd), Option.some_inj]
      constructor
      · rintro ⟨hfd, rfl | hold⟩
        · exact .inl rfl
        · exact .inr ⟨hold, hfd⟩
      · rintro (rfl | ⟨hold, hfd⟩)
        · exact ⟨hne.symm, .inl rfl⟩
        · exact ⟨hfd, .inr hold⟩
    · intro hlisten
      exact hx.listen ((SlotTable.mem_entries_vacate hslot hsome hx.nodup).mp hlisten).1
    · exact Finset.mem_of_mem_erase hfd
    · exact Finset.mem_of_mem_erase hfd
    · change (x.client.slots.set i none)[j]? = some (some fd) at hj
      rw [List.getElem?_set] at hj
      split at hj
      · split at hj <;> simp at hj
      · exact hx.maxi j fd hj
    · exact congrArg Option.join (List.getElem?_set_ne hj.symm)
    · rw [outcome_end hread]
    · rw [apply, if_pos hmem]
      exact congrArg some Finset.erase_right_comm
  · refine ⟨⟨hx.watched, hx.nodup, hx.listen, hx.opened, hx.small, hx.maxfd, hx.maxi⟩, rfl,
      fun _ _ => rfl, ?_, ?_⟩
    · rw [outcome_data hread hne']
    · rw [apply, if_pos hmem]
      rfl

/-! ## The scan -/

/-- The clients among these entries that are ready, in order. -/
def pending (rset : Finset ℕ) (x : Server) (is : List ℕ) : List ℕ :=
  (is.filterMap (slotAt x)).filter (· ∈ rset)

theorem pending_congr {is : List ℕ} (h : ∀ i ∈ is, slotAt y i = slotAt x i) :
    pending rset y is = pending rset x is := by
  rw [pending, pending, List.filterMap_congr h]

/-- **The scan serves all that is ready**, although it ends early: while `nready` counts what is
still to be served, it is 0 only where nothing is left. -/
theorem Ok.scan {is : List ℕ} (hnodup : is.Nodup) (hx : Ok x)
    (hcount : nready = (pending rset x is).length)
    (h : scan rset inp is nready x = .ok (y, es)) :
    Ok y ∧ y.listenfd = x.listenfd ∧
      es = (pending rset x is).map (serve x.listenfd inp.round) ∧
      es.foldlM apply (conns x) = some (conns y) := by
  induction is generalizing x es nready with
  | nil =>
      obtain ⟨rfl, rfl⟩ := Prod.mk.inj (Except.ok.inj h)
      exact ⟨hx, rfl, rfl, rfl⟩
  | cons i is ih =>
      obtain ⟨hi, hrest⟩ := List.nodup_cons.mp hnodup
      cases hslot : slotAt x i with
      | none =>
          have hsame : pending rset x (i :: is) = pending rset x is := by simp [pending, hslot]
          simp only [TcpServSelect.scan, hslot] at h
          rw [hsame] at hcount ⊢
          exact ih hrest hx hcount h
      | some sockfd =>
          simp only [TcpServSelect.scan, hslot] at h
          by_cases hready : sockfd ∈ rset
          · have hmore : pending rset x (i :: is) = sockfd :: pending rset x is := by
              simp [pending, hslot, hready]
            rw [if_pos hready] at h
            rw [hmore, List.length_cons] at hcount
            cases hecho : TcpServSelect.echo inp i sockfd x with
            | error _ =>
                rw [hecho] at h
                cases h
            | ok p =>
                obtain ⟨z, e⟩ := p
                simp only [hecho, bind, Except.bind] at h
                obtain ⟨hz, hlisten, hothers, he, hlegal⟩ := hx.echo hslot hecho
                have hleft : pending rset z is = pending rset x is :=
                  pending_congr fun j hj => hothers j fun heq => hi (heq ▸ hj)
                rw [hmore, List.map_cons, ← he]
                split at h
                · -- nothing is left, and the scan ends
                  next hlast =>
                  have hnil : pending rset x is = [] := List.length_eq_zero_iff.mp (by omega)
                  obtain ⟨rfl, rfl⟩ := Prod.mk.inj (Except.ok.inj h)
                  exact ⟨hz, hlisten, by rw [hnil, List.map_nil], by simp [hlegal]⟩
                · cases hscan : TcpServSelect.scan rset inp is (nready - 1) z with
                  | error _ =>
                      simp only [hscan] at h
                      cases h
                  | ok q =>
                      obtain ⟨w, es'⟩ := q
                      simp only [hscan] at h
                      obtain ⟨rfl, rfl⟩ := Prod.mk.inj (Except.ok.inj h)
                      have hcount' : nready - 1 = (pending rset z is).length := by
                        rw [hleft]
                        omega
                      obtain ⟨hw, hlisten', hes', hlegal'⟩ := ih hrest hz hcount' hscan
                      refine ⟨hw, hlisten'.trans hlisten, ?_, ?_⟩
                      · rw [hes', hleft, hlisten]
                      · rw [List.foldlM_cons, hlegal]
                        exact hlegal'
          · have hsame : pending rset x (i :: is) = pending rset x is := by
              simp [pending, hslot, hready]
            rw [if_neg hready] at h
            rw [hsame] at hcount ⊢
            exact ih hrest hx hcount h

/-- The entries up to `maxi` hold every client once. -/
theorem Ok.coe_pending (hx : Ok x) (hsub : ∀ fd ∈ rset, fd ≠ x.listenfd → fd ∈ x.allset) :
    ((pending rset x (List.range (x.maxi + 1).toNat) : List ℕ) : Multiset ℕ) =
      (rset.erase x.listenfd).val := by
  have hnodup : (pending rset x (List.range (x.maxi + 1).toNat)).Nodup := by
    refine List.Nodup.filter _ (List.Nodup.filterMap ?_ List.nodup_range)
    intro i j fd hi hj
    exact SlotTable.slot_unique (Option.some_ne_none fd) hx.nodup (slotAt_eq_some.mp hi)
      (slotAt_eq_some.mp hj)
  refine (Multiset.Nodup.ext (Multiset.coe_nodup.mpr hnodup)
    (rset.erase x.listenfd).nodup).mpr fun fd => ?_
  rw [Multiset.mem_coe, Finset.mem_val, Finset.mem_erase, pending, List.mem_filter,
    decide_eq_true_eq, List.mem_filterMap]
  constructor
  · rintro ⟨⟨i, _, hi⟩, hready⟩
    refine ⟨?_, hready⟩
    rintro rfl
    exact hx.listen (mem_entries_of_slotAt hi)
  · rintro ⟨hne, hready⟩
    have hentry := ((hx.watched fd).mp (hsub fd hready hne)).resolve_left hne
    obtain ⟨i, hi⟩ := List.mem_iff_getElem?.mp (SlotTable.mem_entries.mp hentry).1
    have hle := hx.maxi i fd hi
    exact ⟨⟨i, List.mem_range.mpr (by omega), slotAt_eq_some.mpr hi⟩, hready⟩

theorem Ok.scanAll (hx : Ok x) (hsub : ∀ fd ∈ rset, fd ≠ x.listenfd → fd ∈ x.allset)
    (hcount : nready = (rset.erase x.listenfd).card)
    (h : scanAll rset inp nready x = .ok (y, es)) :
    Ok y ∧ y.listenfd = x.listenfd ∧
      (es : Multiset (Event (List Byte))) =
        (rset.erase x.listenfd).val.map (serve x.listenfd inp.round) ∧
      es.foldlM apply (conns x) = some (conns y) := by
  have hpending := hx.coe_pending hsub
  have hlen : (pending rset x (List.range (x.maxi + 1).toNat)).length =
      (rset.erase x.listenfd).card := by
    rw [← Multiset.coe_card, hpending]
    rfl
  obtain ⟨hy, hlisten, hes, hlegal⟩ :=
    hx.scan List.nodup_range (by rw [hcount, hlen]) h
  refine ⟨hy, hlisten, ?_, hlegal⟩
  rw [hes, ← Multiset.map_coe, hpending]

theorem Ok.iterate (hx : Ok x) (h : iterate x inp = .ok (y, es)) :
    Ok y ∧ y.listenfd = x.listenfd ∧ Serves x.listenfd (conns x) inp.round es (conns y) := by
  simp only [TcpServSelect.iterate] at h
  split at h
  · cases h
  · next rset hselect =>
    split at h
    · next hsub =>
      have hround : inp.round.ready = rset := by simp [Answers.round, hselect]
      have hready : inp.round.ready ⊆ insert x.listenfd (conns x) := by
        rw [hround, hx.insert_conns]
        exact hsub.1
      split at h
      · next hlisten =>
        have hval : rset.val = x.listenfd ::ₘ (rset.erase x.listenfd).val := by
          rw [Finset.erase_val]
          exact (Multiset.cons_erase hlisten).symm
        have hcard := Finset.card_erase_add_one hlisten
        cases hwelcome : TcpServSelect.welcome inp x with
        | error _ =>
            rw [hwelcome] at h
            cases h
        | ok p =>
            obtain ⟨z, es₁⟩ := p
            simp only [hwelcome, bind, Except.bind] at h
            obtain ⟨hz, hlisten', hes₁, hfresh, hallset, hlegal₁⟩ := hx.welcome hwelcome
            split at h
            · -- only the socket was ready
              next hlast =>
              obtain ⟨rfl, rfl⟩ := Prod.mk.inj (Except.ok.inj h)
              have hnil : rset.erase x.listenfd = ∅ := Finset.card_eq_zero.mp (by omega)
              refine ⟨hz, hlisten', hready, ?_, hlegal₁⟩
              rw [hround, hval, hnil, hes₁]
              simp
            · cases hscan : TcpServSelect.scanAll rset inp ((rset.card : ℤ) - 1) z with
              | error _ =>
                  simp only [hscan] at h
                  cases h
              | ok q =>
                  obtain ⟨w, es₂⟩ := q
                  simp only [hscan] at h
                  obtain ⟨rfl, rfl⟩ := Prod.mk.inj (Except.ok.inj h)
                  have hsub' : ∀ fd ∈ rset, fd ≠ z.listenfd → fd ∈ z.allset := by
                    intro fd hfd _
                    rw [hallset]
                    exact Finset.mem_insert_of_mem (hsub.1 hfd)
                  have hcount : (rset.card : ℤ) - 1 = (rset.erase z.listenfd).card := by
                    rw [hlisten']
                    omega
                  obtain ⟨hw, hlisten'', hes₂, hlegal₂⟩ := hz.scanAll hsub' hcount hscan
                  refine ⟨hw, hlisten''.trans hlisten', hready, ?_, ?_⟩
                  · rw [← Multiset.coe_add, hes₂, hes₁, hlisten', hround, hval,
                      Multiset.map_cons, serve_listening]
                    rfl
                  · rw [List.foldlM_append, hlegal₁]
                    exact hlegal₂
      · next hlisten =>
        have herase : rset.erase x.listenfd = rset := Finset.erase_eq_of_notMem hlisten
        obtain ⟨hy, hlisten', hes, hlegal⟩ := hx.scanAll (fun fd hfd _ => hsub.1 hfd)
          (by rw [herase]) h
        rw [herase] at hes
        refine ⟨hy, hlisten', hready, ?_, hlegal⟩
        rw [hround, hes]
    · cases h

/-! ## Runs -/

/-- Each iteration serves its round. -/
theorem implements (listenfd : ℕ) :
    Implements listenfd (Starts listenfd) iterate conns (fun inp => inp.round)
      (fun x => Ok x ∧ x.listenfd = listenfd) where
  start _ hx := ⟨⟨hx.ok, hx.listenfd_eq⟩, hx.conns_eq⟩
  step := by
    rintro x inp y es ⟨hx, rfl⟩ h
    obtain ⟨hy, hlisten, hserves⟩ := hx.iterate h
    exact ⟨⟨hy, hlisten⟩, hserves⟩

/-- The server with its socket on descriptor 5, and zeroed memory. -/
def atStart : Server :=
  ⟨5, .blank fdSetSize none, -1, 5, {5}, .fillWith maxLine 0, {0, 1, 2, 5}⟩

/-- A client connects on descriptor 4, is echoed, and leaves while another one connects. -/
def answers : List (Answers Byte) :=
  [⟨some {5}, some 4, fun _ => none⟩, ⟨some {4}, none, fun _ => some (ascii "hi")⟩,
    ⟨some {4, 5}, some 6, fun _ => some []⟩]

theorem answers_run :
    ∃ tr x, (system 5).Exec tr x ∧ tr.map (fun p => p.2.toAnswers) = answers ∧
      tr.flatMap (eventsOf iterate) =
        [.opened 4, .data 4 (ascii "hi"), .opened 6, .closed 4] := by
  have hrun : (System.replay (nextOf iterate) atStart (answers.map fun a => ⟨a, fun _ => true⟩)).map
      (fun p => p.1.flatMap (eventsOf iterate)) =
        some [.opened 4, .data 4 (ascii "hi"), .opened 6, .closed 4] := by decide +kernel
  have hinit : (system 5).init atStart := ⟨rfl, by decide, rfl, rfl, rfl, rfl, by decide⟩
  obtain ⟨tr, x, hexec, hlabels, hevents⟩ := System.exec_of_replay_labels hinit hrun
  refine ⟨tr, x, hexec, ?_, hevents⟩
  simpa [Function.comp_def] using congrArg (List.map Input.toAnswers) hlabels

/-- **The server refines the multiplexer**, although it looks at fewer descriptors and entries. In
every run, an iteration accepts or reads exactly once on each descriptor that `select` reported,
and on no other, and it writes to each client what it read from it. The set passed to `select` is
the listening socket and what was accepted and is not closed. -/
theorem select_multiplexes (listenfd : ℕ) (tr : List (Server × Input)) (x : Server)
    (h : (system listenfd).Exec tr x) :
    (∀ p ∈ tr, (eventsOf iterate p : Multiset (Event (List Byte))) =
      p.2.round.ready.val.map (serve listenfd p.2.round)) ∧
    listenfd ∈ x.allset ∧
    ∀ fd, (tr.flatMap (eventsOf iterate)).count (.opened fd) =
      (tr.flatMap (eventsOf iterate)).count (.closed fd) +
        if fd ∈ x.allset ∧ fd ≠ listenfd then 1 else 0 := by
  obtain ⟨⟨hx, rfl⟩, _⟩ := (implements listenfd).exec h
  refine ⟨(implements x.listenfd).served h, hx.listen_mem, fun fd => ?_⟩
  have hcount := (implements x.listenfd).count_eq h fd
  simpa [conns, and_comm] using hcount

theorem select_multiplexes_three :
    ∃ tr x, (system 5).Exec tr x ∧ 5 ∈ x.allset ∧ 6 ∈ x.allset ∧ 4 ∉ x.allset := by
  obtain ⟨tr, x, hexec, _, hevents⟩ := answers_run
  obtain ⟨_, hlisten, hcount⟩ := select_multiplexes 5 tr x hexec
  rw [hevents] at hcount
  refine ⟨tr, x, hexec, hlisten, ?_, ?_⟩
  · by_contra hmem
    have hsix := hcount 6
    simp [hmem] at hsix
  · intro hmem
    have hfour := hcount 4
    simp [hmem] at hfour

/-! ## Room for a client -/

/-- There are as many entries as clients. -/
theorem Ok.length_entries (hx : Ok x) : (x.client.entries none).length = (conns x).card := by
  have himage : (x.client.entries none).toFinset = (conns x).image some := by
    ext entry
    rw [List.mem_toFinset, Finset.mem_image]
    constructor
    · intro hentry
      obtain ⟨fd, rfl⟩ := Option.ne_none_iff_exists'.mp (SlotTable.mem_entries.mp hentry).2
      refine ⟨fd, Finset.mem_erase.mpr ⟨?_, (hx.watched fd).mpr (.inr hentry)⟩, rfl⟩
      rintro rfl
      exact hx.listen hentry
    · rintro ⟨fd, hfd, rfl⟩
      obtain ⟨hne, hmem⟩ := Finset.mem_erase.mp hfd
      exact ((hx.watched fd).mp hmem).resolve_left hne
  rw [← List.toFinset_card_of_nodup hx.nodup, himage,
    Finset.card_image_of_injective _ (Option.some_injective ℕ)]

/-- The clients are descriptors below `FD_SETSIZE`, and so is the listening socket. -/
theorem Ok.not_full (hx : Ok x) : ¬x.client.Full none := by
  intro hfull
  have hall : x.client.entries none = x.client.slots :=
    List.filter_eq_self.mpr fun entry hentry => by
      simpa using fun heq : entry = none => hfull (heq ▸ hentry)
  have hsub : x.allset ⊆ Finset.range fdSetSize := fun fd hfd =>
    Finset.mem_range.mpr (hx.small fd hfd)
  have hfew : x.allset.card ≤ fdSetSize :=
    (Finset.card_le_card hsub).trans (Finset.card_range fdSetSize).le
  have hmany : (conns x).card = fdSetSize := by
    rw [← hx.length_entries, hall, x.client.length_slots]
  have hone : (conns x).card + 1 = x.allset.card := Finset.card_erase_add_one hx.listen_mem
  omega

theorem echo_ne : echo inp i sockfd x ≠ .error .tooMany := by
  simp only [echo]
  split
  · simp
  · simp
  · split
    · simp
    · split <;> simp

theorem scan_ne {is : List ℕ} : scan rset inp is nready x ≠ .error .tooMany := by
  induction is generalizing x nready with
  | nil => simp [scan]
  | cons i is ih =>
      simp only [scan]
      split
      · exact ih
      · split
        · intro h
          simp only [bind, bind_eq_error] at h
          rcases h with h | ⟨p, _, h⟩
          · exact echo_ne h
          · split at h
            · cases h
            · simp only [bind_eq_error] at h
              rcases h with h | ⟨q, _, h⟩
              · exact ih h
              · cases h
        · exact ih

theorem Ok.welcome_ne (hx : Ok x) : TcpServSelect.welcome inp x ≠ .error .tooMany := by
  intro h
  simp only [TcpServSelect.welcome] at h
  split at h
  · cases h
  · split at h
    · cases h
    · split at h
      · next hlast => exact hx.not_full (SlotTable.full_of_firstVacant hlast)
      · split at h <;> cases h

/-- **The array never fills.** In no run, and for no answers, does the server end with
"too many clients": the descriptors run out first. -/
theorem never_full (listenfd : ℕ) (tr : List (Server × Input)) (x : Server)
    (h : (system listenfd).Exec tr x) (inp : Input) : iterate x inp ≠ .error .tooMany := by
  have hx : Ok x := ((implements listenfd).exec h).1.1
  intro hfull
  simp only [iterate] at hfull
  split at hfull
  · cases hfull
  · split at hfull
    · split at hfull
      · simp only [bind, bind_eq_error] at hfull
        rcases hfull with hfull | ⟨p, _, hfull⟩
        · exact hx.welcome_ne hfull
        · split at hfull
          · cases hfull
          · simp only [bind_eq_error] at hfull
            rcases hfull with hfull | ⟨q, _, hfull⟩
            · exact scan_ne hfull
            · cases hfull
      · exact scan_ne hfull
    · cases hfull

theorem never_full_three :
    ∃ tr x, (system 5).Exec tr x ∧ tr.length = 3 ∧
      iterate x ⟨⟨some {5}, some 7, fun _ => none⟩, fun _ => true⟩ ≠ .error .tooMany := by
  obtain ⟨tr, x, hexec, hanswers, _⟩ := answers_run
  refine ⟨tr, x, hexec, ?_, never_full 5 tr x hexec _⟩
  simpa [answers] using congrArg List.length hanswers

/-! ## Two servers -/

/-- **The server watches what the server of the manual watches**, which has no array and scans all
descriptors: in any two runs with the same answers of the kernel, they pass the same sets to
`select`, and serve the same in each iteration, if in another order. -/
theorem watches_alike (sock : ℕ) (tr : List (Server × Input)) (x : Server)
    (tr' : List (Chat.ServerExample.Server × Chat.ServerExample.Input))
    (x' : Chat.ServerExample.Server) (h : (system sock).Exec tr x)
    (h' : (Chat.ServerExample.system sock).Exec tr' x')
    (hanswers : tr.map (fun p => p.2.toAnswers) = tr'.map fun p => p.2.toAnswers) :
    x.allset = x'.active_fd_set ∧
      tr.map (fun p => (eventsOf iterate p : Multiset (Event (List Byte)))) =
        tr'.map fun p => (eventsOf Chat.ServerExample.iterate p : Multiset _) := by
  obtain ⟨⟨hx, hlisten⟩, hexec⟩ := (implements sock).exec h
  obtain ⟨⟨hx', hsock⟩, hexec'⟩ := (Chat.ServerExample.implements sock).exec h'
  have hrounds : tr.map (fun p => p.2.round) = tr'.map fun p => p.2.round := by
    simpa [Function.comp_def] using congrArg (List.map Answers.round) hanswers
  have hconns : conns x = Chat.ServerExample.conns x' := by
    refine Multiplexer.agree hexec hexec' ?_
    rw [List.map_map, List.map_map]
    exact hrounds
  refine ⟨?_, ?_⟩
  · rw [← hx.insert_conns, ← hx'.insert_conns, hconns, hlisten, hsock]
  · have hserved := List.map_congr_left ((implements sock).served h)
    have hserved' := List.map_congr_left ((Chat.ServerExample.implements sock).served h')
    have hsame := congrArg (List.map fun r => r.ready.val.map (serve sock r)) hrounds
    rw [List.map_map, List.map_map] at hsame
    exact hserved.trans (hsame.trans hserved'.symm)

/-- The server of the manual, in the same rounds. -/
theorem watches_alike_three :
    ∃ tr x tr' x', (system 5).Exec tr x ∧ (Chat.ServerExample.system 5).Exec tr' x' ∧
      tr.length = 3 ∧ x.allset = x'.active_fd_set := by
  obtain ⟨tr, x, hexec, hanswers, _⟩ := answers_run
  have hrun : (System.replay (nextOf Chat.ServerExample.iterate) Chat.ServerExample.atStart
      (answers.map fun a => ⟨a, fun _ => .fillWith 512 0⟩)).map (fun p => p.1.length) =
        some 3 := by decide +kernel
  have hinit : (Chat.ServerExample.system 5).init Chat.ServerExample.atStart :=
    ⟨rfl, by decide, rfl, by decide⟩
  obtain ⟨tr', x', hexec', hlabels, _⟩ := System.exec_of_replay_labels hinit hrun
  have hanswers' : tr'.map (fun p => p.2.toAnswers) = answers := by
    simpa [Function.comp_def] using
      congrArg (List.map Chat.ServerExample.Input.toAnswers) hlabels
  refine ⟨tr, x, tr', x', hexec, hexec', ?_, ?_⟩
  · simpa [answers] using congrArg List.length hanswers
  · exact (watches_alike 5 tr x tr' x' hexec hexec' (hanswers.trans hanswers'.symm)).1

end SocketPrograms.Unp.TcpServSelect
