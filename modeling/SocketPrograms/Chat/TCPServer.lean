import SocketPrograms.Lib.CharArray
import SocketPrograms.Lib.SlotTable
import SocketPrograms.Lib.Transition
import Mathlib.Data.Finset.Insert
import Mathlib.Data.Finset.Erase

/-!
# The select chat server

`TCPServer.c` keeps the descriptors of its clients in a table of 30 slots, where 0 marks a
vacant one. Each iteration rebuilds the set it passes to `select`, accepts at most one
connection, and scans the slots; what it reads from one client it sends on.

Descriptors are natural numbers: the table holds what `accept` returned, or 0. What the
kernel answers in an iteration is its input, and so is where a `send` ends the process: one on
a listening socket, or on a connection that was reset, raises SIGPIPE.

## Main definitions

* `Server` — the server's variables and the descriptors it has open.
* `rebuild`, `welcome`, `visit`, `scanLoop` — the parts of an iteration, and `iterate`.
* `Allowed` — the answers a kernel may give.
-/

namespace SocketPrograms.Chat.TCPServer

/-- `max_clients`. -/
abbrev maxClients : ℕ := 30

/-- `FD_SETSIZE`: an `fd_set` has no bit for a descriptor from here on. -/
abbrev fdSetSize : ℕ := 1024

/-- The text sent to a new connection. -/
def message : List Byte := ascii "ECHO Daemon v1.0 \r\n"

/-- The variables that outlive an iteration, and the descriptors open in the process. -/
structure Server where
  master_socket : ℕ
  client_socket : SlotTable ℕ maxClients
  buffer : CharArray 1025
  opened : Finset ℕ
  /-- What `accept` returned and the server has not closed (history). -/
  connected : Finset ℕ

/-- What a `read` returns. -/
inductive ReadResult
  /-- 0: the other side has closed. -/
  | closed
  /-- The bytes read. -/
  | data (bytes : List Byte)
  /-- -1. -/
  | failed

/-- What the kernel answers in an iteration. -/
structure Input where
  /-- The set `select` leaves, or `none` where it fails. -/
  select : Option (Finset ℕ)
  /-- What `accept` returns, if it is called; `none` where it fails. -/
  accept : Option ℕ
  /-- Whether the `send` of the welcome text, if it is called, returns. -/
  greeted : Bool
  /-- What the `read` for slot `i` returns, if it is called. -/
  read : ℕ → ReadResult
  /-- Whether the `send` on `j` in the broadcast for slot `i`, if it is called, returns. -/
  sent : ℕ → ℕ → Bool
  /-- What the broadcast for slot `i` finds at index `j` behind the table. -/
  outside : ℕ → ℕ → ℤ

/-- What the scan does for a slot that is ready. -/
inductive Event
  /-- `read` returned 0, and the descriptor was closed. -/
  | closed (sd : ℕ)
  /-- `read` returned these bytes, and `send` was called with `text` on each of `targets`, in
  order. The connections at that moment are history. -/
  | message (sd : ℕ) (bytes text : List Byte) (targets : List ℕ) (connected : Finset ℕ)
  deriving DecidableEq

/-- The descriptor that was read. -/
def Event.sd : Event → ℕ
  | .closed sd => sd
  | .message sd _ _ _ _ => sd

/-- What an iteration did. -/
structure Log where
  /-- The set and the maximum passed to `select`. -/
  watched : Finset ℕ
  max_sd : ℕ
  /-- What `accept` returned and `message` was sent on. -/
  accepted : Option ℕ
  events : List Event

/-- `FD_SET(sd, &readfds)`, which is out of bounds from `FD_SETSIZE` on. -/
def fdSet (readfds : Finset ℕ) (sd : ℕ) : Option (Finset ℕ) :=
  if sd < fdSetSize then some (insert sd readfds) else none

/-- The body of the loop that adds the slots to `readfds` and raises `max_sd`. -/
def watch (p : Finset ℕ × ℕ) (sd : ℕ) : Option (Finset ℕ × ℕ) := do
  let readfds ← if 0 < sd then fdSet p.1 sd else some p.1
  return (readfds, if p.2 < sd then sd else p.2)

/-- The rebuild of `readfds` and `max_sd`. -/
def rebuild (x : Server) : Option (Finset ℕ × ℕ) := do
  let readfds ← fdSet ∅ x.master_socket
  x.client_socket.slots.foldlM watch (readfds, x.master_socket)

/-- The insertion of a new connection. Where no slot is vacant, it is in none. -/
def enroll (x : Server) (new_socket : ℕ) : Server :=
  { x with
    client_socket := x.client_socket.place 0 new_socket
    opened := insert new_socket x.opened
    connected := insert new_socket x.connected }

/-- The branch on `FD_ISSET(master_socket, &readfds)`: what `accept` returned, if it was
called, and the server, unless the program has ended. A failed `accept` ends it. -/
def welcome (readfds : Finset ℕ) (inp : Input) (x : Server) : Option ℕ × Option Server :=
  if x.master_socket ∈ readfds then
    (inp.accept, inp.accept.bind fun fd => if inp.greeted then some (enroll x fd) else none)
  else (none, some x)

/-- `client_socket[j]`, also where `j` is behind the table. -/
def slotAt (x : Server) (outside : ℕ → ℤ) (j : ℕ) : ℤ :=
  (x.client_socket.slots[j]?.map Nat.cast).getD (outside j)

/-- `for (int i = 0; i < max_sd; i++) if (client_socket[i] != sd) send(i, ...)`: the
descriptors that it sends on. -/
def targets (x : Server) (max_sd : ℕ) (outside : ℕ → ℤ) (sd : ℕ) : List ℕ :=
  (List.range max_sd).filter fun i => slotAt x outside i ≠ sd

/-- Of the sends on these descriptors those that are called: the last is one that does not
return. -/
def called (sent : ℕ → Bool) : List ℕ → List ℕ
  | [] => []
  | j :: js => j :: if sent j then called sent js else []

/-- The end of a connection: `close(sd); client_socket[i] = 0`. -/
def hangUp (x : Server) (i sd : ℕ) : Server :=
  { x with
    client_socket := x.client_socket.vacate 0 i
    opened := x.opened.erase sd
    connected := x.connected.erase sd }

/-- The body of the scan for slot `i`: what it does, and the server behind it. There is none
where the process ends in a `send`, and where the code is out of bounds: `FD_ISSET` of a
descriptor from `FD_SETSIZE` on, and `buffer[-1]`, written where `read` failed. -/
def visit (readfds : Finset ℕ) (max_sd : ℕ) (inp : Input) (i : ℕ) (x : Server) :
    List Event × Option Server :=
  let sd := x.client_socket.slots[i]?.getD 0
  if fdSetSize ≤ sd then ([], none)
  else if sd ∈ readfds then
    match inp.read i with
    | .closed => ([.closed sd], some (hangUp x i sd))
    | .data bytes =>
        match (x.buffer.store bytes).write bytes.length [0] with
        | none => ([], none)
        | some buffer =>
            match buffer.text with
            | none => ([], none)
            | some text =>
                let ts := targets x max_sd (inp.outside i) sd
                ([.message sd bytes text (called (inp.sent i) ts) x.connected],
                  if ∀ j ∈ ts, inp.sent i j then some { x with buffer } else none)
    | .failed => ([], none)
  else ([], some x)

/-- The scan of the slots `is`. -/
def scanLoop (readfds : Finset ℕ) (max_sd : ℕ) (inp : Input) :
    List ℕ → Server → List Event × Option Server
  | [], x => ([], some x)
  | i :: is, x =>
      match visit readfds max_sd inp i x with
      | (es, none) => (es, none)
      | (es, some x) =>
          let (es', x) := scanLoop readfds max_sd inp is x
          (es ++ es', x)

/-- One iteration of the server loop: what it does, and the server behind it, unless the
program has ended. It is defined where the set can be rebuilt. A failed `select` leaves the
set as it was passed. -/
def iterate (x : Server) (inp : Input) : Option (Log × Option Server) := do
  let (watched, max_sd) ← rebuild x
  let readfds := inp.select.getD watched
  match welcome readfds inp x with
  | (accepted, none) => return (⟨watched, max_sd, accepted, []⟩, none)
  | (accepted, some x) =>
      let (events, x) := scanLoop readfds max_sd inp (List.range' 0 maxClients) x
      return (⟨watched, max_sd, accepted, events⟩, x)

/-- What the scans of a run did, in order. -/
def events (tr : List (Server × Input)) : List Event :=
  tr.flatMap fun p => ((iterate p.1 p.2).map fun q => q.1.events).getD []

/-- A server at its start: no slot is in use, and the descriptors 0 to 2 and the listening
socket are open. -/
structure Starts (x : Server) : Prop where
  master : 2 < x.master_socket
  slots : x.client_socket = .blank maxClients 0
  opened : ∀ fd, fd ≤ 2 ∨ fd = x.master_socket → fd ∈ x.opened
  connected : x.connected = ∅

/-- The server after an iteration. -/
def next (x : Server) (inp : Input) : Option Server := (iterate x inp).bind Prod.snd

/-- The server, started with no client. -/
def system : System Server Input := .ofNext Starts next

/-- A `read` returned 0 to 1024. -/
def ReadResult.Ok : ReadResult → Prop
  | .closed => True
  | .data bytes => 1 ≤ bytes.length ∧ bytes.length ≤ 1024
  | .failed => False

/-- The answers that are assumed of the kernel: `select` fails or reports descriptors it was
given, `accept` fails or returns a descriptor that is not open, and no `read` fails. -/
structure Allowed (x : Server) (inp : Input) : Prop where
  select : ∀ ready ∈ inp.select, ∀ p ∈ rebuild x, ready ⊆ p.1
  accept : ∀ fd ∈ inp.accept, fd ∉ x.opened
  read : ∀ i < maxClients, (inp.read i).Ok

instance (r : ReadResult) : Decidable r.Ok :=
  match r with
  | .closed => .isTrue trivial
  | .data _ => inferInstanceAs (Decidable (_ ∧ _))
  | .failed => .isFalse id

instance (x : Server) (inp : Input) : Decidable (Allowed x inp) :=
  decidable_of_iff
    ((∀ ready ∈ inp.select, ∀ p ∈ rebuild x, ready ⊆ p.1) ∧
      (∀ fd ∈ inp.accept, fd ∉ x.opened) ∧
      ∀ i < maxClients, (inp.read i).Ok)
    ⟨fun h => ⟨h.1, h.2.1, h.2.2⟩, fun h => ⟨h.select, h.accept, h.read⟩⟩

/-! ## What each part can do -/

variable {x y : Server} {inp : Input} {readfds : Finset ℕ} {max_sd i : ℕ} {es : List Event}
  {r : Option Server}

/-- A message is cut at its first NUL: the terminator the server writes comes behind it. -/
theorem terminate_spec (buffer : CharArray 1025) {bytes : List Byte} (h : bytes.length ≤ 1024) :
    ∃ buffer', (buffer.store bytes).write bytes.length [0] = some buffer' ∧
      buffer'.text = some (cstr bytes) := by
  obtain ⟨buffer', hwrite, hbytes⟩ := (buffer.store bytes).write_of_le
    (show bytes.length + [(0 : Byte)].length ≤ 1025 by simp; omega)
  refine ⟨buffer', hwrite, ?_⟩
  rw [CharArray.text, hbytes, CharArray.bytes_store (by omega), List.take_left,
    List.append_assoc, List.singleton_append, textOf_append_zero]

/-- Where each send returns, all of them are called. -/
theorem called_eq_self {sent : ℕ → Bool} {js : List ℕ} (h : ∀ j ∈ js, sent j) :
    called sent js = js := by
  induction js with
  | nil => rfl
  | cons j js ih =>
      rw [called, if_pos (h j List.mem_cons_self), ih fun k hk => h k (List.mem_cons_of_mem j hk)]

/-- What a visit does: it is out of bounds, or passes over its slot, or reads it. -/
theorem visit_cases (hread : (inp.read i).Ok) (h : visit readfds max_sd inp i x = (es, r)) :
    (fdSetSize ≤ x.client_socket.slots[i]?.getD 0 ∧ r = none ∧ es = []) ∨
    (x.client_socket.slots[i]?.getD 0 ∉ readfds ∧ r = some x ∧ es = []) ∨
    ∃ sd, sd = x.client_socket.slots[i]?.getD 0 ∧ sd ∈ readfds ∧
      ((inp.read i = .closed ∧ r = some (hangUp x i sd) ∧ es = [.closed sd]) ∨
       ∃ bytes buffer, inp.read i = .data bytes ∧ 1 ≤ bytes.length ∧ bytes.length ≤ 1024 ∧
        r = (if ∀ j ∈ targets x max_sd (inp.outside i) sd, inp.sent i j then
          some { x with buffer } else none) ∧
        es = [.message sd bytes (cstr bytes)
          (called (inp.sent i) (targets x max_sd (inp.outside i) sd)) x.connected]) := by
  simp only [visit] at h
  split at h
  · next hbound =>
    obtain ⟨rfl, rfl⟩ := Prod.mk.inj h
    exact .inl ⟨hbound, rfl, rfl⟩
  · split at h
    · next hready =>
      right
      right
      refine ⟨_, rfl, hready, ?_⟩
      cases hres : inp.read i with
      | closed =>
          rw [hres] at h
          obtain ⟨rfl, rfl⟩ := Prod.mk.inj h
          exact .inl ⟨rfl, rfl, rfl⟩
      | data bytes =>
          rw [hres] at h hread
          obtain ⟨buffer, hwrite, htext⟩ := terminate_spec x.buffer hread.2
          simp only [hwrite, htext] at h
          obtain ⟨rfl, rfl⟩ := Prod.mk.inj h
          exact .inr ⟨bytes, buffer, rfl, hread.1, hread.2, rfl, rfl⟩
      | failed =>
          rw [hres] at hread
          exact hread.elim
    · next hready =>
      obtain ⟨rfl, rfl⟩ := Prod.mk.inj h
      exact .inr (.inl ⟨hready, rfl, rfl⟩)

/-- What a visit does that the process outlives. Each send has returned then. -/
theorem visit_some_cases (h : visit readfds max_sd inp i x = (es, some y)) :
    (x.client_socket.slots[i]?.getD 0 ∉ readfds ∧ y = x ∧ es = []) ∨
    ∃ sd, sd = x.client_socket.slots[i]?.getD 0 ∧ sd ∈ readfds ∧
      ((y = hangUp x i sd ∧ es = [.closed sd]) ∨
       ∃ bytes text buffer, y = { x with buffer } ∧
        es = [.message sd bytes text (targets x max_sd (inp.outside i) sd) x.connected]) := by
  simp only [visit] at h
  split at h
  · cases (Prod.mk.inj h).2
  · split at h
    · next hready =>
      right
      refine ⟨_, rfl, hready, ?_⟩
      split at h
      · left
        simpa [eq_comm, and_comm] using h
      · next bytes _ =>
        right
        split at h
        · cases (Prod.mk.inj h).2
        · next buffer _ =>
          split at h
          · cases (Prod.mk.inj h).2
          · next text _ =>
            obtain ⟨hes, hy⟩ := Prod.mk.inj h
            split at hy
            · next hsent =>
              rw [called_eq_self hsent] at hes
              exact ⟨bytes, text, buffer, (Option.some.inj hy).symm, hes.symm⟩
            · cases hy
      · cases (Prod.mk.inj h).2
    · next hready =>
      left
      obtain ⟨hes, hy⟩ := Prod.mk.inj h
      exact ⟨hready, (Option.some.inj hy).symm, hes.symm⟩

/-- A visit that the process outlives reads its slot where that is ready, and leaves the later
slots. -/
theorem visit_of_ready (h : visit readfds max_sd inp i x = (es, some y)) :
    (∀ fd ∈ readfds, x.client_socket.slots[i]? = some fd → fd ∈ es.map Event.sd) ∧
      y.client_socket.slots.drop (i + 1) = x.client_socket.slots.drop (i + 1) := by
  rcases visit_some_cases h with ⟨hready, rfl, rfl⟩ | ⟨sd, rfl, _, hcases⟩
  · refine ⟨fun fd hfd hslot => ?_, rfl⟩
    rw [hslot] at hready
    exact absurd hfd hready
  · rcases hcases with ⟨rfl, rfl⟩ | ⟨_, _, _, rfl, rfl⟩
    · refine ⟨fun fd _ hslot => ?_, SlotTable.drop_vacate (Nat.lt_succ_self i)⟩
      simp [hslot, Event.sd]
    · refine ⟨fun fd _ hslot => ?_, rfl⟩
      simp [hslot, Event.sd]

/-- The slots behind the one that is visited stay as they are. -/
theorem visit_later (h : visit readfds max_sd inp i x = (es, some y)) {j : ℕ} (hj : i < j) :
    y.client_socket.slots[j]? = x.client_socket.slots[j]? := by
  have hdrop := congrArg (·[j - (i + 1)]?) (visit_of_ready h).2
  simp only [List.getElem?_drop] at hdrop
  rwa [show i + 1 + (j - (i + 1)) = j by omega] at hdrop

/-- The scan of one slot more. -/
theorem scanLoop_cases {is : List ℕ} (h : scanLoop readfds max_sd inp (i :: is) x = (es, r)) :
    (visit readfds max_sd inp i x = (es, none) ∧ r = none) ∨
    ∃ z es₁ es₂, visit readfds max_sd inp i x = (es₁, some z) ∧
      scanLoop readfds max_sd inp is z = (es₂, r) ∧ es = es₁ ++ es₂ := by
  rw [scanLoop] at h
  split at h
  · next es₁ hvisit =>
    obtain ⟨rfl, rfl⟩ := Prod.mk.inj h
    exact .inl ⟨hvisit, rfl⟩
  · next es₁ z hvisit =>
    obtain ⟨rfl, rfl⟩ := Prod.mk.inj h
    exact .inr ⟨z, es₁, _, hvisit, rfl, rfl⟩

/-- **What each visit keeps, the scan keeps**, and each event of the scan is one of a visit
that starts where it holds. -/
theorem scanLoop_rule (P : Server → Prop) {is : List ℕ}
    (hvisit : ∀ i ∈ is, ∀ x y es, P x → visit readfds max_sd inp i x = (es, some y) → P y) :
    ∀ (x : Server) (es : List Event) (r : Option Server), P x →
      scanLoop readfds max_sd inp is x = (es, r) →
      (∀ y ∈ r, P y) ∧
        ∀ e ∈ es, ∃ i ∈ is, ∃ z, P z ∧ e ∈ (visit readfds max_sd inp i z).1 := by
  induction is with
  | nil =>
      intro x es r hx hscan
      obtain ⟨rfl, rfl⟩ := Prod.mk.inj hscan
      simpa using hx
  | cons i is ih =>
      intro x es r hx hscan
      rcases scanLoop_cases hscan with ⟨hended, rfl⟩ | ⟨z, es₁, es₂, hz, hrest, rfl⟩
      · refine ⟨by simp, fun e he => ⟨i, List.mem_cons_self, x, hx, ?_⟩⟩
        rwa [hended]
      · have hPz : P z := hvisit i List.mem_cons_self x z es₁ hx hz
        obtain ⟨hP, hes⟩ :=
          ih (fun j hj => hvisit j (List.mem_cons_of_mem i hj)) z es₂ r hPz hrest
        refine ⟨hP, fun e he => ?_⟩
        rcases List.mem_append.mp he with he | he
        · exact ⟨i, List.mem_cons_self, x, hx, by rwa [hz]⟩
        · obtain ⟨j, hj, w, hw⟩ := hes e he
          exact ⟨j, List.mem_cons_of_mem i hj, w, hw⟩

theorem welcome_cases {accepted : Option ℕ} (h : welcome readfds inp x = (accepted, r)) :
    (x.master_socket ∉ readfds ∧ r = some x ∧ accepted = none) ∨
    (x.master_socket ∈ readfds ∧ accepted = inp.accept ∧
      ∀ y ∈ r, ∃ fd, inp.accept = some fd ∧ y = enroll x fd) := by
  rw [welcome] at h
  split at h
  · next hmaster =>
    obtain ⟨rfl, rfl⟩ := Prod.mk.inj h
    refine .inr ⟨hmaster, rfl, fun y hy => ?_⟩
    obtain ⟨fd, hfd, hy⟩ := Option.bind_eq_some_iff.mp hy
    split at hy
    · exact ⟨fd, hfd, (Option.some.inj hy).symm⟩
    · cases hy
  · next hmaster =>
    obtain ⟨rfl, rfl⟩ := Prod.mk.inj h
    exact .inl ⟨hmaster, rfl, rfl⟩

/-- An iteration: the set is rebuilt, and either the program ends with the new connection, or
the slots are scanned. -/
theorem iterate_cases {log : Log} (h : iterate x inp = some (log, r)) :
    rebuild x = some (log.watched, log.max_sd) ∧
      ((welcome (inp.select.getD log.watched) inp x = (log.accepted, none) ∧ log.events = [] ∧
          r = none) ∨
        ∃ z, welcome (inp.select.getD log.watched) inp x = (log.accepted, some z) ∧
          scanLoop (inp.select.getD log.watched) log.max_sd inp (List.range' 0 maxClients) z =
            (log.events, r)) := by
  rw [iterate, Option.bind_eq_bind, Option.bind_eq_some_iff] at h
  obtain ⟨⟨watched, max_sd⟩, hrebuild, h⟩ := h
  dsimp only at h
  split at h
  · next accepted hwelcome =>
    obtain ⟨rfl, rfl⟩ := Prod.mk.inj (Option.some.inj h)
    exact ⟨hrebuild, .inl ⟨hwelcome, rfl, rfl⟩⟩
  · next accepted z hwelcome =>
    cases hscan : scanLoop (inp.select.getD watched) max_sd inp (List.range' 0 maxClients) z with
    | mk events y =>
        rw [hscan] at h
        obtain ⟨rfl, rfl⟩ := Prod.mk.inj (Option.some.inj h)
        exact ⟨hrebuild, .inr ⟨z, hwelcome, hscan⟩⟩

/-- An iteration that the process outlives. -/
theorem iterate_some_cases {log : Log} (h : iterate x inp = some (log, some y)) :
    rebuild x = some (log.watched, log.max_sd) ∧
      ∃ z, welcome (inp.select.getD log.watched) inp x = (log.accepted, some z) ∧
        scanLoop (inp.select.getD log.watched) log.max_sd inp (List.range' 0 maxClients) z =
          (log.events, some y) := by
  obtain ⟨hrebuild, ⟨_, _, hended⟩ | hscan⟩ := iterate_cases h
  · cases hended
  · exact ⟨hrebuild, hscan⟩

/-- A step of the system is such an iteration. -/
theorem next_eq_some (h : next x inp = some y) : ∃ log, iterate x inp = some (log, some y) := by
  obtain ⟨⟨log, r⟩, hiterate, hr⟩ := Option.bind_eq_some_iff.mp h
  obtain rfl : r = some y := hr
  exact ⟨log, hiterate⟩

end SocketPrograms.Chat.TCPServer
