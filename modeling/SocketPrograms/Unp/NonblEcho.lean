import SocketPrograms.Unp.StrCli
import SocketPrograms.Unp.StrCliNonb

/-!
# The nonblocking client and the echo server

The client of `strclinonb.c` is connected with `str_echo`, over a connection that holds only so
many bytes in each direction. An iteration of the client is one step, in which the kernel may
report and answer what it likes, but for the bytes: what is read from the socket is in flight, and
the end of the socket comes behind the end of the server.

## Main definitions

* `Echo`, `next`, `system` — the client, the server, and the bytes in flight.

## Main results

* `comes_back` — **every byte that was typed is somewhere in the round trip, in order**; the
  client is never told that the server ended prematurely, and returns when all has come back.
* `keeps_moving` — **no deadlock**: while the client waits only for its input, everything typed is
  printed, however little the connection holds.
-/

namespace SocketPrograms.Unp.NonblEcho

open StrCliNonb (Input ReadResult maxLine watch)
open StrCli (ServerAt)

/-- The client, the server, and the bytes in flight in both directions. -/
structure Echo where
  client : StrCliNonb.State
  up : List Byte
  serverAt : ServerAt
  down : List Byte

/-- How many bytes the connection holds in each direction. -/
structure Capacity where
  up : ℕ
  down : ℕ

/-- The steps of the two sides. -/
inductive Label
  /-- An iteration of the client, with what the kernel answers in it. -/
  | client (inp : Input)
  | recv (n : ℕ)
  /-- The server's `read` returns 0. -/
  | recvEnd
  | send (n : ℕ)

/-- What `read` may return on the client's socket. -/
def Echo.Answers (p : Echo) : ReadResult → Prop
  | .data [] => p.down = [] ∧ p.serverAt = .left
  | .data bytes => bytes <+: p.down
  | _ => True

instance (p : Echo) (r : ReadResult) : Decidable (p.Answers r) := by
  unfold Echo.Answers
  split <;> infer_instance

/-- The client has called `shutdown`, or has ended. -/
def Echo.Finished (p : Echo) : Prop := p.client.shutdowns ≠ 0 ∨ p.client.at_ ≠ .head

instance (p : Echo) : Decidable p.Finished := inferInstanceAs (Decidable (_ ∨ _))

/-- One step. -/
def next (cap : Capacity) (p : Echo) : Label → Option Echo
  | .client inp =>
      if p.Answers inp.sock then
        (StrCliNonb.next p.client inp).bind fun client =>
          let up := p.up ++ client.sent.drop p.client.sent.length
          if up.length ≤ cap.up then
            some { p with
              client, up
              down := p.down.drop (client.received.length - p.client.received.length) }
          else none
      else none
  | .recv n =>
      if p.serverAt = .reading ∧ 1 ≤ n ∧ n ≤ maxLine ∧ n ≤ p.up.length then
        some { p with up := p.up.drop n, serverAt := .writing (p.up.take n) }
      else none
  | .recvEnd =>
      if p.serverAt = .reading ∧ p.up = [] ∧ p.Finished then some { p with serverAt := .left }
      else none
  | .send n =>
      match p.serverAt with
      | .writing rest =>
          if 1 ≤ n ∧ n ≤ rest.length ∧ p.down.length + n ≤ cap.down then
            some { p with
              down := p.down ++ rest.take n
              serverAt := if rest.drop n = [] then .reading else .writing (rest.drop n) }
          else none
      | _ => none

/-- A connection at its start. -/
structure Starts (p : Echo) : Prop where
  client : StrCliNonb.Starts p.client
  up_eq : p.up = []
  server_eq : p.serverAt = .reading
  down_eq : p.down = []

/-- The two sides, over a connection of this capacity. -/
def system (cap : Capacity) : System Echo Label := .ofNext Starts (next cap)

variable {cap : Capacity} {p q : Echo} {inp : Input} {client : StrCliNonb.State} {n : ℕ}

/-! ## The invariant -/

/-- What every run keeps. The bytes sent are in order what was received, what is in flight to the
client, what the server has not written, and what is in flight to the server. -/
structure Kept (p : Echo) : Prop where
  client : StrCliNonb.Kept p.client
  round : p.client.received ++ (p.down ++ (p.serverAt.rest ++ p.up)) = p.client.sent
  server : p.serverAt ≠ .writing []
  /-- The server ends behind the last byte. -/
  left : p.serverAt = .left → p.up = [] ∧
    (p.client.at_ = .head → p.client.stdineof ∧ p.client.to_.pending = [])
  returned : p.client.at_ = .returned →
    p.down = [] ∧ p.serverAt = .left ∧ p.client.to_.pending = []
  quit : p.client.at_ ≠ .quit

theorem Starts.kept (hp : Starts p) : Kept p := by
  have hat := hp.client.at_eq
  refine ⟨hp.client.kept, ?_, ?_, ?_, ?_, ?_⟩
  · rw [hp.client.received_eq, hp.client.sent_eq, hp.up_eq, hp.down_eq, hp.server_eq]
    rfl
  · simp [hp.server_eq]
  · simp [hp.server_eq]
  · simp [hat]
  · simp [hat]

/-- Nothing is sent behind the end of the server. -/
theorem Kept.sent_of_left (hp : Kept p) (hleft : p.serverAt = .left)
    (hat : p.client.at_ = .head) (h : StrCliNonb.Moved inp p.client client) :
    client.sent = p.client.sent ∧ client.stdineof ∧ client.to_.pending = [] := by
  obtain ⟨heof, hnil⟩ := (hp.left hleft).2 hat
  exact h.quiet heof hnil

/-- **An iteration of the client.** -/
theorem Kept.clientStep (hp : Kept p) (hanswers : p.Answers inp.sock)
    (h : StrCliNonb.next p.client inp = some client) :
    Kept { p with
      client
      up := p.up ++ client.sent.drop p.client.sent.length
      down := p.down.drop (client.received.length - p.client.received.length) } := by
  obtain ⟨hat, hmoved⟩ := StrCliNonb.next_moved h
  obtain ⟨bytes, hsent⟩ := hmoved.sent
  have hend : inp.sock = .data [] → p.down = [] ∧ p.serverAt = .left := by
    intro hsock
    rw [hsock] at hanswers
    exact hanswers
  refine ⟨hp.client.next h, ?_, hp.server, ?_, ?_, ?_⟩
  · have hup : client.sent.drop p.client.sent.length = bytes := by rw [hsent, List.drop_left]
    have hdown : client.received ++
        p.down.drop (client.received.length - p.client.received.length) =
          p.client.received ++ p.down := by
      rcases hmoved.received with hnone | ⟨got, hne, hsock, hgot⟩
      · rw [hnone, Nat.sub_self, List.drop_zero]
      · obtain ⟨rest, hrest⟩ : got <+: p.down := by
          cases got with
          | nil => exact absurd rfl hne
          | cons b bs =>
              rw [hsock] at hanswers
              exact hanswers
        rw [hgot, List.length_append, Nat.add_sub_cancel_left, ← hrest, List.drop_left,
          List.append_assoc]
    rw [hup, hsent, ← hp.round]
    simp only [← List.append_assoc]
    rw [hdown]
  · intro hleft
    obtain ⟨hsame, heof, hnil⟩ := hp.sent_of_left hleft hat hmoved
    exact ⟨by rw [hsame, List.drop_length, List.append_nil, (hp.left hleft).1],
      fun _ => ⟨heof, hnil⟩⟩
  · intro hreturned
    rcases hmoved.ended with hhead | hfailed | ⟨hsock, _⟩
    · simp [hhead] at hreturned
    · simp [hfailed] at hreturned
    · obtain ⟨hdown, hleft⟩ := hend hsock
      exact ⟨by rw [hdown, List.drop_nil], hleft, (hp.sent_of_left hleft hat hmoved).2.2⟩
  · intro hquit
    rcases hmoved.ended with hhead | hfailed | ⟨hsock, _⟩
    · simp [hhead] at hquit
    · simp [hfailed] at hquit
    · have heof := ((hp.left (hend hsock).2).2 hat).1
      rw [hmoved.quit hquit] at heof
      cases heof

theorem Kept.next (hp : Kept p) {l : Label} (h : next cap p l = some q) : Kept q := by
  cases l with
  | client inp =>
      simp only [NonblEcho.next] at h
      split at h
      · next hanswers =>
        obtain ⟨client, hclient, hq⟩ := Option.bind_eq_some_iff.mp h
        split at hq
        · obtain rfl := Option.some.inj hq
          exact hp.clientStep hanswers hclient
        · cases hq
      · cases h
  | recv n =>
      simp only [NonblEcho.next] at h
      split at h
      · next hguard =>
        obtain rfl := Option.some.inj h
        obtain ⟨hat, hone, _, hn⟩ := hguard
        refine ⟨hp.client, ?_, ?_, by simp, ?_, hp.quit⟩
        · have hround := hp.round
          rw [hat] at hround
          simpa [ServerAt.rest] using hround
        · simp only [ne_eq, ServerAt.writing.injEq, List.take_eq_nil_iff, not_or]
          refine ⟨by omega, fun hnil => ?_⟩
          rw [hnil, List.length_nil] at hn
          omega
        · intro hreturned
          have hleft := (hp.returned hreturned).2.1
          rw [hat] at hleft
          cases hleft
      · cases h
  | recvEnd =>
      simp only [NonblEcho.next] at h
      split at h
      · next hguard =>
        obtain rfl := Option.some.inj h
        obtain ⟨hat, hup, hfinished⟩ := hguard
        refine ⟨hp.client, ?_, by simp, fun _ => ⟨hup, fun hhead => ?_⟩, ?_, hp.quit⟩
        · have hround := hp.round
          rw [hat] at hround
          exact hround
        · have hfin := hp.client.fin
          rcases hfinished with hshut | hended
          · by_contra hnot
            rw [if_neg hnot] at hfin
            exact hshut hfin
          · exact absurd hhead hended
        · intro hreturned
          obtain ⟨hdown, _, hnil⟩ := hp.returned hreturned
          exact ⟨hdown, rfl, hnil⟩
      · cases h
  | send n =>
      simp only [NonblEcho.next] at h
      split at h
      · next rest hat =>
        split at h
        · obtain rfl := Option.some.inj h
          have hround := hp.round
          rw [hat] at hround
          refine ⟨hp.client, ?_, ?_, ?_, ?_, hp.quit⟩
          · by_cases hlast : rest.drop n = []
            · have htake : rest.take n = rest := by
                have hsplit := List.take_append_drop n rest
                rwa [hlast, List.append_nil] at hsplit
              simpa [hlast, htake, ServerAt.rest] using hround
            · have hsplit : rest.take n ++ (rest.drop n ++ p.up) = rest ++ p.up := by
                rw [← List.append_assoc, List.take_append_drop]
              simpa [hlast, hsplit, ServerAt.rest] using hround
          · split <;> simp_all
          · split <;> simp
          · intro hreturned
            have hleft := (hp.returned hreturned).2.1
            rw [hat] at hleft
            cases hleft
        · cases h
      · cases h

theorem Kept.of_exec {tr : List (Echo × Label)} (h : (system cap).Exec tr p) : Kept p :=
  h.invariant Kept (fun _ _ => True) (fun p (hp : Starts p) => hp.kept)
    (fun _ _ _ _ hp hstep => hp.next hstep) fun _ _ => trivial

/-! ## Runs -/

/-- A connection at its start, with zeroed memory. -/
def atStart : Echo := ⟨StrCliNonb.atStart, [], .reading, []⟩

theorem atStart_init (cap : Capacity) : (system cap).init atStart :=
  ⟨⟨⟨_, rfl⟩, ⟨_, rfl⟩, rfl, rfl, rfl, rfl, rfl, rfl, rfl⟩, rfl, rfl, rfl⟩

/-- Three bytes, over a connection that holds two. -/
def firstLabels : List Label :=
  [.client ⟨⟨true, false, false, false⟩, .data (ascii "abc"), .wouldBlock, .wouldBlock, .wrote 2⟩,
    .recv 2,
    .client ⟨⟨false, false, true, false⟩, .wouldBlock, .wouldBlock, .wouldBlock, .wrote 1⟩,
    .send 2]

/-- The rest of the run: the last byte comes back while the standard output blocks. -/
def lastLabels : List Label :=
  [.client ⟨⟨false, true, false, false⟩, .wouldBlock, .data (ascii "ab"), .wrote 2, .wouldBlock⟩,
    .recv 1, .send 1,
    .client ⟨⟨true, true, false, false⟩, .data [], .data (ascii "c"), .wouldBlock, .wouldBlock⟩,
    .recvEnd,
    .client ⟨⟨false, true, false, false⟩, .wouldBlock, .data [], .wouldBlock, .wouldBlock⟩]

theorem last_run :
    ∃ tr p, (system ⟨2, 2⟩).Exec tr p ∧ (p.client.at_ = .returned ∧
      p.client.printed = ascii "ab" ∧ p.client.typed = ascii "abc") := by
  have hrun : (System.replay (next ⟨2, 2⟩) atStart (firstLabels ++ lastLabels)).map
      (fun r => (r.2.client.at_, r.2.client.printed, r.2.client.typed)) =
        some (.returned, ascii "ab", ascii "abc") := by decide +kernel
  obtain ⟨tr, p, hexec, hp⟩ := System.exec_of_replay (atStart_init ⟨2, 2⟩) hrun
  simp only [Prod.mk.injEq] at hp
  exact ⟨tr, p, hexec, hp⟩

/-- Every byte is somewhere. -/
theorem round_trip (hp : Kept p) :
    p.client.printed ++ (p.client.fr.pending ++ (p.down ++ (p.serverAt.rest ++
      (p.up ++ p.client.to_.pending)))) = p.client.typed := by
  rw [← hp.client.up, ← hp.round, ← hp.client.down]
  simp only [List.append_assoc]

/-- **The round trip.** What was typed is in order what is printed, what the client holds for its
output, what is in flight and with the server, and what the client holds for the socket. The
client is never told that the server ended prematurely; where it returns, all that is not printed
is what its output buffer held. -/
theorem comes_back (cap : Capacity) (tr : List (Echo × Label)) (p : Echo)
    (h : (system cap).Exec tr p) :
    p.client.printed ++ (p.client.fr.pending ++ (p.down ++ (p.serverAt.rest ++
        (p.up ++ p.client.to_.pending)))) = p.client.typed ∧
      p.client.at_ ≠ .quit ∧
      (p.client.at_ = .returned →
        p.client.printed ++ p.client.fr.pending = p.client.typed ∧
          p.client.typed.length ≤ p.client.printed.length + maxLine) := by
  have hp := Kept.of_exec h
  have htyped := round_trip hp
  refine ⟨htyped, hp.quit, fun hreturned => ?_⟩
  obtain ⟨hdown, hleft, hnil⟩ := hp.returned hreturned
  have hall : p.client.printed ++ p.client.fr.pending = p.client.typed := by
    rw [hdown, hleft, (hp.left hleft).1, hnil] at htyped
    simpa [ServerAt.rest] using htyped
  refine ⟨hall, ?_⟩
  have hlen := congrArg List.length hall
  have hle := p.client.fr.iptr_le
  rw [List.length_append, LinearBuffer.length_pending] at hlen
  omega

/-- The last byte is lost in the buffer. -/
theorem comes_back_two :
    ∃ tr p, (system ⟨2, 2⟩).Exec tr p ∧ p.client.at_ = .returned ∧
      ascii "ab" ++ p.client.fr.pending = ascii "abc" := by
  obtain ⟨tr, p, hexec, hat, hprinted, htyped⟩ := last_run
  have hall := ((comes_back ⟨2, 2⟩ tr p hexec).2.2 hat).1
  rw [hprinted, htyped] at hall
  exact ⟨tr, p, hexec, hat, hall⟩

/-- The server can take a step. -/
def ServerMoves (cap : Capacity) (p : Echo) : Prop :=
  ∃ l, (∀ inp, l ≠ .client inp) ∧ (next cap p l).isSome

/-- The server moves where something is in flight to it, or the FIN. -/
theorem serverMoves_of_reading (hat : p.serverAt = .reading) (h : p.up ≠ [] ∨ p.Finished) :
    ServerMoves cap p := by
  by_cases hup : p.up = []
  · have hfinished : p.Finished := h.resolve_left fun hne => hne hup
    exact ⟨.recvEnd, by simp, by simp [NonblEcho.next, hat, hup, hfinished]⟩
  · have hguard : p.serverAt = .reading ∧ 1 ≤ 1 ∧ 1 ≤ maxLine ∧ 1 ≤ p.up.length :=
      ⟨hat, le_rfl, by decide, List.length_pos_of_ne_nil hup⟩
    refine ⟨.recv 1, by simp, ?_⟩
    simp only [NonblEcho.next]
    rw [if_pos hguard, Option.isSome_some]

/-- The server moves where the connection has room for what it writes. -/
theorem serverMoves_of_writing {rest : List Byte} (hat : p.serverAt = .writing rest)
    (hrest : rest ≠ []) (hroom : p.down.length < cap.down) : ServerMoves cap p := by
  have hlen := List.length_pos_of_ne_nil hrest
  refine ⟨.send 1, by simp, ?_⟩
  have hguard : 1 ≤ 1 ∧ 1 ≤ rest.length ∧ p.down.length + 1 ≤ cap.down := by omega
  simp only [NonblEcho.next, hat]
  rw [if_pos hguard, Option.isSome_some]

/-- What the sets that the client builds tell. -/
theorem watch_cases (hup : 0 < cap.up) (hdown : 0 < cap.down) {tr : List (Echo × Label)}
    (h : (system cap).Exec tr p) :
    (watch p.client).stdout ∨
      ((watch p.client).sock ∧ (p.down ≠ [] ∨ p.serverAt = .left)) ∨
      ((watch p.client).sockOut ∧ p.up.length < cap.up) ∨
      ServerMoves cap p ∨
      ((watch p.client).stdin ∧ p.client.printed = p.client.typed) := by
  have hp := Kept.of_exec h
  by_contra hnone
  simp only [not_or, not_and, Bool.not_eq_true] at hnone
  obtain ⟨hout, hsock, hsockOut, hserver, hstdin⟩ := hnone
  have hfr : p.client.fr.optr = p.client.fr.iptr := by simpa [watch] using hout
  have hfrNil := LinearBuffer.pending_eq_nil_iff.mpr hfr
  -- the output buffer is empty, so the socket is watched, and nothing comes from it
  have hwatched : (watch p.client).sock = true := by
    have hzero := p.client.fr.reset hfr.symm
    simp [watch, hzero]
  obtain ⟨hdownNil, hnotLeft⟩ := hsock hwatched
  rw [not_not] at hdownNil
  -- so the server waits for the client
  have hreading : p.serverAt = .reading := by
    cases hs : p.serverAt with
    | reading => rfl
    | left => exact absurd hs hnotLeft
    | writing rest =>
        have hrest : rest ≠ [] := fun hnil => hp.server (by rw [hs, hnil])
        exact absurd (serverMoves_of_writing hs hrest (by rw [hdownNil]; exact hdown)) hserver
  have hupNil : p.up = [] := by
    by_contra hne
    exact hserver (serverMoves_of_reading hreading (.inl hne))
  have hopen : ¬p.Finished := fun hfin => hserver (serverMoves_of_reading hreading (.inr hfin))
  -- and the client has sent everything
  have hto : p.client.to_.optr = p.client.to_.iptr := by
    by_contra hne
    have hroom := hsockOut (by simpa [watch] using hne)
    rw [hupNil] at hroom
    exact hroom hup
  have htoNil := LinearBuffer.pending_eq_nil_iff.mpr hto
  have heof : p.client.stdineof = false := by
    by_contra heof
    have hfin := hp.client.fin
    rw [if_pos ⟨by simpa using heof, htoNil⟩] at hfin
    exact hopen (.inl (by rw [hfin]; exact Nat.one_ne_zero))
  have hasked : (watch p.client).stdin = true := by
    have hzero := p.client.to_.reset hto.symm
    simp [watch, heof, hzero]
  have hround := round_trip hp
  rw [hfrNil, hdownNil, hreading, hupNil, htoNil] at hround
  exact hstdin hasked (by simpa [ServerAt.rest] using hround)

/-- The server moves where the client has ended, or has left, or waits for a connection that nobody
reads. -/
theorem server_of_ended (hdown : 0 < cap.down) (hp : Kept p) (hended : p.client.at_ ≠ .head) :
    ServerMoves cap p ∨ p.serverAt = .left ∨ p.down ≠ [] := by
  cases hs : p.serverAt with
  | left => exact .inr (.inl rfl)
  | reading => exact .inl (serverMoves_of_reading hs (.inr (.inr hended)))
  | writing rest =>
      have hrest : rest ≠ [] := fun hnil => hp.server (by rw [hs, hnil])
      by_cases hdownNil : p.down = []
      · exact .inl (serverMoves_of_writing hs hrest (by rw [hdownNil]; exact hdown))
      · exact .inr (.inr hdownNil)

/-- **No deadlock.** While the client runs, it asks about its output, or `select` reports its
socket, or the server moves; else the client asks about its input, and all that was typed is
printed. Where it has ended, the server moves, has left, or has sent what nobody reads. -/
theorem keeps_moving (cap : Capacity) (hup : 0 < cap.up) (hdown : 0 < cap.down)
    (tr : List (Echo × Label)) (p : Echo) (h : (system cap).Exec tr p) :
    (p.client.at_ = .head ∧ ((watch p.client).stdout ∨
      ((watch p.client).sock ∧ (p.down ≠ [] ∨ p.serverAt = .left)) ∨
      ((watch p.client).sockOut ∧ p.up.length < cap.up))) ∨
    ServerMoves cap p ∨
    (p.client.at_ = .head ∧ (watch p.client).stdin ∧ p.client.printed = p.client.typed) ∨
    (p.client.at_ ≠ .head ∧ (p.serverAt = .left ∨ p.down ≠ [])) := by
  by_cases hat : p.client.at_ = .head
  · rcases watch_cases hup hdown h with hout | hsock | hsockOut | hserver | hstdin
    · exact .inl ⟨hat, .inl hout⟩
    · exact .inl ⟨hat, .inr (.inl hsock)⟩
    · exact .inl ⟨hat, .inr (.inr hsockOut)⟩
    · exact .inr (.inl hserver)
    · exact .inr (.inr (.inl ⟨hat, hstdin⟩))
  · rcases server_of_ended hdown (Kept.of_exec h) hat with hserver | hrest
    · exact .inr (.inl hserver)
    · exact .inr (.inr (.inr ⟨hat, hrest⟩))

/-- Both directions are full, and `select` reports the socket. -/
theorem keeps_moving_two :
    ∃ tr p, (system ⟨2, 2⟩).Exec tr p ∧ p.client.at_ = .head ∧
      ((watch p.client).stdout ∨
        ((watch p.client).sock ∧ (p.down ≠ [] ∨ p.serverAt = .left)) ∨
        ((watch p.client).sockOut ∧ p.up.length < 2) ∨
        ServerMoves ⟨2, 2⟩ p ∨
        ((watch p.client).stdin ∧ p.client.printed = p.client.typed)) := by
  have hrun : (System.replay (next ⟨2, 2⟩) atStart firstLabels).map (fun r => r.2.client.at_) =
      some .head := by decide +kernel
  obtain ⟨tr, p, hexec, hat⟩ := System.exec_of_replay (atStart_init ⟨2, 2⟩) hrun
  refine ⟨tr, p, hexec, hat, ?_⟩
  rcases keeps_moving ⟨2, 2⟩ (by decide) (by decide) tr p hexec with
    ⟨_, hout | hsock | hsockOut⟩ | hserver | ⟨_, hstdin⟩ | ⟨hended, _⟩
  · exact .inl hout
  · exact .inr (.inl hsock)
  · exact .inr (.inr (.inl hsockOut))
  · exact .inr (.inr (.inr (.inl hserver)))
  · exact .inr (.inr (.inr (.inr hstdin)))
  · exact absurd hat hended

end SocketPrograms.Unp.NonblEcho
