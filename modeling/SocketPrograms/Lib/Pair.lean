import SocketPrograms.Lib.Framing
import SocketPrograms.Lib.Transition

/-!
# A client and a server on one TCP connection

The client repeats: test the loop condition, write one message, read once. The
server repeats: receive once, work, send one reply. The connection is two byte
streams; a read takes any positive number of the bytes in flight up to its limit, so
one read need not be one write. The two sides may step in any order. A read that
returns 0 comes after the other side has left only, and is no step here.

What each side wrote and what each read returned is kept as history; no program
reads it.

## Main definitions

* `Pair C S W` — the two programs; `W` is what the server's work depends on besides
  its own state.
* `Pair.State`, `Pair.next`, `Pair.system` — the joint steps.
* `Pair.streams_kept` — nothing in a stream is lost, repeated or reordered.
* `Pair.client_rule`, `Pair.server_rule` — what one side keeps by its own steps, it
  keeps in every run.
* `Pair.recvd_isPrefix`, `Pair.records_kept` — runs that keep message boundaries.
-/

namespace SocketPrograms

universe u

/-- A client and a server, as the other side sees them. -/
structure Pair (C S W : Type u) where
  /-- The client's loop condition fails. -/
  closing : C → Bool
  /-- The client's part of an iteration up to and with its write: the bytes written. -/
  ask : C → Option (C × List Byte)
  /-- The count the client passes to `read`. -/
  readMax : ℕ
  /-- The client's part after its read returned these bytes. -/
  hear : C → List Byte → C
  /-- The count the server passes to `recv`. -/
  recvMax : ℕ
  /-- The server's part from its `recv`, which returned these bytes, to its work. -/
  take : S → List Byte → Option S
  /-- The server's work up to and with its send: the bytes sent. -/
  work : W → S → Option (S × List Byte)

namespace Pair

/-- Where the client stands. -/
inductive ClientAt
  /-- At the head of its loop. -/
  | head
  /-- In its `read`. -/
  | reading
  /-- Behind its loop. -/
  | left
  /-- After a step that C leaves undefined. -/
  | undefined
  deriving DecidableEq

/-- Where the server stands. -/
inductive ServerAt
  /-- In its `recv`. -/
  | receiving
  /-- Between `recv` and the end of `send`. -/
  | working
  /-- After a step that C leaves undefined. -/
  | undefined
  deriving DecidableEq

/-- The two programs, the bytes in flight, and the history of the connection. -/
structure State (C S : Type u) where
  client : C
  clientAt : ClientAt
  server : S
  serverAt : ServerAt
  /-- Bytes written by the client that the server has not received. -/
  up : List Byte
  /-- Bytes sent by the server that the client has not read. -/
  down : List Byte
  /-- The client's writes. -/
  wrote : List (List Byte)
  /-- What the server's `recv` calls returned. -/
  recvd : List (List Byte)
  /-- The server's sends. -/
  sent : List (List Byte)
  /-- What the client's `read` calls returned. -/
  heard : List (List Byte)

/-- The state before the first step. -/
def State.initial {C S : Type u} (c : C) (s : S) : State C S :=
  ⟨c, .head, s, .receiving, [], [], [], [], [], []⟩

/-- The steps of the two sides. -/
inductive Label (W : Type u)
  | ask
  | read (n : ℕ)
  | recv (n : ℕ)
  | send (w : W)

variable {C S W : Type u} (P : Pair C S W)

/-- One step. A read or `recv` returns any `n` of the bytes in flight, at least one
and at most the count it asks for. -/
def next (x : State C S) : Label W → Option (State C S)
  | .ask =>
      if x.clientAt = .head then
        if P.closing x.client then some { x with clientAt := .left }
        else match P.ask x.client with
          | none => some { x with clientAt := .undefined }
          | some (c, bytes) => some { x with
              client := c, clientAt := .reading
              up := x.up ++ bytes, wrote := x.wrote ++ [bytes] }
      else none
  | .read n =>
      if x.clientAt = .reading ∧ 1 ≤ n ∧ n ≤ P.readMax ∧ n ≤ x.down.length then
        some { x with
          client := P.hear x.client (x.down.take n), clientAt := .head
          down := x.down.drop n, heard := x.heard ++ [x.down.take n] }
      else none
  | .recv n =>
      if x.serverAt = .receiving ∧ 1 ≤ n ∧ n ≤ P.recvMax ∧ n ≤ x.up.length then
        let y := { x with up := x.up.drop n, recvd := x.recvd ++ [x.up.take n] }
        match P.take x.server (x.up.take n) with
        | none => some { y with serverAt := .undefined }
        | some s => some { y with server := s, serverAt := .working }
      else none
  | .send w =>
      if x.serverAt = .working then
        match P.work w x.server with
        | none => some { x with serverAt := .undefined }
        | some (s, bytes) => some { x with
            server := s, serverAt := .receiving
            down := x.down ++ bytes, sent := x.sent ++ [bytes] }
      else none

/-- The pair, started from a client in `Client` and a server in `Server`. -/
def system (Client : C → Prop) (Server : S → Prop) : System (State C S) (Label W) :=
  .ofNext (fun x => ∃ c s, Client c ∧ Server s ∧ x = .initial c s) P.next

variable {P}

/-! ## What each step can do -/

theorem ask_cases {x y : State C S} (h : P.next x .ask = some y) :
    x.clientAt = .head ∧
      ((P.closing x.client = true ∧ y = { x with clientAt := .left }) ∨
       (P.closing x.client = false ∧ P.ask x.client = none ∧
          y = { x with clientAt := .undefined }) ∨
       ∃ c bytes, P.closing x.client = false ∧ P.ask x.client = some (c, bytes) ∧
          y = { x with
            client := c, clientAt := .reading
            up := x.up ++ bytes, wrote := x.wrote ++ [bytes] }) := by
  simp only [next] at h
  split at h
  · next hat =>
    refine ⟨hat, ?_⟩
    split at h
    · next hc => exact .inl ⟨hc, by simpa using h.symm⟩
    · next hc =>
      have hc : P.closing x.client = false := by simpa using hc
      split at h
      · next ha => exact .inr (.inl ⟨hc, ha, by simpa using h.symm⟩)
      · next c bytes ha => exact .inr (.inr ⟨c, bytes, hc, ha, by simpa using h.symm⟩)
  · cases h

theorem read_cases {x y : State C S} {n : ℕ} (h : P.next x (.read n) = some y) :
    x.clientAt = .reading ∧ 1 ≤ n ∧ n ≤ P.readMax ∧ n ≤ x.down.length ∧
      y = { x with
        client := P.hear x.client (x.down.take n), clientAt := .head
        down := x.down.drop n, heard := x.heard ++ [x.down.take n] } := by
  simp only [next] at h
  split at h
  · next hg => exact ⟨hg.1, hg.2.1, hg.2.2.1, hg.2.2.2, by simpa using h.symm⟩
  · cases h

theorem recv_cases {x y : State C S} {n : ℕ} (h : P.next x (.recv n) = some y) :
    x.serverAt = .receiving ∧ 1 ≤ n ∧ n ≤ P.recvMax ∧ n ≤ x.up.length ∧
      ((P.take x.server (x.up.take n) = none ∧
          y = { x with
            up := x.up.drop n, recvd := x.recvd ++ [x.up.take n], serverAt := .undefined }) ∨
       ∃ s, P.take x.server (x.up.take n) = some s ∧
          y = { x with
            up := x.up.drop n, recvd := x.recvd ++ [x.up.take n]
            server := s, serverAt := .working }) := by
  simp only [next] at h
  split at h
  · next hg =>
    refine ⟨hg.1, hg.2.1, hg.2.2.1, hg.2.2.2, ?_⟩
    split at h
    · next ht => exact .inl ⟨ht, by simpa using h.symm⟩
    · next s ht => exact .inr ⟨s, ht, by simpa using h.symm⟩
  · cases h

theorem send_cases {x y : State C S} {w : W} (h : P.next x (.send w) = some y) :
    x.serverAt = .working ∧
      ((P.work w x.server = none ∧ y = { x with serverAt := .undefined }) ∨
       ∃ s bytes, P.work w x.server = some (s, bytes) ∧
          y = { x with
            server := s, serverAt := .receiving
            down := x.down ++ bytes, sent := x.sent ++ [bytes] }) := by
  simp only [next] at h
  split at h
  · next hat =>
    refine ⟨hat, ?_⟩
    split at h
    · next hw => exact .inl ⟨hw, by simpa using h.symm⟩
    · next s bytes hw => exact .inr ⟨s, bytes, hw, by simpa using h.symm⟩
  · cases h

/-! ## What every run keeps -/

variable {Client : C → Prop} {Server : S → Prop} {tr : List (State C S × Label W)}
  {x : State C S}

/-- Both streams deliver what was written into them, in order and once. -/
structure StreamsKept (x : State C S) : Prop where
  up : x.wrote.flatten = x.recvd.flatten ++ x.up
  down : x.sent.flatten = x.heard.flatten ++ x.down

theorem StreamsKept.next {x y : State C S} {a : Label W} (hx : StreamsKept x)
    (h : P.next x a = some y) : StreamsKept y := by
  cases a with
  | ask =>
      rcases (ask_cases h).2 with ⟨_, rfl⟩ | ⟨_, _, rfl⟩ | ⟨c, bytes, _, _, rfl⟩
      · exact ⟨hx.up, hx.down⟩
      · exact ⟨hx.up, hx.down⟩
      · exact ⟨by simp [hx.up], hx.down⟩
  | read n =>
      obtain ⟨_, _, _, _, rfl⟩ := read_cases h
      exact ⟨hx.up, by simp [hx.down]⟩
  | recv n =>
      rcases (recv_cases h).2.2.2.2 with ⟨_, rfl⟩ | ⟨s, _, rfl⟩
      · exact ⟨by simp [hx.up], hx.down⟩
      · exact ⟨by simp [hx.up], hx.down⟩
  | send w =>
      rcases (send_cases h).2 with ⟨_, rfl⟩ | ⟨s, bytes, _, rfl⟩
      · exact ⟨hx.up, hx.down⟩
      · exact ⟨hx.up, by simp [hx.down]⟩

/-- Nothing in a stream is lost, repeated or reordered, in any run. -/
theorem streams_kept (h : (P.system Client Server).Exec tr x) : StreamsKept x := by
  refine h.invariant StreamsKept (fun _ _ => True) ?_ ?_ (fun _ _ => trivial)
  · rintro x ⟨c, s, _, _, rfl⟩
    exact ⟨rfl, rfl⟩
  · intro x a y _ hx hstep
    exact hx.next hstep

/-- What a step of the run reads from the reply stream. -/
def readOf (p : State C S × Label W) : Option (List Byte) :=
  match p.2 with
  | .read n => some (p.1.down.take n)
  | _ => none

/-- The results of the reads, from the steps of the run. -/
theorem heard_eq (h : (P.system Client Server).Exec tr x) : x.heard = tr.filterMap readOf := by
  induction h with
  | start h0 =>
      obtain ⟨c, s, _, _, rfl⟩ := h0
      rfl
  | @snoc tr x y a _ hst ih =>
      rw [List.filterMap_append, ← ih]
      cases a with
      | ask =>
          rcases (ask_cases hst).2 with ⟨_, rfl⟩ | ⟨_, _, rfl⟩ | ⟨c, bytes, _, _, rfl⟩ <;>
            simp [readOf]
      | read n =>
          obtain ⟨_, _, _, _, rfl⟩ := read_cases hst
          simp [readOf]
      | recv n => rcases (recv_cases hst).2.2.2.2 with ⟨_, rfl⟩ | ⟨s, _, rfl⟩ <;> simp [readOf]
      | send w => rcases (send_cases hst).2 with ⟨_, rfl⟩ | ⟨s, bytes, _, rfl⟩ <;> simp [readOf]

/-- `I` is kept by the client's own steps: it speaks of where the client stands, its
state, its writes and the results of its reads. -/
structure ClientInv (P : Pair C S W) (Client : C → Prop)
    (I : ClientAt → C → List (List Byte) → List (List Byte) → Prop) : Prop where
  start : ∀ c, Client c → I .head c [] []
  leave : ∀ c w h, I .head c w h → P.closing c = true → I .left c w h
  undefined : ∀ c w h, I .head c w h → P.ask c = none → I .undefined c w h
  ask : ∀ c c' bytes w h, I .head c w h → P.closing c = false → P.ask c = some (c', bytes) →
    I .reading c' (w ++ [bytes]) h
  read : ∀ c bytes w h, I .reading c w h → bytes ≠ [] → bytes.length ≤ P.readMax →
    I .head (P.hear c bytes) w (h ++ [bytes])

theorem take_ne_nil {bs : List Byte} {n : ℕ} (h1 : 1 ≤ n) (h : n ≤ bs.length) :
    bs.take n ≠ [] :=
  List.ne_nil_of_length_pos (by rw [List.length_take]; omega)

/-- **The client's side of any run**, whatever the server and the streams do. -/
theorem client_rule {I : ClientAt → C → List (List Byte) → List (List Byte) → Prop}
    (hI : ClientInv P Client I) (h : (P.system Client Server).Exec tr x) :
    I x.clientAt x.client x.wrote x.heard := by
  refine h.invariant (fun x => I x.clientAt x.client x.wrote x.heard) (fun _ _ => True)
    ?_ ?_ (fun _ _ => trivial)
  · rintro x ⟨c, s, hc, _, rfl⟩
    exact hI.start c hc
  · intro x a y _ hx hstep
    cases a with
    | ask =>
        obtain ⟨hat, hcases⟩ := ask_cases hstep
        simp only [hat] at hx
        rcases hcases with ⟨hc, rfl⟩ | ⟨_, ha, rfl⟩ | ⟨c, bytes, hc, ha, rfl⟩
        · exact hI.leave _ _ _ hx hc
        · exact hI.undefined _ _ _ hx ha
        · exact hI.ask _ _ _ _ _ hx hc ha
    | read n =>
        obtain ⟨hat, h1, hmax, hn, rfl⟩ := read_cases hstep
        simp only [hat] at hx
        exact hI.read _ _ _ _ hx (take_ne_nil h1 hn) (by simp; omega)
    | recv n => rcases (recv_cases hstep).2.2.2.2 with ⟨_, rfl⟩ | ⟨s, _, rfl⟩ <;> exact hx
    | send w => rcases (send_cases hstep).2 with ⟨_, rfl⟩ | ⟨s, bytes, _, rfl⟩ <;> exact hx

/-- `I` is kept by the server's own steps, as long as its work depends on values that
are `Ok` only. -/
structure ServerInv (P : Pair C S W) (Server : S → Prop) (Ok : W → Prop)
    (I : ServerAt → S → List (List Byte) → List (List Byte) → Prop) : Prop where
  start : ∀ s, Server s → I .receiving s [] []
  take_none : ∀ s bytes r t, I .receiving s r t → bytes ≠ [] → bytes.length ≤ P.recvMax →
    P.take s bytes = none → I .undefined s (r ++ [bytes]) t
  take_some : ∀ s s' bytes r t, I .receiving s r t → bytes ≠ [] → bytes.length ≤ P.recvMax →
    P.take s bytes = some s' → I .working s' (r ++ [bytes]) t
  work_none : ∀ s w r t, I .working s r t → Ok w → P.work w s = none → I .undefined s r t
  work_some : ∀ s s' w bytes r t, I .working s r t → Ok w → P.work w s = some (s', bytes) →
    I .receiving s' r (t ++ [bytes])

/-- **The server's side of any run**, whatever the client and the streams do. -/
theorem server_rule {Ok : W → Prop}
    {I : ServerAt → S → List (List Byte) → List (List Byte) → Prop}
    (hI : ServerInv P Server Ok I) (h : (P.system Client Server).Exec tr x)
    (hok : ∀ p ∈ tr, ∀ w, p.2 = .send w → Ok w) :
    I x.serverAt x.server x.recvd x.sent := by
  refine h.invariant (fun x => I x.serverAt x.server x.recvd x.sent)
    (fun _ a => ∀ w, a = .send w → Ok w) ?_ ?_ hok
  · rintro x ⟨c, s, _, hs, rfl⟩
    exact hI.start s hs
  · intro x a y hw hx hstep
    cases a with
    | ask =>
        rcases (ask_cases hstep).2 with ⟨_, rfl⟩ | ⟨_, _, rfl⟩ | ⟨c, bytes, _, _, rfl⟩ <;>
          exact hx
    | read n =>
        obtain ⟨_, _, _, _, rfl⟩ := read_cases hstep
        exact hx
    | recv n =>
        obtain ⟨hat, h1, hmax, hn, hcases⟩ := recv_cases hstep
        simp only [hat] at hx
        have hlen : (x.up.take n).length ≤ P.recvMax := by simp; omega
        rcases hcases with ⟨ht, rfl⟩ | ⟨s, ht, rfl⟩
        · exact hI.take_none _ _ _ _ hx (take_ne_nil h1 hn) hlen ht
        · exact hI.take_some _ _ _ _ _ hx (take_ne_nil h1 hn) hlen ht
    | send w =>
        obtain ⟨hat, hcases⟩ := send_cases hstep
        simp only [hat] at hx
        rcases hcases with ⟨hwork, rfl⟩ | ⟨s, bytes, hwork, rfl⟩
        · exact hI.work_none _ _ _ _ hx (hw w rfl) hwork
        · exact hI.work_some _ _ _ _ _ _ hx (hw w rfl) hwork

/-! ## Runs that keep message boundaries -/

/-- This `recv` returns exactly the next write that the server has not received. -/
def WholeRecv (x : State C S) : Label W → Prop
  | .recv n => x.wrote[x.recvd.length]? = some (x.up.take n)
  | _ => True

instance (x : State C S) (a : Label W) : Decidable (WholeRecv x a) :=
  match a with
  | .recv _ => inferInstanceAs (Decidable (_ = _))
  | .ask => .isTrue trivial
  | .read _ => .isTrue trivial
  | .send _ => .isTrue trivial

theorem prefix_snoc {α : Type*} {xs ys : List α} {a : α} (h : xs <+: ys)
    (ha : ys[xs.length]? = some a) : xs ++ [a] <+: ys := by
  obtain ⟨zs, rfl⟩ := h
  cases zs with
  | nil => simp at ha
  | cons z zs =>
      obtain rfl : z = a := by simpa using ha
      exact ⟨zs, by simp⟩

/-- Where every `recv` returned one whole write, the server received the writes, in
order. -/
theorem recvd_isPrefix (h : (P.system Client Server).Exec tr x)
    (hwhole : ∀ p ∈ tr, WholeRecv p.1 p.2) : x.recvd <+: x.wrote := by
  refine h.invariant (fun x => x.recvd <+: x.wrote) WholeRecv ?_ ?_ hwhole
  · rintro x ⟨c, s, _, _, rfl⟩
    exact List.prefix_rfl
  · intro x a y hw hx hstep
    cases a with
    | ask =>
        rcases (ask_cases hstep).2 with ⟨_, rfl⟩ | ⟨_, _, rfl⟩ | ⟨c, bytes, _, _, rfl⟩
        · exact hx
        · exact hx
        · exact hx.trans (List.prefix_append _ _)
    | read n =>
        obtain ⟨_, _, _, _, rfl⟩ := read_cases hstep
        exact hx
    | recv n =>
        rcases (recv_cases hstep).2.2.2.2 with ⟨_, rfl⟩ | ⟨s, _, rfl⟩ <;>
          exact prefix_snoc hx hw
    | send w => rcases (send_cases hstep).2 with ⟨_, rfl⟩ | ⟨s, bytes, _, rfl⟩ <;> exact hx

/-- Each `recv` and each read of the run returns `L` bytes. -/
def ReadsRecord (L : ℕ) : Label W → Prop
  | .recv n => n = L
  | .read n => n = L
  | _ => True

instance (L : ℕ) (a : Label W) : Decidable (ReadsRecord L a) :=
  match a with
  | .recv _ => inferInstanceAs (Decidable (_ = _))
  | .read _ => inferInstanceAs (Decidable (_ = _))
  | .ask => .isTrue trivial
  | .send _ => .isTrue trivial

theorem length_of_readsRecord {L : ℕ} (h : (P.system Client Server).Exec tr x)
    (hrec : ∀ p ∈ tr, ReadsRecord L p.2) :
    (∀ b ∈ x.recvd, b.length = L) ∧ ∀ b ∈ x.heard, b.length = L := by
  refine h.invariant
    (fun x => (∀ b ∈ x.recvd, b.length = L) ∧ ∀ b ∈ x.heard, b.length = L)
    (fun _ a => ReadsRecord L a) ?_ ?_ hrec
  · rintro x ⟨c, s, _, _, rfl⟩
    exact ⟨by simp [State.initial], by simp [State.initial]⟩
  · intro x a y hg hx hstep
    cases a with
    | ask =>
        rcases (ask_cases hstep).2 with ⟨_, rfl⟩ | ⟨_, _, rfl⟩ | ⟨c, bytes, _, _, rfl⟩ <;>
          exact hx
    | read n =>
        obtain ⟨_, _, _, hn, rfl⟩ := read_cases hstep
        have hg : n = L := hg
        have hlen : (x.down.take n).length = L := by rw [List.length_take]; omega
        exact ⟨hx.1, List.forall_mem_append.mpr ⟨hx.2, by simpa using hlen⟩⟩
    | recv n =>
        obtain ⟨_, _, _, hn, hcases⟩ := recv_cases hstep
        have hg : n = L := hg
        have hlen : (x.up.take n).length = L := by rw [List.length_take]; omega
        have hrecvd : ∀ b ∈ x.recvd ++ [x.up.take n], b.length = L :=
          List.forall_mem_append.mpr ⟨hx.1, by simpa using hlen⟩
        rcases hcases with ⟨_, rfl⟩ | ⟨s, _, rfl⟩ <;> exact ⟨hrecvd, hx.2⟩
    | send w => rcases (send_cases hstep).2 with ⟨_, rfl⟩ | ⟨s, bytes, _, rfl⟩ <;> exact hx

/-- **Records kept apart.** Where both sides write records of `L` bytes and every `recv`
and every read returns `L` bytes, the server receives the client's records and the
client reads the server's, in order. -/
theorem records_kept {L : ℕ} (hL : 0 < L) (h : (P.system Client Server).Exec tr x)
    (hrec : ∀ p ∈ tr, ReadsRecord L p.2) (hwrote : ∀ b ∈ x.wrote, b.length = L)
    (hsent : ∀ b ∈ x.sent, b.length = L) : x.recvd <+: x.wrote ∧ x.heard <+: x.sent := by
  have hkept := streams_kept h
  obtain ⟨hrecvd, hheard⟩ := length_of_readsRecord h hrec
  exact ⟨isPrefix_of_flatten hL hrecvd hwrote ⟨x.up, hkept.up.symm⟩,
    isPrefix_of_flatten hL hheard hsent ⟨x.down, hkept.down.symm⟩⟩

end Pair

end SocketPrograms
