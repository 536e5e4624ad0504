import SocketPrograms.Unp.Readline
import SocketPrograms.Lib.Transition

/-!
# The echo client and server, line by line

`str_cli` sends each line of its input with `writen` and reads one line back with `readline`;
`str_echo` sends back what each `read` returns. A `write` may take a part of what it is given, a
`read` returns any positive number of the bytes in flight, and the two sides step in any order.
A call that a signal interrupts is made again, and is no step here.

## Main definitions

* `State`, `next`, `system` — the client, the server and the bytes between them.
* `advance` — what the client does with the progress of its `readline`.

## Main results

* `printed_pieces` — **each line is answered by itself**: no segmentation shifts the answers.
* `bounded_run`, `stuck_cases` — every run ends, and ends with all lines printed, unless the last
  line has no newline: then both sides wait for each other.
-/

namespace SocketPrograms.Unp.StrCli

open Readline

/-- Where the client stands. -/
inductive ClientAt
  /-- In front of its `fgets`. -/
  | head
  /-- In `writen`, with these bytes left. -/
  | writing (rest : List Byte)
  /-- In a `read` of `readline`, with room for `k` bytes behind this line. -/
  | reading (k : ℕ) (line : List Byte)
  /-- Behind `str_cli`. -/
  | left
  /-- Behind `err_quit`. -/
  | quit
  /-- After a step that C leaves undefined. -/
  | undefined
  deriving DecidableEq

/-- Where the server stands. -/
inductive ServerAt
  /-- In its `read`. -/
  | reading
  /-- In `writen`, with these bytes left. -/
  | writing (rest : List Byte)
  /-- Behind `str_echo`. -/
  | left
  deriving DecidableEq

/-- The client, the server, and the bytes in flight in both directions. -/
structure State where
  /-- What the client's `fgets` has not read. -/
  stdin : List Byte
  clientAt : ClientAt
  reader : Reader
  up : List Byte
  serverAt : ServerAt
  down : List Byte
  /-- What `fputs` has printed, text by text (history). -/
  printed : List (List Byte)

/-- The steps of the two sides; `n` bytes are written or read. -/
inductive Label
  | fgets
  | write (n : ℕ)
  | read (n : ℕ)
  /-- The client's `read` returns 0. -/
  | readEnd
  | recv (n : ℕ)
  /-- The server's `read` returns 0. -/
  | recvEnd
  | send (n : ℕ)

/-- The client after its `readline` has got this far. -/
def advance (x : State) : Progress → State
  | .waiting k r line => { x with reader := r, clientAt := .reading k line }
  | .returned r value line =>
      if value = 0 then { x with reader := r, clientAt := .quit }
      else { x with reader := r, clientAt := .head, printed := x.printed ++ [cstr line] }
  | .undefined => { x with clientAt := .undefined }

/-- The client in `writen`, with these bytes left; behind it comes `readline`. -/
def writing (x : State) (rest : List Byte) : State :=
  if rest = [] then advance x (loop (maxLine - 1) x.reader [])
  else { x with clientAt := .writing rest }

/-- One step. -/
def next (x : State) : Label → Option State
  | .fgets =>
      if x.clientAt = .head then
        if x.stdin = [] then some { x with clientAt := .left }
        else
          let (sendline, stdin) := lineCut (maxLine - 1) x.stdin
          some (writing { x with stdin } (cstr sendline))
      else none
  | .write n =>
      match x.clientAt with
      | .writing rest =>
          if 1 ≤ n ∧ n ≤ rest.length then
            some (writing { x with up := x.up ++ rest.take n } (rest.drop n))
          else none
      | _ => none
  | .read n =>
      match x.clientAt with
      | .reading k line =>
          if 1 ≤ n ∧ n ≤ maxLine ∧ n ≤ x.down.length then
            some (advance { x with down := x.down.drop n }
              (loop k (x.reader.fill (x.down.take n)) line))
          else none
      | _ => none
  | .readEnd =>
      match x.clientAt with
      | .reading _ line =>
          if x.down = [] ∧ x.serverAt = .left then
            some (advance x (.returned { x.reader with read_cnt := 0 } line.length line))
          else none
      | _ => none
  | .recv n =>
      if x.serverAt = .reading ∧ 1 ≤ n ∧ n ≤ maxLine ∧ n ≤ x.up.length then
        some { x with up := x.up.drop n, serverAt := .writing (x.up.take n) }
      else none
  | .recvEnd =>
      if x.serverAt = .reading ∧ x.up = [] ∧ (x.clientAt = .left ∨ x.clientAt = .quit) then
        some { x with serverAt := .left }
      else none
  | .send n =>
      match x.serverAt with
      | .writing rest =>
          if 1 ≤ n ∧ n ≤ rest.length then
            some { x with
              down := x.down ++ rest.take n
              serverAt := if rest.drop n = [] then .reading else .writing (rest.drop n) }
          else none
      | _ => none

/-- A connection at its start, with this input and an empty `read_buf`. -/
structure Starts (typed : List Byte) (x : State) : Prop where
  stdin_eq : x.stdin = typed
  client_eq : x.clientAt = .head
  read_cnt_eq : x.reader.read_cnt = 0
  reader_ok : x.reader.Ok
  up_eq : x.up = []
  server_eq : x.serverAt = .reading
  down_eq : x.down = []
  printed_eq : x.printed = []

/-- The two sides, with this input. -/
def system (typed : List Byte) : System State Label := .ofNext (Starts typed) next

/-- What `fgets` takes of the input. -/
abbrev cut : List Byte → List Byte × List Byte := lineCut (maxLine - 1)

/-- The bytes that the server has read and not written. -/
def ServerAt.rest : ServerAt → List Byte
  | .writing rest => rest
  | _ => []

/-- The bytes that the client has not written. -/
def ClientAt.rest : ClientAt → List Byte
  | .writing rest => rest
  | _ => []

variable {typed : List Byte} {x y : State} {n k : ℕ} {line rest : List Byte}

/-! ## Pieces of the input -/

/-- A piece is not cut again. -/
theorem lineCut_piece (m : ℕ) (s : List Byte) :
    lineCut m (lineCut m s).1 = ((lineCut m s).1, []) := by
  induction m generalizing s with
  | zero => rfl
  | succ m ih =>
      cases s with
      | nil => rfl
      | cons c s =>
          by_cases hc : c = newline
          · simp [lineCut, hc]
          · simp [lineCut, hc, ih s]

/-- A piece that does not end its line and is not full is the end of the input. -/
theorem lineCut_of_open {m : ℕ} {s : List Byte} (hfree : newline ∉ (lineCut m s).1)
    (hlen : (lineCut m s).1.length < m) : lineCut m s = (s, []) := by
  induction m generalizing s with
  | zero => exact absurd hlen (Nat.not_lt_zero _)
  | succ m ih =>
      cases s with
      | nil => rfl
      | cons c s =>
          by_cases hc : c = newline
          · simp [lineCut, hc] at hfree
          · simp only [lineCut, hc, if_false, List.mem_cons, not_or, List.length_cons,
              Nat.add_lt_add_iff_right] at hfree hlen ⊢
            rw [ih hfree.2 hlen]

theorem lineCut_ne_nil {m : ℕ} (hm : 0 < m) {s : List Byte} (hs : s ≠ []) :
    (lineCut m s).1 ≠ [] := by
  intro hnil
  have hlt := length_lineCut_rest_lt hm hs
  have happ := lineCut_append m s
  rw [hnil, List.nil_append] at happ
  rw [happ] at hlt
  exact lt_irrefl _ hlt

theorem nulFree_unread (h : NulFree typed) (i : ℕ) : NulFree (unread cut i typed) := by
  induction i with
  | zero => exact h
  | succ i ih =>
      rw [unread_succ]
      exact (ih.lineCut _).2

theorem nulFree_pieceAt (h : NulFree typed) (i : ℕ) : NulFree (pieceAt cut i typed) :=
  ((nulFree_unread h i).lineCut _).1

/-- The pieces taken and the rest make up the input. -/
theorem flatten_pieces_append (i : ℕ) (s : List Byte) :
    (pieces cut i s).flatten ++ unread cut i s = s := by
  induction i with
  | zero => rfl
  | succ i ih =>
      rw [pieces_succ, unread_succ, List.flatten_append, List.flatten_singleton,
        List.append_assoc, lineCut_append, ih]

/-! ## The invariant -/

/-- Where a connection stands, while the client is at piece `i` of the input. The bytes of the
piece are in order what the client has stored, what is in flight, and what is not written. -/
inductive Phase (typed : List Byte) (i : ℕ) (x : State) : Prop
  | head (hat : x.clientAt = .head) (hstdin : x.stdin = unread cut i typed) (hup : x.up = [])
      (hserver : x.serverAt = .reading) (hdown : x.down = [])
  | writing (rest : List Byte) (hat : x.clientAt = .writing rest)
      (hstdin : x.stdin = unread cut (i + 1) typed) (hrest : rest ≠ [])
      (hserver : x.serverAt ≠ .left)
      (hbytes : x.down ++ (x.serverAt.rest ++ (x.up ++ rest)) = pieceAt cut i typed)
  | reading (line : List Byte) (hat : x.clientAt = .reading (maxLine - 1 - line.length) line)
      (hstdin : x.stdin = unread cut (i + 1) typed) (hserver : x.serverAt ≠ .left)
      (hfree : newline ∉ line) (hlen : line.length < maxLine - 1)
      (hbytes : line ++ (x.down ++ (x.serverAt.rest ++ x.up)) = pieceAt cut i typed)
      (hpiece : pieceAt cut i typed ≠ [])
  | left (hat : x.clientAt = .left) (hdone : unread cut i typed = []) (hup : x.up = [])
      (hserver : x.serverAt = .reading ∨ x.serverAt = .left) (hdown : x.down = [])

/-- What every run keeps. -/
structure Kept (typed : List Byte) (x : State) : Prop where
  printed : x.printed = pieces cut x.printed.length typed
  reader : x.reader.Ok
  empty : x.reader.left = []
  phase : Phase typed x.printed.length x
  server : x.serverAt ≠ .writing []

theorem Starts.kept (hx : Starts typed x) : Kept typed x := by
  have hlen : x.printed.length = 0 := by rw [hx.printed_eq, List.length_nil]
  refine ⟨?_, hx.reader_ok, Reader.left_eq_nil (Int.le_of_eq hx.read_cnt_eq), ?_, ?_⟩
  · rw [hlen, hx.printed_eq]
    rfl
  · rw [hlen]
    exact .head hx.client_eq hx.stdin_eq hx.up_eq hx.server_eq hx.down_eq
  · rw [hx.server_eq]
    simp

/-- A call of `readline` on an empty buffer reads. -/
theorem loop_empty {r : Reader} (hr : r.Ok) (hempty : r.left = []) (hk : 0 < k)
    (line : List Byte) : loop k r line = .waiting k r line := by
  obtain ⟨k, rfl⟩ : ∃ j, k = j + 1 := ⟨k - 1, by omega⟩
  have hlen := Reader.length_left hr
  rw [hempty, List.length_nil] at hlen
  rw [loop, if_pos (by omega)]

/-- Behind a `write`, the client goes on writing or reads. -/
theorem Kept.writing (hprinted : x.printed = pieces cut x.printed.length typed)
    (hok : x.reader.Ok) (hempty : x.reader.left = [])
    (hstdin : x.stdin = unread cut (x.printed.length + 1) typed) (hserver : x.serverAt ≠ .left)
    (hserver' : x.serverAt ≠ .writing [])
    (hbytes : x.down ++ (x.serverAt.rest ++ (x.up ++ rest)) = pieceAt cut x.printed.length typed)
    (hpiece : pieceAt cut x.printed.length typed ≠ []) : Kept typed (writing x rest) := by
  by_cases hrest : rest = []
  · rw [StrCli.writing, if_pos hrest, loop_empty hok hempty (by decide)]
    rw [hrest, List.append_nil] at hbytes
    exact ⟨hprinted, hok, hempty,
      .reading [] rfl hstdin hserver (by simp) (by decide) hbytes hpiece, hserver'⟩
  · rw [StrCli.writing, if_neg hrest]
    exact ⟨hprinted, hok, hempty, .writing rest rfl hstdin hrest hserver hbytes, hserver'⟩

/-- **A `read` of the client** leaves it in the line, or completes it and takes no byte more. -/
theorem Kept.read {i : ℕ} {c t : List Byte} (htyped : NulFree typed) (hi : x.printed.length = i)
    (hprinted : x.printed = pieces cut i typed) (hstdin : x.stdin = unread cut (i + 1) typed)
    (hserver : x.serverAt ≠ .left) (hserver' : x.serverAt ≠ .writing [])
    (hfree : newline ∉ line) (hlen : line.length < maxLine - 1) (hc : c.length ≤ maxLine)
    (ht : x.down ++ (x.serverAt.rest ++ x.up) = t)
    (hbytes : line ++ (c ++ t) = pieceAt cut i typed) (hpiece : pieceAt cut i typed ≠ []) :
    Kept typed (advance x (loop (maxLine - 1 - line.length) (x.reader.fill c) line)) := by
  obtain ⟨hfill, hok⟩ := Reader.left_fill (r := x.reader) hc
  rcases loop_spec (maxLine - 1 - line.length) line hok with
    ⟨r, heq, hr, hcut⟩ | ⟨r, heq, hr, hempty, hfree', hlt⟩
  · rw [hfill] at heq hcut
    -- the piece is not cut again, so nothing is left of it
    have hwhole : lineCut (maxLine - 1) (pieceAt cut i typed) = (pieceAt cut i typed, []) :=
      lineCut_piece _ _
    rw [← hbytes, lineCut_of_notMem hfree (le_of_lt hlen), hcut t, Prod.mk.injEq] at hwhole
    obtain ⟨hline, hnone⟩ := hwhole
    obtain ⟨hleft, rfl⟩ := List.append_eq_nil_iff.mp hnone
    rw [hbytes] at hline
    have hpos := List.length_pos_of_ne_nil hpiece
    have hvalue : ((line ++ (lineCut (maxLine - 1 - line.length) c).1).length : ℤ) +
        surplus (maxLine - 1 - line.length) (lineCut (maxLine - 1 - line.length) c).1 ≠ 0 := by
      rw [hline, surplus]
      split <;> omega
    obtain ⟨hdown, hrest⟩ := List.append_eq_nil_iff.mp ht
    obtain ⟨hrest, hup⟩ := List.append_eq_nil_iff.mp hrest
    have hat : x.serverAt = .reading := by
      cases hs : x.serverAt with
      | reading => rfl
      | left => exact absurd hs hserver
      | writing rest =>
          rw [hs] at hrest
          obtain rfl : rest = [] := hrest
          exact absurd hs hserver'
    have hlen' : (x.printed ++ [pieceAt cut i typed]).length = i + 1 := by simp [hi]
    rw [heq, advance, if_neg hvalue, hline, cstr_of_nulFree (nulFree_pieceAt htyped i)]
    refine ⟨?_, hr, hleft, ?_, hserver'⟩
    · rw [hlen', pieces_succ, ← hprinted]
      rfl
    · rw [hlen']
      exact .head rfl hstdin hup hat hdown
  · rw [hfill] at heq hfree' hlt
    have hroom : maxLine - 1 - line.length - c.length = maxLine - 1 - (line ++ c).length := by
      rw [List.length_append]
      omega
    rw [heq, hroom]
    refine ⟨by rw [← hi] at hprinted; exact hprinted, hr, hempty, ?_, hserver'⟩
    rw [show (advance x (.waiting (maxLine - 1 - (line ++ c).length) r (line ++ c))).printed =
      x.printed from rfl, hi]
    refine .reading (line ++ c) rfl hstdin hserver ?_ ?_ ?_ hpiece
    · rw [List.mem_append, not_or]
      exact ⟨hfree, hfree'⟩
    · rw [List.length_append]
      omega
    · rw [← hbytes, ← ht, List.append_assoc]
      rfl

/-! ## The steps -/

theorem Kept.fgets (htyped : NulFree typed) (hx : Kept typed x) (h : next x .fgets = some y) :
    Kept typed y := by
  simp only [next] at h
  split at h
  · next hat =>
    cases hx.phase with
    | writing _ hat' | reading _ hat' | left hat' => cases hat.symm.trans hat'
    | head _ hstdin hup hserver hdown =>
        split at h
        · next hend =>
          obtain rfl := Option.some.inj h
          exact ⟨hx.printed, hx.reader, hx.empty,
            .left rfl (hstdin.symm.trans hend) hup (.inl hserver) hdown, hx.server⟩
        · next hmore =>
          obtain rfl := Option.some.inj h
          rw [hstdin] at hmore ⊢
          have hline := cstr_of_nulFree (nulFree_pieceAt htyped x.printed.length)
          have hne : pieceAt cut x.printed.length typed ≠ [] :=
            lineCut_ne_nil (by decide) hmore
          refine Kept.writing hx.printed hx.reader hx.empty (unread_succ _ _ _).symm ?_ hx.server
            ?_ hne
          · simp [hserver]
          · simp only [hserver, hup, hdown, ServerAt.rest, List.nil_append]
            exact hline
  · cases h

theorem Kept.write (hx : Kept typed x) (h : next x (.write n) = some y) : Kept typed y := by
  simp only [next] at h
  split at h
  · next rest hat =>
    split at h
    · next hn =>
      obtain rfl := Option.some.inj h
      cases hx.phase with
      | head hat' | reading _ hat' | left hat' => cases hat.symm.trans hat'
      | writing rest' hat' hstdin hrest hserver hbytes =>
          obtain rfl : rest = rest' := by simpa using hat.symm.trans hat'
          refine Kept.writing hx.printed hx.reader hx.empty hstdin hserver hx.server ?_ ?_
          · rw [List.append_assoc, List.take_append_drop]
            exact hbytes
          · rw [← hbytes]
            simp [hrest]
    · cases h
  · cases h

theorem Kept.readStep (htyped : NulFree typed) (hx : Kept typed x)
    (h : next x (.read n) = some y) : Kept typed y := by
  simp only [next] at h
  split at h
  · next k line hat =>
    split at h
    · next hn =>
      obtain rfl := Option.some.inj h
      cases hx.phase with
      | head hat' | writing _ hat' | left hat' => cases hat.symm.trans hat'
      | reading line' hat' hstdin hserver hfree hlen hbytes hpiece =>
          obtain ⟨rfl, rfl⟩ : k = maxLine - 1 - line'.length ∧ line = line' := by
            simpa using hat.symm.trans hat'
          refine Kept.read (i := x.printed.length) htyped rfl hx.printed hstdin hserver hx.server
            hfree hlen ?_ rfl ?_ hpiece
          · exact (List.length_take_le n x.down).trans hn.2.1
          · rw [← List.append_assoc (List.take n x.down), List.take_append_drop]
            exact hbytes
    · cases h
  · cases h

/-- The server has not left while the client reads. -/
theorem Kept.readEnd (hx : Kept typed x) : next x .readEnd = none := by
  simp only [next]
  split
  · next k line hat =>
    cases hx.phase with
    | head hat' | writing _ hat' | left hat' => cases hat.symm.trans hat'
    | reading _ _ _ hserver => exact if_neg fun hend => hserver hend.2
  · rfl

theorem Kept.recv (hx : Kept typed x) (h : next x (.recv n) = some y) : Kept typed y := by
  simp only [next] at h
  split at h
  · next hn =>
    obtain rfl := Option.some.inj h
    obtain ⟨hat, hpos, _, hle⟩ := hn
    have htake : ServerAt.writing (x.up.take n) ≠ .writing [] := by
      intro heq
      have hnil : x.up.take n = [] := ServerAt.writing.inj heq
      have hlen := congrArg List.length hnil
      rw [List.length_take, List.length_nil] at hlen
      omega
    have hmoved : ∀ rest, (ServerAt.writing (x.up.take n)).rest ++ (x.up.drop n ++ rest) =
        x.serverAt.rest ++ (x.up ++ rest) := by
      intro rest
      rw [hat, ← List.append_assoc]
      simp [ServerAt.rest]
    refine ⟨hx.printed, hx.reader, hx.empty, ?_, htake⟩
    cases hx.phase with
    | head hat' hstdin hup => simp [hup] at hle; omega
    | left hat' hdone hup => simp [hup] at hle; omega
    | writing rest hat' hstdin hrest hserver hbytes =>
        refine .writing rest hat' hstdin hrest (by simp) ?_
        rw [hmoved]
        exact hbytes
    | reading line hat' hstdin hserver hfree hlen hbytes hpiece =>
        refine .reading line hat' hstdin (by simp) hfree hlen ?_ hpiece
        have hmoved' := hmoved []
        rw [List.append_nil, List.append_nil] at hmoved'
        rw [hmoved']
        exact hbytes
  · cases h

theorem Kept.recvEnd (hx : Kept typed x) (h : next x .recvEnd = some y) : Kept typed y := by
  simp only [next] at h
  split at h
  · next hend =>
    obtain rfl := Option.some.inj h
    refine ⟨hx.printed, hx.reader, hx.empty, ?_, by simp⟩
    cases hx.phase with
    | head hat' | writing _ hat' | reading _ hat' => simp [hat'] at hend
    | left hat' hdone hup _ hdown => exact .left hat' hdone hup (.inr rfl) hdown
  · cases h

theorem Kept.send (hx : Kept typed x) (h : next x (.send n) = some y) : Kept typed y := by
  simp only [next] at h
  split at h
  · next rest hat =>
    split at h
    · next hn =>
      obtain rfl := Option.some.inj h
      have hrest' : (if rest.drop n = [] then ServerAt.reading
          else .writing (rest.drop n)).rest = rest.drop n := by
        split
        · next hnil => rw [hnil]; rfl
        · rfl
      have hstays : (if rest.drop n = [] then ServerAt.reading
          else .writing (rest.drop n)) ≠ .left := by split <;> simp
      have hmoved : ∀ t, x.down ++ rest.take n ++ (rest.drop n ++ t) =
          x.down ++ (x.serverAt.rest ++ t) := by
        intro t
        rw [hat, List.append_assoc, ← List.append_assoc (rest.take n), List.take_append_drop]
        rfl
      refine ⟨hx.printed, hx.reader, hx.empty, ?_, ?_⟩
      · cases hx.phase with
        | head _ _ _ hserver => cases hat.symm.trans hserver
        | left _ _ _ hserver =>
            rcases hserver with hserver | hserver <;> cases hat.symm.trans hserver
        | writing rest' hat' hstdin hrest hserver hbytes =>
            refine .writing rest' hat' hstdin hrest hstays ?_
            rw [hrest', hmoved]
            exact hbytes
        | reading line hat' hstdin hserver hfree hlen hbytes hpiece =>
            refine .reading line hat' hstdin hstays hfree hlen ?_ hpiece
            rw [hrest', hmoved]
            exact hbytes
      · split
        · simp
        · next hne => exact fun heq => hne (ServerAt.writing.inj heq)
    · cases h
  · cases h

theorem Kept.next (htyped : NulFree typed) (hx : Kept typed x) {l : Label}
    (h : next x l = some y) : Kept typed y := by
  cases l with
  | fgets => exact hx.fgets htyped h
  | write n => exact hx.write h
  | read n => exact hx.readStep htyped h
  | readEnd => cases hx.readEnd.symm.trans h
  | recv n => exact hx.recv h
  | recvEnd => exact hx.recvEnd h
  | send n => exact hx.send h

/-! ## Runs -/

theorem kept (htyped : NulFree typed) {tr : List (State × Label)}
    (h : (system typed).Exec tr x) : Kept typed x :=
  h.invariant (Kept typed) (fun _ _ => True) (fun x (hx : Starts typed x) => hx.kept)
    (fun _ _ _ _ hx hstep => hx.next htyped hstep) fun _ _ => trivial

/-- Two lines, of which the second one has no newline. -/
def twoLines : List Byte := ascii "a\nb"

theorem nulFree_twoLines : NulFree twoLines := by decide

/-- The first line is echoed in two parts, and the second one is read back. -/
theorem twoLines_run :
    ∃ tr x, (system twoLines).Exec tr x ∧
      (x.clientAt = .reading 4094 (ascii "b") ∧ x.up = [] ∧ x.serverAt = .reading ∧
        x.down = [] ∧ x.printed.flatten = ascii "a\n" ∧ tr.length = 13) := by
  have hrun : (System.replay next
      ⟨twoLines, .head, ⟨0, 0, .fillWith maxLine 0⟩, [], .reading, [], []⟩
      [.fgets, .write 2, .recv 1, .send 1, .recv 1, .read 1, .send 1, .read 1, .fgets, .write 1,
        .recv 1, .send 1, .read 1]).map (fun p => (p.2.clientAt, p.2.serverAt,
          [p.2.up, p.2.down, p.2.printed.flatten], p.1.length)) =
        some (.reading 4094 (ascii "b"), .reading, [[], [], ascii "a\n"], 13) := by
    decide +kernel
  have hinit : (system twoLines).init
      ⟨twoLines, .head, ⟨0, 0, .fillWith maxLine 0⟩, [], .reading, [], []⟩ :=
    ⟨rfl, rfl, rfl, by simp [Reader.Ok], rfl, rfl, rfl, rfl⟩
  obtain ⟨tr, x, hexec, hx⟩ := System.exec_of_replay hinit hrun
  simp only [Prod.mk.injEq, List.cons.injEq, and_true] at hx
  obtain ⟨hclient, hserver, ⟨hup, hdown, hprinted⟩, hlen⟩ := hx
  exact ⟨tr, x, hexec, hclient, hup, hserver, hdown, hprinted, hlen⟩

/-- **Each line is answered by itself.** However the bytes of both directions are segmented, and
however the two sides interleave: what the client has printed are the pieces of its input, one
for each answer; and where it turns to its next line, all that it read before is printed and
nothing is in flight. `readline` never returns 0, which would end the client. -/
theorem printed_pieces (typed : List Byte) (htyped : NulFree typed) (tr : List (State × Label))
    (x : State) (h : (system typed).Exec tr x) :
    x.printed = pieces cut x.printed.length typed ∧ x.clientAt ≠ .quit ∧
      (x.clientAt = .head → x.printed.flatten ++ x.stdin = typed ∧ x.up = [] ∧ x.down = []) := by
  have hx := kept htyped h
  refine ⟨hx.printed, fun hquit => ?_, fun hhead => ?_⟩
  · cases hx.phase with
    | head hat | writing _ hat | reading _ hat | left hat => cases hquit.symm.trans hat
  · cases hx.phase with
    | writing _ hat | reading _ hat | left hat => cases hhead.symm.trans hat
    | head _ hstdin hup _ hdown =>
        have hflatten := flatten_pieces_append x.printed.length typed
        rw [← hx.printed, ← hstdin] at hflatten
        exact ⟨hflatten, hup, hdown⟩

theorem printed_pieces_two :
    ∃ tr x, (system twoLines).Exec tr x ∧ x.printed.flatten = ascii "a\n" ∧
      x.printed = pieces cut x.printed.length twoLines := by
  obtain ⟨tr, x, hexec, _, _, _, _, hprinted, _⟩ := twoLines_run
  exact ⟨tr, x, hexec, hprinted, (printed_pieces twoLines nulFree_twoLines tr x hexec).1⟩

/-! ## The end of a run -/

/-- The steps that are left, at most: a byte is taken from the input, written, read by the server,
sent and read by the client, and each side leaves once. -/
def potential (x : State) : ℕ :=
  5 * x.stdin.length + 4 * x.clientAt.rest.length + 3 * x.up.length +
    2 * x.serverAt.rest.length + x.down.length +
    (if x.clientAt = .left then 0 else 1) + if x.serverAt = .left then 0 else 1

/-- `readline` neither writes nor leaves the loop. -/
theorem potential_advance (x : State) (p : Progress) :
    potential (advance x p) = 5 * x.stdin.length + 3 * x.up.length +
      2 * x.serverAt.rest.length + x.down.length + 1 + if x.serverAt = .left then 0 else 1 := by
  cases p with
  | waiting k r line =>
      simp [potential, advance, ClientAt.rest]
      rfl
  | undefined =>
      simp [potential, advance, ClientAt.rest]
      rfl
  | returned r value line =>
      simp only [advance]
      split <;> simp [potential, ClientAt.rest]

theorem potential_writing (x : State) (rest : List Byte) :
    potential (writing x rest) = 5 * x.stdin.length + 4 * rest.length + 3 * x.up.length +
      2 * x.serverAt.rest.length + x.down.length + 1 + if x.serverAt = .left then 0 else 1 := by
  rw [writing]
  split
  · next hnil => simp [potential_advance, hnil]
  · simp [potential, ClientAt.rest]

/-- Each step leaves fewer. -/
theorem Kept.potential_lt (hx : Kept typed x) {l : Label} (h : StrCli.next x l = some y) :
    potential y < potential x := by
  cases l with
  | fgets =>
      simp only [StrCli.next] at h
      split at h
      · next hat =>
        split at h
        · next hend =>
          obtain rfl := Option.some.inj h
          simp [potential, hat, ClientAt.rest]
        · next hmore =>
          obtain rfl := Option.some.inj h
          have hcut := congrArg List.length (lineCut_append (maxLine - 1) x.stdin)
          have hcstr := cstr_length_le (lineCut (maxLine - 1) x.stdin).1
          have hlt := length_lineCut_rest_lt (m := maxLine - 1) (by decide) hmore
          rw [List.length_append] at hcut
          rw [potential_writing]
          simp only [potential, hat, ClientAt.rest, List.length_nil, reduceCtorEq, if_false]
          omega
      · cases h
  | write n =>
      simp only [StrCli.next] at h
      split at h
      · next rest hat =>
        split at h
        · next hn =>
          obtain rfl := Option.some.inj h
          rw [potential_writing]
          simp only [potential, hat, ClientAt.rest, List.length_append, List.length_take,
            List.length_drop, reduceCtorEq, if_false]
          omega
        · cases h
      · cases h
  | read n =>
      simp only [StrCli.next] at h
      split at h
      · next k line hat =>
        split at h
        · next hn =>
          obtain rfl := Option.some.inj h
          rw [potential_advance]
          simp only [potential, hat, ClientAt.rest, List.length_nil, List.length_drop,
            reduceCtorEq, if_false]
          omega
        · cases h
      · cases h
  | readEnd => cases hx.readEnd.symm.trans h
  | recv n =>
      simp only [StrCli.next] at h
      split at h
      · next hn =>
        obtain rfl := Option.some.inj h
        simp only [potential, hn.1, ServerAt.rest, List.length_take, List.length_drop,
          List.length_nil, reduceCtorEq, if_false]
        omega
      · cases h
  | recvEnd =>
      simp only [StrCli.next] at h
      split at h
      · next hend =>
        obtain rfl := Option.some.inj h
        simp [potential, hend.1, ServerAt.rest]
      · cases h
  | send n =>
      simp only [StrCli.next] at h
      split at h
      · next rest hat =>
        split at h
        · next hn =>
          obtain rfl := Option.some.inj h
          by_cases hnil : rest.drop n = []
          · simp only [potential, hat, hnil, ServerAt.rest, List.length_append, List.length_take,
              List.length_nil, if_true, reduceCtorEq, if_false]
            omega
          · simp only [potential, hat, hnil, ServerAt.rest, List.length_append, List.length_take,
              List.length_drop, reduceCtorEq, if_false]
            omega
        · cases h
      · cases h

/-- **Every run ends**: it has a number of steps that the length of the input bounds. -/
theorem bounded_run (typed : List Byte) (htyped : NulFree typed) (tr : List (State × Label))
    (x : State) (h : (system typed).Exec tr x) : tr.length ≤ 5 * typed.length + 2 := by
  suffices hsum : tr.length + potential x ≤ 5 * typed.length + 2 by omega
  induction h with
  | start hx =>
      obtain ⟨hstdin, hclient, _, _, hup, hserver, hdown, _⟩ := hx
      simp [potential, hstdin, hclient, hup, hserver, hdown, ClientAt.rest, ServerAt.rest]
  | @snoc tr x l y h hstep ih =>
      have hlt := (kept htyped h).potential_lt hstep
      rw [List.length_append, List.length_singleton]
      omega

theorem bounded_run_two :
    ∃ tr x, (system twoLines).Exec tr x ∧ tr.length = 13 ∧ tr.length ≤ 5 * twoLines.length + 2 := by
  obtain ⟨tr, x, hexec, _, _, _, _, _, hlen⟩ := twoLines_run
  exact ⟨tr, x, hexec, hlen, bounded_run twoLines nulFree_twoLines tr x hexec⟩

/-- A side that writes can go on. -/
theorem serverAt_of_stuck (hx : Kept typed x) (hstuck : ∀ l, next x l = none) :
    x.serverAt.rest = [] := by
  cases hat : x.serverAt with
  | reading => rfl
  | left => rfl
  | writing rest =>
      have hrest : rest ≠ [] := fun hnil => hx.server (by rw [hat, hnil])
      have hpos := List.length_pos_of_ne_nil hrest
      have hsend := hstuck (.send 1)
      rw [next, hat] at hsend
      simp only at hsend
      rw [if_pos ⟨le_rfl, hpos⟩] at hsend
      cases hsend

/-- **How a run ends**: where no side can go on, both have left and all of the input is printed;
or the last line has no newline, the client has read it back, and both wait for more. -/
theorem stuck_cases (typed : List Byte) (htyped : NulFree typed) (tr : List (State × Label))
    (x : State) (h : (system typed).Exec tr x) (hstuck : ∀ l, next x l = none) :
    (x.clientAt = .left ∧ x.serverAt = .left ∧ x.printed.flatten = typed) ∨
      (x.serverAt = .reading ∧ ∃ line, x.clientAt = .reading (maxLine - 1 - line.length) line ∧
        line ≠ [] ∧ newline ∉ line ∧ line.length < maxLine - 1 ∧
        x.printed.flatten ++ line = typed) := by
  have hx := kept htyped h
  have hrest := serverAt_of_stuck hx hstuck
  have hflatten := flatten_pieces_append x.printed.length typed
  rw [← hx.printed] at hflatten
  cases hx.phase with
  | head hat =>
      have hfgets := hstuck .fgets
      rw [next, if_pos hat] at hfgets
      split at hfgets <;> cases hfgets
  | writing rest hat _ hne =>
      have hwrite := hstuck (.write 1)
      rw [next, hat] at hwrite
      simp only at hwrite
      rw [if_pos ⟨le_rfl, List.length_pos_of_ne_nil hne⟩] at hwrite
      cases hwrite
  | left hat hdone hup hserver hdown =>
      refine .inl ⟨hat, ?_, by rwa [hdone, List.append_nil] at hflatten⟩
      rcases hserver with hserver | hserver
      · have hend := hstuck .recvEnd
        rw [next, if_pos ⟨hserver, hup, .inl hat⟩] at hend
        cases hend
      · exact hserver
  | reading line hat hstdin hserver hfree hlen hbytes hpiece =>
      have hreading : x.serverAt = .reading := by
        cases hs : x.serverAt with
        | reading => rfl
        | left => exact absurd hs hserver
        | writing rest =>
            rw [hs] at hrest
            obtain rfl : rest = [] := hrest
            exact absurd hs hx.server
      have hup : x.up = [] := by
        by_contra hne
        have hrecv := hstuck (.recv 1)
        rw [next, if_pos ⟨hreading, le_rfl, by decide, List.length_pos_of_ne_nil hne⟩] at hrecv
        cases hrecv
      have hdown : x.down = [] := by
        by_contra hne
        have hread := hstuck (.read 1)
        rw [next, hat] at hread
        simp only at hread
        rw [if_pos ⟨le_rfl, by decide, List.length_pos_of_ne_nil hne⟩] at hread
        cases hread
      rw [hdown, hrest, hup, List.append_nil, List.append_nil, List.append_nil] at hbytes
      have hlast := lineCut_of_open (s := unread cut x.printed.length typed)
        (m := maxLine - 1) (by rw [hbytes] at hfree; exact hfree)
        (by rw [hbytes] at hlen; exact hlen)
      have hpiece' : pieceAt cut x.printed.length typed = unread cut x.printed.length typed :=
        congrArg Prod.fst hlast
      refine .inr ⟨hreading, line, hat, by rw [hbytes]; exact hpiece, hfree, hlen, ?_⟩
      rw [hbytes, hpiece']
      exact hflatten

/-- Both sides wait. -/
theorem stuck_cases_two :
    ∃ tr x, (system twoLines).Exec tr x ∧ (∀ l, next x l = none) ∧ x.serverAt = .reading ∧
      ∃ line, x.clientAt = .reading (maxLine - 1 - line.length) line ∧
        x.printed.flatten ++ line = twoLines := by
  obtain ⟨tr, x, hexec, hclient, hup, hserver, hdown, _⟩ := twoLines_run
  have hstuck : ∀ l, next x l = none := by
    intro l
    cases l with
    | fgets | write n | readEnd | recvEnd | send n => simp [next, hclient, hserver]
    | read n =>
        simp only [next, hclient, hdown, List.length_nil]
        exact if_neg (by omega)
    | recv n =>
        simp only [next, hup, List.length_nil]
        exact if_neg (by omega)
  refine ⟨tr, x, hexec, hstuck, ?_⟩
  rcases stuck_cases twoLines nulFree_twoLines tr x hexec hstuck with ⟨hleft, _⟩ |
    ⟨hreading, line, hat, _, _, _, hflatten⟩
  · cases hleft.symm.trans hclient
  · exact ⟨hreading, line, hat, hflatten⟩

end SocketPrograms.Unp.StrCli
