import SocketPrograms.Lib.Transition
import SocketPrograms.Lib.Writes
import Mathlib.Data.Finset.Insert
import Mathlib.Data.Finset.Erase

/-!
# The UDP chat client

`UDPChatClient.c` fills a descriptor set with its standard input and with `client_fd`, before
it creates the socket, and asks for a name. In each iteration it gives the set to `select`,
which overwrites it, and then either receives a datagram and prints it, or reads what was
typed and sends it, behind the name and in front of the date.

At a terminal, a `read` returns no more than what is left of one line. The time that `select`
waits is left out: it may answer anything.

## Main definitions

* `Client` — the variables of the loop, and what was sent and printed.
* `enterName`, `buildSets` — what comes before the loop.
* `assemble`, `send`, `receive` — the two branches, and `next`, one iteration.
-/

namespace SocketPrograms.Chat.UDPChatClient

/-- Where the client stands. -/
inductive At
  /-- At the head of its loop. -/
  | head
  /-- Behind its loop. -/
  | left
  /-- Behind `exit(1)`. -/
  | exited
  /-- After a step that C leaves undefined. -/
  | undefined
  deriving DecidableEq

/-- The variables of the loop. -/
structure Client where
  sendline : CharArray 2048
  recvline : CharArray 2048
  userdata : CharArray 2048
  name : CharArray 2048
  date : CharArray 2048
  client_fd : ℕ
  readfds : Finset ℕ
  at_ : At
  /-- What is typed and not read yet. -/
  stdin : List Byte
  /-- The datagrams sent, each with what `date` printed for it (history). -/
  sent : List (List Byte × List Byte)
  /-- The texts printed behind `S: `; `none` where `printf` ran past the array. -/
  printed : List (Option (List Byte))

/-- What `select` returns. -/
inductive Select
  /-- 0. -/
  | timeout
  /-- -1. -/
  | error
  /-- The number of descriptors that it leaves in the set. -/
  | ready (fds : Finset ℕ)
  deriving DecidableEq

/-- What the kernel and the `date` command answer in an iteration. -/
structure Input where
  select : Select
  /-- What `recvfrom` returns, if it is called; `none` where it fails. -/
  datagram : Option (List Byte)
  /-- What `date` prints, if it is run. -/
  date : List Byte
  /-- Whether `sendto` succeeds, if it is called. -/
  sendto : Bool

/-! ## Before the loop -/

/-- A number that an `fd_set` has a bit for. -/
def InSet (fd : ℤ) : Prop := 0 ≤ fd ∧ fd < 1024

instance (fd : ℤ) : Decidable (InSet fd) := inferInstanceAs (Decidable (_ ∧ _))

/-- `FD_SET(fd, &s)`, which is out of bounds for any other number. -/
def fdSet (fd : ℤ) (s : Finset ℕ) : Option (Finset ℕ) :=
  if InSet fd then some (insert fd.toNat s) else none

/-- The set that is built, where the uninitialised `client_fd` holds this value. -/
def buildSets (client_fd : ℤ) : Option (Finset ℕ) := do
  let readfds ← fdSet 0 ∅
  fdSet client_fd readfds

/-- `scanf("%s", name); strcat(name, ": ")`. -/
def enterName (name : CharArray 2048) (typed : List Byte) : Option (CharArray 2048) := do
  let (name, _) ← scanf name typed
  name.strcat (ascii ": ")

/-! ## The loop -/

/-- `(sendline[0]=='c') && ... && (sendline[4]=='e')`. -/
def closing (c : Client) : Bool := c.sendline.bytes.take 5 = ascii "close"

/-- The four `memset` calls at the head of the loop. -/
def clear (c : Client) : Client :=
  { c with
    sendline := c.sendline.memset 2048, recvline := c.recvline.memset 2048
    userdata := c.userdata.memset 2048, date := c.date.memset 2048 }

/-- The branch that receives: `FD_CLR`, `recvfrom` and `printf`. -/
def receive (datagram : Option (List Byte)) (c : Client) : Client :=
  let readfds := c.readfds.erase c.client_fd
  match datagram with
  | none => { c with readfds, at_ := .exited }
  | some bytes =>
      let recvline := c.recvline.store bytes
      { c with readfds, recvline, printed := c.printed ++ [recvline.text] }

@[simp] theorem receive_name (datagram : Option (List Byte)) (c : Client) :
    (receive datagram c).name = c.name := by
  cases datagram <;> rfl

@[simp] theorem receive_sendline (datagram : Option (List Byte)) (c : Client) :
    (receive datagram c).sendline = c.sendline := by
  cases datagram <;> rfl

@[simp] theorem receive_readfds (datagram : Option (List Byte)) (c : Client) :
    (receive datagram c).readfds = c.readfds.erase c.client_fd := by
  cases datagram <;> rfl

@[simp] theorem receive_client_fd (datagram : Option (List Byte)) (c : Client) :
    (receive datagram c).client_fd = c.client_fd := by
  cases datagram <;> rfl

/-- `read(fd, userdata, 9)`. -/
def readTyped (c : Client) : Client :=
  { c with
    userdata := c.userdata.store (lineCut 9 c.stdin).1, stdin := (lineCut 9 c.stdin).2 }

/-- From `read` to `pclose`: the name, what was typed, and the date, in `sendline`. -/
def assemble (sizeofFp : ℕ) (output : List Byte) (c : Client) : Option Client := do
  let c := readTyped c
  let name ← c.name.text
  let sendline ← c.sendline.strcat name
  let userdata ← c.userdata.text
  let sendline ← sendline.strcat userdata
  let (date, sendline) ← gather sizeofFp c.date sendline output
  return { c with sendline, date }

/-- The indices of `sendline` that the same calls write. -/
def assembleTraced (sizeofFp : ℕ) (output : List Byte) (c : Client) :
    Traced (CharArray 2048 × CharArray 2048) :=
  (Traced.ofOption c.name.text).bind fun name =>
    (strcatTraced c.sendline name).bind fun sendline =>
      (Traced.ofOption (readTyped c).userdata.text).bind fun userdata =>
        (strcatTraced sendline userdata).bind fun sendline =>
          gatherTraced sizeofFp c.date sendline output

/-- The branch that sends: all 2048 bytes of `sendline` are the datagram. -/
def send (sizeofFp : ℕ) (output : List Byte) (sendto : Bool) (c : Client) : Client :=
  match assemble sizeofFp output c with
  | none => { c with at_ := .undefined }
  | some c =>
      if sendto then { c with sent := c.sent ++ [(c.sendline.bytes, output)] }
      else { c with at_ := .exited }

/-- One iteration. A timeout leaves the set empty, and an error leaves it as it was
passed. -/
def next (sizeofFp : ℕ) (c : Client) (inp : Input) : Option Client :=
  if c.at_ = .head then
    if closing c then some { c with at_ := .left }
    else match inp.select with
      | .timeout => some { clear c with readfds := ∅ }
      | .error => some (clear c)
      | .ready fds =>
          if fds ⊆ c.readfds ∧ fds.Nonempty then
            let c := { clear c with readfds := fds }
            if c.client_fd ∈ c.readfds then some (receive inp.datagram c)
            else some (send sizeofFp inp.date inp.sendto c)
          else none
  else none

/-- A client at the head of its loop for the first time: the set was built when `client_fd`
held `garbage`, and the socket got another descriptor than the standard input. Its memory is
arbitrary. -/
structure Starts (garbage : ℤ) (c : Client) : Prop where
  at_eq : c.at_ = .head
  client_fd_pos : 0 < c.client_fd
  readfds_eq : buildSets garbage = some c.readfds
  sent_eq : c.sent = []
  printed_eq : c.printed = []

/-- The client, started from this state. -/
def system (sizeofFp : ℕ) (c : Client) : System Client Input := .ofNext (· = c) (next sizeofFp)

/-! ## What each step can do -/

variable {sizeofFp : ℕ} {c c' : Client} {inp : Input}

theorem buildSets_of_inSet {client_fd : ℤ} (h : InSet client_fd) :
    buildSets client_fd = some {client_fd.toNat, 0} := by
  rw [buildSets, show fdSet 0 ∅ = some {0} from rfl, Option.bind_eq_bind, Option.bind_some, fdSet,
    if_pos h]

theorem buildSets_of_not_inSet {client_fd : ℤ} (h : ¬ InSet client_fd) :
    buildSets client_fd = none := by
  rw [buildSets, show fdSet 0 ∅ = some {0} from rfl, Option.bind_eq_bind, Option.bind_some, fdSet,
    if_neg h]

theorem inSet_of_buildSets {client_fd : ℤ} {readfds : Finset ℕ}
    (h : buildSets client_fd = some readfds) : InSet client_fd := by
  by_contra hnot
  cases h.symm.trans (buildSets_of_not_inSet hnot)

/-- The set holds the standard input, and the number that `client_fd` held. -/
theorem Starts.readfds {garbage : ℤ} {c : Client} (h : Starts garbage c) :
    c.readfds = {garbage.toNat, 0} := by
  have hset := h.readfds_eq
  rw [buildSets_of_inSet (inSet_of_buildSets hset)] at hset
  exact (Option.some.inj hset).symm

theorem Starts.zero_mem {garbage : ℤ} {c : Client} (h : Starts garbage c) : 0 ∈ c.readfds := by
  rw [h.readfds]
  simp

theorem next_cases (h : next sizeofFp c inp = some c') :
    c.at_ = .head ∧
      ((closing c = true ∧ c' = { c with at_ := .left }) ∨
       closing c = false ∧
        ((inp.select = .timeout ∧ c' = { clear c with readfds := ∅ }) ∨
         (inp.select = .error ∧ c' = clear c) ∨
         ∃ fds, inp.select = .ready fds ∧ fds ⊆ c.readfds ∧
          ((c.client_fd ∈ fds ∧ c' = receive inp.datagram { clear c with readfds := fds }) ∨
           c.client_fd ∉ fds ∧
            c' = send sizeofFp inp.date inp.sendto { clear c with readfds := fds }))) := by
  simp only [next] at h
  split at h
  · next hat =>
    refine ⟨hat, ?_⟩
    split at h
    · next hclosing => exact .inl ⟨hclosing, by simpa using h.symm⟩
    · next hclosing =>
      refine .inr ⟨by simpa using hclosing, ?_⟩
      split at h
      · next hselect => exact .inl ⟨hselect, by simpa using h.symm⟩
      · next hselect => exact .inr (.inl ⟨hselect, by simpa using h.symm⟩)
      · next fds hselect =>
        refine .inr (.inr ⟨fds, hselect, ?_⟩)
        split at h
        · next hready =>
          refine ⟨hready.1, ?_⟩
          split at h
          · next hfd => exact .inl ⟨hfd, by simpa using h.symm⟩
          · next hfd => exact .inr ⟨hfd, by simpa using h.symm⟩
        · cases h
  · cases h

/-- A typed name that fits: the array holds the name and `": "`. -/
theorem enterName_text {a name : CharArray 2048} {typed t : List Byte} (htyped : Typed [t] typed)
    (hlen : t.length + 2 < 2048) (henter : enterName a typed = some name) :
    name.text = some (t ++ ascii ": ") := by
  have ht : IsToken t := htyped.isToken t (by simp)
  obtain ⟨b, tail, hscanf, hb⟩ :=
    scanf_text a (scanToken_typed htyped).1 ht.ne_nil (by omega)
  have hroom : (ascii ": ").length ≤ tail.length := by
    have hbytes := b.length_bytes
    rw [hb, List.length_append, List.length_cons] at hbytes
    have htwo : (ascii ": ").length = 2 := rfl
    omega
  obtain ⟨b', hcat, hb'⟩ := CharArray.strcat_tail hb ht.nulFree hroom
  have hname : b' = name := by simpa [enterName, hscanf, hcat] using henter
  rw [← hname]
  exact CharArray.text_of_bytes hb' (nulFree_append.mpr ⟨ht.nulFree, by decide⟩)

/-- Where the loop is reached, the typed name fits. -/
theorem length_lt_of_enterName {a name : CharArray 2048} {typed t : List Byte}
    (htyped : Typed [t] typed) (henter : enterName a typed = some name) : t.length + 2 < 2048 := by
  have ht : IsToken t := htyped.isToken t (by simp)
  have htoken := (scanToken_typed htyped).1
  by_contra hlong
  by_cases hfit : t.length < 2048
  · obtain ⟨b, tail, hscanf, hb⟩ := scanf_text a htoken ht.ne_nil hfit
    have hroom : tail.length < (ascii ": ").length := by
      have hbytes := b.length_bytes
      rw [hb, List.length_append, List.length_cons] at hbytes
      have htwo : (ascii ": ").length = 2 := rfl
      omega
    simp [enterName, hscanf, CharArray.strcat_eq_none hb ht.nulFree hroom] at henter
  · have hnone : scanf a typed = none :=
      scanf_eq_none a (by rw [htoken]; exact ht.ne_nil) (by rw [htoken]; omega)
    simp [enterName, hnone] at henter

/-- The clears do not touch the set. -/
theorem clear_readfds (c : Client) (fds : Finset ℕ) :
    { clear c with readfds := fds } = clear { c with readfds := fds } := rfl

/-- What was read is a string in `userdata`, which was cleared. -/
theorem text_readTyped (c : Client) :
    (readTyped (clear c)).userdata.text = some (cstr (lineCut 9 c.stdin).1) := by
  have hlen : (lineCut 9 c.stdin).1.length < 2048 :=
    lt_of_le_of_lt (length_lineCut_le 9 c.stdin) (by decide)
  exact c.userdata.text_store_memset (.inl hlen)

/-- The name is copied into the cleared `sendline`. -/
theorem strcat_name {name : List Byte} (hname : c.name.text = some name) :
    ∃ a, (clear c).sendline.strcat name = some a ∧ a.bytes = padded 2048 name := by
  have hclear : (c.sendline.memset 2048).bytes = padded 2048 [] :=
    c.sendline.bytes_memset_of_le le_rfl
  have hcopy := (CharArray.strcat_padded hclear nulFree_nil (t := name) (by simp)).1
  rw [List.length_nil, Nat.zero_add, List.nil_append] at hcopy
  exact hcopy (CharArray.length_lt_of_text hname)

/-- The calls behind the one that copies the name. -/
theorem assemble_clear {name : List Byte} {a : CharArray 2048} (output : List Byte)
    (hname : c.name.text = some name) (hcat : (clear c).sendline.strcat name = some a) :
    assemble sizeofFp output (clear c) =
      (a.strcat (cstr (lineCut 9 c.stdin).1)).bind fun sendline =>
        (gather sizeofFp (c.date.memset 2048) sendline output).bind fun p =>
          some { readTyped (clear c) with sendline := p.2, date := p.1 } := by
  have hname' : (readTyped (clear c)).name.text = some name := hname
  have hcat' : (readTyped (clear c)).sendline.strcat name = some a := hcat
  simp only [assemble, hname', hcat', text_readTyped, Option.bind_eq_bind, Option.bind_some]
  rfl

/-- **What is sent**: the name, what was read as a string, and what `date` printed, as far
as all of them fit. -/
theorem assemble_spec (hsize : 2 ≤ sizeofFp) (hmax : sizeofFp ≤ 2048) (output : List Byte)
    {c : Client} {name text : List Byte} (hname : c.name.text = some name)
    (htext : name ++ cstr (lineCut 9 c.stdin).1 ++ gathered sizeofFp output = text) :
    (text.length < 2048 →
      ∃ sendline date, assemble sizeofFp output (clear c) =
          some { readTyped (clear c) with sendline, date } ∧
        sendline.bytes = padded 2048 text) ∧
    (2048 ≤ text.length → assemble sizeofFp output (clear c) = none) := by
  have hfree : NulFree name := (CharArray.text_eq_some_iff.mp hname).1
  have hdata := nulFree_cstr (lineCut 9 c.stdin).1
  obtain ⟨a, hcat, ha⟩ := strcat_name hname
  rw [assemble_clear output hname hcat]
  generalize cstr (lineCut 9 c.stdin).1 = data at hdata htext
  have htyped := CharArray.strcat_padded ha hfree (t := data) (CharArray.length_lt_of_text hname)
  by_cases hlong : name.length + data.length < 2048
  · obtain ⟨b, hcat₂, hb⟩ := htyped.1 hlong
    have hdate := gather_padded hsize hmax (c.date.memset 2048) output hb
      (nulFree_append.mpr ⟨hfree, hdata⟩) (by rw [List.length_append]; exact hlong)
    rw [← List.length_append, htext] at hdate
    rw [hcat₂, Option.bind_some]
    constructor
    · intro h
      obtain ⟨date, sendline, hgather, hbytes⟩ := hdate.1 h
      exact ⟨sendline, date, by rw [hgather]; rfl, hbytes⟩
    · intro h
      rw [hdate.2 h]
      rfl
  · rw [htyped.2 (by omega), Option.bind_none]
    rw [← htext, List.length_append, List.length_append]
    exact ⟨fun h => absurd h (by omega), fun _ => rfl⟩

/-- A message that fits is sent whole, or `sendto` fails. -/
theorem send_spec (hsize : 2 ≤ sizeofFp) (hmax : sizeofFp ≤ 2048) (output : List Byte)
    (sendto : Bool) {c : Client} {name text : List Byte} (hname : c.name.text = some name)
    (htext : name ++ cstr (lineCut 9 c.stdin).1 ++ gathered sizeofFp output = text)
    (hfits : text.length < 2048) :
    ∃ sendline date, sendline.bytes = padded 2048 text ∧
      send sizeofFp output sendto (clear c) =
        if sendto then
          { readTyped (clear c) with
            sendline, date, sent := c.sent ++ [(sendline.bytes, output)] }
        else { readTyped (clear c) with sendline, date, at_ := .exited } := by
  obtain ⟨sendline, date, hassemble, hbytes⟩ :=
    (assemble_spec hsize hmax output hname htext).1 hfits
  refine ⟨sendline, date, hbytes, ?_⟩
  rw [send, hassemble]
  rfl

/-- The traced calls end where the client's do. -/
theorem result_assembleTraced (sizeofFp : ℕ) (output : List Byte) (c : Client) :
    (assembleTraced sizeofFp output c).result =
      (assemble sizeofFp output c).map fun c' => (c'.date, c'.sendline) := by
  have hname : (readTyped c).name = c.name := rfl
  have hsend : (readTyped c).sendline = c.sendline := rfl
  have hdate : (readTyped c).date = c.date := rfl
  simp only [assembleTraced, assemble, Traced.result_bind, Traced.result_ofOption,
    result_strcatTraced, result_gatherTraced, Option.bind_eq_bind, hname, hsend, hdate]
  cases c.name.text with
  | none => rfl
  | some name =>
      simp only [Option.bind_some]
      cases c.sendline.strcat name with
      | none => rfl
      | some a =>
          simp only [Option.bind_some]
          cases (readTyped c).userdata.text with
          | none => rfl
          | some userdata =>
              simp only [Option.bind_some]
              cases a.strcat userdata with
              | none => rfl
              | some sendline =>
                  simp only [Option.bind_some]
                  cases gather sizeofFp c.date sendline output <;> rfl

/-! ## The loop condition -/

/-- What a clear leaves does not close the client. -/
theorem closing_of_cleared {y : Client} (a : CharArray 2048) (h : y.sendline = a.memset 2048) :
    closing y = false := by
  have hbytes : y.sendline.bytes = padded 2048 [] := by
    rw [h, a.bytes_memset_of_le le_rfl]
  have htake : (padded 2048 []).take 5 ≠ ascii "close" := by decide +kernel
  simpa [closing, hbytes] using htake

/-- Only the name decides whether the client leaves after a message. -/
theorem closing_of_message {y : Client} {name rest : List Byte}
    (h : y.sendline.bytes = padded 2048 (name ++ ascii ": " ++ rest)) :
    closing y = decide (name.take 5 = ascii "close") := by
  rw [closing, h, padded, List.append_assoc, List.append_assoc, decide_eq_decide]
  exact take_append_cons_eq_iff (w := ascii "close") (by decide) name _

/-! ## A client to run -/

/-- The name John, typed before the loop. -/
def john : List Byte := ascii "John\n"

theorem john_typed : Typed [ascii "John"] john := by
  have htyped : Typed [ascii "John"] (tokenLines [ascii "John"]) := typed_tokenLines (by decide)
  exact htyped

theorem zero_inSet : InSet 0 := by decide

/-- A client with zeroed memory after this name, whose socket is descriptor 3; `client_fd` held
`garbage` when the set was built. -/
def zeroed (garbage : ℤ) (stdin : List Byte) : Client :=
  ⟨.fillWith 2048 0, .fillWith 2048 0, .fillWith 2048 0,
    ⟨padded 2048 (ascii "John: "), length_padded (by decide)⟩, .fillWith 2048 0, 3,
    {garbage.toNat, 0}, .head, stdin, [], []⟩

theorem zeroed_starts {garbage : ℤ} (h : InSet garbage) (stdin : List Byte) :
    Starts garbage (zeroed garbage stdin) :=
  ⟨rfl, Nat.zero_lt_succ 2, buildSets_of_inSet h, rfl, rfl⟩

theorem zeroed_init (garbage : ℤ) (stdin : List Byte) :
    (system 8 (zeroed garbage stdin)).init (zeroed garbage stdin) := rfl

theorem zeroed_name (garbage : ℤ) (stdin : List Byte) :
    enterName (.fillWith 2048 0) john = some (zeroed garbage stdin).name := by
  have hname : enterName (.fillWith 2048 0) john = some (zeroed 0 []).name := by decide +kernel
  exact hname

end SocketPrograms.Chat.UDPChatClient
