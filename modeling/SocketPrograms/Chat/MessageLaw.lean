import SocketPrograms.Chat.UDPChatClient

/-!
# The messages of the UDP chat client

A typed line is to become one message: the name, the line and the date. The client reads at
most 9 bytes of what was typed, so a longer line becomes several messages. It also compares
the start of `sendline`, where its last message is, with `"close"`: that message starts with
the name, and before the first one the array is uninitialised.

## Main results

* `next_typed` — one iteration with something typed.
* `sends_lines_iff` — where each line becomes its message in every run.
-/

namespace SocketPrograms.Chat.MessageLaw

open UDPChatClient

/-- In this iteration, if the client does not leave, something typed is left and `select`
reports it, and `date` prints a text of fewer than 40 bytes. -/
def Reports (c : Client) (inp : Input) : Prop :=
  closing c = false →
    c.stdin ≠ [] ∧ (∃ fds, inp.select = .ready fds ∧ 0 ∈ fds) ∧
      NulFree inp.date ∧ inp.date.length < 40

/-- The messages sent are those of the first lines, in order, and no other line was read. The
client does not leave before it sent all of them, and does nothing undefined. -/
structure Law (name : List Byte) (lines : List (List Byte)) (y : Client) : Prop where
  texts : y.sent.map (fun d => textOf d.1) =
    List.zipWith (fun line d => some (name ++ ascii ": " ++ line ++ d.2)) lines y.sent
  read : y.at_ = .head → y.stdin = (lines.drop y.sent.length).flatten
  left : y.at_ = .left → y.sent.length = lines.length
  defined : y.at_ ≠ .undefined

/-! ## One iteration -/

variable {sizeofFp : ℕ} {name : List Byte} {lines : List (List Byte)} {c y : Client}

/-- An iteration in which only the standard input is ready and `date` prints nothing. -/
def onlyTyped : Input := ⟨.ready {0}, none, [], true⟩

theorem reports_onlyTyped (h : y.stdin ≠ []) : Reports y onlyTyped :=
  fun _ => ⟨h, ⟨{0}, rfl, Finset.mem_singleton_self 0⟩, nulFree_nil, Nat.zero_lt_succ 39⟩

/-- **One iteration with something typed**: the next 9 bytes of it, or its first line, are
sent behind the name. -/
theorem next_typed (hsize : 2 ≤ sizeofFp) (hmax : sizeofFp ≤ 2048) (hat : y.at_ = .head)
    (hclosing : closing y = false) (hzero : 0 ∈ y.readfds) (hfd : 0 < y.client_fd)
    (hname : y.name.text = some (name ++ ascii ": ")) (hlen : name.length ≤ 1900) :
    ∃ y', next sizeofFp y onlyTyped = some y' ∧ y'.at_ = .head ∧ y'.name = y.name ∧
      y'.client_fd = y.client_fd ∧ 0 ∈ y'.readfds ∧
      closing y' = decide (name.take 5 = ascii "close") ∧
      ∃ bytes, y'.sent = y.sent ++ [(bytes, [])] ∧
        textOf bytes = some (name ++ ascii ": " ++ cstr (lineCut 9 y.stdin).1) := by
  have hpiece : (cstr (lineCut 9 y.stdin).1).length ≤ 9 :=
    (cstr_length_le _).trans (length_lineCut_le 9 y.stdin)
  have htext : name ++ ascii ": " ++ cstr (lineCut 9 y.stdin).1 ++ gathered sizeofFp [] =
      name ++ ascii ": " ++ cstr (lineCut 9 y.stdin).1 := by
    rw [gathered_of_nulFree hsize nulFree_nil, List.append_nil]
  have hfits : (name ++ ascii ": " ++ cstr (lineCut 9 y.stdin).1).length < 2048 := by
    simp only [List.length_append, show (ascii ": ").length = 2 from rfl]
    omega
  obtain ⟨sendline, date, hbytes, hsend⟩ :=
    send_spec hsize hmax [] true (c := { y with readfds := {0} }) hname htext hfits
  rw [if_pos rfl] at hsend
  have hnext : next sizeofFp y onlyTyped =
      some (send sizeofFp [] true (clear { y with readfds := {0} })) := by
    have hready : ({0} : Finset ℕ) ⊆ y.readfds := Finset.singleton_subset_iff.mpr hzero
    have hnot : y.client_fd ∉ ({0} : Finset ℕ) := by
      rw [Finset.mem_singleton]
      omega
    have hne : y.client_fd ≠ 0 := by omega
    simp [next, onlyTyped, hat, hclosing, hzero, hne, clear]
  refine ⟨_, hnext.trans (congrArg some hsend), hat, rfl, rfl, Finset.mem_singleton_self 0,
    closing_of_message hbytes, sendline.bytes, rfl, ?_⟩
  have hfree : NulFree (name ++ ascii ": " ++ cstr (lineCut 9 y.stdin).1) :=
    nulFree_append.mpr ⟨(CharArray.text_eq_some_iff.mp hname).1, nulFree_cstr _⟩
  rw [hbytes, textOf_padded_of_lt hfree hfits]

/-! ## From the conditions to the law -/

/-- What a run keeps where the conditions hold. -/
structure Follows (c : Client) (name : List Byte) (lines : List (List Byte)) (y : Client) :
    Prop where
  law : Law name lines y
  name_eq : y.name = c.name
  /-- At the head of the loop, `"close"` was there from the start, or is in the name. -/
  closes : y.at_ = .head → closing y = true →
    (y.sent = [] ∧ closing c = true) ∨ (y.sent ≠ [] ∧ name.take 5 = ascii "close")

/-- No more messages than lines. -/
theorem Law.length_sent_le (h : Law name lines y) : y.sent.length ≤ lines.length := by
  have hlen := congrArg List.length h.texts
  rw [List.length_map, List.length_zipWith] at hlen
  omega

/-- At the head of the loop, what is left of the input starts with the next line. -/
theorem Law.next_line (h : Law name lines y) (hat : y.at_ = .head) (hstdin : y.stdin ≠ []) :
    ∃ front l back, lines = front ++ l :: back ∧ front.length = y.sent.length ∧
      y.stdin = (l :: back).flatten := by
  have hread := h.read hat
  have hlt : y.sent.length < lines.length := by
    by_contra hover
    rw [List.drop_eq_nil_of_le (by omega)] at hread
    exact hstdin hread
  have hdrop := List.drop_eq_getElem_cons hlt
  refine ⟨lines.take y.sent.length, lines[y.sent.length], lines.drop (y.sent.length + 1), ?_, ?_,
    ?_⟩
  · rw [← hdrop, List.take_append_drop]
  · rw [List.length_take]
    omega
  · rw [← hdrop, hread]

/-- A client whose last message is the next line follows the law. -/
theorem Law.send {front back : List (List Byte)} {l bytes date : List Byte} {y' : Client}
    (h : Law name lines y) (hlines : lines = front ++ l :: back)
    (hfront : front.length = y.sent.length) (hsent : y'.sent = y.sent ++ [(bytes, date)])
    (htext : textOf bytes = some (name ++ ascii ": " ++ l ++ date)) (hat : y'.at_ = .head)
    (hstdin : y'.stdin = back.flatten) : Law name lines y' := by
  refine ⟨?_, ?_, by simp [hat], by simp [hat]⟩
  · have hpast := h.texts
    rw [hlines, ← List.append_nil y.sent, List.zipWith_append hfront, List.append_nil,
      List.zipWith_nil_right, List.append_nil] at hpast
    rw [hsent, List.map_append, hpast, hlines, List.zipWith_append hfront, List.map_singleton,
      htext, List.zipWith_cons_cons, List.zipWith_nil_right]
  · intro _
    have hlen : y'.sent.length = (front ++ [l]).length := by
      rw [hsent, List.length_append, List.length_append, hfront]
      rfl
    rw [hstdin, hlen, hlines, show front ++ l :: back = (front ++ [l]) ++ back by simp,
      List.drop_left]

/-- A step that reads and sends nothing, at a state that is defined, keeps to the law. -/
theorem Law.idle {y' : Client} (h : Law name lines y) (hat : y.at_ = .head)
    (hsent : y'.sent = y.sent) (hstdin : y'.stdin = y.stdin) (hleft : y'.at_ ≠ .left)
    (hdefined : y'.at_ ≠ .undefined) : Law name lines y' := by
  refine ⟨?_, ?_, fun hat' => absurd hat' hleft, hdefined⟩
  · rw [hsent]
    exact h.texts
  · intro _
    rw [hstdin, hsent]
    exact h.read hat

/-- It leaves: there was nothing to send, or the one line is sent. -/
theorem Follows.leave (H : Follows c name lines y) (hmemory : lines = [] ∨ closing c = false)
    (hclose : lines.length ≤ 1 ∨ name.take 5 ≠ ascii "close") (hat : y.at_ = .head)
    (hclosing : closing y = true) : Follows c name lines { y with at_ := .left } := by
  have hall : y.sent.length = lines.length := by
    have hle := H.law.length_sent_le
    cases H.closes hat hclosing with
    | inl hstart =>
        have hnil : lines = [] := hmemory.resolve_right (by simp [hstart.2])
        rw [hstart.1, hnil]
        rfl
    | inr hlater =>
        have hone : lines.length ≤ 1 := hclose.resolve_right (not_not.mpr hlater.2)
        have hpos := List.length_pos_of_ne_nil hlater.1
        omega
  exact ⟨⟨H.law.texts, by simp, fun _ => hall, by simp⟩, H.name_eq, by simp⟩

/-- It receives: `sendline` stays cleared. -/
theorem Follows.receive (H : Follows c name lines y) (hat : y.at_ = .head)
    (datagram : Option (List Byte)) (fds : Finset ℕ) :
    Follows c name lines (receive datagram { clear y with readfds := fds }) := by
  cases datagram with
  | none =>
      refine ⟨H.law.idle hat rfl rfl ?_ ?_, H.name_eq, ?_⟩
      · simp [UDPChatClient.receive]
      · simp [UDPChatClient.receive]
      · intro hhead
        cases hhead
  | some bytes =>
      refine ⟨H.law.idle hat rfl rfl ?_ ?_, H.name_eq, ?_⟩
      · simp [UDPChatClient.receive, clear, hat]
      · simp [UDPChatClient.receive, clear, hat]
      · intro _ hclosing
        rw [closing_of_cleared y.sendline rfl] at hclosing
        cases hclosing

/-- It sends the next line, or `sendto` fails. -/
theorem Follows.send (H : Follows c name lines y) (hsize : 2 ≤ sizeofFp)
    (hmax : sizeofFp ≤ 2048) (hname : c.name.text = some (name ++ ascii ": "))
    (hlen : name.length ≤ 1900) (hlines : ∀ l ∈ lines, IsLine 100 l)
    (hshort : ∀ l ∈ lines, l.length ≤ 9) (hat : y.at_ = .head) (hstdin : y.stdin ≠ [])
    {output : List Byte} (hfree : NulFree output) (hdate : output.length < 40) (sendto : Bool)
    (fds : Finset ℕ) :
    Follows c name lines (send sizeofFp output sendto { clear y with readfds := fds }) := by
  obtain ⟨front, l, back, hsplit, hfront, hinput⟩ := H.law.next_line hat hstdin
  have hmem : l ∈ lines := by
    rw [hsplit]
    exact List.mem_append_right _ List.mem_cons_self
  have hlfree : NulFree l := (hlines l hmem).nulFree
  have hcut : lineCut 9 y.stdin = (l, back.flatten) := by
    rw [hinput]
    exact lineCut_flatten ⟨hlfree, hshort l hmem, (hlines l hmem).ends⟩ back
  have htext : name ++ ascii ": " ++ cstr (lineCut 9 y.stdin).1 ++ gathered sizeofFp output =
      name ++ ascii ": " ++ l ++ output := by
    rw [gathered_of_nulFree hsize hfree, hcut, cstr_of_nulFree hlfree]
  have hfits : (name ++ ascii ": " ++ l ++ output).length < 2048 := by
    have := hshort l hmem
    simp only [List.length_append, show (ascii ": ").length = 2 from rfl]
    omega
  obtain ⟨sendline, date, hbytes, hsend⟩ :=
    send_spec hsize hmax output sendto (c := { y with readfds := fds })
      ((congrArg CharArray.text H.name_eq).trans hname) htext hfits
  rw [clear_readfds, hsend]
  by_cases hsendto : sendto = true
  · have htextOf : textOf sendline.bytes = some (name ++ ascii ": " ++ l ++ output) := by
      have hall : NulFree (name ++ ascii ": " ++ l ++ output) :=
        nulFree_append.mpr ⟨nulFree_append.mpr
          ⟨(CharArray.text_eq_some_iff.mp hname).1, hlfree⟩, hfree⟩
      rw [hbytes, textOf_padded_of_lt hall hfits]
    rw [if_pos hsendto]
    refine ⟨H.law.send hsplit hfront rfl htextOf hat (congrArg Prod.snd hcut), H.name_eq, ?_⟩
    intro _ hclosing
    rw [List.append_assoc] at hbytes
    rw [closing_of_message hbytes, decide_eq_true_eq] at hclosing
    exact .inr ⟨by simp, hclosing⟩
  · rw [if_neg hsendto]
    exact ⟨⟨H.law.texts, by simp, by simp, by simp⟩, H.name_eq, by simp⟩

/-- **One iteration keeps to the law** where the lines are short, and neither the memory nor
the name starts with `"close"`. -/
theorem Follows.next (H : Follows c name lines y) (hsize : 2 ≤ sizeofFp)
    (hmax : sizeofFp ≤ 2048) (hname : c.name.text = some (name ++ ascii ": "))
    (hlen : name.length ≤ 1900) (hlines : ∀ l ∈ lines, IsLine 100 l)
    (hshort : ∀ l ∈ lines, l.length ≤ 9) (hmemory : lines = [] ∨ closing c = false)
    (hclose : lines.length ≤ 1 ∨ name.take 5 ≠ ascii "close") {y' : Client} {inp : Input}
    (hreports : Reports y inp) (hstep : next sizeofFp y inp = some y') :
    Follows c name lines y' := by
  obtain ⟨hat, hcases⟩ := next_cases hstep
  rcases hcases with ⟨hclosing, rfl⟩ | ⟨hclosing, hcases⟩
  · exact H.leave hmemory hclose hat hclosing
  · obtain ⟨hstdin, ⟨fds, hready, _⟩, hfree, hdate⟩ := hreports hclosing
    rcases hcases with ⟨hselect, _⟩ | ⟨hselect, _⟩ | ⟨fds', hselect, _, hbranch⟩
    · cases hready.symm.trans hselect
    · cases hready.symm.trans hselect
    · rcases hbranch with ⟨_, rfl⟩ | ⟨_, rfl⟩
      · exact H.receive hat inp.datagram fds'
      · exact H.send hsize hmax hname hlen hlines hshort hat hstdin hfree hdate inp.sendto fds'

/-! ## From the law to the conditions -/

/-- The client after `k` iterations, each with something typed. -/
structure After (c : Client) (name : List Byte) (k : ℕ) (y : Client) : Prop where
  at_eq : y.at_ = .head
  length_sent : y.sent.length = k
  name_eq : y.name = c.name
  client_fd_eq : y.client_fd = c.client_fd
  zero_mem : 0 ∈ y.readfds
  closing_eq : closing y = if k = 0 then closing c else decide (name.take 5 = ascii "close")

/-- The law, in every state of every run in which what is typed is reported. -/
def Lawful (sizeofFp : ℕ) (c : Client) (name : List Byte) (lines : List (List Byte)) : Prop :=
  ∀ tr y, (system sizeofFp c).Exec tr y → (∀ p ∈ tr, Reports p.1 p.2) →
    ∀ z ∈ System.visited tr y, Law name lines z

/-- Where the law holds, the client does not leave with lines unsent. -/
theorem Lawful.not_closing (hlaw : Lawful sizeofFp c name lines)
    {tr : List (Client × Input)} (h : (system sizeofFp c).Exec tr y)
    (hreports : ∀ p ∈ tr, Reports p.1 p.2) {k : ℕ} (hafter : After c name k y)
    (hk : k < lines.length) : closing y = false := by
  by_contra hclosing
  have hclosing : closing y = true := by simpa using hclosing
  have hstep : next sizeofFp y onlyTyped = some { y with at_ := .left } := by
    simp [next, hafter.at_eq, hclosing]
  have hlast : Reports y onlyTyped := by
    intro hnot
    rw [hclosing] at hnot
    cases hnot
  have hreports' : ∀ p ∈ tr ++ [(y, onlyTyped)], Reports p.1 p.2 :=
    List.forall_mem_append.mpr ⟨hreports, List.forall_mem_singleton.mpr hlast⟩
  have hleft : Law name lines { y with at_ := .left } :=
    hlaw _ _ (.snoc h hstep) hreports' _ (System.mem_visited.mpr (.inr rfl))
  have hall : y.sent.length = lines.length := hleft.left rfl
  have hlen : y.sent.length = k := hafter.length_sent
  omega

/-- Where the law holds, another line is sent, and it is short. -/
theorem Lawful.step (hlaw : Lawful sizeofFp c name lines) (hsize : 2 ≤ sizeofFp)
    (hmax : sizeofFp ≤ 2048) (hfd : 0 < c.client_fd)
    (hname : c.name.text = some (name ++ ascii ": ")) (hlen : name.length ≤ 1900)
    (hlines : ∀ l ∈ lines, IsLine 100 l) {tr : List (Client × Input)}
    (h : (system sizeofFp c).Exec tr y) (hreports : ∀ p ∈ tr, Reports p.1 p.2) {k : ℕ}
    (hafter : After c name k y) (hk : k < lines.length) :
    lines[k].length ≤ 9 ∧
      ∃ tr' y', (system sizeofFp c).Exec tr' y' ∧ (∀ p ∈ tr', Reports p.1 p.2) ∧
        After c name (k + 1) y' := by
  have hclosing : closing y = false := hlaw.not_closing h hreports hafter hk
  have hlawy : Law name lines y := hlaw _ _ h hreports _ (by simp)
  have hstdin : y.stdin ≠ [] := by
    have hread := hlawy.read hafter.at_eq
    rw [hafter.length_sent, List.drop_eq_getElem_cons hk, List.flatten_cons] at hread
    obtain ⟨t, _, hends⟩ := (hlines _ (List.getElem_mem hk)).ends
    rw [hread, hends]
    simp
  obtain ⟨y', hstep, hat, hname', hfd', hzero, hclosing', bytes, hsent, htext⟩ :=
    next_typed hsize hmax hafter.at_eq hclosing hafter.zero_mem
      (by rw [hafter.client_fd_eq]; exact hfd) (by rw [hafter.name_eq]; exact hname) hlen
  have hreports' : ∀ p ∈ tr ++ [(y, onlyTyped)], Reports p.1 p.2 :=
    List.forall_mem_append.mpr
      ⟨hreports, List.forall_mem_singleton.mpr (reports_onlyTyped hstdin)⟩
  have h' : (system sizeofFp c).Exec (tr ++ [(y, onlyTyped)]) y' := .snoc h hstep
  refine ⟨?_, _, y', h', hreports', hat, ?_, hname'.trans hafter.name_eq,
    hfd'.trans hafter.client_fd_eq, hzero, ?_⟩
  · -- the last message is that of the line, and has at most 9 bytes of it
    have hlast := congrArg (·[k]?) (hlaw _ _ h' hreports' y' (by simp)).texts
    have hget : y'.sent[k]? = some (bytes, []) := by
      rw [hsent, ← hafter.length_sent, List.getElem?_concat_length]
    simp only [List.getElem?_map, List.getElem?_zipWith, hget, List.getElem?_eq_getElem hk,
      Option.map_some, htext, List.append_nil] at hlast
    have hline : cstr (lineCut 9 y.stdin).1 = lines[k] := by simpa using hlast
    rw [← hline]
    exact (cstr_length_le _).trans (length_lineCut_le 9 y.stdin)
  · rw [hsent, List.length_append, hafter.length_sent]
    rfl
  · rw [hclosing', if_neg (Nat.succ_ne_zero k)]

/-- Where the law holds, a run sends line after line. -/
theorem Lawful.run (hlaw : Lawful sizeofFp c name lines) (hsize : 2 ≤ sizeofFp)
    (hmax : sizeofFp ≤ 2048) {garbage : ℤ} (hstart : Starts garbage c)
    (hname : c.name.text = some (name ++ ascii ": ")) (hlen : name.length ≤ 1900)
    (hlines : ∀ l ∈ lines, IsLine 100 l) (k : ℕ) (hk : k ≤ lines.length) :
    ∃ tr y, (system sizeofFp c).Exec tr y ∧ (∀ p ∈ tr, Reports p.1 p.2) ∧ After c name k y := by
  induction k with
  | zero =>
      exact ⟨[], c, .start rfl, by simp, hstart.at_eq, by rw [hstart.sent_eq]; rfl, rfl, rfl,
        hstart.zero_mem, rfl⟩
  | succ k ih =>
      obtain ⟨tr, y, h, hreports, hafter⟩ := ih (by omega)
      exact (hlaw.step hsize hmax hstart.client_fd_pos hname hlen hlines h hreports hafter
        (by omega)).2

/-- Where the law holds, the client is not about to leave after fewer messages than lines. -/
theorem Lawful.open_after (hlaw : Lawful sizeofFp c name lines) (hsize : 2 ≤ sizeofFp)
    (hmax : sizeofFp ≤ 2048) {garbage : ℤ} (hstart : Starts garbage c)
    (hname : c.name.text = some (name ++ ascii ": ")) (hlen : name.length ≤ 1900)
    (hlines : ∀ l ∈ lines, IsLine 100 l) {k : ℕ} (hk : k < lines.length) :
    (if k = 0 then closing c else decide (name.take 5 = ascii "close")) = false := by
  obtain ⟨tr, y, h, hreports, hafter⟩ :=
    hlaw.run hsize hmax hstart hname hlen hlines k (by omega)
  rw [← hafter.closing_eq]
  exact hlaw.not_closing h hreports hafter hk

/-- The conditions are enough for the law. -/
theorem lawful_of_conditions (hsize : 2 ≤ sizeofFp) (hmax : sizeofFp ≤ 2048) {garbage : ℤ}
    (hstart : Starts garbage c) (hname : c.name.text = some (name ++ ascii ": "))
    (hlen : name.length ≤ 1900) (hlines : ∀ l ∈ lines, IsLine 100 l)
    (hstdin : c.stdin = lines.flatten) (hshort : ∀ l ∈ lines, l.length ≤ 9)
    (hmemory : lines = [] ∨ closing c = false)
    (hclose : lines.length ≤ 1 ∨ name.take 5 ≠ ascii "close") : Lawful sizeofFp c name lines := by
  intro tr y h hreports z hz
  have hfollows : ∀ x ∈ System.visited tr y, Follows c name lines x := by
    refine h.always (Follows c name lines) Reports ?_ ?_ hreports
    · intro s hs
      obtain rfl : s = c := hs
      refine ⟨⟨?_, ?_, ?_, ?_⟩, rfl, fun _ hclosing => .inl ⟨hstart.sent_eq, hclosing⟩⟩
      · rw [hstart.sent_eq, List.zipWith_nil_right, List.map_nil]
      · intro _
        rw [hstart.sent_eq, hstdin]
        rfl
      · simp [hstart.at_eq]
      · simp [hstart.at_eq]
    · intro s inp t hgood H hstep
      exact H.next hsize hmax hname hlen hlines hshort hmemory hclose hgood hstep
  exact (hfollows z hz).law

/-- **Each typed line becomes its message, in every run in which what is typed is reported,
exactly where**: no line, with its newline, is longer than 9 bytes; `sendline` does not start
with `"close"` before the loop, or nothing is typed; and the name does not start with it, or
at most one line is typed. -/
theorem sends_lines_iff (sizeofFp : ℕ) (garbage : ℤ) (a : CharArray 2048)
    (name typed : List Byte) (lines : List (List Byte)) (c : Client) (hsize : 2 ≤ sizeofFp)
    (hmax : sizeofFp ≤ 2048) (hstart : Starts garbage c) (htyped : Typed [name] typed)
    (hlen : name.length ≤ 1900) (henter : enterName a typed = some c.name)
    (hlines : ∀ l ∈ lines, IsLine 100 l) (hstdin : c.stdin = lines.flatten) :
    (∀ tr y, (system sizeofFp c).Exec tr y → (∀ p ∈ tr, Reports p.1 p.2) →
        ∀ z ∈ System.visited tr y, Law name lines z) ↔
      (∀ l ∈ lines, l.length ≤ 9) ∧ (lines = [] ∨ closing c = false) ∧
        (lines.length ≤ 1 ∨ name.take 5 ≠ ascii "close") := by
  have hname : c.name.text = some (name ++ ascii ": ") :=
    enterName_text htyped (by omega) henter
  constructor
  · intro hlaw
    have hopen : ∀ k, k < lines.length →
        (if k = 0 then closing c else decide (name.take 5 = ascii "close")) = false :=
      fun k hk => Lawful.open_after hlaw hsize hmax hstart hname hlen hlines hk
    refine ⟨?_, ?_, ?_⟩
    · intro l hl
      obtain ⟨k, hk, rfl⟩ := List.getElem_of_mem hl
      obtain ⟨tr, y, h, hreports, hafter⟩ :=
        Lawful.run hlaw hsize hmax hstart hname hlen hlines k (by omega)
      exact (Lawful.step hlaw hsize hmax hstart.client_fd_pos hname hlen hlines h hreports
        hafter hk).1
    · by_cases hnil : lines = []
      · exact .inl hnil
      · exact .inr (by simpa using hopen 0 (List.length_pos_of_ne_nil hnil))
    · by_cases hone : lines.length ≤ 1
      · exact .inl hone
      · exact .inr (by simpa using hopen 1 (by omega))
  · rintro ⟨hshort, hmemory, hclose⟩
    exact lawful_of_conditions hsize hmax hstart hname hlen hlines hstdin hshort hmemory hclose

/-- The first iteration of a client with zeroed memory that is named John. -/
theorem first_typed (stdin : List Byte) (hstdin : stdin ≠ []) :
    ∃ y, next 8 (zeroed 0 stdin) onlyTyped = some y ∧ Reports (zeroed 0 stdin) onlyTyped ∧
      ∃ bytes, y.sent = [(bytes, [])] ∧
        textOf bytes = some (ascii "John: " ++ cstr (lineCut 9 stdin).1) := by
  have hopen : closing (zeroed 0 []) = false := by decide +kernel
  obtain ⟨y, hstep, _, _, _, _, _, bytes, hsent, htext⟩ :=
    next_typed (show 2 ≤ 8 by decide) (by decide) rfl (y := zeroed 0 stdin) hopen
      (zeroed_starts zero_inSet stdin).zero_mem (zeroed_starts zero_inSet stdin).client_fd_pos
      (enterName_text john_typed (by decide) (zeroed_name 0 stdin)) (by decide)
  exact ⟨y, hstep, reports_onlyTyped hstdin, bytes, hsent, htext⟩

/-- The message of the README, without a date: John types `hi`. -/
theorem sends_lines_iff_one :
    ∃ tr y, (system 8 (zeroed 0 (ascii "hi\n"))).Exec tr y ∧ y.sent.length = 1 ∧
      Law (ascii "John") [ascii "hi\n"] y := by
  obtain ⟨y, hstep, hreports, bytes, hsent, _⟩ := first_typed (ascii "hi\n") (by decide)
  have hexec := System.Exec.snoc (.start (zeroed_init 0 (ascii "hi\n"))) hstep
  refine ⟨_, y, hexec, by rw [hsent]; rfl, ?_⟩
  exact (sends_lines_iff 8 0 (.fillWith 2048 0) (ascii "John") john [ascii "hi\n"]
    (zeroed 0 (ascii "hi\n")) (by decide) (by decide) (zeroed_starts zero_inSet _) john_typed
    (by decide) (zeroed_name 0 _) (by decide) rfl).mpr
      ⟨by decide, .inr (by decide +kernel), .inl (by decide)⟩ _ y hexec
      (by simpa using hreports) y (by simp)

/-- A line of 12 bytes is cut: its first message has 9 bytes of it. -/
theorem long_line_is_cut :
    ¬ ∀ (sizeofFp : ℕ) (garbage : ℤ) (a : CharArray 2048) (name typed : List Byte)
      (lines : List (List Byte)) (c : Client), 2 ≤ sizeofFp → sizeofFp ≤ 2048 →
      Starts garbage c → Typed [name] typed → name.length ≤ 1900 →
      enterName a typed = some c.name → (∀ l ∈ lines, IsLine 100 l) → c.stdin = lines.flatten →
      ∀ tr y, (system sizeofFp c).Exec tr y → (∀ p ∈ tr, Reports p.1 p.2) →
        ∀ z ∈ System.visited tr y, Law name lines z := by
  intro hmessages
  obtain ⟨y, hstep, hreports, bytes, hsent, htext⟩ :=
    first_typed (ascii "hello there\n") (by decide)
  have hexec := System.Exec.snoc (.start (zeroed_init 0 (ascii "hello there\n"))) hstep
  have hlaw := hmessages 8 0 (.fillWith 2048 0) (ascii "John") john [ascii "hello there\n"]
    (zeroed 0 (ascii "hello there\n")) (by decide) (by decide) (zeroed_starts zero_inSet _)
    john_typed (by decide) (zeroed_name 0 _) (by decide) rfl _ y hexec
    (by simpa using hreports) y (by simp)
  have htexts := hlaw.texts
  simp only [hsent, List.map_singleton, htext, List.zipWith_cons_cons,
    List.zipWith_nil_right] at htexts
  exact absurd htexts (by decide)

end SocketPrograms.Chat.MessageLaw
