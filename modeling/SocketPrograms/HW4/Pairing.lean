import SocketPrograms.HW4.Network

/-!
# The date clients get their own replies

The network of HW4 is an exchange of requests and replies: a datagram under way is a
message of the exchange, and so is the request the server works on. What the exchange
keeps is then kept by the programs, though their datagrams carry no identifier.

## Main results

* `refines` — each step of the network is a step of the exchange, or none.
* `own_replies` — each client has at most one request or reply outstanding, and the
  `k`-th text it prints is the reply to its own `k`-th request.
-/

namespace SocketPrograms.HW4.Network

open DateServer (answer)

variable {ι : Type} {sizeofFp : ℕ} {x y : State ι}

/-! ## What the programs keep -/

/-- A buffer that holds a reply: a string and zeros. -/
def IsReply (bytes : List Byte) : Prop :=
  ∃ text : List Byte, NulFree text ∧ text.length ≤ 511 ∧ bytes = padded 512 text

/-- A datagram is a request to the server or a reply to a client, and its ticket is of
that client. -/
inductive Datagram.Routed (d : Datagram ι) : Prop
  | request (hsrc : d.src = .client d.ticket.client) (hdst : d.dst = .server)
      (hterm : CharArray.Terminates 512 d.payload)
  | reply (hsrc : d.src = .server) (hdst : d.dst = .client d.ticket.client)
      (hbytes : IsReply d.payload)

/-- A client sends to the server, waits for each reply, and prints the replies it got. -/
structure Client.Wired (c : Client ι) : Prop where
  server : c.prog.server = .server
  head : c.at_ = .head → c.sent.length = c.heard.length
  reading : c.at_ = .reading → c.sent.length = c.heard.length + 1
  printed : c.prog.line.printed = c.heard.map textOf

/-- What the programs and the addresses keep. -/
structure Wired (sizeofFp : ℕ) (x : State ι) : Prop where
  client : ∀ i, (x.clients i).Wired
  flying : ∀ d ∈ x.flying, d.Routed
  working : ∀ cli_addr t q, x.serverAt = .working cli_addr t q →
    cli_addr = .client t.client ∧ CharArray.Terminates 512 q ∧
      ∃ s, x.server = DateServer.take s q
  served : ∀ t q r, (t, q, r) ∈ x.served → ∃ output : List Byte,
    (answer (cstr q) (gathered sizeofFp output)).length ≤ 511 ∧
      r = padded 512 (answer (cstr q) (gathered sizeofFp output))

/-- The replies fit: of the output of a command that the server runs, the loop gathers at most
511 bytes. -/
def OutputFits (sizeofFp : ℕ) (x : State ι) : Label ι → Prop
  | .send output =>
      DateServer.isDate x.server.bufs.rcvBuf.bytes → (gathered sizeofFp output).length ≤ 511
  | _ => True

/-- A reply is a string. -/
theorem nulFree_answer (command output : List Byte) :
    NulFree (answer command (gathered sizeofFp output)) := by
  rw [answer]
  split
  · exact nulFree_gathered sizeofFp output
  · exact DateServer.nulFree_refusal

theorem length_answer_le {command output : List Byte}
    (hlen : DateServer.isDate command → (gathered sizeofFp output).length ≤ 511) :
    (answer command (gathered sizeofFp output)).length ≤ 511 := by
  rw [answer]
  split
  · next hdate => exact hlen hdate
  · exact Nat.le_of_lt_succ DateServer.length_refusal_lt

/-- A datagram to the server is a request of the client whose ticket it bears. -/
theorem Datagram.Routed.of_server {d : Datagram ι} (hd : d.Routed) (hdst : d.dst = .server) :
    d.src = .client d.ticket.client ∧ CharArray.Terminates 512 d.payload := by
  cases hd with
  | request hsrc _ hterm => exact ⟨hsrc, hterm⟩
  | reply _ hdst' _ =>
      rw [hdst] at hdst'
      cases hdst'

/-- A datagram to a client is a reply to that client. -/
theorem Datagram.Routed.of_client {d : Datagram ι} {i : ι} (hd : d.Routed)
    (hdst : d.dst = .client i) :
    d.src = .server ∧ d.ticket.client = i ∧ IsReply d.payload := by
  cases hd with
  | request _ hdst' _ =>
      rw [hdst] at hdst'
      cases hdst'
  | reply hsrc hdst' hbytes =>
      rw [hdst] at hdst'
      exact ⟨hsrc, (Endpoint.client.inj hdst').symm, hbytes⟩

/-- What a client sends is a string. -/
theorem Client.Wired.ask {c : Client ι} (hc : c.Wired) (hat : c.at_ = .head)
    {prog : Lab8Test ι} {bytes : List Byte} (hask : c.prog.ask = some (prog, bytes)) :
    Client.Wired { c with prog, at_ := .reading, sent := c.sent ++ [bytes] } ∧
      CharArray.Terminates 512 bytes := by
  obtain ⟨c', bytes', hspec, hterm, hserver, hprinted⟩ := c.prog.ask_spec
  obtain ⟨rfl, rfl⟩ : c' = prog ∧ bytes' = bytes := by simpa using hspec.symm.trans hask
  refine ⟨⟨hserver.trans hc.server, by simp, fun _ => ?_, hprinted.trans hc.printed⟩, hterm⟩
  simp [hc.head hat]

/-- A client prints the reply it reads, and goes on sending where it came from. -/
theorem Client.Wired.hear {c : Client ι} (hc : c.Wired) (hat : c.at_ = .reading)
    {src : Endpoint ι} (hsrc : src = .server) {payload : List Byte} (hreply : IsReply payload) :
    Client.Wired { c with
      prog := c.prog.hear src payload, at_ := .head, heard := c.heard ++ [payload] } := by
  obtain ⟨text, _, hlen, rfl⟩ := hreply
  have hprinted := c.prog.hear_spec src
    (show (padded 512 text).length = 512 from length_padded (by omega))
  refine ⟨hsrc, fun _ => ?_, by simp, ?_⟩
  · simp [hc.reading hat]
  · rw [hprinted, hc.printed, List.map_append]
    rfl

theorem Wired.setFlying (hx : Wired sizeofFp x) {flying : List (Datagram ι)}
    (h : ∀ d ∈ flying, d.Routed) : Wired sizeofFp { x with flying := flying } :=
  ⟨hx.client, h, hx.working, hx.served⟩

/-- Datagrams that are taken out leave the others routed. -/
theorem Wired.eraseIdx (hx : Wired sizeofFp x) (j : ℕ) :
    Wired sizeofFp { x with flying := x.flying.eraseIdx j } :=
  hx.setFlying fun d hd => hx.flying d (List.mem_of_mem_eraseIdx hd)

/-- A routed datagram may be put in. -/
theorem Wired.append (hx : Wired sizeofFp x) {d : Datagram ι} (hd : d.Routed) :
    Wired sizeofFp { x with flying := x.flying ++ [d] } :=
  hx.setFlying (List.forall_mem_append.mpr ⟨hx.flying, by simpa using hd⟩)

/-- The server's reply is the answer to the request it took. -/
theorem Wired.work (h2 : 2 ≤ sizeofFp) (hn : sizeofFp ≤ 512) (hx : Wired sizeofFp x)
    {cli_addr : Endpoint ι} {t : Ticket ι} {q : List Byte}
    (hat : x.serverAt = .working cli_addr t q) {output : List Byte}
    (hfits : OutputFits sizeofFp x (.send output)) {server : DateServer.Server}
    {bytes : List Byte}
    (hwork : DateServer.work sizeofFp output x.server = some (server, bytes)) :
    (answer (cstr q) (gathered sizeofFp output)).length ≤ 511 ∧
      bytes = padded 512 (answer (cstr q) (gathered sizeofFp output)) := by
  obtain ⟨_, hterm, s, hs⟩ := hx.working cli_addr t q hat
  have hlen : DateServer.isDate (cstr q) → (gathered sizeofFp output).length ≤ 511 := by
    intro hdate
    apply hfits
    rwa [hs, DateServer.isDate_receive, ← DateServer.isDate_cstr]
  obtain ⟨s', hspec, _⟩ :=
    DateServer.work_take_gathered h2 hn s hterm fun hdate => Nat.lt_succ_of_le (hlen hdate)
  rw [hs, hspec] at hwork
  exact ⟨length_answer_le hlen, (Prod.mk.inj (Option.some.inj hwork)).2.symm⟩

variable [DecidableEq ι]

theorem Wired.setClient (hx : Wired sizeofFp x) (i : ι) {c : Client ι} (hc : c.Wired) :
    Wired sizeofFp (x.setClient i c) := by
  refine ⟨fun j => ?_, hx.flying, hx.working, hx.served⟩
  by_cases hj : j = i
  · subst hj
    simpa [State.setClient] using hc
  · simpa [State.setClient, hj] using hx.client j

theorem Wired.next (h2 : 2 ≤ sizeofFp) (hn : sizeofFp ≤ 512) (hx : Wired sizeofFp x) {a : Label ι}
    (hfits : OutputFits sizeofFp x a) (h : next sizeofFp x a = some y) : Wired sizeofFp y := by
  cases a with
  | ask i =>
      have hi := hx.client i
      obtain ⟨hat, rfl | ⟨prog, bytes, hask, rfl⟩⟩ := ask_cases h
      · exact hx.setClient i ⟨hi.server, by simp, by simp, hi.printed⟩
      · obtain ⟨hi', hterm⟩ := hi.ask hat hask
        exact (hx.setClient i hi').append (.request rfl hi'.server hterm)
  | recv j =>
      obtain ⟨_, d, hd, hdst, rfl⟩ := recv_cases h
      obtain ⟨hsrc, hterm⟩ := (hx.flying d (List.mem_of_getElem? hd)).of_server hdst
      refine ⟨hx.client, (hx.eraseIdx j).flying, ?_, hx.served⟩
      intro cli_addr t q hworking
      obtain ⟨rfl, rfl, rfl⟩ := ServerAt.working.inj hworking
      exact ⟨hsrc, hterm, x.server, rfl⟩
  | send output =>
      obtain ⟨cli_addr, t, q, hat, ⟨_, rfl⟩ | ⟨server, bytes, hwork, rfl⟩⟩ := send_cases h
      · exact ⟨hx.client, hx.flying, by simp, hx.served⟩
      · obtain ⟨haddr, _⟩ := hx.working cli_addr t q hat
        obtain ⟨hlen, rfl⟩ := hx.work h2 hn hat hfits hwork
        have hreply : Datagram.Routed
            ⟨.server, cli_addr, padded 512 (answer (cstr q) (gathered sizeofFp output)), t⟩ :=
          .reply rfl haddr ⟨_, nulFree_answer (cstr q) output, hlen, rfl⟩
        refine ⟨hx.client, (hx.append hreply).flying, by simp, ?_⟩
        intro u p r hmem
        rcases List.mem_append.mp hmem with hmem | hmem
        · exact hx.served u p r hmem
        · obtain ⟨rfl, rfl, rfl⟩ :
              u = t ∧ p = q ∧ r = padded 512 (answer (cstr q) (gathered sizeofFp output)) := by
            simpa using hmem
          exact ⟨output, hlen, rfl⟩
  | hear j =>
      obtain ⟨d, i, hd, hdst, hat, rfl⟩ := hear_cases h
      obtain ⟨hsrc, _, hreply⟩ := (hx.flying d (List.mem_of_getElem? hd)).of_client hdst
      exact (hx.setClient i ((hx.client i).hear hat hsrc hreply)).eraseIdx j
  | lose j =>
      obtain ⟨_, _, rfl⟩ := lose_cases h
      exact hx.eraseIdx j

/-! ## The network is an exchange -/

/-- The message of the exchange that a datagram is. -/
def Datagram.message (d : Datagram ι) :
    Ticket ι × Exchange.Message (List Byte) (List Byte) :=
  (d.ticket, if d.dst = .server then .request d.payload else .reply d.payload)

/-- The message of the exchange that the server works on. -/
def ServerAt.message : ServerAt ι → List (Ticket ι × Exchange.Message (List Byte) (List Byte))
  | .working _ ticket request => [(ticket, .request request)]
  | _ => []

/-- The exchange that the network is: what is in flight or being served is pending. -/
def exchange (x : State ι) : Exchange.State ι (List Byte) (List Byte) where
  asked := Client.sent ∘ x.clients
  got := Client.heard ∘ x.clients
  pending := ↑(x.serverAt.message ++ x.flying.map Datagram.message)
  served := x.served

theorem exchange_setClient (x : State ι) (i : ι) (c : Client ι) :
    exchange (x.setClient i c) = { exchange x with
      asked := Function.update (exchange x).asked i c.sent
      got := Function.update (exchange x).got i c.heard } := by
  simp [exchange, State.setClient, Function.comp_update]

/-- A datagram that is sent is one more message. -/
theorem exchange_append (x : State ι) (d : Datagram ι) :
    exchange { x with flying := x.flying ++ [d] } = { exchange x with
      pending := d.message ::ₘ (exchange x).pending } := by
  have hperm : (x.serverAt.message ++ (x.flying ++ [d]).map Datagram.message).Perm
      (d.message :: (x.serverAt.message ++ x.flying.map Datagram.message)) := by
    rw [List.map_append, ← List.append_assoc]
    exact List.perm_append_singleton _ _
  simp only [exchange, Multiset.cons_coe]
  rw [Multiset.coe_eq_coe.mpr hperm]

/-- A datagram that is taken out is one message less. -/
theorem pending_eraseIdx {j : ℕ} {d : Datagram ι} (hd : x.flying[j]? = some d) :
    (exchange x).pending =
      d.message ::ₘ (exchange { x with flying := x.flying.eraseIdx j }).pending := by
  obtain ⟨hj, rfl⟩ := List.getElem?_eq_some_iff.mp hd
  have hflying : (x.flying.map Datagram.message).Perm
      (x.flying[j].message :: (x.flying.eraseIdx j).map Datagram.message) :=
    (List.getElem_cons_eraseIdx_perm hj).symm.map Datagram.message
  have hperm := (hflying.append_left x.serverAt.message).trans List.perm_middle
  simp only [exchange, Multiset.cons_coe]
  exact Multiset.coe_eq_coe.mpr hperm

/-- A client that asks does so in the exchange; one that leaves does nothing there. -/
theorem refines_ask (hx : Wired sizeofFp x) {i : ι} (h : next sizeofFp x (.ask i) = some y) :
    exchange y = exchange x ∨ Exchange.Step (exchange x) (exchange y) := by
  obtain ⟨hat, rfl | ⟨prog, bytes, hask, rfl⟩⟩ := ask_cases h
  · left
    rw [exchange_setClient]
    simp [exchange]
  · right
    have hserver : prog.server = .server := ((hx.client i).ask hat hask).1.server
    have hy := exchange_append
      (x.setClient i { x.clients i with
        prog, at_ := .reading, sent := (x.clients i).sent ++ [bytes] })
      ⟨.client i, prog.server, bytes, ⟨i, (x.clients i).sent.length⟩⟩
    rw [exchange_setClient] at hy
    convert Exchange.Step.ask (exchange x) i bytes ((hx.client i).head hat) using 1
    refine hy.trans ?_
    simp [exchange, Datagram.message, hserver]

/-- A request that is received is still pending. -/
theorem refines_recv {j : ℕ} (h : next sizeofFp x (.recv j) = some y) :
    exchange y = exchange x := by
  obtain ⟨hat, d, hd, hdst, rfl⟩ := recv_cases h
  have hpending := pending_eraseIdx hd
  simp only [exchange, hat, ServerAt.message, Datagram.message, hdst, if_true] at hpending ⊢
  rw [List.nil_append] at hpending
  rw [List.nil_append, hpending]
  rfl

/-- A server that replies serves the request; one that is undefined has lost it. -/
theorem refines_send (hx : Wired sizeofFp x) {output : List Byte}
    (h : next sizeofFp x (.send output) = some y) : Exchange.Step (exchange x) (exchange y) := by
  obtain ⟨cli_addr, t, q, hat, hcases⟩ := send_cases h
  have haddr := (hx.working cli_addr t q hat).1
  have hpending : (exchange x).pending =
      (t, .request q) ::ₘ (exchange { x with serverAt := .receiving }).pending := by
    simp [exchange, hat, ServerAt.message]
  rcases hcases with ⟨_, rfl⟩ | ⟨server, bytes, hwork, rfl⟩
  · exact .lose _ _ _ hpending
  · have hy := exchange_append
      { x with server, serverAt := .receiving, served := x.served ++ [(t, q, bytes)] }
      ⟨.server, cli_addr, bytes, t⟩
    convert Exchange.Step.serve (exchange x) t q bytes _ hpending using 1
    refine hy.trans ?_
    simp [exchange, Datagram.message, haddr]

/-- A client that hears gets the reply of the datagram's ticket. -/
theorem refines_hear (hx : Wired sizeofFp x) {j : ℕ} (h : next sizeofFp x (.hear j) = some y) :
    Exchange.Step (exchange x) (exchange y) := by
  obtain ⟨d, i, hd, hdst, hat, rfl⟩ := hear_cases h
  obtain ⟨_, rfl, _⟩ := (hx.flying d (List.mem_of_getElem? hd)).of_client hdst
  have hmessage : d.message = (d.ticket, .reply d.payload) := by
    simp [Datagram.message, hdst]
  have hpending := pending_eraseIdx hd
  rw [hmessage] at hpending
  have hy := exchange_setClient { x with flying := x.flying.eraseIdx j } d.ticket.client
    { x.clients d.ticket.client with
      prog := (x.clients d.ticket.client).prog.hear d.src d.payload, at_ := .head
      heard := (x.clients d.ticket.client).heard ++ [d.payload] }
  convert Exchange.Step.get (exchange x) d.ticket d.payload _ hpending using 1
  refine hy.trans ?_
  simp [exchange]

/-- **Refinement**: `ask`, `send`, `hear` and `lose` are the steps of an exchange; a
`recv`, and a client that leaves, are none. -/
theorem refines (hx : Wired sizeofFp x) {a : Label ι} (h : next sizeofFp x a = some y) :
    exchange y = exchange x ∨ Exchange.Step (exchange x) (exchange y) := by
  cases a with
  | ask i => exact refines_ask hx h
  | recv j => exact .inl (refines_recv h)
  | send output => exact .inr (refines_send hx h)
  | hear j => exact .inr (refines_hear hx h)
  | lose j =>
      obtain ⟨d, hd, rfl⟩ := lose_cases h
      exact .inr (.lose _ _ _ (pending_eraseIdx hd))

/-- The exchange of a network that a run has come to is reachable. -/
theorem exchange_reachable (h2 : 2 ≤ sizeofFp) (hn : sizeofFp ≤ 512)
    {tr : List (State ι × Label ι)} (h : (system ι sizeofFp).Exec tr x)
    (hfits : ∀ p ∈ tr, OutputFits sizeofFp p.1 p.2) :
    Wired sizeofFp x ∧ (Exchange.system ι (List Byte) (List Byte)).Reachable (exchange x) := by
  have hsim : ∃ e, (Exchange.system ι (List Byte) (List Byte)).Reachable e ∧
      (e = exchange x ∧ Wired sizeofFp x) := by
    refine h.simulates (fun x e => e = exchange x ∧ Wired sizeofFp x) (OutputFits sizeofFp)
      ?_ ?_ hfits
    · rintro x ⟨hclients, hat, hflying, hserved⟩
      refine ⟨exchange x, ?_, rfl, fun i => ?_, by simp [hflying], by simp [hat],
        by simp [hserved]⟩
      · have hsent : Client.sent ∘ x.clients = fun _ => [] := by
          funext i
          exact (hclients i).sent
        have hheard : Client.heard ∘ x.clients = fun _ => [] := by
          funext i
          exact (hclients i).heard
        simp [exchange, Exchange.system, hsent, hheard, hat, hflying, hserved, ServerAt.message]
      · have hi := hclients i
        exact ⟨hi.server, by simp [hi.sent, hi.heard], by simp [hi.at_],
          by simp [hi.printed, hi.heard]⟩
    · rintro x a y _ hg ⟨rfl, hx⟩ hstep
      have hy := hx.next h2 hn hg hstep
      rcases refines hx hstep with heq | hexchange
      · exact .inl ⟨heq.symm, hy⟩
      · exact .inr ⟨(), _, hexchange, rfl, hy⟩
  obtain ⟨_, hreach, rfl, hx⟩ := hsim
  exact ⟨hx, hreach⟩

/-! ## The replies -/

/-- What is outstanding for a client, by addresses, is what is pending for it in the
exchange. -/
theorem outstanding_eq (hx : Wired sizeofFp x) (i : ι) :
    outstanding x i = ((exchange x).pending.map fun m => m.1.client).count i := by
  have hflying : (x.flying.filter fun d => d.src = .client i ∨ d.dst = .client i).length =
      (x.flying.map fun d => d.ticket.client).count i := by
    rw [← List.countP_eq_length_filter, List.count, List.countP_map]
    refine List.countP_congr fun d hd => ?_
    cases hx.flying d hd with
    | request hsrc hdst _ => simp [hsrc, hdst]
    | reply hsrc hdst _ => simp [hsrc, hdst]
  have hpending : ((exchange x).pending.map fun m => m.1.client).count i =
      (x.serverAt.message.map fun m => m.1.client).count i +
        (x.flying.map fun d => d.ticket.client).count i := by
    simp only [exchange, Multiset.map_coe, Multiset.coe_count, List.map_append, List.map_map,
      List.count_append]
    rfl
  rw [hpending, outstanding, hflying, Nat.add_comm]
  congr 1
  cases hat : x.serverAt with
  | receiving => simp [ServerAt.message]
  | undefined => simp [ServerAt.message]
  | working cli_addr t q =>
      obtain ⟨rfl, _⟩ := hx.working cli_addr t q hat
      simp [ServerAt.message, List.count_singleton, Endpoint.client.injEq]

/-- **Each client gets its own replies.** In every state that a run comes to, a client has
at most one request or reply in flight or being served; the `k`-th text it has printed is
the reply that the server gave to its own `k`-th request, the text gathered of the command's
output or the refusal; and no request was served twice. -/
theorem own_replies (ι : Type) [DecidableEq ι] (sizeofFp : ℕ) (h2 : 2 ≤ sizeofFp)
    (hn : sizeofFp ≤ 512) (tr : List (State ι × Label ι)) (x : State ι)
    (h : (system ι sizeofFp).Exec tr x) (hfits : ∀ p ∈ tr, OutputFits sizeofFp p.1 p.2) :
    (∀ i, outstanding x i ≤ 1) ∧
      (∀ (i : ι) (k : ℕ) (text : Option (List Byte)),
        (x.clients i).prog.line.printed[k]? = some text →
        ∃ request output : List Byte, (x.clients i).sent[k]? = some request ∧
          (⟨i, k⟩, request,
            padded 512 (answer (cstr request) (gathered sizeofFp output))) ∈ x.served ∧
          text = some (answer (cstr request) (gathered sizeofFp output))) ∧
      (x.served.map Prod.fst).Nodup := by
  obtain ⟨hx, hreach⟩ := exchange_reachable h2 hn h hfits
  have hpaired := Exchange.paired hreach
  refine ⟨fun i => ?_, fun i k text htext => ?_, hpaired.once⟩
  · rw [outstanding_eq hx]
    exact Multiset.nodup_iff_count_le_one.mp hpaired.one i
  · rw [(hx.client i).printed, List.getElem?_map] at htext
    obtain ⟨bytes, hbytes, rfl⟩ := Option.map_eq_some_iff.mp htext
    obtain ⟨request, hserved⟩ := hpaired.got i k bytes hbytes
    obtain ⟨output, hlen, rfl⟩ := hx.served _ _ _ hserved
    refine ⟨request, output, hpaired.served _ _ _ hserved, hserved, ?_⟩
    rw [textOf_padded_of_lt (nulFree_answer (cstr request) output) (by omega)]

instance (x : State ι) (a : Label ι) : Decidable (OutputFits sizeofFp x a) :=
  match a with
  | .send _ => inferInstanceAs (Decidable (_ → _))
  | .ask _ => .isTrue trivial
  | .recv _ => .isTrue trivial
  | .hear _ => .isTrue trivial
  | .lose _ => .isTrue trivial

/-- Two clients: one asks for the date, the other for something else; both have garbage
in their arrays. -/
def twoClients : State Bool where
  clients i :=
    ⟨⟨⟨.fillWith 512 88, .fillWith 512 88,
      if i then ascii "date\n" else ascii "ls\n", []⟩, .server⟩, .head, [], []⟩
  server := ⟨⟨.fillWith 512 88, .fillWith 512 88, .fillWith 512 88⟩, []⟩
  serverAt := .receiving
  flying := []
  served := []

/-- The second request overtakes the first, and the first reply the second. -/
theorem own_replies_two :
    ∃ tr x, (system Bool 8).Exec tr x ∧
      (x.clients true).prog.line.printed = [some (ascii "Fri May 4\n")] ∧
      (x.clients false).prog.line.printed = [some DateServer.refusal] ∧
      ∀ i, outstanding x i ≤ 1 := by
  have hrun : (System.replay (next 8) twoClients
      [.ask true, .ask false, .recv 1, .send [], .recv 0, .send (ascii "Fri May 4\n"),
        .hear 1, .hear 0]).map
        (fun p => ((p.2.clients true).prog.line.printed, (p.2.clients false).prog.line.printed,
          decide (∀ q ∈ p.1, OutputFits 8 q.1 q.2))) =
      some ([some (ascii "Fri May 4\n")], [some DateServer.refusal], true) := by
    decide +kernel
  have hinit : (system Bool 8).init twoClients :=
    ⟨fun _ => ⟨rfl, rfl, rfl, rfl, rfl⟩, rfl, rfl, rfl⟩
  obtain ⟨tr, x, hexec, hx⟩ := System.exec_of_replay hinit hrun
  obtain ⟨htrue, hrest⟩ := Prod.mk.inj hx
  obtain ⟨hfalse, hfits⟩ := Prod.mk.inj hrest
  exact ⟨tr, x, hexec, htrue, hfalse,
    (own_replies Bool 8 (by decide) (by decide) tr x hexec (of_decide_eq_true hfits)).1⟩

end SocketPrograms.HW4.Network
