import SocketPrograms.PacketLoss.Flood

/-!
# What the server reports

The server's counter starts at 1 and the client's at 0. Both are counted after the datagram, so
the figure reported as received is one too many, and the text reported as sent one too few.

## Main results

* `report_eq` — the two figures of a report.
* `never_accurate` — neither of them is right in any run.
-/

namespace SocketPrograms.PacketLoss

variable {x : State} {tr : List (State × Label)}

/-- **The report**: one more than was received, and the place of the last one received. -/
theorem report_eq (h : system.Exec tr x) (hreport : Reports x) :
    x.server.counter = x.received.length + 1 ∧
      ∃ k, sentUpToLast x = k + 1 ∧ x.server.buf.text = some (decimal k) := by
  have H := counted h
  have hserver := H.server
  refine ⟨hserver, ?_⟩
  cases hlast : x.received.getLast? with
  | none =>
      -- the loop has received something
      rw [List.getLast?_eq_none_iff.mp hlast] at hserver
      rw [Reports, hserver] at hreport
      exact absurd hreport (by decide)
  | some k => exact ⟨k, by rw [sentUpToLast, hlast]; rfl, H.buf k hlast⟩

/-- **Neither figure of a report is right, in any run that reaches it**, whatever is lost and in
whichever order the datagrams arrive. -/
theorem never_accurate (tr : List (State × Label)) (x : State) (h : system.Exec tr x)
    (hreport : Reports x) : ¬ CountsReceived x ∧ ¬ NamesSent x := by
  obtain ⟨hcounter, k, hsent, htext⟩ := report_eq h hreport
  constructor
  · intro hcounts
    rw [CountsReceived, hcounter] at hcounts
    omega
  · intro hnames
    rw [NamesSent, htext, hsent] at hnames
    have hk : k = k + 1 := decimal_injective (Option.some.inj hnames)
    omega

/-! ## A run without loss -/

/-- The programs after `n` datagrams, each received before the next was sent. -/
structure Delivered (n : ℕ) (x : State) : Prop where
  client : x.client.counter = n
  server : x.server.counter = n + 1
  flying : x.flying = []
  sent : x.sent = n
  received : x.received = List.range n

/-- One more datagram is sent and received. -/
theorem Delivered.succ {n : ℕ} (hn : n < 384999) (h : system.Exec tr x) (H : Delivered n x) :
    ∃ tr' y, system.Exec tr' y ∧ Delivered (n + 1) y := by
  obtain ⟨c, payload, hsend, hcounter, _⟩ :=
    x.client.send_spec (by rw [H.client]; omega)
  have hclient : x.client.counter < 1000000 := by
    rw [H.client]
    omega
  have hserver : x.server.counter < 385000 := by
    rw [H.server]
    omega
  have hfirst : next x .send = some
      { x with client := c, flying := [⟨n, payload⟩], sent := n + 1 } := by
    simp [next, hclient, hsend, H.flying, H.sent]
  have hsecond : next { x with client := c, flying := [⟨n, payload⟩], sent := n + 1 } (.recv 0) =
      some { x with
        client := c, server := x.server.receive payload, flying := [], sent := n + 1
        received := x.received ++ [n] } := by
    simp [next, hserver]
  refine ⟨_, _, .snoc (.snoc h hfirst) hsecond, ?_, ?_, rfl, rfl, ?_⟩
  · rw [hcounter, H.client]
  · rw [UDPFloodServer.receive, H.server]
  · rw [H.received, List.range_succ]

/-- Programs with zeroed memory. -/
def zeroed : State := ⟨⟨.fillWith 512 0, 0⟩, ⟨.fillWith 512 0, 1⟩, [], 0, []⟩

theorem delivered (n : ℕ) (hn : n ≤ 384999) : ∃ tr x, system.Exec tr x ∧ Delivered n x := by
  induction n with
  | zero => exact ⟨[], zeroed, .start ⟨rfl, rfl, rfl, rfl, rfl⟩, rfl, rfl, rfl, rfl, rfl⟩
  | succ n ih =>
      obtain ⟨tr, x, h, H⟩ := ih (by omega)
      exact H.succ (by omega) h

/-- A run in which nothing is lost comes to the report. -/
theorem report_reached :
    ∃ tr x, system.Exec tr x ∧ Reports x ∧ x.received = List.range 384999 := by
  obtain ⟨tr, x, h, H⟩ := delivered 384999 le_rfl
  refine ⟨tr, x, h, ?_, H.received⟩
  rw [Reports, H.server]

/-- Where nothing is lost, neither figure is right. -/
theorem never_accurate_without_loss :
    ∃ tr x, system.Exec tr x ∧ x.received = List.range 384999 ∧ ¬ CountsReceived x ∧
      ¬ NamesSent x := by
  obtain ⟨tr, x, h, hreport, hreceived⟩ := report_reached
  exact ⟨tr, x, h, hreceived, never_accurate tr x h hreport⟩

/-- 384999 datagrams are received in order, and 385000 are reported. -/
theorem one_too_many :
    ¬ ∀ (tr : List (State × Label)) (x : State), system.Exec tr x → Reports x →
      CountsReceived x ∧ (x.received.Pairwise (· < ·) → NamesSent x) := by
  intro haccurate
  obtain ⟨tr, x, h, hreport, _⟩ := report_reached
  have hcounts : x.server.counter = x.received.length := (haccurate tr x h hreport).1
  rw [(report_eq h hreport).1] at hcounts
  omega

end SocketPrograms.PacketLoss
