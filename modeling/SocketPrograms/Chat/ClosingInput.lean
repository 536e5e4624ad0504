import SocketPrograms.Chat.UDPChatClient
import SocketPrograms.ClosingWord

/-!
# Where the UDP chat client leaves

The loop condition looks for `"close"` at the start of `sendline`, which holds the message
assembled last: the name comes first in it, and what was typed behind. So the name decides
whether the client leaves after a message, and what was typed does not.

A typed input is what one `read` returns. An input is handled in the iteration that reads it and
sends its message.

## Main results

* `step_spec` — what one iteration does to the loop condition.
* `ends_iff` — the runs in which the client leaves after the first input that begins with
  `"close"`, and not otherwise.
-/

namespace SocketPrograms.Chat.ClosingInput

open UDPChatClient

/-- What an iteration reads from the standard input, if it does. -/
def typed (p : Client × Input) : Option (List Byte) :=
  if closing p.1 then none
  else match p.2.select with
    | .ready fds => if p.1.client_fd ∈ fds then none else some (lineCut 9 p.1.stdin).1
    | _ => none

/-- What it reads and sends. -/
def handled (p : Client × Input) : Option (List Byte) := if p.2.sendto then typed p else none

/-- The typed inputs that a run has handled, in order. -/
def inputs (tr : List (Client × Input)) : List (List Byte) := tr.filterMap handled

/-- The last step of the run handled the first input that begins with `"close"`. -/
def JustTyped (tr : List (Client × Input)) : Prop :=
  ∃ input ∈ tr.getLast?.bind handled,
    BeginsClose input ∧ ∀ earlier ∈ inputs tr.dropLast, ¬ BeginsClose earlier

/-- At the head of its loop the client is about to leave exactly where it has just handled the
first input that begins with `"close"`. -/
structure Ends (tr : List (Client × Input)) (y : Client) : Prop where
  head : y.at_ = .head → (closing y = true ↔ JustTyped tr)
  defined : y.at_ ≠ .undefined

/-- The message that an iteration assembles fits `sendline`. -/
def Fits (sizeofFp : ℕ) (name : List Byte) (p : Client × Input) : Prop :=
  ∀ input ∈ typed p,
    (name ++ ascii ": " ++ cstr input ++ gathered sizeofFp p.2.date).length < 2048

variable {sizeofFp : ℕ} {name : List Byte} {c y y' : Client} {inp : Input}
  {tr : List (Client × Input)}

/-- What one iteration does: it leaves; or nothing is typed, and the loop goes on or the program
exits; or a message is sent, or does not fit. -/
inductive Outcome (sizeofFp : ℕ) (name : List Byte) (p : Client × Input) (y' : Client) : Prop
  | leaves (hat : y'.at_ = .left) (htyped : typed p = none)
  | idle (hopen : closing p.1 = false) (hclosing : closing y' = false)
      (hat : y'.at_ ≠ .undefined) (htyped : typed p = none)
  | sends (input : List Byte) (hopen : closing p.1 = false) (htyped : typed p = some input)
      (hfits : Fits sizeofFp name p) (hsendto : p.2.sendto = true) (hat : y'.at_ = .head)
      (hclosing : closing y' = true ↔ BeginsClose name)
  | fails (hfits : Fits sizeofFp name p) (hsendto : p.2.sendto = false) (hat : y'.at_ = .exited)
  | overruns (hfits : ¬ Fits sizeofFp name p) (hat : y'.at_ = .undefined)

/-- Receiving leaves the loop condition as the clear left it. -/
theorem receive_spec (hat : y.at_ = .head) (datagram : Option (List Byte)) (fds : Finset ℕ) :
    (receive datagram { clear y with readfds := fds }).name = y.name ∧
      closing (receive datagram { clear y with readfds := fds }) = false ∧
      (receive datagram { clear y with readfds := fds }).at_ ≠ .undefined := by
  refine ⟨receive_name _ _, closing_of_cleared y.sendline (receive_sendline _ _), ?_⟩
  cases datagram <;> simp [receive, clear, hat]

/-- Sending: the message is sent, or `sendto` fails, or the message does not fit. -/
theorem outcome_send (hsize : 2 ≤ sizeofFp) (hmax : sizeofFp ≤ 2048) (hat : y.at_ = .head)
    (hopen : closing y = false) (hname : y.name.text = some (name ++ ascii ": "))
    {fds : Finset ℕ} (htyped : typed (y, inp) = some (lineCut 9 y.stdin).1) :
    (send sizeofFp inp.date inp.sendto { clear y with readfds := fds }).name = y.name ∧
      Outcome sizeofFp name (y, inp)
        (send sizeofFp inp.date inp.sendto { clear y with readfds := fds }) := by
  have hfits_iff : Fits sizeofFp name (y, inp) ↔
      (name ++ ascii ": " ++ cstr (lineCut 9 y.stdin).1 ++ gathered sizeofFp inp.date).length <
        2048 := by
    rw [Fits, htyped]
    simp
  by_cases hfits : Fits sizeofFp name (y, inp)
  · obtain ⟨sendline, date, hbytes, hsend⟩ :=
      send_spec hsize hmax inp.date inp.sendto (c := { y with readfds := fds }) hname rfl
        (hfits_iff.mp hfits)
    rw [clear_readfds, hsend]
    by_cases hsendto : inp.sendto = true
    · rw [if_pos hsendto]
      refine ⟨rfl, .sends _ hopen htyped hfits hsendto hat ?_⟩
      rw [List.append_assoc] at hbytes
      rw [closing_of_message hbytes, decide_eq_true_eq]
      rfl
    · rw [if_neg hsendto]
      exact ⟨rfl, .fails hfits (by simpa using hsendto) rfl⟩
  · have hnone : assemble sizeofFp inp.date (clear { y with readfds := fds }) = none :=
      (assemble_spec hsize hmax inp.date (c := { y with readfds := fds }) hname rfl).2
        (not_lt.mp fun hlt => hfits (hfits_iff.mpr hlt))
    rw [clear_readfds, send, hnone]
    exact ⟨rfl, .overruns hfits rfl⟩

/-- **What one iteration does to the loop condition.** -/
theorem step_spec (hsize : 2 ≤ sizeofFp) (hmax : sizeofFp ≤ 2048)
    (hname : y.name.text = some (name ++ ascii ": ")) (hstep : next sizeofFp y inp = some y') :
    y'.name = y.name ∧ Outcome sizeofFp name (y, inp) y' := by
  obtain ⟨hat, hcases⟩ := next_cases hstep
  rcases hcases with ⟨hclosing, rfl⟩ | ⟨hopen, hrest⟩
  · exact ⟨rfl, .leaves rfl (by simp [typed, hclosing])⟩
  · rcases hrest with ⟨hselect, rfl⟩ | ⟨hselect, rfl⟩ | ⟨fds, hselect, _, hbranch⟩
    · exact ⟨rfl, .idle hopen (closing_of_cleared y.sendline rfl) (by simp [clear, hat])
        (by simp [typed, hopen, hselect])⟩
    · exact ⟨rfl, .idle hopen (closing_of_cleared y.sendline rfl) (by simp [clear, hat])
        (by simp [typed, hopen, hselect])⟩
    · rcases hbranch with ⟨hmem, rfl⟩ | ⟨hnot, rfl⟩
      · obtain ⟨hkeep, hclosing, hdefined⟩ := receive_spec hat inp.datagram fds
        exact ⟨hkeep, .idle hopen hclosing hdefined (by simp [typed, hopen, hselect, hmem])⟩
      · exact outcome_send hsize hmax hat hopen hname (by simp [typed, hopen, hselect, hnot])

/-! ## Any run -/

/-- What a run keeps: the name, and, where that begins with `"close"`, the loop condition fails
as soon as an input was handled. -/
structure Kept (c : Client) (name : List Byte) (tr : List (Client × Input)) (y : Client) :
    Prop where
  name_eq : y.name = c.name
  once : y.at_ = .head → closing y = false → BeginsClose name → inputs tr = []

theorem inputs_snoc (tr : List (Client × Input)) (p : Client × Input) :
    inputs (tr ++ [p]) = inputs tr ++ (handled p).toList := by
  cases h : handled p <;> simp [inputs, h]

theorem justTyped_snoc {p : Client × Input} :
    JustTyped (tr ++ [p]) ↔ ∃ input ∈ handled p, BeginsClose input ∧
      ∀ earlier ∈ inputs tr, ¬ BeginsClose earlier := by
  simp [JustTyped]

theorem handled_of_none {p : Client × Input} (h : typed p = none) : handled p = none := by
  simp [handled, h]

theorem Kept.step (H : Kept c name tr y) (hat : y.at_ = .head)
    (hspec : y'.name = y.name ∧ Outcome sizeofFp name (y, inp) y') :
    Kept c name (tr ++ [(y, inp)]) y' := by
  refine ⟨hspec.1.trans H.name_eq, fun hat' hopen' hbegins => ?_⟩
  rw [inputs_snoc]
  cases hspec.2 with
  | leaves hleft _ => cases hleft.symm.trans hat'
  | idle hopen _ _ htyped => rw [H.once hat hopen hbegins, handled_of_none htyped]; rfl
  | sends _ _ _ _ _ _ hclosing => cases hopen'.symm.trans (hclosing.mpr hbegins)
  | fails _ _ hexit => cases hexit.symm.trans hat'
  | overruns _ hundefined => cases hundefined.symm.trans hat'

/-- In this iteration the message fits, and an input that is handled begins with `"close"` exactly
where the name does. -/
def Matches (sizeofFp : ℕ) (name : List Byte) (p : Client × Input) : Prop :=
  Fits sizeofFp name p ∧ ∀ input ∈ handled p, (BeginsClose input ↔ BeginsClose name)

instance (sizeofFp : ℕ) (name : List Byte) (p : Client × Input) :
    Decidable (Matches sizeofFp name p) :=
  inferInstanceAs (Decidable ((∀ input ∈ typed p,
    (name ++ ascii ": " ++ cstr input ++ gathered sizeofFp p.2.date).length < 2048) ∧
      ∀ input ∈ handled p, (BeginsClose input ↔ BeginsClose name)))

theorem matches_of_none {p : Client × Input} (h : typed p = none) : Matches sizeofFp name p := by
  constructor
  · rw [Fits, h]
    simp
  · rw [handled_of_none h]
    simp

/-- A client that goes on has handled no input that begins with `"close"`. -/
theorem Kept.not_beginsClose (H : Kept c name tr y) (hat : y.at_ = .head)
    (hopen : closing y = false) (hpast : ∀ p ∈ tr, Matches sizeofFp name p) :
    ∀ earlier ∈ inputs tr, ¬ BeginsClose earlier := by
  intro earlier hmem hclose
  obtain ⟨p, hp, hearlier⟩ := List.mem_filterMap.mp hmem
  have hbegins := ((hpast p hp).2 earlier hearlier).mp hclose
  rw [H.once hat hopen hbegins] at hmem
  cases hmem

/-- A message that is sent: it should end the client where the input begins with the word, and
it does where the name does. -/
theorem ends_snoc_of_sent {input : List Byte}
    (hearlier : ∀ earlier ∈ inputs tr, ¬ BeginsClose earlier)
    (hhandled : handled (y, inp) = some input) (hfits : Fits sizeofFp name (y, inp))
    (hat : y'.at_ = .head) (hclosing : closing y' = true ↔ BeginsClose name) :
    Ends (tr ++ [(y, inp)]) y' ↔ Matches sizeofFp name (y, inp) := by
  have hjust : JustTyped (tr ++ [(y, inp)]) ↔ BeginsClose input := by
    rw [justTyped_snoc, hhandled]
    simpa using fun _ => hearlier
  constructor
  · intro hends
    refine ⟨hfits, ?_⟩
    rw [hhandled]
    simp only [Option.mem_some_iff, forall_eq']
    rw [← hjust, ← hends.head hat, hclosing]
  · rintro ⟨_, hmatch⟩
    refine ⟨fun _ => ?_, by simp [hat]⟩
    rw [hjust, hclosing]
    exact (hmatch input hhandled).symm

/-- **One iteration more**: where the earlier inputs begin with `"close"` exactly where the name
does, the client is right after this one exactly where its input does too. -/
theorem ends_snoc_iff (H : Kept c name tr y) (hat : y.at_ = .head)
    (hpast : ∀ p ∈ tr, Matches sizeofFp name p)
    (hoc : Outcome sizeofFp name (y, inp) y') :
    Ends (tr ++ [(y, inp)]) y' ↔ Matches sizeofFp name (y, inp) := by
  cases hoc with
  | leaves hleft htyped =>
      exact iff_of_true ⟨by simp [hleft], by simp [hleft]⟩ (matches_of_none htyped)
  | idle _ hclosing hdefined htyped =>
      refine iff_of_true ⟨fun _ => ?_, hdefined⟩ (matches_of_none htyped)
      rw [justTyped_snoc, handled_of_none htyped, hclosing]
      simp
  | fails hfits hsendto hexit =>
      refine iff_of_true ⟨by simp [hexit], by simp [hexit]⟩ ⟨hfits, ?_⟩
      have hsendto : inp.sendto = false := hsendto
      simp [handled, hsendto]
  | overruns hfits hundefined =>
      exact iff_of_false (fun h => h.defined hundefined) fun h => hfits h.1
  | sends input hopen htyped hfits hsendto hhead hclosing =>
      have hhandled : handled (y, inp) = some input := by
        rw [handled, if_pos hsendto, htyped]
      exact ends_snoc_of_sent (H.not_beginsClose hat hopen hpast) hhandled hfits hhead hclosing

theorem head_of_step (hstep : next sizeofFp y inp = some y') : y.at_ = .head :=
  (next_cases hstep).1

theorem kept (hsize : 2 ≤ sizeofFp) (hmax : sizeofFp ≤ 2048)
    (hname : c.name.text = some (name ++ ascii ": ")) (h : (system sizeofFp c).Exec tr y) :
    Kept c name tr y := by
  induction h with
  | start h0 =>
      obtain rfl : _ = c := h0
      exact ⟨rfl, fun _ _ _ => rfl⟩
  | snoc _ hstep ih =>
      exact ih.step (head_of_step hstep)
        (step_spec hsize hmax ((congrArg CharArray.text ih.name_eq).trans hname) hstep)

/-- **The client leaves right after the first typed input that begins with `"close"`, and after
no other, exactly in these runs**: every message assembled fits `sendline`, and every input that
was handled begins with `"close"` exactly where the user's name does. -/
theorem ends_iff (sizeofFp : ℕ) (garbage : ℤ) (a : CharArray 2048) (name typedName : List Byte)
    (c : Client) (hsize : 2 ≤ sizeofFp) (hmax : sizeofFp ≤ 2048) (hstart : Starts garbage c)
    (htyped : Typed [name] typedName) (henter : enterName a typedName = some c.name)
    (hzero : c.sendline.bytes = padded 2048 []) (tr : List (Client × Input)) (y : Client)
    (h : (system sizeofFp c).Exec tr y) :
    (∀ tr' z, tr' <+: tr → (system sizeofFp c).Exec tr' z → Ends tr' z) ↔
      ∀ p ∈ tr, Matches sizeofFp name p := by
  have hname : c.name.text = some (name ++ ascii ": ") :=
    enterName_text htyped (length_lt_of_enterName htyped henter) henter
  have hopen : closing c = false := by
    have hclear : c.sendline = c.sendline.memset 2048 := by
      ext1
      rw [hzero, c.sendline.bytes_memset_of_le le_rfl]
    exact closing_of_cleared c.sendline hclear
  induction h with
  | start h0 =>
      refine iff_of_true ?_ (by simp)
      intro tr' z hpre hexec
      obtain rfl := List.prefix_nil.mp hpre
      obtain rfl : z = c := hexec.init_of_nil
      exact ⟨fun _ => by simp [JustTyped, hopen], by simp [hstart.at_eq]⟩
  | @snoc tr y y' inp h hstep ih =>
      have hkept := kept hsize hmax hname h
      have hspec := step_spec hsize hmax ((congrArg CharArray.text hkept.name_eq).trans hname) hstep
      have hlast (hpast : ∀ p ∈ tr, Matches sizeofFp name p) :=
        ends_snoc_iff hkept (head_of_step hstep) hpast hspec.2
      rw [List.forall_mem_append, List.forall_mem_singleton]
      constructor
      · intro hall
        have hpast := ih.mp fun tr' z hpre =>
          hall tr' z (hpre.trans (List.prefix_append _ _))
        exact ⟨hpast, (hlast hpast).mp (hall _ y' List.prefix_rfl (.snoc h hstep))⟩
      · rintro ⟨hpast, hmatch⟩ tr' z hpre hexec
        rcases List.prefix_concat_iff.mp hpre with rfl | hpre
        · obtain rfl : z = y' := hexec.unique (.snoc h hstep)
          exact (hlast hpast).mpr hmatch
        · exact ih.mpr hpast tr' z hpre hexec

/-- An iteration in which something was typed, and `date` prints nothing. -/
def keyboard : Input := ⟨.ready {0}, none, [], true⟩

/-- John types `hi`, and the client goes on. -/
theorem ends_iff_john :
    ∃ tr y, (system 8 (zeroed 0 (ascii "hi\n"))).Exec tr y ∧ inputs tr = [ascii "hi\n"] ∧
      y.at_ = .head ∧ ∀ tr' z, tr' <+: tr →
        (system 8 (zeroed 0 (ascii "hi\n"))).Exec tr' z → Ends tr' z := by
  have hrun : (System.replay (next 8) (zeroed 0 (ascii "hi\n")) [keyboard]).map
      (fun p => (inputs p.1, p.2.at_, decide (∀ q ∈ p.1, Matches 8 (ascii "John") q))) =
        some ([ascii "hi\n"], .head, true) := by decide +kernel
  obtain ⟨tr, y, hexec, hy⟩ := System.exec_of_replay (zeroed_init 0 (ascii "hi\n")) hrun
  obtain ⟨hinputs, hrest⟩ := Prod.mk.inj hy
  obtain ⟨hat, hmatch⟩ := Prod.mk.inj hrest
  refine ⟨tr, y, hexec, hinputs, hat, ?_⟩
  exact (ends_iff 8 0 (.fillWith 2048 0) (ascii "John") john (zeroed 0 (ascii "hi\n"))
    (by decide) (by decide) (zeroed_starts zero_inSet _) john_typed (zeroed_name 0 _)
    (by decide +kernel) tr y hexec).mpr (of_decide_eq_true hmatch)

/-- John types `close`, and the client goes on. -/
theorem close_is_not_seen :
    ¬ ∀ (sizeofFp : ℕ) (garbage : ℤ) (a : CharArray 2048) (name typedName : List Byte)
      (c : Client), 2 ≤ sizeofFp → sizeofFp ≤ 2048 → Starts garbage c →
      Typed [name] typedName → enterName a typedName = some c.name →
      c.sendline.bytes = padded 2048 [] → ∀ (tr : List (Client × Input)) (y : Client),
        (system sizeofFp c).Exec tr y → Ends tr y := by
  intro hloop_ends
  have hrun : (System.replay (next 8) (zeroed 0 (ascii "close\n")) [keyboard]).map
      (fun p => (p.2.at_, closing p.2, p.1.map handled)) =
        some (.head, false, [some (ascii "close\n")]) := by decide +kernel
  obtain ⟨tr, y, hexec, hy⟩ := System.exec_of_replay (zeroed_init 0 (ascii "close\n")) hrun
  obtain ⟨hat, hrest⟩ := Prod.mk.inj hy
  obtain ⟨hclosing, hhandled⟩ := Prod.mk.inj hrest
  obtain ⟨p, rfl, hp⟩ := List.map_eq_singleton_iff.mp hhandled
  have hends := hloop_ends 8 0 (.fillWith 2048 0) (ascii "John") john _ (by decide) (by decide)
    (zeroed_starts zero_inSet _) john_typed (zeroed_name 0 _) (by decide +kernel) _ y hexec
  have hjust : JustTyped ([] ++ [p]) :=
    justTyped_snoc.mpr ⟨ascii "close\n", hp, by decide, by simp [inputs]⟩
  exact Bool.false_ne_true (hclosing.symm.trans ((hends.head hat).mpr hjust))

end SocketPrograms.Chat.ClosingInput
