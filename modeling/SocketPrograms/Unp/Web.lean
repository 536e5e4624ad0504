import SocketPrograms.Lib.Transition
import Mathlib.Data.Finset.Insert
import Mathlib.Data.Fintype.Card
import Mathlib.Logic.Function.Basic

/-!
# The web client with simultaneous connections

`web.c` fetches files over nonblocking connections, at most `maxnconn` at a time. It starts
connections while it may, waits in `select` for all that are open, and then looks at each file: a
connection that is established sends its command, and one whose server has sent everything is
closed, which makes room for the next.

A connection may be established at once or later, or fail; where a call fails for good, the client
exits. Left out are the home page, which is fetched before, and what is printed. `socket` is taken
to return descriptors below `FD_SETSIZE`, which the source does not check: `FD_SET` of another one
would write outside of the set.

## Main definitions

* `State`, `next`, `system` — the array of files, the counters, the descriptor sets and the sockets.

## Main results

* `fetches` — **at most `maxnconn` sockets are open, each file is requested once, `select` waits for
  exactly the open connections and for one at least, and the client ends with all files done**.
-/

namespace SocketPrograms.Unp.Web

/-- The values of `f_flags`. -/
inductive Flags
  /-- 0. -/
  | fresh
  /-- `F_CONNECTING`. -/
  | connecting
  /-- `F_READING`. -/
  | reading
  /-- `F_DONE`. -/
  | done
  deriving DecidableEq

structure File where
  f_fd : ℕ
  f_flags : Flags

/-- Where the client stands. -/
inductive At
  /-- At the head of the outer loop, or of the loop that starts connections. -/
  | filling
  /-- At this index of the loop over the files, with what `select` returned. -/
  | scanning (i : ℕ) (rs ws : Finset ℕ)
  /-- Behind the outer loop. -/
  | left
  /-- Behind `err_quit("nlefttoconn = %d but nothing found")`. -/
  | quit
  /-- Behind another error. -/
  | exited
  deriving DecidableEq

/-- The client, with `n` files. -/
structure State (n : ℕ) where
  file : Fin n → File
  nconn : ℤ
  nlefttoconn : ℤ
  nlefttoread : ℤ
  maxfd : ℤ
  rset : Finset ℕ
  wset : Finset ℕ
  at_ : At
  /-- The descriptors that are open. -/
  opened : Finset ℕ
  /-- How many commands were written for each file (history). -/
  gets : Fin n → ℕ

/-- What the nonblocking `connect` does. -/
inductive Connect
  /-- -1, with `EINPROGRESS`. -/
  | inProgress
  /-- 0. -/
  | established
  /-- -1, with another error. -/
  | fails
  deriving DecidableEq

/-- The steps. -/
inductive Label
  /-- A connection is started: `socket` returns `fd`; `written` is whether `Writen` succeeds, if it
  is called. -/
  | start (fd : ℕ) (connect : Connect) (written : Bool)
  /-- `select` leaves these descriptors in its sets. -/
  | select (rs ws : Finset ℕ)
  /-- One file is looked at: `written` is whether `Writen` succeeds and `nread` what `read` returns,
  if they are called. -/
  | look (written : Bool) (nread : Option ℕ)
  /-- The outer loop ends. -/
  | leave

variable {n : ℕ}

/-- The state with this entry in the array. -/
def State.setFile (x : State n) (i : Fin n) (f : File) : State n :=
  { x with file := Function.update x.file i f }

/-- `write_get_cmd`, where `Writen` succeeds. -/
def write_get_cmd (x : State n) (i : Fin n) : State n :=
  let fd := (x.file i).f_fd
  { x.setFile i ⟨fd, .reading⟩ with
    rset := insert fd x.rset, maxfd := max x.maxfd fd
    gets := Function.update x.gets i (x.gets i + 1) }

/-- `start_connect`; `none` where the client exits. -/
def start_connect (x : State n) (i : Fin n) (fd : ℕ) (connect : Connect) (written : Bool) :
    Option (State n) :=
  let f := x.file i
  let x := { x.setFile i { f with f_fd := fd } with opened := insert fd x.opened }
  match connect with
  | .inProgress => some { x.setFile i ⟨fd, .connecting⟩ with
      rset := insert fd x.rset, wset := insert fd x.wset, maxfd := max x.maxfd fd }
  | .established => if written then some (write_get_cmd x i) else none
  | .fails => none

/-- The body of the loop over the files, for file `i`; `none` where the client exits. -/
def look (x : State n) (i : Fin n) (rs ws : Finset ℕ) (written : Bool) (nread : Option ℕ) :
    Option (State n) :=
  let f := x.file i
  match f.f_flags with
  | .fresh | .done => some x
  | .connecting =>
      if f.f_fd ∈ rs ∨ f.f_fd ∈ ws then
        -- a connect that has failed is only reported
        if written then some (write_get_cmd { x with wset := x.wset.erase f.f_fd } i) else none
      else some x
  | .reading =>
      if f.f_fd ∈ rs then
        match nread with
        | none => none
        | some 0 => some { x.setFile i { f with f_flags := .done } with
            opened := x.opened.erase f.f_fd, rset := x.rset.erase f.f_fd
            nconn := x.nconn - 1, nlefttoread := x.nlefttoread - 1 }
        | some (_ + 1) => some x
      else some x

/-- One step. -/
def next (maxnconn : ℤ) (x : State n) : Label → Option (State n)
  | .start fd connect written =>
      if x.at_ = .filling ∧ 0 < x.nlefttoread ∧ x.nconn < maxnconn ∧ 0 < x.nlefttoconn ∧
          fd ∉ x.opened then
        match (List.finRange n).find? fun i => (x.file i).f_flags = .fresh with
        | none => some { x with at_ := .quit }
        | some i =>
            match start_connect x i fd connect written with
            | none => some { x with at_ := .exited }
            | some y => some { y with nconn := y.nconn + 1, nlefttoconn := y.nlefttoconn - 1 }
      else none
  | .select rs ws =>
      if x.at_ = .filling ∧ 0 < x.nlefttoread ∧ ¬(x.nconn < maxnconn ∧ 0 < x.nlefttoconn) ∧
          rs ⊆ x.rset ∧ ws ⊆ x.wset ∧ (rs ∪ ws).Nonempty ∧ ∀ fd ∈ rs ∪ ws, fd ≤ x.maxfd then
        some { x with at_ := .scanning 0 rs ws }
      else none
  | .look written nread =>
      match x.at_ with
      | .scanning i rs ws =>
          if h : i < n then
            match look x ⟨i, h⟩ rs ws written nread with
            | none => some { x with at_ := .exited }
            | some y => some { y with at_ := .scanning (i + 1) rs ws }
          else some { x with at_ := .filling }
      | _ => none
  | .leave =>
      if x.at_ = .filling ∧ x.nlefttoread ≤ 0 then some { x with at_ := .left } else none

/-- The client in front of its loop; `others` are the descriptors that are open. -/
def start (n : ℕ) (others : Finset ℕ) : State n where
  file := fun _ => ⟨0, .fresh⟩
  nconn := 0
  nlefttoconn := n
  nlefttoread := n
  maxfd := -1
  rset := ∅
  wset := ∅
  at_ := .filling
  opened := others
  gets := fun _ => 0

def system (n : ℕ) (maxnconn : ℤ) (others : Finset ℕ) : System (State n) Label :=
  .ofNext (· = start n others) (next maxnconn)

/-! ## The descriptor sets and the sockets -/

/-- The file has a socket. -/
def Flags.active : Flags → Bool
  | .connecting | .reading => true
  | _ => false

/-- What the sets and the open descriptors are, by the array. -/
structure Sockets (others : Finset ℕ) (x : State n) : Prop where
  distinct : ∀ i j, (x.file i).f_flags.active → (x.file j).f_flags.active →
    (x.file i).f_fd = (x.file j).f_fd → i = j
  rset : ∀ fd, fd ∈ x.rset ↔ ∃ i, (x.file i).f_flags.active ∧ (x.file i).f_fd = fd
  wset : ∀ fd, fd ∈ x.wset ↔ ∃ i, (x.file i).f_flags = .connecting ∧ (x.file i).f_fd = fd
  opened : ∀ fd, fd ∈ x.opened ↔ fd ∈ others ∨ fd ∈ x.rset
  apart : ∀ fd ∈ x.rset, fd ∉ others
  maxfd : ∀ fd ∈ x.rset, fd ≤ x.maxfd

variable {others : Finset ℕ} {x y : State n} {i j : Fin n} {fd : ℕ}

@[simp] theorem setFile_self {f : File} : (x.setFile i f).file i = f := Function.update_self ..

theorem setFile_of_ne {f : File} (h : j ≠ i) : (x.setFile i f).file j = x.file j :=
  Function.update_of_ne h ..

/-- Some file with a property, after one has changed. -/
theorem exists_setFile {f : File} {p : File → Prop} :
    (∃ j, p ((x.setFile i f).file j)) ↔ p f ∨ ∃ j, j ≠ i ∧ p (x.file j) :=
  Function.exists_update_iff x.file fun _ => p

/-- Of two files of which one may have changed, the other has not. -/
theorem Sockets.distinct_setFile (hx : Sockets others x) {f : File}
    (hnew : ∀ j, j ≠ i → (x.file j).f_flags.active → f.f_flags.active → (x.file j).f_fd ≠ f.f_fd) :
    ∀ j k, ((x.setFile i f).file j).f_flags.active → ((x.setFile i f).file k).f_flags.active →
      ((x.setFile i f).file j).f_fd = ((x.setFile i f).file k).f_fd → j = k := by
  intro j k hj hk heq
  by_cases hji : j = i
  · by_cases hki : k = i
    · rw [hji, hki]
    · subst hji
      rw [setFile_self] at hj heq
      rw [setFile_of_ne hki] at hk heq
      exact absurd heq.symm (hnew k hki hk hj)
  · by_cases hki : k = i
    · subst hki
      rw [setFile_self] at hk heq
      rw [setFile_of_ne hji] at hj heq
      exact absurd heq (hnew j hji hj hk)
    · rw [setFile_of_ne hji] at hj heq
      rw [setFile_of_ne hki] at hk heq
      exact hx.distinct j k hj hk heq

/-- Only files with a socket are counted in the sets. -/
theorem exists_ne_iff {p : Flags → Prop} (hp : ¬p (x.file i).f_flags) :
    (∃ j, j ≠ i ∧ p (x.file j).f_flags ∧ (x.file j).f_fd = fd) ↔
      ∃ j, p (x.file j).f_flags ∧ (x.file j).f_fd = fd := by
  constructor
  · rintro ⟨j, _, hj⟩
    exact ⟨j, hj⟩
  · rintro ⟨j, hj⟩
    refine ⟨j, ?_, hj⟩
    rintro rfl
    exact hp hj.1

/-- The commands that were written, by the flags of the file. -/
def Flags.gets : Flags → ℕ
  | .reading | .done => 1
  | _ => 0

/-- What `start_connect` does where the client goes on. -/
structure Opens (x : State n) (i : Fin n) (fd : ℕ) (flags : Flags) (y : State n) : Prop where
  active : flags.active
  file : y.file = (x.setFile i ⟨fd, flags⟩).file
  rset : y.rset = insert fd x.rset
  wset : ∀ fd', fd' ∈ y.wset ↔ (flags = .connecting ∧ fd = fd') ∨ fd' ∈ x.wset
  opened : y.opened = insert fd x.opened
  maxfd : y.maxfd = max x.maxfd fd
  gets : y.gets = Function.update x.gets i (x.gets i + flags.gets)
  counters : y.nconn = x.nconn ∧ y.nlefttoconn = x.nlefttoconn ∧ y.nlefttoread = x.nlefttoread
  at_eq : y.at_ = x.at_

theorem start_connect_spec {connect : Connect} {written : Bool}
    (h : start_connect x i fd connect written = some y) : ∃ flags, Opens x i fd flags y := by
  cases connect with
  | inProgress =>
      obtain rfl := Option.some.inj h
      refine ⟨.connecting, rfl, Function.update_idem _ _ _, rfl, ?_, rfl, rfl, ?_, ⟨rfl, rfl, rfl⟩,
        rfl⟩
      · intro fd'
        change fd' ∈ insert fd x.wset ↔ _
        rw [Finset.mem_insert]
        simp only [true_and]
        exact or_congr_left eq_comm
      · exact (Function.update_eq_self i x.gets).symm
  | established =>
      simp only [start_connect] at h
      split at h
      · obtain rfl := Option.some.inj h
        refine ⟨.reading, rfl, ?_, ?_, by simp [write_get_cmd, State.setFile], rfl, ?_, rfl,
          ⟨rfl, rfl, rfl⟩, rfl⟩
        · simp [write_get_cmd, State.setFile]
        · simp [write_get_cmd, State.setFile]
        · simp [write_get_cmd, State.setFile]
      · cases h
  | fails => cases h

/-- **A socket is opened** for a file that had none. -/
theorem Sockets.opens (hx : Sockets others x) (hi : ¬(x.file i).f_flags.active)
    (hfd : fd ∉ x.opened) {flags : Flags} (h : Opens x i fd flags y) : Sockets others y := by
  obtain ⟨hflags, hfile, hrset, hwset, hopened, hmaxfd, _⟩ := h
  have hfresh : fd ∉ others ∧ fd ∉ x.rset := by
    rw [hx.opened] at hfd
    exact not_or.mp hfd
  have hconnecting : ¬(x.file i).f_flags = .connecting := fun h => hi (by rw [h]; rfl)
  refine ⟨?_, ?_, ?_, ?_, ?_, ?_⟩
  · rw [hfile]
    refine hx.distinct_setFile fun j _ hj _ heq => hfresh.2 ?_
    exact (hx.rset fd).mpr ⟨j, hj, heq⟩
  · intro fd'
    rw [hrset, hfile, Finset.mem_insert, hx.rset,
      exists_setFile (p := fun f => f.f_flags.active ∧ f.f_fd = fd'),
      exists_ne_iff (p := fun flags => flags.active) hi]
    simp only [hflags, true_and]
    exact or_congr_left eq_comm
  · intro fd'
    rw [hwset, hfile, hx.wset,
      exists_setFile (p := fun f => f.f_flags = .connecting ∧ f.f_fd = fd'),
      exists_ne_iff (p := fun flags => flags = .connecting) hconnecting]
  · intro fd'
    rw [hopened, hrset, Finset.mem_insert, Finset.mem_insert, hx.opened]
    exact or_left_comm
  · intro fd' hmem
    rw [hrset] at hmem
    cases Finset.mem_insert.mp hmem with
    | inl heq => rw [heq]; exact hfresh.1
    | inr hold => exact hx.apart fd' hold
  · intro fd' hmem
    rw [hrset] at hmem
    rw [hmaxfd]
    cases Finset.mem_insert.mp hmem with
    | inl heq => rw [heq]; exact le_max_right _ _
    | inr hold => exact (hx.maxfd fd' hold).trans (le_max_left _ _)

/-- **A connection is established**: its socket is watched for reading only. -/
theorem Sockets.established (hx : Sockets others x) (hi : (x.file i).f_flags = .connecting) :
    Sockets others
      (write_get_cmd { x with wset := x.wset.erase (x.file i).f_fd } i) := by
  have hactive : (x.file i).f_flags.active := by rw [hi]; rfl
  have hmem : (x.file i).f_fd ∈ x.rset := (hx.rset _).mpr ⟨i, hactive, rfl⟩
  have hinsert : insert (x.file i).f_fd x.rset = x.rset := Finset.insert_eq_of_mem hmem
  have hmax : max x.maxfd (x.file i).f_fd = x.maxfd := max_eq_left (hx.maxfd _ hmem)
  have hne : ∀ j, j ≠ i → (x.file j).f_flags.active → (x.file j).f_fd ≠ (x.file i).f_fd :=
    fun j hji hj heq => hji (hx.distinct j i hj hactive heq)
  refine ⟨?_, ?_, ?_, ?_, ?_, ?_⟩
  · exact hx.distinct_setFile fun j hji hj _ => hne j hji hj
  · intro fd'
    change fd' ∈ insert (x.file i).f_fd x.rset ↔ ∃ j, ((x.setFile i _).file j).f_flags.active ∧
      ((x.setFile i _).file j).f_fd = fd'
    rw [hinsert, hx.rset, exists_setFile (p := fun f => f.f_flags.active ∧ f.f_fd = fd')]
    constructor
    · rintro ⟨j, hj, rfl⟩
      by_cases hji : j = i
      · exact .inl ⟨rfl, by rw [hji]⟩
      · exact .inr ⟨j, hji, hj, rfl⟩
    · rintro (⟨_, rfl⟩ | ⟨j, _, hj⟩)
      · exact ⟨i, hactive, rfl⟩
      · exact ⟨j, hj⟩
  · intro fd'
    change fd' ∈ x.wset.erase (x.file i).f_fd ↔
      ∃ j, ((x.setFile i _).file j).f_flags = .connecting ∧ ((x.setFile i _).file j).f_fd = fd'
    rw [Finset.mem_erase, hx.wset,
      exists_setFile (p := fun f => f.f_flags = .connecting ∧ f.f_fd = fd')]
    constructor
    · rintro ⟨hfd', j, hj, rfl⟩
      refine .inr ⟨j, ?_, hj, rfl⟩
      rintro rfl
      exact hfd' rfl
    · rintro (⟨hreading, _⟩ | ⟨j, hji, hj, rfl⟩)
      · cases hreading
      · exact ⟨hne j hji (by rw [hj]; rfl), j, hj, rfl⟩
  · intro fd'
    change fd' ∈ x.opened ↔ fd' ∈ others ∨ fd' ∈ insert (x.file i).f_fd x.rset
    rw [hinsert]
    exact hx.opened fd'
  · intro fd'
    change fd' ∈ insert (x.file i).f_fd x.rset → _
    rw [hinsert]
    exact hx.apart fd'
  · intro fd'
    change fd' ∈ insert (x.file i).f_fd x.rset → (fd' : ℤ) ≤ max x.maxfd (x.file i).f_fd
    rw [hinsert, hmax]
    exact hx.maxfd fd'

/-- **A socket is closed**, and is in no set any more. -/
theorem Sockets.closes (hx : Sockets others x) (hi : (x.file i).f_flags = .reading)
    (hfile : y.file = (x.setFile i ⟨(x.file i).f_fd, .done⟩).file)
    (hrset : y.rset = x.rset.erase (x.file i).f_fd) (hwset : y.wset = x.wset)
    (hopened : y.opened = x.opened.erase (x.file i).f_fd) (hmaxfd : y.maxfd = x.maxfd) :
    Sockets others y := by
  have hactive : (x.file i).f_flags.active := by rw [hi]; rfl
  have hmem : (x.file i).f_fd ∈ x.rset := (hx.rset _).mpr ⟨i, hactive, rfl⟩
  have hconnecting : ¬(x.file i).f_flags = .connecting := by simp [hi]
  refine ⟨?_, ?_, ?_, ?_, ?_, ?_⟩
  · rw [hfile]
    exact hx.distinct_setFile fun _ _ _ hdone => by cases hdone
  · intro fd'
    rw [hrset, hfile, Finset.mem_erase, hx.rset,
      exists_setFile (p := fun f => f.f_flags.active ∧ f.f_fd = fd')]
    constructor
    · rintro ⟨hfd', j, hj, rfl⟩
      refine .inr ⟨j, ?_, hj, rfl⟩
      rintro rfl
      exact hfd' rfl
    · rintro (⟨hdone, _⟩ | ⟨j, hji, hj, rfl⟩)
      · cases hdone
      · exact ⟨fun heq => hji (hx.distinct j i hj hactive heq), j, hj, rfl⟩
  · intro fd'
    rw [hwset, hfile, hx.wset,
      exists_setFile (p := fun f => f.f_flags = .connecting ∧ f.f_fd = fd'),
      exists_ne_iff (p := fun flags => flags = .connecting) hconnecting]
    simp
  · intro fd'
    rw [hopened, hrset, Finset.mem_erase, Finset.mem_erase, hx.opened]
    constructor
    · rintro ⟨hne, hother | hold⟩
      · exact .inl hother
      · exact .inr ⟨hne, hold⟩
    · rintro (hother | ⟨hne, hold⟩)
      · refine ⟨?_, .inl hother⟩
        rintro rfl
        exact hx.apart _ hmem hother
      · exact ⟨hne, .inr hold⟩
  · intro fd' hold
    rw [hrset] at hold
    exact hx.apart fd' (Finset.mem_of_mem_erase hold)
  · intro fd' hold
    rw [hrset] at hold
    rw [hmaxfd]
    exact hx.maxfd fd' (Finset.mem_of_mem_erase hold)

/-! ## The counters -/

/-- How many files have flags with a property. -/
def count (file : Fin n → File) (p : Flags → Bool) : ℤ :=
  (Finset.univ.filter fun i => p (file i).f_flags).card

theorem count_pos {file : Fin n → File} {p : Flags → Bool} :
    0 < count file p ↔ ∃ i, p (file i).f_flags = true := by
  rw [count, Int.natCast_pos, Finset.card_pos]
  simp [Finset.Nonempty]

/-- The members of a set, but for one, and this one. -/
theorem card_erase_add (s : Finset (Fin n)) (i : Fin n) :
    (s.erase i).card + (decide (i ∈ s)).toNat = s.card := by
  by_cases hi : i ∈ s
  · simpa [hi] using Finset.card_erase_add_one hi
  · simp [hi]

theorem count_setFile (x : State n) (i : Fin n) (f : File) (p : Flags → Bool) :
    count (x.setFile i f).file p =
      count x.file p - (p (x.file i).f_flags).toNat + (p f.f_flags).toNat := by
  have hrest : (Finset.univ.filter fun j => p ((x.setFile i f).file j).f_flags).erase i =
      (Finset.univ.filter fun j => p (x.file j).f_flags).erase i := by
    ext j
    by_cases hj : j = i
    · simp [hj]
    · simp [hj, setFile_of_ne hj]
  have hold := card_erase_add (Finset.univ.filter fun j => p (x.file j).f_flags) i
  have hnew := card_erase_add
    (Finset.univ.filter fun j => p ((x.setFile i f).file j).f_flags) i
  rw [hrest] at hnew
  simp only [Finset.mem_filter_univ, setFile_self, Bool.decide_eq_true] at hold hnew
  rw [count, count]
  omega

/-- What the counters are, by the array. -/
structure Counts (x : State n) : Prop where
  nconn : x.nconn = count x.file Flags.active
  nlefttoconn : x.nlefttoconn = count x.file fun flags => flags = .fresh
  nlefttoread : x.nlefttoread = count x.file fun flags => flags ≠ .done

/-- What every run keeps. -/
structure Kept (maxnconn : ℤ) (others : Finset ℕ) (x : State n) : Prop where
  sockets : Sockets others x
  counts : Counts x
  bound : x.nconn ≤ maxnconn
  gets : ∀ i, x.gets i = (x.file i).f_flags.gets
  quit : x.at_ ≠ .quit
  left : x.at_ = .left → x.nlefttoread ≤ 0

variable {maxnconn : ℤ}

/-- Only where the client stands has changed. -/
theorem Kept.move (hx : Kept maxnconn others x) {at_ : At} (hat : at_ ≠ .quit)
    (hleft : at_ = .left → x.nlefttoread ≤ 0) : Kept maxnconn others { x with at_ } :=
  ⟨⟨hx.sockets.distinct, hx.sockets.rset, hx.sockets.wset, hx.sockets.opened, hx.sockets.apart,
    hx.sockets.maxfd⟩, ⟨hx.counts.nconn, hx.counts.nlefttoconn, hx.counts.nlefttoread⟩, hx.bound,
    hx.gets, hat, hleft⟩

/-- **A connection is started**, for a file that was not asked for. -/
theorem Kept.start (hx : Kept maxnconn others x) {connect : Connect} {written : Bool}
    (h : next maxnconn x (.start fd connect written) = some y) : Kept maxnconn others y := by
  simp only [next] at h
  split at h
  · next hguard =>
    obtain ⟨_, _, hroom, hleft, hfd⟩ := hguard
    split at h
    · next hnone =>
      -- `nlefttoconn` counts the files that this loop looks for
      rw [hx.counts.nlefttoconn] at hleft
      obtain ⟨i, hi⟩ := count_pos.mp hleft
      have hnot := List.find?_eq_none.mp hnone i (List.mem_finRange i)
      exact absurd hi hnot
    · next i hfind =>
      have hi : (x.file i).f_flags = .fresh := by simpa using List.find?_some hfind
      split at h
      · obtain rfl := Option.some.inj h
        exact hx.move (by simp) (by simp)
      · next z hz =>
        obtain rfl := Option.some.inj h
        obtain ⟨flags, hopens⟩ := start_connect_spec hz
        have hactive : ¬(x.file i).f_flags.active := by simp [hi, Flags.active]
        have hsockets := hx.sockets.opens hactive hfd hopens
        have hcount := count_setFile x i ⟨fd, flags⟩
        obtain ⟨hflags, hfile, _, _, _, _, hgets, ⟨hnconn, htoconn, htoread⟩, hat⟩ := hopens
        refine ⟨⟨hsockets.distinct, hsockets.rset, hsockets.wset, hsockets.opened, hsockets.apart,
          hsockets.maxfd⟩, ⟨?_, ?_, ?_⟩, ?_, ?_, ?_, ?_⟩
        · change z.nconn + 1 = count z.file _
          rw [hfile, hcount, hi, hnconn, hx.counts.nconn]
          cases flags <;> simp [Flags.active] at hflags ⊢
        · change z.nlefttoconn - 1 = count z.file _
          rw [hfile, hcount, hi, htoconn, hx.counts.nlefttoconn]
          cases flags <;> simp [Flags.active] at hflags ⊢
        · change z.nlefttoread = count z.file _
          rw [hfile, hcount, hi, htoread, hx.counts.nlefttoread]
          cases flags <;> simp [Flags.active] at hflags ⊢
        · change z.nconn + 1 ≤ maxnconn
          omega
        · intro j
          change z.gets j = (z.file j).f_flags.gets
          rw [hgets, hfile]
          by_cases hj : j = i
          · subst hj
            rw [Function.update_self, setFile_self, hx.gets j, hi]
            exact Nat.zero_add _
          · rw [Function.update_of_ne hj, setFile_of_ne hj]
            exact hx.gets j
        · change z.at_ ≠ .quit
          rw [hat]
          exact hx.quit
        · change z.at_ = .left → z.nlefttoread ≤ 0
          rw [hat, htoread]
          exact hx.left
  · cases h

/-- A connection that is established sends its command. -/
theorem Kept.established (hx : Kept maxnconn others x) (hi : (x.file i).f_flags = .connecting) :
    Kept maxnconn others
      (write_get_cmd { x with wset := x.wset.erase (x.file i).f_fd } i) := by
  have hcount := count_setFile x i ⟨(x.file i).f_fd, .reading⟩
  refine ⟨hx.sockets.established hi, ⟨?_, ?_, ?_⟩, hx.bound, ?_, hx.quit, hx.left⟩
  · change x.nconn = count (x.setFile i _).file _
    rw [hcount, hi, hx.counts.nconn]
    simp [Flags.active]
  · change x.nlefttoconn = count (x.setFile i _).file _
    rw [hcount, hi, hx.counts.nlefttoconn]
    simp
  · change x.nlefttoread = count (x.setFile i _).file _
    rw [hcount, hi, hx.counts.nlefttoread]
    simp
  · intro j
    change Function.update x.gets i (x.gets i + 1) j = ((x.setFile i _).file j).f_flags.gets
    by_cases hj : j = i
    · subst hj
      rw [Function.update_self, setFile_self, hx.gets j, hi]
      rfl
    · rw [Function.update_of_ne hj, setFile_of_ne hj]
      exact hx.gets j

/-- A connection at its end of file is closed. -/
theorem Kept.closes (hx : Kept maxnconn others x) (hi : (x.file i).f_flags = .reading) :
    Kept maxnconn others { x.setFile i { x.file i with f_flags := .done } with
      opened := x.opened.erase (x.file i).f_fd, rset := x.rset.erase (x.file i).f_fd
      nconn := x.nconn - 1, nlefttoread := x.nlefttoread - 1 } := by
  have hcount := count_setFile x i ⟨(x.file i).f_fd, .done⟩
  refine ⟨hx.sockets.closes hi rfl rfl rfl rfl rfl, ⟨?_, ?_, ?_⟩, ?_, ?_, hx.quit, ?_⟩
  · change x.nconn - 1 = count (x.setFile i _).file _
    rw [hcount, hi, hx.counts.nconn]
    simp [Flags.active]
  · change x.nlefttoconn = count (x.setFile i _).file _
    rw [hcount, hi, hx.counts.nlefttoconn]
    simp
  · change x.nlefttoread - 1 = count (x.setFile i _).file _
    rw [hcount, hi, hx.counts.nlefttoread]
    simp
  · have hbound := hx.bound
    change x.nconn - 1 ≤ maxnconn
    omega
  · intro j
    change x.gets j = ((x.setFile i _).file j).f_flags.gets
    by_cases hj : j = i
    · subst hj
      rw [setFile_self, hx.gets j, hi]
      rfl
    · rw [setFile_of_ne hj]
      exact hx.gets j
  · intro hat
    have hleft := hx.left hat
    change x.nlefttoread - 1 ≤ 0
    omega

/-- **A file is looked at.** -/
theorem Kept.look (hx : Kept maxnconn others x) {rs ws : Finset ℕ} {written : Bool}
    {nread : Option ℕ} (h : look x i rs ws written nread = some y) : Kept maxnconn others y := by
  simp only [Web.look] at h
  cases hi : (x.file i).f_flags with
  | fresh =>
      rw [hi] at h
      rwa [← Option.some.inj h]
  | done =>
      rw [hi] at h
      rwa [← Option.some.inj h]
  | connecting =>
      simp only [hi] at h
      split at h
      · split at h
        · rw [← Option.some.inj h]
          exact hx.established hi
        · cases h
      · rwa [← Option.some.inj h]
  | reading =>
      simp only [hi] at h
      split at h
      · split at h
        · cases h
        · rw [← Option.some.inj h]
          exact hx.closes hi
        · rwa [← Option.some.inj h]
      · rwa [← Option.some.inj h]

theorem Kept.next (hx : Kept maxnconn others x) {l : Label} (h : next maxnconn x l = some y) :
    Kept maxnconn others y := by
  cases l with
  | start fd connect written => exact hx.start h
  | select rs ws =>
      obtain ⟨_, ⟨⟩⟩ := Option.ite_none_right_eq_some.mp h
      exact hx.move (by simp) (by simp)
  | look written nread =>
      simp only [Web.next] at h
      split at h
      · split at h
        · split at h
          · obtain rfl := Option.some.inj h
            exact hx.move (by simp) (by simp)
          · next z hz =>
            obtain rfl := Option.some.inj h
            exact (hx.look hz).move (by simp) (by simp)
        · obtain rfl := Option.some.inj h
          exact hx.move (by simp) (by simp)
      · cases h
  | leave =>
      obtain ⟨hguard, ⟨⟩⟩ := Option.ite_none_right_eq_some.mp h
      exact hx.move (by simp) fun _ => hguard.2

theorem start_kept (n : ℕ) (hmax : 0 ≤ maxnconn) (others : Finset ℕ) :
    Kept maxnconn others (start n others) := by
  refine ⟨⟨?_, ?_, ?_, ?_, ?_, ?_⟩, ⟨?_, ?_, ?_⟩, hmax, fun _ => rfl, by simp [Web.start],
    by simp [Web.start]⟩
  all_goals simp [Web.start, Flags.active, count]

theorem kept (hmax : 0 ≤ maxnconn) {tr : List (State n × Label)}
    (h : (system n maxnconn others).Exec tr x) : Kept maxnconn others x := by
  refine h.invariant (Kept maxnconn others) (fun _ _ => True) ?_
    (fun _ _ _ _ hx hstep => hx.next hstep) fun _ _ => trivial
  intro x hx
  rw [show x = Web.start n others from hx]
  exact start_kept n hmax others

/-! ## What the client guarantees -/

/-- The guarantees, in a state of the client. -/
structure Fetches (maxnconn : ℤ) (others : Finset ℕ) (x : State n) : Prop where
  /-- `err_quit` is never reached. -/
  found : x.at_ ≠ .quit
  /-- At most `maxnconn` sockets are open. -/
  bounded : ((x.opened \ others).card : ℤ) ≤ maxnconn
  /-- `select` waits for exactly the open sockets, all of them in its range, and for one at
  least. -/
  watched : x.rset = x.opened \ others ∧ (∀ fd ∈ x.rset, fd ≤ x.maxfd) ∧
    (0 < x.nlefttoread → ¬(x.nconn < maxnconn ∧ 0 < x.nlefttoconn) → x.rset.Nonempty)
  /-- It waits to write on exactly those that are still connecting. -/
  connecting : x.wset ⊆ x.rset ∧
    ∀ fd, fd ∈ x.wset ↔ ∃ i, (x.file i).f_flags = .connecting ∧ (x.file i).f_fd = fd
  /-- No file is requested twice. -/
  once : ∀ i, x.gets i ≤ 1
  /-- At the end, all files are done, and all sockets are closed. -/
  complete : x.at_ = .left → x.opened = others ∧ ∀ i, (x.file i).f_flags = .done ∧ x.gets i = 1

/-- There are as many sockets as files that have one. -/
theorem Sockets.card_rset (hx : Sockets others x) :
    (x.rset.card : ℤ) = count x.file Flags.active := by
  have himage : x.rset =
      (Finset.univ.filter fun i => (x.file i).f_flags.active).image fun i => (x.file i).f_fd := by
    ext fd
    simp [hx.rset]
  rw [himage, count, Finset.card_image_of_injOn]
  intro i hi j hj heq
  exact hx.distinct i j (by simpa using hi) (by simpa using hj) heq

theorem Sockets.rset_eq (hx : Sockets others x) : x.rset = x.opened \ others := by
  ext fd
  rw [Finset.mem_sdiff, hx.opened]
  constructor
  · intro hmem
    exact ⟨.inr hmem, hx.apart fd hmem⟩
  · intro hmem
    exact hmem.1.resolve_left hmem.2

/-- **Something is waited for**, while a file is left to read. -/
theorem Kept.rset_nonempty (hx : Kept maxnconn others x) (hmax : 0 < maxnconn)
    (hread : 0 < x.nlefttoread) (hfull : ¬(x.nconn < maxnconn ∧ 0 < x.nlefttoconn)) :
    x.rset.Nonempty := by
  have hactive : 0 < count x.file Flags.active := by
    by_cases hroom : x.nconn < maxnconn
    · have hfresh : ¬0 < x.nlefttoconn := fun h => hfull ⟨hroom, h⟩
      rw [hx.counts.nlefttoconn, count_pos] at hfresh
      rw [hx.counts.nlefttoread, count_pos] at hread
      obtain ⟨i, hi⟩ := hread
      refine count_pos.mpr ⟨i, ?_⟩
      have hnot : (x.file i).f_flags ≠ .fresh := fun h => hfresh ⟨i, by simp [h]⟩
      cases hflags : (x.file i).f_flags with
      | fresh => exact absurd hflags hnot
      | connecting => rfl
      | reading => rfl
      | done => simp [hflags] at hi
    · have hnconn := hx.counts.nconn
      omega
  rw [← Finset.card_pos]
  have hcard := hx.sockets.card_rset
  omega

/-- **The client fetches its files**, in every run. -/
theorem fetches (n : ℕ) (maxnconn : ℤ) (hmax : 0 < maxnconn) (others : Finset ℕ)
    (tr : List (State n × Label)) (x : State n) (h : (system n maxnconn others).Exec tr x) :
    Fetches maxnconn others x := by
  have hx := kept hmax.le h
  have hrset := hx.sockets.rset_eq
  have hcard := hx.sockets.card_rset
  have hnconn := hx.counts.nconn
  refine ⟨hx.quit, ?_, ⟨hrset, hx.sockets.maxfd, hx.rset_nonempty hmax⟩, ⟨?_, hx.sockets.wset⟩,
    ?_, ?_⟩
  · have hbound := hx.bound
    rw [← hrset]
    omega
  · intro fd hmem
    obtain ⟨i, hi, hfd⟩ := (hx.sockets.wset fd).mp hmem
    exact (hx.sockets.rset fd).mpr ⟨i, by rw [hi]; rfl, hfd⟩
  · intro i
    rw [hx.gets i]
    cases (x.file i).f_flags <;> simp [Flags.gets]
  · intro hat
    have hread := hx.left hat
    have hdone : ∀ i, (x.file i).f_flags = .done := by
      intro i
      by_contra hi
      have hpos := count_pos (p := fun flags => flags ≠ .done).mpr ⟨i, by simpa using hi⟩
      rw [← hx.counts.nlefttoread] at hpos
      omega
    refine ⟨?_, fun i => ⟨hdone i, ?_⟩⟩
    · ext fd
      rw [hx.sockets.opened, hx.sockets.rset]
      simp [hdone, Flags.active]
    · rw [hx.gets i, hdone i]
      rfl

/-- Two files, one connection at a time. -/
theorem fetches_two :
    ∃ tr x, (system 2 1 {0, 1, 2}).Exec tr x ∧ x.at_ = .left ∧ x.opened = {0, 1, 2} := by
  have hrun : (System.replay (next 1) (start 2 {0, 1, 2})
      [.start 3 .inProgress true, .select ∅ {3}, .look true none, .look true none, .look true none,
        .select {3} ∅, .look true (some 0), .look true none, .look true none,
        .start 3 .established true, .select {3} ∅, .look true none, .look true (some 0),
        .look true none, .leave]).map (fun p => p.2.at_) = some .left := by
    decide +kernel
  have hinit : (system 2 1 {0, 1, 2}).init (start 2 {0, 1, 2}) := rfl
  obtain ⟨tr, x, hexec, hat⟩ := System.exec_of_replay hinit hrun
  have hfetches := fetches 2 1 (by decide) {0, 1, 2} tr x hexec
  exact ⟨tr, x, hexec, hat, (hfetches.complete hat).1⟩

end SocketPrograms.Unp.Web
