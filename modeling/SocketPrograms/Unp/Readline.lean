import SocketPrograms.Lib.Stdio

/-!
# Reading lines from a socket

`readline.c` keeps what a `read` returned beyond the line in a static buffer. A call stores the
bytes of a line, its newline included, up to `maxlen - 1` of them.

A call is modelled from one `read` to the next: `loop` runs as long as there are bytes in the
buffer, and `await` goes on from what `read` returns. What `read` returns is a list of results;
behind the list the other side has closed.

## Main definitions

* `Reader` — the static variables; `Reader.left` — the bytes in the buffer.
* `loop`, `await`, `readline` — a call; `calls` — successive calls.

## Main results

* `loop_spec`, `await_spec` — a call takes a piece of the stream.
* `calls_eq` — **successive calls return the pieces of the stream**, however it is segmented.
-/

namespace SocketPrograms.Unp.Readline

/-- `MAXLINE`. -/
abbrev maxLine : ℕ := 4096

/-- The static variables of `readline.c`. `read_ptr` is an index of `read_buf`. -/
structure Reader where
  read_cnt : ℤ
  read_ptr : ℕ
  read_buf : CharArray maxLine

namespace Reader

/-- The bytes in the buffer that were not taken. -/
def left (r : Reader) : List Byte := (r.read_buf.bytes.drop r.read_ptr).take r.read_cnt.toNat

/-- `read_cnt--; *ptr = *read_ptr++`. -/
def take (r : Reader) : Option (Byte × Reader) :=
  r.read_buf.bytes[r.read_ptr]?.map fun c =>
    (c, { r with read_cnt := r.read_cnt - 1, read_ptr := r.read_ptr + 1 })

/-- `read(fd, read_buf, sizeof(read_buf))` has returned these bytes. -/
def fill (r : Reader) (bytes : List Byte) : Reader :=
  ⟨bytes.length, 0, r.read_buf.store bytes⟩

/-- What is counted is in the buffer. -/
def Ok (r : Reader) : Prop := r.read_ptr + r.read_cnt.toNat ≤ maxLine

end Reader

/-- What `read` returns. -/
inductive Result
  /-- -1, and `errno` is `EINTR`. -/
  | interrupted
  /-- -1, and another `errno`. -/
  | failed
  /-- The bytes read; none where the other side has closed. -/
  | data (bytes : List Byte)

/-- What a call of `readline` comes to without a `read`. -/
inductive Progress
  /-- It reads, and has room for `k` bytes. -/
  | waiting (k : ℕ) (r : Reader) (line : List Byte)
  /-- It returns this value, and has stored this line. -/
  | returned (r : Reader) (value : ℤ) (line : List Byte)
  /-- It reads behind the buffer. -/
  | undefined

/-- The `for` loop, with room for `k` bytes. The counter `n` is one more than what is stored. -/
def loop : ℕ → Reader → List Byte → Progress
  | 0, r, line => .returned r (line.length + 1) line
  | k + 1, r, line =>
      if r.read_cnt ≤ 0 then .waiting (k + 1) r line
      else match r.take with
        | none => .undefined
        | some (c, r) =>
            if c = newline then .returned r (line.length + 1) (line ++ [c])
            else loop k r (line ++ [c])

/-- What a call returns, and what it leaves. -/
structure Return where
  value : ℤ
  line : List Byte
  reader : Reader
  results : List Result

/-- The rest of a call that has to read. -/
def await : List Result → ℕ → Reader → List Byte → Option Return
  | [], _, r, line => some ⟨line.length, line, { r with read_cnt := 0 }, []⟩
  | .interrupted :: rs, k, r, line => await rs k { r with read_cnt := -1 } line
  | .failed :: rs, _, r, line => some ⟨-1, line, { r with read_cnt := -1 }, rs⟩
  | .data [] :: rs, _, r, line => some ⟨line.length, line, { r with read_cnt := 0 }, rs⟩
  | .data (b :: bs) :: rs, k, r, line =>
      match loop k (r.fill (b :: bs)) line with
      | .waiting k r line => await rs k r line
      | .returned r value line => some ⟨value, line, r, rs⟩
      | .undefined => none

/-- `readline(fd, vptr, maxlen)`. -/
def readline (maxlen : ℕ) (r : Reader) (rs : List Result) : Option Return :=
  match loop (maxlen - 1) r [] with
  | .waiting k r line => await rs k r line
  | .returned r value line => some ⟨value, line, r, rs⟩
  | .undefined => none

/-- The values and lines of successive calls. -/
def calls (maxlen : ℕ) : ℕ → Reader → List Result → Option (List (ℤ × List Byte))
  | 0, _, _ => some []
  | j + 1, r, rs => do
      let ret ← readline maxlen r rs
      let others ← calls maxlen j ret.reader ret.results
      return (ret.value, ret.line) :: others

/-- The bytes that the results hold. -/
def stream : List Result → List Byte
  | [] => []
  | .data bytes :: rs => bytes ++ stream rs
  | _ :: rs => stream rs

/-- A result of a connection that works: an interrupted call, or some bytes that fit. -/
def Result.Flows : Result → Prop
  | .interrupted => True
  | .failed => False
  | .data bytes => bytes ≠ [] ∧ bytes.length ≤ maxLine

/-- By how much the value returned exceeds the bytes stored: a line that is cut counts one
more. -/
def surplus (k : ℕ) (p : List Byte) : ℤ := if newline ∉ p ∧ p.length = k then 1 else 0

variable {k : ℕ} {r : Reader} {rs : List Result}

/-! ## The buffer -/

namespace Reader

theorem length_left (hr : r.Ok) : r.left.length = r.read_cnt.toNat := by
  rw [Ok] at hr
  rw [left, List.length_take, List.length_drop, r.read_buf.length_bytes]
  omega

theorem left_eq_nil (h : r.read_cnt ≤ 0) : r.left = [] := by
  rw [left, Int.toNat_of_nonpos h, List.take_zero]

/-- A byte is taken where one is counted. -/
theorem take_spec (hr : r.Ok) (h : 0 < r.read_cnt) :
    ∃ c r', r.take = some (c, r') ∧ r.left = c :: r'.left ∧ r'.Ok := by
  have hlt : r.read_ptr < r.read_buf.bytes.length := by
    rw [Ok] at hr
    rw [r.read_buf.length_bytes]
    omega
  obtain ⟨m, hm⟩ : ∃ m : ℕ, r.read_cnt = m + 1 := ⟨(r.read_cnt - 1).toNat, by omega⟩
  refine ⟨r.read_buf.bytes[r.read_ptr], _, by rw [take, List.getElem?_eq_getElem hlt]; rfl,
    ?_, ?_⟩
  · have hcnt : r.read_cnt.toNat = m + 1 := by omega
    have hcnt' : (r.read_cnt - 1).toNat = m := by omega
    rw [left, left, hcnt, hcnt', List.drop_eq_getElem_cons hlt, List.take_succ_cons]
  · rw [Ok] at hr ⊢
    change r.read_ptr + 1 + (r.read_cnt - 1).toNat ≤ maxLine
    omega

theorem left_fill {bytes : List Byte} (h : bytes.length ≤ maxLine) :
    (r.fill bytes).left = bytes ∧ (r.fill bytes).Ok := by
  refine ⟨?_, ?_⟩
  · rw [left, fill, List.drop_zero, Int.toNat_natCast, CharArray.bytes_store h, List.take_left]
  · simpa [Ok, fill] using h

end Reader

/-! ## A call -/

/-- What was taken of a line that goes on, and the rest of it. -/
theorem lineCut_of_notMem {s : List Byte} (h : newline ∉ s) (hlen : s.length ≤ k) (t : List Byte) :
    lineCut k (s ++ t) =
      (s ++ (lineCut (k - s.length) t).1, (lineCut (k - s.length) t).2) := by
  induction s generalizing k with
  | nil => simp
  | cons c s ih =>
      obtain ⟨k, rfl⟩ : ∃ j, k = j + 1 := ⟨k - 1, by rw [List.length_cons] at hlen; omega⟩
      have hc : c ≠ newline := fun hc => h (by simp [hc])
      rw [List.cons_append, lineCut, if_neg hc,
        ih (fun hmem => h (List.mem_cons_of_mem c hmem)) (by simpa using hlen), List.length_cons,
        Nat.add_sub_add_right]
      rfl

/-- The surplus of a line is that of its last part. -/
theorem surplus_append {s p : List Byte} (h : newline ∉ s) (hlen : s.length ≤ k) :
    surplus k (s ++ p) = surplus (k - s.length) p := by
  have hlast : (s ++ p).length = k ↔ p.length = k - s.length := by
    rw [List.length_append]
    omega
  simp only [surplus, List.mem_append, hlast, h, false_or]

/-- **Without a `read`**, a call returns the first piece of the bytes in the buffer, or takes all
of them and reads. -/
theorem loop_spec (k : ℕ) (line : List Byte) (hr : r.Ok) :
    (∃ r', loop k r line =
        .returned r' ((line ++ (lineCut k r.left).1).length + surplus k (lineCut k r.left).1)
          (line ++ (lineCut k r.left).1) ∧ r'.Ok ∧
      ∀ t, lineCut k (r.left ++ t) = ((lineCut k r.left).1, r'.left ++ t)) ∨
    ∃ r', loop k r line = .waiting (k - r.left.length) r' (line ++ r.left) ∧ r'.Ok ∧
      r'.left = [] ∧ newline ∉ r.left ∧ r.left.length < k := by
  induction k generalizing r line with
  | zero => exact .inl ⟨r, by simp [loop, lineCut, surplus], hr, fun t => rfl⟩
  | succ k ih =>
      by_cases hcnt : r.read_cnt ≤ 0
      · have hleft := Reader.left_eq_nil hcnt
        exact .inr ⟨r, by simp [loop, hcnt, hleft], hr, hleft, by simp [hleft], by simp [hleft]⟩
      · obtain ⟨c, r', htake, hleft, hr'⟩ := Reader.take_spec hr (by omega)
        by_cases hc : c = newline
        · refine .inl ⟨r', ?_, hr', fun t => ?_⟩
          · simp [loop, hcnt, htake, hleft, hc, lineCut, surplus]
          · simp [hleft, hc, lineCut]
        · have hloop : loop (k + 1) r line = loop k r' (line ++ [c]) := by
            simp [loop, hcnt, htake, hc]
          rw [hloop, hleft]
          rcases ih (line ++ [c]) hr' with ⟨r'', heq, hok, hcut⟩ |
            ⟨r'', heq, hok, hnil, hfree, hlt⟩
          · refine .inl ⟨r'', ?_, hok, fun t => ?_⟩
            · have hsurplus : surplus (k + 1) (c :: (lineCut k r'.left).1) =
                  surplus k (lineCut k r'.left).1 :=
                surplus_append (s := [c]) (by simpa using Ne.symm hc) (by simp)
              rw [heq, lineCut, if_neg hc, hsurplus, List.append_assoc, List.singleton_append]
            · rw [List.cons_append, lineCut, if_neg hc, lineCut, if_neg hc, hcut t]
          · refine .inr ⟨r'', ?_, hok, hnil, ?_, by simpa using hlt⟩
            · rw [heq, List.length_cons, Nat.add_sub_add_right, List.append_assoc,
                List.singleton_append]
            · simpa [Ne.symm hc] using hfree

/-- **From a `read` on**, a call takes a piece of the stream. -/
theorem await_spec (line : List Byte) (hr : r.Ok) (hleft : r.left = [])
    (hrs : ∀ x ∈ rs, x.Flows) (hk : 0 < k) :
    ∃ r' rs', await rs k r line =
        some ⟨(line ++ (lineCut k (stream rs)).1).length + surplus k (lineCut k (stream rs)).1,
          line ++ (lineCut k (stream rs)).1, r', rs'⟩ ∧
      r'.Ok ∧ (∀ x ∈ rs', x.Flows) ∧ r'.left ++ stream rs' = (lineCut k (stream rs)).2 := by
  induction rs generalizing k r line with
  | nil =>
      have hsurplus : surplus k [] = 0 := by
        rw [surplus, if_neg fun h => absurd h.2.symm (Nat.ne_of_gt hk)]
      refine ⟨{ r with read_cnt := 0 }, [], ?_, ?_, by simp, ?_⟩
      · simp [await, stream, hsurplus]
      · rw [Reader.Ok] at hr ⊢
        exact le_trans (Nat.add_le_add_left (Nat.zero_le _) _) hr
      · simp [stream, Reader.left]
  | cons x rs ih =>
      have hrest : ∀ x ∈ rs, x.Flows := fun y hy => hrs y (List.mem_cons_of_mem x hy)
      have hx := hrs x List.mem_cons_self
      cases x with
      | failed => exact hx.elim
      | interrupted =>
          have hempty : (-1 : ℤ) ≤ 0 := by decide
          refine ih (r := { r with read_cnt := -1 }) line ?_ (Reader.left_eq_nil hempty) hrest hk
          rw [Reader.Ok] at hr ⊢
          exact le_trans (Nat.add_le_add_left (Nat.zero_le _) _) hr
      | data bytes =>
          cases bytes with
          | nil => exact absurd rfl hx.1
          | cons b bs =>
              obtain ⟨hfill, hok⟩ := Reader.left_fill (r := r) hx.2
              rcases loop_spec k line hok with ⟨r', heq, hok', hcut⟩ |
                ⟨r', heq, hok', hnil, hfree, hlt⟩
              · rw [hfill] at heq hcut
                refine ⟨r', rs, ?_, hok', hrest, ?_⟩
                · rw [await, heq, stream, hcut]
                · rw [stream, hcut]
              · rw [hfill] at heq hfree hlt
                obtain ⟨r'', rs', hawait, hok'', hrs', hstream⟩ :=
                  ih (k := k - (b :: bs).length) (line ++ b :: bs) hok' hnil hrest
                    (by omega)
                refine ⟨r'', rs', ?_, hok'', hrs', ?_⟩
                · rw [await, heq, stream, lineCut_of_notMem hfree (le_of_lt hlt),
                    surplus_append hfree (le_of_lt hlt), ← List.append_assoc]
                  exact hawait
                · rw [stream, lineCut_of_notMem hfree (le_of_lt hlt)]
                  exact hstream

/-- **A call** takes the first piece of what is in the buffer and in the stream behind it. -/
theorem readline_spec (maxlen : ℕ) (hr : r.Ok) (hrs : ∀ x ∈ rs, x.Flows) :
    ∃ r' rs', readline maxlen r rs =
        some ⟨(lineCut (maxlen - 1) (r.left ++ stream rs)).1.length +
            surplus (maxlen - 1) (lineCut (maxlen - 1) (r.left ++ stream rs)).1,
          (lineCut (maxlen - 1) (r.left ++ stream rs)).1, r', rs'⟩ ∧
      r'.Ok ∧ (∀ x ∈ rs', x.Flows) ∧
        r'.left ++ stream rs' = (lineCut (maxlen - 1) (r.left ++ stream rs)).2 := by
  rcases loop_spec (maxlen - 1) [] hr with ⟨r', heq, hok, hcut⟩ |
    ⟨r', heq, hok, hnil, hfree, hlt⟩
  · refine ⟨r', rs, ?_, hok, hrs, ?_⟩
    · rw [readline, heq, hcut]
      rfl
    · rw [hcut]
  · obtain ⟨r'', rs', hawait, hok', hrs', hstream⟩ :=
      await_spec (k := maxlen - 1 - r.left.length) r.left hok hnil hrs (by omega)
    refine ⟨r'', rs', ?_, hok', hrs', ?_⟩
    · rw [readline, heq, lineCut_of_notMem hfree (le_of_lt hlt),
        surplus_append hfree (le_of_lt hlt)]
      exact hawait
    · rw [lineCut_of_notMem hfree (le_of_lt hlt)]
      exact hstream

/-! ## Successive calls -/

/-- The value that a call returns for a piece: the number of its bytes, and one more where the
line was cut. -/
def valueOf (maxlen : ℕ) (p : List Byte) : ℤ := p.length + surplus (maxlen - 1) p

/-- **Successive calls return the pieces of the stream**, however it was segmented into `read`
results and interrupted in between; at its end they return 0. The bytes stored are those of the
piece, but for a line that is cut the value is one more than their number. -/
theorem calls_eq (maxlen j : ℕ) (r : Reader) (rs : List Result) (hr : r.Ok)
    (hrs : ∀ x ∈ rs, x.Flows) :
    calls maxlen j r rs = some ((pieces (lineCut (maxlen - 1)) j (r.left ++ stream rs)).map
      fun p => (valueOf maxlen p, p)) := by
  induction j generalizing r rs with
  | zero => rfl
  | succ j ih =>
      obtain ⟨r', rs', hcall, hok, hrs', hstream⟩ := readline_spec maxlen hr hrs
      rw [calls, hcall, pieces_succ_eq_cons, List.map_cons, ← hstream]
      simp only [Option.bind_eq_bind, Option.bind_some, ih r' rs' hok hrs']
      rfl

/-- A line of five bytes is cut where there is room for three, and one call is interrupted. -/
theorem calls_eq_four :
    calls 4 4 ⟨0, 0, .fillWith maxLine 0⟩
        [.data (ascii "ab"), .interrupted, .data (ascii "cd\ne")] =
      some [(4, ascii "abc"), (2, ascii "d\n"), (1, ascii "e"), (0, [])] := by
  rw [calls_eq 4 4 ⟨0, 0, .fillWith maxLine 0⟩ _ (by simp [Reader.Ok]) ?_]
  · decide
  · intro x hx
    simp only [List.mem_cons, List.not_mem_nil, or_false] at hx
    rcases hx with rfl | rfl | rfl
    · exact ⟨by decide, by decide⟩
    · trivial
    · exact ⟨by decide, by decide⟩

end SocketPrograms.Unp.Readline
