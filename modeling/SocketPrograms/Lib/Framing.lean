import SocketPrograms.Lib.CharArray

/-!
# Texts in a byte stream

Senders that write each text with its NUL put a stream on the wire from which a reader
takes chunks wherever they end. What a reader keeps of a chunk that it prints as a
string is the part before the first NUL; nothing is lost exactly where only zeros come
after it.

## Main definitions

* `nonNul bs` — the bytes of `bs` that are text.
* `ZerosAfterText bs` — only zeros follow the string that starts `bs`.
* `terminated ts` — the stream of the texts `ts`, each with its NUL.
* `flatten_map_cstr_eq_iff` — the strings of the chunks are all of their text exactly
  where no chunk has text after a NUL.
* `length_le_of_infix` — a window without NUL is no longer than the longest text.
* `isPrefix_of_flatten` — records of one length are told apart in a stream.
-/

namespace SocketPrograms

/-- The bytes that are not NUL. -/
def nonNul (bs : List Byte) : List Byte := bs.filter (· ≠ 0)

/-- Only zeros follow the string that starts `bs`. -/
def ZerosAfterText (bs : List Byte) : Prop := ∀ c ∈ bs.drop (cstr bs).length, c = 0

instance (bs : List Byte) : Decidable (ZerosAfterText bs) :=
  inferInstanceAs (Decidable (∀ c ∈ bs.drop (cstr bs).length, c = 0))

/-- The texts, each followed by a NUL. -/
def terminated (ts : List (List Byte)) : List Byte := (ts.map (· ++ [0])).flatten

@[simp] theorem nonNul_nil : nonNul [] = [] := rfl

@[simp] theorem nonNul_append (bs cs : List Byte) : nonNul (bs ++ cs) = nonNul bs ++ nonNul cs :=
  List.filter_append ..

theorem nonNul_of_nulFree {s : List Byte} (hs : NulFree s) : nonNul s = s := by
  refine List.filter_eq_self.mpr fun c hc => ?_
  have hne : c ≠ 0 := by
    rintro rfl
    exact hs hc
  simpa using hne

/-- The string that starts a chunk, and what text comes after it. -/
theorem nonNul_eq (bs : List Byte) :
    nonNul bs = cstr bs ++ nonNul (bs.drop (cstr bs).length) := by
  have hsplit : cstr bs ++ bs.drop (cstr bs).length = bs :=
    List.prefix_iff_eq_append.mp (cstr_isPrefix bs)
  conv_lhs => rw [← hsplit]
  rw [nonNul_append, nonNul_of_nulFree (nulFree_cstr bs)]

/-- The string is all of the text exactly where zeros follow it. -/
theorem cstr_eq_nonNul_iff (bs : List Byte) : cstr bs = nonNul bs ↔ ZerosAfterText bs := by
  rw [nonNul_eq bs, List.self_eq_append_right]
  simp [nonNul, ZerosAfterText]

theorem length_cstr_le_nonNul (bs : List Byte) : (cstr bs).length ≤ (nonNul bs).length := by
  rw [nonNul_eq bs, List.length_append]
  omega

/-- **Text kept by a reader of chunks**: all of it exactly where no chunk has text after
a NUL. -/
theorem flatten_map_cstr_eq_iff (chunks : List (List Byte)) :
    (chunks.map cstr).flatten = nonNul chunks.flatten ↔ ∀ b ∈ chunks, ZerosAfterText b := by
  have hle : ∀ bs : List (List Byte),
      (bs.map cstr).flatten.length ≤ (nonNul bs.flatten).length := by
    intro bs
    induction bs with
    | nil => simp
    | cons b bs ih =>
        simp only [List.map_cons, List.flatten_cons, nonNul_append, List.length_append]
        exact Nat.add_le_add (length_cstr_le_nonNul b) ih
  induction chunks with
  | nil => simp
  | cons b bs ih =>
      simp only [List.map_cons, List.flatten_cons, nonNul_append, List.mem_cons, forall_eq_or_imp]
      constructor
      · intro h
        have hsum := congrArg List.length h
        simp only [List.length_append] at hsum
        have hb := length_cstr_le_nonNul b
        have hbs := hle bs
        obtain ⟨hb', hbs'⟩ := List.append_inj h (by omega)
        exact ⟨(cstr_eq_nonNul_iff b).mp hb', ih.mp hbs'⟩
      · rintro ⟨hb, hbs⟩
        rw [(cstr_eq_nonNul_iff b).mpr hb, ih.mpr hbs]

theorem nonNul_terminated {ts : List (List Byte)} (h : ∀ t ∈ ts, NulFree t) :
    nonNul (terminated ts) = ts.flatten := by
  induction ts with
  | nil => rfl
  | cons t ts ih =>
      have ht := nonNul_of_nulFree (h t (by simp))
      have hts := ih fun u hu => h u (List.mem_cons_of_mem _ hu)
      calc
        nonNul (terminated (t :: ts)) = nonNul ((t ++ [0]) ++ terminated ts) := rfl
        _ = t ++ ts.flatten := by
          rw [nonNul_append, nonNul_append, ht, hts]
          simp [nonNul]

/-- A window that a separator is not in lies on one side of it. -/
theorem infix_of_append_cons {α : Type*} {u v w : List α} {c : α} (h : w <:+: u ++ c :: v)
    (hc : c ∉ w) : w <:+: u ∨ w <:+: v := by
  obtain ⟨p, s, h⟩ := h
  rcases List.append_eq_append_iff.mp h with ⟨a, hu, _⟩ | ⟨a, hpw, hs⟩
  · exact .inl ⟨p, a, hu.symm⟩
  · cases a with
    | nil => exact .inl ⟨p, [], by simpa using hpw⟩
    | cons d a =>
        obtain ⟨rfl, rfl⟩ : c = d ∧ v = a ++ s := by simpa using hs
        rcases List.append_eq_append_iff.mp hpw with ⟨b, _, hw⟩ | ⟨b, _, hb⟩
        · exact absurd (by simp [hw]) hc
        · cases b with
          | nil => exact absurd (by simp at hb; simp [← hb]) hc
          | cons e b =>
              obtain ⟨rfl, rfl⟩ : c = e ∧ a = b ++ w := by simpa using hb
              exact .inr ⟨b, s, rfl⟩

/-- **A window without NUL** is no longer than the longest text of the stream. -/
theorem length_le_of_infix {ts : List (List Byte)} {m : ℕ} (hm : ∀ t ∈ ts, t.length ≤ m)
    {w : List Byte} (hw : w <:+: terminated ts) (h0 : NulFree w) : w.length ≤ m := by
  induction ts with
  | nil =>
      have : w = [] := List.infix_nil.mp hw
      simp [this]
  | cons t ts ih =>
      have hsplit : terminated (t :: ts) = t ++ 0 :: terminated ts := by simp [terminated]
      rcases infix_of_append_cons (hsplit ▸ hw) h0 with h | h
      · exact h.length_le.trans (hm t (by simp))
      · exact ih (fun u hu => hm u (List.mem_cons_of_mem _ hu)) h

/-- **Records of one length** are told apart in a stream: where the reads return records
and what they return starts the stream of the records written, they return these
records, in order. -/
theorem isPrefix_of_flatten {α : Type*} {L : ℕ} (hL : 0 < L) {rs ws : List (List α)}
    (hrs : ∀ r ∈ rs, r.length = L) (hws : ∀ w ∈ ws, w.length = L)
    (h : rs.flatten <+: ws.flatten) : rs <+: ws := by
  induction rs generalizing ws with
  | nil => exact List.nil_prefix
  | cons r rs ih =>
      have hr : r.length = L := hrs r (by simp)
      cases ws with
      | nil =>
          have hle := h.length_le
          simp only [List.flatten_cons, List.length_append, List.flatten_nil,
            List.length_nil] at hle
          omega
      | cons w ws =>
          have hw : w.length = L := hws w (by simp)
          obtain ⟨rest, hrest⟩ := h
          rw [List.flatten_cons, List.flatten_cons, List.append_assoc] at hrest
          obtain ⟨rfl, htail⟩ := List.append_inj hrest (by omega)
          have hpre : rs <+: ws :=
            ih (fun b hb => hrs b (List.mem_cons_of_mem _ hb))
              (fun b hb => hws b (List.mem_cons_of_mem _ hb)) ⟨rest, htail⟩
          exact (List.prefix_cons_inj r).mpr hpre

end SocketPrograms
