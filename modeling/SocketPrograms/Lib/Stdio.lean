import SocketPrograms.Lib.CharArray
import Mathlib.Data.List.Basic
import Mathlib.Logic.Function.Iterate

/-!
# Line input

`fgets` and `scanf("%s")` on a finite input, and the loop that appends a whole
stream to an array piece by piece. An `fgets` piece ends after a newline or when
its limit is reached, so the pieces of one stream depend on the limit; their
concatenation does not, and that is what the gather loop leaves in the array.

## Main definitions

* `lineCut m s` — what one `fgets` with room for `m` bytes takes from `s`.
* `fgets`, `scanf` — the calls, with the array they write.
* `gather` — `while (fgets(com, size, fp) != NULL) strcat(send, com);`.
* `gathered` — what the loop appends: the whole stream, where no NUL is in it.
* `gather_tail`, `gather_padded` — what the loop leaves in the array, and where it writes behind
  it.
-/

namespace SocketPrograms

/-- `'\n'`. -/
def newline : Byte := 10

/-! ## One piece -/

/-- The bytes one `fgets` with room for `m` bytes takes, and those it leaves: up to
and with the first newline, and at most `m`. -/
def lineCut : ℕ → List Byte → List Byte × List Byte
  | 0, s => ([], s)
  | _ + 1, [] => ([], [])
  | m + 1, c :: s =>
      if c = newline then ([c], s) else (c :: (lineCut m s).1, (lineCut m s).2)

@[simp] theorem lineCut_nil (m : ℕ) : lineCut m [] = ([], []) := by cases m <;> rfl

/-- A piece and the rest make up the input. -/
theorem lineCut_append (m : ℕ) (s : List Byte) : (lineCut m s).1 ++ (lineCut m s).2 = s := by
  induction m generalizing s with
  | zero => rfl
  | succ m ih =>
      cases s with
      | nil => rfl
      | cons c s =>
          by_cases hc : c = newline
          · simp [lineCut, hc]
          · simp [lineCut, hc, ih s]

theorem length_lineCut_le (m : ℕ) (s : List Byte) : (lineCut m s).1.length ≤ m := by
  induction m generalizing s with
  | zero => simp [lineCut]
  | succ m ih =>
      cases s with
      | nil => simp
      | cons c s =>
          by_cases hc : c = newline
          · simp [lineCut, hc]
          · simpa [lineCut, hc] using ih s

/-- Every piece takes at least one byte, so a stream has finitely many pieces. -/
theorem length_lineCut_rest_lt {m : ℕ} (hm : 0 < m) {s : List Byte} (hs : s ≠ []) :
    (lineCut m s).2.length < s.length := by
  obtain ⟨m, rfl⟩ : ∃ k, m = k + 1 := ⟨m - 1, by omega⟩
  cases s with
  | nil => exact absurd rfl hs
  | cons c s =>
      by_cases hc : c = newline
      · simp [lineCut, hc]
      · have happ := congrArg List.length (lineCut_append m s)
        simp only [List.length_append] at happ
        simp only [lineCut, hc, if_false, List.length_cons]
        omega

/-- A whole line that fits is one piece. -/
theorem lineCut_line {m : ℕ} {t : List Byte} (ht : newline ∉ t) (hm : t.length < m)
    (s : List Byte) : lineCut m (t ++ newline :: s) = (t ++ [newline], s) := by
  induction t generalizing m with
  | nil =>
      obtain ⟨m, rfl⟩ : ∃ k, m = k + 1 := ⟨m - 1, by simp at hm; omega⟩
      simp [lineCut]
  | cons c t ih =>
      obtain ⟨m, rfl⟩ : ∃ k, m = k + 1 := ⟨m - 1, by simp at hm; omega⟩
      have hc : c ≠ newline := fun h => ht (by simp [h])
      have ht' : newline ∉ t := fun h => ht (List.mem_cons_of_mem _ h)
      have hm' : t.length < m := by simpa using hm
      simp [lineCut, hc, ih ht' hm']

theorem NulFree.lineCut {s : List Byte} (hs : NulFree s) (m : ℕ) :
    NulFree (lineCut m s).1 ∧ NulFree (lineCut m s).2 := by
  rw [← nulFree_append, lineCut_append]
  exact hs

/-- White space, as `isspace` in the C locale. -/
def isSpace (c : Byte) : Bool := c = 32 || (9 ≤ c && c ≤ 13)

/-- The token a `%s` conversion takes, and the input it leaves. -/
def scanToken (s : List Byte) : List Byte × List Byte :=
  let s' := s.dropWhile isSpace
  (s'.takeWhile (!isSpace ·), s'.dropWhile (!isSpace ·))

@[simp] theorem scanToken_nil : scanToken [] = ([], []) := rfl

/-! ## The pieces of a whole input

A program takes its input piece by piece, by lines or by tokens: `cut` is what one call
takes and leaves. -/

/-- The input left after `k` pieces. -/
def unread (cut : List Byte → List Byte × List Byte) (k : ℕ) (s : List Byte) : List Byte :=
  (fun s => (cut s).2)^[k] s

/-- The first `k` pieces. -/
def pieces (cut : List Byte → List Byte × List Byte) (k : ℕ) (s : List Byte) :
    List (List Byte) :=
  (List.range k).map fun i => (cut (unread cut i s)).1

/-- What call `k` takes, counted from 0. -/
def pieceAt (cut : List Byte → List Byte × List Byte) (k : ℕ) (s : List Byte) : List Byte :=
  (cut (unread cut k s)).1

section Pieces

variable (cut : List Byte → List Byte × List Byte)

@[simp] theorem unread_zero (s : List Byte) : unread cut 0 s = s := rfl

theorem unread_succ (k : ℕ) (s : List Byte) :
    unread cut (k + 1) s = (cut (unread cut k s)).2 := by
  rw [unread, Function.iterate_succ_apply']
  rfl

/-- Later calls start from what the earlier ones left. -/
theorem pieceAt_add (i j : ℕ) (s : List Byte) :
    pieceAt cut (i + j) s = pieceAt cut j (unread cut i s) := by
  rw [pieceAt, pieceAt, unread, unread, unread, Nat.add_comm i j, Function.iterate_add_apply]

/-- Once the input has ended, nothing is taken. -/
theorem pieceAt_nil (hnil : cut [] = ([], [])) (k : ℕ) : pieceAt cut k [] = [] := by
  have hunread : unread cut k [] = [] := by
    induction k with
    | zero => rfl
    | succ k ih => rw [unread_succ, ih, hnil]
  rw [pieceAt, hunread, hnil]

@[simp] theorem pieces_zero (s : List Byte) : pieces cut 0 s = [] := rfl

theorem pieces_succ (k : ℕ) (s : List Byte) :
    pieces cut (k + 1) s = pieces cut k s ++ [(cut (unread cut k s)).1] := by
  simp [pieces, List.range_succ]

/-- The first piece, and the pieces of what it leaves. -/
theorem pieces_succ_eq_cons (k : ℕ) (s : List Byte) :
    pieces cut (k + 1) s = (cut s).1 :: pieces cut k (cut s).2 := by
  rw [pieces, List.range_succ_eq_map, List.map_cons, List.map_map]
  rfl

@[simp] theorem length_pieces (k : ℕ) (s : List Byte) : (pieces cut k s).length = k := by
  simp [pieces]

/-- Where the input holds the items `xs`, and each call takes the first item held, the
pieces are these items, then empty. -/
theorem pieces_items (Holds : List Byte → List (List Byte) → Prop)
    (hnil : ∀ s, Holds s [] → (cut s).1 = [] ∧ Holds (cut s).2 [])
    (hcons : ∀ s x xs, Holds s (x :: xs) → (cut s).1 = x ∧ Holds (cut s).2 xs)
    {s : List Byte} {xs : List (List Byte)} (h : Holds s xs) (k : ℕ) :
    Holds (unread cut k s) (xs.drop k) ∧
      pieces cut k s = (List.range k).map fun i => xs[i]?.getD [] := by
  induction k with
  | zero => exact ⟨by simpa using h, by simp⟩
  | succ k ih =>
      obtain ⟨hk, ih⟩ := ih
      rw [unread_succ, pieces_succ, ih, List.range_succ, List.map_append]
      by_cases hlt : k < xs.length
      · rw [List.drop_eq_getElem_cons hlt] at hk
        obtain ⟨hpiece, hrest⟩ := hcons _ _ _ hk
        exact ⟨hrest, by simp [hpiece, hlt]⟩
      · rw [List.drop_eq_nil_of_le (show xs.length ≤ k by omega)] at hk
        rw [List.drop_eq_nil_of_le (show xs.length ≤ k + 1 by omega)]
        obtain ⟨hpiece, hrest⟩ := hnil _ hk
        exact ⟨hrest, by
          simp [hpiece, List.getElem?_eq_none (show xs.length ≤ k by omega)]⟩

end Pieces

theorem length_le_of_mem_pieces {m k : ℕ} {s p : List Byte} (hp : p ∈ pieces (lineCut m) k s) :
    p.length ≤ m := by
  obtain ⟨i, _, rfl⟩ := List.mem_map.mp hp
  exact length_lineCut_le m _

/-- A typed line that one `fgets` takes whole. -/
structure IsLine (m : ℕ) (l : List Byte) : Prop where
  nulFree : NulFree l
  short : l.length ≤ m
  ends : ∃ t, newline ∉ t ∧ l = t ++ [newline]

instance (m : ℕ) (l : List Byte) : Decidable (IsLine m l) :=
  decidable_of_iff
    (NulFree l ∧ l.length ≤ m ∧ newline ∉ l.dropLast ∧ l.getLast? = some newline)
    ⟨fun ⟨h0, hm, hnot, hlast⟩ =>
      ⟨h0, hm, l.dropLast, hnot, (List.dropLast_append_getLast? newline hlast).symm⟩,
    fun ⟨h0, hm, t, hnot, hl⟩ => ⟨h0, hm, by simpa [hl] using hnot, by simp [hl]⟩⟩

theorem lineCut_flatten {m : ℕ} {l : List Byte} (hl : IsLine m l) (ls : List (List Byte)) :
    lineCut m (l :: ls).flatten = (l, ls.flatten) := by
  obtain ⟨t, ht, rfl⟩ := hl.ends
  have hm : t.length < m := by
    have hshort := hl.short
    rwa [List.length_append, List.length_singleton] at hshort
  simpa using lineCut_line ht hm ls.flatten

/-- Where every line fits, the pieces are the lines, then empty. -/
theorem pieces_lines {m : ℕ} {ls : List (List Byte)} (hls : ∀ l ∈ ls, IsLine m l) (k : ℕ) :
    pieces (lineCut m) k ls.flatten = (List.range k).map fun i => ls[i]?.getD [] := by
  refine (pieces_items (lineCut m) (fun s xs => s = xs.flatten ∧ ∀ l ∈ xs, IsLine m l)
    ?_ ?_ ⟨rfl, hls⟩ k).2
  · rintro s ⟨rfl, _⟩
    simp
  · rintro s l ls ⟨rfl, hls⟩
    rw [lineCut_flatten (hls l (by simp))]
    exact ⟨rfl, rfl, fun l' hl' => hls l' (List.mem_cons_of_mem _ hl')⟩

/-- The pieces of typed lines are the first lines, however many pieces are taken. -/
theorem flatten_map_getD (ls : List (List Byte)) (k : ℕ) :
    ((List.range k).map fun i => ls[i]?.getD []).flatten = (ls.take k).flatten := by
  induction k with
  | zero => rfl
  | succ k ih =>
      rw [List.range_succ, List.map_append, List.flatten_append, ih, List.take_add_one,
        List.flatten_append]
      cases hk : ls[k]? <;> simp [hk]

/-- A typed name: no white space and no NUL in it, and not empty. -/
structure IsToken (t : List Byte) : Prop where
  nulFree : NulFree t
  ne_nil : t ≠ []
  noSpace : ∀ c ∈ t, isSpace c = false

instance (t : List Byte) : Decidable (IsToken t) :=
  decidable_of_iff (NulFree t ∧ t ≠ [] ∧ t.any isSpace = false)
    ⟨fun ⟨h0, hne, hspace⟩ => ⟨h0, hne, by simpa using hspace⟩,
    fun ⟨h0, hne, hspace⟩ => ⟨h0, hne, by simpa using hspace⟩⟩

/-- `s` is an input in which the tokens `ts` are typed: white space before and behind each
of them. -/
def Typed : List (List Byte) → List Byte → Prop
  | [], s => ∀ c ∈ s, isSpace c = true
  | t :: ts, s => IsToken t ∧ ∃ ws rest, s = ws ++ t ++ rest ∧ (∀ c ∈ ws, isSpace c = true) ∧
      (∀ c ∈ rest.head?, isSpace c = true) ∧ Typed ts rest

/-- Tokens, each on a line of its own. -/
def tokenLines (ts : List (List Byte)) : List Byte := (ts.map (· ++ [newline])).flatten

theorem typed_newline_cons {ts : List (List Byte)} {s : List Byte} (h : Typed ts s) :
    Typed ts (newline :: s) := by
  have hnewline : isSpace newline = true := by decide
  cases ts with
  | nil => exact List.forall_mem_cons.mpr ⟨hnewline, h⟩
  | cons t ts =>
      obtain ⟨ht, ws, rest, rfl, hws, hrest⟩ := h
      exact ⟨ht, newline :: ws, rest, rfl, List.forall_mem_cons.mpr ⟨hnewline, hws⟩, hrest⟩

theorem typed_tokenLines {ts : List (List Byte)} (hts : ∀ t ∈ ts, IsToken t) :
    Typed ts (tokenLines ts) := by
  induction ts with
  | nil => simp [Typed, tokenLines]
  | cons t ts ih =>
      have hrest := typed_newline_cons (ih fun u hu => hts u (List.mem_cons_of_mem _ hu))
      refine ⟨hts t (by simp), [], newline :: tokenLines ts, by simp [tokenLines], by simp, ?_,
        hrest⟩
      simp only [List.head?_cons, Option.mem_some_iff, forall_eq']
      decide

theorem Typed.isToken {ts : List (List Byte)} {s : List Byte} (h : Typed ts s) :
    ∀ t ∈ ts, IsToken t := by
  induction ts generalizing s with
  | nil => simp
  | cons t ts ih =>
      obtain ⟨ht, _, rest, _, _, _, hrest⟩ := h
      exact List.forall_mem_cons.mpr ⟨ht, ih hrest⟩

/-- A call takes the first token typed. -/
theorem scanToken_typed {t : List Byte} {ts : List (List Byte)} {s : List Byte}
    (h : Typed (t :: ts) s) : (scanToken s).1 = t ∧ Typed ts (scanToken s).2 := by
  obtain ⟨ht, ws, rest, rfl, hws, hhead, hrest⟩ := h
  have hall : ∀ c ∈ t, (!isSpace c) = true := fun c hc => by simp [ht.noSpace c hc]
  have hskip : (ws ++ t ++ rest).dropWhile isSpace = t ++ rest := by
    rw [List.append_assoc, List.dropWhile_append_of_pos hws]
    cases t with
    | nil => exact absurd rfl ht.ne_nil
    | cons c t => simp [ht.noSpace c (by simp)]
  have hstop : rest.takeWhile (!isSpace ·) = [] ∧ rest.dropWhile (!isSpace ·) = rest := by
    cases rest with
    | nil => exact ⟨rfl, rfl⟩
    | cons c rest =>
        have hc : isSpace c = true := hhead c rfl
        simp [hc]
  rw [scanToken, hskip]
  simp only [List.takeWhile_append_of_pos hall, List.dropWhile_append_of_pos hall, hstop,
    List.append_nil]
  exact ⟨trivial, hrest⟩

theorem scanToken_space {s : List Byte} (h : ∀ c ∈ s, isSpace c = true) :
    scanToken s = ([], []) := by
  have hskip : s.dropWhile isSpace = [] := List.dropWhile_eq_nil_iff.mpr h
  rw [scanToken, hskip]
  rfl

/-- The pieces of an input are the tokens typed, then empty. -/
theorem pieces_typed {ts : List (List Byte)} {s : List Byte} (h : Typed ts s) (k : ℕ) :
    pieces scanToken k s = (List.range k).map fun i => ts[i]?.getD [] := by
  refine (pieces_items scanToken (fun s xs => Typed xs s) ?_ ?_ h k).2
  · intro s hs
    rw [scanToken_space hs]
    exact ⟨rfl, by simp [Typed]⟩
  · intro s t ts hs
    exact scanToken_typed hs

/-- Where every token is typed on a line of its own, the pieces are the tokens, then
empty. -/
theorem pieces_tokens {ts : List (List Byte)} (hts : ∀ t ∈ ts, IsToken t) (k : ℕ) :
    pieces scanToken k (tokenLines ts) = (List.range k).map fun i => ts[i]?.getD [] :=
  pieces_typed (typed_tokenLines hts) k

/-! ## The calls -/

section Calls

variable {m n : ℕ}

/-- `fgets(a, size, s)`: whether it returned non-NULL, the array, and the input left.
At the end of the input the array is left as it was. -/
def fgets (size : ℕ) (a : CharArray n) (s : List Byte) :
    Option (Bool × CharArray n × List Byte) :=
  if s = [] then some (false, a, [])
  else do
    let a' ← a.write 0 ((lineCut (size - 1) s).1 ++ [0])
    return (true, a', (lineCut (size - 1) s).2)

/-- `scanf("%s", a)`: no bound on the token; at the end of the input the array is
left as it was. -/
def scanf (a : CharArray n) (s : List Byte) : Option (CharArray n × List Byte) :=
  let t := (scanToken s).1
  if t = [] then some (a, (scanToken s).2)
  else do
    let a' ← a.write 0 (t ++ [0])
    return (a', (scanToken s).2)

/-- A token that fits is the string that the array holds. -/
theorem scanf_text (a : CharArray n) {s t : List Byte} (ht : (scanToken s).1 = t)
    (hne : t ≠ []) (hlen : t.length < n) :
    ∃ b tail, scanf a s = some (b, (scanToken s).2) ∧ b.bytes = t ++ 0 :: tail := by
  obtain ⟨b, hb, hbytes⟩ := a.write_of_le (show 0 + (t ++ [0]).length ≤ n by simp; omega)
  refine ⟨b, a.bytes.drop (t.length + 1), by simp [scanf, ht, hne, hb], ?_⟩
  rw [hbytes]
  simp

/-- A token that is as long as the array or longer is written behind its end. -/
theorem scanf_eq_none (a : CharArray n) {s : List Byte} (hne : (scanToken s).1 ≠ [])
    (hlen : n ≤ (scanToken s).1.length) : scanf a s = none := by
  have hwrite : a.write 0 ((scanToken s).1 ++ [0]) = none := by
    rw [CharArray.write, dif_neg]
    rw [List.length_append, List.length_singleton]
    omega
  simp [scanf, hne, hwrite]

/-- A token that fits, scanned into a cleared array: the token and zeros. -/
theorem scanf_memset (a : CharArray n) {s : List Byte} (h : (scanToken s).1.length < n) :
    ∃ b, scanf (a.memset n) s = some (b, (scanToken s).2) ∧
      b.bytes = padded n (scanToken s).1 := by
  have hclear : (a.memset n).bytes = padded n [] := a.bytes_memset_of_le le_rfl
  by_cases ht : (scanToken s).1 = []
  · exact ⟨a.memset n, by simp [scanf, ht], by rw [ht, hclear]⟩
  · obtain ⟨b, hcopy, hb⟩ := CharArray.strcpy_padded hclear h
    have hwrite : (a.memset n).write 0 ((scanToken s).1 ++ [0]) = some b := hcopy
    exact ⟨b, by simp [scanf, ht, hwrite], hb⟩

/-- `fuel` passes of the gather loop. The stream is read to its end, or there is no
result. -/
def gatherLoop (size : ℕ) :
    ℕ → CharArray m → CharArray n → List Byte → Option (CharArray m × CharArray n)
  | fuel, com, send, out =>
      match fgets size com out with
      | none => none
      | some (false, com', _) => some (com', send)
      | some (true, com', rest) =>
          match fuel with
          | 0 => none
          | fuel + 1 => do
              let piece ← com'.text
              let send' ← send.strcat piece
              gatherLoop size fuel com' send' rest

/-- `while (fgets(com, size, fp) != NULL) strcat(send, com);` on the stream `out`.
Each pass takes at least one byte when `size` is at least 2, so the length of the
stream is fuel enough; with a smaller `size` the loop has no end. -/
def gather (size : ℕ) (com : CharArray m) (send : CharArray n) (out : List Byte) :
    Option (CharArray m × CharArray n) :=
  gatherLoop size out.length com send out

/-- The pieces that `fgets` cuts a whole stream into, `fuel` of them at most. -/
def chunks (m : ℕ) : ℕ → List Byte → List (List Byte)
  | 0, _ => []
  | fuel + 1, s => if s = [] then [] else (lineCut m s).1 :: chunks m fuel (lineCut m s).2

/-- What the gather loop appends: of each piece, the string it starts with. -/
def gathered (size : ℕ) (out : List Byte) : List Byte :=
  ((chunks (size - 1) out.length out).map cstr).flatten

@[simp] theorem chunks_nil (m fuel : ℕ) : chunks m fuel [] = [] := by cases fuel <;> rfl

theorem chunks_succ (m fuel : ℕ) {s : List Byte} (hs : s ≠ []) :
    chunks m (fuel + 1) s = (lineCut m s).1 :: chunks m fuel (lineCut m s).2 := if_neg hs

/-- A stream without NUL is appended whole. -/
theorem flatten_chunks {m : ℕ} (hm : 0 < m) :
    ∀ (fuel : ℕ) (s : List Byte), s.length ≤ fuel → NulFree s →
      ((chunks m fuel s).map cstr).flatten = s := by
  intro fuel
  induction fuel with
  | zero =>
      intro s hfuel _
      rw [List.length_eq_zero_iff.mp (show s.length = 0 by omega)]
      rfl
  | succ fuel ih =>
      intro s hfuel hnul
      by_cases hs : s = []
      · subst hs
        rfl
      · have hrest := length_lineCut_rest_lt hm hs
        obtain ⟨hpiece, htail⟩ := hnul.lineCut m
        rw [chunks_succ m fuel hs, List.map_cons, List.flatten_cons, ih _ (by omega) htail,
          cstr_of_nulFree hpiece, lineCut_append]

theorem gathered_of_nulFree {size : ℕ} (hsize : 2 ≤ size) {out : List Byte} (h : NulFree out) :
    gathered size out = out :=
  flatten_chunks (by omega) out.length out le_rfl h

/-- What is appended is a string. -/
theorem nulFree_gathered (size : ℕ) (out : List Byte) : NulFree (gathered size out) := by
  intro hmem
  obtain ⟨piece, hpiece, hzero⟩ := List.mem_flatten.mp hmem
  obtain ⟨chunk, _, rfl⟩ := List.mem_map.mp hpiece
  exact nulFree_cstr chunk hzero

/-- A piece that is stored is a string in the array. -/
theorem fgets_of_ne_nil {size : ℕ} (hsize : 0 < size) (hm : size ≤ m) (a : CharArray m)
    {s : List Byte} (hs : s ≠ []) :
    ∃ a', fgets size a s = some (true, a', (lineCut (size - 1) s).2) ∧
      a'.text = some (cstr (lineCut (size - 1) s).1) := by
  have hlen := length_lineCut_le (size - 1) s
  obtain ⟨a', ha', hbytes⟩ :=
    a.write_of_le (show 0 + ((lineCut (size - 1) s).1 ++ [0]).length ≤ m by simp; omega)
  refine ⟨a', by simp [fgets, hs, ha'], ?_⟩
  rw [CharArray.text, hbytes]
  simpa using textOf_append_zero (lineCut (size - 1) s).1 _

theorem gatherLoop_nil (size fuel : ℕ) (com : CharArray m) (send : CharArray n) :
    gatherLoop size fuel com send [] = some (com, send) := by
  rw [gatherLoop]
  simp [fgets]

/-- One pass: a piece read, and appended. -/
theorem gatherLoop_succ {size fuel : ℕ} {com com' : CharArray m} {out rest piece : List Byte}
    (send : CharArray n) (hfgets : fgets size com out = some (true, com', rest))
    (htext : com'.text = some piece) :
    gatherLoop size (fuel + 1) com send out =
      (send.strcat piece).bind fun send' => gatherLoop size fuel com' send' rest := by
  conv_lhs => rw [gatherLoop]
  simp [hfgets, htext]

/-- The loop from a string with anything behind it: the string grows by the pieces, and
there is no result where they do not fit. -/
theorem gatherLoop_tail {size : ℕ} (hsize : 2 ≤ size) (hm : size ≤ m) :
    ∀ (fuel : ℕ) (com : CharArray m) (send : CharArray n) (s tail out text : List Byte),
      out.length ≤ fuel → send.bytes = s ++ 0 :: tail → NulFree s →
      ((chunks (size - 1) fuel out).map cstr).flatten = text →
      (text.length ≤ tail.length →
        ∃ com' send', gatherLoop size fuel com send out = some (com', send') ∧
          send'.bytes = s ++ text ++ 0 :: tail.drop text.length) ∧
      (tail.length < text.length → gatherLoop size fuel com send out = none) := by
  intro fuel
  induction fuel with
  | zero =>
      rintro com send s tail out text hfuel hsend _ rfl
      obtain rfl : out = [] := List.length_eq_zero_iff.mp (by omega)
      exact ⟨fun _ => ⟨com, send, gatherLoop_nil .., by simpa using hsend⟩, by simp⟩
  | succ fuel ih =>
      rintro com send s tail out text hfuel hsend hs rfl
      by_cases hout : out = []
      · subst hout
        exact ⟨fun _ => ⟨com, send, gatherLoop_nil .., by simpa using hsend⟩, by simp⟩
      · obtain ⟨com', hfgets, htext⟩ := fgets_of_ne_nil (by omega) hm com hout
        have hrest := length_lineCut_rest_lt (m := size - 1) (by omega) hout
        have hpiece := nulFree_cstr (lineCut (size - 1) out).1
        rw [gatherLoop_succ send hfgets htext, chunks_succ _ _ hout, List.map_cons,
          List.flatten_cons, List.length_append]
        generalize cstr (lineCut (size - 1) out).1 = piece at hpiece
        by_cases hlen : piece.length ≤ tail.length
        · -- the piece fits, and the rest of the loop starts behind it
          obtain ⟨send', hcat, hsend'⟩ := CharArray.strcat_tail hsend hs hlen
          obtain ⟨hfit, hover⟩ := ih com' send' (s ++ piece) (tail.drop piece.length)
            (lineCut (size - 1) out).2 _ (by omega) hsend' (nulFree_append.mpr ⟨hs, hpiece⟩) rfl
          rw [List.length_drop] at hfit hover
          rw [hcat, Option.bind_some]
          refine ⟨fun h => ?_, fun h => hover (by omega)⟩
          obtain ⟨com'', send'', hloop, hbytes⟩ := hfit (by omega)
          refine ⟨com'', send'', hloop, ?_⟩
          rw [hbytes, List.append_assoc s, List.drop_drop]
        · rw [CharArray.strcat_eq_none hsend hs (by omega), Option.bind_none]
          exact ⟨fun h => absurd h (by omega), fun _ => rfl⟩

/-- **The gather loop**, from an array that holds a string: what it appends, and where it
writes behind the array. -/
theorem gather_tail {size : ℕ} (hsize : 2 ≤ size) (hm : size ≤ m) (com : CharArray m)
    {send : CharArray n} {s tail : List Byte} (out : List Byte)
    (hsend : send.bytes = s ++ 0 :: tail) (hs : NulFree s) :
    ((gathered size out).length ≤ tail.length →
      ∃ com' send', gather size com send out = some (com', send') ∧
        send'.bytes = s ++ gathered size out ++ 0 :: tail.drop (gathered size out).length) ∧
    (tail.length < (gathered size out).length → gather size com send out = none) :=
  gatherLoop_tail hsize hm out.length com send s tail out _ le_rfl hsend hs rfl

/-- An empty stream leaves the array as it is. -/
@[simp] theorem gather_nil (size : ℕ) (com : CharArray m) (send : CharArray n) :
    gather size com send [] = some (com, send) := gatherLoop_nil size _ com send

/-- The gather loop cannot append to an array without a NUL. -/
theorem gather_of_text_none {size : ℕ} (hsize : 2 ≤ size) (hm : size ≤ m) (com : CharArray m)
    {send : CharArray n} {out : List Byte} (hsend : send.text = none) (hout : out ≠ []) :
    gather size com send out = none := by
  obtain ⟨com', hfgets, htext⟩ := fgets_of_ne_nil (by omega) hm com hout
  have hlen : out.length = (out.length - 1) + 1 := by
    have := List.length_pos_of_ne_nil hout
    omega
  rw [gather, hlen, gatherLoop_succ send hfgets htext, CharArray.strcat, hsend]
  rfl

/-- From a string with anything behind it, the gather loop leaves the stream and zeros exactly
where the string is empty and what stays behind the stream is zero. -/
theorem gather_eq_padded_of_text {size : ℕ} (hsize : 2 ≤ size) (hm : size ≤ m)
    (com : CharArray m) {send : CharArray n} {text tail out : List Byte}
    (hsend : send.bytes = text ++ 0 :: tail) (hfree : NulFree text) (hout : NulFree out)
    (hlen : out.length < n) :
    (∃ com' send', gather size com send out = some (com', send') ∧
        send'.bytes = padded n out) ↔
      text = [] ∧ ∀ b ∈ tail.drop out.length, b = 0 := by
  have hroom : text.length + (tail.length + 1) = n := by
    rw [← send.length_bytes, hsend, List.length_append, List.length_cons]
  have hcases := gather_tail hsize hm com out hsend hfree
  rw [gathered_of_nulFree hsize hout] at hcases
  have hbehind (hle : out.length ≤ tail.length) (hnil : text = []) :
      out.length + ((tail.drop out.length).length + 1) = n := by
    rw [hnil, List.length_nil] at hroom
    rw [List.length_drop]
    omega
  constructor
  · rintro ⟨com', send', hgather, hbytes⟩
    have hle : out.length ≤ tail.length := by
      by_contra hlong
      rw [hcases.2 (by omega)] at hgather
      cases hgather
    obtain ⟨com'', send'', hgather', hbytes'⟩ := hcases.1 hle
    have hsame : send' = send'' :=
      congrArg Prod.snd (Option.some.inj (hgather.symm.trans hgather'))
    rw [← hsame, hbytes] at hbytes'
    have hnil : text = [] := by
      have hstr := congrArg cstr hbytes'
      rw [cstr_padded, cstr_append_zero, cstr_of_nulFree hout,
        cstr_of_nulFree (nulFree_append.mpr ⟨hfree, hout⟩)] at hstr
      exact List.self_eq_append_left.mp hstr
    rw [hnil, List.nil_append] at hbytes'
    exact ⟨hnil, (append_zero_eq_padded_iff (hbehind hle hnil)).mp hbytes'.symm⟩
  · rintro ⟨hnil, hzero⟩
    have hle : out.length ≤ tail.length := by
      rw [hnil, List.length_nil] at hroom
      omega
    obtain ⟨com', send', hgather, hbytes⟩ := hcases.1 hle
    rw [hnil, List.nil_append, (append_zero_eq_padded_iff (hbehind hle hnil)).mpr hzero] at hbytes
    exact ⟨com', send', hgather, hbytes⟩

/-- **From any array, the gather loop leaves the stream and zeros exactly where** the array
holds the empty string and is zero from behind the stream and its terminator on. -/
theorem gather_eq_padded_iff {size : ℕ} (hsize : 2 ≤ size) (hm : size ≤ m) (com : CharArray m)
    (send : CharArray n) {out : List Byte} (hout : NulFree out) (hlen : out.length < n) :
    (∃ com' send', gather size com send out = some (com', send') ∧
        send'.bytes = padded n out) ↔
      send.bytes.head? = some 0 ∧ ∀ b ∈ send.bytes.drop (out.length + 1), b = 0 := by
  cases htext : send.text with
  | none =>
      have hnone : (0 : Byte) ∉ send.bytes := by
        intro hmem
        rw [CharArray.text, textOf_of_mem hmem] at htext
        cases htext
      constructor
      · rintro ⟨com', send', hgather, hbytes⟩
        by_cases hnil : out = []
        · -- nothing is appended, and the array had no NUL
          rw [hnil, gather_nil] at hgather
          have hsame : send = send' := congrArg Prod.snd (Option.some.inj hgather)
          rw [hsame, hbytes] at hnone
          exact absurd (zero_mem_padded hlen) hnone
        · rw [gather_of_text_none hsize hm com htext hnil] at hgather
          cases hgather
      · intro h
        exact absurd (List.mem_of_mem_head? h.1) hnone
  | some text =>
      obtain ⟨hfree, tail, hsend⟩ := CharArray.text_eq_some_iff.mp htext
      rw [gather_eq_padded_of_text hsize hm com hsend hfree hout hlen, hsend]
      cases text with
      | nil => simp
      | cons c text =>
          have hc : c ≠ 0 := (nulFree_cons.mp hfree).1
          simp [hc]

/-- The gather loop from a padded string: the longer string, padded, where that fits. -/
theorem gather_padded {size : ℕ} (hsize : 2 ≤ size) (hm : size ≤ m) (com : CharArray m)
    {send : CharArray n} {s : List Byte} (out : List Byte) (hsend : send.bytes = padded n s)
    (hs : NulFree s) (hlt : s.length < n) :
    (s.length + (gathered size out).length < n →
      ∃ com' send', gather size com send out = some (com', send') ∧
        send'.bytes = padded n (s ++ gathered size out)) ∧
    (n ≤ s.length + (gathered size out).length → gather size com send out = none) := by
  rw [padded_eq_append_zero hlt] at hsend
  obtain ⟨hfit, hover⟩ := gather_tail hsize hm com out hsend hs
  rw [List.length_replicate] at hfit hover
  constructor
  · intro h
    obtain ⟨com', send', hgather, hbytes⟩ := hfit (by omega)
    exact ⟨com', send', hgather, hbytes.trans (padded_append h)⟩
  · intro h
    exact hover (by omega)

end Calls

end SocketPrograms
