import SocketPrograms.Unp.InetPton
import Mathlib.Data.List.Chain

/-!
# Writing an address

`inet_ntop4` writes a dotted quad and `inet_ntop6` an IPv6 address, in which `::` stands for the
longest run of zero words. Both build the text in an array of their own and copy it where it fits.

## Main definitions

* `inet_ntop4`, `inet_ntop6` — the two writers.
* `bestRun` — the run of zero words that `::` stands for.
* `Text` — the text of an address.

## Main results

* `text_spec` — what the loops of `inet_ntop6` build is such a text.
* `longest_gap` — in what `inet_ntop6` writes, **`::` stands for the longest run**, and the first of
  these.
-/

namespace SocketPrograms.Unp.InetNtop

open InetPton

/-! ## The dotted quad -/

/-- `sprintf(tmp, "%u.%u.%u.%u", src[0], src[1], src[2], src[3])`. -/
def text4 (src : List Byte) : List Byte := [dot].intercalate (src.map fun b => numeral 10 b.toNat)

/-- `inet_ntop4(src, dst, size)`, which fails as the readers do. -/
def inet_ntop4 {n : ℕ} (src : CharArray 4) (dst : CharArray n) (size : ℕ) :
    Except Fault (CharArray n) :=
  let tmp := text4 src.bytes
  if tmp.length + 1 > 16 then .error .undefined
  else if tmp.length > size then .error .invalid
  else match dst.strcpy tmp with
    | some dst => .ok dst
    | none => .error .undefined

/-! ## The IPv6 address -/

/-- A run of words. -/
structure Run where
  base : ℕ
  len : ℕ
  deriving DecidableEq

/-- The bytes of the address, two to a word. -/
def words (src : List Byte) : List ℕ :=
  (List.range 16).foldl (fun ws i =>
    ws.modify (i / 2) fun w => w ||| (src[i]?.getD 0).toNat <<< ((1 - i % 2) <<< 3))
    (List.replicate 8 0)

/-- `if (best.base == -1 || cur.len > best.len) best = cur`. -/
def longer (best : Option Run) (cur : Run) : Option Run :=
  match best with
  | some r => if cur.len > r.len then some cur else some r
  | none => some cur

/-- The loop over the words, from index `i` on, and what follows it. -/
def scan : ℕ → List ℕ → Option Run → Option Run → Option Run
  | _, [], cur, best =>
      match cur with
      | some r => longer best r
      | none => best
  | i, w :: ws, cur, best =>
      if w = 0 then
        match cur with
        | some r => scan (i + 1) ws (some { r with len := r.len + 1 }) best
        | none => scan (i + 1) ws (some ⟨i, 1⟩) best
      else
        match cur with
        | some r => scan (i + 1) ws none (longer best r)
        | none => scan (i + 1) ws none best

/-- The run that `::` stands for, of two words at least. -/
def bestRun (ws : List ℕ) : Option Run := (scan 0 ws none none).filter fun r => 2 ≤ r.len

/-- `best.base != -1 && i >= best.base && i < (best.base + best.len)`. -/
def inside (best : Option Run) (i : ℕ) : Bool :=
  best.any fun r => r.base ≤ i && i < r.base + r.len

/-- `best.base == 0 && (best.len == 6 || (best.len == 5 && words[5] == 0xffff))`. -/
def encapsulated (best : Option Run) (ws : List ℕ) : Bool :=
  best.any fun r => r.base == 0 && (r.len == 6 || r.len == 5 && ws[5]? == some 0xffff)

/-- The loop that formats the words, from index `i` on; `tmp` is what is written so far. -/
def format (src : List Byte) (words : List ℕ) (best : Option Run) :
    ℕ → List ℕ → List Byte → Except Fault (List Byte)
  | _, [], tmp => .ok tmp
  | i, w :: ws, tmp =>
      if inside best i then
        format src words best (i + 1) ws
          (if (best.map Run.base) = some i then tmp ++ [colon] else tmp)
      else
        let tmp := if i ≠ 0 then tmp ++ [colon] else tmp
        if i = 6 ∧ encapsulated best words then
          -- `inet_ntop4` is given what is left of the array
          if (text4 (src.drop 12)).length > 46 - tmp.length then .error .invalid
          else .ok (tmp ++ text4 (src.drop 12))
        else format src words best (i + 1) ws (tmp ++ numeral 16 w)

/-- `inet_ntop6(src, dst, size)`. -/
def inet_ntop6 {n : ℕ} (src : CharArray 16) (dst : CharArray n) (size : ℕ) :
    Except Fault (CharArray n) := do
  let ws := words src.bytes
  let best := bestRun ws
  let text ← format src.bytes ws best 0 ws []
  let tmp := if best.any fun r => r.base + r.len = 8 then text ++ [colon] else text
  if tmp.length + 1 > 46 then .error .undefined
  else if tmp.length + 1 > size then .error .invalid
  else match dst.strcpy tmp with
    | some dst => .ok dst
    | none => .error .undefined

/-! ## The longest run -/

/-- The words of a run are zero. -/
structure ZeroRun (ws : List ℕ) (r : Run) : Prop where
  len_pos : 1 ≤ r.len
  end_le : r.base + r.len ≤ ws.length
  zero : ∀ k, r.base ≤ k → k < r.base + r.len → ws[k]? = some 0

/-- A run is longer than another, or as long and no later. -/
def Beats (r s : Run) : Prop := s.len < r.len ∨ s.len = r.len ∧ r.base ≤ s.base

/-- A run of two words at least that is the longest, and the first of the longest. -/
structure Longest (ws : List ℕ) (r : Run) : Prop where
  run : ZeroRun ws r
  two : 2 ≤ r.len
  beats : ∀ s, ZeroRun ws s → Beats r s

variable {ws : List ℕ} {i w : ℕ} {cur best : Option Run} {r b : Run}

theorem Beats.trans {t : Run} (h : Beats r b) (h' : Beats b t) : Beats r t := by
  simp only [Beats] at h h' ⊢
  omega

/-- What the loop has found in front of index `i`. -/
structure Found (ws : List ℕ) (i : ℕ) (cur best : Option Run) : Prop where
  cur_run : ∀ r, cur = some r → ZeroRun ws r ∧ r.base + r.len = i ∧
    ∀ j, j + 1 = r.base → ws[j]? ≠ some 0
  cur_none : cur = none → ∀ j, j + 1 = i → ws[j]? ≠ some 0
  best_run : ∀ b, best = some b → ZeroRun ws b ∧ b.base + b.len ≤ i
  before : ∀ b r, best = some b → cur = some r → b.base ≤ r.base
  covers : ∀ s, ZeroRun ws s → s.base + s.len ≤ i →
    (∃ b, best = some b ∧ Beats b s) ∨ ∃ r, cur = some r ∧ Beats r s

/-- The run that is kept beats both. -/
theorem longer_spec (hbefore : ∀ b, best = some b → b.base ≤ r.base) :
    ∃ t, longer best r = some t ∧ (t = r ∨ best = some t) ∧ Beats t r ∧
      ∀ b, best = some b → Beats t b := by
  cases best with
  | none => exact ⟨r, rfl, .inl rfl, .inr ⟨rfl, le_rfl⟩, by simp⟩
  | some b =>
      have hle := hbefore b rfl
      by_cases hlen : r.len > b.len
      · refine ⟨r, by rw [longer, if_pos hlen], .inl rfl, .inr ⟨rfl, le_rfl⟩, ?_⟩
        rintro b' ⟨⟩
        exact .inl hlen
      · refine ⟨b, by rw [longer, if_neg hlen], .inr rfl, ?_, ?_⟩
        · simp only [Beats]
          omega
        · rintro b' ⟨⟩
          exact .inr ⟨rfl, le_rfl⟩

/-- The run at hand ends: it is kept, or one that beats it. -/
theorem Found.longer (h : Found ws i (some r) best) :
    (∀ b, longer best r = some b → ZeroRun ws b ∧ b.base + b.len ≤ i) ∧
      ∀ s, ZeroRun ws s → s.base + s.len ≤ i →
        ∃ b, InetNtop.longer best r = some b ∧ Beats b s := by
  obtain ⟨t, ht, hfrom, hbeats, hbest⟩ := longer_spec fun b hb => h.before b r hb rfl
  obtain ⟨hrun, hend, _⟩ := h.cur_run r rfl
  rw [ht]
  constructor
  · rintro b ⟨⟩
    rcases hfrom with rfl | hb
    · exact ⟨hrun, le_of_eq hend⟩
    · exact h.best_run _ hb
  · intro s hs hle
    rcases h.covers s hs hle with ⟨b, hb, hbs⟩ | ⟨_, ⟨⟩, hrs⟩
    · exact ⟨t, rfl, (hbest b hb).trans hbs⟩
    · exact ⟨t, rfl, hbeats.trans hrs⟩

/-- A run that ends behind a word is that of the word in front, and the word. -/
theorem ZeroRun.base_ge {s : Run} (hs : ZeroRun ws s) (hend : s.base + s.len = i + 1) {k : ℕ}
    (hk : k ≤ i) (hlast : ∀ j, j + 1 = k → ws[j]? ≠ some 0) : k ≤ s.base := by
  by_contra hlt
  obtain ⟨j, hj⟩ : ∃ j, j + 1 = k := ⟨k - 1, by omega⟩
  exact hlast j hj (hs.zero j (by omega) (by omega))

/-- A word that is zero goes to the run at hand. -/
theorem Found.zero (h : Found ws i cur best) (hw : ws[i]? = some 0) :
    Found ws (i + 1)
      (match cur with
        | some r => some { r with len := r.len + 1 }
        | none => some ⟨i, 1⟩) best := by
  have hlt : i < ws.length := (List.getElem?_eq_some_iff.mp hw).1
  cases cur with
  | none =>
      have hlast := h.cur_none rfl
      refine ⟨?_, by simp, fun b hb => ⟨(h.best_run b hb).1, by have := (h.best_run b hb).2; omega⟩,
        ?_, ?_⟩
      · rintro r ⟨⟩
        refine ⟨⟨le_rfl, hlt, fun k hk hk' => ?_⟩, rfl, hlast⟩
        obtain rfl : k = i := by dsimp only at hk hk'; omega
        exact hw
      · rintro b r hb ⟨⟩
        have hle := (h.best_run b hb).2
        dsimp only
        omega
      · intro s hs hle
        by_cases hend : s.base + s.len = i + 1
        · have hbase := hs.base_ge hend le_rfl hlast
          have hpos := hs.len_pos
          refine .inr ⟨_, rfl, ?_⟩
          simp only [Beats]
          omega
        · rcases h.covers s hs (by omega) with hbest | ⟨_, ⟨⟩, _⟩
          exact .inl hbest
  | some r =>
      obtain ⟨hrun, hend, hlast⟩ := h.cur_run r rfl
      refine ⟨?_, by simp, fun b hb => ⟨(h.best_run b hb).1, by have := (h.best_run b hb).2; omega⟩,
        ?_, ?_⟩
      · rintro r' ⟨⟩
        refine ⟨⟨by simp, by dsimp only; omega, fun k hk hk' => ?_⟩, by dsimp only; omega, hlast⟩
        by_cases hki : k = i
        · rw [hki, hw]
        · exact hrun.zero k hk (by dsimp only at hk'; omega)
      · rintro b r' hb ⟨⟩
        exact h.before b r hb rfl
      · intro s hs hle
        by_cases hends : s.base + s.len = i + 1
        · have hbase := hs.base_ge (k := r.base) hends (by omega) hlast
          refine .inr ⟨_, rfl, ?_⟩
          simp only [Beats]
          omega
        · rcases h.covers s hs (by omega) with hbest | ⟨_, ⟨⟩, hrs⟩
          · exact .inl hbest
          · refine .inr ⟨_, rfl, ?_⟩
            simp only [Beats] at hrs ⊢
            omega

/-- A word that is not zero ends it. -/
theorem Found.nonzero (h : Found ws i cur best) (hw : ws[i]? ≠ some 0) :
    Found ws (i + 1) none
      (match cur with
        | some r => InetNtop.longer best r
        | none => best) := by
  have hlast : ∀ j, j + 1 = i + 1 → ws[j]? ≠ some 0 := by
    rintro j hj
    obtain rfl : j = i := by omega
    exact hw
  have hshort : ∀ s, ZeroRun ws s → s.base + s.len ≤ i + 1 → s.base + s.len ≤ i := by
    intro s hs hle
    by_contra hend
    have hpos := hs.len_pos
    exact hw (hs.zero i (by omega) (by omega))
  cases cur with
  | none =>
      refine ⟨by simp, fun _ => hlast, fun b hb => ?_, by simp, fun s hs hle => ?_⟩
      · obtain ⟨hb, hle⟩ := h.best_run b hb
        exact ⟨hb, by omega⟩
      · rcases h.covers s hs (hshort s hs hle) with hbest | ⟨_, ⟨⟩, _⟩
        exact .inl hbest
  | some r =>
      obtain ⟨hrun, hcovers⟩ := h.longer
      refine ⟨by simp, fun _ => hlast, fun b hb => ?_, by simp, fun s hs hle => ?_⟩
      · obtain ⟨hb, hle⟩ := hrun b hb
        exact ⟨hb, by omega⟩
      · exact .inl (hcovers s hs (hshort s hs hle))

theorem scan_spec (rest : List ℕ) (hrest : ws.drop i = rest) (h : Found ws i cur best) :
    (∀ b, scan i rest cur best = some b → ZeroRun ws b) ∧
      ∀ s, ZeroRun ws s → ∃ b, scan i rest cur best = some b ∧ Beats b s := by
  induction rest generalizing i cur best with
  | nil =>
      have hall : ws.length ≤ i := List.drop_eq_nil_iff.mp hrest
      cases cur with
      | none =>
          refine ⟨fun b hb => (h.best_run b hb).1, fun s hs => ?_⟩
          rcases h.covers s hs (le_trans hs.end_le hall) with hbest | ⟨_, ⟨⟩, _⟩
          exact hbest
      | some r =>
          obtain ⟨hrun, hcovers⟩ := h.longer
          exact ⟨fun b hb => (hrun b hb).1, fun s hs => hcovers s hs (le_trans hs.end_le hall)⟩
  | cons w rest ih =>
      have hlt : i < ws.length := by
        by_contra hge
        rw [List.drop_eq_nil_of_le (by omega)] at hrest
        cases hrest
      have hsplit := List.drop_eq_getElem_cons hlt
      rw [hrest, List.cons.injEq] at hsplit
      have hget : ws[i]? = some w := by rw [List.getElem?_eq_getElem hlt, hsplit.1]
      rw [scan.eq_def]
      dsimp only
      by_cases hw : w = 0
      · rw [if_pos hw]
        have hfound := h.zero (by rw [hget, hw])
        cases cur with
        | none => exact ih hsplit.2.symm hfound
        | some r => exact ih hsplit.2.symm hfound
      · rw [if_neg hw]
        have hfound := h.nonzero (by rw [hget]; simpa using hw)
        cases cur with
        | none => exact ih hsplit.2.symm hfound
        | some r => exact ih hsplit.2.symm hfound

theorem found_start (ws : List ℕ) : Found ws 0 none none := by
  refine ⟨by simp, fun _ j hj => by omega, by simp, by simp, fun s hs hle => ?_⟩
  have hpos := hs.len_pos
  omega

/-- The loop finds the longest run. -/
theorem bestRun_spec (ws : List ℕ) :
    (∀ r, bestRun ws = some r → Longest ws r) ∧
      (bestRun ws = none → ∀ s, ZeroRun ws s → s.len = 1) := by
  obtain ⟨hrun, hcovers⟩ := scan_spec ws rfl (found_start ws)
  constructor
  · intro r hr
    obtain ⟨hscan, hlen⟩ := Option.filter_eq_some_iff.mp hr
    refine ⟨hrun r hscan, by simpa using hlen, fun s hs => ?_⟩
    obtain ⟨b, hb, hbeats⟩ := hcovers s hs
    obtain rfl : r = b := Option.some.inj (hscan.symm.trans hb)
    exact hbeats
  · intro hnone s hs
    obtain ⟨b, hb, hbeats⟩ := hcovers s hs
    have hshort := Option.filter_eq_none_iff.mp hnone b hb
    have hpos := hs.len_pos
    simp only [Beats, decide_eq_true_eq] at hbeats hshort
    omega

/-! ## The text -/

/-- Words, each with a colon behind it. -/
def trailed (ws : List ℕ) : List Byte := ws.flatMap fun w => numeral 16 w ++ [colon]

/-- Words, each with a colon in front of it. -/
def led (ws : List ℕ) : List Byte := ws.flatMap fun w => colon :: numeral 16 w

/-- Words with colons in between. -/
def joined : List ℕ → List Byte
  | [] => []
  | w :: ws => numeral 16 w ++ led ws

theorem joined_append_colon (w : ℕ) (ws : List ℕ) :
    joined (w :: ws) ++ [colon] = trailed (w :: ws) := by
  induction ws generalizing w with
  | nil => simp [joined, led, trailed]
  | cons v ws ih =>
      have hled : joined (w :: v :: ws) = numeral 16 w ++ colon :: joined (v :: ws) := by
        simp [joined, led]
      have hterm : trailed (w :: v :: ws) = numeral 16 w ++ colon :: trailed (v :: ws) := by
        simp [trailed]
      rw [hled, hterm, ← ih v, List.append_assoc, List.cons_append]

/-- What the loop writes for the word at index `i`, where it holds no IPv4 address. -/
def piece (best : Option Run) (i w : ℕ) : List Byte :=
  if inside best i then (if best.map Run.base = some i then [colon] else [])
  else (if i ≠ 0 then [colon] else []) ++ numeral 16 w

/-- What the loop writes from index `i` on. -/
def pieces (best : Option Run) : ℕ → List ℕ → List Byte
  | _, [] => []
  | i, w :: ws => piece best i w ++ pieces best (i + 1) ws

theorem pieces_append (best : Option Run) (i : ℕ) (us vs : List ℕ) :
    pieces best i (us ++ vs) = pieces best i us ++ pieces best (i + us.length) vs := by
  induction us generalizing i with
  | nil => rfl
  | cons u us ih =>
      rw [List.cons_append, pieces, pieces, ih, List.append_assoc, List.length_cons,
        Nat.add_assoc i 1, Nat.add_comm 1]

/-- Outside of the run, the words are written. -/
theorem pieces_outside {ws : List ℕ} (hi : i ≠ 0)
    (hout : ∀ k, i ≤ k → k < i + ws.length → inside best k = false) :
    pieces best i ws = led ws := by
  induction ws generalizing i with
  | nil => rfl
  | cons w ws ih =>
      rw [List.length_cons] at hout
      rw [pieces, ih (Nat.succ_ne_zero i) fun k hk hk' => hout k (by omega) (by omega), piece,
        hout i le_rfl (by omega), if_neg (by simp), if_pos hi]
      rfl

/-- The words in front. -/
theorem pieces_front {ws : List ℕ} (hout : ∀ k < ws.length, inside best k = false) :
    pieces best 0 ws = joined ws := by
  cases ws with
  | nil => rfl
  | cons w ws =>
      rw [List.length_cons] at hout
      rw [pieces, pieces_outside (by simp) fun k _ hk => hout k (by omega), piece,
        hout 0 (by omega)]
      simp [joined]

/-- In the run, a colon is written at its first word. -/
theorem pieces_inside {ws : List ℕ} (hne : ws ≠ [])
    (hin : ∀ k, r.base ≤ k → k < r.base + ws.length → inside (some r) k = true) :
    pieces (some r) r.base ws = [colon] := by
  have hrest : ∀ {us : List ℕ} {i : ℕ}, r.base < i →
      (∀ k, i ≤ k → k < i + us.length → inside (some r) k = true) →
        pieces (some r) i us = [] := by
    intro us
    induction us with
    | nil => intro i _ _; rfl
    | cons u us ih =>
        intro i hi hin
        rw [List.length_cons] at hin
        have hbase : (some r).map Run.base ≠ some i := by
          simp only [Option.map_some, ne_eq, Option.some.injEq]
          omega
        rw [pieces, ih (by omega) fun k hk hk' => hin k (by omega) (by omega), piece,
          hin i le_rfl (by omega), if_pos rfl, if_neg hbase]
        rfl
  cases ws with
  | nil => exact absurd rfl hne
  | cons w ws =>
      rw [List.length_cons] at hin
      rw [pieces, hrest (by omega) fun k hk hk' => hin k (by omega) (by omega), piece,
        hin _ le_rfl (by omega)]
      simp

/-- The loop writes its pieces, up to an IPv4 address. -/
theorem format_append {src : List Byte} {all : List ℕ} (us vs : List ℕ) (tmp : List Byte)
    (h : encapsulated best all = false ∨ i + us.length ≤ 6) :
    format src all best i (us ++ vs) tmp =
      format src all best (i + us.length) vs (tmp ++ pieces best i us) := by
  induction us generalizing i tmp with
  | nil => simp [pieces]
  | cons u us ih =>
      rw [List.length_cons] at h
      have hnext : encapsulated best all = false ∨ i + 1 + us.length ≤ 6 := by
        exact h.imp_right fun h => by omega
      have hplain : ¬(i = 6 ∧ encapsulated best all = true) := by
        rintro ⟨hi, henc⟩
        rcases h with h | h
        · rw [h] at henc
          cases henc
        · omega
      have hlen : i + (us.length + 1) = i + 1 + us.length := by omega
      rw [List.cons_append, format, pieces, piece, List.length_cons, hlen]
      by_cases hin : inside best i
      · rw [if_pos hin, if_pos hin, ih _ hnext]
        split <;> simp
      · rw [if_neg hin, if_neg hin, if_neg hplain, ih _ hnext]
        split <;> simp

theorem format_pieces {src : List Byte} {all : List ℕ} (ws : List ℕ)
    (h : encapsulated best all = false) :
    format src all best 0 ws [] = .ok (pieces best 0 ws) := by
  have happ : format src all best 0 (ws ++ []) [] =
      format src all best (0 + ws.length) [] ([] ++ pieces best 0 ws) :=
    format_append ws [] [] (.inl h)
  rw [List.append_nil] at happ
  rw [happ]
  rfl

/-- A quad is written in fifteen bytes. -/
theorem length_text4_le {src : List Byte} (hsrc : src.length = 4) : (text4 src).length ≤ 15 := by
  have hdigits : ∀ b : Byte, (numeral 10 b.toNat).length ≤ 3 := fun b =>
    length_numeral_le (by decide) (by decide) (lt_trans b.toNat_lt (by decide))
  match src, hsrc with
  | [a, b, c, d], _ =>
      have ha := hdigits a
      have hb := hdigits b
      have hc := hdigits c
      have hd := hdigits d
      simp [text4, List.intercalate]
      omega

/-- A text with `::`, and this behind it. -/
def gapped (front : List ℕ) (tail : List Byte) : List Byte :=
  (if front = [] then [colon] else trailed front) ++ colon :: tail

/-- The text of an address: no `::`, where no two zeros are adjacent; or `::` for the longest run of
zeros; or the same in front of an IPv4 address. -/
inductive Text (src : List Byte) (ws : List ℕ) : List Byte → Prop
  | plain (hr : ∀ r, ZeroRun ws r → r.len = 1) : Text src ws (joined ws)
  | gap (front back : List ℕ) (k : ℕ) (hr : Longest ws ⟨front.length, k⟩)
      (hout : encapsulated (some ⟨front.length, k⟩) ws = false)
      (hws : ws = front ++ (List.replicate k 0 ++ back)) :
      Text src ws (gapped front (joined back))
  | quad (vs rest : List ℕ) (k : ℕ) (hr : Longest ws ⟨0, k⟩) (hk : 5 ≤ k) (hlen : k + vs.length = 6)
      (hvs : ∀ v ∈ vs, v = 0xffff) (hws : ws = List.replicate k 0 ++ (vs ++ rest)) :
      Text src ws (gapped [] (trailed vs ++ text4 (src.drop 12)))

theorem ZeroRun.split (h : ZeroRun ws r) :
    ws = ws.take r.base ++ (List.replicate r.len 0 ++ ws.drop (r.base + r.len)) := by
  have hend := h.end_le
  have hrun : (ws.drop r.base).take r.len = List.replicate r.len 0 := by
    refine List.eq_replicate_iff.mpr ⟨by simp; omega, fun w hw => ?_⟩
    obtain ⟨k, hk, rfl⟩ := List.mem_iff_getElem.mp hw
    rw [List.length_take, List.length_drop] at hk
    have hzero := h.zero (r.base + k) (by omega) (by omega)
    rw [List.getElem_take, List.getElem_drop]
    exact (List.getElem?_eq_some_iff.mp hzero).2
  rw [← hrun, ← List.drop_drop, List.take_append_drop, List.take_append_drop]

theorem inside_eq (k : ℕ) :
    inside (some r) k = (decide (r.base ≤ k) && decide (k < r.base + r.len)) := rfl

/-- The text with a run, as the loop writes it. -/
theorem pieces_run (h : ZeroRun ws r) :
    pieces (some r) 0 ws =
      joined (ws.take r.base) ++ ([colon] ++ led (ws.drop (r.base + r.len))) := by
  have hpos := h.len_pos
  have hend := h.end_le
  have hfront : (ws.take r.base).length = r.base := by
    rw [List.length_take]
    omega
  have hne : List.replicate r.len 0 ≠ [] := by
    rw [ne_eq, List.replicate_eq_nil_iff]
    omega
  rw [h.split, pieces_append, pieces_append, hfront, Nat.zero_add, List.length_replicate,
    ← h.split]
  rw [pieces_front fun k hk => by rw [inside_eq]; simp; omega,
    pieces_inside hne fun k hk hk' => by
      rw [List.length_replicate] at hk'
      rw [inside_eq]
      simp
      omega,
    pieces_outside (by omega) fun k hk _ => by rw [inside_eq]; simp; omega]

/-- A colon behind the last word, where the run is the end. -/
theorem gapped_eq (front back : List ℕ) :
    joined front ++ ([colon] ++ led back) ++ (if back = [] then [colon] else []) =
      gapped front (joined back) := by
  have hback : led back ++ (if back = [] then [colon] else []) = colon :: joined back := by
    cases back with
    | nil => rfl
    | cons w ws => simp [led, joined]
  have hassoc : joined front ++ ([colon] ++ led back) ++ (if back = [] then [colon] else []) =
      joined front ++ [colon] ++ (led back ++ (if back = [] then [colon] else [])) := by simp
  rw [hassoc, hback, gapped]
  cases front with
  | nil => rfl
  | cons w ws => rw [joined_append_colon, if_neg (by simp)]

theorem led_append_colon (ws : List ℕ) : led ws ++ [colon] = colon :: trailed ws := by
  cases ws with
  | nil => rfl
  | cons w ws =>
      rw [← joined_append_colon]
      simp [led, joined]

/-- A word is written in four digits. -/
theorem length_led_le {ws : List ℕ} (hws : ∀ w ∈ ws, w < 65536) :
    (led ws).length ≤ 5 * ws.length := by
  induction ws with
  | nil => simp [led]
  | cons w ws ih =>
      obtain ⟨hw, hws⟩ := List.forall_mem_cons.mp hws
      have hfour : (numeral 16 w).length ≤ 4 := length_numeral_le (by decide) (by decide) hw
      have hled : led (w :: ws) = colon :: numeral 16 w ++ led ws := by simp [led]
      have hrest := ih hws
      rw [hled, List.length_append, List.length_cons, List.length_cons]
      omega

/-- The text with an IPv4 address behind `k` words of zeros, and other words. -/
theorem format_quad {src : List Byte} {vs rest : List ℕ} {k : ℕ} (hsrc : src.length = 16)
    (hpos : 1 ≤ k) (hk : k + vs.length = 6) (hvs : ∀ v ∈ vs, v < 65536)
    (henc : encapsulated (some ⟨0, k⟩) ws = true)
    (hws : ws = List.replicate k 0 ++ (vs ++ w :: rest)) :
    format src ws (some ⟨0, k⟩) 0 ws [] =
      .ok (gapped [] (trailed vs ++ text4 (src.drop 12))) := by
  have hsix : (List.replicate k 0 ++ vs).length = 6 := by
    rw [List.length_append, List.length_replicate, hk]
  have hne : List.replicate k 0 ≠ [] := by
    rw [ne_eq, List.replicate_eq_nil_iff]
    omega
  have hpieces : pieces (some ⟨0, k⟩) 0 (List.replicate k 0 ++ vs) = colon :: led vs := by
    have hin := pieces_inside (r := ⟨0, k⟩) hne fun j _ hj => by
      rw [List.length_replicate] at hj
      rw [inside_eq]
      simpa using hj
    rw [pieces_append, hin, List.length_replicate,
      pieces_outside (by omega) fun j hj _ => by rw [inside_eq]; simp; omega]
    rfl
  have hquad : (text4 (src.drop 12)).length ≤ 15 :=
    length_text4_le (by rw [List.length_drop, hsrc])
  have hled := length_led_le hvs
  have houtside : ¬inside (some ⟨0, k⟩) 6 = true := by
    rw [inside_eq]
    simp
    omega
  have hsplit : format src ws (some ⟨0, k⟩) 0 ws [] =
      format src ws (some ⟨0, k⟩) 6 (w :: rest) (colon :: led vs) := by
    have happ : format src ws (some ⟨0, k⟩) 0 (List.replicate k 0 ++ vs ++ w :: rest) [] =
        format src ws (some ⟨0, k⟩) (0 + (List.replicate k 0 ++ vs).length) (w :: rest)
          ([] ++ pieces (some ⟨0, k⟩) 0 (List.replicate k 0 ++ vs)) :=
      format_append _ _ _ (.inr (by rw [hsix]))
    rw [hsix, hpieces, Nat.zero_add, List.nil_append, List.append_assoc, ← hws] at happ
    exact happ
  have htext : colon :: led vs ++ [colon] ++ text4 (src.drop 12) =
      gapped [] (trailed vs ++ text4 (src.drop 12)) := by
    rw [List.cons_append, led_append_colon]
    rfl
  have hroom : ¬(text4 (src.drop 12)).length > 46 - (colon :: led vs ++ [colon]).length := by
    simp only [List.length_append, List.length_cons, List.length_nil]
    omega
  rw [hsplit, format, if_neg houtside, if_pos ⟨rfl, henc⟩,
    if_pos (show (6 : ℕ) ≠ 0 by decide), if_neg hroom, htext]

/-- **The text of an address.** -/
theorem text_spec (src : List Byte) (hsrc : src.length = 16) (hlen : ws.length = 8) :
    ∃ text tmp, format src ws (bestRun ws) 0 ws [] = .ok text ∧
      (if (bestRun ws).any fun r => r.base + r.len = 8 then text ++ [colon] else text) = tmp ∧
        Text src ws tmp := by
  cases hbest : bestRun ws with
  | none =>
      refine ⟨_, _, format_pieces ws rfl, rfl, ?_⟩
      rw [pieces_front fun k _ => rfl]
      exact .plain ((bestRun_spec ws).2 hbest)
  | some r =>
      have hlongest := (bestRun_spec ws).1 r hbest
      have hrun := hlongest.run
      have hend := hrun.end_le
      cases henc : encapsulated (some r) ws with
      | false =>
          refine ⟨_, _, format_pieces ws henc, rfl, ?_⟩
          have hback : ws.drop (r.base + r.len) = [] ↔ r.base + r.len = 8 := by
            rw [List.drop_eq_nil_iff]
            omega
          have htext : (if (some r).any fun r => r.base + r.len = 8 then
              pieces (some r) 0 ws ++ [colon] else pieces (some r) 0 ws) =
                gapped (ws.take r.base) (joined (ws.drop (r.base + r.len))) := by
            rw [pieces_run hrun, ← gapped_eq]
            by_cases hall : r.base + r.len = 8
            · rw [if_pos (by simpa using hall), if_pos (hback.mpr hall)]
            · rw [if_neg (by simpa using hall), if_neg fun hnil => hall (hback.mp hnil),
                List.append_nil]
          have hfront : (ws.take r.base).length = r.base := by
            rw [List.length_take]
            omega
          rw [htext]
          exact .gap _ _ r.len (by rwa [hfront]) (by rwa [hfront]) hrun.split
      | true =>
          obtain ⟨base, len⟩ := r
          simp only [encapsulated, Option.any_some, Bool.and_eq_true, Bool.or_eq_true,
            beq_iff_eq] at henc
          obtain ⟨rfl, hcase⟩ := henc
          have hall := hrun.split
          dsimp only at hall hend
          rw [List.take_zero, List.nil_append, Nat.zero_add] at hall
          obtain ⟨vs, w, rest, hvs, hk, hrest⟩ : ∃ vs w rest, (∀ v ∈ vs, v = 0xffff) ∧
              len + vs.length = 6 ∧ ws.drop len = vs ++ w :: rest := by
            obtain ⟨w, rest, hlast⟩ : ∃ w rest, ws.drop 6 = w :: rest := by
              refine List.exists_cons_of_ne_nil ?_
              rw [ne_eq, List.drop_eq_nil_iff]
              omega
            rcases hcase with rfl | ⟨rfl, hword⟩
            · exact ⟨[], w, rest, by simp, rfl, hlast⟩
            · obtain ⟨hlt, hget⟩ := List.getElem?_eq_some_iff.mp hword
              exact ⟨[0xffff], w, rest, by simp, rfl, by
                rw [List.drop_eq_getElem_cons hlt, hget, hlast]; rfl⟩
          have hlt : ∀ v ∈ vs, v < 65536 := fun v hv => by rw [hvs v hv]; decide
          have hfive : 5 ≤ len := by omega
          rw [hrest] at hall
          refine ⟨_, _, format_quad hsrc (by omega) hk hlt ?_ hall, ?_,
            .quad vs _ len hlongest hfive hk hvs hall⟩
          · simpa [encapsulated] using hcase
          · rw [if_neg (by simp; omega)]

theorem length_trailed_le (hws : ∀ w ∈ ws, w < 65536) :
    (trailed ws).length ≤ 5 * ws.length := by
  have hlen := congrArg List.length (led_append_colon ws)
  simp only [List.length_append, List.length_cons, List.length_nil] at hlen
  have hled := length_led_le hws
  omega

theorem length_joined_le (hws : ∀ w ∈ ws, w < 65536) : (joined ws).length ≤ 5 * ws.length := by
  cases ws with
  | nil => exact Nat.zero_le _
  | cons w ws =>
      have hterm := length_trailed_le hws
      rw [← joined_append_colon, List.length_append, List.length_singleton] at hterm
      omega

/-- An address is written in 45 bytes. -/
theorem Text.length_le {src tmp : List Byte} (h : Text src ws tmp) (hsrc : src.length = 16)
    (hlen : ws.length = 8) (hws : ∀ w ∈ ws, w < 65536) : tmp.length ≤ 45 := by
  cases h with
  | plain =>
      have hle := length_joined_le hws
      omega
  | gap front back k hr hout hall =>
      have hk := hr.two
      dsimp only at hk
      rw [hall] at hws hlen
      simp only [List.length_append, List.length_replicate] at hlen
      have hfront : (trailed front).length ≤ 5 * front.length :=
        length_trailed_le fun w hw => hws w (by simp [hw])
      have hback : (joined back).length ≤ 5 * back.length :=
        length_joined_le fun w hw => hws w (by simp [hw])
      rw [gapped]
      split <;> simp only [List.length_append, List.length_cons, List.length_nil] <;> omega
  | quad vs rest k hr hk hsix hvs hall =>
      have hlt : ∀ v ∈ vs, v < 65536 := fun v hv => by rw [hvs v hv]; decide
      have hterm := length_trailed_le hlt
      have hquad : (text4 (src.drop 12)).length ≤ 15 :=
        length_text4_le (by rw [List.length_drop, hsrc])
      rw [gapped, if_pos rfl]
      simp only [List.length_append, List.length_cons, List.length_nil]
      omega

/-! ## Bytes and words -/

/-- The two bytes of each word. -/
def bytesOf (ws : List ℕ) : List Byte := ws.flatMap fun w => [(w >>> 8).toUInt8, w.toUInt8]

@[simp] theorem bytesOf_append (us vs : List ℕ) : bytesOf (us ++ vs) = bytesOf us ++ bytesOf vs :=
  List.flatMap_append

@[simp] theorem length_bytesOf (ws : List ℕ) : (bytesOf ws).length = 2 * ws.length := by
  induction ws with
  | nil => rfl
  | cons w ws ih =>
      have hcons : bytesOf (w :: ws) = [(w >>> 8).toUInt8, w.toUInt8] ++ bytesOf ws := rfl
      rw [hcons, List.length_append, ih, List.length_cons, List.length_cons, List.length_cons,
        List.length_nil]
      omega

theorem bytesOf_replicate_zero (k : ℕ) :
    bytesOf (List.replicate k 0) = List.replicate (2 * k) 0 := by
  induction k with
  | zero => rfl
  | succ k ih =>
      have hcons : bytesOf (0 :: List.replicate k 0) = [0, 0] ++ bytesOf (List.replicate k 0) := rfl
      rw [List.replicate_succ, hcons, ih, Nat.mul_succ, Nat.add_comm,
        ← List.replicate_append_replicate]
      rfl

/-- The word of two bytes. -/
theorem word_eq (a b : Byte) : a.toNat <<< 8 ||| b.toNat = a.toNat * 256 + b.toNat := by
  rw [← Nat.shiftLeft_add_eq_or_of_lt b.toNat_lt, Nat.shiftLeft_eq]

/-- The bytes of a word. -/
theorem bytes_word (a b : Byte) :
    ((a.toNat * 256 + b.toNat) >>> 8).toUInt8 = a ∧ (a.toNat * 256 + b.toNat).toUInt8 = b := by
  have ha := a.toNat_lt
  have hb := b.toNat_lt
  rw [Nat.shiftRight_eq_div_pow]
  constructor
  · apply UInt8.toNat_inj.mp
    rw [UInt8.toNat_ofNat']
    omega
  · apply UInt8.toNat_inj.mp
    rw [UInt8.toNat_ofNat']
    omega

theorem words_spec {src : List Byte} (hsrc : src.length = 16) :
    (words src).length = 8 ∧ (∀ w ∈ words src, w < 65536) ∧ bytesOf (words src) = src := by
  have hlt : ∀ a b : Byte, a.toNat * 256 + b.toNat < 65536 := fun a b => by
    have ha := a.toNat_lt
    have hb := b.toNat_lt
    omega
  match src, hsrc with
  | [a, b, c, d, e, f, g, h, i, j, k, l, m, n, o, p], _ =>
      have hwords : words [a, b, c, d, e, f, g, h, i, j, k, l, m, n, o, p] =
          [a.toNat * 256 + b.toNat, c.toNat * 256 + d.toNat, e.toNat * 256 + f.toNat,
            g.toNat * 256 + h.toNat, i.toNat * 256 + j.toNat, k.toNat * 256 + l.toNat,
            m.toNat * 256 + n.toNat, o.toNat * 256 + p.toNat] := by
        simp [words, List.range, List.range.loop, word_eq]
      rw [hwords]
      refine ⟨rfl, by simp only [List.forall_mem_cons, hlt]; simp, ?_⟩
      simp only [bytesOf, List.flatMap_cons, List.flatMap_nil, bytes_word]
      rfl

/-! ## What is written -/

theorem xdigit_digitByte : ∀ d < 16, xdigit (digitByte d) = some d := by decide

/-- A character that is no hexadecimal digit is not in a number. -/
theorem ne_of_mem_numeral {b : ℕ} (hb : 1 < b) (hle : b ≤ 16) {k : ℕ} {c c' : Byte}
    (hc : c ∈ numeral b k) (hc' : xdigit c' = none) : c ≠ c' := by
  have hlook : ∀ d < b, xdigit (digitByte d) = some d := fun d hd =>
    xdigit_digitByte d (lt_of_lt_of_le hd hle)
  obtain ⟨d, _, _, hd⟩ := look_of_mem hb hlook k c hc
  rintro rfl
  rw [hc'] at hd
  cases hd

theorem ne_colon_of_mem {w : ℕ} {c : Byte} (hc : c ∈ numeral 16 w) : c ≠ colon :=
  ne_of_mem_numeral (by decide) (by decide) hc (by decide)

theorem nulFree_numeral {b : ℕ} (hb : 1 < b) (hle : b ≤ 16) (k : ℕ) : NulFree (numeral b k) :=
  fun hzero => ne_of_mem_numeral hb hle hzero (by decide) rfl

theorem nulFree_text4 {src : List Byte} (hsrc : src.length = 4) : NulFree (text4 src) := by
  have hfree : ∀ b : Byte, NulFree (numeral 10 b.toNat) := fun b =>
    nulFree_numeral (by decide) (by decide) _
  have hdot : dot ≠ 0 := by decide
  match src, hsrc with
  | [a, b, c, d], _ => simp [text4, List.intercalate, hfree, hdot]

theorem nulFree_flatMap {f : ℕ → List Byte} (hf : ∀ w, NulFree (f w)) (ws : List ℕ) :
    NulFree (ws.flatMap f) := by
  intro hzero
  obtain ⟨w, _, hw⟩ := List.mem_flatMap.mp hzero
  exact hf w hw

/-- The text is a string. -/
theorem Text.nulFree {src tmp : List Byte} (h : Text src ws tmp) (hsrc : src.length = 16) :
    NulFree tmp := by
  have hcolon : colon ≠ 0 := by decide
  have hword : ∀ w, NulFree (numeral 16 w) := fun w =>
    nulFree_numeral (by decide) (by decide) w
  have hled : ∀ ws, NulFree (led ws) := nulFree_flatMap fun w => by simp [hcolon, hword]
  have hterm : ∀ ws, NulFree (trailed ws) := nulFree_flatMap fun w => by simp [hcolon, hword]
  have hjoined : ∀ ws, NulFree (joined ws) := fun ws => by
    cases ws with
    | nil => exact nulFree_nil
    | cons w ws => simp [joined, hword, hled]
  have hgapped : ∀ front tail, NulFree tail → NulFree (gapped front tail) := fun front tail ht => by
    rw [gapped]
    split <;> simp [hcolon, hterm, ht]
  cases h with
  | plain => exact hjoined ws
  | gap front back k hr hout hws => exact hgapped _ _ (hjoined back)
  | quad vs rest k hr hk hsix hvs hws =>
      have hquad : NulFree (text4 (src.drop 12)) := nulFree_text4 (by rw [List.length_drop, hsrc])
      exact hgapped _ _ (nulFree_append.mpr ⟨hterm vs, hquad⟩)

/-- Of two adjacent characters, one is no colon. -/
def Apart (a b : Byte) : Prop := a = colon → b ≠ colon

theorem isChain_numeral (w : ℕ) : (numeral 16 w).IsChain Apart := by
  have hall : (numeral 16 w).Pairwise Apart :=
    List.pairwise_of_forall_mem_list fun _ ha _ _ heq => absurd heq (ne_colon_of_mem ha)
  exact hall.isChain

/-- A word, and others behind colons. -/
theorem isChain_led (w : ℕ) (ws : List ℕ) : (numeral 16 w ++ led ws).IsChain Apart := by
  induction ws generalizing w with
  | nil => simpa [led] using isChain_numeral w
  | cons v ws ih =>
      have hled : led (v :: ws) = colon :: (numeral 16 v ++ led ws) := by simp [led]
      rw [hled, List.isChain_append, List.isChain_cons]
      refine ⟨isChain_numeral w, ⟨fun b hb _ => ?_, ih v⟩, fun a ha b _ heq => ?_⟩
      · rw [List.head?_append_of_ne_nil _ numeral_ne_nil] at hb
        exact ne_colon_of_mem (List.mem_of_mem_head? hb)
      · exact absurd heq (ne_colon_of_mem (List.mem_of_mem_getLast? ha))

/-- Words with single colons in between. -/
theorem no_gap_joined (ws : List ℕ) : ¬[colon, colon] <:+: joined ws := by
  rintro ⟨us, vs, heq⟩
  have hchain : (joined ws).IsChain Apart := by
    cases ws with
    | nil => exact .nil
    | cons w ws => exact isChain_led w ws
  rw [← heq] at hchain
  exact List.isChain_pair.mp hchain.left_of_append.right_of_append rfl rfl

theorem gap_gapped (front : List ℕ) (tail : List Byte) : [colon, colon] <:+: gapped front tail := by
  cases front with
  | nil => exact ⟨[], tail, rfl⟩
  | cons w ws =>
      refine ⟨joined (w :: ws), tail, ?_⟩
      rw [gapped, if_neg (List.cons_ne_nil w ws), ← joined_append_colon]
      simp

/-- `::` is written for a run of two words. -/
theorem Text.gap_iff {src tmp : List Byte} (h : Text src ws tmp) :
    [colon, colon] <:+: tmp ↔ ∃ r, ZeroRun ws r ∧ 2 ≤ r.len := by
  cases h with
  | plain hr =>
      refine ⟨fun hgap => absurd hgap (no_gap_joined ws), fun ⟨r, hrun, htwo⟩ => ?_⟩
      have hone := hr r hrun
      omega
  | gap front back k hr hout hws => exact ⟨fun _ => ⟨_, hr.run, hr.two⟩, fun _ => gap_gapped _ _⟩
  | quad vs rest k hr hk hsix hvs hws =>
      exact ⟨fun _ => ⟨_, hr.run, hr.two⟩, fun _ => gap_gapped _ _⟩

/-- `inet_ntop6` writes the text of the address, where it fits with its terminator. -/
theorem ntop6_spec {n : ℕ} (src : CharArray 16) (dst : CharArray n) :
    ∃ s, Text src.bytes (words src.bytes) s ∧ s.length ≤ 45 ∧
      ∀ size, (size ≤ s.length → inet_ntop6 src dst size = .error .invalid) ∧
        (s.length < size → s.length < n →
          ∃ d, inet_ntop6 src dst size = .ok d ∧ d.text = some s) := by
  obtain ⟨hlen, hlt, _⟩ := words_spec src.length_bytes
  obtain ⟨text, s, hformat, htail, htext⟩ := text_spec src.bytes src.length_bytes hlen
  have hle := htext.length_le src.length_bytes hlen hlt
  have hfull : ¬s.length + 1 > 46 := by omega
  refine ⟨s, htext, hle, fun size => ⟨fun hover => ?_, fun hroom hfits => ?_⟩⟩
  · have hshort : s.length + 1 > size := by omega
    simp only [inet_ntop6, hformat, ok_bind, htail]
    rw [if_neg hfull, if_pos hshort]
  · obtain ⟨d, hcopy, hd⟩ := (dst.strcpy_spec (htext.nulFree src.length_bytes)).1 hfits
    have hlong : ¬s.length + 1 > size := by omega
    refine ⟨d, ?_, hd⟩
    simp only [inet_ntop6, hformat, ok_bind, htail]
    rw [if_neg hfull, if_neg hlong, hcopy]

/-- **`::` stands for the longest run of zero words**, of two at least, and for the first of the
longest; where `inet_ntop6` writes none, no two zero words are adjacent. -/
theorem longest_gap {n : ℕ} (src : CharArray 16) (dst : CharArray n) :
    ∃ s, Text src.bytes (words src.bytes) s ∧
      ([colon, colon] <:+: s ↔ ∃ r, ZeroRun (words src.bytes) r ∧ 2 ≤ r.len) ∧
      ∀ size, (size ≤ s.length → inet_ntop6 src dst size = .error .invalid) ∧
        (s.length < size → s.length < n →
          ∃ d, inet_ntop6 src dst size = .ok d ∧ d.text = some s) := by
  obtain ⟨s, htext, _, hwritten⟩ := ntop6_spec src dst
  exact ⟨s, htext, htext.gap_iff, hwritten⟩

end SocketPrograms.Unp.InetNtop
