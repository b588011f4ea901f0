import TraceIR.Proofs.Placement

/-!
# Offsets as lines and columns

The line of an offset is found by counting the line feeds before it and the column by searching for
the last of them. Here both are compared with the lines of the text, which know nothing of offsets:
the text divided at its line feeds. All have to agree on whose a line feed is. It belongs to the
line that it ends, one column behind the line's last byte, and the line after it begins with the
next offset, even if nothing follows.

## Main definitions

* `Position.lines` — the lines of a text, and `Position.lineStart`, where each of them begins.
* `Position.Precedes` — an earlier line, or an earlier column of the same line.
* `Position.Marks` — a position in one of the lines, as far behind the line's beginning as an
  offset.

## Main results

* `Position.precedes_ofOffset`: later offsets have later positions.
* `Position.marks_ofOffset`: a position marks the offset that it was made from. For this the walk
  that finds the same position is followed byte by byte, from any line and column on
  (`Position.exists_reached`).
* `Position.offsets_embed`: offsets are embedded into positions, and what is beyond the text counts
  as its end.
-/

namespace TraceIR.Script.Position

/-! ### Lines -/

/-- The lines of a text. There is one more of them than there are line feeds. -/
def lines (text : Bytes) : List Bytes :=
  text.splitOn 0x0a

/-- Where the line after `n` others begins. Each of these takes its own bytes and a line feed. -/
def startAfter : Nat → List Bytes → Nat
  | 0, _ => 0
  | _ + 1, [] => 0
  | n + 1, l :: ls => l.length + 1 + startAfter n ls

/-- The offset at which a line begins, lines being counted from one. -/
def lineStart (text : Bytes) (line : Nat) : Nat :=
  startAfter (line - 1) (lines text)

private theorem lines_ne_nil (text : Bytes) : lines text ≠ [] :=
  List.splitOn_ne_nil 0x0a text

/-- A line feed at the beginning ends an empty line. -/
private theorem lines_cons_of_feed {c : UInt8} (h : (c == 0x0a) = true) (text : Bytes) :
    lines (c :: text) = [] :: lines text := by
  rw [lines, List.splitOn_cons_eq_if_modifyHead, if_pos h, lines]

/-- Any other byte belongs to the first line. -/
private theorem lines_cons_of_other {c : UInt8} (h : ¬ (c == 0x0a) = true) {text l : Bytes}
    {ls : List Bytes} (hlines : lines text = l :: ls) : lines (c :: text) = (c :: l) :: ls := by
  rw [lines, List.splitOn_cons_eq_if_modifyHead, if_neg h, ← lines, hlines, List.modifyHead_cons]

/-! ### The order -/

/-- The position is on an earlier line, or before the other one on the same line. -/
def Precedes (a b : Position) : Prop :=
  a.line < b.line ∨ a.line = b.line ∧ a.column < b.column

/-- Reading on leads to a later position. -/
private theorem precedes_foldl_step {l : Bytes} (h : l ≠ []) (p : Position) :
    p.Precedes (l.foldl step p) := by
  obtain ⟨hle, hsame⟩ := line_foldl_step l p
  have hpos : 0 < l.length := List.length_pos_iff.mpr h
  rcases Nat.lt_or_eq_of_le hle with hlt | heq
  · exact .inl hlt
  · -- on the same line every byte has taken a column
    refine .inr ⟨heq, ?_⟩
    rw [hsame heq.symm]
    omega

/-- **Later offsets have later positions.** -/
theorem precedes_ofOffset {text : Bytes} {m n : Nat} (hlt : m < n) (hn : n ≤ text.length) :
    (ofOffset text m).Precedes (ofOffset text n) := by
  -- the longer walk is the shorter one and then some bytes more
  have hsplit : text.take n = text.take m ++ (text.drop m).take (n - m) := by
    rw [← List.take_add, Nat.add_sub_of_le (Nat.le_of_lt hlt)]
  have hmore : (text.drop m).take (n - m) ≠ [] := by
    rw [← List.length_pos_iff, List.length_take, List.length_drop]
    omega
  have hwalk : ofOffset text n = ((text.drop m).take (n - m)).foldl step (ofOffset text m) := by
    rw [ofOffset_eq_foldl, hsplit, List.foldl_append, ofOffset_eq_foldl]
  rw [hwalk]
  exact precedes_foldl_step hmore _

/-! ### The way back -/

/-- The position lies in a line of the text, whose line feed counts as its last column, and it is
`offset` bytes behind the beginning of the text. -/
structure Marks (text : Bytes) (offset : Nat) (p : Position) : Prop where
  line_pos : 1 ≤ p.line
  column_pos : 1 ≤ p.column
  within : ∃ l, (lines text)[p.line - 1]? = some l ∧ p.column ≤ l.length + 1
  offset_eq : lineStart text p.line + p.column - 1 = offset

/-- The column with which the line `k` lines after `p` begins, for a walk that sets out from `p`. It
may set out in the middle of a line, and enters every other one at its beginning. -/
def firstColumn (p : Position) : Nat → Nat
  | 0 => p.column
  | _ + 1 => 1

/-- A walk that sets out at the beginning of a line begins all lines alike. -/
private theorem firstColumn_of_one (line k : Nat) : firstColumn ⟨line, 1⟩ k = 1 := by
  cases k with
  | zero => rfl
  | succ k => rfl

/-- A walk over `n` bytes of the lines `ls` that sets out from `p` has come to `q`, which lies `k`
lines further on. -/
structure Reached (ls : List Bytes) (n : Nat) (p q : Position) (k : Nat) : Prop where
  line_eq : q.line = p.line + k
  within : ∃ l, ls[k]? = some l ∧ q.column ≤ l.length + p.firstColumn k
  column_ge : p.firstColumn k ≤ q.column
  offset_eq : startAfter k ls + q.column = n + p.firstColumn k

/-- A walk that has not set out is on the first line. -/
private theorem reached_self (text : Bytes) (p : Position) : Reached (lines text) 0 p p 0 := by
  obtain ⟨l, ls, hlines⟩ := List.exists_cons_of_ne_nil (lines_ne_nil text)
  have hself : p.firstColumn 0 = p.column := rfl
  refine ⟨rfl, ⟨l, by rw [hlines]; rfl, ?_⟩, Nat.le_refl _, rfl⟩
  omega

/-- A walk that sets out over a line feed goes on from the beginning of the next line. -/
private theorem Reached.feed {c : UInt8} (hc : (c == 0x0a) = true) {text : Bytes} {n k : Nat}
    {p q : Position} (h : Reached (lines text) n ⟨p.line + 1, 1⟩ q k) :
    Reached (lines (c :: text)) (n + 1) p q (k + 1) := by
  obtain ⟨hline, ⟨l, hl, hle⟩, hge, hoffset⟩ := h
  have hfirst : p.firstColumn (k + 1) = 1 := rfl
  dsimp only at hline
  rw [firstColumn_of_one] at hle hge hoffset
  rw [lines_cons_of_feed hc]
  refine ⟨by omega, ⟨l, by rw [List.getElem?_cons_succ, hl], by omega⟩, by omega, ?_⟩
  rw [startAfter, List.length_nil, hfirst]
  omega

/-- A walk that sets out over any other byte goes on one column further. -/
private theorem Reached.other {c : UInt8} (hc : ¬ (c == 0x0a) = true) {text : Bytes} {n k : Nat}
    {p q : Position} (h : Reached (lines text) n ⟨p.line, p.column + 1⟩ q k) :
    Reached (lines (c :: text)) (n + 1) p q k := by
  obtain ⟨hline, ⟨l, hl, hle⟩, hge, hoffset⟩ := h
  obtain ⟨l₀, ls, hlines⟩ := List.exists_cons_of_ne_nil (lines_ne_nil text)
  rw [hlines] at hl hoffset
  rw [lines_cons_of_other hc hlines]
  cases k with
  | zero =>
    -- still on the line of the byte, which is longer by it
    obtain rfl : l₀ = l := Option.some.inj hl
    simp only [firstColumn, startAfter] at hle hge hoffset
    refine ⟨hline, ⟨c :: l₀, rfl, ?_⟩, ?_, ?_⟩
    · simp only [firstColumn, List.length_cons]
      omega
    · simp only [firstColumn]
      omega
    · simp only [firstColumn, startAfter]
      omega
  | succ k =>
    -- on a later line, which begins one byte later
    simp only [firstColumn, startAfter] at hle hge hoffset
    refine ⟨hline, ⟨l, hl, hle⟩, hge, ?_⟩
    simp only [firstColumn, startAfter, List.length_cons]
    omega

/-- **The walk** over any part of a text comes to one of its lines. -/
theorem exists_reached (text : Bytes) :
    ∀ {n : Nat}, n ≤ text.length → ∀ p : Position,
      ∃ k, Reached (lines text) n p ((text.take n).foldl step p) k := by
  -- the induction is on the text, from its first byte on
  induction text with
  | nil =>
    intro n hn p
    obtain rfl : n = 0 := Nat.le_zero.mp hn
    exact ⟨0, reached_self [] p⟩
  | cons c text ih =>
    intro n hn p
    cases n with
    | zero => exact ⟨0, reached_self (c :: text) p⟩
    | succ n =>
      have hn : n ≤ text.length := Nat.le_of_succ_le_succ hn
      rw [List.take_succ_cons, List.foldl_cons]
      by_cases hc : (c == 0x0a) = true
      · obtain ⟨k, hk⟩ := ih hn ⟨p.line + 1, 1⟩
        rw [step, if_pos hc]
        exact ⟨k + 1, hk.feed hc⟩
      · obtain ⟨k, hk⟩ := ih hn ⟨p.line, p.column + 1⟩
        rw [step, if_neg hc]
        exact ⟨k, hk.other hc⟩

/-- **A position marks its offset.** -/
theorem marks_ofOffset {text : Bytes} {n : Nat} (hn : n ≤ text.length) :
    (ofOffset text n).Marks text n := by
  obtain ⟨k, hreached⟩ := exists_reached text hn ⟨1, 1⟩
  rw [← ofOffset_eq_foldl] at hreached
  obtain ⟨hline, ⟨l, hl, hle⟩, hge, hoffset⟩ := hreached
  dsimp only at hline
  have hindex : (ofOffset text n).line - 1 = k := by omega
  rw [firstColumn_of_one] at hle hge hoffset
  refine ⟨by omega, hge, ⟨l, by rw [hindex, hl], hle⟩, ?_⟩
  rw [lineStart, hindex]
  omega

/-! ### The embedding -/

private theorem at?_natCast (text : Bytes) (n : Nat) : at? text n = some (ofOffset text n) := by
  rw [at?, if_neg (by omega), Int.toNat_natCast]

/-- An offset beyond the text counts as its end. -/
private theorem ofOffset_of_length_le {text : Bytes} {n : Nat} (h : text.length ≤ n) :
    ofOffset text n = ofOffset text text.length := by
  rw [ofOffset_eq_foldl, List.take_of_length_le h, ofOffset_eq_foldl, List.take_length]

/-- **Offsets and positions.** Every offset from the beginning of a text on has a position. Within
the text, its end included, a later offset has a later position, and the position gives the offset
back: it is that of the line's beginning and the columns before it. An offset beyond the text has
the position of its end. -/
theorem offsets_embed (text : Bytes) :
    (∀ m n : Int, 0 ≤ m → m < n → n ≤ text.length →
      ∃ p q, at? text m = some p ∧ at? text n = some q ∧ p.Precedes q) ∧
    (∀ n : Int, 0 ≤ n → n ≤ text.length →
      ∃ p, at? text n = some p ∧ p.Marks text n.toNat) ∧
    ∀ n : Int, text.length ≤ n →
      ∃ p, at? text text.length = some p ∧ at? text n = some p := by
  refine ⟨?_, ?_, ?_⟩
  · intro m n hm hmn hn
    obtain ⟨m, rfl⟩ := Int.eq_ofNat_of_zero_le hm
    obtain ⟨n, rfl⟩ := Int.eq_ofNat_of_zero_le (Int.le_trans hm (Int.le_of_lt hmn))
    exact ⟨_, _, at?_natCast .., at?_natCast .., precedes_ofOffset (by omega) (by omega)⟩
  · intro n h hn
    obtain ⟨n, rfl⟩ := Int.eq_ofNat_of_zero_le h
    exact ⟨_, at?_natCast .., marks_ofOffset (by omega)⟩
  · intro n hn
    obtain ⟨n, rfl⟩ := Int.eq_ofNat_of_zero_le (Int.le_trans (Int.natCast_nonneg _) hn)
    refine ⟨_, at?_natCast .., ?_⟩
    rw [at?_natCast, ofOffset_of_length_le (by omega)]

/-- Two empty lines, a line of two letters, and a last line that is empty because a line feed ends
the text. -/
def feedsAround : Bytes := Bytes.ascii "\n\nab\n"

/-- The last line feed lies behind the letters of its line, and the end of the text on a line of its
own. -/
theorem offsets_embed_of_feedsAround :
    (∃ p q, at? feedsAround 4 = some p ∧ at? feedsAround 5 = some q ∧ p.Precedes q) ∧
      at? feedsAround 4 = some ⟨3, 3⟩ ∧ Marks feedsAround 4 ⟨3, 3⟩ ∧
      at? feedsAround 5 = some ⟨4, 1⟩ ∧ Marks feedsAround 5 ⟨4, 1⟩ ∧
      at? feedsAround 9 = some ⟨4, 1⟩ := by
  obtain ⟨hlater, hmarks, hbeyond⟩ := offsets_embed feedsAround
  have hfeed : at? feedsAround 4 = some ⟨3, 3⟩ := by decide
  have hend : at? feedsAround 5 = some ⟨4, 1⟩ := by decide
  obtain ⟨p, hp, hmark⟩ := hmarks 4 (by decide) (by decide)
  obtain ⟨q, hq, hmark'⟩ := hmarks 5 (by decide) (by decide)
  obtain ⟨q', hq', hsame⟩ := hbeyond 9 (by decide)
  obtain rfl : p = ⟨3, 3⟩ := Option.some.inj (hp.symm.trans hfeed)
  obtain rfl : q = ⟨4, 1⟩ := Option.some.inj (hq.symm.trans hend)
  obtain rfl : q' = ⟨4, 1⟩ := Option.some.inj (hq'.symm.trans hend)
  exact ⟨hlater 4 5 (by decide) (by decide) (by decide), hfeed, hmark, hend, hmark', hsame⟩

end TraceIR.Script.Position
