import Mathlib.Data.List.Induction
import TraceIR.Script.Source

/-!
# The file and the position of an offset

The files of a source cover its text one after the other, so every byte lies in exactly one of them.
`Source.locate` takes the first file whose range holds the offset, and the range of a file includes
its end. Away from the borders this is the file of the byte (`Source.locate_append_cons`). At a
border it is a file that ends there: the first byte of a file is placed at the end of the text
before it, unless that end cannot be told from the beginning of the file.

Which end is taken depends on the empty files before the border: a run of them ends where it begins,
so the file before the run is found first (`Source.FirstToEnd`).

## Main results

* `Position.ofOffset_eq_foldl`: counting line feeds and searching for the last one leads to the same
  position as a walk over the text.
* `Position.ofOffset_eq_start_iff`: only the beginning of a text has the position 1:1.
* `Source.locate_byte`: when a byte is placed in its own file, and where it is placed otherwise.
-/

namespace TraceIR.Script

namespace Position

/-! ### The walk

Line and column come from two scans of their own. A walk over the text finds both at once, and is
what the proofs follow. -/

/-- The position after one more byte. -/
def step (p : Position) (c : UInt8) : Position :=
  if c == 0x0a then ⟨p.line + 1, 1⟩ else ⟨p.line, p.column + 1⟩

private theorem lastFeed_concat (l : Bytes) (c : UInt8) :
    lastFeed (l ++ [c]) = if c == 0x0a then (l.length : Int) else lastFeed l := by
  unfold lastFeed
  rw [List.reverse_append, List.reverse_singleton, List.singleton_append, List.idxOf?_cons,
    List.length_append, List.length_singleton]
  by_cases hc : (c == 0x0a) = true
  · rw [if_pos hc, if_pos hc]
    dsimp only
    omega
  · rw [if_neg hc, if_neg hc]
    -- one byte more behind the last line feed
    cases l.reverse.idxOf? 0x0a with
    | none => rfl
    | some i =>
      simp only [Option.map_some]
      omega

private theorem lastFeed_lt (l : Bytes) : lastFeed l < l.length := by
  unfold lastFeed
  split
  · omega
  · omega

/-- **The two scans agree with the walk**: after any bytes, the number of line feeds and the last of
them tell where it has come to. -/
theorem foldl_step_start (l : Bytes) :
    l.foldl step ⟨1, 1⟩ = ⟨1 + l.count 0x0a, (1 + l.length - (lastFeed l + 1)).toNat⟩ := by
  -- both the walk and the search for the last line feed are extended at the end
  induction l using List.reverseRecOn with
  | nil => rfl
  | append_singleton l c ih =>
    have hlast := lastFeed_lt l
    rw [List.foldl_append, ih, List.foldl_cons, List.foldl_nil, lastFeed_concat, List.count_append,
      List.count_singleton, List.length_append, List.length_singleton, step]
    by_cases hc : (c == 0x0a) = true
    · rw [if_pos hc, if_pos hc, if_pos hc, Position.mk.injEq]
      dsimp only
      omega
    · rw [if_neg hc, if_neg hc, if_neg hc, Position.mk.injEq]
      dsimp only
      omega

/-- The position of an offset is where the walk over the bytes before it ends. -/
theorem ofOffset_eq_foldl (text : Bytes) (n : Nat) :
    ofOffset text n = (text.take n).foldl step ⟨1, 1⟩ := by
  rw [foldl_step_start, ofOffset]
  by_cases hn : text.length < n
  · rw [if_pos hn, List.take_length, List.take_of_length_le (Nat.le_of_lt hn)]
  · rw [if_neg hn, List.length_take_of_le (Nat.not_lt.mp hn)]

/-- Reading on never leads back to an earlier line, and within a line every byte takes one
column. -/
theorem line_foldl_step (l : Bytes) (p : Position) :
    p.line ≤ (l.foldl step p).line ∧
      ((l.foldl step p).line = p.line → (l.foldl step p).column = p.column + l.length) := by
  induction l generalizing p with
  | nil => simp
  | cons c l ih =>
    obtain ⟨hle, hsame⟩ := ih (p.step c)
    rw [List.foldl_cons, List.length_cons]
    by_cases hc : (c == 0x0a) = true
    · -- After a line feed the line is a later one, so the second part is void.
      have hline : (p.step c).line = p.line + 1 := by rw [step, if_pos hc]
      constructor
      · omega
      · intro heq
        omega
    · have hnext : p.step c = ⟨p.line, p.column + 1⟩ := by rw [step, if_neg hc]
      rw [hnext] at hle hsame ⊢
      refine ⟨hle, fun heq => ?_⟩
      rw [hsame heq]
      exact Nat.add_right_comm ..

theorem one_le_line_ofOffset (text : Bytes) (n : Nat) : 1 ≤ (ofOffset text n).line := by
  rw [ofOffset_eq_foldl]
  exact (line_foldl_step (text.take n) ⟨1, 1⟩).1

/-- Only the beginning of a text has the position 1:1. -/
theorem ofOffset_eq_start_iff {text : Bytes} {n : Nat} :
    ofOffset text n = ⟨1, 1⟩ ↔ text.take n = [] := by
  constructor
  · intro h
    have hcolumn := (line_foldl_step (text.take n) ⟨1, 1⟩).2
    rw [ofOffset_eq_foldl] at h
    rw [h] at hcolumn
    have hlength := hcolumn rfl
    exact List.length_eq_zero_iff.1 (by simpa using hlength)
  · intro h
    rw [ofOffset_eq_foldl, h]
    rfl

end Position

namespace Source

@[simp] theorem text_cons (f : SourceFile) (s : Source) : text (f :: s) = f.text ++ text s := rfl

private theorem text_append (s s' : Source) : text (s ++ s') = text s ++ text s' :=
  List.flatMap_append

/-- The files that end before an offset do not hold it. -/
private theorem locateFrom_append {s : Source} {base : Nat} {offset : Int}
    (h : (base + (text s).length : Nat) < offset) (s' : Source) :
    locateFrom base (s ++ s') offset = locateFrom (base + (text s).length) s' offset := by
  induction s generalizing base with
  | nil => rfl
  | cons f s ih =>
    rw [text_cons, List.length_append] at h ⊢
    have hbeyond : ¬ ((base : Int) ≤ offset ∧ offset ≤ base + f.text.length) := by omega
    rw [List.cons_append, locateFrom, if_neg hbeyond, ih (by omega), Nat.add_assoc]

/-- An offset in a file, the file's end included, is placed there if no file before it ends at the
offset: the offset is not the file's first, or nothing comes before it. -/
theorem locate_append_cons {s : Source} {f : SourceFile} {k : Nat} (hk : k ≤ f.text.length)
    (hfirst : 0 < k ∨ s = []) (s' : Source) :
    locate (s ++ f :: s') ((text s).length + k : Nat) =
      ⟨f.name, Position.ofOffset f.text k⟩ := by
  -- The search arrives at the file with the right base.
  have hreach : locateFrom 0 (s ++ f :: s') ((text s).length + k : Nat) =
      locateFrom (text s).length (f :: s') ((text s).length + k : Nat) := by
    obtain hpos | rfl := hfirst
    · rw [locateFrom_append (by omega), Nat.zero_add]
    · rfl
  have hwithin : (((text s).length : Nat) : Int) ≤ ((text s).length + k : Nat) ∧
      (((text s).length + k : Nat) : Int) ≤ (text s).length + f.text.length := by omega
  have hoffset : ((((text s).length + k : Nat) : Int) - (text s).length).toNat = k := by omega
  rw [locate, hreach, locateFrom, if_pos hwithin, hoffset]

/-- The file `g` is the first of the files `s` that ends where they all end: only empty files come
after it, and it is not empty itself or nothing comes before it. -/
def FirstToEnd (s : Source) (g : SourceFile) : Prop :=
  ∃ s₁ s₂, s = s₁ ++ g :: s₂ ∧ (∀ e ∈ s₂, e.text = []) ∧ (g.text ≠ [] ∨ s₁ = [])

private theorem exists_firstToEnd {s : Source} (h : s ≠ []) : ∃ g, FirstToEnd s g := by
  induction s using List.reverseRecOn with
  | nil => exact absurd rfl h
  | append_singleton s e ih =>
    by_cases he : e.text ≠ [] ∨ s = []
    · exact ⟨e, s, [], rfl, by simp, he⟩
    · -- An empty file behind others ends where they end.
      have hempty : e.text = [] := by
        by_contra hne
        exact he (.inl hne)
      obtain ⟨g, s₁, s₂, rfl, hgap, hg⟩ := ih fun hs => he (.inr hs)
      refine ⟨g, s₁, s₂ ++ [e], by simp, fun e' he' => ?_, hg⟩
      obtain he' | he' := List.mem_append.1 he'
      · exact hgap e' he'
      · rw [List.mem_singleton.1 he', hempty]

namespace FirstToEnd

variable {s : Source} {g : SourceFile}

/-- A border is placed at the end of the first file that ends there. -/
private theorem locate_border (h : FirstToEnd s g) (s' : Source) :
    locate (s ++ s') (text s).length = ⟨g.name, Position.ofOffset g.text g.text.length⟩ := by
  obtain ⟨s₁, s₂, rfl, hgap, hg⟩ := h
  have hrun : text s₂ = [] := List.flatMap_eq_nil_iff.2 hgap
  have hend : (text (s₁ ++ g :: s₂)).length = (text s₁).length + g.text.length := by
    rw [text_append, text_cons, hrun, List.append_nil, List.length_append]
  have hfirst : 0 < g.text.length ∨ s₁ = [] := hg.imp_left List.length_pos_iff.2
  rw [hend, List.append_assoc, List.cons_append]
  exact locate_append_cons (Nat.le_refl _) hfirst (s₂ ++ s')

/-- An empty file is the first to end exactly if it is the first of all and all are empty. -/
private theorem text_eq_nil_iff (h : FirstToEnd s g) :
    g.text = [] ↔ (∀ e ∈ s, e.text = []) ∧ s.head? = some g := by
  obtain ⟨s₁, s₂, rfl, hgap, hg⟩ := h
  constructor
  · intro hempty
    obtain rfl : s₁ = [] := hg.resolve_left fun hne => hne hempty
    exact ⟨List.forall_mem_cons.2 ⟨hempty, hgap⟩, rfl⟩
  · rintro ⟨hall, -⟩
    exact hall g (by simp)

end FirstToEnd

/-- Where the bytes of a source are placed. The byte `k` of the file `f` is placed in `f`, at its
position there, exactly if it is not the first byte of `f`, or no file comes before `f`, or all
files before `f` are empty and the first of them has the name of `f`. Every other byte stands at a
border, and is placed at the end of the first file that ends there. -/
theorem locate_byte (s s' : Source) (f : SourceFile) {k : Nat} (hk : k < f.text.length) :
    (locate (s ++ f :: s') ((text s).length + k : Nat) = ⟨f.name, Position.ofOffset f.text k⟩ ↔
      0 < k ∨ s = [] ∨ (∀ e ∈ s, e.text = []) ∧ ∃ e, s.head? = some e ∧ e.name = f.name) ∧
    (k = 0 → s ≠ [] → ∃ g, FirstToEnd s g ∧
      locate (s ++ f :: s') ((text s).length + k : Nat) =
        ⟨g.name, Position.ofOffset g.text g.text.length⟩) := by
  by_cases hinner : 0 < k ∨ s = []
  · have hright := locate_append_cons (Nat.le_of_lt hk) hinner s'
    refine ⟨iff_of_true hright (hinner.imp_right Or.inl), fun hk0 hs => ?_⟩
    exact absurd hinner (by simp [hk0, hs])
  obtain ⟨hk0, hs⟩ := not_or.1 hinner
  obtain rfl : k = 0 := by omega
  obtain ⟨g, hg⟩ := exists_firstToEnd hs
  have hplace := hg.locate_border (f :: s')
  refine ⟨?_, fun _ _ => ⟨g, hg, hplace⟩⟩
  -- The end of `g` has to be the beginning of `f` in name and position.
  have hstart : Position.ofOffset f.text 0 = ⟨1, 1⟩ := rfl
  rw [Nat.add_zero, hplace, Place.mk.injEq, hstart, Position.ofOffset_eq_start_iff,
    List.take_length, hg.text_eq_nil_iff]
  constructor
  · rintro ⟨hname, hall, hhead⟩
    exact .inr (.inr ⟨hall, g, hhead, hname⟩)
  · rintro (hpos | hnil | ⟨hall, e, hhead, hname⟩)
    · exact absurd hpos hk0
    · exact absurd hnil hs
    · -- The first of the files before is empty, so it is the first to end.
      have hempty : g.text = [] := hall g (by
        obtain ⟨s₁, s₂, rfl, -⟩ := hg
        simp)
      have hfirst : some g = some e := (hg.text_eq_nil_iff.1 hempty).2.symm.trans hhead
      obtain rfl : g = e := Option.some.inj hfirst
      exact ⟨hname, hall, hhead⟩

/-- A file with one line, an empty one, and a second one with a line. -/
def threeFiles : Source :=
  [⟨Bytes.ascii "a.tjs", Bytes.ascii "snap\n"⟩, ⟨Bytes.ascii "e.tjs", []⟩,
    ⟨Bytes.ascii "b.tjs", Bytes.ascii "kabs\n"⟩]

/-- The second byte of the last file is placed in it, the first one behind the line of the first
file. -/
theorem locate_byte_of_threeFiles :
    threeFiles.locate 6 = ⟨Bytes.ascii "b.tjs", ⟨1, 2⟩⟩ ∧
      ∃ g, FirstToEnd (threeFiles.take 2) g ∧
        threeFiles.locate 5 = ⟨g.name, Position.ofOffset g.text g.text.length⟩ := by
  have hsecond := (locate_byte (threeFiles.take 2) [] ⟨Bytes.ascii "b.tjs", Bytes.ascii "kabs\n"⟩
    (k := 1) (by decide)).1
  have hfirst := (locate_byte (threeFiles.take 2) [] ⟨Bytes.ascii "b.tjs", Bytes.ascii "kabs\n"⟩
    (k := 0) (by decide)).2
  exact ⟨hsecond.2 (.inl (by decide)), hfirst rfl (by decide)⟩

/-- The byte 5 of two files with five bytes each is the first of the second file, and is placed in
the first one. -/
theorem second_file_begins_in_first :
    locate [⟨Bytes.ascii "a.tjs", Bytes.ascii "snap\n"⟩, ⟨Bytes.ascii "b.tjs", Bytes.ascii "kabs\n"⟩]
      5 = ⟨Bytes.ascii "a.tjs", ⟨2, 1⟩⟩ := by
  decide

end Source

end TraceIR.Script
