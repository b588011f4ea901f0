import TraceIR.Dump
import TraceIR.Proofs.Building
import TraceIR.Proofs.NumberText
import TraceIR.Proofs.Quoting

/-!
# What a line of a dump says

A line is made of columns. A space ends a reference, an opcode and a number, and a type has three
characters, so the columns can be told apart. The spaces that fill the column of opcodes are trimmed
if nothing follows, and what follows never ends in a space.

* `Bytes.flatten_injective` — a text is cut into its lines in one way only.
* `Formatter.WritesDecimals` — what is relied on of the formatter that writes whole numbers.
* `Dump.refName_injective` and `Dump.number_injective` — references and numbers are printed so that
  they can be told apart. A NaN is printed with its bits.
* `Record.LooksLike` — what two records have in common if their lines are the same.
  `Dump.looksLike_of_recordLine` says that they do, if their types have names of their own.
* `Dump.snapshotLine_injective` — the line of a snapshot shows what it refers to.
-/

namespace TraceIR

/-- A list is cut at the first `a` in one way only. -/
theorem append_cons_inj {α : Type} {a : α} {l m r s : List α} (hl : a ∉ l) (hm : a ∉ m)
    (h : l ++ a :: r = m ++ a :: s) : l = m ∧ r = s := by
  induction l generalizing m with
  | nil =>
    cases m with
    | nil => exact ⟨rfl, (List.cons.inj h).2⟩
    | cons c m =>
      rw [(List.cons.inj h).1] at hm
      exact absurd List.mem_cons_self hm
  | cons c l ih =>
    cases m with
    | nil =>
      rw [(List.cons.inj h).1] at hl
      exact absurd List.mem_cons_self hl
    | cons d m =>
      obtain ⟨rfl, htail⟩ := List.cons.inj h
      obtain ⟨rfl, rfl⟩ :=
        ih (List.not_mem_of_not_mem_cons hl) (List.not_mem_of_not_mem_cons hm) htail
      exact ⟨rfl, rfl⟩

namespace Bytes

variable {a b t u : Bytes}

/-! ### Words -/

/-- Nothing is left of a line, or a space comes next. -/
def Breaks (b : Bytes) : Prop :=
  ∀ c ∈ b.head?, c = 0x20

private theorem breaks_nil : Breaks [] := by
  rintro c ⟨⟩

theorem breaks_cons (b : Bytes) : Breaks (0x20 :: b) := by
  rintro c ⟨⟩
  rfl

private theorem Breaks.append (ha : Breaks a) (hb : Breaks b) : Breaks (a ++ b) := by
  cases a with
  | nil => exact hb
  | cons c a => exact ha

/-- **A word** is told from what follows it. -/
theorem IsWord.append_inj (ht : t.IsWord) (hu : u.IsWord) (ha : Breaks a) (hb : Breaks b)
    (h : t ++ a = u ++ b) : t = u ∧ a = b := by
  -- with one more space at the end there is a space behind either word
  have hspace : ∀ {d : Bytes}, Breaks d → ∃ e, d ++ [0x20] = 0x20 :: e := by
    intro d hd
    cases d with
    | nil => exact ⟨[], rfl⟩
    | cons c d =>
      rw [hd c rfl]
      exact ⟨d ++ [0x20], rfl⟩
  obtain ⟨a', ha'⟩ := hspace ha
  obtain ⟨b', hb'⟩ := hspace hb
  have h' : t ++ 0x20 :: a' = u ++ 0x20 :: b' := by
    rw [← ha', ← hb', ← List.append_assoc, ← List.append_assoc, h]
  obtain ⟨rfl, -⟩ :=
    append_cons_inj (fun hmem => (ht _ hmem).1 rfl) (fun hmem => (hu _ hmem).1 rfl) h'
  exact ⟨rfl, List.append_cancel_left h⟩

theorem IsWord.newline_notMem (h : t.IsWord) : 0x0a ∉ t :=
  fun hmem => (h _ hmem).2 rfl

/-! ### Trimming -/

/-- There is something at the end, and it is no space. -/
def Ends (b : Bytes) : Prop :=
  ∃ d c, b = d ++ [c] ∧ c ≠ 0x20

private theorem Ends.append (a : Bytes) (hb : b.Ends) : (a ++ b).Ends := by
  obtain ⟨d, c, rfl, hc⟩ := hb
  exact ⟨a ++ d, c, (List.append_assoc ..).symm, hc⟩

private theorem IsWord.ends (h : t.IsWord) (hne : t ≠ []) : t.Ends := by
  obtain ⟨d, c, rfl⟩ := List.eq_nil_or_concat t |>.resolve_left hne
  rw [List.concat_eq_append] at h ⊢
  exact ⟨d, c, rfl, (h c (List.mem_append_right _ List.mem_cons_self)).1⟩

private theorem Ends.trimRight (h : b.Ends) : b.trimRight = b := by
  obtain ⟨d, c, rfl, hc⟩ := h
  have hkeep : ¬ (c == 0x20) = true := by
    rw [beq_iff_eq]
    exact hc
  unfold Bytes.trimRight
  rw [List.reverse_append, List.reverse_singleton, List.singleton_append, List.dropWhile_cons,
    if_neg hkeep, List.reverse_cons, List.reverse_reverse]

private theorem trimRight_append_spaces (b : Bytes) (n : Nat) :
    (b ++ List.replicate n 0x20).trimRight = b.trimRight := by
  have hspaces : ∀ c ∈ List.replicate n (0x20 : UInt8), (c == 0x20) = true := by
    intro c hc
    rw [List.eq_of_mem_replicate hc]
    rfl
  unfold Bytes.trimRight
  rw [List.reverse_append, List.reverse_replicate, List.dropWhile_append_of_pos hspaces]

/-! ### Lines -/

/-- The text has a newline at its end and nowhere else. -/
def IsLine (b : Bytes) : Prop :=
  ∃ w, b = w ++ [0x0a] ∧ 0x0a ∉ w

/-- **Lines** that are written one behind the other can be told apart. -/
theorem flatten_injective {ls ms : List Bytes} (hls : ∀ l ∈ ls, IsLine l)
    (hms : ∀ m ∈ ms, IsLine m) (h : ls.flatten = ms.flatten) : ls = ms := by
  have hempty : ∀ {l : Bytes} {r : Bytes}, IsLine l → [] ≠ l ++ r := by
    rintro l r ⟨w, rfl, -⟩ hnil
    rw [List.append_assoc, eq_comm, List.append_eq_nil_iff] at hnil
    cases hnil.2
  induction ls generalizing ms with
  | nil =>
    cases ms with
    | nil => rfl
    | cons m ms => exact absurd h (hempty (hms m List.mem_cons_self))
  | cons l ls ih =>
    cases ms with
    | nil => exact absurd h.symm (hempty (hls l List.mem_cons_self))
    | cons m ms =>
      obtain ⟨⟨w, hl, hw⟩, hls⟩ := List.forall_mem_cons.mp hls
      obtain ⟨⟨v, hm, hv⟩, hms⟩ := List.forall_mem_cons.mp hms
      rw [List.flatten_cons, List.flatten_cons, hl, hm, ← List.append_cons, ← List.append_cons] at h
      obtain ⟨hfirst, hrest⟩ := append_cons_inj hw hv h
      rw [hl, hm, hfirst, ih hls hms hrest]

end Bytes

/-! ### Names of types and opcodes -/

namespace Ty

/-- The tag has a name of its own. -/
def IsNamed (t : Ty) : Prop :=
  t.tag.bits.toNat < names.length

private theorem name_cases (t : Ty) : t.name.length = 3 ∧ 0x0a ∉ t.name := by
  have hnames : ∀ s ∈ names, (Bytes.ascii s).length = 3 ∧ 0x0a ∉ Bytes.ascii s := by decide
  unfold name
  split
  · next s hs => exact hnames s (List.mem_of_getElem? hs)
  · decide

/-- **Types that have names** are told apart by them. -/
theorem tag_eq_of_name {t u : Ty} (ht : t.IsNamed) (hu : u.IsNamed) (h : t.name = u.name) :
    t.tag = u.tag := by
  have hname : ∀ {v : Ty} (hv : v.IsNamed), v.name = Bytes.ascii (names.get ⟨_, hv⟩) := by
    intro v hv
    unfold name
    rw [List.getElem?_eq_getElem hv]
    rfl
  have hdistinct : (names.map Bytes.ascii).Nodup := by decide
  have hget := List.inj_on_of_nodup_map hdistinct (List.get_mem ..) (List.get_mem ..)
    ((hname ht).symm.trans (h.trans (hname hu)))
  have hnodup : names.Nodup := by decide
  have hbits := Fin.mk.inj (hnodup.injective_get hget)
  obtain ⟨t⟩ := t
  obtain ⟨u⟩ := u
  exact congrArg Ty.mk (UInt8.toNat_inj.mp hbits)

end Ty

namespace Opcode

theorem nameBytes_word (op : Opcode) : op.nameBytes.IsWord ∧ op.nameBytes ≠ [] := by
  have hall : ∀ op ∈ all, op.nameBytes.IsWord ∧ op.nameBytes ≠ [] := by decide
  exact hall op (mem_all op)

theorem nameBytes_injective {op op' : Opcode} (h : op.nameBytes = op'.nameBytes) : op = op' := by
  have hdistinct : (all.map nameBytes).Nodup := by decide +kernel
  exact List.inj_on_of_nodup_map hdistinct (mem_all op) (mem_all op') h

end Opcode

/-! ### Formatters -/

namespace Formatter

/-- The formatter writes base ten: of any number and in any field, digits and at least one, which
have the value of the number. This is all that is relied on; how wide a field becomes is left
open. -/
structure WritesDecimals (f : Formatter) : Prop where
  digits : ∀ width n, ∀ c ∈ f.number width n, Numeral.isDigit c = true
  nonempty : ∀ width n, f.number width n ≠ []
  value : ∀ width n, Numeral.digitsValue (f.number width n) = n

theorem writesDecimals_decimal : decimal.WritesDecimals where
  digits := Bytes.isDigit_padLeft_decimal
  nonempty _ n hnil := Bytes.decimal_ne_nil n (List.append_eq_nil_iff.mp hnil).2
  value width n := by rw [decimal, Numeral.digitsValue_padLeft, Numeral.digitsValue_decimal]

namespace WritesDecimals

variable {f : Formatter} (h : f.WritesDecimals) {width n m : Nat}
include h

theorem isWord : (f.number width n).IsWord :=
  Bytes.isWord_of_isDigit (h.digits width n)

/-- **Numbers in fields of the same kind** are told apart. -/
theorem injective (heq : f.number width n = f.number width m) : n = m := by
  rw [← h.value width n, heq, h.value]

end WritesDecimals

end Formatter

namespace Dump

variable {f : Formatter} {p q : Pool} {x y : Record} {r s : Ref} {l : Bytes}

section

variable (hf : f.WritesDecimals)
include hf

/-! ### References -/

/-- A name of a reference consists of digits, after a letter if it is one of a constant. -/
private theorem refName_eq (r : Ref) : ∃ m ds, refName r f = m ++ ds ∧ ds ≠ [] ∧
    (∀ c ∈ ds, Numeral.isDigit c = true) ∧ m = if r.isConst then [0x4b] else [] := by
  unfold refName
  split
  · exact ⟨[0x4b], _, rfl, hf.nonempty _ _, hf.digits _ _, rfl⟩
  · exact ⟨[], _, rfl, hf.nonempty _ _, hf.digits _ _, rfl⟩

private theorem isWord_refName (r : Ref) : (refName r f).IsWord := by
  obtain ⟨m, ds, hname, -, hds, hm⟩ := refName_eq hf r
  have hmark : m.IsWord := by
    rw [hm]
    split
    · decide
    · decide
  rw [hname]
  exact hmark.append (Bytes.isWord_of_isDigit hds)

theorem refName_ne_nil (r : Ref) : refName r f ≠ [] := by
  obtain ⟨m, ds, hname, hne, -⟩ := refName_eq hf r
  rw [hname]
  exact List.append_ne_nil_of_right_ne_nil m hne

/-- No name of a reference begins as the headings of the sections do. -/
theorem minus_notMem_refName (r : Ref) : 0x2d ∉ refName r f := by
  obtain ⟨m, ds, hname, -, hds, hm⟩ := refName_eq hf r
  rw [hname, List.mem_append]
  rintro (hmem | hmem)
  · rw [hm] at hmem
    split at hmem
    · exact absurd hmem (by decide)
    · cases hmem
  · cases hds _ hmem

/-- **References** are told apart by their names. -/
theorem refName_injective (h : refName r f = refName s f) : r = s := by
  have hletter : ∀ {r s : Ref}, refName r f = refName s f → r.isConst = true →
      s.isConst = true := by
    intro r s h hr
    obtain ⟨m, ds, hname, -, -, hm⟩ := refName_eq hf r
    obtain ⟨m', ds', hname', -, hds', hm'⟩ := refName_eq hf s
    by_contra hs
    rw [hname, hname', hm, hm', if_pos hr, if_neg hs] at h
    have hmem : 0x4b ∈ ds' := by
      rw [← List.nil_append ds', ← h]
      exact List.mem_cons_self
    cases hds' _ hmem
  by_cases hr : r.isConst = true
  · have hs := hletter h hr
    unfold refName at h
    rw [if_pos hr, if_pos hs] at h
    have hoffset := UInt32.toNat_inj.mp (hf.injective (List.append_cancel_left h))
    grind
  · have hs : ¬ s.isConst = true := fun hs => hr (hletter h.symm hs)
    unfold refName at h
    rw [if_neg hr, if_neg hs] at h
    have hoffset := UInt32.toNat_inj.mp (hf.injective h)
    grind

end

/-! ### Numbers -/

private theorem isWord_number (x : Binary64) : (number x).IsWord := by
  unfold number
  split
  · have hopen : (Bytes.ascii "nan(").IsWord := by decide
    have hclose : (Bytes.ascii ")").IsWord := by decide
    exact (hopen.append (Bytes.isWord_hexMarked _)).append hclose
  · next hx => exact Binary64.isWord_text (Bool.eq_false_iff.mpr hx)

/-- What begins with a letter is no number. -/
private theorem text_ne_nan {x : Binary64} (hx : x.isNaN = false) (b : Bytes) :
    x.text ≠ 0x6e :: b := by
  intro h
  rcases Binary64.finite_or_infinite hx with hfinite | hinfinite
  · have hread := Binary64.decimal_text hfinite
    rw [h] at hread
    cases hread
  · rw [Binary64.text_of_infinite hinfinite] at h
    split at h
    · cases h
    · cases h

private theorem number_ne_nil (x : Binary64) : number x ≠ [] := by
  unfold number
  split
  · exact List.append_ne_nil_of_right_ne_nil _ (by decide)
  · next hx =>
    intro hnil
    rcases Binary64.finite_or_infinite (Bool.eq_false_iff.mpr hx) with hfinite | hinfinite
    · have hread := Binary64.decimal_text hfinite
      rw [hnil] at hread
      cases hread
    · rw [Binary64.text_of_infinite hinfinite] at hnil
      split at hnil
      · cases hnil
      · cases hnil

/-- **Numbers** are told apart by what is printed, and NaNs are too. -/
theorem number_injective {x y : Binary64} (h : number x = number y) : x = y := by
  cases hx : x.isNaN with
  | true =>
    cases hy : y.isNaN with
    | true =>
      unfold number at h
      rw [if_pos hx, if_pos hy] at h
      have hhex := Bytes.hexMarked_injective (List.append_cancel_left (List.append_cancel_right h))
      obtain ⟨x⟩ := x
      obtain ⟨y⟩ := y
      exact congrArg Binary64.mk (UInt64.toNat_inj.mp hhex)
    | false =>
      unfold number at h
      rw [if_pos hx, hy] at h
      exact absurd h.symm (text_ne_nan hy _)
  | false =>
    cases hy : y.isNaN with
    | true =>
      unfold number at h
      rw [hx, if_pos hy] at h
      exact absurd h (text_ne_nan hx _)
    | false =>
      unfold number at h
      rw [hx, hy] at h
      exact Binary64.text_injective hx hy h

/-! ### Columns -/

/-- Nothing, or a space and something behind it that neither ends in a space nor leaves the line. -/
structure IsColumns (b : Bytes) : Prop where
  breaks : b.Breaks
  ends : b = [] ∨ b.Ends
  onLine : 0x0a ∉ b

private theorem isColumns_nil : IsColumns [] :=
  ⟨Bytes.breaks_nil, .inl rfl, List.not_mem_nil⟩

private theorem isColumns_cons {w : Bytes} (hends : w.Ends) (honLine : 0x0a ∉ w) :
    IsColumns (0x20 :: w) := by
  refine ⟨Bytes.breaks_cons w, .inr (hends.append [0x20]), ?_⟩
  rw [List.mem_cons]
  rintro (hspace | hw)
  · exact absurd hspace (by decide)
  · exact honLine hw

private theorem isColumns_word {w : Bytes} (hw : w.IsWord) (hne : w ≠ []) : IsColumns (0x20 :: w) :=
  isColumns_cons (hw.ends hne) hw.newline_notMem

private theorem IsColumns.append {a b : Bytes} (ha : IsColumns a) (hb : IsColumns b) :
    IsColumns (a ++ b) := by
  refine ⟨ha.breaks.append hb.breaks, ?_, ?_⟩
  · rcases hb.ends with rfl | hends
    · rw [List.append_nil]
      exact ha.ends
    · exact .inr (hends.append a)
  · rw [List.mem_append]
    rintro (hmem | hmem)
    · exact ha.onLine hmem
    · exact hb.onLine hmem

section

variable (hf : f.WritesDecimals)
include hf

private theorem isColumns_operand (kind : OperandKind) (r : Ref) :
    IsColumns (operand kind r f) := by
  cases kind with
  | ref => exact isColumns_word (isWord_refName hf r) (refName_ne_nil hf r)
  | lit =>
    have hmark : (Bytes.ascii "#").IsWord := by decide
    change IsColumns (0x20 :: (Bytes.ascii "#" ++ f.number 0 r.toNat))
    apply isColumns_word (hmark.append hf.isWord)
    exact List.append_ne_nil_of_right_ne_nil _ (hf.nonempty _ _)
  | const | absent => exact isColumns_nil

/-- **Operands** are told from what follows them. -/
theorem operand_append_inj {kind : OperandKind} {a b : Bytes} (ha : a.Breaks) (hb : b.Breaks)
    (h : operand kind r f ++ a = operand kind s f ++ b) :
    (kind = .ref ∨ kind = .lit → r = s) ∧ a = b := by
  cases kind with
  | ref =>
    obtain ⟨hname, hrest⟩ := (isWord_refName hf r).append_inj (isWord_refName hf s) ha hb
      (List.cons.inj h).2
    exact ⟨fun _ => refName_injective hf hname, hrest⟩
  | lit =>
    obtain ⟨hnumber, hrest⟩ := hf.isWord.append_inj hf.isWord ha hb
      (List.cons.inj (List.cons.inj h).2).2
    exact ⟨fun _ => UInt32.toNat_inj.mp (hf.injective hnumber), hrest⟩
  | const | absent =>
    refine ⟨?_, h⟩
    rintro (hkind | hkind)
    · cases hkind
    · cases hkind

/-- The value of an interned constant stays on its line and does not end in a space. -/
private theorem ends_constant (hconst : x.op.isConst = true) (hpri : x.op ≠ .kpri)
    (h : constant p x f = .ok l) : l.Ends ∧ 0x0a ∉ l := by
  have hword : ∀ {w : Bytes}, w.IsWord → w ≠ [] → w.Ends ∧ 0x0a ∉ w := fun hw hne =>
    ⟨hw.ends hne, hw.newline_notMem⟩
  unfold constant at h
  split at h
  · -- an integer
    cases h
    exact hword (Bytes.isWord_signed _) (Bytes.signed_ne_nil _)
  · -- a number
    split at h
    · next v hv =>
      cases h
      exact hword (isWord_number v) (number_ne_nil v)
    · cases h
  · -- the text of an object
    split at h
    · next s hs =>
      cases h
      refine ⟨⟨0x22 :: Quoted.writeBody s, 0x22, rfl, by decide⟩, Quoted.newline_notMem_write s⟩
    · cases h
      exact hword (by decide) (by decide)
  · -- a pointer
    cases h
    exact hword (Bytes.isWord_hexMarked _) (List.append_ne_nil_of_left_ne_nil (by decide) _)
  · cases h
    exact hword (by decide) (by decide)
  · -- a slot: the last column is a number
    cases h
    have hslot := @Formatter.WritesDecimals.isWord _ hf 0 x.right.toNat
    refine ⟨(hslot.ends (hf.nonempty _ _)).append _, ?_⟩
    rw [List.mem_append, List.mem_append]
    rintro ((hmem | hmem) | hmem)
    · exact (isWord_refName hf x.left).newline_notMem hmem
    · exact absurd hmem (by decide)
    · exact hslot.newline_notMem hmem
  · next hop => exact absurd hop hpri
  · next hkint hknum hkgc hkptr hknull hkslot hkpri =>
    -- there are no other constants
    unfold Opcode.isConst at hconst
    split at hconst
    all_goals contradiction

omit hf in
private theorem exists_constant_of_details (hconst : x.op.isConst = true)
    (h : details p x f = .ok l) :
    ∃ s, constant p x f = .ok s ∧ l = 0x20 :: s := by
  unfold details at h
  rw [if_pos hconst] at h
  cases hs : constant p x f with
  | error e =>
    rw [hs] at h
    cases h
  | ok s =>
    rw [hs] at h
    cases h
    exact ⟨s, rfl, rfl⟩

private theorem isColumns_details (hpri : x.op ≠ .kpri) (h : details p x f = .ok l) :
    IsColumns l := by
  by_cases hconst : x.op.isConst = true
  · obtain ⟨s, hs, rfl⟩ := exists_constant_of_details hconst h
    obtain ⟨hends, honLine⟩ := ends_constant hf hconst hpri hs
    exact isColumns_cons hends honLine
  · unfold details at h
    rw [if_neg hconst] at h
    cases h
    exact (isColumns_operand hf _ _).append (isColumns_operand hf _ _)

end

end Dump

/-! ### Lines of records -/

/-- What can be seen of a record in a dump is the same. The numbers lie in the pools `p` and `q`. -/
structure Record.LooksLike (p q : Pool) (x y : Record) : Prop where
  op : x.op = y.op
  tag : x.ty.tag = y.ty.tag
  guard : x.ty.isGuard = y.ty.isGuard
  left : x.op.shape.left = .ref ∨ x.op.shape.left = .lit → x.left = y.left
  right : x.op.shape.right = .ref ∨ x.op.shape.right = .lit → x.right = y.right
  int : x.op = .kint → x.payload.asInt = y.payload.asInt
  number : x.op = .knum → ∃ n, x.number? p = some n ∧ y.number? q = some n
  text : x.op = .kgc → x.payload.object?.bind (·.text) = y.payload.object?.bind (·.text)
  pointer : x.op = .kptr → x.payload.asPointer = y.payload.asPointer

namespace Dump

variable {f : Formatter} {p q : Pool} {x y : Record} {r s : Ref} {l : Bytes}

section

variable (hop : x.op = y.op) (hx : constant p x f = .ok l) (hy : constant q y f = .ok l)
include hop hx hy

private theorem int_of_constant (h : x.op = .kint) : x.payload.asInt = y.payload.asInt := by
  unfold constant at hx hy
  rw [← hop] at hy
  rw [h] at hx hy
  have htext := Except.ok.inj (hx.trans hy.symm)
  exact Int32.toInt_inj.mp (Bytes.signed_injective htext)

private theorem number_of_constant (h : x.op = .knum) :
    ∃ n, x.number? p = some n ∧ y.number? q = some n := by
  unfold constant at hx hy
  rw [← hop] at hy
  rw [h] at hx hy
  unfold Record.number?
  dsimp only at hx hy
  split at hx
  · next n hn =>
    split at hy
    · next m hm =>
      have htext := Except.ok.inj (hx.trans hy.symm)
      rw [number_injective htext] at hn
      exact ⟨m, hn, hm⟩
    · cases hy
  · cases hx

private theorem text_of_constant (h : x.op = .kgc) :
    x.payload.object?.bind (·.text) = y.payload.object?.bind (·.text) := by
  unfold constant at hx hy
  rw [← hop] at hy
  rw [h] at hx hy
  dsimp only at hx hy
  split at hx
  · next s hs =>
    split at hy
    · next s' hs' =>
      have htext := Except.ok.inj (hx.trans hy.symm)
      rw [hs, hs', Quoted.write_injective htext]
    · -- an opaque object is not quoted
      cases Except.ok.inj (hx.trans hy.symm)
  · next hs =>
    split at hy
    · next s' hs' => cases Except.ok.inj (hx.trans hy.symm)
    · next hs' => rw [hs, hs']

private theorem pointer_of_constant (h : x.op = .kptr) :
    x.payload.asPointer = y.payload.asPointer := by
  unfold constant at hx hy
  rw [← hop] at hy
  rw [h] at hx hy
  have htext := Except.ok.inj (hx.trans hy.symm)
  exact UInt64.toNat_inj.mp (Bytes.hexMarked_injective htext)

private theorem slot_of_constant (hf : f.WritesDecimals) (h : x.op = .kslot) :
    x.left = y.left ∧ x.right = y.right := by
  unfold constant at hx hy
  rw [← hop] at hy
  rw [h] at hx hy
  have htext := Except.ok.inj (hx.trans hy.symm)
  rw [List.append_assoc, List.append_assoc] at htext
  have hbreaks : ∀ n, Bytes.Breaks (Bytes.ascii " @" ++ f.number 0 n) := fun n =>
    Bytes.breaks_cons _
  obtain ⟨hkey, hslot⟩ := (isWord_refName hf x.left).append_inj (isWord_refName hf y.left)
    (hbreaks _) (hbreaks _) htext
  have hnumber := hf.injective (List.append_cancel_left hslot)
  exact ⟨refName_injective hf hkey, UInt32.toNat_inj.mp hnumber⟩

end

/-- The only constants with operands are slots. -/
private theorem eq_kslot_of_operand {op : Opcode} (hconst : op.isConst = true)
    (h : (op.shape.left = .ref ∨ op.shape.left = .lit) ∨
      (op.shape.right = .ref ∨ op.shape.right = .lit)) : op = .kslot := by
  revert hconst h
  have hall : ∀ op ∈ Opcode.all, op.isConst = true →
      (op.shape.left = .ref ∨ op.shape.left = .lit) ∨
        (op.shape.right = .ref ∨ op.shape.right = .lit) → op = .kslot := by decide
  exact hall op (Opcode.mem_all op)

/-- **The columns after the opcode** show the operands and the constant. -/
theorem looksLike_of_details (hf : f.WritesDecimals) (hop : x.op = y.op)
    (htag : x.ty.tag = y.ty.tag) (hguard : x.ty.isGuard = y.ty.isGuard)
    (hx : details p x f = .ok l) (hy : details q y f = .ok l) : x.LooksLike p q y := by
  by_cases hconst : x.op.isConst = true
  · obtain ⟨s, hs, rfl⟩ := exists_constant_of_details hconst hx
    obtain ⟨s', hs', hsame⟩ := exists_constant_of_details (hop ▸ hconst) hy
    obtain rfl := (List.cons.inj hsame).2
    exact {
      op := hop
      tag := htag
      guard := hguard
      left := fun h => (slot_of_constant hop hs hs' hf (eq_kslot_of_operand hconst (.inl h))).1
      right := fun h => (slot_of_constant hop hs hs' hf (eq_kslot_of_operand hconst (.inr h))).2
      int := int_of_constant hop hs hs'
      number := number_of_constant hop hs hs'
      text := text_of_constant hop hs hs'
      pointer := pointer_of_constant hop hs hs' }
  · have hnone : ∀ {op : Opcode}, op.isConst = true → x.op ≠ op := by
      rintro op h rfl
      exact hconst h
    unfold details at hx hy
    rw [← hop] at hy
    rw [if_neg hconst] at hx hy
    have hoperands := Except.ok.inj (hx.trans hy.symm)
    obtain ⟨hleft, hrest⟩ := operand_append_inj hf (isColumns_operand hf _ _).breaks
      (isColumns_operand hf _ _).breaks hoperands
    rw [← List.append_nil (operand _ x.right f), ← List.append_nil (operand _ y.right f)] at hrest
    obtain ⟨hright, -⟩ := operand_append_inj hf Bytes.breaks_nil Bytes.breaks_nil hrest
    exact {
      op := hop
      tag := htag
      guard := hguard
      left := hleft
      right := hright
      int := fun h => absurd h (hnone rfl)
      number := fun h => absurd h (hnone rfl)
      text := fun h => absurd h (hnone rfl)
      pointer := fun h => absurd h (hnone rfl) }

/-- The mark of a guard, with the spaces around it. -/
def mark (ty : Ty) : Bytes :=
  Bytes.ascii (if ty.isGuard then " > " else "   ")

private theorem mark_cases (ty : Ty) : (mark ty).length = 3 ∧ 0x0a ∉ mark ty := by
  unfold mark
  split
  · decide
  · decide

private theorem isGuard_eq_of_mark {ty ty' : Ty} (h : mark ty = mark ty') :
    ty.isGuard = ty'.isGuard := by
  unfold mark at h
  cases hty : ty.isGuard with
  | true =>
    cases hty' : ty'.isGuard with
    | true => rfl
    | false =>
      rw [hty, hty'] at h
      exact absurd h (by decide)
  | false =>
    cases hty' : ty'.isGuard with
    | true =>
      rw [hty, hty'] at h
      exact absurd h (by decide)
    | false => rfl

/-- What is left of a line behind the name of the opcode: the column is filled only if something
follows. -/
def afterOpcode (op : Opcode) (rest : Bytes) : Bytes :=
  if rest = [] then [] else List.replicate (opcodeWidth - op.nameBytes.length) 0x20 ++ rest

private theorem isColumns_afterOpcode (op : Opcode) {rest : Bytes} (h : IsColumns rest) :
    (afterOpcode op rest).Breaks ∧ 0x0a ∉ afterOpcode op rest := by
  unfold afterOpcode
  split
  · exact ⟨Bytes.breaks_nil, List.not_mem_nil⟩
  · constructor
    · refine Bytes.Breaks.append ?_ h.breaks
      intro c hc
      exact List.eq_of_mem_replicate (List.mem_of_mem_head? hc)
    · rw [List.mem_append]
      rintro (hmem | hmem)
      · exact absurd (List.eq_of_mem_replicate hmem) (by decide)
      · exact h.onLine hmem

private theorem afterOpcode_injective {op : Opcode} {a b : Bytes}
    (h : afterOpcode op a = afterOpcode op b) : a = b := by
  unfold afterOpcode at h
  by_cases ha : a = []
  · by_cases hb : b = []
    · rw [ha, hb]
    · rw [if_pos ha, if_neg hb] at h
      exact absurd (List.append_eq_nil_iff.mp h.symm).2 hb
  · by_cases hb : b = []
    · rw [if_neg ha, if_pos hb] at h
      exact absurd (List.append_eq_nil_iff.mp h).2 ha
    · rw [if_neg ha, if_neg hb] at h
      exact List.append_cancel_left h

/-- **Trimming** takes nothing away but the filling of the last column. -/
theorem trimRight_columns (front : Bytes) (op : Opcode) {rest : Bytes} (h : IsColumns rest) :
    (front ++ opcodeColumn op ++ rest).trimRight =
      front ++ (op.nameBytes ++ afterOpcode op rest) := by
  obtain ⟨hword, hne⟩ := op.nameBytes_word
  unfold opcodeColumn Bytes.padRight afterOpcode
  by_cases hrest : rest = []
  · have hends : (front ++ op.nameBytes).Ends := (hword.ends hne).append front
    rw [if_pos hrest, hrest, List.append_nil, List.append_nil, ← List.append_assoc,
      Bytes.trimRight_append_spaces, hends.trimRight]
  · have hends := h.ends.resolve_left hrest
    rw [if_neg hrest, (hends.append _).trimRight, List.append_assoc, List.append_assoc]

/-- The line of a record without the newline. -/
def columns (f : Formatter) (r : Ref) (x : Record) (rest : Bytes) : Bytes :=
  refName r f ++ (mark x.ty ++ (x.ty.name ++ 0x20 :: (x.op.nameBytes ++ afterOpcode x.op rest)))

section

variable (hf : f.WritesDecimals)
include hf

theorem recordLine_eq_ok (hpri : x.op ≠ .kpri) (h : recordLine p r x f = .ok l) :
    ∃ rest, details p x f = .ok rest ∧ IsColumns rest ∧ l = columns f r x rest ++ [0x0a] := by
  obtain ⟨rest, hrest, h⟩ := exists_of_bind h
  have hcolumns := isColumns_details hf hpri hrest
  refine ⟨rest, hrest, hcolumns, ?_⟩
  have htrim : (refName r f ++ mark x.ty ++ x.ty.name ++ Bytes.ascii " " ++ opcodeColumn x.op ++
      rest).trimRight = columns f r x rest := by
    rw [trimRight_columns _ _ hcolumns, List.append_assoc, List.append_assoc, List.append_assoc]
    rfl
  rw [← htrim]
  exact (Except.ok.inj h).symm

theorem isLine_recordLine (hpri : x.op ≠ .kpri) (h : recordLine p r x f = .ok l) : l.IsLine := by
  obtain ⟨rest, -, hcolumns, rfl⟩ := recordLine_eq_ok hf hpri h
  refine ⟨_, rfl, ?_⟩
  unfold columns
  simp only [List.mem_append, List.mem_cons, not_or]
  exact ⟨(isWord_refName hf r).newline_notMem, (mark_cases x.ty).2, (Ty.name_cases x.ty).2,
    by decide, x.op.nameBytes_word.1.newline_notMem, (isColumns_afterOpcode x.op hcolumns).2⟩

/-- **The line of a record** shows what there is to see of it. -/
theorem looksLike_of_recordLine (hxpri : x.op ≠ .kpri) (hypri : y.op ≠ .kpri)
    (hxty : x.ty.IsNamed) (hyty : y.ty.IsNamed) (hx : recordLine p r x f = .ok l)
    (hy : recordLine q r y f = .ok l) : x.LooksLike p q y := by
  obtain ⟨rest, hrest, hcolumns, rfl⟩ := recordLine_eq_ok hf hxpri hx
  obtain ⟨rest', hrest', hcolumns', hline⟩ := recordLine_eq_ok hf hypri hy
  -- column by column: the reference is the same, and mark and type have a fixed width
  have hmarks := List.append_cancel_left (List.append_cancel_right hline)
  obtain ⟨hmark, hnames⟩ := List.append_inj hmarks
    ((mark_cases x.ty).1.trans (mark_cases y.ty).1.symm)
  obtain ⟨hname, hops⟩ := List.append_inj hnames
    ((Ty.name_cases x.ty).1.trans (Ty.name_cases y.ty).1.symm)
  obtain ⟨hop, hafter⟩ := x.op.nameBytes_word.1.append_inj y.op.nameBytes_word.1
    (isColumns_afterOpcode _ hcolumns).1 (isColumns_afterOpcode _ hcolumns').1
    (List.cons.inj hops).2
  have hop := Opcode.nameBytes_injective hop
  rw [← hop] at hafter
  rw [← afterOpcode_injective hafter] at hrest'
  exact looksLike_of_details hf hop (Ty.tag_eq_of_name hxty hyty hname) (isGuard_eq_of_mark hmark)
    hrest hrest'

/-! ### Lines of snapshots -/

omit hf in
private theorem breaks_refNames (refs : List Ref) :
    Bytes.Breaks (refs.flatMap fun r => Bytes.ascii " " ++ refName r f) := by
  cases refs with
  | nil => exact Bytes.breaks_nil
  | cons r refs => exact Bytes.breaks_cons _

/-- **The line of a snapshot** shows what it refers to. -/
theorem snapshotLine_injective {i : Nat} {refs refs' : List Ref}
    (h : snapshotLine i refs f = snapshotLine i refs' f) : refs = refs' := by
  unfold snapshotLine at h
  replace h := List.append_cancel_left (List.append_cancel_right h)
  induction refs generalizing refs' with
  | nil =>
    cases refs' with
    | nil => rfl
    | cons r refs' => cases h
  | cons r refs ih =>
    cases refs' with
    | nil => cases h
    | cons s refs' =>
      rw [List.flatMap_cons, List.flatMap_cons, List.append_assoc, List.append_assoc] at h
      obtain ⟨hname, hrest⟩ := (isWord_refName hf r).append_inj (isWord_refName hf s)
        (breaks_refNames refs) (breaks_refNames refs') (List.append_cancel_left h)
      rw [refName_injective hf hname, ih hrest]

theorem isLine_snapshotLine (i : Nat) (refs : List Ref) : (snapshotLine i refs f).IsLine := by
  refine ⟨_, rfl, ?_⟩
  rw [List.mem_append, List.mem_append, List.mem_flatMap]
  rintro ((hmem | hmem) | ⟨r, -, hmem⟩)
  · exact absurd hmem (by decide)
  · cases hf.digits 0 i _ hmem
  · rcases List.mem_append.mp hmem with hmem | hmem
    · exact absurd hmem (by decide)
    · exact (isWord_refName hf r).newline_notMem hmem

end

end Dump

end TraceIR
