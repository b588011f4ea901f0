import Mathlib.Data.List.Induction
import TraceIR.Proofs.BitSet

/-!
# Sets of keys as finite sets

A bit set stands for a finite set of integers, given by its keys in increasing order. What is in it
follows from what was done to it: the keys that were added and not taken out since.

* `BitSet.keysIn` lists the keys in numbered words. If the numbers increase, so do the keys
  (`BitSet.pairwise_keysIn`), and each is listed once.
* `BitSet.Walk` is the visitor's side: it sees the keys one by one and may stop after any of them.
* `BitSet.Change` is one change of a set, and `BitSet.HeldAfter` says in terms of the changes alone
  which keys are held. `BitSet.apply_spec` is one change, and `BitSet.Fresh.run_spec` says that a
  set agrees after any number of them.
-/

namespace TraceIR.BitSet

/-! ### Words and their numbers -/

/-- A stored word is found under its number. -/
private theorem word_of_mem {ws : List (Nat × UInt64)} (h : OrderedWords ws) {p : Nat × UInt64}
    (hp : p ∈ ws) : word ws p.1 = p.2 := by
  induction ws with
  | nil => cases hp
  | cons q ws ih =>
    obtain ⟨hfirst, hrest⟩ := List.pairwise_cons.mp h
    rcases List.mem_cons.mp hp with rfl | hp
    · rw [word, if_pos rfl]
    · -- the first number is lower, so the search goes on
      have hlt := hfirst p hp
      rw [word, if_neg (Nat.ne_of_lt hlt), if_neg (Nat.lt_asymm hlt)]
      exact ih hrest hp

/-- A word that is not zero is stored. -/
private theorem mem_of_word_ne {ws : List (Nat × UInt64)} {i : Nat} (h : word ws i ≠ 0) :
    (i, word ws i) ∈ ws := by
  induction ws with
  | nil => exact absurd rfl h
  | cons q ws ih =>
    rw [word] at h ⊢
    by_cases hq : q.1 = i
    · rw [if_pos hq, ← hq]
      exact List.mem_cons_self
    · rw [if_neg hq] at h ⊢
      by_cases hlt : i < q.1
      · rw [if_pos hlt] at h
        exact absurd rfl h
      · rw [if_neg hlt] at h ⊢
        exact List.mem_cons_of_mem _ (ih h)

theorem testBit_zero (j : Nat) : testBit 0 j = false :=
  Nat.zero_testBit j

/-! ### The keys in numbered words -/

/-- The keys in a word. -/
def keysInWord (base : Int) (p : Nat × UInt64) : List Int :=
  (wordBits p.2).map fun j => base + ((p.1 * 64 + j : Nat) : Int)

/-- The keys in numbered words. -/
def keysIn (base : Int) (ws : List (Nat × UInt64)) : List Int :=
  ws.flatMap (keysInWord base)

private theorem toList_eq (s : BitSet) : s.toList = keysIn s.base s.words := rfl

private theorem mem_keysInWord {base k : Int} {p : Nat × UInt64} :
    k ∈ keysInWord base p ↔ base ≤ k ∧ (k - base).toNat / 64 = p.1 ∧
      testBit p.2 ((k - base).toNat % 64) = true := by
  simp only [keysInWord, wordBits, List.mem_map, List.mem_filter, List.mem_range]
  constructor
  · rintro ⟨j, ⟨hj, hbit⟩, rfl⟩
    have hoffset : (base + ((p.1 * 64 + j : Nat) : Int) - base).toNat = p.1 * 64 + j := by omega
    have hmod : (p.1 * 64 + j) % 64 = j := by omega
    rw [hoffset, hmod]
    exact ⟨by omega, by omega, hbit⟩
  · rintro ⟨hle, hword, hbit⟩
    exact ⟨(k - base).toNat % 64, ⟨Nat.mod_lt _ (by decide), hbit⟩, by omega⟩

theorem mem_keysIn {base k : Int} {ws : List (Nat × UInt64)} :
    k ∈ keysIn base ws ↔ ∃ p ∈ ws, base ≤ k ∧ (k - base).toNat / 64 = p.1 ∧
      testBit p.2 ((k - base).toNat % 64) = true := by
  rw [keysIn, List.mem_flatMap]
  simp only [mem_keysInWord]

/-- The bits of a word come in order. -/
private theorem pairwise_keysInWord (base : Int) (p : Nat × UInt64) :
    (keysInWord base p).Pairwise (· < ·) := by
  rw [keysInWord, List.pairwise_map]
  have hbits : (wordBits p.2).Pairwise (· < ·) := List.pairwise_lt_range.filter _
  exact hbits.imp fun hlt => by omega

/-- **The keys come in order** if the words do. -/
theorem pairwise_keysIn (base : Int) {ws : List (Nat × UInt64)} (h : OrderedWords ws) :
    (keysIn base ws).Pairwise (· < ·) := by
  rw [keysIn, List.pairwise_flatMap]
  refine ⟨fun p _ => pairwise_keysInWord base p, h.imp ?_⟩
  -- the number of the word decides between keys of different words
  intro p q hlt a ha b hb
  rw [mem_keysInWord] at ha hb
  omega

private theorem length_keysInWord (base : Int) (p : Nat × UInt64) :
    (keysInWord base p).length = popCount p.2 := by
  rw [keysInWord, List.length_map, wordBits, popCount, List.countP_eq_length_filter]

/-- The keys are counted word by word. -/
theorem length_keysIn (base : Int) (ws : List (Nat × UInt64)) :
    (keysIn base ws).length = ws.foldl (fun n p => n + popCount p.2) 0 := by
  -- the sum so far is what the induction needs
  have hsum : ∀ n, n + (keysIn base ws).length = ws.foldl (fun n p => n + popCount p.2) n := by
    induction ws with
    | nil => exact fun n => rfl
    | cons p ws ih =>
      intro n
      rw [List.foldl_cons, ← ih, keysIn, List.flatMap_cons, List.length_append, length_keysInWord,
        Nat.add_assoc]
      rfl
  rw [← hsum, Nat.zero_add]

/-! ### A set and its keys -/

section Keys

variable {s : BitSet} {k : Int}

/-- **What is listed** is what is contained. -/
theorem mem_toList (h : s.Ordered) : k ∈ s.toList ↔ s.contains k = true := by
  rw [toList_eq, mem_keysIn, contains, Bool.and_eq_true, decide_eq_true_iff, offset]
  constructor
  · rintro ⟨p, hp, hle, hword, hbit⟩
    rw [hword, word_of_mem h hp]
    exact ⟨hle, hbit⟩
  · rintro ⟨hle, hbit⟩
    -- a word in which a bit is set is not zero, so it is stored
    refine ⟨_, mem_of_word_ne fun hzero => ?_, hle, rfl, hbit⟩
    rw [hzero, testBit_zero] at hbit
    cases hbit

theorem size_eq_length (s : BitSet) : s.size = s.toList.length := by
  rw [toList_eq, length_keysIn]
  rfl

/-- Lists in increasing order are determined by their members. -/
theorem eq_of_pairwise {l l' : List Int} (h : l.Pairwise (· < ·)) (h' : l'.Pairwise (· < ·))
    (hmem : ∀ k, k ∈ l ↔ k ∈ l') : l = l' := by
  have hperm : l.Perm l' := by
    refine (List.perm_ext_iff_of_nodup (h.imp ?_) (h'.imp ?_)).mpr hmem
    · exact fun hlt => Int.ne_of_lt hlt
    · exact fun hlt => Int.ne_of_lt hlt
  refine hperm.eq_of_pairwise (fun a b _ _ hab hba => ?_) h h'
  exact absurd hab (Int.lt_asymm hba)

end Keys

/-! ### Visiting keys -/

/-- Show keys one by one. After each of them `more` says, from what was shown so far, whether to go
on. The flag says whether the visitor has always asked for more. -/
def showKeys (more : List Int → Bool) : (seen : List Int) → List Int → List Int × Bool
  | seen, [] => (seen, true)
  | seen, k :: ks =>
    if more (seen ++ [k]) then showKeys more (seen ++ [k]) ks else (seen ++ [k], false)

/-- Show the keys in numbered words, word by word. A visitor who stops inside a word sees none of
the later words either. -/
def showWords (keys : Nat × UInt64 → List Int) (more : List Int → Bool) :
    (seen : List Int) → List (Nat × UInt64) → List Int × Bool
  | seen, [] => (seen, true)
  | seen, p :: ws =>
    let shown := showKeys more seen (keys p)
    if shown.2 then showWords keys more shown.1 ws else shown

/-- The keys of the set that a visitor sees. -/
def visit (s : BitSet) (more : List Int → Bool) : List Int :=
  (showWords (keysInWord s.base) more [] s.words).1

/-- What a visitor of `keys` sees: a first part, which ends with the keys or with the first one
after which the visitor wants no more. -/
structure Walk (more : List Int → Bool) (keys shown : List Int) : Prop where
  begins : shown <+: keys
  wanted : ∀ p, p <+: shown → p ≠ [] → p ≠ shown → more p = true
  ends : shown = keys ∨ shown ≠ [] ∧ more shown = false

section Visit

variable {more : List Int → Bool}

private theorem showKeys_append (seen as bs : List Int) :
    showKeys more seen (as ++ bs) =
      if (showKeys more seen as).2 then showKeys more (showKeys more seen as).1 bs
      else showKeys more seen as := by
  induction as generalizing seen with
  | nil => rfl
  | cons k as ih =>
    rw [List.cons_append, showKeys, showKeys]
    by_cases hmore : more (seen ++ [k]) = true
    · rw [if_pos hmore, if_pos hmore]
      exact ih _
    · -- a visitor who stops in the first part sees nothing of the second
      rw [if_neg hmore, if_neg hmore]
      rfl

/-- Going word by word makes no difference. -/
theorem showWords_eq (keys : Nat × UInt64 → List Int) (seen : List Int)
    (ws : List (Nat × UInt64)) :
    showWords keys more seen ws = showKeys more seen (ws.flatMap keys) := by
  induction ws generalizing seen with
  | nil => rfl
  | cons p ws ih =>
    rw [showWords, List.flatMap_cons, showKeys_append]
    split
    · exact ih _
    · rfl

/-- One more key in front, after which the visitor wanted more. -/
private theorem Walk.cons {k : Int} {ks p : List Int} (hmore : more [k] = true)
    (h : Walk (fun q => more (k :: q)) ks p) : Walk more (k :: ks) (k :: p) where
  begins := (List.prefix_cons_inj k).mpr h.begins
  wanted := by
    intro q hq hne hproper
    rcases List.prefix_cons_iff.mp hq with rfl | ⟨r, rfl, hr⟩
    · exact absurd rfl hne
    · by_cases hnil : r = []
      · rw [hnil]
        exact hmore
      · exact h.wanted r hr hnil fun heq => hproper (by rw [heq])
  ends := by
    rcases h.ends with heq | ⟨-, hstop⟩
    · exact .inl (by rw [heq])
    · exact .inr ⟨List.cons_ne_nil _ _, hstop⟩

/-- **What is shown** from some point on. -/
theorem exists_walk (seen ks : List Int) :
    ∃ p, (showKeys more seen ks).1 = seen ++ p ∧ Walk (fun q => more (seen ++ q)) ks p := by
  induction ks generalizing seen with
  | nil =>
    refine ⟨[], (List.append_nil seen).symm, List.nil_prefix, fun q hq hne _ => ?_, .inl rfl⟩
    exact absurd (List.prefix_nil.mp hq) hne
  | cons k ks ih =>
    rw [showKeys]
    by_cases hmore : more (seen ++ [k]) = true
    · rw [if_pos hmore]
      obtain ⟨p, hshown, hp⟩ := ih (seen ++ [k])
      refine ⟨k :: p, by rw [hshown, List.append_assoc, List.singleton_append], .cons hmore ?_⟩
      simpa only [List.append_assoc, List.singleton_append] using hp
    · rw [if_neg hmore]
      refine ⟨[k], rfl, ⟨ks, rfl⟩, fun q hq hne hproper => ?_, .inr ⟨List.cons_ne_nil _ _, ?_⟩⟩
      · -- the only part of one key that is not empty is the whole
        rcases List.prefix_cons_iff.mp hq with rfl | ⟨r, rfl, hr⟩
        · exact absurd rfl hne
        · exact absurd (by rw [List.prefix_nil.mp hr]) hproper
      · exact Bool.eq_false_iff.mpr hmore

theorem walk_showWords (keys : Nat × UInt64 → List Int) (ws : List (Nat × UInt64)) :
    Walk more (ws.flatMap keys) (showWords keys more [] ws).1 := by
  obtain ⟨p, hshown, hp⟩ := exists_walk [] (ws.flatMap keys)
  rw [showWords_eq, hshown]
  exact hp

end Visit

/-! ### Changes -/

/-- One change of a set. -/
inductive Change where
  | insert (k : Int)
  | insertAll (ks : List Int)
  | erase (k : Int)
  | clear
  | strip

namespace Change

/-- The keys that a change names. -/
def keys : Change → List Int
  | insert k => [k]
  | insertAll ks => ks
  | erase k => [k]
  | clear => []
  | strip => []

/-- The set after a change, and why the change was cut short. -/
def apply (s : BitSet) : Change → BitSet × Option KeyError
  | insert k => s.insert k
  | insertAll ks => s.insertAll ks
  | erase k =>
    match s.erase? k with
    | .ok s => (s, none)
    | .error e => (s, some e)
  | clear => (s.clear, none)
  | strip => (s.strip, none)

/-- The distances of the keys from the base are signed 64-bit numbers. -/
def InReach (base : Int) (c : Change) : Prop :=
  ∀ k ∈ c.keys, k - base < distanceLimit

/-- The change puts the key into the set. Of several keys, those count that come before the first
one below the base. -/
def Adds (base : Int) : Change → Int → Prop
  | insert k', k => k' = k ∧ base ≤ k
  | insertAll ks, k => k ∈ ks.takeWhile (base ≤ ·)
  | _, _ => False

/-- The change takes the key out of the set. -/
def Removes : Change → Int → Prop
  | erase k', k => k' = k
  | clear, _ => True
  | _, _ => False

/-- Why the change is cut short: the first key below the base that should be added. -/
def refusal (base : Int) : Change → Option KeyError
  | insert k => if k < base then some (.below k) else none
  | insertAll ks => (ks.find? (· < base)).map .below
  | _ => none

end Change

/-- The set after some changes. -/
def run (s : BitSet) (l : List Change) : BitSet :=
  l.foldl (fun s c => (c.apply s).1) s

/-- Some change added the key, and no later one took it out. -/
def HeldAfter (base : Int) (l : List Change) (k : Int) : Prop :=
  ∃ before c after, l = before ++ c :: after ∧ c.Adds base k ∧ ∀ d ∈ after, ¬ d.Removes k

private theorem not_heldAfter_nil (base k : Int) : ¬ HeldAfter base [] k := by
  rintro ⟨before, c, after, hl, -⟩
  simp at hl

/-- The last change decides, or the key was held before it and stays. -/
private theorem heldAfter_concat {base k : Int} {l : List Change} {c : Change} :
    HeldAfter base (l ++ [c]) k ↔ c.Adds base k ∨ HeldAfter base l k ∧ ¬ c.Removes k := by
  constructor
  · rintro ⟨before, d, after, hl, hadds, hkept⟩
    rcases List.eq_nil_or_concat after with rfl | ⟨after, e, rfl⟩
    · -- the key was added by the last change
      obtain ⟨-, rfl⟩ := List.append_inj' hl rfl |>.imp_right List.singleton_inj.mp
      exact .inl hadds
    · -- the last change came later, so the same change added the key before it
      rw [List.concat_eq_append] at hl hkept
      rw [← List.cons_append, ← List.append_assoc] at hl
      obtain ⟨rfl, hc⟩ := List.append_inj' hl rfl
      cases hc
      rw [List.forall_mem_append] at hkept
      exact .inr ⟨⟨before, d, after, rfl, hadds, hkept.1⟩, hkept.2 c List.mem_cons_self⟩
  · rintro (hadds | ⟨⟨before, d, after, rfl, hadds, hkept⟩, hc⟩)
    · exact ⟨l, c, [], rfl, hadds, fun _ h => absurd h List.not_mem_nil⟩
    · refine ⟨before, d, after ++ [c], by simp, hadds, ?_⟩
      rw [List.forall_mem_append]
      exact ⟨hkept, List.forall_mem_singleton.mpr hc⟩

/-! ### One change -/

section Apply

variable {s : BitSet} {k : Int} {c : Change}

theorem contains_of_lt (h : k < s.base) : s.contains k = false := by
  rw [contains, decide_eq_false (Int.not_le.mpr h), Bool.false_and]

theorem offset_lt (h : k - s.base < distanceLimit) : s.offset k < distanceLimit := by
  have hpos : 0 < distanceLimit := by decide
  rw [offset]
  omega

/-- A key in reach can be looked for. -/
private theorem isTooFar_eq_false (h : k - s.base < distanceLimit) : s.isTooFar k = false := by
  rw [isTooFar, decide_eq_false (Nat.not_le.mpr (offset_lt h)), Bool.false_and]

theorem contains?_eq (h : k - s.base < distanceLimit) : s.contains? k = .ok (s.contains k) := by
  rw [contains?, isTooFar_eq_false h]
  rfl

theorem insert_of_lt (h : k < s.base) : s.insert k = (s, some (.below k)) :=
  if_pos h

/-- A key in reach and not below the base is added without complaint. -/
theorem insert_snd (hk : s.base ≤ k) (h : k - s.base < distanceLimit) : (s.insert k).2 = none := by
  rw [insert, if_neg (Int.not_lt.mpr hk), if_neg (Nat.not_le.mpr (offset_lt h))]

/-- **Several keys** are added up to the first one below the base. -/
theorem insertAll_spec {ks : List Int} :
    ∀ {s : BitSet}, s.Ordered → (∀ k ∈ ks, k - s.base < distanceLimit) →
      (s.insertAll ks).1.Ordered ∧ (s.insertAll ks).1.base = s.base ∧
        (s.insertAll ks).2 = (ks.find? (· < s.base)).map .below ∧
        ∀ k, (s.insertAll ks).1.contains k = true ↔
          k ∈ ks.takeWhile (s.base ≤ ·) ∨ s.contains k = true := by
  induction ks with
  | nil =>
    intro s h _
    exact ⟨h, rfl, rfl, fun k => by simp [insertAll]⟩
  | cons a ks ih =>
    intro s h hreach
    obtain ⟨ha, hks⟩ := List.forall_mem_cons.mp hreach
    rw [insertAll]
    by_cases hlt : a < s.base
    · -- here it ends, and what came before stays
      have hnot : ¬ s.base ≤ a := Int.not_le.mpr hlt
      rw [insert_of_lt hlt, List.find?_cons_of_pos (by simpa using hlt),
        List.takeWhile_cons_of_neg (by simpa using hnot)]
      exact ⟨h, rfl, rfl, fun k => by simp⟩
    · have hle := Int.not_lt.mp hlt
      have hbase := base_insert hle (offset_lt ha)
      have hnone := insert_snd hle ha
      have hcontains := contains_insert h hle (offset_lt ha)
      have hordered := h.insert hle (offset_lt ha)
      generalize s.insert a = r at hbase hnone hcontains hordered
      obtain ⟨s', e⟩ := r
      cases hnone
      dsimp only at hbase hcontains hordered ⊢
      obtain ⟨h₁, h₂, h₃, h₄⟩ := ih hordered (hbase ▸ hks)
      rw [hbase] at h₂ h₃ h₄
      rw [List.find?_cons_of_neg (by simpa using hle),
        List.takeWhile_cons_of_pos (by simpa using hle)]
      refine ⟨h₁, h₂, h₃, fun k => ?_⟩
      rw [h₄, hcontains, List.mem_cons, or_comm (b := k = a), ← or_assoc, or_comm (a := k ∈ _)]

theorem erase?_eq (h : k - s.base < distanceLimit) : s.erase? k = .ok (s.erase k) := by
  rw [erase?, isTooFar_eq_false h]
  rfl

private theorem contains_erase_iff (h : s.Ordered) (a k : Int) :
    (s.erase a).contains k = true ↔ s.contains k = true ∧ ¬ a = k := by
  by_cases ha : s.base ≤ a
  · rw [contains_erase h ha, ne_comm]
  · -- there is nothing below the base to be taken out
    rw [erase, if_pos (Int.not_le.mp ha)]
    refine ⟨fun hk => ⟨hk, ?_⟩, fun hk => hk.1⟩
    rintro rfl
    rw [contains_of_lt (Int.not_le.mp ha)] at hk
    cases hk

/-- Giving up room changes no key. -/
private theorem contains_strip (s : BitSet) (k : Int) : s.strip.contains k = s.contains k := rfl

theorem contains_clear (s : BitSet) (k : Int) : s.clear.contains k = false := by
  have hbit :
      testBit (word s.clear.words (s.clear.offset k / 64)) (s.clear.offset k % 64) = false :=
    testBit_zero _
  rw [contains, hbit, Bool.and_false]

/-- **One change**: it keeps the words in order and the base, complains about keys below the base
only, and adds and removes what it says. -/
theorem apply_spec (h : s.Ordered) (hc : c.InReach s.base) :
    (c.apply s).1.Ordered ∧ (c.apply s).1.base = s.base ∧ (c.apply s).2 = c.refusal s.base ∧
      ∀ k, (c.apply s).1.contains k = true ↔
        c.Adds s.base k ∨ s.contains k = true ∧ ¬ c.Removes k := by
  cases c with
  | insert a =>
    have ha : a - s.base < distanceLimit := hc a List.mem_cons_self
    simp only [Change.apply, Change.refusal, Change.Adds, Change.Removes, not_false_iff, and_true]
    by_cases hlt : a < s.base
    · -- the key is refused, and it is not among the keys that count as added
      rw [insert_of_lt hlt, if_pos hlt]
      refine ⟨h, rfl, rfl, fun k => ?_⟩
      constructor
      · exact .inr
      · rintro (⟨rfl, hle⟩ | hk)
        · exact absurd hlt (Int.not_lt.mpr hle)
        · exact hk
    · have hle := Int.not_lt.mp hlt
      rw [if_neg hlt]
      refine ⟨h.insert hle (offset_lt ha), base_insert hle (offset_lt ha), insert_snd hle ha,
        fun k => ?_⟩
      rw [contains_insert h hle (offset_lt ha)]
      constructor
      · rintro (hk | rfl)
        · exact .inr hk
        · exact .inl ⟨rfl, hle⟩
      · rintro (⟨rfl, -⟩ | hk)
        · exact .inr rfl
        · exact .inl hk
  | insertAll ks =>
    obtain ⟨h₁, h₂, h₃, h₄⟩ := insertAll_spec h hc
    refine ⟨h₁, h₂, h₃, fun k => ?_⟩
    simp only [Change.apply, Change.Adds, Change.Removes, not_false_iff, and_true]
    exact h₄ k
  | erase a =>
    have ha : a - s.base < distanceLimit := hc a List.mem_cons_self
    simp only [Change.apply, erase?_eq ha, Change.refusal, Change.Adds, Change.Removes, false_or]
    exact ⟨h.erase a, base_erase s a, trivial, contains_erase_iff h a⟩
  | clear =>
    refine ⟨.nil, rfl, rfl, fun k => ?_⟩
    simp only [Change.apply, Change.Adds, Change.Removes, contains_clear, not_true, and_false,
      or_false, Bool.false_eq_true]
  | strip =>
    refine ⟨h, rfl, rfl, fun k => ?_⟩
    simp only [Change.apply, Change.Adds, Change.Removes, contains_strip, not_false_iff, and_true,
      false_or]

end Apply

/-! ### Histories -/

/-- A set that is new: one that was never used, an empty one, or an empty one with some room. -/
inductive Fresh : BitSet → Prop
  | unused : Fresh {}
  | empty (base : Int) : Fresh (empty base)
  | withCapacity (base : Int) {n : Int} (hn : 0 ≤ n) : Fresh (withCapacity base n)

private theorem Fresh.words_eq {s : BitSet} (h : s.Fresh) : s.words = [] := by
  cases h <;> rfl

/-- A key that later changes do not add is held after them only if it was held before. -/
theorem HeldAfter.of_append {base k : Int} {l l' : List Change} (h : HeldAfter base (l ++ l') k)
    (hl' : ∀ c ∈ l', ¬ c.Adds base k) : HeldAfter base l k := by
  -- from the last change backwards: it did not add the key, so the key was held before it
  induction l' using List.reverseRecOn with
  | nil =>
    rwa [List.append_nil] at h
  | append_singleton l' c ih =>
    rw [List.forall_mem_append, List.forall_mem_singleton] at hl'
    rw [← List.append_assoc, heldAfter_concat] at h
    exact ih (h.resolve_left hl'.2).1 hl'.1

/-- **A whole history** of changes. -/
theorem Fresh.run_spec {s : BitSet} (h : s.Fresh) (l : List Change)
    (hl : ∀ c ∈ l, c.InReach s.base) :
    (s.run l).Ordered ∧ (s.run l).base = s.base ∧
      ∀ k, (s.run l).contains k = true ↔ HeldAfter s.base l k := by
  -- the induction takes off the last change, as `heldAfter_concat` does
  induction l using List.reverseRecOn with
  | nil =>
    have hwords := h.words_eq
    refine ⟨?_, rfl, fun k => ?_⟩
    · show OrderedWords s.words
      rw [hwords]
      exact .nil
    · refine iff_of_false ?_ (not_heldAfter_nil _ _)
      show ¬ s.contains k = true
      rw [contains, hwords, word, testBit_zero, Bool.and_false]
      exact Bool.false_ne_true
  | append_singleton l c ih =>
    rw [List.forall_mem_append, List.forall_mem_singleton] at hl
    obtain ⟨hordered, hbase, hcontains⟩ := ih hl.1
    obtain ⟨h₁, h₂, -, h₄⟩ := apply_spec hordered (c := c) (hbase ▸ hl.2)
    have hrun : s.run (l ++ [c]) = (c.apply (s.run l)).1 := by
      rw [run, List.foldl_append]
      rfl
    rw [hrun]
    refine ⟨h₁, h₂.trans hbase, fun k => ?_⟩
    rw [h₄, hcontains, hbase, heldAfter_concat]

end TraceIR.BitSet
