import TraceIR.Bytes

/-!
# Tables of names

What the names of a script stand for. A name stands for one thing at a time: binding it again
replaces what it stood for.
-/

namespace TraceIR.Script

/-- A finite table from names to values. -/
structure Names (α : Type) where
  entries : List (Bytes × α)
  deriving DecidableEq, Repr

namespace Names

variable {α : Type}

instance : Inhabited (Names α) := ⟨⟨[]⟩⟩

def empty : Names α := ⟨[]⟩

/-- What a name stands for. -/
def get? (t : Names α) (name : Bytes) : Option α :=
  t.entries.lookup name

/-- Bind a name. -/
def insert (t : Names α) (name : Bytes) (a : α) : Names α :=
  ⟨(name, a) :: t.entries.filter (·.1 != name)⟩

/-- Forget the names whose values do not satisfy a condition. -/
def retain (t : Names α) (keep : α → Bool) : Names α :=
  ⟨t.entries.filter fun (_, a) => keep a⟩

@[simp] theorem get?_empty (name : Bytes) : (empty : Names α).get? name = none := rfl

@[simp] theorem get?_insert_self (t : Names α) (name : Bytes) (a : α) :
    (t.insert name a).get? name = some a := by
  simp [get?, insert]

theorem get?_insert_of_ne (t : Names α) {name other : Bytes} (a : α) (h : other ≠ name) :
    (t.insert name a).get? other = t.get? other := by
  have hne : (other == name) = false := by simpa using h
  simp only [get?, insert, List.lookup_cons, hne]
  induction t.entries with
  | nil => rfl
  | cons e es ih =>
    obtain ⟨key, value⟩ := e
    by_cases he : key = name
    · simp [he, List.lookup_cons, hne, ih]
    · by_cases ho : other = key
      · simp [he, ho]
      · have : (other == key) = false := by simpa using ho
        simp [he, List.lookup_cons, this, ih]

end Names

end TraceIR.Script
