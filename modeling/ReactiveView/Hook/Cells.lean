import ReactiveView.Value.Convert

namespace ReactiveView

inductive Datum where
  | int (n : Int64)
  | text (s : String)
  | flag (b : Bool)
  | value (v : Value)
  /-- What an effect last ran for, if it has run. -/
  | deps (d : Option Value)

inductive DatumKind where
  | int
  | text
  | flag
  | value
  | deps
  deriving DecidableEq, Repr

namespace Datum

def kind : Datum → DatumKind
  | int _ => .int
  | text _ => .text
  | flag _ => .flag
  | value _ => .value
  | deps _ => .deps

def equal : Datum → Datum → Bool
  | int a, int b => a == b
  | text a, text b => a == b
  | flag a, flag b => a == b
  | value a, value b => a == b
  | deps a, deps b => a == b
  | _, _ => false

instance : BEq Datum := ⟨equal⟩

instance : Inhabited Datum := ⟨.value .null⟩

def toValue : Datum → Value
  | int n => .int n
  | text s => .str s
  | flag b => .bool b
  | value v => v
  | deps d => Value.ofOption d

/-- Add to a content: to a text its decimal digits; a flag flips when the number is odd. -/
def add (n : Int64) : Datum → Datum
  | int m => .int (m + n)
  | text s => .text (s ++ toString n.toInt)
  | flag b => .flag (if n % 2 = 0 then b else !b)
  | value v => .value (v.add n)
  | deps d => .deps d

end Datum

abbrev CellId := Nat

/-- All cells that were ever made, in the order in which they were made. A cell keeps the kind of
its first content for good, and nothing removes it. -/
structure Cells where
  contents : Array Datum

namespace Cells

def empty : Cells := ⟨#[]⟩

def read (c : Cells) (id : CellId) : Datum := c.contents[id]?.getD default

def make (c : Cells) (d : Datum) : CellId × Cells := (c.contents.size, ⟨c.contents.push d⟩)

def write (c : Cells) (id : CellId) (d : Datum) : Cells :=
  if (c.read id).kind = d.kind then ⟨c.contents.setIfInBounds id d⟩ else c

theorem read_make (c : Cells) (d : Datum) (id : CellId) :
    (c.make d).2.read id = if id = c.contents.size then d else c.read id := by
  by_cases h : id = c.contents.size <;> simp [make, read, Array.getElem?_push, h]

theorem read_write (c : Cells) (d : Datum) {id : CellId} (h : id < c.contents.size)
    (hk : (c.read id).kind = d.kind) (other : CellId) :
    (c.write id d).read other = if other = id then d else c.read other := by
  rw [write, if_pos hk]
  simp only [read, Array.getElem?_setIfInBounds]
  by_cases ho : id = other
  · subst ho; simp [h]
  · simp [ho, Ne.symm ho]

theorem kind_write (c : Cells) (id : CellId) (d : Datum) (other : CellId) :
    ((c.write id d).read other).kind = (c.read other).kind := by
  unfold write
  split
  · rename_i hk
    simp only [read, Array.getElem?_setIfInBounds] at hk ⊢
    by_cases ho : id = other
    · subst ho
      by_cases h : id < c.contents.size
      · simp only [if_true, h]
        rw [hk]
        rfl
      · simp [h]
    · simp [ho]
  · rfl

end Cells

end ReactiveView
