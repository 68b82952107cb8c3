import ReactiveView.Hook.Cells

namespace ReactiveView

/-- Where a bucket belongs: a component and the number of components around it. Several uses of one
component at one depth share a bucket. -/
structure Coordinate where
  component : String
  depth : Nat
  deriving DecidableEq, Repr

abbrev Bucket := List CellId

def Bucket.diagnostic (b : Bucket) : String :=
  "StateBucket \x7b slots: " ++ toString b.length ++ " \x7d"

/-- All buckets, in the order in which they were first loaded, with the active one and the number
of its slots that have been taken. -/
structure Registry where
  buckets : List (Coordinate × Bucket)
  active : Option Coordinate
  cursor : Nat
  deriving DecidableEq, Repr

namespace Registry

def empty : Registry := ⟨[], none, 0⟩

def bucket? (r : Registry) (key : Coordinate) : Option Bucket := r.buckets.lookup key

def size (r : Registry) : Nat := r.buckets.length

/-- Make a bucket active from its first slot on; one that is not there yet is empty. -/
def load (r : Registry) (key : Coordinate) : Registry :=
  { buckets := if (r.bucket? key).isSome then r.buckets else r.buckets ++ [(key, [])]
    active := some key
    cursor := 0 }

def replace (r : Registry) (key : Coordinate) (b : Bucket) : Registry :=
  { r with buckets := r.buckets.map fun e => if e.1 = key then (key, b) else e }

def clean (r : Registry) : Registry :=
  match r.active with
  | some key => { r.replace key [] with cursor := 0 }
  | none => { r with cursor := 0 }

def reset (r : Registry) : Registry := { r with active := none, cursor := 0 }

/-- Take the next slot for a hook that starts with some content. Where no bucket is active the
cell is in none. -/
def next (r : Registry) (cells : Cells) (initial : Datum) : CellId × Cells × Registry :=
  let moved := { r with cursor := r.cursor + 1 }
  let (fresh, extended) := cells.make initial
  match r.active with
  | none => (fresh, extended, moved)
  | some key =>
    match r.bucket? key with
    | none => (fresh, extended, moved)
    | some slots =>
      match slots[r.cursor]? with
      | some cell =>
        if (cells.read cell).kind = initial.kind then (cell, cells, moved)
        else (fresh, extended, moved.replace key (slots.set r.cursor fresh))
      | none => (fresh, extended, moved.replace key (slots ++ [fresh]))

theorem lookup_map_replace (bs : List (Coordinate × Bucket)) (key other : Coordinate) (b : Bucket) :
    (bs.map fun e => if e.1 = key then (key, b) else e).lookup other =
      if other = key then (bs.lookup other).map (fun _ => b) else bs.lookup other := by
  induction bs with
  | nil => simp
  | cons e rest ih =>
    obtain ⟨k, old⟩ := e
    by_cases hk : k = key
    · subst hk
      by_cases ho : other = k
      · subst ho; simp
      · simp [List.lookup_cons, beq_false_of_ne ho, ih, ho]
    · by_cases ho : other = k
      · subst ho; simp [hk]
      · simp [List.lookup_cons, beq_false_of_ne ho, hk, ih]

theorem bucket?_replace (r : Registry) (key other : Coordinate) (b : Bucket) :
    (r.replace key b).bucket? other =
      if other = key then (r.bucket? other).map (fun _ => b) else r.bucket? other :=
  lookup_map_replace r.buckets key other b

end Registry

end ReactiveView
