namespace ReactiveView.Increasing

/-- The first number between two bounds for which a test fails, where it fails from there on. -/
def search (p : Nat → Bool) (low high : Nat) : Nat :=
  if low < high then
    let middle := (low + high) / 2
    if p middle then search p (middle + 1) high else search p low middle
  else low
termination_by high - low

/-- What is known of the items that have been read: for every length the position where a run of
that length ends in the smallest number, and the links that lead back through these runs. -/
structure Links where
  /-- For every length the position where a run of that length ends. -/
  tails : List Nat
  /-- For every position the one before it in the run that ends there. -/
  prev : List (Option Nat)
  tails_lt : ∀ t ∈ tails, t < prev.length
  prev_lt : ∀ {i j : Nat}, prev[i]? = some (some j) → j < i

namespace Links

def empty : Links := ⟨[], [], by simp, by simp⟩

def slot (s : Links) (ns : List Nat) (n : Nat) : Nat :=
  search (fun k => (s.tails[k]?.bind (ns[·]?)).any (· < n)) 0 s.tails.length

/-- The next item of a list is put behind the longest run that ends below it, in place of the run
that was one longer. -/
def extend (ns : List Nat) (s : Links) (n : Nat) : Links where
  tails :=
    if s.slot ns n = s.tails.length then s.tails ++ [s.prev.length]
    else s.tails.set (s.slot ns n) s.prev.length
  prev := s.prev ++ [if s.slot ns n = 0 then none else s.tails[s.slot ns n - 1]?]
  tails_lt := by
    intro t ht
    have htails : t ∈ s.tails ∨ t = s.prev.length := by
      split at ht
      · simpa using ht
      · exact List.mem_or_eq_of_mem_set ht
    rw [List.length_append, List.length_singleton]
    obtain ht | rfl := htails
    · exact Nat.lt_succ_of_lt (s.tails_lt t ht)
    · exact Nat.lt_succ_self _
  prev_lt := by
    intro i j h
    rw [List.getElem?_append] at h
    split at h
    · exact s.prev_lt h
    · obtain ⟨hi, h⟩ := List.getElem?_eq_some_iff.mp h
      rw [List.getElem_singleton] at h
      split at h
      · cases h
      · have hj := s.tails_lt j (List.mem_of_getElem? h)
        omega

def mark (s : Links) (i : Nat) (keep : List Bool) : List Bool :=
  match _h : s.prev[i]? with
  | some (some j) => s.mark j (keep.set i true)
  | _ => keep.set i true
termination_by i
decreasing_by exact s.prev_lt _h

end Links

def links (ns : List Nat) : Links := ns.foldl (Links.extend ns) .empty

/-- Which items of a list stand in the longest run that is found. -/
def mask (ns : List Nat) : List Bool :=
  let keep := List.replicate ns.length false
  match (links ns).tails.getLast? with
  | some i => (links ns).mark i keep
  | none => keep

end ReactiveView.Increasing
