namespace ReactiveView

abbrev Ranges := List (Nat × Nat)

namespace Ranges

def holds (rs : Ranges) (n : Nat) : Bool := rs.any fun r => r.1 ≤ n && n ≤ r.2

theorem holds_eq_true_iff {rs : Ranges} {n : Nat} :
    rs.holds n = true ↔ ∃ r ∈ rs, r.1 ≤ n ∧ n ≤ r.2 := by
  simp [holds]

theorem holds_eq_false {rs : Ranges} {low high n : Nat}
    (h : ∀ r ∈ rs, r.2 < low ∨ high < r.1) (hl : low ≤ n) (hh : n ≤ high) :
    rs.holds n = false := by
  rw [Bool.eq_false_iff]
  intro hn
  obtain ⟨r, hr, h₁, h₂⟩ := holds_eq_true_iff.mp hn
  have := h r hr
  omega

end Ranges

end ReactiveView
