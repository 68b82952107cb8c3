import ReactiveView.Value.Basic

namespace ReactiveView

open Float.Model (UnpackedFloat)

/-- The number that a float stands for, with one zero. -/
def number? : UnpackedFloat → Option UnpackedFloat
  | .notANumber => none
  | .zero _ => some (.zero .positive)
  | x => some x

theorem compare_finite_iff {m m' : Nat} {e e' : Int} {h : 0 < m} {h' : 0 < m'}
    {s : UnpackedFloat.Sign} : (compare e e').then (compare m m') = .eq ↔
      ∃ x, some (UnpackedFloat.finite s m e h) = some x ∧
        some (UnpackedFloat.finite s m' e' h') = some x := by
  rw [Ordering.then_eq_eq, Std.compare_eq_iff_eq, Std.compare_eq_iff_eq]
  constructor
  · rintro ⟨rfl, rfl⟩
    exact ⟨_, rfl, rfl⟩
  · rintro ⟨x, hx, hy⟩
    cases hx
    cases hy
    exact ⟨rfl, rfl⟩

/-- Floats are equal if they stand for one number. -/
theorem float_beq_iff {a b : Float} : (a == b) = true ↔
    ∃ x, number? a.toModel.unpack = some x ∧ number? b.toModel.unpack = some x := by
  change (a.toModel.unpack.compare b.toModel.unpack == some .eq) = true ↔ _
  generalize a.toModel.unpack = a
  generalize b.toModel.unpack = b
  rw [beq_iff_eq]
  obtain (_ | _) | _ | _ | ⟨_ | _, m, e, h⟩ := a <;>
    obtain (_ | _) | _ | _ | ⟨_ | _, m', e', h'⟩ := b
  case finite.negative.finite.negative =>
    exact Option.some_inj.trans (Ordering.swap_eq_eq.trans compare_finite_iff)
  case finite.positive.finite.positive => exact Option.some_inj.trans compare_finite_iff
  all_goals first
    | exact iff_of_true rfl ⟨_, rfl, rfl⟩
    | refine iff_of_false (fun hc => by cases hc) ?_
      rintro ⟨x, hx, hy⟩
      cases hx <;> cases hy

theorem float_beq_symm {a b : Float} (h : (a == b) = true) : (b == a) = true := by
  obtain ⟨x, ha, hb⟩ := float_beq_iff.mp h
  exact float_beq_iff.mpr ⟨x, hb, ha⟩

theorem float_beq_trans {a b c : Float} (h : (a == b) = true) (h' : (b == c) = true) :
    (a == c) = true := by
  obtain ⟨x, ha, hb⟩ := float_beq_iff.mp h
  obtain ⟨y, hb', hc⟩ := float_beq_iff.mp h'
  obtain rfl := Option.some.inj (hb.symm.trans hb')
  exact float_beq_iff.mpr ⟨x, ha, hc⟩

namespace Value

mutual

theorem equal_symm : ∀ {a b : Value}, equal a b = true → equal b a = true
  | .float x, .float y, h => float_beq_symm h
  | .list as, .list bs, h => equalAll_symm h
  | .map as, .map bs, h => equalFields_symm h
  | .null, .null, h => h
  | .bool a, .bool b, h => by simp_all [equal]
  | .int a, .int b, h => by simp_all [equal]
  | .str a, .str b, h => by simp_all [equal]

theorem equalAll_symm : ∀ {as bs : List Value}, equalAll as bs = true → equalAll bs as = true
  | [], [], h => h
  | a :: as, b :: bs, h => by
    obtain ⟨hhead, htail⟩ := Bool.and_eq_true_iff.mp h
    exact Bool.and_eq_true_iff.mpr ⟨equal_symm hhead, equalAll_symm htail⟩

theorem equalFields_symm : ∀ {as bs : List (String × Value)},
    equalFields as bs = true → equalFields bs as = true
  | [], [], h => h
  | (k, a) :: as, (l, b) :: bs, h => by
    obtain ⟨hhead, htail⟩ := Bool.and_eq_true_iff.mp h
    obtain ⟨hkey, hvalue⟩ := Bool.and_eq_true_iff.mp hhead
    exact Bool.and_eq_true_iff.mpr ⟨Bool.and_eq_true_iff.mpr
      ⟨beq_iff_eq.mpr (beq_iff_eq.mp hkey).symm, equal_symm hvalue⟩, equalFields_symm htail⟩

end

mutual

theorem equal_trans : ∀ {a b c : Value}, equal a b = true → equal b c = true → equal a c = true
  | .float x, .float y, .float z, h, h' => float_beq_trans h h'
  | .list as, .list bs, .list cs, h, h' => equalAll_trans h h'
  | .map as, .map bs, .map cs, h, h' => equalFields_trans h h'
  | .null, .null, .null, h, _ => h
  | .bool a, .bool b, .bool c, h, h' => by simp_all [equal]
  | .int a, .int b, .int c, h, h' => by simp_all [equal]
  | .str a, .str b, .str c, h, h' => by simp_all [equal]

theorem equalAll_trans : ∀ {as bs cs : List Value},
    equalAll as bs = true → equalAll bs cs = true → equalAll as cs = true
  | [], [], [], h, _ => h
  | a :: as, b :: bs, c :: cs, h, h' => by
    obtain ⟨hhead, htail⟩ := Bool.and_eq_true_iff.mp h
    obtain ⟨hhead', htail'⟩ := Bool.and_eq_true_iff.mp h'
    exact Bool.and_eq_true_iff.mpr ⟨equal_trans hhead hhead', equalAll_trans htail htail'⟩

theorem equalFields_trans : ∀ {as bs cs : List (String × Value)},
    equalFields as bs = true → equalFields bs cs = true → equalFields as cs = true
  | [], [], [], h, _ => h
  | (k, a) :: as, (l, b) :: bs, (m, c) :: cs, h, h' => by
    obtain ⟨hhead, htail⟩ := Bool.and_eq_true_iff.mp h
    obtain ⟨hhead', htail'⟩ := Bool.and_eq_true_iff.mp h'
    obtain ⟨hkey, hvalue⟩ := Bool.and_eq_true_iff.mp hhead
    obtain ⟨hkey', hvalue'⟩ := Bool.and_eq_true_iff.mp hhead'
    exact Bool.and_eq_true_iff.mpr ⟨Bool.and_eq_true_iff.mpr
      ⟨beq_iff_eq.mpr ((beq_iff_eq.mp hkey).trans (beq_iff_eq.mp hkey')),
        equal_trans hvalue hvalue'⟩, equalFields_trans htail htail'⟩

end

theorem beq_congr {a b : Value} (h : (a == b) = true) (c : Value) : (a == c) = (b == c) :=
  Bool.eq_iff_iff.mpr ⟨equal_trans (equal_symm h), equal_trans h⟩

end Value

end ReactiveView
