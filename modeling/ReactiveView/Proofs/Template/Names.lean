import ReactiveView.Proofs.Template.Writing

namespace ReactiveView

theorem isLower_iff {c : Char} : c.isLower = true ↔ 97 ≤ c.toNat ∧ c.toNat ≤ 122 := by
  change (decide (c.val ≥ 'a'.val) && decide (c.val ≤ 'z'.val)) = true ↔ _
  rw [Bool.and_eq_true, decide_eq_true_eq, decide_eq_true_eq, ge_iff_le, UInt32.le_iff_toNat_le,
    UInt32.le_iff_toNat_le]
  rfl

theorem isUpper_iff {c : Char} : c.isUpper = true ↔ 65 ≤ c.toNat ∧ c.toNat ≤ 90 := by
  change decide (c.val ≥ 'A'.val ∧ c.val ≤ 'Z'.val) = true ↔ _
  rw [decide_eq_true_eq, ge_iff_le, UInt32.le_iff_toNat_le, UInt32.le_iff_toNat_le]
  rfl

theorem isAlphanum_iff {c : Char} :
    c.isAlphanum = true ↔ (c.isUpper = true ∨ c.isLower = true) ∨ c.isDigit = true := by
  change (c.isUpper || c.isLower || c.isDigit) = true ↔ _
  rw [Bool.or_eq_true, Bool.or_eq_true]

theorem isAlphanum_of_isLower {c : Char} (h : c.isLower = true) : c.isAlphanum = true :=
  isAlphanum_iff.mpr (Or.inl (Or.inr h))

theorem isAlphanum_of_isUpper {c : Char} (h : c.isUpper = true) : c.isAlphanum = true :=
  isAlphanum_iff.mpr (Or.inl (Or.inl h))

theorem isAlphanum_of_isDigit {c : Char} (h : c.isDigit = true) : c.isAlphanum = true :=
  isAlphanum_iff.mpr (Or.inr h)

theorem isUpper_of_isLower {c : Char} (h : c.isLower = true) : c.isUpper = false := by
  rw [isLower_iff] at h
  apply Bool.eq_false_iff.mpr
  intro hu
  rw [isUpper_iff] at hu
  omega

theorem isSpace_of_isAlphanum {c : Char} (h : c.isAlphanum = true) : isSpace c = false := by
  have hr : ∀ r ∈ whiteSpaceRanges, r.2 < 33 ∨ 132 < r.1 := by decide
  rw [isAlphanum_iff, isUpper_iff, isLower_iff, Char.isDigit_iff_toNat] at h
  have h0 : '0'.toNat = 48 := rfl
  have h9 : '9'.toNat = 57 := rfl
  apply Ranges.holds_eq_false hr
  · omega
  · omega

/-- A text is cut where the first of its characters fails a test. -/
theorem span_iff {p : Char → Bool} {l w rest : List Char} :
    l.takeWhile p = w ∧ l.dropWhile p = rest ↔
      l = w ++ rest ∧ (∀ c ∈ w, p c = true) ∧ startsWith p rest = false := by
  constructor
  · rintro ⟨rfl, rfl⟩
    refine ⟨List.takeWhile_append_dropWhile.symm, List.all_eq_true.mp List.all_takeWhile, ?_⟩
    cases hd : l.dropWhile p with
    | nil => rfl
    | cons c more =>
      have hc := List.head?_dropWhile_not p l
      rw [hd] at hc
      simpa [startsWith] using hc
  · rintro ⟨rfl, hw, hr⟩
    rw [List.takeWhile_append_of_pos hw, List.dropWhile_append_of_pos hw]
    cases rest with
    | nil => simp
    | cons c more =>
      have hc : p c = false := hr
      simp [hc]

theorem pieces_of_not_mem {separator : Char} {part : List Char} (h : separator ∉ part) :
    pieces separator part = [part] := by
  induction part with
  | nil => rfl
  | cons c rest ih =>
    rw [List.mem_cons, not_or] at h
    rw [pieces, if_neg (Ne.symm h.1), ih h.2]

theorem pieces_append {separator : Char} {part : List Char} (h : separator ∉ part)
    (more : List Char) :
    pieces separator (part ++ separator :: more) = part :: pieces separator more := by
  induction part with
  | nil => rw [List.nil_append, pieces, if_pos rfl]
  | cons c rest ih =>
    rw [List.mem_cons, not_or] at h
    rw [List.cons_append, pieces, if_neg (Ne.symm h.1), ih h.2]

theorem pieces_intercalate {separator : Char} {parts : List (List Char)} (hne : parts ≠ [])
    (h : ∀ part ∈ parts, separator ∉ part) :
    pieces separator ([separator].intercalate parts) = parts := by
  induction parts with
  | nil => exact absurd rfl hne
  | cons part others ih =>
    cases others with
    | nil => simpa using pieces_of_not_mem (h part (by simp))
    | cons other others =>
      rw [List.intercalate_cons_cons, List.append_assoc, List.singleton_append,
        pieces_append (h part (by simp)), ih (by simp) fun p hp => h p (by simp [hp])]

theorem isRunOf_iff {p : Char → Bool} {w : List Char} :
    isRunOf p w = true ↔ w ≠ [] ∧ ∀ c ∈ w, p c = true := by
  simp [isRunOf]

theorem segmented_iff {separator : Char} {p : Char → Bool} (hs : p separator = false)
    {w : List Char} : (pieces separator w).all (isRunOf p) = true ↔ Segmented separator p w := by
  simp only [List.all_eq_true, isRunOf_iff]
  constructor
  · intro h
    exact ⟨pieces separator w, pieces_ne_nil separator w, h, (intercalate_pieces separator w).symm⟩
  · rintro ⟨parts, hne, hparts, rfl⟩
    rw [pieces_intercalate hne fun part hp hm => ?_]
    · exact hparts
    · rw [(hparts part hp).2 separator hm] at hs
      cases hs

theorem Segmented.forall {separator : Char} {p : Char → Bool} {w : List Char}
    (h : Segmented separator p w) : ∀ c ∈ w, p c = true ∨ c = separator := by
  obtain ⟨parts, -, hparts, rfl⟩ := h
  intro c hc
  induction parts with
  | nil => simp at hc
  | cons part others ih =>
    cases others with
    | nil =>
      rw [List.intercalate_singleton] at hc
      exact Or.inl ((hparts part (by simp)).2 c hc)
    | cons other others =>
      rw [List.intercalate_cons_cons, List.mem_append, List.mem_append] at hc
      obtain (hc | hc) | hc := hc
      · exact Or.inl ((hparts part (by simp)).2 c hc)
      · exact Or.inr (List.mem_singleton.mp hc)
      · exact ih (fun p hp => hparts p (by simp [hp])) hc

theorem isReference_iff {w : List Char} : isReference w = true ↔ SpellsReference w := by
  rw [isReference, SpellsReference, Bool.and_eq_true, segmented_iff (by decide)]

theorem camel_iff {first : Char → Bool} (h : ∀ c, first c = true → c.isAlphanum = true)
    {w : List Char} : (decide (2 ≤ w.length) && startsWith first w && w.all Char.isAlphanum) = true ↔
      ∃ c more, w = c :: more ∧ more ≠ [] ∧ first c = true ∧ ∀ x ∈ more, x.isAlphanum = true := by
  obtain _ | ⟨c, _ | ⟨d, more⟩⟩ := w
  · simp
  · simp
  · simp only [startsWith, List.length_cons, List.all_cons, Bool.and_eq_true, decide_eq_true_eq,
      List.all_eq_true]
    constructor
    · rintro ⟨⟨-, hc⟩, -, hd, hm⟩
      refine ⟨c, d :: more, rfl, by simp, hc, fun x hx => ?_⟩
      obtain rfl | hx := List.mem_cons.mp hx
      · exact hd
      · exact hm x hx
    · rintro ⟨c', more', heq, -, hc, hm⟩
      cases heq
      exact ⟨⟨by omega, hc⟩, h c hc, hm d (by simp), fun x hx => hm x (by simp [hx])⟩

namespace NameClass

theorem admits_iff (k : NameClass) {w : List Char} : k.admits w = true ↔ k.Spells w := by
  cases k with
  | kebab => rw [admits, Spells, Bool.and_eq_true, segmented_iff (by decide)]
  | lowerCamel => exact camel_iff fun c hc => isAlphanum_of_isLower hc
  | upperCamel => exact camel_iff fun c hc => isAlphanum_of_isUpper hc

def first : NameClass → Char → Bool
  | upperCamel, c => c.isUpper
  | _, c => c.isLower

variable {k : NameClass} {w : List Char}

theorem Spells.exists_cons (h : k.Spells w) : ∃ c more, w = c :: more ∧ k.first c = true := by
  cases k with
  | kebab =>
    cases w with
    | nil => cases h.1
    | cons c more => exact ⟨c, more, rfl, h.1⟩
  | lowerCamel =>
    obtain ⟨c, more, rfl, -, hc, -⟩ := h
    exact ⟨c, more, rfl, hc⟩
  | upperCamel =>
    obtain ⟨c, more, rfl, -, hc, -⟩ := h
    exact ⟨c, more, rfl, hc⟩

theorem Spells.accepts (h : k.Spells w) : ∀ c ∈ w, k.accepts c = true := by
  cases k with
  | kebab =>
    intro c hc
    obtain hp | rfl := h.2.forall c hc
    · simp [NameClass.accepts, hp]
    · rfl
  | lowerCamel =>
    obtain ⟨c, more, rfl, -, hc, hm⟩ := h
    intro x hx
    obtain rfl | hx := List.mem_cons.mp hx
    · exact isAlphanum_of_isLower hc
    · exact hm x hx
  | upperCamel =>
    obtain ⟨c, more, rfl, -, hc, hm⟩ := h
    intro x hx
    obtain rfl | hx := List.mem_cons.mp hx
    · exact isAlphanum_of_isUpper hc
    · exact hm x hx

end NameClass

theorem SpellsReference.not_mem {w : List Char} (h : SpellsReference w) : '\x7d' ∉ w := by
  intro hm
  obtain hc | hc := h.2.forall _ hm
  · revert hc
    decide
  · revert hc
    decide

end ReactiveView
