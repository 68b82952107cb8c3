import ReactiveView.Text.Whitespace

namespace ReactiveView

def Blank (w : List Char) : Prop := ∀ c ∈ w, isSpace c = true

theorem Blank.nil : Blank [] := fun _ hc => absurd hc List.not_mem_nil

theorem Blank.closed {P : List Char → Prop}
    (h : ∀ w c, P w → isSpace c = true → P (w ++ [c])) {u : List Char} (hu : Blank u) {w : List Char}
    (hw : P w) : P (w ++ u) := by
  induction u generalizing w with
  | nil => rwa [List.append_nil]
  | cons c u ih =>
    rw [List.append_cons]
    exact ih (fun d hd => hu d (List.mem_cons_of_mem c hd)) (h w c hw (hu c List.mem_cons_self))

theorem Blank.dropWhile_append {u : List Char} (h : Blank u) (rest : List Char) :
    (u ++ rest).dropWhile isSpace = rest.dropWhile isSpace := List.dropWhile_append_of_pos h

theorem dropWhile_isSpace_cons {c : Char} (h : isSpace c = false) (rest : List Char) :
    (c :: rest).dropWhile isSpace = c :: rest := by
  rw [List.dropWhile_cons, if_neg (by simp [h])]

theorem exists_blank (l : List Char) : ∃ u, Blank u ∧ l = u ++ l.dropWhile isSpace :=
  ⟨l.takeWhile isSpace, List.all_eq_true.mp List.all_takeWhile, List.takeWhile_append_dropWhile.symm⟩

theorem dropWhile_eq_cons_iff {l more : List Char} {c : Char} (hc : isSpace c = false) :
    l.dropWhile isSpace = c :: more ↔ ∃ u, Blank u ∧ l = u ++ c :: more := by
  constructor
  · intro h
    obtain ⟨u, hu, hl⟩ := exists_blank l
    exact ⟨u, hu, h ▸ hl⟩
  · rintro ⟨u, hu, rfl⟩
    rw [hu.dropWhile_append, dropWhile_isSpace_cons hc]

theorem trimEnd_append {v : List Char} (hv : Blank v) (l : List Char) :
    trimEnd (l ++ v) = trimEnd l := by
  have hr : Blank v.reverse := fun c hc => hv c (List.mem_reverse.mp hc)
  rw [trimEnd, List.reverse_append, hr.dropWhile_append, trimEnd]

theorem exists_blank_end (l : List Char) : ∃ v, Blank v ∧ l = trimEnd l ++ v := by
  obtain ⟨u, hu, hl⟩ := exists_blank l.reverse
  refine ⟨u.reverse, fun c hc => hu c (List.mem_reverse.mp hc), ?_⟩
  rw [trimEnd, ← List.reverse_append, ← hl, List.reverse_reverse]

theorem exists_blanks (l : List Char) : ∃ u v, Blank u ∧ Blank v ∧ l = u ++ (trim l ++ v) := by
  obtain ⟨u, hu, hl⟩ := exists_blank l
  obtain ⟨v, hv, hd⟩ := exists_blank_end (l.dropWhile isSpace)
  refine ⟨u, v, hu, hv, ?_⟩
  rw [trim, ← hd, ← hl]

theorem trimEnd_trimEnd (l : List Char) : trimEnd (trimEnd l) = trimEnd l := by
  obtain ⟨v, hv, hl⟩ := exists_blank_end l
  have h := trimEnd_append hv (trimEnd l)
  rw [← hl] at h
  exact h.symm

theorem isSpace_of_trim_eq_cons {l more : List Char} {c : Char} (h : trim l = c :: more) :
    isSpace c = false := by
  obtain ⟨v, -, hd⟩ := exists_blank_end (l.dropWhile isSpace)
  rw [← trim, h, List.cons_append] at hd
  have hc := List.head?_dropWhile_not isSpace l
  rw [hd] at hc
  simpa using hc

theorem trim_trim (l : List Char) : trim (trim l) = trim l := by
  cases h : trim l with
  | nil => rfl
  | cons c more =>
    rw [trim, dropWhile_isSpace_cons (isSpace_of_trim_eq_cons h), ← h, trim, trimEnd_trimEnd]

theorem trim_append {l v : List Char} (hne : l ≠ []) (hl : trim l = l) (hv : Blank v) :
    trim (l ++ v) = l := by
  obtain ⟨c, more, rfl⟩ := List.exists_cons_of_ne_nil hne
  have hc := isSpace_of_trim_eq_cons hl
  rw [trim, dropWhile_isSpace_cons hc] at hl
  rw [trim, List.cons_append, dropWhile_isSpace_cons hc, ← List.cons_append, trimEnd_append hv, hl]

end ReactiveView
