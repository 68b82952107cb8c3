import Mathlib.Data.List.Basic
import ReactiveView.Proofs.Template.Names
import ReactiveView.Template.Cursor

namespace ReactiveView

/-- A text ends on a line and at a column, both counted from 1: the line by the line breaks in the
text, the column by the characters behind the last of them. -/
def EndsAt (w : List Char) (line column : Nat) : Prop :=
  ∃ lines last, w = lines ++ last ∧ (lines = [] ∨ lines.getLast? = some '\n') ∧ '\n' ∉ last ∧
    line = w.count '\n' + 1 ∧ column = last.length + 1

variable {u v w x y : List Char}

theorem columnAfter_append_of_not_mem (hu : '\n' ∉ u) :
    columnAfter (v ++ u) = columnAfter v + u.length := by
  have hpos : ∀ c ∈ u.reverse, (c != '\n') = true := by
    intro c hc
    exact bne_iff_ne.mpr fun he => hu (he ▸ List.mem_reverse.mp hc)
  rw [columnAfter, List.reverse_append, List.takeWhile_append_of_pos hpos, List.length_append,
    List.length_reverse, columnAfter]
  omega

theorem lineAfter_append (v u : List Char) : lineAfter (v ++ u) = lineAfter v + u.count '\n' := by
  rw [lineAfter, lineAfter, List.count_append]
  omega

theorem endsAt_iff {line column : Nat} :
    EndsAt w line column ↔ line = lineAfter w ∧ column = columnAfter w := by
  constructor
  · rintro ⟨lines, last, rfl, hlines, hlast, rfl, rfl⟩
    refine ⟨rfl, ?_⟩
    rw [columnAfter_append_of_not_mem hlast]
    obtain rfl | hbreak := hlines
    · exact Nat.add_comm _ _
    · obtain ⟨before, rfl⟩ := List.getLast?_eq_some_iff.mp hbreak
      rw [columnAfter, List.reverse_append]
      exact Nat.add_comm _ _
  · rintro ⟨rfl, rfl⟩
    obtain ⟨hw, hlast, hlines⟩ := (span_iff (p := (· != '\n')) (l := w.reverse)).mp ⟨rfl, rfl⟩
    refine ⟨(w.reverse.dropWhile (· != '\n')).reverse, (w.reverse.takeWhile (· != '\n')).reverse,
      ?_, ?_, ?_, rfl, ?_⟩
    · rw [← List.reverse_append, ← hw, List.reverse_reverse]
    · cases hd : w.reverse.dropWhile (· != '\n') with
      | nil => exact .inl rfl
      | cons c more =>
        have hc : c = '\n' := by simpa [hd, startsWith] using hlines
        exact .inr (by simp [hc])
    · intro hm
      have := hlast _ (List.mem_reverse.mp hm)
      simp at this
    · rw [List.length_reverse, columnAfter]

theorem eq_of_endsAt {line column : Nat} (h : v ++ x = w ++ y) (hv : EndsAt v line column)
    (hw : EndsAt w line column) : v = w := by
  obtain ⟨rfl, rfl⟩ := endsAt_iff.mp hv
  obtain ⟨hline, hcolumn⟩ := endsAt_iff.mp hw
  have hnone : ∀ {v u : List Char}, lineAfter v = lineAfter (v ++ u) →
      columnAfter v = columnAfter (v ++ u) → u = [] := by
    intro v u hl hc
    rw [lineAfter_append] at hl
    have hu : '\n' ∉ u := List.count_eq_zero.mp (by omega)
    rw [columnAfter_append_of_not_mem hu] at hc
    exact List.length_eq_zero_iff.mp (by omega)
  obtain ⟨u, rfl, -⟩ | ⟨u, rfl, -⟩ := List.append_eq_append_iff.mp h
  · rw [hnone hline hcolumn, List.append_nil]
  · rw [hnone hline.symm hcolumn.symm, List.append_nil]

theorem textBefore_width (v w : List Char) : textBefore (width v) (v ++ w) = v := by
  induction v with
  | nil => cases w <;> rfl
  | cons c v ih =>
    have hpos := c.utf8Size_pos
    have hwidth : width (c :: v) = c.utf8Size + width v := rfl
    rw [List.cons_append, textBefore, hwidth, if_neg (by omega), Nat.add_sub_cancel_left, ih]

theorem LexFault.locate_append {fault : LexFault} (h : fault.offset = width v) (w : List Char) :
    fault.locate (v ++ w) = ⟨fault.kind, width v, lineAfter v, columnAfter v⟩ := by
  rw [LexFault.locate, h, textBefore_width]

end ReactiveView
