import ReactiveView.Proofs.Template.Compiling

namespace ReactiveView

namespace Scanner

open Cursor

/-- The scanner goes on for some steps, which yield tokens. -/
inductive Reads : Scanner → List Token → Scanner → Prop
  | refl (s : Scanner) : Reads s [] s
  | step {s t u : Scanner} {o : Option Token} {ts : List Token} {ch : Char} {r : List Char}
      (hc : s.cursor.rest = ch :: r) (h : s.step ch = .ok (o, t)) (rest : Reads t ts u) :
      Reads s (o.toList ++ ts) u

variable {s t : Scanner} {ts : List Token} {fault : LexFault}

theorem Reads.trans {u : Scanner} {more : List Token} (h : Reads s ts t) (h' : Reads t more u) :
    Reads s (ts ++ more) u := by
  induction h with
  | refl s => exact h'
  | step hc h _ ih =>
    rw [List.append_assoc]
    exact .step hc h (ih h')

theorem Reads.tokens (h : Reads s ts t) : s.tokens = t.tokens.map (ts ++ ·) := by
  induction h with
  | @refl s => cases s.tokens <;> rfl
  | @step s t u o ts ch r hc h _ ih =>
    rw [tokens_of_step hc h, ih]
    cases u.tokens with
    | error fault => rfl
    | ok more => exact congrArg Except.ok (List.append_assoc _ _ _).symm

theorem Reads.reaches (h : Reads s ts t) : s.cursor.Reaches t.cursor := by
  induction h with
  | refl s => exact Reaches.refl _
  | step hc h _ ih => exact (advances_step hc h).reaches.trans ih

theorem exists_reads_of_error (h : s.tokens = .error fault) : ∃ ts t, Reads s ts t ∧
    (t.cursor.rest = [] ∧ t.stop = .error fault ∨
      ∃ ch r, t.cursor.rest = ch :: r ∧ t.step ch = .error fault) := by
  induction s using Scanner.tokens.induct with
  | case1 s hr =>
    rw [tokens_of_end hr] at h
    exact ⟨[], s, .refl s, .inl ⟨hr, h⟩⟩
  | case2 s ch r hr fault' hs =>
    rw [tokens_of_fault hr hs] at h
    cases h
    exact ⟨[], s, .refl s, .inr ⟨ch, r, hr, hs⟩⟩
  | case3 s ch r hr o t hs ih =>
    rw [tokens_of_step hr hs] at h
    cases ht : t.tokens with
    | ok more =>
      rw [ht] at h
      cases h
    | error fault' =>
      rw [ht] at h
      cases h
      obtain ⟨ts, u, hu, hend⟩ := ih ht
      exact ⟨o.toList ++ ts, u, .step hr hs hu, hend⟩

theorem exists_reads_of_ok (h : s.tokens = .ok ts) :
    ∃ t, Reads s ts t ∧ t.cursor.rest = [] ∧ t.body = none ∧ t.children = [] := by
  induction s using Scanner.tokens.induct generalizing ts with
  | case1 s hr =>
    rw [tokens_of_end hr] at h
    obtain ⟨hb, hc, rfl⟩ := stop_iff.mp h
    exact ⟨s, .refl s, hr, hb, hc⟩
  | case2 s ch r hr fault hs =>
    rw [tokens_of_fault hr hs] at h
    cases h
  | case3 s ch r hr o t hs ih =>
    rw [tokens_of_step hr hs] at h
    obtain ⟨more, hm, rfl⟩ := map_eq_ok h
    obtain ⟨u, hu, hend⟩ := ih hm
    exact ⟨u, .step hr hs hu, hend⟩

end Scanner

end ReactiveView
