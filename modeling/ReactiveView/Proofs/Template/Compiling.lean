import ReactiveView.Proofs.Template.Moving

namespace ReactiveView

/-- The scanner and the builder go on for some steps. -/
inductive Works : Scanner → Builder → Scanner → Builder → Prop
  | refl (s : Scanner) (b : Builder) : Works s b s b
  | step {s t u : Scanner} {b c d : Builder} {o : Option Token} {ch : Char} {r : List Char}
      (hc : s.cursor.rest = ch :: r) (h : s.step ch = .ok (o, t))
      (ho : o.toList.foldlM Builder.token b = .ok c) (rest : Works t c u d) : Works s b u d

theorem Works.trans {s t u : Scanner} {b c d : Builder} (h : Works s b t c) (h' : Works t c u d) :
    Works s b u d := by
  induction h with
  | refl s b => exact h'
  | step hc h ho _ ih => exact .step hc h ho (ih h')

namespace Builder

variable {b c : Builder} {p : PendingTag} {name : String} {value : AttrValue}

theorem foldlM_some_iff {token : Token} :
    (some token).toList.foldlM Builder.token b = .ok c ↔ b.token token = .ok c := by
  simp

theorem token_attr (hp : b.body = some p) : b.token (.attr (.ofValue name value)) =
    .ok { b with body := some { p with attrs := p.attrs ++ [⟨name, value⟩] } } := by
  simp only [token, attr, hp, AttrToken.attr_ofValue]
  rfl

theorem token_prop (hp : b.body = some p) (hk : p.kind = .custom) (hne : value ≠ .empty) :
    b.token (.prop (.ofValue name value)) =
      .ok { b with body := some { p with props := p.props ++ [⟨name, value⟩] } } := by
  have hkind : (AttrToken.ofValue name value).kind ≠ .empty := by
    cases value with
    | empty => exact absurd rfl hne
    | literal _ => exact ValueKind.noConfusion
    | serial _ => exact ValueKind.noConfusion
  simp only [token, prop, hp]
  rw [if_neg (not_not_intro hk), if_neg hkind, AttrToken.attr_ofValue]
  rfl

theorem token_text {text : String} (hb : b.body = none) (hne : text ≠ "") :
    b.token (.text text) = .ok (b.push (.literal text)) := by
  simp only [token, Builder.text, hb, if_neg hne]
  rfl

theorem token_serial {reference : String} (hb : b.body = none) :
    b.token (.serial reference) = .ok (b.push (.serial reference)) := by
  simp only [token, serial, hb]
  rfl

theorem template_eq_ok_iff {t : Template} :
    b.template = .ok t ↔ b = ⟨none, [], [t.root]⟩ := by
  constructor
  · intro h
    obtain ⟨body, opened, roots⟩ := b
    unfold template at h
    split at h
    · cases h
    · cases h
    · cases h
    · rename_i hbody hopened hroots
      cases h
      cases hbody
      cases hopened
      cases hroots
      rfl
    · cases h
  · rintro rfl
    rfl

end Builder

namespace Scanner

variable {s t : Scanner} {o : Option Token} {ch : Char} {r : List Char}

theorem tokens_of_end (h : s.cursor.rest = []) : s.tokens = s.stop := by
  rw [tokens]
  split
  · rfl
  · rename_i hc
    rw [h] at hc
    cases hc

theorem tokens_of_step (hc : s.cursor.rest = ch :: r) (h : s.step ch = .ok (o, t)) :
    s.tokens = t.tokens.map (o.toList ++ ·) := by
  rw [tokens]
  split
  · rename_i hn
    rw [hc] at hn
    cases hn
  · rename_i ch' r' hc'
    rw [hc] at hc'
    cases hc'
    split
    · rename_i he
      rw [h] at he
      cases he
    · rename_i he
      rw [h] at he
      cases he
      rfl

theorem tokens_of_fault {fault : LexFault} (hc : s.cursor.rest = ch :: r)
    (h : s.step ch = .error fault) : s.tokens = .error fault := by
  rw [tokens]
  split
  · rename_i hn
    rw [hc] at hn
    cases hn
  · rename_i ch' r' hc'
    rw [hc] at hc'
    cases hc'
    split
    · rename_i he
      rw [h] at he
      cases he
      rfl
    · rename_i he
      rw [h] at he
      cases he

theorem stop_iff {ts : List Token} : s.stop = .ok ts ↔ s.body = none ∧ s.children = [] ∧ ts = [] := by
  unfold stop
  split
  · rename_i hb
    simp [Cursor.fault, hb]
  · rename_i hb hc
    simp [Cursor.fault, hc]
  · rename_i hb hc
    simp [hb, hc, eq_comm]

end Scanner

structure Finished (s : Scanner) (b : Builder) (t : Template) : Prop where
  rest : s.cursor.rest = []
  body : s.body = none
  children : s.children = []
  template : b.template = .ok t

theorem exists_works {s : Scanner} {b : Builder} {ts : List Token} {t : Template}
    (hts : s.tokens = .ok ts)
    (ht : (ts.foldlM Builder.token b >>= Builder.template) = .ok t) :
    ∃ u c, Works s b u c ∧ Finished u c t := by
  induction s using Scanner.tokens.induct generalizing b ts with
  | case1 s hr =>
    rw [Scanner.tokens_of_end hr, Scanner.stop_iff] at hts
    obtain ⟨hb, hc, rfl⟩ := hts
    exact ⟨s, b, .refl s b, hr, hb, hc, ht⟩
  | case2 s ch r hr fault hs =>
    rw [Scanner.tokens_of_fault hr hs] at hts
    cases hts
  | case3 s ch r hr o s' hs ih =>
    rw [Scanner.tokens_of_step hr hs] at hts
    obtain ⟨more, hm, rfl⟩ := Cursor.map_eq_ok hts
    rw [List.foldlM_append] at ht
    cases hb : o.toList.foldlM Builder.token b with
    | error e =>
      rw [hb] at ht
      cases ht
    | ok c =>
      rw [hb] at ht
      obtain ⟨u, d, hw, hf⟩ := ih hm ht
      exact ⟨u, d, .step hr hs hb hw, hf⟩

theorem Works.exists_tokens {s u : Scanner} {b c : Builder} {t : Template} (h : Works s b u c)
    (hf : Finished u c t) :
    ∃ ts, s.tokens = .ok ts ∧ (ts.foldlM Builder.token b >>= Builder.template) = .ok t := by
  induction h with
  | refl s b =>
    refine ⟨[], ?_, hf.template⟩
    rw [Scanner.tokens_of_end hf.rest, Scanner.stop_iff]
    exact ⟨hf.body, hf.children, rfl⟩
  | step hc h ho _ ih =>
    obtain ⟨ts, hts, ht⟩ := ih hf
    refine ⟨_ ++ ts, by rw [Scanner.tokens_of_step hc h, hts]; rfl, ?_⟩
    rw [List.foldlM_append, ho]
    exact ht

theorem tokenize_eq_ok_iff {source : String} {tokens : List Token} :
    tokenize source = .ok tokens ↔ (Scanner.start source.toList).tokens = .ok tokens := by
  unfold tokenize
  cases (Scanner.start source.toList).tokens with
  | error fault => exact iff_of_false (fun h => by cases h) fun h => by cases h
  | ok ts => exact ⟨fun h => by cases h; rfl, fun h => by cases h; rfl⟩

theorem compile_eq_ok_iff {source : String} {t : Template} :
    compile source = .ok t ↔ ∃ ts, tokenize source = .ok ts ∧ parse ts = .ok t := by
  unfold compile
  cases tokenize source with
  | error e =>
    refine iff_of_false (fun h => by cases h) ?_
    rintro ⟨ts, h, -⟩
    cases h
  | ok ts =>
    simp only [Except.ok.injEq, exists_eq_left']
    cases parse ts with
    | error e => exact iff_of_false (fun h => by cases h) fun h => by cases h
    | ok t' => exact ⟨fun h => by cases h; rfl, fun h => by cases h; rfl⟩

/-- A source compiles to a template exactly when the scanner and the builder reach its end with it. -/
theorem compile_iff_works {source : String} {t : Template} : compile source = .ok t ↔
    ∃ u c, Works (Scanner.start source.toList) Builder.empty u c ∧ Finished u c t := by
  rw [compile_eq_ok_iff]
  constructor
  · rintro ⟨ts, hts, ht⟩
    exact exists_works (tokenize_eq_ok_iff.mp hts) ht
  · rintro ⟨u, c, hw, hf⟩
    obtain ⟨ts, hts, ht⟩ := hw.exists_tokens hf
    exact ⟨ts, tokenize_eq_ok_iff.mpr hts, ht⟩

end ReactiveView
