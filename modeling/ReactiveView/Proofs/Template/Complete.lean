import ReactiveView.Proofs.Template.Sound

namespace ReactiveView

open Node

structure Ready (s : Scanner) (b : Builder) (w : List Char) : Prop extends Agrees s b where
  rest : s.cursor.rest = w

/-- From a place with a text before it, scanner and builder go on to another place. -/
def Leads (b : Builder) (w : List Char) (c : Builder) (rest : List Char) : Prop :=
  ∀ s, Ready s b w → ∃ t, Works s b t c ∧ Ready t c rest

namespace Leads

variable {b c d : Builder} {w v rest : List Char}

theorem refl (b : Builder) (w : List Char) : Leads b w b w := fun s h => ⟨s, .refl s b, h⟩

theorem trans (h : Leads b w c v) (h' : Leads c v d rest) : Leads b w d rest := by
  intro s hs
  obtain ⟨t, hst, ht⟩ := h s hs
  obtain ⟨u, htu, hu⟩ := h' t ht
  exact ⟨u, hst.trans htu, hu⟩

theorem of_moves (h : ∀ s, Ready s b w → ∃ o body children, s.Moves o rest body children ∧
    o.toList.foldlM Builder.token b = .ok c ∧ body = c.body.map PendingTag.openTag ∧
    children = c.opened.map PendingTag.openTag) : Leads b w c rest := by
  intro s hs
  obtain ⟨o, body, children, hm, ho, hbody, hchildren⟩ := h s hs
  obtain ⟨ch, r, t, hr, hstep, ht, htb, htc⟩ := hm.steps
  exact ⟨t, .step hr hstep ho (.refl t c), ⟨htb.trans hbody, htc.trans hchildren⟩, ht⟩

theorem of_push {n : Node} (hc : c.body = none) (h : ∀ s, Ready s b w → ∃ o children,
    s.Moves o rest none children ∧ o.toList.foldlM Builder.token b = .ok (c.push n) ∧
    children = c.opened.map PendingTag.openTag) : Leads b w (c.push n) rest := by
  apply of_moves
  intro s hs
  obtain ⟨o, children, hm, ho, hchildren⟩ := h s hs
  refine ⟨o, none, children, hm, ho, ?_, ?_⟩
  · rw [Builder.body_push, hc, Option.map_none]
  · rw [Builder.openTag_push, hchildren]

end Leads

theorem startsWith_append {p : Char → Bool} {w rest : List Char} (h : startsWith p w = false)
    (hr : startsWith p rest = false) : startsWith p (w ++ rest) = false := by
  cases w with
  | nil => exact hr
  | cons c w => exact h

theorem startsWith_eq_of_isLower {c x : Char} (hc : c.isLower = true) (hx : x.isLower = false)
    (l : List Char) : startsWith (· = x) (c :: l) = false := by
  apply decide_eq_false
  rintro rfl
  rw [hc] at hx
  cases hx

namespace WrittenBody

variable {kind : TagKind} {attrs props : List Attr} {named : Bool} {w : List Char}

theorem ne_nil (h : WrittenBody kind attrs props named w) (hf : named = false) : w ≠ [] := by
  cases h with
  | nil => cases hf
  | space h hc => simp
  | attr h hn hv =>
    obtain ⟨c, more, heq, -⟩ := hn.exists_cons
    simp [heq]
  | prop h hk hn hne hv => simp

theorem startsWith_accepts (h : WrittenBody kind attrs props named w) (k : NameClass) :
    startsWith k.accepts w = false := by
  induction h with
  | nil => rfl
  | space _ hc ih => exact startsWith_append ih (accepts_of_isSpace hc k)
  | @attr _ _ w _ _ _ h _ _ ih =>
    obtain ⟨c, more, rfl⟩ := List.exists_cons_of_ne_nil (h.ne_nil rfl)
    exact ih
  | prop _ _ _ _ _ ih => exact startsWith_append ih (by cases k <;> rfl)

variable {b : Builder} {name : String} {rest : List Char}

theorem leads (h : WrittenBody kind attrs props named w)
    (hnamed : named = true → startsWith Char.isAlphanum rest = false)
    (hrest : startsWith (· = '=') (rest.dropWhile isSpace) = false) :
    Leads { b with body := some ⟨name, kind, [], [], []⟩ } ((w ++ rest).dropWhile isSpace)
      { b with body := some ⟨name, kind, attrs, props, []⟩ } (rest.dropWhile isSpace) := by
  induction h generalizing rest with
  | nil => exact .refl _ _
  | @space _ _ _ w c _ hc ih =>
    rw [← List.dropWhile_cons_of_pos (l := rest) hc] at hrest ⊢
    rw [← List.append_cons]
    exact ih (fun _ => accepts_of_isSpace hc .lowerCamel) hrest
  | @attr attrs props w u n value _ hn hv ih =>
    obtain ⟨c, more, heq, hc⟩ := hn.exists_cons
    have hskip : (n.toList ++ (u ++ rest)).dropWhile isSpace = n.toList ++ (u ++ rest) := by
      rw [heq, List.cons_append]
      exact dropWhile_isSpace_cons (isSpace_of_isAlphanum (isAlphanum_of_isLower hc)) _
    have hsign : startsWith (· = '=') ((n.toList ++ (u ++ rest)).dropWhile isSpace) = false := by
      rw [hskip, heq]
      exact startsWith_eq_of_isLower hc rfl _
    have h := ih (fun hf => by cases hf) hsign
    rw [hskip] at h
    rw [List.append_assoc, List.append_assoc]
    refine h.trans (.of_moves fun s hs => ⟨_, _, _, .attr hs.body hn hv hs.rest fun he =>
      ⟨hnamed (decide_eq_true he), hrest⟩, ?_, rfl, hs.children⟩)
    rw [Builder.foldlM_some_iff, Builder.token_attr rfl]
  | @prop attrs props _ w u n value _ hk hn hne hv ih =>
    have hskip := dropWhile_isSpace_cons (c := '$') (by decide) (n.toList ++ (u ++ rest))
    have hsign : startsWith (· = '=') (('$' :: (n.toList ++ (u ++ rest))).dropWhile isSpace) = false := by
      rw [hskip]
      rfl
    have h := ih (fun _ => rfl) hsign
    rw [hskip] at h
    rw [List.append_assoc, List.cons_append, List.append_assoc]
    refine h.trans (.of_moves fun s hs => ⟨_, _, _, .prop hs.body hk hn hne hv hs.rest, ?_, rfl,
      hs.children⟩)
    rw [Builder.foldlM_some_iff, Builder.token_prop rfl hk hne]

end WrittenBody

variable {b : Builder} {kind : TagKind} {name : String} {attrs props : List Attr} {n : Node}

theorem WrittenStart.leads {named : Bool} {w : List Char}
    (h : WrittenStart kind name attrs props named w) (hb : b.body = none) {ch : Char}
    (hch : ch = '/' ∨ ch = '>') (more : List Char) :
    Leads b (w ++ ch :: more) { b with body := some ⟨name, kind, attrs, props, []⟩ }
      (ch :: more) := by
  have hstop : ∀ k : NameClass, startsWith k.accepts (ch :: more) = false := by
    intro k
    obtain rfl | rfl := hch <;> cases k <;> rfl
  have hskip : (ch :: more).dropWhile isSpace = ch :: more := by
    refine dropWhile_isSpace_cons ?_ _
    obtain rfl | rfl := hch <;> decide
  cases h with
  | @mk u w hu hn h =>
    have hsign : startsWith (· = '=') ((ch :: more).dropWhile isSpace) = false := by
      rw [hskip]
      obtain rfl | rfl := hch <;> rfl
    have hbody : Leads { b with body := some ⟨name, kind, [], [], []⟩ } _ _ _ :=
      h.leads (fun _ => hstop .lowerCamel) hsign
    rw [hskip] at hbody
    have hcont := startsWith_append (h.startsWith_accepts kind.nameClass) (hstop kind.nameClass)
    refine Leads.trans (c := { b with body := some ⟨name, kind, [], [], []⟩ }) (.of_moves fun s hs =>
      ⟨_, _, _, .openTag ?_ hu hn (hs.rest.trans (by simp)) hcont, ?_, rfl, hs.children⟩) hbody
    · rw [hs.body, hb, Option.map_none]
    · rw [Builder.foldlM_some_iff, Builder.token, Builder.tag]
      simp only [hb]
      rfl

theorem Node.IsTag.node {children : List Node} (h : IsTag n kind name attrs props children) :
    PendingTag.node ⟨name, kind, attrs, props, children⟩ = .ok n := by
  cases h <;> rfl

theorem isText_of_isSpace {c : Char} (h : isSpace c = true) : Scanner.isText c = true := by
  simp only [Scanner.isText, Bool.and_eq_true, bne_iff_ne]
  refine ⟨⟨⟨?_, ?_⟩, ?_⟩, ?_⟩ <;>
  · rintro rfl
    revert h
    decide

namespace Builder

theorem foldl_push_opened (p : PendingTag) (opened : List PendingTag) (roots nodes : List Node) :
    nodes.foldl push ⟨none, p :: opened, roots⟩ =
      ⟨none, { p with children := p.children ++ nodes } :: opened, roots⟩ := by
  induction nodes generalizing p with
  | nil => simp
  | cons n nodes ih =>
    rw [List.foldl_cons, push]
    simp only
    rw [ih]
    simp

theorem body_foldl_push (nodes : List Node) (b : Builder) : (nodes.foldl push b).body = b.body := by
  induction nodes generalizing b with
  | nil => rfl
  | cons n nodes ih => rw [List.foldl_cons, ih, body_push]

end Builder

namespace Node

/-- A node is read wherever a text of it stands; behind a literal text no other text may follow. -/
def Readable (n : Node) (v : List Char) : Prop :=
  ∀ (b : Builder) (rest : List Char), b.body = none →
    (n.isLiteral = true → startsWith Scanner.isText (rest.dropWhile isSpace) = false) →
    Leads b (v ++ rest) (b.push n) (rest.dropWhile isSpace)

def ReadableAll (nodes : List Node) (w : List Char) : Prop :=
  ∀ (b : Builder) (rest : List Char), b.body = none →
    (endsInLiteral nodes = true → startsWith Scanner.isText (rest.dropWhile isSpace) = false) →
    Leads b ((w ++ rest).dropWhile isSpace) (nodes.foldl Builder.push b) (rest.dropWhile isSpace)

theorem readable_literal {text : String} (hne : text.toList ≠ []) (ht : trim text.toList = text.toList)
    (h : ∀ c ∈ text.toList, Scanner.isText c = true) : (literal text).Readable text.toList := by
  intro b rest hb hstop
  obtain ⟨u, hu, hrest⟩ := exists_blank rest
  have htrim := trim_append hne ht hu
  refine .of_push hb fun s hs => ⟨_, _, .text (w := text.toList ++ u) ?_ ?_ ?_ (hstop rfl) ?_, ?_,
    hs.children⟩
  · rw [hs.body, hb, Option.map_none]
  · simp [hne]
  · intro c hc
    obtain hc | hc := List.mem_append.mp hc
    · exact h c hc
    · exact isText_of_isSpace (hu c hc)
  · rw [hs.rest, List.append_assoc, ← hrest]
  · have hvalue : text ≠ "" := fun he => hne (by rw [he]; rfl)
    rw [htrim, if_neg hne, String.ofList_toList, Builder.foldlM_some_iff, Builder.token_text hb hvalue]

theorem readable_serial {reference : String} (h : SpellsReference reference.toList) :
    (serial reference).Readable ('\x7b' :: reference.toList ++ ['\x7d']) := by
  intro b rest hb _
  refine .of_push hb fun s hs => ⟨_, _, .serial ?_ h (hs.rest.trans (by simp)), ?_, hs.children⟩
  · rw [hs.body, hb, Option.map_none]
  · rw [Builder.foldlM_some_iff, Builder.token_serial hb]

theorem readable_childless {named : Bool} {w u : List Char} (ht : IsTag n kind name attrs props [])
    (hs : WrittenStart kind name attrs props named w) (hu : Blank u) :
    n.Readable (w ++ '/' :: u ++ ['>']) := by
  intro b rest hb _
  have hstart := hs.leads hb (Or.inl rfl) (u ++ '>' :: rest)
  have htext : w ++ '/' :: u ++ ['>'] ++ rest = w ++ '/' :: (u ++ '>' :: rest) := by simp
  rw [htext]
  refine hstart.trans (.of_push hb fun s hs =>
    ⟨_, _, .closeBody hs.body hu hs.rest, ?_, hs.children⟩)
  rw [Builder.foldlM_some_iff, Builder.token, Builder.tag]
  simp only [ht.node]
  obtain ⟨body, opened, roots⟩ := b
  cases hb
  rfl

theorem readable_paired {children : List Node} {named : Bool} {closing : TagKind}
    {closingName : String} {w v u : List Char} (ht : IsTag n kind name attrs props children)
    (hs : WrittenStart kind name attrs props named w) (hc : ReadableAll children v)
    (he : WrittenClose closing closingName u) : n.Readable (w ++ '>' :: v ++ u) := by
  intro b rest hb _
  obtain ⟨body, opened, roots⟩ := b
  cases hb
  obtain ⟨x, hx⟩ : ∃ x, u = '<' :: x := by
    cases he with
    | mk => exact ⟨_, rfl⟩
  have hskip : (u ++ rest).dropWhile isSpace = u ++ rest := by
    rw [hx, List.cons_append]
    exact dropWhile_isSpace_cons (by decide) _
  have hstart := hs.leads (b := ⟨none, opened, roots⟩) rfl (Or.inr rfl) (v ++ (u ++ rest))
  have hchildren := hc ⟨none, ⟨name, kind, attrs, props, []⟩ :: opened, roots⟩ (u ++ rest) rfl
    (fun _ => by rw [hskip, hx]; rfl)
  rw [hskip, Builder.foldl_push_opened, List.nil_append] at hchildren
  have htext : w ++ '>' :: v ++ u ++ rest = w ++ '>' :: (v ++ (u ++ rest)) := by simp
  rw [htext]
  refine hstart.trans (Leads.trans (.of_moves fun s hs => ⟨_, _, _, .openChildren hs.body hs.rest,
    ?_, rfl, ?_⟩) (hchildren.trans (.of_push rfl fun s hs => ⟨_, _, .closeTag hs.body hs.children he
      hs.rest, ?_, rfl⟩)))
  · rw [Builder.foldlM_some_iff]
    rfl
  · rw [hs.children]
    rfl
  · rw [Builder.foldlM_some_iff, Builder.token, Builder.tag]
    simp only [ht.node]
    rfl

theorem Written.starts {v : List Char} (h : Written n v) : ∃ c more, v = c :: more ∧
    isSpace c = false ∧ (n.isLiteral = false → Scanner.isText c = false) := by
  cases h with
  | literal hne ht h =>
    obtain ⟨c, more, heq⟩ := List.exists_cons_of_ne_nil hne
    exact ⟨c, more, heq, isSpace_of_trim_eq_cons (ht.trans heq), fun hl => by cases hl⟩
  | serial h => exact ⟨'\x7b', _, rfl, by decide, fun _ => by decide⟩
  | childless ht hs hu =>
    cases hs with
    | mk => exact ⟨'<', _, rfl, by decide, fun _ => by decide⟩
  | paired ht hs hc he =>
    cases hs with
    | mk => exact ⟨'<', _, rfl, by decide, fun _ => by decide⟩

theorem readableAll_space {nodes : List Node} {w : List Char} {c : Char} (h : ReadableAll nodes w)
    (hc : isSpace c = true) : ReadableAll nodes (w ++ [c]) := by
  intro b rest hb hstop
  rw [← List.dropWhile_cons_of_pos (l := rest) hc] at hstop ⊢
  rw [← List.append_cons]
  exact h b (c :: rest) hb hstop

theorem readableAll_node {nodes : List Node} {w v : List Char} (h : ReadableAll nodes w)
    (hn : Written n v) (hr : n.Readable v)
    (hl : n.isLiteral = true → endsInLiteral nodes = false) :
    ReadableAll (nodes ++ [n]) (w ++ v) := by
  intro b rest hb hstop
  rw [endsInLiteral_append] at hstop
  obtain ⟨c, more, hv, hc, htext⟩ := hn.starts
  have hskip : (v ++ rest).dropWhile isSpace = v ++ rest := by
    rw [hv, List.cons_append]
    exact dropWhile_isSpace_cons hc _
  have hnodes := h b (v ++ rest) hb fun he => by
    rw [hskip, hv]
    refine htext (Bool.eq_false_iff.mpr fun hlit => ?_)
    rw [hl hlit] at he
    cases he
  rw [hskip, ← List.append_assoc] at hnodes
  rw [List.foldl_append]
  exact hnodes.trans (hr _ rest (by rw [Builder.body_foldl_push, hb]) hstop)

mutual

theorem Written.readable {n : Node} {v : List Char} : Written n v → n.Readable v
  | .literal hne ht h => readable_literal hne ht h
  | .serial h => readable_serial h
  | .childless ht hs hu => readable_childless ht hs hu
  | .paired ht hs hc he => readable_paired ht hs hc.readable he

theorem WrittenAll.readable {nodes : List Node} {w : List Char} :
    WrittenAll nodes w → ReadableAll nodes w
  | .nil => fun b _ _ _ => .refl b _
  | .space h hc => readableAll_space h.readable hc
  | .node h hn hl => readableAll_node h.readable hn hn.readable hl

end

end Node

theorem compile_of_written {source : String} {template : Template}
    (h : template.Written source.toList) : compile source = .ok template := by
  apply compile_iff_works.mpr
  have hleads := WrittenAll.readable h Builder.empty [] rfl fun _ => rfl
  rw [List.append_nil] at hleads
  obtain ⟨t, hw, ht⟩ := hleads (Scanner.start source.toList) ⟨⟨rfl, rfl⟩, rfl⟩
  exact ⟨t, _, hw, ht.rest, ht.body, ht.children, rfl⟩

/-- A source compiles to a template exactly when it is a text of the template. -/
theorem compile_iff_written {source : String} {template : Template} :
    compile source = .ok template ↔ template.Written source.toList :=
  ⟨written_of_compile, compile_of_written⟩

end ReactiveView
