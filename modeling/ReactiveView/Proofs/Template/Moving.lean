import ReactiveView.Proofs.Template.Reading

namespace ReactiveView

namespace TagKind

variable {kind : TagKind} {name : String}

theorem exists_sigil_append (h : kind.nameClass.Spells name.toList) :
    ∃ ch more, kind.sigil ++ name.toList = ch :: more ∧ ch ≠ '/' ∧ isSpace ch = false := by
  obtain ⟨ch, more, heq, hf⟩ := h.exists_cons
  cases kind with
  | command => exact ⟨'$', name.toList, rfl, by decide, by decide⟩
  | regular =>
    refine ⟨ch, more, heq, ?_, isSpace_of_isAlphanum (isAlphanum_of_isLower hf)⟩
    rintro rfl
    cases hf
  | custom =>
    refine ⟨ch, more, heq, ?_, isSpace_of_isAlphanum (isAlphanum_of_isUpper hf)⟩
    rintro rfl
    cases hf

end TagKind

namespace Scanner

open Cursor

/-- A step of the scanner: the token it yields, the text behind it, the tag whose body is open then
and the tags whose children are. -/
inductive Moves (s : Scanner) : Option Token → List Char → Option OpenTag → List OpenTag → Prop
  | closeBody {tag : OpenTag} {u more : List Char} (hb : s.body = some tag) (hu : Blank u)
      (hr : s.cursor.rest = '/' :: (u ++ '>' :: more)) :
      Moves s (some (.tag ⟨tag.name, tag.kind, some .finish, none, s.cursor.offset⟩))
        (more.dropWhile isSpace) none s.children
  | openChildren {tag : OpenTag} {more : List Char} (hb : s.body = some tag)
      (hr : s.cursor.rest = '>' :: more) :
      Moves s (some (.tag ⟨tag.name, tag.kind, some .finish, some .start, s.cursor.offset⟩))
        (more.dropWhile isSpace) none (tag :: s.children)
  | prop {tag : OpenTag} {name : String} {value : AttrValue} {u more : List Char}
      (hb : s.body = some tag) (hk : tag.kind = .custom)
      (hn : NameClass.lowerCamel.Spells name.toList) (hne : value ≠ .empty) (hv : value.Written u)
      (hr : s.cursor.rest = '$' :: (name.toList ++ (u ++ more))) :
      Moves s (some (.prop (.ofValue name value))) (more.dropWhile isSpace) (some tag) s.children
  | attr {tag : OpenTag} {name : String} {value : AttrValue} {u more : List Char}
      (hb : s.body = some tag) (hn : NameClass.lowerCamel.Spells name.toList) (hv : value.Written u)
      (hr : s.cursor.rest = name.toList ++ (u ++ more)) (he : value = .empty →
        startsWith Char.isAlphanum more = false ∧
          startsWith (· = '=') (more.dropWhile isSpace) = false) :
      Moves s (some (.attr (.ofValue name value))) (more.dropWhile isSpace) (some tag) s.children
  | closeTag {tag : OpenTag} {children : List OpenTag} {kind : TagKind} {name : String}
      {w more : List Char} (hb : s.body = none) (hc : s.children = tag :: children)
      (hw : WrittenClose kind name w) (hr : s.cursor.rest = w ++ more) :
      Moves s (some (.tag ⟨name, kind, none, some .finish, s.cursor.offset⟩))
        (more.dropWhile isSpace) none children
  | openTag {kind : TagKind} {name : String} {u more : List Char} (hb : s.body = none)
      (hu : Blank u) (hn : kind.nameClass.Spells name.toList)
      (hr : s.cursor.rest = '<' :: (u ++ (kind.sigil ++ name.toList ++ more)))
      (ha : startsWith kind.nameClass.accepts more = false) :
      Moves s (some (.tag ⟨name, kind, some .start, none, s.cursor.offset⟩))
        (more.dropWhile isSpace) (some ⟨name, kind⟩) s.children
  | serial {reference : String} {more : List Char} (hb : s.body = none)
      (hn : SpellsReference reference.toList)
      (hr : s.cursor.rest = '\x7b' :: (reference.toList ++ '\x7d' :: more)) :
      Moves s (some (.serial reference)) (more.dropWhile isSpace) none s.children
  | text {w more : List Char} (hb : s.body = none) (hne : w ≠ []) (hw : ∀ c ∈ w, isText c = true)
      (hm : startsWith isText more = false) (hr : s.cursor.rest = w ++ more) :
      Moves s (if trim w = [] then none else some (.text (String.ofList (trim w)))) more none
        s.children

variable {s t : Scanner} {o : Option Token} {ch : Char} {r rest : List Char}
  {body : Option OpenTag} {children : List OpenTag}

theorem moves_of_stepBody {tag : OpenTag} (hb : s.body = some tag) (hc : s.cursor.rest = ch :: r)
    (h : s.stepBody tag ch = .ok (o, t)) : Moves s o t.cursor.rest t.body t.children := by
  have hr := rest_advance hc
  unfold stepBody at h
  split at h
  · rename_i hch
    subst hch
    obtain ⟨d, hd, h⟩ := bind_eq_ok h
    cases h
    have he := expect_iff.mp ⟨d, hd, rfl⟩
    rw [rest_skipSpaces, hr] at he
    obtain ⟨u, hu, rfl⟩ := (dropWhile_eq_cons_iff (by decide)).mp he
    exact .closeBody hb hu hc
  split at h
  · rename_i hch
    subst hch
    cases h
    rw [rest_skipSpaces, hr]
    exact .openChildren hb hc
  split at h
  · rename_i hch
    subst hch
    obtain ⟨⟨token, d⟩, hd, heq⟩ := map_eq_ok h
    cases heq
    obtain ⟨hk, name, value, u, more, hn, hne, hv, rfl, hx, he⟩ := readProp_iff.mp ⟨d, hd, rfl⟩
    rw [hr] at hx
    rw [he, hb]
    exact .prop hb hk hn hne hv (by rw [hc, hx])
  split at h
  · cases h
  · obtain ⟨⟨token, d⟩, hd, heq⟩ := map_eq_ok h
    cases heq
    obtain ⟨name, value, u, more, hn, hv, rfl, hx, he, hlook⟩ := readAttr_iff.mp ⟨d, hd, rfl⟩
    rw [he, hb]
    exact .attr hb hn hv hx fun hempty => ⟨(hlook hempty).1, he ▸ (hlook hempty).2⟩

theorem exists_writtenClose {name : String} {kind : TagKind} {after : List Char} {d e : Cursor}
    (hc : s.cursor.rest = '<' :: r) (hslash : s.cursor.advance.skipSpaces.rest = '/' :: after)
    (hn : s.cursor.advance.skipSpaces.advance.skipSpaces.readTagName = .ok ((name, kind), d))
    (he : d.skipSpaces.expect '>' = .ok e) :
    ∃ w, WrittenClose kind name w ∧ s.cursor.rest = w ++ e.rest := by
  obtain ⟨u, hu, hur⟩ := exists_blank r
  obtain ⟨v, hv, hva⟩ := exists_blank after
  obtain ⟨hx, hspells, -⟩ := readTagName_iff.mp ⟨d, hn, rfl⟩
  have hgt := expect_iff.mp ⟨e, he, rfl⟩
  rw [rest_skipSpaces] at hgt hx
  obtain ⟨x, hblank, hdx⟩ := (dropWhile_eq_cons_iff (by decide)).mp hgt
  rw [rest_advance hslash] at hx
  rw [rest_skipSpaces, rest_advance hc] at hslash
  refine ⟨_, .mk hu hv hblank hspells, ?_⟩
  rw [hc, hur, hslash, hva, hx, hdx]
  simp

theorem moves_of_readTag (hb : s.body = none) (hc : s.cursor.rest = '<' :: r)
    (h : s.readTag = .ok (o, t)) : Moves s o t.cursor.rest t.body t.children := by
  simp only [readTag] at h
  split at h
  · rename_i hslash
    obtain ⟨after, hafter⟩ := next?_eq_some hslash
    obtain ⟨⟨⟨name, kind⟩, d⟩, hd, h⟩ := bind_eq_ok h
    obtain ⟨e, he, h⟩ := bind_eq_ok h
    obtain ⟨w, hw, hwr⟩ := exists_writtenClose hc hafter hd he
    split at h
    · cases h
    · rename_i tag children hchildren
      cases h
      exact .closeTag hb hchildren hw hwr
  · obtain ⟨⟨⟨name, kind⟩, d⟩, hd, h⟩ := bind_eq_ok h
    cases h
    obtain ⟨u, hu, hur⟩ := exists_blank r
    obtain ⟨hx, hn, ha⟩ := readTagName_iff.mp ⟨d, hd, rfl⟩
    rw [rest_skipSpaces, rest_advance hc] at hx
    refine .openTag hb hu hn ?_ ha
    rw [hc, hur, hx]

theorem moves_of_stepContent (hb : s.body = none) (hc : s.cursor.rest = ch :: r)
    (h : s.stepContent ch = .ok (o, t)) : Moves s o t.cursor.rest t.body t.children := by
  unfold stepContent at h
  split at h
  · rename_i hch
    subst hch
    exact moves_of_readTag hb hc h
  split at h
  · rename_i hch
    subst hch
    obtain ⟨⟨reference, d⟩, hd, heq⟩ := map_eq_ok h
    cases heq
    obtain ⟨more, hx, hn, he⟩ := readReference_iff.mp ⟨d, hd, rfl⟩
    rw [rest_advance hc] at hx
    rw [he, hb]
    exact .serial hb hn (by rw [hc, hx])
  split at h
  · cases h
  · rename_i h1 h2 h3
    cases h
    have ht : isText ch = true := by
      rw [not_or] at h3
      simp [isText, h1, h2, h3.1, h3.2]
    obtain ⟨hx, hw, hm⟩ := (span_iff (p := isText) (l := s.cursor.rest)).mp ⟨rfl, rfl⟩
    dsimp only
    rw [hb]
    refine .text hb ?_ hw hm hx
    rw [run, hc, List.takeWhile_cons, if_pos ht]
    exact List.cons_ne_nil _ _

theorem moves_of_step (hc : s.cursor.rest = ch :: r) (h : s.step ch = .ok (o, t)) :
    Moves s o t.cursor.rest t.body t.children := by
  unfold step at h
  split at h
  · rename_i tag hb
    exact moves_of_stepBody hb hc h
  · rename_i hb
    exact moves_of_stepContent hb hc h

def Steps (s : Scanner) (o : Option Token) (rest : List Char) (body : Option OpenTag)
    (children : List OpenTag) : Prop :=
  ∃ ch r t, s.cursor.rest = ch :: r ∧ s.step ch = .ok (o, t) ∧ t.cursor.rest = rest ∧
    t.body = body ∧ t.children = children

theorem steps_closeTag {tag : OpenTag} {kind : TagKind} {name : String} {w more : List Char}
    (hb : s.body = none) (hc : s.children = tag :: children) (hw : WrittenClose kind name w)
    (hr : s.cursor.rest = w ++ more) :
    Steps s (some (.tag ⟨name, kind, none, some .finish, s.cursor.offset⟩))
      (more.dropWhile isSpace) none children := by
  obtain @⟨u, v, x, hu, hv, hx, hn⟩ := hw
  have hr' : s.cursor.rest =
      '<' :: (u ++ '/' :: (v ++ (kind.sigil ++ name.toList ++ (x ++ '>' :: more)))) := by
    rw [hr]
    simp
  have h1 : s.cursor.advance.skipSpaces.rest =
      '/' :: (v ++ (kind.sigil ++ name.toList ++ (x ++ '>' :: more))) := by
    rw [rest_skipSpaces, rest_advance hr', hu.dropWhile_append, dropWhile_isSpace_cons (by decide)]
  obtain ⟨c, m, hcm, -, hcs⟩ := TagKind.exists_sigil_append hn
  have h2 : s.cursor.advance.skipSpaces.advance.skipSpaces.rest =
      kind.sigil ++ name.toList ++ (x ++ '>' :: more) := by
    rw [rest_skipSpaces, rest_advance h1, hv.dropWhile_append, hcm, List.cons_append,
      dropWhile_isSpace_cons hcs]
  have hgt : startsWith kind.nameClass.accepts (x ++ '>' :: more) = false := by
    cases x with
    | nil => cases kind <;> rfl
    | cons c x => exact accepts_of_isSpace (hx c (by simp)) _
  obtain ⟨d, hd, hdr⟩ := readTagName_iff.mpr ⟨h2, hn, hgt⟩
  have h3 : d.skipSpaces.rest = '>' :: more := by
    rw [rest_skipSpaces, hdr, hx.dropWhile_append, dropWhile_isSpace_cons (by decide)]
  obtain ⟨e, he, her⟩ := expect_iff.mpr h3
  refine ⟨'<', _, ⟨e.skipSpaces, none, children⟩, hr', ?_, by rw [rest_skipSpaces, her], rfl, rfl⟩
  simp only [step, hb, stepContent, if_true, readTag]
  rw [if_pos (next?_eq_some_iff.mpr ⟨_, h1⟩), Scanner.closeTag, hd]
  change (d.skipSpaces.expect '>' >>= _) = _
  rw [he]
  obtain ⟨cursor, body, opened⟩ := s
  cases hc
  rfl

theorem steps_openTag {kind : TagKind} {name : String} {u more : List Char} (hb : s.body = none)
    (hu : Blank u) (hn : kind.nameClass.Spells name.toList)
    (hr : s.cursor.rest = '<' :: (u ++ (kind.sigil ++ name.toList ++ more)))
    (ha : startsWith kind.nameClass.accepts more = false) :
    Steps s (some (.tag ⟨name, kind, some .start, none, s.cursor.offset⟩))
      (more.dropWhile isSpace) (some ⟨name, kind⟩) s.children := by
  obtain ⟨c, m, hcm, hslash, hcs⟩ := TagKind.exists_sigil_append hn
  have h1 : s.cursor.advance.skipSpaces.rest = kind.sigil ++ name.toList ++ more := by
    rw [rest_skipSpaces, rest_advance hr, hu.dropWhile_append, hcm, List.cons_append,
      dropWhile_isSpace_cons hcs]
  obtain ⟨d, hd, hdr⟩ := readTagName_iff.mpr ⟨h1, hn, ha⟩
  refine ⟨'<', _, ⟨d.skipSpaces, some ⟨name, kind⟩, s.children⟩, hr, ?_,
    by rw [rest_skipSpaces, hdr], rfl, rfl⟩
  simp only [step, hb, stepContent, if_true, readTag]
  rw [if_neg, Scanner.openTag, hd]
  · rfl
  · intro hs
    obtain ⟨m', hm'⟩ := next?_eq_some hs
    rw [h1, hcm, List.cons_append] at hm'
    exact hslash (List.cons.inj hm').1

theorem steps_closeBody {tag : OpenTag} {u more : List Char} (hb : s.body = some tag) (hu : Blank u)
    (hr : s.cursor.rest = '/' :: (u ++ '>' :: more)) :
    Steps s (some (.tag ⟨tag.name, tag.kind, some .finish, none, s.cursor.offset⟩))
      (more.dropWhile isSpace) none s.children := by
  have h1 : s.cursor.advance.skipSpaces.rest = '>' :: more := by
    rw [rest_skipSpaces, rest_advance hr, hu.dropWhile_append, dropWhile_isSpace_cons (by decide)]
  obtain ⟨e, he, her⟩ := expect_iff.mpr h1
  refine ⟨'/', _, ⟨e.skipSpaces, none, s.children⟩, hr, ?_, by rw [rest_skipSpaces, her], rfl, rfl⟩
  simp only [step, hb, stepBody, if_true, Scanner.closeBody, he]
  rfl

theorem steps_attr {tag : OpenTag} {name : String} {value : AttrValue} {u more : List Char}
    (hb : s.body = some tag) (hn : NameClass.lowerCamel.Spells name.toList) (hv : value.Written u)
    (hr : s.cursor.rest = name.toList ++ (u ++ more)) (he : value = .empty →
      startsWith Char.isAlphanum more = false ∧
        startsWith (· = '=') (more.dropWhile isSpace) = false) :
    Steps s (some (.attr (.ofValue name value))) (more.dropWhile isSpace) (some tag) s.children := by
  obtain ⟨d, hd, hdr⟩ := readAttr_iff.mpr ⟨_, _, _, _, hn, hv, rfl, hr, rfl, he⟩
  obtain ⟨c, m, hcm, hf⟩ := hn.exists_cons
  rw [hcm, List.cons_append] at hr
  refine ⟨c, _, { s with cursor := d }, hr, ?_, hdr, hb, rfl⟩
  have hne : ∀ x, Char.isLower x = false → c ≠ x := by
    rintro x hx rfl
    rw [show c.isLower = true from hf] at hx
    cases hx
  simp only [step, hb, stepBody]
  rw [if_neg (hne _ (by decide)), if_neg (hne _ (by decide)), if_neg (hne _ (by decide)),
    if_neg (not_or.mpr ⟨hne _ (by decide), hne _ (by decide)⟩), hd]
  rfl

theorem steps_text {w more : List Char} (hb : s.body = none) (hne : w ≠ [])
    (hw : ∀ c ∈ w, isText c = true) (hm : startsWith isText more = false)
    (hr : s.cursor.rest = w ++ more) :
    Steps s (if trim w = [] then none else some (.text (String.ofList (trim w)))) more none
      s.children := by
  obtain ⟨hx, hd⟩ := span_iff.mpr ⟨hr, hw, hm⟩
  obtain ⟨c, w, rfl⟩ := List.exists_cons_of_ne_nil hne
  have hc := hw c List.mem_cons_self
  simp only [isText, Bool.and_eq_true, bne_iff_ne] at hc
  refine ⟨c, w ++ more, { s with cursor := s.cursor.skip isText }, hr, ?_, hd, hb, rfl⟩
  simp only [step, hb, stepContent, readText, run, hx]
  rw [if_neg hc.1.1.1, if_neg hc.1.2, if_neg (not_or.mpr ⟨hc.1.1.2, hc.2⟩)]

theorem Moves.steps (h : Moves s o rest body children) : Steps s o rest body children := by
  cases h with
  | closeBody hb hu hr => exact steps_closeBody hb hu hr
  | @openChildren tag more hb hr =>
    refine ⟨'>', _, ⟨s.cursor.advance.skipSpaces, none, tag :: s.children⟩, hr, ?_,
      by rw [rest_skipSpaces, rest_advance hr], rfl, rfl⟩
    simp only [step, hb, stepBody]
    rfl
  | prop hb hk hn hne hv hr =>
    obtain ⟨d, hd, hdr⟩ := readProp_iff.mpr ⟨hk, _, _, _, _, hn, hne, hv, rfl, rest_advance hr, rfl⟩
    refine ⟨'$', _, { s with cursor := d }, hr, ?_, hdr, hb, rfl⟩
    simp only [step, hb, stepBody, hd]
    rfl
  | attr hb hn hv hr he => exact steps_attr hb hn hv hr he
  | closeTag hb hc hw hr => exact steps_closeTag hb hc hw hr
  | openTag hb hu hn hr ha => exact steps_openTag hb hu hn hr ha
  | serial hb hn hr =>
    obtain ⟨d, hd, hdr⟩ := readReference_iff.mpr ⟨_, rest_advance hr, hn, rfl⟩
    refine ⟨'\x7b', _, { s with cursor := d }, hr, ?_, hdr, hb, rfl⟩
    simp only [step, hb, stepContent, hd]
    rfl
  | text hb hne hw hm hr => exact steps_text hb hne hw hm hr

end Scanner

end ReactiveView
