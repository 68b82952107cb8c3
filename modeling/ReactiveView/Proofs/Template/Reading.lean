import ReactiveView.Proofs.Template.Names
import ReactiveView.Template.Parse

namespace ReactiveView

theorem accepts_of_isSpace {c : Char} (h : isSpace c = true) (k : NameClass) :
    k.accepts c = false := by
  apply Bool.eq_false_iff.mpr
  intro ha
  have hn : isSpace c = false := by
    cases k with
    | kebab =>
      simp only [NameClass.accepts, isLowerOrDigit, Bool.or_eq_true, beq_iff_eq] at ha
      obtain (hl | hd) | rfl := ha
      · exact isSpace_of_isAlphanum (isAlphanum_of_isLower hl)
      · exact isSpace_of_isAlphanum (isAlphanum_of_isDigit hd)
      · decide
    | lowerCamel => exact isSpace_of_isAlphanum ha
    | upperCamel => exact isSpace_of_isAlphanum ha
  rw [h] at hn
  cases hn

theorem AttrValue.Written.eq_nil {u : List Char} (h : AttrValue.empty.Written u) : u = [] := by
  cases h with
  | empty => rfl
  | given _ _ hq => cases hq

def AttrToken.ofValue (name : String) : AttrValue → AttrToken
  | .empty => ⟨name, .empty, none⟩
  | .literal text => ⟨name, .string, some text⟩
  | .serial reference => ⟨name, .serial, some reference⟩

theorem AttrToken.attr_ofValue (name : String) (value : AttrValue) :
    (AttrToken.ofValue name value).attr = .ok ⟨name, value⟩ := by
  cases value <;> rfl

namespace TagKind

def ofFirst (ch : Char) : TagKind :=
  if ch = '$' then command else if ch.isUpper then custom else regular

theorem ofFirst_eq {kind : TagKind} {w rest r : List Char} {ch : Char}
    (h : kind.nameClass.Spells w) (hr : kind.sigil ++ w ++ rest = ch :: r) : ofFirst ch = kind := by
  obtain ⟨first, more, rfl, hf⟩ := h.exists_cons
  cases kind with
  | command =>
    obtain rfl := (List.cons.inj hr).1
    rfl
  | custom =>
    obtain rfl := (List.cons.inj hr).1
    have hne : first ≠ '$' := by
      rintro rfl
      cases hf
    rw [ofFirst, if_neg hne]
    exact if_pos hf
  | regular =>
    obtain rfl := (List.cons.inj hr).1
    have hne : first ≠ '$' := by
      rintro rfl
      cases hf
    rw [ofFirst, if_neg hne, isUpper_of_isLower hf]
    rfl

end TagKind

namespace Cursor

variable {c : Cursor} {rest : List Char}

/-- A reader gives a result and stops at a text. -/
def Gives {α : Type} (x : Scanned (α × Cursor)) (a : α) (rest : List Char) : Prop :=
  ∃ d, x = .ok (a, d) ∧ d.rest = rest

theorem rest_skipSpaces (c : Cursor) : c.skipSpaces.rest = c.rest.dropWhile isSpace := rfl

theorem rest_advance {ch : Char} (h : c.rest = ch :: rest) : c.advance.rest = rest := by
  rw [advance, h]

theorem next?_eq_some_iff {ch : Char} : c.next? = some ch ↔ ∃ rest, c.rest = ch :: rest := by
  constructor
  · exact next?_eq_some
  · rintro ⟨rest, h⟩
    rw [next?, h, List.head?_cons]

theorem startsWith_eq_false_iff {ch : Char} :
    startsWith (· = ch) c.rest = false ↔ c.next? ≠ some ch := by
  unfold next?
  cases c.rest with
  | nil => simp [startsWith]
  | cons first rest => simp [startsWith]

theorem expect_iff {ch : Char} :
    (∃ d, c.expect ch = .ok d ∧ d.rest = rest) ↔ c.rest = ch :: rest := by
  unfold expect
  split
  · rename_i h
    obtain ⟨more, hm⟩ := next?_eq_some h
    simp [rest_advance hm, hm]
  · rename_i h
    refine iff_of_false ?_ fun hr => h (next?_eq_some_iff.mpr ⟨rest, hr⟩)
    rintro ⟨d, hd, -⟩
    cases hd

theorem gives_map {α β : Type} {f : α → β} {x : Scanned (α × Cursor)} {b : β} :
    Gives (x.map fun r => (f r.1, r.2)) b rest ↔ ∃ a, Gives x a rest ∧ f a = b := by
  constructor
  · rintro ⟨d, hx, hd⟩
    obtain ⟨⟨a, d'⟩, hx', heq⟩ := map_eq_ok hx
    cases heq
    exact ⟨a, ⟨_, hx', hd⟩, rfl⟩
  · rintro ⟨a, ⟨d, hx, hd⟩, rfl⟩
    exact ⟨d, by rw [hx]; rfl, hd⟩

theorem gives_bind {α β : Type} {f : α × Cursor → Scanned (β × Cursor)} {x : Scanned (α × Cursor)}
    {b : β} : Gives (x >>= f) b rest ↔ ∃ a d, x = .ok (a, d) ∧ Gives (f (a, d)) b rest := by
  constructor
  · rintro ⟨d, hx, hd⟩
    obtain ⟨⟨a, d'⟩, hx, h⟩ := bind_eq_ok hx
    exact ⟨a, d', hx, d, h, hd⟩
  · rintro ⟨a, d', hx, d, h, hd⟩
    exact ⟨d, by rw [hx]; exact h, hd⟩

theorem not_gives_fault {α : Type} {kind : LexErrorKind} {a : α} :
    ¬ Gives (c.fault kind : Scanned (α × Cursor)) a rest := by
  rintro ⟨d, hd, -⟩
  cases hd

theorem readWord_iff {k : NameClass} {word : String} : Gives (c.readWord k) word rest ↔
    c.rest = word.toList ++ rest ∧ k.Spells word.toList ∧ startsWith k.accepts rest = false := by
  have hspan : c.run k.accepts = word.toList ∧ (c.skip k.accepts).rest = rest ↔ _ := span_iff
  constructor
  · rintro ⟨d, hd, rfl⟩
    simp only [readWord, fault] at hd
    split at hd
    · cases hd
    · split at hd
      · rename_i ha
        cases hd
        have hw := hspan.mp ⟨(String.toList_ofList).symm, rfl⟩
        rw [String.toList_ofList] at hw ⊢
        exact ⟨hw.1, k.admits_iff.mp ha, hw.2.2⟩
      · cases hd
  · rintro ⟨hr, hk, hs⟩
    obtain ⟨hw, hd⟩ := hspan.mpr ⟨hr, hk.accepts, hs⟩
    have hne : word.toList ≠ [] := by
      obtain ⟨ch, more, heq, -⟩ := hk.exists_cons
      rw [heq]
      exact List.cons_ne_nil _ _
    refine ⟨c.skip k.accepts, ?_, hd⟩
    have hrun : c.run k.accepts = word.toList := hw
    simp only [readWord, hrun]
    rw [if_neg hne, if_pos (k.admits_iff.mpr hk), String.ofList_toList]

theorem run_iff {q : Char} {w more : List Char} :
    c.run (· != q) = w ∧ (c.skip (· != q)).rest = q :: more ↔
      c.rest = w ++ q :: more ∧ q ∉ w := by
  refine (span_iff (p := (· != q))).trans (and_congr_right fun _ => ?_)
  simp only [startsWith, bne_self_eq_false, and_true]
  constructor
  · intro h hm
    simpa using h q hm
  · intro h ch hc
    exact bne_iff_ne.mpr fun he => h (he ▸ hc)

theorem skip_cases (c : Cursor) (q : Char) :
    (c.skip (· != q)).rest = [] ∨ ∃ more, (c.skip (· != q)).rest = q :: more := by
  have h := (span_iff (p := (· != q)) (l := c.rest)).mp ⟨rfl, rfl⟩
  cases hd : (c.skip (· != q)).rest with
  | nil => exact Or.inl rfl
  | cons ch more =>
    have hs : startsWith (· != q) (ch :: more) = false := hd ▸ h.2.2
    have hq : ch = q := by simpa [startsWith] using hs
    exact Or.inr ⟨more, hq ▸ rfl⟩

theorem readReference_iff {reference : String} : Gives c.readReference reference rest ↔
    ∃ more, c.rest = reference.toList ++ '\x7d' :: more ∧ SpellsReference reference.toList ∧
      rest = more.dropWhile isSpace := by
  simp only [readReference]
  obtain hs | ⟨more, hs⟩ := c.skip_cases '\x7d'
  · rw [if_pos hs]
    apply iff_of_false not_gives_fault
    rintro ⟨more, hr, hn, -⟩
    have h := (run_iff.mpr ⟨hr, hn.not_mem⟩).2
    rw [hs] at h
    cases h
  · rw [if_neg (by rw [hs]; exact List.cons_ne_nil _ _)]
    by_cases hr : isReference (c.run (· != '\x7d')) = true
    · rw [if_pos hr]
      constructor
      · rintro ⟨d, hd, rfl⟩
        cases hd
        rw [String.toList_ofList, rest_skipSpaces, rest_advance hs]
        exact ⟨more, (run_iff.mp ⟨rfl, hs⟩).1, isReference_iff.mp hr, rfl⟩
      · rintro ⟨more', hr', hn, rfl⟩
        obtain ⟨hw, hs'⟩ := run_iff.mpr ⟨hr', hn.not_mem⟩
        refine ⟨(c.skip (· != '\x7d')).advance.skipSpaces, ?_, ?_⟩
        · rw [hw, String.ofList_toList]
        · rw [rest_skipSpaces, rest_advance hs']
    · rw [if_neg hr]
      apply iff_of_false not_gives_fault
      rintro ⟨more', hr', hn, -⟩
      rw [(run_iff.mpr ⟨hr', hn.not_mem⟩).1] at hr
      exact hr (isReference_iff.mpr hn)

theorem readQuoted_iff {text : String} : Gives c.readQuoted text rest ↔
    ∃ more, c.rest = text.toList ++ '"' :: more ∧ '"' ∉ text.toList ∧
      rest = more.dropWhile isSpace := by
  simp only [readQuoted]
  obtain hs | ⟨more, hs⟩ := c.skip_cases '"'
  · rw [if_pos hs]
    apply iff_of_false not_gives_fault
    rintro ⟨more, hr, hn, -⟩
    have h := (run_iff.mpr ⟨hr, hn⟩).2
    rw [hs] at h
    cases h
  · rw [if_neg (by rw [hs]; exact List.cons_ne_nil _ _)]
    constructor
    · rintro ⟨d, hd, rfl⟩
      cases hd
      obtain ⟨hr, hn⟩ := run_iff.mp ⟨rfl, hs⟩
      rw [String.toList_ofList, rest_skipSpaces, rest_advance hs]
      exact ⟨more, hr, hn, rfl⟩
    · rintro ⟨more', hr, hn, rfl⟩
      obtain ⟨hw, hs'⟩ := run_iff.mpr ⟨hr, hn⟩
      refine ⟨(c.skip (· != '"')).advance.skipSpaces, ?_, ?_⟩
      · rw [hw, String.ofList_toList]
      · rw [rest_skipSpaces, rest_advance hs']

theorem readValue_iff {name : String} {token : AttrToken} : Gives (c.readValue name) token rest ↔
    ∃ value w more, AttrValue.Quoted value w ∧ token = AttrToken.ofValue name value ∧
      c.rest = w ++ more ∧ rest = more.dropWhile isSpace := by
  unfold readValue
  split
  · rename_i h
    obtain ⟨r, hr⟩ := next?_eq_some h
    rw [gives_map (f := fun r => (⟨name, .serial, some r⟩ : AttrToken))]
    simp only [readReference_iff, rest_advance hr, hr]
    constructor
    · rintro ⟨reference, ⟨more, rfl, hn, rfl⟩, rfl⟩
      exact ⟨.serial reference, _, more, .serial hn, rfl, by simp, rfl⟩
    · rintro ⟨value, w, more, hq, rfl, heq, rfl⟩
      cases hq with
      | literal hn => cases heq
      | serial hn =>
        rw [List.cons_append, List.cons_append, List.cons.injEq, List.append_assoc] at heq
        exact ⟨_, ⟨more, heq.2, hn, rfl⟩, rfl⟩
  · rename_i h
    split
    · rename_i h'
      obtain ⟨r, hr⟩ := next?_eq_some h'
      rw [gives_map (f := fun r => (⟨name, .string, some r⟩ : AttrToken))]
      simp only [readQuoted_iff, rest_advance hr, hr]
      constructor
      · rintro ⟨text, ⟨more, rfl, hn, rfl⟩, rfl⟩
        exact ⟨.literal text, _, more, .literal hn, rfl, by simp, rfl⟩
      · rintro ⟨value, w, more, hq, rfl, heq, rfl⟩
        cases hq with
        | serial hn => cases heq
        | literal hn =>
          rw [List.cons_append, List.cons_append, List.cons.injEq, List.append_assoc] at heq
          exact ⟨_, ⟨more, heq.2, hn, rfl⟩, rfl⟩
    · rename_i h'
      apply iff_of_false not_gives_fault
      rintro ⟨value, w, more, hq, -, heq, -⟩
      cases hq with
      | serial hn => exact h (next?_eq_some_iff.mpr ⟨_, heq⟩)
      | literal hn => exact h' (next?_eq_some_iff.mpr ⟨_, heq⟩)

theorem readAssigned_iff {name : String} {token : AttrToken} :
    c.skipSpaces.next? = some '=' ∧
      Gives (c.skipSpaces.advance.skipSpaces.readValue name) token rest ↔
    ∃ value u more, value ≠ AttrValue.empty ∧ value.Written u ∧
      token = AttrToken.ofValue name value ∧ c.rest = u ++ more ∧ rest = more.dropWhile isSpace := by
  constructor
  · rintro ⟨h, hg⟩
    obtain ⟨r, hr⟩ := next?_eq_some h
    obtain ⟨value, w, more, hq, rfl, hw, rfl⟩ := readValue_iff.mp hg
    obtain ⟨u, hu, hc⟩ := exists_blank c.rest
    obtain ⟨v, hv, hr'⟩ := exists_blank r
    rw [rest_skipSpaces, rest_advance hr] at hw
    rw [rest_skipSpaces] at hr
    refine ⟨value, u ++ '=' :: v ++ w, more, ?_, .given hu hv hq, rfl, ?_, rfl⟩
    · rintro rfl
      cases hq
    · rw [hc, hr, hr', hw]
      simp
  · rintro ⟨value, u, more, hne, hw, rfl, hr, rfl⟩
    cases hw with
    | empty => exact absurd rfl hne
    | @given _ u v w hu hv hq =>
      have hs : c.skipSpaces.rest = '=' :: (v ++ (w ++ more)) := by
        rw [rest_skipSpaces, hr, List.append_assoc, List.append_assoc, hu.dropWhile_append,
          List.cons_append, dropWhile_isSpace_cons (by decide)]
      refine ⟨next?_eq_some_iff.mpr ⟨_, hs⟩, readValue_iff.mpr ⟨value, w, more, hq, rfl, ?_, rfl⟩⟩
      rw [rest_skipSpaces, rest_advance hs, hv.dropWhile_append]
      cases hq with
      | literal hn => exact dropWhile_isSpace_cons (by decide) _
      | serial hn => exact dropWhile_isSpace_cons (by decide) _

theorem startsWith_accepts_written {value : AttrValue} {u : List Char} (h : value.Written u)
    (hne : value ≠ .empty) (k : NameClass) (more : List Char) :
    startsWith k.accepts (u ++ more) = false := by
  cases h with
  | empty => exact absurd rfl hne
  | @given _ u v w hu hv hq =>
    cases u with
    | nil => cases k <;> rfl
    | cons ch u => exact accepts_of_isSpace (hu ch (by simp)) k

theorem readAttr_iff {token : AttrToken} : Gives c.readAttr token rest ↔
    ∃ name value u more, NameClass.lowerCamel.Spells name.toList ∧ value.Written u ∧
      token = AttrToken.ofValue name value ∧ c.rest = name.toList ++ (u ++ more) ∧
      rest = more.dropWhile isSpace ∧ (value = .empty →
        startsWith Char.isAlphanum more = false ∧ startsWith (· = '=') rest = false) := by
  simp only [readAttr, gives_bind]
  constructor
  · rintro ⟨name, d, hd, h⟩
    obtain ⟨hr, hn, hs⟩ := readWord_iff.mp ⟨d, hd, rfl⟩
    split at h
    · rename_i heq
      obtain ⟨value, u, more, hne, hw, rfl, hu, rfl⟩ := readAssigned_iff.mp ⟨heq, h⟩
      exact ⟨name, value, u, more, hn, hw, rfl, by rw [hr, hu], rfl, fun he => absurd he hne⟩
    · rename_i heq
      obtain ⟨_, he, rfl⟩ := h
      cases he
      exact ⟨name, .empty, [], d.rest, hn, .empty, rfl, hr, rfl, fun _ =>
        ⟨hs, startsWith_eq_false_iff.mpr heq⟩⟩
  · rintro ⟨name, value, u, more, hn, hw, rfl, hr, rfl, he⟩
    have hs : startsWith NameClass.lowerCamel.accepts (u ++ more) = false := by
      by_cases hv : value = .empty
      · subst hv
        rw [hw.eq_nil]
        exact (he rfl).1
      · exact startsWith_accepts_written hw hv _ more
    obtain ⟨d, hd, hdr⟩ := readWord_iff.mpr ⟨hr, hn, hs⟩
    refine ⟨name, d, hd, ?_⟩
    by_cases hv : value = .empty
    · subst hv
      rw [hw.eq_nil, List.nil_append] at hdr
      have hdrs : d.skipSpaces.rest = more.dropWhile isSpace := by rw [rest_skipSpaces, hdr]
      rw [if_neg (startsWith_eq_false_iff.mp (hdrs ▸ (he rfl).2))]
      exact ⟨_, rfl, hdrs⟩
    · obtain ⟨heq, hg⟩ := readAssigned_iff.mpr ⟨value, u, more, hv, hw, rfl, hdr, rfl⟩
      rw [if_pos heq]
      exact hg

theorem readProp_iff {kind : TagKind} {token : AttrToken} : Gives (c.readProp kind) token rest ↔
    kind = .custom ∧ ∃ name value u more, NameClass.lowerCamel.Spells name.toList ∧
      value ≠ AttrValue.empty ∧ value.Written u ∧ token = AttrToken.ofValue name value ∧
      c.rest = name.toList ++ (u ++ more) ∧ rest = more.dropWhile isSpace := by
  simp only [readProp, gives_bind]
  constructor
  · rintro ⟨name, d, hd, h⟩
    obtain ⟨hr, hn, -⟩ := readWord_iff.mp ⟨d, hd, rfl⟩
    split at h
    · exact absurd h not_gives_fault
    · rename_i hk
      split at h
      · rename_i heq
        obtain ⟨value, u, more, hne, hw, rfl, hu, rfl⟩ := readAssigned_iff.mp ⟨heq, h⟩
        exact ⟨Decidable.not_not.mp hk, name, value, u, more, hn, hne, hw, rfl, by rw [hr, hu], rfl⟩
      · exact absurd h not_gives_fault
  · rintro ⟨rfl, name, value, u, more, hn, hne, hw, rfl, hr, rfl⟩
    obtain ⟨d, hd, hdr⟩ := readWord_iff.mpr ⟨hr, hn, startsWith_accepts_written hw hne _ more⟩
    obtain ⟨heq, hg⟩ := readAssigned_iff.mpr ⟨value, u, more, hne, hw, rfl, hdr, rfl⟩
    refine ⟨name, d, hd, ?_⟩
    rw [if_neg (by simp), if_pos heq]
    exact hg

theorem gives_named {k : NameClass} {kind' kind : TagKind} {name : String} :
    Gives ((c.readWord k).map fun r => ((r.1, kind'), r.2)) (name, kind) rest ↔
      kind' = kind ∧ c.rest = name.toList ++ rest ∧ k.Spells name.toList ∧
        startsWith k.accepts rest = false := by
  rw [gives_map (f := fun r => (r, kind'))]
  simp only [readWord_iff, Prod.mk.injEq]
  constructor
  · rintro ⟨_, h, rfl, rfl⟩
    exact ⟨rfl, h⟩
  · rintro ⟨rfl, h⟩
    exact ⟨name, h, rfl, rfl⟩

theorem not_gives_readTagName (hr : c.rest = []) (r : String × TagKind) :
    ¬Gives c.readTagName r rest := by
  obtain ⟨name, kind⟩ := r
  simp only [readTagName, next?, hr, List.head?_nil]
  rw [gives_named, hr]
  rintro ⟨-, h, hs, -⟩
  obtain ⟨ch, more, heq, -⟩ := hs.exists_cons
  rw [heq] at h
  cases h

theorem readTagName_cons_iff {kind : TagKind} {name : String} {ch : Char} {r : List Char}
    (hr : c.rest = ch :: r) : Gives c.readTagName (name, kind) rest ↔
      TagKind.ofFirst ch = kind ∧ c.rest = kind.sigil ++ name.toList ++ rest ∧
        kind.nameClass.Spells name.toList ∧ startsWith kind.nameClass.accepts rest = false := by
  simp only [readTagName, next?, hr, List.head?_cons, TagKind.ofFirst]
  split
  · rename_i hc
    subst hc
    rw [gives_named, rest_advance hr]
    refine and_congr_right fun h => ?_
    subst h
    exact and_congr_left' (List.cons_inj_right '$').symm
  · split
    all_goals
      rw [gives_named, hr]
      refine and_congr_right fun h => ?_
      subst h
      rfl

theorem readTagName_iff {kind : TagKind} {name : String} : Gives c.readTagName (name, kind) rest ↔
    c.rest = kind.sigil ++ name.toList ++ rest ∧ kind.nameClass.Spells name.toList ∧
      startsWith kind.nameClass.accepts rest = false := by
  cases hr : c.rest with
  | nil =>
    refine iff_of_false (not_gives_readTagName hr _) ?_
    rintro ⟨h, hs, -⟩
    obtain ⟨ch, more, heq, -⟩ := hs.exists_cons
    simp [heq] at h
  | cons ch r =>
    rw [readTagName_cons_iff hr, hr]
    exact ⟨And.right, fun h => ⟨TagKind.ofFirst_eq h.2.1 h.1.symm, h⟩⟩

end Cursor

end ReactiveView
