import ReactiveView.Proofs.Template.Evidence

namespace ReactiveView

def Fails (source : String) (kind : LexErrorKind) : Prop :=
  ∃ e, tokenize source = .error e ∧ e.kind = kind

def closers : Nat → String
  | 0 => ""
  | k + 1 => "</a>" ++ closers k

def closerTokens (offset : Nat) : Nat → List Token
  | 0 => []
  | k + 1 => .tag ⟨"a", .regular, none, some .finish, offset⟩ :: closerTokens (offset + 4) k

/-- The tags whose children are open behind a token, if some are open before it. A closing tag
closes the innermost of them, which comes first. -/
def Token.opens (opened : List OpenTag) : Token → List OpenTag
  | .tag ⟨name, kind, _, some .start, _⟩ => ⟨name, kind⟩ :: opened
  | .tag ⟨_, _, _, some .finish, _⟩ => opened.tail
  | _ => opened

def openTags (tokens : List Token) : List OpenTag := tokens.foldl Token.opens []

/-- A source ends behind tokens with the children of some tags open, the innermost of which is the
first to be closed. As many closing tags behind it give it tokens, and no other number does. -/
structure LeavesOpen (source : String) (tokens : List Token) (opened : List OpenTag) : Prop where
  tags : openTags tokens = opened
  built : ∀ b, tokens.foldlM Builder.token Builder.empty = .ok b →
    b.opened.map PendingTag.openTag = opened
  closed : tokenize (source ++ closers opened.length) =
    .ok (tokens ++ closerTokens source.utf8ByteSize opened.length)
  fewer : ∀ k tag, opened[k]? = some tag → Fails (source ++ closers k) (.unclosedChildren tag.name)
  more : ∀ k, opened.length < k → Fails (source ++ closers k) (.unopenedClose "a")

theorem fails_iff {source : String} {kind : LexErrorKind} : Fails source kind ↔
    ∃ fault, (Scanner.start source.toList).tokens = .error fault ∧ fault.kind = kind := by
  constructor
  · rintro ⟨e, he, rfl⟩
    obtain ⟨fault, hf, rfl⟩ := tokenize_eq_error_iff.mp he
    exact ⟨fault, hf, rfl⟩
  · rintro ⟨fault, hf, rfl⟩
    exact ⟨_, tokenize_eq_error_iff.mpr ⟨fault, hf, rfl⟩, rfl⟩

namespace Scanner

open Cursor

variable {s t : Scanner} {o : Option Token} {ts : List Token} {rest u v : List Char}
  {body : Option OpenTag} {children : List OpenTag} {tag : OpenTag}

theorem Moves.opens (h : Moves s o rest body children) :
    children = o.toList.foldl Token.opens s.children := by
  cases h with
  | closeTag hb hc hw hr =>
    rw [hc]
    rfl
  | text hb hne hw hm hr => split <;> rfl
  | closeBody hb hu hr => rfl
  | openChildren hb hr => rfl
  | prop hb hk hn hne hu hr => rfl
  | attr hb hn hu hr he => rfl
  | openTag hb hu hn hr ha => rfl
  | serial hb hn hr => rfl

theorem Reads.opens (h : Reads s ts t) : t.children = ts.foldl Token.opens s.children := by
  induction h with
  | refl s => rfl
  | step hc h _ ih => rw [ih, List.foldl_append, ← (moves_of_step hc h).opens]

theorem Reads.agrees {b c : Builder} (h : Reads s ts t) (ha : Agrees s b)
    (hc : ts.foldlM Builder.token b = .ok c) : Agrees t c := by
  induction h generalizing b with
  | refl s =>
    cases hc
    exact ha
  | step hr h _ ih =>
    rw [List.foldlM_append] at hc
    obtain ⟨d, hd, hbody, hchildren⟩ | ⟨e, he, -⟩ := ha.takes_or_refuses (moves_of_step hr h)
    · rw [hd.builds] at hc
      exact ih ⟨hbody, hchildren⟩ hc
    · rw [he] at hc
      cases hc

theorem Moves.body_started (h : Moves s o rest (some tag) children) :
    (s.body = some tag ∧ ∀ token ∈ o, token.inBody = true) ∨
      ∃ offset, o = some (.tag ⟨tag.name, tag.kind, some .start, none, offset⟩) := by
  cases h with
  | prop hb hk hn hne hu hr => exact .inl ⟨hb, by rintro _ ⟨⟩; rfl⟩
  | attr hb hn hu hr he => exact .inl ⟨hb, by rintro _ ⟨⟩; rfl⟩
  | openTag hb hu hn hr ha => exact .inr ⟨_, rfl⟩

theorem Reads.body_started (h : Reads s ts t) (hb : t.body = some tag) :
    (s.body = some tag ∧ ∀ token ∈ ts, token.inBody = true) ∨
      ∃ before offset given, (∀ token ∈ given, token.inBody = true) ∧
        ts = before ++ .tag ⟨tag.name, tag.kind, some .start, none, offset⟩ :: given := by
  induction h with
  | refl s => exact .inl ⟨hb, fun _ h => by cases h⟩
  | @step s m t o ts ch r hc h _ ih =>
    obtain ⟨hm, hts⟩ | ⟨before, offset, given, hgiven, rfl⟩ := ih hb
    · obtain ⟨hs, ho⟩ | ⟨offset, rfl⟩ := (hm ▸ moves_of_step hc h).body_started
      · refine .inl ⟨hs, List.forall_mem_append.mpr ⟨fun token htoken => ?_, hts⟩⟩
        exact ho token (Option.mem_toList.mp htoken)
      · exact .inr ⟨[], offset, ts, hts, rfl⟩
    · exact .inr ⟨o.toList ++ before, offset, given, hgiven, (List.append_assoc _ _ _).symm⟩

theorem toList_closers_succ (k : Nat) :
    (closers (k + 1)).toList = "</a>".toList ++ (closers k).toList := String.toList_append

theorem dropWhile_closers (k : Nat) :
    (closers k).toList.dropWhile isSpace = (closers k).toList := by
  cases k with
  | zero => rfl
  | succ k => rw [toList_closers_succ]; rfl

theorem reads_closers {j : Nat} (hj : j ≤ children.length) (i offset : Nat) :
    Reads ⟨⟨(closers (j + i)).toList, offset⟩, none, children⟩ (closerTokens offset j)
      ⟨⟨(closers i).toList, offset + 4 * j⟩, none, children.drop j⟩ := by
  induction j generalizing offset children with
  | zero =>
    rw [Nat.zero_add]
    exact .refl _
  | succ j ih =>
    obtain ⟨tag, children, rfl⟩ := List.exists_cons_of_length_pos (Nat.zero_lt_of_lt hj)
    have hspells : NameClass.kebab.Spells "a".toList := (NameClass.admits_iff .kebab).mp (by decide)
    have hrest : (closers (j + 1 + i)).toList = "</a>".toList ++ (closers (j + i)).toList := by
      rw [Nat.succ_add, toList_closers_succ]
    have hmove : Moves ⟨⟨(closers (j + 1 + i)).toList, offset⟩, none, tag :: children⟩
        (some (.tag ⟨"a", .regular, none, some .finish, offset⟩))
        ((closers (j + i)).toList.dropWhile isSpace) none children :=
      .closeTag rfl rfl (.of_spells hspells) hrest
    rw [dropWhile_closers] at hmove
    obtain ⟨ch, r, hr, hs⟩ := hmove.exists_step (w := "</a>".toList) hrest
    have hoffset : offset + 4 * (j + 1) = offset + 4 + 4 * j := by omega
    rw [hoffset]
    exact .step hr hs (ih (Nat.le_of_succ_le_succ hj) (offset + 4))

theorem tokens_closers_nil (k offset : Nat) :
    (⟨⟨(closers (k + 1)).toList, offset⟩, none, []⟩ : Scanner).tokens =
      .error ⟨.unopenedClose "a", offset⟩ := by
  rw [toList_closers_succ]
  have hstep : step ⟨⟨"</a>".toList ++ (closers k).toList, offset⟩, none, []⟩ '<' =
    .error ⟨.unopenedClose "a", offset⟩ := rfl
  exact tokens_of_fault rfl hstep

theorem Reads.cursor_eq (h : Reads (start u) ts t) (hr : t.cursor.rest = []) :
    t.cursor = ⟨[], width u⟩ := by
  obtain ⟨w, hw, ho⟩ := h.reaches
  obtain ⟨⟨rest, offset⟩, body, children⟩ := t
  cases hr
  rw [List.append_nil] at hw
  rw [← offset_start_add u, hw]
  exact congrArg (Cursor.mk []) ho

theorem Reads.start_append (h : Reads (start u) ts t) (hr : t.cursor.rest = []) (hv : Parting v)
    (ht : t.body = none → startsWith isText v = false) :
    Reads (start (u ++ v)) ts ⟨⟨v, width u⟩, t.body, t.children⟩ := by
  have hend : t.within v [] = ⟨⟨v, width u⟩, t.body, t.children⟩ := by
    rw [Scanner.within, h.cursor_eq hr, List.append_nil]
    rfl
  rw [Scanner.start_append u hv, ← hend]
  exact h.within hv (fun hb _ => ht hb) []

theorem Reads.start_append_closers (h : Reads (start u) ts t) (hr : t.cursor.rest = [])
    (hb : t.body = none) (k : Nat) :
    Reads (start (u ++ (closers k).toList)) ts ⟨⟨(closers k).toList, width u⟩, none, t.children⟩ := by
  rw [← hb]
  cases k with
  | zero =>
    have hend := h.cursor_eq hr
    obtain ⟨cursor, body, children⟩ := t
    cases hend
    exact (List.append_nil u).symm ▸ h
  | succ k =>
    have hopen : Opening (closers (k + 1)).toList := by
      rw [toList_closers_succ]
      exact ⟨'<', _, rfl, .inl rfl⟩
    exact h.start_append hr hopen.parting fun _ => hopen.startsWith_eq_false rfl rfl

theorem leavesOpen_of_reads {source : String}
    (h : ∀ k, Reads (start (source ++ closers k).toList) ts
      ⟨⟨(closers k).toList, source.utf8ByteSize⟩, none, children⟩) :
    LeavesOpen source ts children := by
  have hend : ∀ i {j}, j ≤ children.length → (start (source ++ closers (j + i)).toList).tokens =
      (⟨⟨(closers i).toList, source.utf8ByteSize + 4 * j⟩, none, children.drop j⟩ :
        Scanner).tokens.map (ts ++ closerTokens source.utf8ByteSize j ++ ·) :=
    fun i j hj => ((h _).trans (reads_closers hj _ _)).tokens
  have hall : ∀ {j}, j ≤ children.length → (start (source ++ closers j).toList).tokens =
      (⟨⟨[], source.utf8ByteSize + 4 * j⟩, none, children.drop j⟩ : Scanner).stop.map
        (ts ++ closerTokens source.utf8ByteSize j ++ ·) := fun hj => by
    rw [← tokens_of_end rfl]
    exact hend 0 hj
  refine ⟨(h 0).opens.symm, fun b hb => ?_, ?_, fun k tag htag => ?_, fun k hk => ?_⟩
  · exact ((h 0).agrees ⟨rfl, rfl⟩ hb).children.symm
  · rw [tokenize_eq_ok_iff, hall (Nat.le_refl _), List.drop_length]
    exact congrArg Except.ok (List.append_nil _)
  · obtain ⟨hk, rfl⟩ := List.getElem?_eq_some_iff.mp htag
    have hsome := hall (Nat.le_of_lt hk)
    rw [List.drop_eq_getElem_cons hk] at hsome
    exact fails_iff.mpr ⟨_, hsome, rfl⟩
  · -- The tags are closed by the first of the closing tags, and the next one has none to close.
    obtain ⟨i, rfl⟩ := Nat.exists_eq_add_of_lt hk
    have hmany := hend (i + 1) (Nat.le_refl children.length)
    rw [List.drop_length, tokens_closers_nil] at hmany
    exact fails_iff.mpr ⟨_, hmany, rfl⟩

def Unclosed (s : Scanner) (kind : LexErrorKind) : Prop :=
  (∃ tag, s.body = some tag ∧ kind = .unclosedBody tag.name) ∨
    s.body = none ∧ ∃ tag more, s.children = tag :: more ∧ kind = .unclosedChildren tag.name

theorem unclosed_of_stop {fault : LexFault} (h : s.stop = .error fault) :
    s.Unclosed fault.kind := by
  unfold stop at h
  split at h
  · rename_i hb
    cases h
    exact .inl ⟨_, hb, rfl⟩
  · rename_i hb hc
    cases h
    exact .inr ⟨hb, _, _, hc, rfl⟩
  · cases h

theorem exists_reads_of_unclosed {source : String} {kind : LexErrorKind} (h : Fails source kind)
    (hk : kind.isUnclosed = true) : ∃ ts t, Reads (start source.toList) ts t ∧
      t.cursor.rest = [] ∧ t.Unclosed kind := by
  obtain ⟨fault, hf, rfl⟩ := fails_iff.mp h
  obtain ⟨ts, t, ht, ⟨hr, hs⟩ | ⟨ch, r, hr, hs⟩⟩ := exists_reads_of_error hf
  · exact ⟨ts, t, ht, hr, unclosed_of_stop hs⟩
  · have hblames : Blames [] t.cursor (t.step ch) := blames_step hr
    obtain ⟨hopen, -⟩ := hblames fault hs
    rw [hopen] at hk
    cases hk

end Scanner

open Scanner

theorem LeavesOpen.existsUnique {source : String} {tokens : List Token} {opened : List OpenTag}
    (h : LeavesOpen source tokens opened) :
    ∃! k, ∃ all, tokenize (source ++ closers k) = .ok all := by
  refine ⟨opened.length, ⟨_, h.closed⟩, ?_⟩
  rintro k ⟨all, hall⟩
  obtain hk | hk | hk := Nat.lt_trichotomy k opened.length
  · obtain ⟨e, he, -⟩ := h.fewer k _ (List.getElem?_eq_getElem hk)
    rw [hall] at he
    cases he
  · exact hk
  · obtain ⟨e, he, -⟩ := h.more k hk
    rw [hall] at he
    cases he

theorem leavesOpen_of_unclosedBody {source name : String} (h : Fails source (.unclosedBody name)) :
    ∃ before kind offset given opened, (∀ token ∈ given, token.inBody = true) ∧
      LeavesOpen (source ++ "/>") (before ++ .tag ⟨name, kind, some .start, none, offset⟩ ::
        (given ++ [.tag ⟨name, kind, some .finish, none, source.utf8ByteSize⟩])) opened := by
  obtain ⟨ts, t, ht, hr, ⟨tag, hb, hkind⟩ | ⟨-, tag, opened, -, hkind⟩⟩ :=
    exists_reads_of_unclosed h rfl
  · cases hkind
    obtain ⟨hnone, -⟩ | ⟨before, offset, given, hgiven, rfl⟩ := ht.body_started hb
    · cases hnone
    refine ⟨before, tag.kind, offset, given, t.children, hgiven, leavesOpen_of_reads fun k => ?_⟩
    have hsource : (source ++ "/>" ++ closers k).toList =
        source.toList ++ '/' :: '>' :: (closers k).toList := by simp
    have hread := ht.start_append (v := '/' :: '>' :: (closers k).toList) hr
      ⟨'/', _, rfl, .inr (.inr rfl)⟩ fun hnone => by rw [hb] at hnone; cases hnone
    rw [hb, width_toList] at hread
    have hmove : Moves ⟨⟨'/' :: '>' :: (closers k).toList, source.utf8ByteSize⟩, some tag, t.children⟩
        (some (.tag ⟨tag.name, tag.kind, some .finish, none, source.utf8ByteSize⟩))
        ((closers k).toList.dropWhile isSpace) none t.children := .closeBody rfl .nil rfl
    rw [dropWhile_closers] at hmove
    obtain ⟨ch, r, hr', hstep⟩ := hmove.exists_step (w := ['/', '>']) rfl
    rw [hsource, String.utf8ByteSize_append, ← List.cons_append, ← List.append_assoc]
    exact hread.trans (.step hr' hstep (.refl _))
  · cases hkind

theorem leavesOpen_of_unclosedChildren {source name : String}
    (h : Fails source (.unclosedChildren name)) :
    ∃ tokens kind opened, LeavesOpen source tokens (⟨name, kind⟩ :: opened) := by
  obtain ⟨ts, t, ht, hr, ⟨tag, -, hkind⟩ | ⟨hb, tag, opened, hc, hkind⟩⟩ :=
    exists_reads_of_unclosed h rfl
  · cases hkind
  · cases hkind
    refine ⟨ts, tag.kind, opened, leavesOpen_of_reads fun k => ?_⟩
    rw [← hc, ← width_toList, String.toList_append]
    exact ht.start_append_closers hr hb k

/-- A source that ends too early is mended by what the error asks for. If the body of a tag is left
open, its end `/>` closes the body of the tag that is named, and the source has tokens then, or the
children of a tag are left open and nothing else is wrong. If the children of tags are left open,
there is one number of closing tags that gives the source tokens; with fewer of them children are
still left open, with more a closing tag has nothing to close, and the first one closes the tag that
is named. -/
theorem unclosed_mended (source name : String) :
    (Fails source (.unclosedBody name) →
      ((∃ all, tokenize (source ++ "/>") = .ok all) ∨
        ∃ outer, Fails (source ++ "/>") (.unclosedChildren outer)) ∧
      ∃ before kind offset given opened, (∀ token ∈ given, token.inBody = true) ∧
        LeavesOpen (source ++ "/>") (before ++ .tag ⟨name, kind, some .start, none, offset⟩ ::
          (given ++ [.tag ⟨name, kind, some .finish, none, source.utf8ByteSize⟩])) opened) ∧
    (Fails source (.unclosedChildren name) →
      (∃! k, 1 ≤ k ∧ ∃ all, tokenize (source ++ closers k) = .ok all) ∧
      ∃ tokens kind opened, LeavesOpen source tokens (⟨name, kind⟩ :: opened)) := by
  constructor
  · intro h
    obtain ⟨before, kind, offset, given, opened, hgiven, hleaves⟩ := leavesOpen_of_unclosedBody h
    refine ⟨?_, before, kind, offset, given, opened, hgiven, hleaves⟩
    cases opened with
    | nil => exact .inl ⟨_, (String.append_empty (s := source ++ "/>")) ▸ hleaves.closed⟩
    | cons tag opened =>
      exact .inr ⟨tag.name, (String.append_empty (s := source ++ "/>")) ▸ hleaves.fewer 0 tag rfl⟩
  · intro h
    obtain ⟨tokens, kind, opened, hleaves⟩ := leavesOpen_of_unclosedChildren h
    refine ⟨⟨opened.length + 1, ⟨Nat.le_add_left _ _, _, hleaves.closed⟩, ?_⟩,
      tokens, kind, opened, hleaves⟩
    rintro k ⟨-, hk⟩
    exact hleaves.existsUnique.unique hk ⟨_, hleaves.closed⟩

theorem unclosed_mended_list :
    Fails "<ul><li" (.unclosedBody "li") ∧ Fails "<ul><li>" (.unclosedChildren "li") ∧
    ((∃ all, tokenize ("<ul><li" ++ "/>") = .ok all) ∨
      ∃ outer, Fails ("<ul><li" ++ "/>") (.unclosedChildren outer)) ∧
    (∃! k, 1 ≤ k ∧ ∃ all, tokenize ("<ul><li>" ++ closers k) = .ok all) ∧
    ∃ tokens kind opened, LeavesOpen "<ul><li>" tokens (⟨"li", kind⟩ :: opened) := by
  have hbody : Fails "<ul><li" (.unclosedBody "li") :=
    ⟨⟨.unclosedBody "li", 7, 1, 8⟩, by decide +kernel, rfl⟩
  have hchildren : Fails "<ul><li>" (.unclosedChildren "li") :=
    ⟨⟨.unclosedChildren "li", 8, 1, 9⟩, by decide +kernel, rfl⟩
  exact ⟨hbody, hchildren, ((unclosed_mended _ "li").1 hbody).1, (unclosed_mended _ "li").2 hchildren⟩

end ReactiveView
