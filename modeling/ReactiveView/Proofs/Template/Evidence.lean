import ReactiveView.Proofs.Template.Joining
import ReactiveView.Proofs.Template.Places

namespace ReactiveView

/-- The first word of a text is what stands at its start in the characters of a class. -/
def NameClass.FirstWord (k : NameClass) (word text : List Char) : Prop :=
  word ≠ [] ∧ ∃ more, text = word ++ more ∧ (∀ c ∈ word, k.accepts c = true) ∧
    startsWith k.accepts more = false

def Expectation.accepts : Expectation → Char → Bool
  | char c, ch => ch == c
  | value, ch => ch == '\x7b' || ch == '"'
  | name k, ch => k.accepts ch

namespace LexErrorKind

/-- What an error says is shown by the text before its place and the text behind it. -/
def Shown (before after : List Char) : LexErrorKind → Prop
  | expected what found => after.head? = found ∧ startsWith what.accepts after = false
  | invalidName k word => k.FirstWord word.toList after ∧ ¬ k.Spells word.toList
  | invalidReference text => (∃ earlier, before = earlier ++ ['\x7b']) ∧
      (∃ more, after = text.toList ++ '\x7d' :: more) ∧ '\x7d' ∉ text.toList ∧
      ¬ SpellsReference text.toList
  | propOutsideCustomTag name => (∃ earlier, before = earlier ++ ['$']) ∧
      NameClass.lowerCamel.FirstWord name.toList after ∧ NameClass.lowerCamel.Spells name.toList
  | emptyProp name => (∃ earlier u, before = earlier ++ '$' :: (name.toList ++ u) ∧ Blank u) ∧
      NameClass.lowerCamel.Spells name.toList ∧ startsWith isSpace after = false ∧
      startsWith (· = '=') after = false
  | unopenedClose name => ∃ kind w more, after = w ++ more ∧ WrittenClose kind name w
  | unclosedBody _ | unclosedChildren _ => after = []
  | unexpected c => after.head? = some c ∧ Scanner.isText c = false
  | unexpectedEnd closing => after = [] ∧ ∃ earlier opening w, before = earlier ++ opening :: w ∧
      (opening, closing) ∈ [('\x7b', '\x7d'), ('"', '"')] ∧ closing ∉ w

def isUnclosed : LexErrorKind → Bool
  | unclosedBody _ | unclosedChildren _ => true
  | _ => false

end LexErrorKind

/-- The fault of a reader at a place, with a text before it: the text goes on to where the fault is
shown. -/
def Evident (before : List Char) (c : Cursor) (fault : LexFault) : Prop :=
  fault.kind.isUnclosed = false ∧ ∃ w after, c.rest = w ++ after ∧
    fault.offset = c.offset + width w ∧ fault.kind.Shown (before ++ w) after

def Blames {α : Type} (before : List Char) (c : Cursor) (x : Scanned α) : Prop :=
  ∀ fault, x = .error fault → Evident before c fault

namespace Blames

variable {α β : Type} {before w : List Char} {c d : Cursor} {x : Scanned α}

theorem ok (a : α) : Blames before c (.ok a) := by
  intro fault h
  cases h

theorem fault {kind : LexErrorKind} (hk : kind.isUnclosed = false)
    (h : kind.Shown before c.rest) : Blames before c (c.fault kind : Scanned α) := by
  intro fault hf
  cases hf
  exact ⟨hk, [], c.rest, rfl, rfl, by rwa [List.append_nil]⟩

theorem map (h : Blames before c x) (f : α → β) : Blames before c (x.map f) := by
  intro fault hf
  cases x with
  | ok a => cases hf
  | error fault' =>
    cases hf
    exact h _ rfl

theorem bind {f : α → Scanned β} (h : Blames before c x)
    (hf : ∀ a, x = .ok a → Blames before c (f a)) : Blames before c (x >>= f) := by
  intro fault he
  cases x with
  | ok a => exact hf a rfl fault he
  | error fault' =>
    cases he
    exact h _ rfl

theorem of_passes (hp : c.Passes w d) (h : Blames (before ++ w) d x) : Blames before c x := by
  obtain ⟨hr, ho⟩ := hp
  intro fault hf
  obtain ⟨hk, v, after, hv, hoffset, hshown⟩ := h fault hf
  refine ⟨hk, w ++ v, after, by rw [hr, hv, List.append_assoc], ?_, by rwa [← List.append_assoc]⟩
  rw [hoffset, ho, Cursor.width_append, Nat.add_assoc]

theorem of_reaches (hr : c.Reaches d) (h : ∀ w, Blames (before ++ w) d x) : Blames before c x := by
  obtain ⟨w, hp⟩ := hr
  exact of_passes hp (h w)

end Blames

namespace Cursor

variable {before : List Char} {c d : Cursor}

theorem passes_readWord {k : NameClass} {word : String} (h : c.readWord k = .ok (word, d)) :
    c.Passes word.toList d := by
  simp only [readWord, fault] at h
  split at h
  · cases h
  · split at h
    · cases h
      rw [String.toList_ofList]
      exact passes_skip _ _
    · cases h

theorem firstWord_run {k : NameClass} (hne : c.run k.accepts ≠ []) :
    k.FirstWord (c.run k.accepts) c.rest := by
  obtain ⟨hr, hw, hs⟩ := (span_iff (p := k.accepts) (l := c.rest)).mp ⟨rfl, rfl⟩
  exact ⟨hne, _, hr, hw, hs⟩

theorem startsWith_of_run_eq_nil {p : Char → Bool} (h : c.run p = []) :
    startsWith p c.rest = false := by
  obtain ⟨hr, -, hs⟩ := (span_iff (p := p) (l := c.rest)).mp ⟨h, rfl⟩
  rwa [hr]

theorem startsWith_of_next? {p : Char → Bool} (h : ∀ ch, c.next? = some ch → p ch = false) :
    startsWith p c.rest = false := by
  cases hr : c.rest with
  | nil => rfl
  | cons ch rest => exact h ch (next?_eq_some_iff.mpr ⟨rest, hr⟩)

theorem blames_expect (ch : Char) : Blames before c (c.expect ch) := by
  unfold expect
  split
  · exact .ok _
  · rename_i hn
    refine .fault rfl ⟨rfl, startsWith_of_next? fun ch' h => ?_⟩
    refine beq_eq_false_iff_ne.mpr ?_
    rintro rfl
    exact hn h

theorem blames_readWord (k : NameClass) : Blames before c (c.readWord k) := by
  simp only [readWord]
  split
  · rename_i hnil
    exact .fault rfl ⟨rfl, startsWith_of_run_eq_nil hnil⟩
  · rename_i hne
    split
    · exact .ok _
    · rename_i hadmits
      refine .fault rfl ⟨?_, ?_⟩
      · rw [String.toList_ofList]
        exact firstWord_run hne
      · rwa [String.toList_ofList, ← k.admits_iff]

theorem not_mem_run (c : Cursor) (q : Char) : q ∉ c.run (· != q) := by
  intro hm
  obtain ⟨-, hw, -⟩ := (span_iff (p := (· != q)) (l := c.rest)).mp ⟨rfl, rfl⟩
  simpa using hw q hm

theorem blames_unclosed {α : Type} {opening q : Char}
    (hb : ∃ earlier, before = earlier ++ [opening])
    (hq : (opening, q) ∈ [('\x7b', '\x7d'), ('"', '"')])
    (hend : (c.skip (· != q)).rest = []) :
    Blames before c ((c.skip (· != q)).fault (.unexpectedEnd q) : Scanned α) := by
  obtain ⟨earlier, rfl⟩ := hb
  refine .of_passes (passes_skip _ _) (.fault rfl ⟨hend, earlier, opening, _, ?_, hq, c.not_mem_run q⟩)
  exact List.append_cons .. |>.symm

theorem blames_readReference (hb : ∃ earlier, before = earlier ++ ['\x7b']) :
    Blames before c c.readReference := by
  simp only [readReference]
  split
  · rename_i hend
    exact blames_unclosed hb (by simp) hend
  · rename_i hne
    split
    · exact .ok _
    · rename_i href
      obtain ⟨more, hmore⟩ := (c.skip_cases '\x7d').resolve_left hne
      refine .fault rfl ⟨hb, ⟨more, ?_⟩, ?_, ?_⟩
      · rw [String.toList_ofList]
        exact (run_iff.mp ⟨rfl, hmore⟩).1
      · rw [String.toList_ofList]
        exact c.not_mem_run _
      · rwa [String.toList_ofList, ← isReference_iff]

theorem blames_readQuoted (hb : ∃ earlier, before = earlier ++ ['"']) :
    Blames before c c.readQuoted := by
  simp only [readQuoted]
  split
  · rename_i hend
    exact blames_unclosed hb (by simp) hend
  · exact .ok _

theorem blames_readValue (name : String) : Blames before c (c.readValue name) := by
  unfold readValue
  split
  · rename_i hn
    obtain ⟨rest, hr⟩ := next?_eq_some hn
    exact (Blames.of_passes (passes_advance hr) (blames_readReference ⟨before, rfl⟩)).map _
  · rename_i href
    split
    · rename_i hn
      obtain ⟨rest, hr⟩ := next?_eq_some hn
      exact (Blames.of_passes (passes_advance hr) (blames_readQuoted ⟨before, rfl⟩)).map _
    · rename_i hquote
      refine .fault rfl ⟨rfl, startsWith_of_next? fun ch h => ?_⟩
      rw [Expectation.accepts, Bool.or_eq_false_iff, beq_eq_false_iff_ne, beq_eq_false_iff_ne]
      constructor <;> rintro rfl
      · exact href h
      · exact hquote h

theorem blames_readAssigned (name : String) :
    Blames before c (c.skipSpaces.advance.skipSpaces.readValue name) :=
  .of_reaches (((reaches_skipSpaces _).trans (reaches_advance _)).trans (reaches_skipSpaces _))
    fun _ => blames_readValue name

theorem blames_readAttr : Blames before c c.readAttr := by
  refine (blames_readWord .lowerCamel).bind ?_
  rintro ⟨name, d⟩ hd
  refine .of_passes (passes_readWord hd) ?_
  dsimp only
  split
  · exact blames_readAssigned name
  · exact .ok _

theorem blames_readProp (hb : ∃ earlier, before = earlier ++ ['$']) (kind : TagKind) :
    Blames before c (c.readProp kind) := by
  refine (blames_readWord .lowerCamel).bind ?_
  rintro ⟨name, d⟩ hd
  obtain ⟨hr, hspells, hs⟩ := readWord_iff.mp ⟨d, hd, rfl⟩
  dsimp only
  split
  · obtain ⟨ch, more, heq, -⟩ := hspells.exists_cons
    refine .fault rfl ⟨hb, ⟨?_, _, hr, hspells.accepts, hs⟩, hspells⟩
    rw [heq]
    exact List.cons_ne_nil _ _
  · refine .of_passes (passes_readWord hd) ?_
    split
    · exact blames_readAssigned name
    · rename_i hsign
      obtain ⟨earlier, rfl⟩ := hb
      obtain ⟨-, hblank, hstop⟩ := (span_iff (p := isSpace) (l := d.rest)).mp ⟨rfl, rfl⟩
      refine .of_passes (passes_skip isSpace d) (.fault rfl ⟨⟨earlier, _, ?_, hblank⟩, hspells,
        hstop, startsWith_of_next? fun ch h => ?_⟩)
      · simp [run]
      · refine decide_eq_false ?_
        rintro rfl
        exact hsign h

theorem blames_readTagName : Blames before c c.readTagName := by
  unfold readTagName
  split
  · split
    · exact (Blames.of_reaches (reaches_advance c) fun _ => blames_readWord .lowerCamel).map _
    · split
      · exact (blames_readWord .upperCamel).map _
      · exact (blames_readWord .kebab).map _
  · exact (blames_readWord .kebab).map _

end Cursor

namespace Scanner

open Cursor

variable {before : List Char} {s : Scanner} {ch : Char} {r : List Char}

theorem blames_closeBody (tag : OpenTag) : Blames before s.cursor (s.closeBody tag) := by
  refine Blames.bind (.of_reaches ((reaches_advance _).trans (reaches_skipSpaces _)) fun _ =>
    blames_expect '>') fun d _ => ?_
  exact .ok _

theorem blames_stepBody (hc : s.cursor.rest = ch :: r) (tag : OpenTag) :
    Blames before s.cursor (s.stepBody tag ch) := by
  unfold stepBody
  split
  · exact blames_closeBody tag
  split
  · exact .ok _
  split
  · rename_i hch
    subst hch
    exact (Blames.of_passes (passes_advance hc) (blames_readProp ⟨before, rfl⟩ _)).map _
  split
  · rename_i hch
    refine .fault rfl ⟨by rw [hc]; rfl, ?_⟩
    obtain rfl | rfl := hch <;> rfl
  · exact blames_readAttr.map _

theorem blames_closeTag {after : List Char} (hc : s.cursor.rest = '<' :: r)
    (hslash : s.cursor.advance.skipSpaces.rest = '/' :: after) :
    Blames before s.cursor (s.closeTag s.cursor.advance.skipSpaces.advance) := by
  have hreach : s.cursor.Reaches s.cursor.advance.skipSpaces.advance.skipSpaces :=
    (((reaches_advance _).trans (reaches_skipSpaces _)).trans (reaches_advance _)).trans
      (reaches_skipSpaces _)
  refine Blames.bind (.of_reaches hreach fun _ => blames_readTagName) ?_
  rintro ⟨⟨name, kind⟩, d⟩ hd
  have hname : s.cursor.Reaches d.skipSpaces :=
    hreach.trans ((advances_readTagName hd).reaches.trans (reaches_skipSpaces _))
  refine Blames.bind (.of_reaches hname fun _ => blames_expect '>') fun e he => ?_
  split
  · obtain ⟨w, hw, hr⟩ := exists_writtenClose hc hslash hd he
    exact .fault rfl ⟨kind, w, e.rest, hr, hw⟩
  · exact .ok _

theorem blames_openTag {c : Cursor} (hr : s.cursor.Reaches c) :
    Blames before s.cursor (s.openTag c) := by
  refine Blames.bind (.of_reaches hr fun _ => blames_readTagName) ?_
  rintro ⟨⟨name, kind⟩, d⟩ -
  exact .ok _

theorem blames_stepContent (hc : s.cursor.rest = ch :: r) :
    Blames before s.cursor (s.stepContent ch) := by
  unfold stepContent
  split
  · rename_i hch
    subst hch
    simp only [readTag]
    split
    · rename_i hslash
      obtain ⟨after, hafter⟩ := next?_eq_some hslash
      exact blames_closeTag hc hafter
    · exact blames_openTag ((reaches_advance _).trans (reaches_skipSpaces _))
  split
  · rename_i hch
    subst hch
    exact (Blames.of_passes (passes_advance hc) (blames_readReference ⟨before, rfl⟩)).map _
  split
  · rename_i hch
    refine .fault rfl ⟨by rw [hc]; rfl, ?_⟩
    obtain rfl | rfl := hch <;> rfl
  · exact .ok _

theorem blames_step (hc : s.cursor.rest = ch :: r) : Blames before s.cursor (s.step ch) := by
  unfold step
  split
  · exact blames_stepBody hc _
  · exact blames_stepContent hc

theorem shown_of_stop {fault : LexFault} (h : s.stop = .error fault) :
    fault.offset = s.cursor.offset ∧ fault.kind.Shown before [] := by
  unfold stop at h
  split at h
  · cases h
    exact ⟨rfl, rfl⟩
  · cases h
    exact ⟨rfl, rfl⟩
  · cases h

theorem shown_of_tokens {fault : LexFault} (before : List Char) (h : s.tokens = .error fault) :
    ∃ w after, s.cursor.rest = w ++ after ∧ fault.offset = s.cursor.offset + width w ∧
      fault.kind.Shown (before ++ w) after := by
  obtain ⟨ts, t, ht, hend⟩ := exists_reads_of_error h
  obtain ⟨w, hw, ho⟩ := ht.reaches
  obtain ⟨hr, hs⟩ | ⟨ch, r, hr, hs⟩ := hend
  · -- Behind the last token the text has ended, which is what the error shows.
    obtain ⟨hoffset, hshown⟩ := shown_of_stop hs
    exact ⟨w, [], hr ▸ hw, hoffset.trans ho, hshown⟩
  · have hblames : Blames (before ++ w) t.cursor (t.step ch) := blames_step hr
    obtain ⟨-, v, after, hv, hoffset, hshown⟩ := hblames fault hs
    refine ⟨w ++ v, after, by rw [hw, hv, List.append_assoc], ?_, by rwa [← List.append_assoc]⟩
    rw [hoffset, ho, width_append, Nat.add_assoc]

end Scanner

theorem readAttrToken_eq_error_iff {source : String} {e : LexError} :
    readAttrToken source = .error e ↔ ∃ fault, (Cursor.start source.toList).readAttr = .error fault ∧
      fault.locate source.toList = e := by
  unfold readAttrToken
  cases (Cursor.start source.toList).readAttr with
  | ok r => exact iff_of_false (fun h => by cases h) fun ⟨_, h, _⟩ => by cases h
  | error fault =>
    constructor
    · intro h
      cases h
      exact ⟨fault, rfl, rfl⟩
    · rintro ⟨_, h, rfl⟩
      cases h
      rfl

theorem exists_shown {source : String} {e : LexError}
    (h : tokenize source = .error e ∨ readAttrToken source = .error e) :
    ∃ fault : LexFault, fault.locate source.toList = e ∧ ∃ before after,
      source.toList = before ++ after ∧ fault.offset = width before ∧
        fault.kind.Shown before after := by
  obtain h | h := h
  · obtain ⟨fault, hf, rfl⟩ := tokenize_eq_error_iff.mp h
    obtain ⟨u, hu, ho⟩ := Cursor.reaches_skipSpaces (Cursor.start source.toList)
    obtain ⟨w, after, hw, hoffset, hshown⟩ := Scanner.shown_of_tokens u hf
    refine ⟨fault, rfl, u ++ w, after, ?_, ?_, hshown⟩
    · rw [List.append_assoc, ← hw]
      exact hu
    · rw [hoffset, Cursor.width_append, Scanner.start, ho]
      exact congrArg (· + width w) (Nat.zero_add _)
  · obtain ⟨fault, hf, rfl⟩ := readAttrToken_eq_error_iff.mp h
    have hblames : Blames [] (Cursor.start source.toList) _ := Cursor.blames_readAttr
    obtain ⟨-, w, after, hw, hoffset, hshown⟩ := hblames fault hf
    exact ⟨fault, rfl, w, after, hw, hoffset.trans (Nat.zero_add _), hshown⟩

/-- An error stands at a place of the source: its offset counts the bytes before the place, and its
line and column are those at which the text before the place ends, which no other place of the
source has. What stands before and behind the place shows what the error says. -/
theorem error_at_evidence (source : String) (e : LexError)
    (h : tokenize source = .error e ∨ readAttrToken source = .error e) :
    ∃ before after : String, source = before ++ after ∧ e.offset = before.utf8ByteSize ∧
      EndsAt before.toList e.line e.column ∧
      (∀ before' after' : String, source = before' ++ after' →
        EndsAt before'.toList e.line e.column → before' = before) ∧
      e.kind.Shown before.toList after.toList := by
  obtain ⟨fault, rfl, before, after, hsource, hoffset, hshown⟩ := exists_shown h
  have hends : EndsAt before (lineAfter before) (columnAfter before) := endsAt_iff.mpr ⟨rfl, rfl⟩
  rw [hsource, LexFault.locate_append hoffset]
  refine ⟨String.ofList before, String.ofList after, ?_, ?_, ?_, ?_, ?_⟩
  · rw [← String.ofList_append, ← hsource, String.ofList_toList]
  · rw [← width_toList, String.toList_ofList]
  · rwa [String.toList_ofList]
  · intro before' after' heq hends'
    have hsplit : before'.toList ++ after'.toList = before ++ after := by
      rw [← hsource, heq, String.toList_append]
    rw [← eq_of_endsAt hsplit hends' hends, String.ofList_toList]
  · rwa [String.toList_ofList, String.toList_ofList]

theorem error_at_evidence_unopened :
    tokenize "<p>\u00e9</p>\n</ul >" = .error ⟨.unopenedClose "ul", 10, 2, 1⟩ ∧
    ∃ before after : String, "<p>\u00e9</p>\n</ul >" = before ++ after ∧ 10 = before.utf8ByteSize ∧
      EndsAt before.toList 2 1 ∧
      (∀ before' after' : String, "<p>\u00e9</p>\n</ul >" = before' ++ after' →
        EndsAt before'.toList 2 1 → before' = before) ∧
      (LexErrorKind.unopenedClose "ul").Shown before.toList after.toList := by
  have h : tokenize "<p>\u00e9</p>\n</ul >" = .error ⟨.unopenedClose "ul", 10, 2, 1⟩ := by
    decide +kernel
  exact ⟨h, error_at_evidence _ ⟨.unopenedClose "ul", 10, 2, 1⟩ (.inl h)⟩

end ReactiveView
