import ReactiveView.Proofs.Template.Joining

namespace ReactiveView

/-- The character with which a step of a tag starts, if it is one of the steps in which a tag is
written. -/
def TagToken.sign? (tag : TagToken) : Option Char :=
  match tag.body, tag.children with
  | some .start, none => some '<'
  | some .finish, none => some '/'
  | some .finish, some .start => some '>'
  | none, some .finish => some '<'
  | _, _ => none

def Token.tag? : Token → Option TagToken
  | .tag t => some t
  | _ => none

def tagsOf (ts : List Token) : List TagToken := ts.filterMap Token.tag?

/-- A source has, at the offset of a tag, the character with which this step of the tag starts. -/
def TagToken.StandsIn (tag : TagToken) (source : String) : Prop :=
  ∃ (before : String) (sign : Char) (after : String),
    source = before ++ String.singleton sign ++ after ∧ tag.offset = before.utf8ByteSize ∧
      tag.sign? = some sign

namespace Cursor

variable {c d : Cursor}

theorem width_pos {w : List Char} (h : w ≠ []) : 0 < width w := by
  obtain ⟨ch, w, rfl⟩ := List.exists_cons_of_ne_nil h
  exact Nat.add_pos_left ch.utf8Size_pos _

theorem Advances.offset_lt (h : c.Advances d) : c.offset < d.offset := by
  obtain ⟨w, hw, -, ho⟩ := h
  have hpos := width_pos hw
  omega

def Starts (c : Cursor) (tag : TagToken) : Prop :=
  tag.offset = c.offset ∧ ∃ sign more, c.rest = sign :: more ∧ tag.sign? = some sign

theorem Starts.standsIn {source : String} {tag : TagToken} (h : c.Starts tag)
    (hc : (Cursor.start source.toList).Reaches c) : tag.StandsIn source := by
  obtain ⟨htag, sign, more, hr, hsign⟩ := h
  obtain ⟨w, hw, ho⟩ := hc
  refine ⟨String.ofList w, sign, String.ofList more, ?_, ?_, hsign⟩
  · rw [← String.toList_inj, String.toList_append, String.toList_append, String.toList_ofList,
      String.toList_ofList, String.toList_singleton, List.append_assoc, List.singleton_append, ← hr]
    exact hw
  · rw [htag, ho, ← width_toList, String.toList_ofList]
    exact Nat.zero_add _

end Cursor

namespace Scanner

open Cursor

/-- A turn of the scanner: the place where it begins and the token that it yields, if any. -/
structure Turn where
  place : Cursor
  token : Option Token

inductive Turns : Scanner → List Turn → Scanner → Prop
  | nil (s : Scanner) : Turns s [] s
  | cons {s t u : Scanner} {o : Option Token} {turns : List Turn} {ch : Char} {r : List Char}
      (hc : s.cursor.rest = ch :: r) (h : s.step ch = .ok (o, t)) (more : Turns t turns u) :
      Turns s (⟨s.cursor, o⟩ :: turns) u

/-- The scanner takes no further turn: the text has ended, or the next step fails. -/
def Halted (s : Scanner) : Prop :=
  s.cursor.rest = [] ∨ ∃ ch r fault, s.cursor.rest = ch :: r ∧ s.step ch = .error fault

variable {s t : Scanner} {o : Option Token} {ts : List Token} {turns : List Turn}
  {rest : List Char} {body : Option OpenTag} {children : List OpenTag}

def Turn.tag? (turn : Turn) : Option TagToken := turn.token.bind Token.tag?

theorem tagsOf_turns (turns : List Turn) :
    tagsOf (turns.filterMap Turn.token) = turns.filterMap Turn.tag? := by
  rw [tagsOf, List.filterMap_filterMap]
  rfl

theorem filterMap_token_cons (c : Cursor) (o : Option Token) (turns : List Turn) :
    (Turn.mk c o :: turns).filterMap Turn.token = o.toList ++ turns.filterMap Turn.token := by
  cases o with
  | none => rfl
  | some token => rfl

theorem Turns.reads (h : Turns s turns t) : Reads s (turns.filterMap Turn.token) t := by
  induction h with
  | nil s => exact .refl s
  | cons hc h _ ih =>
    rw [filterMap_token_cons]
    exact .step hc h ih

theorem Reads.exists_turns (h : Reads s ts t) :
    ∃ turns, Turns s turns t ∧ turns.filterMap Turn.token = ts := by
  induction h with
  | refl s => exact ⟨[], .nil s, rfl⟩
  | @step s t u o ts ch r hc h _ ih =>
    obtain ⟨turns, hturns, rfl⟩ := ih
    exact ⟨⟨s.cursor, o⟩ :: turns, .cons hc h hturns, filterMap_token_cons _ _ _⟩

theorem exists_turns_halted (s : Scanner) : ∃ turns t, Turns s turns t ∧ t.Halted := by
  -- The induction is on the characters that follow, of which each turn takes one at least.
  match hc : s.cursor.rest with
  | [] => exact ⟨[], s, .nil s, .inl hc⟩
  | ch :: r =>
    cases hs : s.step ch with
    | error fault => exact ⟨[], s, .nil s, .inr ⟨ch, r, fault, hc, hs⟩⟩
    | ok result =>
      obtain ⟨o, t⟩ := result
      have hlt := (advances_step hc hs).length_lt
      obtain ⟨turns, u, hturns, hu⟩ := exists_turns_halted t
      exact ⟨⟨s.cursor, o⟩ :: turns, u, .cons hc hs hturns, hu⟩
termination_by s.cursor.rest.length

theorem Turns.length_add_le (h : Turns s turns t) :
    turns.length + t.cursor.rest.length ≤ s.cursor.rest.length := by
  induction h with
  | nil s => exact Nat.le_of_eq (Nat.zero_add _)
  | cons hc h _ ih =>
    have hlt := (advances_step hc h).length_lt
    rw [List.length_cons]
    omega

theorem Turns.reaches (h : Turns s turns t) : ∀ turn ∈ turns, s.cursor.Reaches turn.place := by
  induction h with
  | nil s => exact fun _ hm => nomatch hm
  | cons hc h _ ih =>
    refine List.forall_mem_cons.mpr ⟨Reaches.refl _, fun turn hm => ?_⟩
    exact (advances_step hc h).reaches.trans (ih turn hm)

theorem Turns.pairwise_advances (h : Turns s turns t) :
    turns.Pairwise fun earlier later => earlier.place.Advances later.place := by
  induction h with
  | nil s => exact .nil
  | cons hc h hmore ih =>
    refine .cons (fun turn hm => ?_) ih
    exact (advances_step hc h).trans_reaches (hmore.reaches turn hm)

theorem Moves.starts (h : Moves s o rest body children) :
    ∀ tag ∈ o.bind Token.tag?, s.cursor.Starts tag := by
  cases h with
  | closeBody hb hu hr =>
    rintro _ ⟨⟩
    exact ⟨rfl, '/', _, hr, rfl⟩
  | openChildren hb hr =>
    rintro _ ⟨⟩
    exact ⟨rfl, '>', _, hr, rfl⟩
  | closeTag hb hc hw hr =>
    rintro _ ⟨⟩
    cases hw with
    | mk hu hv hx hn => exact ⟨rfl, '<', _, by simpa using hr, rfl⟩
  | openTag hb hu hn hr ha =>
    rintro _ ⟨⟩
    exact ⟨rfl, '<', _, hr, rfl⟩
  | prop hb hk hn hne hv hr => rintro _ ⟨⟩
  | attr hb hn hv hr he => rintro _ ⟨⟩
  | serial hb hn hr => rintro _ ⟨⟩
  | text hb hne hw hm hr => split <;> rintro _ ⟨⟩

theorem Turns.starts (h : Turns s turns t) :
    ∀ turn ∈ turns, ∀ tag ∈ turn.tag?, turn.place.Starts tag := by
  induction h with
  | nil s => exact fun _ hm => nomatch hm
  | cons hc h _ ih => exact List.forall_mem_cons.mpr ⟨(moves_of_step hc h).starts, ih⟩

theorem Turns.pairwise_tags (h : Turns s turns t) :
    (turns.filterMap Turn.tag?).Pairwise (·.offset < ·.offset) := by
  rw [List.pairwise_filterMap]
  refine h.pairwise_advances.imp_of_mem fun {x y} hx hy hlt tag htag tag' htag' => ?_
  rw [(h.starts x hx tag htag).1, (h.starts y hy tag' htag').1]
  exact hlt.offset_lt

end Scanner

open Scanner

section Source

variable {source : String} {s : Scanner} {turns : List Turn} {tokens : List Token}

theorem length_add_le_of_turns (h : Turns (start source.toList) turns s) :
    turns.length + s.cursor.rest.length ≤ source.length := by
  obtain ⟨w, hw, -⟩ := Cursor.reaches_skipSpaces (Cursor.start source.toList)
  have hsource : source.length = w.length + (start source.toList).cursor.rest.length := by
    rw [← String.length_toList, ← List.length_append]
    exact congrArg List.length hw
  have hturns := h.length_add_le
  omega

theorem tokenize_of_turns_of_fault {ch : Char} {r : List Char} {fault : LexFault}
    (h : Turns (start source.toList) turns s) (hc : s.cursor.rest = ch :: r)
    (hs : s.step ch = .error fault) : tokenize source = .error (fault.locate source.toList) := by
  refine tokenize_eq_error_iff.mpr ⟨fault, ?_, rfl⟩
  rw [h.reads.tokens, tokens_of_fault hc hs]
  rfl

theorem exists_turns_of_tokenize (h : tokenize source = .ok tokens) :
    ∃ turns s, Turns (start source.toList) turns s ∧ s.cursor.rest = [] ∧
      turns.filterMap Turn.token = tokens := by
  obtain ⟨s, hs, hr, -⟩ := exists_reads_of_ok (tokenize_eq_ok_iff.mp h)
  obtain ⟨turns, hturns, htokens⟩ := hs.exists_turns
  exact ⟨turns, s, hturns, hr, htokens⟩

theorem standsIn_of_turns (h : Turns (start source.toList) turns s) {tag : TagToken}
    (htag : tag ∈ turns.filterMap Turn.tag?) : tag.StandsIn source := by
  obtain ⟨turn, hturn, hyields⟩ := List.mem_filterMap.mp htag
  exact (h.starts turn hturn tag hyields).standsIn
    ((Cursor.reaches_skipSpaces _).trans (h.reaches turn hturn))

end Source

/-- Scanning a source always advances. Wherever it has come, the turns so far and the characters
that follow are no more than the characters of the source; unless the text has ended, the next turn
is an error of the source or takes at least one character, and so the scanner comes to a halt. If
the source has tokens, they are what the turns up to its end have yielded, and no more than it has
characters; the offsets of the tags among them increase, and at each of them the source has the
character with which this step of the tag starts. -/
theorem scanning_advances (source : String) :
    (∀ turns s, Turns (start source.toList) turns s →
      turns.length + s.cursor.rest.length ≤ source.length ∧
      ∀ ch r, s.cursor.rest = ch :: r →
        (∃ fault, s.step ch = .error fault ∧
          tokenize source = .error (fault.locate source.toList)) ∨
        ∃ o t, s.step ch = .ok (o, t) ∧ s.cursor.Advances t.cursor) ∧
    (∃ turns s, Turns (start source.toList) turns s ∧ s.Halted) ∧
    ∀ tokens, tokenize source = .ok tokens →
      (∃ turns s, Turns (start source.toList) turns s ∧ s.cursor.rest = [] ∧
        turns.filterMap Turn.token = tokens) ∧
      tokens.length ≤ source.length ∧
      (tagsOf tokens).Pairwise (·.offset < ·.offset) ∧
      ∀ tag ∈ tagsOf tokens, tag.StandsIn source := by
  refine ⟨fun turns s h => ⟨length_add_le_of_turns h, fun ch r hc => ?_⟩,
    exists_turns_halted _, fun tokens h => ?_⟩
  · cases hs : s.step ch with
    | error fault => exact .inl ⟨fault, rfl, tokenize_of_turns_of_fault h hc hs⟩
    | ok result =>
      obtain ⟨o, t⟩ := result
      exact .inr ⟨o, t, rfl, advances_step hc hs⟩
  · obtain ⟨turns, s, hturns, hr, rfl⟩ := exists_turns_of_tokenize h
    refine ⟨⟨turns, s, hturns, hr, rfl⟩, ?_, ?_, ?_⟩
    · have hlength := length_add_le_of_turns hturns
      have hyields := List.length_filterMap_le Turn.token turns
      omega
    · rw [tagsOf_turns]
      exact hturns.pairwise_tags
    · rw [tagsOf_turns]
      exact fun tag => standsIn_of_turns hturns

def paragraphSource : String := " <p>\u00e9 <br />\n</p>"

def paragraphTokens : List Token := [
  .tag ⟨"p", .regular, some .start, none, 1⟩,
  .tag ⟨"p", .regular, some .finish, some .start, 3⟩,
  .text "\u00e9",
  .tag ⟨"br", .regular, some .start, none, 7⟩,
  .tag ⟨"br", .regular, some .finish, none, 11⟩,
  .tag ⟨"p", .regular, none, some .finish, 14⟩]

theorem scanning_advances_paragraph :
    tokenize paragraphSource = .ok paragraphTokens ∧
    paragraphTokens.length ≤ paragraphSource.length ∧
    (tagsOf paragraphTokens).Pairwise (·.offset < ·.offset) ∧
    ∀ tag ∈ tagsOf paragraphTokens, tag.StandsIn paragraphSource := by
  have h : tokenize paragraphSource = .ok paragraphTokens := by decide +kernel
  obtain ⟨-, -, htokens⟩ := scanning_advances paragraphSource
  exact ⟨h, (htokens _ h).2⟩

end ReactiveView
