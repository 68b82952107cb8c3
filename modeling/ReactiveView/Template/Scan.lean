import ReactiveView.Template.Cursor
import ReactiveView.Template.Token

namespace ReactiveView

abbrev Scanned (α : Type) := Except LexFault α

def Cursor.fault {α : Type} (c : Cursor) (kind : LexErrorKind) : Scanned α :=
  .error ⟨kind, c.offset⟩

namespace Cursor

def expect (ch : Char) (c : Cursor) : Scanned Cursor :=
  if c.next? = some ch then .ok c.advance else c.fault (.expected (.char ch) c.next?)

def readWord (nameClass : NameClass) (c : Cursor) : Scanned (String × Cursor) :=
  let word := c.run nameClass.accepts
  if word = [] then c.fault (.expected (.name nameClass) c.next?)
  else if nameClass.admits word then .ok (String.ofList word, c.skip nameClass.accepts)
  else c.fault (.invalidName nameClass (String.ofList word))

def readReference (c : Cursor) : Scanned (String × Cursor) :=
  let text := c.run (· != '\x7d')
  let stop := c.skip (· != '\x7d')
  if stop.rest = [] then stop.fault (.unexpectedEnd '\x7d')
  else if isReference text then .ok (String.ofList text, stop.advance.skipSpaces)
  else c.fault (.invalidReference (String.ofList text))

def readQuoted (c : Cursor) : Scanned (String × Cursor) :=
  let stop := c.skip (· != '"')
  if stop.rest = [] then stop.fault (.unexpectedEnd '"')
  else .ok (String.ofList (c.run (· != '"')), stop.advance.skipSpaces)

def readValue (name : String) (c : Cursor) : Scanned (AttrToken × Cursor) :=
  if c.next? = some '\x7b' then
    c.advance.readReference.map fun r => (⟨name, .serial, some r.1⟩, r.2)
  else if c.next? = some '"' then
    c.advance.readQuoted.map fun r => (⟨name, .string, some r.1⟩, r.2)
  else c.fault (.expected .value c.next?)

def readAttr (c : Cursor) : Scanned (AttrToken × Cursor) := do
  let (name, c) ← c.readWord .lowerCamel
  let c := c.skipSpaces
  if c.next? = some '=' then c.advance.skipSpaces.readValue name
  else .ok (⟨name, .empty, none⟩, c)

/-- A prop behind its dollar sign, in the body of a tag of some kind: a name with a value, and
only for a component. -/
def readProp (kind : TagKind) (start : Cursor) : Scanned (AttrToken × Cursor) := do
  let (name, c) ← start.readWord .lowerCamel
  if kind ≠ .custom then start.fault (.propOutsideCustomTag name)
  else
    let c := c.skipSpaces
    if c.next? = some '=' then c.advance.skipSpaces.readValue name
    else c.fault (.emptyProp name)

def readTagName (c : Cursor) : Scanned ((String × TagKind) × Cursor) :=
  match c.next? with
  | some ch =>
    if ch = '$' then (c.advance.readWord .lowerCamel).map fun r => ((r.1, .command), r.2)
    else if ch.isUpper then (c.readWord .upperCamel).map fun r => ((r.1, .custom), r.2)
    else (c.readWord .kebab).map fun r => ((r.1, .regular), r.2)
  | none => (c.readWord .kebab).map fun r => ((r.1, .regular), r.2)

end Cursor

structure OpenTag where
  name : String
  kind : TagKind
  deriving DecidableEq, Repr

/-- The scanner: its place, the tag whose body is open, and the tags whose children are open, the
innermost first, which the next closing tag closes whatever its name. White space is skipped after
every token but text. -/
structure Scanner where
  cursor : Cursor
  body : Option OpenTag
  children : List OpenTag
  deriving DecidableEq, Repr

namespace Scanner

def start (source : List Char) : Scanner := ⟨(Cursor.start source).skipSpaces, none, []⟩

def closeBody (s : Scanner) (tag : OpenTag) : Scanned (Option Token × Scanner) := do
  let c ← s.cursor.advance.skipSpaces.expect '>'
  .ok (some (.tag ⟨tag.name, tag.kind, some .finish, none, s.cursor.offset⟩),
    ⟨c.skipSpaces, none, s.children⟩)

def openChildren (s : Scanner) (tag : OpenTag) : Scanned (Option Token × Scanner) :=
  .ok (some (.tag ⟨tag.name, tag.kind, some .finish, some .start, s.cursor.offset⟩),
    ⟨s.cursor.advance.skipSpaces, none, tag :: s.children⟩)

def stepBody (s : Scanner) (tag : OpenTag) (ch : Char) : Scanned (Option Token × Scanner) :=
  if ch = '/' then s.closeBody tag
  else if ch = '>' then s.openChildren tag
  else if ch = '$' then
    (s.cursor.advance.readProp tag.kind).map fun r => (some (.prop r.1), { s with cursor := r.2 })
  else if ch = '<' ∨ ch = '\x7b' then s.cursor.fault (.unexpected ch)
  else s.cursor.readAttr.map fun r => (some (.attr r.1), { s with cursor := r.2 })

def closeTag (s : Scanner) (c : Cursor) : Scanned (Option Token × Scanner) := do
  let ((name, kind), c) ← c.skipSpaces.readTagName
  let c ← c.skipSpaces.expect '>'
  match s.children with
  | [] => s.cursor.fault (.unopenedClose name)
  | _ :: children =>
    .ok (some (.tag ⟨name, kind, none, some .finish, s.cursor.offset⟩),
      ⟨c.skipSpaces, none, children⟩)

def openTag (s : Scanner) (c : Cursor) : Scanned (Option Token × Scanner) := do
  let ((name, kind), c) ← c.readTagName
  .ok (some (.tag ⟨name, kind, some .start, none, s.cursor.offset⟩),
    ⟨c.skipSpaces, some ⟨name, kind⟩, s.children⟩)

def readTag (s : Scanner) : Scanned (Option Token × Scanner) :=
  let c := s.cursor.advance.skipSpaces
  if c.next? = some '/' then s.closeTag c.advance else s.openTag c

/-- The characters of text: all but angle brackets and braces. -/
def isText (ch : Char) : Bool := ch != '<' && ch != '>' && ch != '\x7b' && ch != '\x7d'

/-- Text up to the next tag or reference; text of white space is no token. -/
def readText (s : Scanner) : Option Token × Scanner :=
  let text := trim (s.cursor.run isText)
  (if text = [] then none else some (.text (String.ofList text)),
    { s with cursor := s.cursor.skip isText })

def stepContent (s : Scanner) (ch : Char) : Scanned (Option Token × Scanner) :=
  if ch = '<' then s.readTag
  else if ch = '\x7b' then
    s.cursor.advance.readReference.map fun r => (some (.serial r.1), { s with cursor := r.2 })
  else if ch = '>' ∨ ch = '\x7d' then s.cursor.fault (.unexpected ch)
  else .ok s.readText

def step (s : Scanner) (ch : Char) : Scanned (Option Token × Scanner) :=
  match s.body with
  | some tag => s.stepBody tag ch
  | none => s.stepContent ch

def stop (s : Scanner) : Scanned (List Token) :=
  match s.body, s.children with
  | some tag, _ => s.cursor.fault (.unclosedBody tag.name)
  | none, tag :: _ => s.cursor.fault (.unclosedChildren tag.name)
  | none, [] => .ok []

end Scanner

namespace Cursor

theorem next?_eq_some {c : Cursor} {ch : Char} (h : c.next? = some ch) :
    ∃ rest, c.rest = ch :: rest := by
  cases hr : c.rest with
  | nil => simp [next?, hr] at h
  | cons a rest => simp only [next?, hr, List.head?_cons, Option.some.injEq] at h; exact ⟨rest, by rw [h]⟩

theorem advances_of_next? {c : Cursor} {ch : Char} (h : c.next? = some ch) :
    c.Advances c.advance := by
  obtain ⟨rest, hr⟩ := next?_eq_some h
  exact advances_advance hr

theorem advances_expect {c d : Cursor} {ch : Char} (h : c.expect ch = .ok d) : c.Advances d := by
  unfold expect at h
  split at h
  · rename_i hn
    cases h
    exact advances_of_next? hn
  · simp [fault] at h

theorem advances_readWord {c d : Cursor} {k : NameClass} {w : String}
    (h : c.readWord k = .ok (w, d)) : c.Advances d := by
  simp only [readWord, fault] at h
  split at h
  · simp at h
  · rename_i hne
    split at h
    · cases h
      exact advances_skip hne
    · simp at h

theorem reaches_readReference {c d : Cursor} {w : String} (h : c.readReference = .ok (w, d)) :
    c.Reaches d := by
  simp only [readReference, fault] at h
  split at h
  · simp at h
  · split at h
    · cases h
      exact ((reaches_skip _ c).trans (reaches_advance _)).trans (reaches_skipSpaces _)
    · simp at h

theorem reaches_readQuoted {c d : Cursor} {w : String} (h : c.readQuoted = .ok (w, d)) :
    c.Reaches d := by
  simp only [readQuoted, fault] at h
  split at h
  · simp at h
  · cases h
    exact ((reaches_skip _ c).trans (reaches_advance _)).trans (reaches_skipSpaces _)

theorem map_eq_ok {α β : Type} {f : α → β} {x : Scanned α} {b : β} (h : x.map f = .ok b) :
    ∃ a, x = .ok a ∧ f a = b := by
  cases x with
  | error e => simp [Except.map] at h
  | ok a => exact ⟨a, rfl, by simpa [Except.map] using h⟩

theorem bind_eq_ok {α β : Type} {f : α → Scanned β} {x : Scanned α} {b : β}
    (h : (x >>= f) = .ok b) : ∃ a, x = .ok a ∧ f a = .ok b := by
  cases x with
  | error e => cases h
  | ok a => exact ⟨a, rfl, h⟩

theorem reaches_readValue {c d : Cursor} {name : String} {a : AttrToken}
    (h : c.readValue name = .ok (a, d)) : c.Reaches d := by
  simp only [readValue] at h
  split at h
  · obtain ⟨r, hr, heq⟩ := map_eq_ok h
    cases heq
    exact (reaches_advance c).trans (reaches_readReference hr)
  · split at h
    · obtain ⟨r, hr, heq⟩ := map_eq_ok h
      cases heq
      exact (reaches_advance c).trans (reaches_readQuoted hr)
    · simp [fault] at h

theorem advances_readAttr {c d : Cursor} {a : AttrToken} (h : c.readAttr = .ok (a, d)) :
    c.Advances d := by
  obtain ⟨⟨name, e⟩, hw, h⟩ := bind_eq_ok h
  refine (advances_readWord hw).trans_reaches ((reaches_skipSpaces e).trans ?_)
  dsimp only at h
  split at h
  · exact ((reaches_advance _).trans (reaches_skipSpaces _)).trans (reaches_readValue h)
  · cases h
    exact Reaches.refl _

theorem advances_readProp {c d : Cursor} {k : TagKind} {a : AttrToken}
    (h : c.readProp k = .ok (a, d)) : c.Advances d := by
  obtain ⟨⟨name, e⟩, hw, h⟩ := bind_eq_ok h
  refine (advances_readWord hw).trans_reaches ((reaches_skipSpaces e).trans ?_)
  dsimp only [fault] at h
  split at h
  · simp at h
  · split at h
    · exact ((reaches_advance _).trans (reaches_skipSpaces _)).trans (reaches_readValue h)
    · simp at h

theorem advances_readTagName {c d : Cursor} {n : String × TagKind}
    (h : c.readTagName = .ok (n, d)) : c.Advances d := by
  unfold readTagName at h
  split at h
  · split at h
    · obtain ⟨r, hr, heq⟩ := map_eq_ok h
      cases heq
      exact (reaches_advance c).trans_advances (advances_readWord hr)
    · split at h <;>
      · obtain ⟨r, hr, heq⟩ := map_eq_ok h
        cases heq
        exact advances_readWord hr
  · obtain ⟨r, hr, heq⟩ := map_eq_ok h
    cases heq
    exact advances_readWord hr

end Cursor

namespace Scanner

open Cursor

theorem advances_closeBody {s t : Scanner} {tag : OpenTag} {o : Option Token}
    (h : s.closeBody tag = .ok (o, t)) : s.cursor.Advances t.cursor := by
  obtain ⟨c, hc, h⟩ := bind_eq_ok h
  cases h
  exact (((reaches_advance _).trans (reaches_skipSpaces _)).trans_advances
    (advances_expect hc)).trans_reaches (reaches_skipSpaces _)

theorem advances_closeTag {s t : Scanner} {c : Cursor} {o : Option Token}
    (h : s.closeTag c = .ok (o, t)) : c.Advances t.cursor := by
  obtain ⟨⟨⟨name, kind⟩, d⟩, hn, h⟩ := bind_eq_ok h
  obtain ⟨e, he, h⟩ := bind_eq_ok h
  have ha : c.Advances e := ((reaches_skipSpaces c).trans_advances
    (advances_readTagName hn)).trans_reaches
      ((reaches_skipSpaces _).trans (advances_expect he).reaches)
  split at h
  · simp [fault] at h
  · cases h
    exact ha.trans_reaches (reaches_skipSpaces _)

theorem advances_openTag {s t : Scanner} {c : Cursor} {o : Option Token}
    (h : s.openTag c = .ok (o, t)) : c.Advances t.cursor := by
  obtain ⟨⟨⟨name, kind⟩, d⟩, hn, h⟩ := bind_eq_ok h
  cases h
  exact (advances_readTagName hn).trans_reaches (reaches_skipSpaces _)

theorem advances_readTag {s t : Scanner} {o : Option Token} (h : s.readTag = .ok (o, t)) :
    s.cursor.Advances t.cursor := by
  have hr : s.cursor.Reaches s.cursor.advance.skipSpaces :=
    (reaches_advance _).trans (reaches_skipSpaces _)
  simp only [readTag] at h
  split at h
  · exact (hr.trans (reaches_advance _)).trans_advances (advances_closeTag h)
  · exact hr.trans_advances (advances_openTag h)

theorem advances_stepBody {s t : Scanner} {tag : OpenTag} {ch : Char} {rest : List Char}
    {o : Option Token} (hc : s.cursor.rest = ch :: rest) (h : s.stepBody tag ch = .ok (o, t)) :
    s.cursor.Advances t.cursor := by
  have ha := advances_advance hc
  unfold stepBody at h
  split at h
  · exact advances_closeBody h
  · split at h
    · cases h
      exact ha.trans_reaches (reaches_skipSpaces _)
    · split at h
      · obtain ⟨r, hr, heq⟩ := map_eq_ok h
        cases heq
        exact ha.trans_reaches (advances_readProp hr).reaches
      · split at h
        · simp [fault] at h
        · obtain ⟨r, hr, heq⟩ := map_eq_ok h
          cases heq
          exact advances_readAttr hr

theorem advances_stepContent {s t : Scanner} {ch : Char} {rest : List Char} {o : Option Token}
    (hc : s.cursor.rest = ch :: rest) (h : s.stepContent ch = .ok (o, t)) :
    s.cursor.Advances t.cursor := by
  unfold stepContent at h
  split at h
  · exact advances_readTag h
  · split at h
    · obtain ⟨r, hr, heq⟩ := map_eq_ok h
      cases heq
      exact (advances_advance hc).trans_reaches (reaches_readReference hr)
    · split at h
      · simp [fault] at h
      · rename_i h1 h2 h3
        cases h
        refine advances_skip ?_
        have ht : isText ch = true := by
          simp only [not_or] at h3
          simp [isText, h1, h2, h3.1, h3.2]
        simp [run, hc, ht]

theorem advances_step {s t : Scanner} {ch : Char} {rest : List Char} {o : Option Token}
    (hc : s.cursor.rest = ch :: rest) (h : s.step ch = .ok (o, t)) :
    s.cursor.Advances t.cursor := by
  unfold step at h
  split at h
  · exact advances_stepBody hc h
  · exact advances_stepContent hc h

def tokens (s : Scanner) : Scanned (List Token) :=
  match _hc : s.cursor.rest with
  | [] => s.stop
  | ch :: _ =>
    match _h : s.step ch with
    | .error fault => .error fault
    | .ok (token, t) => t.tokens.map (token.toList ++ ·)
termination_by s.cursor.rest.length
decreasing_by exact _hc ▸ (advances_step _hc _h).length_lt

end Scanner

def tokenize (source : String) : Except LexError (List Token) :=
  (Scanner.start source.toList).tokens.mapError (·.locate source.toList)

def readAttrToken (source : String) : Except LexError AttrToken :=
  ((Cursor.start source.toList).readAttr.map (·.1)).mapError (·.locate source.toList)

end ReactiveView
