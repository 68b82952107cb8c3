import Mathlib.Tactic.SplitIfs
import ReactiveView.Proofs.Template.Compiling

namespace ReactiveView

def LexFault.shift (n : Nat) (fault : LexFault) : LexFault := { fault with offset := n + fault.offset }

/-- A token of a source that has a text of some bytes put before it: only tags tell where they
stand. -/
def Token.shift (n : Nat) : Token → Token
  | tag t => tag { t with offset := n + t.offset }
  | token => token

def Cursor.shift (n : Nat) (c : Cursor) : Cursor := { c with offset := n + c.offset }

def Scanner.shift (n : Nat) (s : Scanner) : Scanner := { s with cursor := s.cursor.shift n }

def Scanned.shift {α : Type} (f : α → α) (n : Nat) : Scanned α → Scanned α
  | .ok a => .ok (f a)
  | .error fault => .error (fault.shift n)

namespace Scanned

variable {α β : Type} {f : α → α} {g : β → β} {n : Nat}

theorem shift_bind {x : Scanned α} {next next' : α → Scanned β}
    (h : ∀ a, next' (f a) = shift g n (next a)) : shift f n x >>= next' = shift g n (x >>= next) := by
  cases x with
  | error fault => rfl
  | ok a => exact h a

theorem shift_map {x : Scanned α} {m m' : α → β} (h : ∀ a, m' (f a) = g (m a)) :
    (shift f n x).map m' = shift g n (x.map m) := by
  cases x with
  | error fault => rfl
  | ok a => exact congrArg Except.ok (h a)

end Scanned

namespace Cursor

variable {α : Type} {f : α → α}

@[simp] theorem rest_shift (n : Nat) (c : Cursor) : (c.shift n).rest = c.rest := rfl

@[simp] theorem next?_shift (n : Nat) (c : Cursor) : (c.shift n).next? = c.next? := rfl

@[simp] theorem run_shift (p : Char → Bool) (n : Nat) (c : Cursor) : (c.shift n).run p = c.run p :=
  rfl

@[simp] theorem skip_shift (p : Char → Bool) (n : Nat) (c : Cursor) :
    (c.shift n).skip p = (c.skip p).shift n :=
  congrArg (Cursor.mk _) (Nat.add_assoc _ _ _)

@[simp] theorem skipSpaces_shift (n : Nat) (c : Cursor) :
    (c.shift n).skipSpaces = c.skipSpaces.shift n :=
  skip_shift isSpace n c

@[simp] theorem advance_shift (n : Nat) (c : Cursor) : (c.shift n).advance = c.advance.shift n := by
  obtain ⟨rest, offset⟩ := c
  cases rest with
  | nil => rfl
  | cons ch rest => exact congrArg (Cursor.mk _) (Nat.add_assoc _ _ _)

def shiftPair (n : Nat) (r : α × Cursor) : α × Cursor := (r.1, r.2.shift n)

variable (n : Nat) (c : Cursor)

theorem expect_shift (ch : Char) :
    (c.shift n).expect ch = Scanned.shift (Cursor.shift n) n (c.expect ch) := by
  simp only [expect, next?_shift, advance_shift]
  split_ifs <;> rfl

theorem readWord_shift (k : NameClass) :
    (c.shift n).readWord k = Scanned.shift (shiftPair n) n (c.readWord k) := by
  simp only [readWord, run_shift, skip_shift]
  split_ifs <;> rfl

theorem readReference_shift :
    (c.shift n).readReference = Scanned.shift (shiftPair n) n c.readReference := by
  simp only [readReference, run_shift, skip_shift, rest_shift, advance_shift, skipSpaces_shift]
  split_ifs <;> rfl

theorem readQuoted_shift : (c.shift n).readQuoted = Scanned.shift (shiftPair n) n c.readQuoted := by
  simp only [readQuoted, run_shift, skip_shift, rest_shift, advance_shift, skipSpaces_shift]
  split_ifs <;> rfl

theorem readValue_shift (name : String) :
    (c.shift n).readValue name = Scanned.shift (shiftPair n) n (c.readValue name) := by
  simp only [readValue, next?_shift, advance_shift, readReference_shift, readQuoted_shift]
  split_ifs
  · exact Scanned.shift_map fun r => rfl
  · exact Scanned.shift_map fun r => rfl
  · rfl

theorem readAttr_shift : (c.shift n).readAttr = Scanned.shift (shiftPair n) n c.readAttr := by
  simp only [readAttr, readWord_shift]
  refine Scanned.shift_bind fun r => ?_
  simp only [shiftPair, skipSpaces_shift, next?_shift, advance_shift, readValue_shift]
  split_ifs <;> rfl

theorem readProp_shift (kind : TagKind) :
    (c.shift n).readProp kind = Scanned.shift (shiftPair n) n (c.readProp kind) := by
  simp only [readProp, readWord_shift]
  refine Scanned.shift_bind fun r => ?_
  simp only [shiftPair, skipSpaces_shift, next?_shift, advance_shift, readValue_shift]
  split_ifs <;> rfl

theorem readTagName_shift : (c.shift n).readTagName = Scanned.shift (shiftPair n) n c.readTagName := by
  have hname : ∀ (d : Cursor) (k : NameClass) (kind : TagKind),
      ((d.shift n).readWord k).map (fun r => ((r.1, kind), r.2)) =
        Scanned.shift (shiftPair n) n ((d.readWord k).map fun r => ((r.1, kind), r.2)) := by
    intro d k kind
    rw [readWord_shift]
    exact Scanned.shift_map fun r => rfl
  simp only [readTagName, next?_shift, advance_shift, hname]
  cases c.next? with
  | none => rfl
  | some ch =>
    dsimp only
    split_ifs <;> rfl

end Cursor

namespace Scanner

open Cursor

variable (n : Nat) (s : Scanner)

def shiftStep (r : Option Token × Scanner) : Option Token × Scanner :=
  (r.1.map (Token.shift n), r.2.shift n)

theorem closeBody_shift (tag : OpenTag) :
    (s.shift n).closeBody tag = Scanned.shift (shiftStep n) n (s.closeBody tag) := by
  simp only [closeBody, shift, advance_shift, skipSpaces_shift, expect_shift]
  refine Scanned.shift_bind fun d => ?_
  rw [skipSpaces_shift]
  rfl

theorem openChildren_shift (tag : OpenTag) :
    (s.shift n).openChildren tag = Scanned.shift (shiftStep n) n (s.openChildren tag) := by
  simp only [openChildren, shift, advance_shift, skipSpaces_shift]
  rfl

theorem stepBody_shift (tag : OpenTag) (ch : Char) :
    (s.shift n).stepBody tag ch = Scanned.shift (shiftStep n) n (s.stepBody tag ch) := by
  simp only [stepBody, closeBody_shift, openChildren_shift]
  simp only [shift, advance_shift, readProp_shift, readAttr_shift]
  split_ifs
  · rfl
  · rfl
  · exact Scanned.shift_map fun r => rfl
  · rfl
  · exact Scanned.shift_map fun r => rfl

theorem closeTag_shift (c : Cursor) :
    (s.shift n).closeTag (c.shift n) = Scanned.shift (shiftStep n) n (s.closeTag c) := by
  simp only [closeTag, skipSpaces_shift, readTagName_shift]
  refine Scanned.shift_bind fun r => ?_
  simp only [shiftPair, skipSpaces_shift, expect_shift]
  refine Scanned.shift_bind fun e => ?_
  obtain ⟨cursor, body, children⟩ := s
  cases children <;> simp only [shift, skipSpaces_shift] <;> rfl

theorem openTag_shift (c : Cursor) :
    (s.shift n).openTag (c.shift n) = Scanned.shift (shiftStep n) n (s.openTag c) := by
  simp only [openTag, readTagName_shift]
  refine Scanned.shift_bind fun r => ?_
  simp only [shiftPair, skipSpaces_shift]
  rfl

theorem stepContent_shift (ch : Char) :
    (s.shift n).stepContent ch = Scanned.shift (shiftStep n) n (s.stepContent ch) := by
  have htag : (s.shift n).readTag = Scanned.shift (shiftStep n) n s.readTag := by
    simp only [readTag]
    simp only [show (s.shift n).cursor = s.cursor.shift n from rfl, advance_shift, skipSpaces_shift,
      next?_shift, closeTag_shift, openTag_shift]
    split_ifs <;> rfl
  have htext : (s.shift n).readText = shiftStep n s.readText := by
    refine Prod.ext ?_ (congrArg (Scanner.mk · s.body s.children) (skip_shift isText n s.cursor))
    change (if trim (s.cursor.run isText) = [] then none else some (Token.text _)) =
      Option.map (Token.shift n) (if trim (s.cursor.run isText) = [] then none else some (.text _))
    split_ifs <;> rfl
  simp only [stepContent, htag, htext]
  simp only [shift, advance_shift, readReference_shift]
  split_ifs
  · rfl
  · exact Scanned.shift_map fun r => rfl
  · rfl
  · rfl

theorem step_shift (ch : Char) : (s.shift n).step ch = Scanned.shift (shiftStep n) n (s.step ch) := by
  simp only [step, show (s.shift n).body = s.body from rfl, stepBody_shift, stepContent_shift]
  cases s.body <;> rfl

theorem stop_shift : (s.shift n).stop = Scanned.shift (List.map (Token.shift n)) n s.stop := by
  obtain ⟨cursor, body, children⟩ := s
  cases body <;> cases children <;> rfl

/-- A scanner that starts further behind yields the same tokens or the same fault, only further
behind. -/
theorem tokens_shift : (s.shift n).tokens = Scanned.shift (List.map (Token.shift n)) n s.tokens := by
  induction s using Scanner.tokens.induct with
  | case1 s hr =>
    have hr' : (s.shift n).cursor.rest = [] := hr
    rw [tokens_of_end hr, tokens_of_end hr', stop_shift]
  | case2 s ch r hr fault hs =>
    have hr' : (s.shift n).cursor.rest = ch :: r := hr
    rw [tokens_of_fault hr hs, tokens_of_fault hr' (by rw [step_shift, hs]; rfl)]
    rfl
  | case3 s ch r hr o t hs ih =>
    have hr' : (s.shift n).cursor.rest = ch :: r := hr
    rw [tokens_of_step hr hs, tokens_of_step hr' (by rw [step_shift, hs]; rfl), ih]
    refine Scanned.shift_map fun ts => ?_
    cases o <;> rfl

end Scanner

end ReactiveView
