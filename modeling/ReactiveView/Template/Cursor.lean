import ReactiveView.Template.LexError
import ReactiveView.Text.Whitespace

namespace ReactiveView

/-- A place in a source: the text that follows it and the number of bytes before it. -/
structure Cursor where
  rest : List Char
  offset : Nat
  deriving DecidableEq, Repr

namespace Cursor

def start (source : List Char) : Cursor := ⟨source, 0⟩

def next? (c : Cursor) : Option Char := c.rest.head?

def advance (c : Cursor) : Cursor :=
  match c.rest with
  | [] => c
  | ch :: rest => ⟨rest, c.offset + ch.utf8Size⟩

def skip (p : Char → Bool) (c : Cursor) : Cursor :=
  ⟨c.rest.dropWhile p, c.offset + width (c.rest.takeWhile p)⟩

def run (p : Char → Bool) (c : Cursor) : List Char := c.rest.takeWhile p

def skipSpaces (c : Cursor) : Cursor := c.skip isSpace

/-- A text stands between two places. -/
def Passes (c : Cursor) (w : List Char) (d : Cursor) : Prop :=
  c.rest = w ++ d.rest ∧ d.offset = c.offset + width w

def Reaches (c d : Cursor) : Prop := ∃ w, c.Passes w d

def Advances (c d : Cursor) : Prop := ∃ w, w ≠ [] ∧ c.Passes w d

theorem width_append (v w : List Char) : width (v ++ w) = width v + width w := by
  induction v with
  | nil => simp [width]
  | cons c v ih =>
    change c.utf8Size + width (v ++ w) = c.utf8Size + width v + width w
    rw [ih, Nat.add_assoc]

theorem Passes.trans {b c d : Cursor} {v w : List Char} (h : b.Passes v c) (h' : c.Passes w d) :
    b.Passes (v ++ w) d := by
  obtain ⟨hr, ho⟩ := h
  obtain ⟨hr', ho'⟩ := h'
  exact ⟨by rw [hr, hr', List.append_assoc], by rw [ho', ho, width_append, Nat.add_assoc]⟩

theorem Reaches.refl (c : Cursor) : c.Reaches c := ⟨[], rfl, rfl⟩

theorem Advances.reaches {c d : Cursor} (h : c.Advances d) : c.Reaches d := by
  obtain ⟨w, _, h⟩ := h
  exact ⟨w, h⟩

theorem Reaches.trans {b c d : Cursor} (h : b.Reaches c) (h' : c.Reaches d) : b.Reaches d := by
  obtain ⟨v, h⟩ := h
  obtain ⟨w, h'⟩ := h'
  exact ⟨v ++ w, h.trans h'⟩

theorem Advances.trans_reaches {b c d : Cursor} (h : b.Advances c) (h' : c.Reaches d) :
    b.Advances d := by
  obtain ⟨v, hv, h⟩ := h
  obtain ⟨w, h'⟩ := h'
  exact ⟨v ++ w, by simp [hv], h.trans h'⟩

theorem Reaches.trans_advances {b c d : Cursor} (h : b.Reaches c) (h' : c.Advances d) :
    b.Advances d := by
  obtain ⟨v, h⟩ := h
  obtain ⟨w, hw, h'⟩ := h'
  exact ⟨v ++ w, by simp [hw], h.trans h'⟩

theorem Advances.length_lt {c d : Cursor} (h : c.Advances d) : d.rest.length < c.rest.length := by
  obtain ⟨w, hw, hr, _⟩ := h
  have := List.length_pos_iff.mpr hw
  rw [hr, List.length_append]
  omega

theorem passes_skip (p : Char → Bool) (c : Cursor) : c.Passes (c.run p) (c.skip p) :=
  ⟨(List.takeWhile_append_dropWhile (p := p)).symm, rfl⟩

theorem reaches_skip (p : Char → Bool) (c : Cursor) : c.Reaches (c.skip p) :=
  ⟨_, passes_skip p c⟩

theorem reaches_skipSpaces (c : Cursor) : c.Reaches c.skipSpaces := reaches_skip isSpace c

theorem passes_advance {c : Cursor} {ch : Char} {rest : List Char} (h : c.rest = ch :: rest) :
    c.Passes [ch] c.advance := by
  unfold advance
  rw [h]
  exact ⟨h, by simp [width]⟩

theorem advances_advance {c : Cursor} {ch : Char} {rest : List Char} (h : c.rest = ch :: rest) :
    c.Advances c.advance := ⟨[ch], by simp, passes_advance h⟩

theorem reaches_advance (c : Cursor) : c.Reaches c.advance := by
  cases h : c.rest with
  | nil => unfold advance; rw [h]; exact Reaches.refl c
  | cons ch rest => exact (advances_advance h).reaches

theorem advances_skip {p : Char → Bool} {c : Cursor} (h : c.run p ≠ []) : c.Advances (c.skip p) :=
  ⟨_, h, passes_skip p c⟩

end Cursor

end ReactiveView
