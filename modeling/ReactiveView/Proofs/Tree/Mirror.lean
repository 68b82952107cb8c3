import Mathlib.Data.List.Induction
import ReactiveView.Proofs.Tree.Painted
import ReactiveView.Tree.Markup

namespace ReactiveView

variable {s : Surface} {t : VirtualTree} {guest : NodeId → Bool}

namespace VirtualNode

mutual

/-- A surface carries a node: a live element has the tag, the attributes and the children of the
element, and a live text has its content. -/
def CarriedBy (s : Surface) : VirtualNode → Prop
  | element tag attrs _ children live => ∃ id n, live = some id ∧ s.node? id = some n ∧
      n.kind = .element tag attrs ∧ n.children = flatten children ∧ CarriedAllBy s children
  | text content live => ∃ id n, live = some id ∧ s.node? id = some n ∧ n.kind = .text content
  | fragment _ _ children => CarriedAllBy s children

def CarriedAllBy (s : Surface) : List VirtualNode → Prop
  | [] => True
  | node :: rest => node.CarriedBy s ∧ CarriedAllBy s rest

end

mutual

def markup : VirtualNode → String
  | element tag attrs _ children _ => Markup.element tag attrs (markupAll children)
  | text content _ => Markup.escapeText content
  | fragment _ _ children => markupAll children

def markupAll : List VirtualNode → String
  | [] => ""
  | node :: rest => node.markup ++ markupAll rest

end

mutual

theorem Shown.carriedBy : ∀ {node : VirtualNode} {parent : NodeId},
    node.Shown s (fun _ => false) parent → node.CarriedBy s
  | element _ _ _ _ _, _, ⟨id, n, hl, hn, hk, hc⟩ =>
    ⟨id, n, hl, hn, hk.kind_eq, by simpa using hk.children_eq, ShownAll.carriedAllBy hc⟩
  | text _ _, _, ⟨id, n, hl, hn, hk⟩ => ⟨id, n, hl, hn, hk.kind_eq⟩
  | fragment _ _ children, parent, h =>
    ShownAll.carriedAllBy (show ShownAll s (fun _ => false) parent children from h)

theorem ShownAll.carriedAllBy : ∀ {nodes : List VirtualNode} {parent : NodeId},
    ShownAll s (fun _ => false) parent nodes → CarriedAllBy s nodes
  | [], _, _ => trivial
  | _ :: _, _, h => ⟨Shown.carriedBy h.1, ShownAll.carriedAllBy h.2⟩

end

mutual

theorem CarriedBy.markup_eq : ∀ {node : VirtualNode} {levels : Nat}, node.CarriedBy s →
    node.held.length ≤ levels → String.join (node.handles.map (Markup.subtree s levels)) = node.markup
  | element tag attrs _ children _, levels, ⟨id, n, hl, hn, hk, hch, hc⟩, hlev => by
    subst hl
    simp only [held, Option.toList_some, List.length_append, List.length_singleton] at hlev
    obtain ⟨levels, rfl⟩ : ∃ k, levels = k + 1 := ⟨levels - 1, by omega⟩
    have ih := CarriedAllBy.markup_eq hc (show _ ≤ levels by omega)
    simp only [handles, Option.toList_some, List.map_singleton, String.join_cons, String.join_nil,
      Markup.subtree, hn, hk, hch, ih, markup, String.append_empty]
  | text content _, levels, ⟨id, n, hl, hn, hk⟩, hlev => by
    subst hl
    simp only [held, Option.toList_some, List.length_singleton] at hlev
    obtain ⟨levels, rfl⟩ : ∃ k, levels = k + 1 := ⟨levels - 1, by omega⟩
    simp only [handles, Option.toList_some, List.map_singleton, String.join_cons, String.join_nil,
      Markup.subtree, hn, hk, markup, String.append_empty]
  | fragment _ _ children, levels, h, hlev => by
    simp only [handles, markup]
    exact CarriedAllBy.markup_eq h hlev

theorem CarriedAllBy.markup_eq : ∀ {nodes : List VirtualNode} {levels : Nat}, CarriedAllBy s nodes →
    (heldAll nodes).length ≤ levels →
    String.join ((flatten nodes).map (Markup.subtree s levels)) = markupAll nodes
  | [], _, _, _ => by simp [flatten, markupAll]
  | node :: rest, levels, h, hlev => by
    simp only [heldAll, List.length_append] at hlev
    rw [flatten, List.map_append, String.join_append, markupAll,
      CarriedBy.markup_eq h.1 (by omega), CarriedAllBy.markup_eq h.2 (by omega)]

end

mutual

theorem markup_bare : ∀ node : VirtualNode, node.bare.markup = node.markup
  | element _ _ _ children _ => by simp only [bare, markup, markupAll_bareAll children]
  | text _ _ => rfl
  | fragment _ _ children => by simp only [bare, markup, markupAll_bareAll children]

theorem markupAll_bareAll : ∀ nodes : List VirtualNode, markupAll (bareAll nodes) = markupAll nodes
  | [] => rfl
  | node :: rest => by simp only [bareAll, markupAll, markup_bare node, markupAll_bareAll rest]

end

end VirtualNode

/-- A surface shows a tree and nothing else. -/
structure Surface.Mirrors (s : Surface) (t : VirtualTree) : Prop where
  children : s.children Surface.root = VirtualNode.flatten t.children
  carried : VirtualNode.CarriedAllBy s t.children

namespace VirtualTree

open VirtualNode

def markup (t : VirtualTree) : String := markupAll t.children

theorem markup_eq_of_bare {t u : VirtualTree} (h : t.bare = u.bare) : t.markup = u.markup := by
  have hc : bareAll t.children = bareAll u.children := congrArg VirtualTree.children h
  rw [markup, markup, ← markupAll_bareAll, hc, markupAll_bareAll]

theorem Painted.mirrors (h : t.Painted (fun _ => false) s) : s.Mirrors t where
  children := by simpa using h.children
  carried := ShownAll.carriedAllBy h.placed.shown

theorem Painted.html_eq (h : t.Painted (fun _ => false) s) : s.html = t.markup := by
  rw [Surface.html, h.mirrors.children, h.mirrors.carried.markup_eq (Nat.le_of_lt h.length_held_lt),
    markup]

/-- What is shown after a tree was painted on an empty surface and the surface was brought to other
trees one after another, each time with some order for what is torn down. -/
def display (first : VirtualTree) (later : List (Enumeration × VirtualTree)) :
    VirtualTree × Surface :=
  later.foldl (fun shown pass => diff pass.1 shown.1 pass.2 shown.2) (first.paint Surface.empty)

def last (first : VirtualTree) (later : List (Enumeration × VirtualTree)) : VirtualTree :=
  later.foldl (fun _ pass => pass.2) first

theorem painted_display (first : VirtualTree) (later : List (Enumeration × VirtualTree)) :
    (display first later).1.Painted (fun _ => false) (display first later).2 ∧
      (display first later).1.bare = (last first later).bare := by
  induction later using List.reverseRecOn with
  | nil => exact ⟨painted_paint_empty first, bare_paint first _⟩
  | append_singleton later pass ih =>
    simp only [display, last, List.foldl_append, List.foldl_cons, List.foldl_nil] at ih ⊢
    exact ⟨ih.1.diff pass.1 pass.2, bare_diff _ _ _ _⟩

/-- After any passes the surface mirrors the last tree, and its markup is what the tree says and
what painting it afresh would show. -/
theorem mirrors_display (first : VirtualTree) (later : List (Enumeration × VirtualTree)) :
    (display first later).2.Mirrors (display first later).1 ∧
      (display first later).1.bare = (last first later).bare ∧
      (display first later).2.html = (last first later).markup ∧
      (display first later).2.html = ((last first later).paint Surface.empty).2.html := by
  obtain ⟨hp, hb⟩ := painted_display first later
  have hm := hp.html_eq.trans (markup_eq_of_bare hb)
  have hf := (painted_paint_empty (last first later)).html_eq.trans
    (markup_eq_of_bare (bare_paint _ _))
  exact ⟨hp.mirrors, hb, hm, hm.trans hf.symm⟩

end VirtualTree

end ReactiveView
