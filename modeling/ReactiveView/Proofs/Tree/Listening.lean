import Mathlib.Data.Finset.Card
import Mathlib.Data.List.Induction
import ReactiveView.Proofs.Tree.Hearing
import ReactiveView.Render.Session

namespace ReactiveView

open VirtualNode

/-- A way to bring a surface to the next tree. -/
inductive Redraw where
  | paint (next : VirtualTree)
  | diff (next : VirtualTree)

/-- A surface and the tree whose listeners it has, with the handles that trees before it held and
that were given up. -/
structure Screen where
  tree : VirtualTree
  surface : Surface
  torn : List NodeId

namespace Screen

def blank : Screen := ⟨VirtualTree.empty, Surface.empty, []⟩

def drawn (d : Screen) (e : Enumeration) : Redraw → VirtualTree × Surface
  | .paint next => next.paint d.surface
  | .diff next => VirtualTree.diff e d.tree next d.surface

/-- Bring the surface and its listeners to a tree. The answer is how many listeners were added and
how many removed. -/
def pass (d : Screen) (e : Enumeration) (p : Redraw) : (Nat × Nat) × Screen :=
  let (tree, surface) := d.drawn e p
  let (counts, surface) := EventSet.refresh e d.tree.events tree.events surface
  (counts, ⟨tree, surface, d.torn ++ (heldAll d.tree.children).filter (· ∉ heldAll tree.children)⟩)

def run (passes : List (Enumeration × Redraw)) : Screen :=
  passes.foldl (fun d p => (d.pass p.1 p.2).2) blank

/-- A screen that passes can lead to: the tree is painted, its listeners are held, and no handle
that was given up comes back. -/
structure Kept (d : Screen) : Prop where
  painted : ∃ guest, d.tree.Painted guest d.surface
  held : d.tree.events.HeldBy d.surface
  torn_lt : ∀ id ∈ d.torn, id < d.surface.nodes.size
  torn_not_mem : ∀ id ∈ d.torn, id ∉ heldAll d.tree.children

variable {d : Screen}

theorem listeners_drawn (e : Enumeration) (p : Redraw) :
    (d.drawn e p).2.listeners = d.surface.listeners := by
  cases p with
  | paint next => exact VirtualTree.listeners_paint next _
  | diff next => exact VirtualTree.listeners_diff e _ next _

namespace Kept

theorem painted_drawn (h : d.Kept) (e : Enumeration) (p : Redraw) :
    (∃ guest, (d.drawn e p).1.Painted guest (d.drawn e p).2) ∧
      (d.drawn e p).1.Succeeds d.tree d.surface (d.drawn e p).2 := by
  obtain ⟨guest, hp⟩ := h.painted
  cases p with
  | paint next => exact ⟨⟨_, hp.paint next⟩, hp.paint_succeeds next⟩
  | diff next => exact ⟨⟨guest, hp.diff e next⟩, hp.diff_succeeds e next⟩

theorem pass (h : d.Kept) (e : Enumeration) (p : Redraw) : (d.pass e p).2.Kept := by
  obtain ⟨⟨guest, hp⟩, hs⟩ := h.painted_drawn e p
  have hheld := h.held.congr (listeners_drawn e p)
  simp only [Screen.pass]
  generalize d.drawn e p = drawn at hp hs hheld
  obtain ⟨hp', hheld'⟩ := hp.refresh hheld e
  refine ⟨⟨guest, hp'⟩, hheld', fun id hm => ?_, fun id hm => ?_⟩
  · obtain ⟨guest, hd⟩ := h.painted
    rw [(EventSet.alike_refresh e d.tree.events drawn.1.events drawn.2).size_eq]
    refine Nat.lt_of_lt_of_le ?_ hs.size_le
    obtain hm | hm := List.mem_append.mp hm
    · exact h.torn_lt id hm
    · exact hd.placed.lt_size (List.mem_of_mem_filter hm)
  · obtain hm | hm := List.mem_append.mp hm
    · intro hn
      obtain hd | hd := hs.origin id hn
      · exact h.torn_not_mem id hm hd
      · exact Nat.lt_irrefl _ (Nat.lt_of_lt_of_le (h.torn_lt id hm) hd)
    · simpa using List.of_mem_filter hm

end Kept

end Screen

end ReactiveView
