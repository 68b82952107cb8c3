import Mathlib.Data.List.Perm.Subperm
import ReactiveView.Proofs.Tree.Reconcile

namespace ReactiveView

/-- A tree that is painted under the root, with guests around it. The tree without nodes need not
be painted. -/
structure VirtualTree.Painted (t : VirtualTree) (guest : NodeId → Bool) (s : Surface) : Prop where
  live : t.live = some Surface.root ∨ t = VirtualTree.empty
  placed : Placed s guest Surface.root t.children
  children : (s.children Surface.root).filter (!guest ·) = VirtualNode.flatten t.children
  parent? : s.parent? Surface.root = none

def VirtualTree.bare (t : VirtualTree) : VirtualTree :=
  .ofChildren (VirtualNode.bareAll t.children)

variable {s : Surface} {t : VirtualTree} {guest : NodeId → Bool}

namespace VirtualTree

open VirtualNode

theorem bare_paint (t : VirtualTree) (s : Surface) : (t.paint s).1.bare = t.bare := by
  simp only [bare, paint]
  rw [bareAll_paintAll]

theorem bare_diff (e : Enumeration) (previous next : VirtualTree) (s : Surface) :
    (diff e previous next s).1.bare = next.bare := by
  unfold diff
  split
  · exact bare_paint next s
  · simp only [bare]
    rw [bareAll_reconcileAll]

theorem painted_empty : VirtualTree.empty.Painted (fun _ => false) Surface.empty where
  live := Or.inr rfl
  placed := ⟨trivial, List.nodup_nil, by decide, List.not_mem_nil, by simp, by simp [empty, ofChildren]⟩
  children := rfl
  parent? := rfl

theorem painted_paint (hroot : Surface.root < s.nodes.size)
    (hg : ∀ id, guest id = true → id < s.nodes.size)
    (hc : (s.children Surface.root).filter (!guest ·) = []) (hparent : s.parent? Surface.root = none)
    (t : VirtualTree) : (t.paint s).1.Painted guest (t.paint s).2 := by
  have hp : Placed s guest Surface.root [] := ⟨trivial, by simp, hroot, by simp, hg, by simp⟩
  have hx := exchanged_paintAll t.children hp
  have hp' := hx.placed_new hp
  obtain ⟨n, hn⟩ := s.exists_node? _ hroot
  have hn' := hx.node?_parent
  rw [hn, Option.map_some, flatten_nil, exchange_nil] at hn'
  refine ⟨Or.inl rfl, hp', ?_, ?_⟩
  · have hnew : ∀ id ∈ flatten (t.paint s).1.children, (!guest id) = true := fun id hm => by
      simp [hp'.not_guest id ((flatten_sublist_heldAll _).subset hm)]
    simp only [Surface.children, hn] at hc
    simp only [paint, Surface.children, hn', List.filter_append, hc]
    exact List.filter_eq_self.mpr hnew
  · simp only [Surface.parent?, hn, Option.bind_some] at hparent
    simp only [paint, Surface.parent?, hn', Option.bind_some, hparent]

/-- A tree that took the place of another one: no node of the surface was dropped, and a handle
that the other tree did not hold is that of a node made since. -/
structure Succeeds (t' t : VirtualTree) (s s' : Surface) : Prop where
  size_le : s.nodes.size ≤ s'.nodes.size
  origin : ∀ id ∈ heldAll t'.children, id ∈ heldAll t.children ∨ s.nodes.size ≤ id

namespace Painted

theorem root_lt (h : t.Painted guest s) : Surface.root < s.nodes.size := h.placed.parent_lt

theorem length_held_lt (h : t.Painted guest s) : (heldAll t.children).length < s.nodes.size := by
  have hn : (Surface.root :: heldAll t.children).Nodup :=
    List.nodup_cons.mpr ⟨h.placed.parent_not_mem, h.placed.nodup⟩
  have hs : Surface.root :: heldAll t.children ⊆ List.range s.nodes.size := by
    intro id hm
    rw [List.mem_range]
    obtain rfl | hm := List.mem_cons.mp hm
    · exact h.root_lt
    · exact h.placed.lt_size hm
  have hlen := (hn.subperm hs).length_le
  rwa [List.length_cons, List.length_range] at hlen

theorem paint (h : t.Painted guest s) (next : VirtualTree) :
    (next.paint s).1.Painted (fun id => decide (id < s.nodes.size)) (next.paint s).2 := by
  refine painted_paint h.root_lt (fun id hg => of_decide_eq_true hg) ?_ h.parent? next
  rw [List.filter_eq_nil_iff]
  intro id hm
  simp only [Bool.not_eq_true', decide_eq_false_iff_not, not_not]
  by_cases hg : guest id = true
  · exact h.placed.guest_lt id hg
  · have hf : id ∈ flatten t.children := by
      rw [← h.children]
      exact List.mem_filter.mpr ⟨hm, by simpa using hg⟩
    exact h.placed.lt_size ((flatten_sublist_heldAll _).subset hf)

theorem paint_succeeds (h : t.Painted guest s) (next : VirtualTree) :
    (next.paint s).1.Succeeds t s (next.paint s).2 := by
  have hx := exchanged_paintAll next.children h.placed.nil
  exact ⟨hx.size_le, fun id hm => (hx.origin id hm).imp_left fun hn => absurd hn List.not_mem_nil⟩

theorem rearranged_diff (h : t.Painted guest s) (hlive : t.live = some Surface.root)
    (e : Enumeration) (next : VirtualTree) :
    Rearranged guest Surface.root t.children (VirtualTree.diff e t next s).1.children s
      (VirtualTree.diff e t next s).2 := by
  have hx := exchanged_reconcileAll e next.children (m := Matching.start t.children next.children)
    (by rw [Matching.nodes_start]; exact h.placed)
  rw [Matching.nodes_start] at hx
  simp only [VirtualTree.diff, hlive]
  apply hx.arrange h.placed
  intro n hn
  have hc := h.children
  simpa only [Surface.children, hn] using hc

/-- A pass puts the next tree in the place of the previous one. -/
theorem diff (h : t.Painted guest s) (e : Enumeration) (next : VirtualTree) :
    (VirtualTree.diff e t next s).1.Painted guest (VirtualTree.diff e t next s).2 := by
  obtain hlive | rfl := h.live
  · have hx := h.rearranged_diff hlive e next
    obtain ⟨n, hn⟩ := s.exists_node? _ h.root_lt
    obtain ⟨order, hn', horder⟩ := hx.node?_parent n hn
    have hparent := h.parent?
    simp only [Surface.parent?, hn, Option.bind_some] at hparent
    refine ⟨Or.inl (by simp only [VirtualTree.diff, hlive]), hx.placed, ?_, ?_⟩
    · simpa only [Surface.children, hn'] using horder
    · simp only [Surface.parent?, hn', Option.bind_some, hparent]
  · exact painted_paint h.root_lt h.placed.guest_lt h.children h.parent? next

theorem diff_succeeds (h : t.Painted guest s) (e : Enumeration) (next : VirtualTree) :
    (VirtualTree.diff e t next s).1.Succeeds t s (VirtualTree.diff e t next s).2 := by
  obtain hlive | rfl := h.live
  · have hx := h.rearranged_diff hlive e next
    exact ⟨hx.size_le, hx.origin⟩
  · exact h.paint_succeeds next

end Painted

theorem painted_paint_empty (t : VirtualTree) :
    (t.paint Surface.empty).1.Painted (fun _ => false) (t.paint Surface.empty).2 :=
  painted_empty.diff .document t

end VirtualTree

end ReactiveView
