import ReactiveView.Proofs.Tree.Lookup
import ReactiveView.Proofs.Tree.Shape

namespace ReactiveView

/-- A live node of some kind under a parent, with its children but for the guests among them, which
are the nodes that somebody else put there. -/
structure LiveNode.Holds (n : LiveNode) (guest : NodeId → Bool) (kind : LiveKind) (parent : NodeId)
    (children : List NodeId) : Prop where
  kind_eq : n.kind = kind
  parent_eq : n.parent = some parent
  children_eq : n.children.filter (!guest ·) = children

namespace VirtualNode

mutual

/-- A surface shows a node and all that is within it under a parent. -/
def Shown (s : Surface) (guest : NodeId → Bool) (parent : NodeId) : VirtualNode → Prop
  | element tag attrs _ children live => ∃ id n, live = some id ∧ s.node? id = some n ∧
      n.Holds guest (.element tag attrs) parent (flatten children) ∧ ShownAll s guest id children
  | text content live => ∃ id n, live = some id ∧ s.node? id = some n ∧
      n.Holds guest (.text content) parent []
  | fragment _ _ children => ShownAll s guest parent children

def ShownAll (s : Surface) (guest : NodeId → Bool) (parent : NodeId) : List VirtualNode → Prop
  | [] => True
  | node :: rest => node.Shown s guest parent ∧ ShownAll s guest parent rest

end

variable {s s' : Surface} {guest : NodeId → Bool} {parent id : NodeId} {node : VirtualNode}
  {nodes more : List VirtualNode}

theorem shownAll_iff : ShownAll s guest parent nodes ↔ ∀ node ∈ nodes, node.Shown s guest parent := by
  induction nodes with
  | nil => simp [ShownAll]
  | cons node rest ih => simp [ShownAll, ih]

theorem shownAll_append : ShownAll s guest parent (nodes ++ more) ↔
    ShownAll s guest parent nodes ∧ ShownAll s guest parent more := by
  simp only [shownAll_iff, List.mem_append, or_imp, forall_and]

theorem shownAll_singleton : ShownAll s guest parent [node] ↔ node.Shown s guest parent := by
  simp [ShownAll]

theorem shownAll_fragment (key : FragmentKey) (shown : Bool) :
    ShownAll s guest parent [fragment key shown nodes] ↔ ShownAll s guest parent nodes := by
  rw [shownAll_singleton, Shown]

theorem shownAll_perm (h : nodes.Perm more) :
    ShownAll s guest parent nodes ↔ ShownAll s guest parent more := by
  simp only [shownAll_iff, h.mem_iff]

mutual

/-- Whether a node is shown depends on the handles that it holds alone. -/
theorem Shown.frame (guest : NodeId → Bool) : ∀ {node : VirtualNode} {parent : NodeId},
    (∀ id ∈ node.held, s'.node? id = s.node? id) → node.Shown s guest parent →
    node.Shown s' guest parent
  | element tag attrs _ children live, parent, hf, h => by
    obtain ⟨id, n, hl, hn, hk, hc⟩ := h
    have hi : id ∈ live.toList := by simp [hl]
    refine ⟨id, n, hl, ?_, hk, ShownAll.frame guest (fun i hm => hf i ?_) hc⟩
    · rw [hf id (by simp [held, hi]), hn]
    · simp [held, hm]
  | text content live, parent, hf, h => by
    obtain ⟨id, n, hl, hn, hk⟩ := h
    have hi : id ∈ live.toList := by simp [hl]
    exact ⟨id, n, hl, by rw [hf id (by simp [held, hi]), hn], hk⟩
  | fragment _ _ children, parent, hf, h =>
    ShownAll.frame guest hf (show ShownAll s guest parent children from h)

theorem ShownAll.frame (guest : NodeId → Bool) : ∀ {nodes : List VirtualNode} {parent : NodeId},
    (∀ id ∈ heldAll nodes, s'.node? id = s.node? id) → ShownAll s guest parent nodes →
    ShownAll s' guest parent nodes
  | [], _, _, _ => trivial
  | node :: rest, parent, hf, h =>
    ⟨Shown.frame guest (fun i hm => hf i (by simp [heldAll, hm])) h.1,
      ShownAll.frame guest (fun i hm => hf i (by simp [heldAll, hm])) h.2⟩

end

mutual

theorem Shown.lt_size : ∀ {node : VirtualNode} {parent : NodeId}, node.Shown s guest parent →
    id ∈ node.held → id < s.nodes.size
  | element _ _ _ children live, parent, h, hm => by
    obtain ⟨i, n, hl, hn, -, hc⟩ := h
    simp only [held, hl, Option.toList_some, List.singleton_append, List.mem_cons] at hm
    obtain rfl | hm := hm
    · exact s.node?_eq_some_lt _ hn
    · exact ShownAll.lt_size hc hm
  | text _ live, parent, h, hm => by
    obtain ⟨i, n, hl, hn, -⟩ := h
    simp only [held, hl, Option.toList_some, List.mem_singleton] at hm
    exact hm ▸ s.node?_eq_some_lt _ hn
  | fragment _ _ children, parent, h, hm =>
    ShownAll.lt_size (show ShownAll s guest parent children from h) hm

theorem ShownAll.lt_size : ∀ {nodes : List VirtualNode} {parent : NodeId},
    ShownAll s guest parent nodes → id ∈ heldAll nodes → id < s.nodes.size
  | node :: rest, parent, h, hm => by
    obtain hm | hm := List.mem_append.mp hm
    · exact Shown.lt_size h.1 hm
    · exact ShownAll.lt_size h.2 hm

end

mutual

theorem Shown.parent? : ∀ {node : VirtualNode}, node.Shown s guest parent → id ∈ node.handles →
    s.parent? id = some parent
  | element _ _ _ _ live, h, hm => by
    obtain ⟨i, n, hl, hn, hk, -⟩ := h
    simp only [handles, hl, Option.toList_some, List.mem_singleton] at hm
    simp [Surface.parent?, hm, hn, hk.parent_eq]
  | text _ live, h, hm => by
    obtain ⟨i, n, hl, hn, hk⟩ := h
    simp only [handles, hl, Option.toList_some, List.mem_singleton] at hm
    simp [Surface.parent?, hm, hn, hk.parent_eq]
  | fragment _ _ children, h, hm =>
    ShownAll.parent? (show ShownAll s guest parent children from h) hm

theorem ShownAll.parent? : ∀ {nodes : List VirtualNode}, ShownAll s guest parent nodes →
    id ∈ flatten nodes → s.parent? id = some parent
  | node :: rest, h, hm => by
    obtain hm | hm := List.mem_append.mp hm
    · exact Shown.parent? h.1 hm
    · exact ShownAll.parent? h.2 hm

end

mutual

theorem Shown.allLive : ∀ {node : VirtualNode} {parent : NodeId}, node.Shown s guest parent →
    AllLive [node]
  | element _ _ _ _ _, _, ⟨_, _, hl, _, _, hc⟩ => by
    refine allLive_cons.mpr ⟨fun h => ?_, ShownAll.allLive hc, allLive_nil⟩
    rw [live?, hl] at h
    cases h
  | text _ _, _, ⟨_, _, hl, _, _⟩ => by
    refine allLive_cons.mpr ⟨fun h => ?_, allLive_nil, allLive_nil⟩
    rw [live?, hl] at h
    cases h
  | fragment key _ children, parent, h =>
    allLive_cons.mpr ⟨fun _ => ⟨key, rfl⟩,
      ShownAll.allLive (show ShownAll s guest parent children from h), allLive_nil⟩

theorem ShownAll.allLive : ∀ {nodes : List VirtualNode} {parent : NodeId},
    ShownAll s guest parent nodes → AllLive nodes
  | [], _, _ => allLive_nil
  | _ :: _, _, h =>
    have hnode := allLive_cons.mp (Shown.allLive h.1)
    allLive_cons.mpr ⟨hnode.1, hnode.2.1, ShownAll.allLive h.2⟩

end

mutual

theorem Shown.children : ∀ {node : VirtualNode} {parent : NodeId}, node.Shown s guest parent →
    ∀ id ∈ node.held, ∀ child ∈ s.children id, guest child = true ∨ child ∈ node.held
  | .element _ _ _ children live, _, h, id, hm, child, hc => by
    obtain ⟨i, n, rfl, hn, hk, hch⟩ := h
    rw [held, Option.toList_some, List.singleton_append, List.mem_cons] at hm ⊢
    obtain rfl | hm := hm
    · by_cases hg : guest child = true
      · exact Or.inl hg
      · rw [Surface.children, hn] at hc
        have hf : child ∈ flatten children := hk.children_eq ▸ List.mem_filter.mpr ⟨hc, by simpa using hg⟩
        exact Or.inr (Or.inr ((flatten_sublist_heldAll children).subset hf))
    · exact (ShownAll.children hch id hm child hc).imp_right Or.inr
  | .text _ live, _, h, id, hm, child, hc => by
    obtain ⟨i, n, rfl, hn, hk⟩ := h
    rw [held, Option.toList_some, List.mem_singleton] at hm
    rw [hm, Surface.children, hn] at hc
    by_cases hg : guest child = true
    · exact Or.inl hg
    · have hf : child ∈ ([] : List NodeId) := hk.children_eq ▸ List.mem_filter.mpr ⟨hc, by simpa using hg⟩
      cases hf
  | .fragment _ _ children, parent, h, id, hm, child, hc =>
    ShownAll.children (show ShownAll s guest parent children from h) id hm child hc

theorem ShownAll.children : ∀ {nodes : List VirtualNode} {parent : NodeId},
    ShownAll s guest parent nodes →
    ∀ id ∈ heldAll nodes, ∀ child ∈ s.children id, guest child = true ∨ child ∈ heldAll nodes
  | node :: rest, _, h, id, hm, child, hc => by
    rw [heldAll, List.mem_append]
    obtain hm | hm := List.mem_append.mp hm
    · exact (Shown.children h.1 id hm child hc).imp_right Or.inl
    · exact (ShownAll.children h.2 id hm child hc).imp_right Or.inr

end

end VirtualNode

end ReactiveView
