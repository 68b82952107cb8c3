import ReactiveView.Proofs.Tree.Order
import ReactiveView.Proofs.Tree.Painting

namespace ReactiveView

variable {s s₁ s₂ : Surface} {guest : NodeId → Bool} {parent id : NodeId}

namespace Matching

def nodes : Matching → List VirtualNode
  | keyed pool => pool
  | positional rest => rest

theorem nodes_start (previous next : List VirtualNode) : (start previous next).nodes = previous := by
  unfold start
  split <;> rfl

theorem stale_perm (e : Enumeration) (m : Matching) : (m.stale e).Perm m.nodes := by
  cases m with
  | keyed pool => exact e.nodes_perm pool
  | positional rest => exact List.Perm.refl rest

theorem perm_of_take {m m' : Matching} {node old : VirtualNode}
    (h : m.take node = (some old, m')) : m.nodes.Perm (old :: m'.nodes) := by
  cases m with
  | keyed pool =>
    simp only [take, Prod.mk.injEq] at h
    obtain ⟨hf, rfl⟩ := h
    obtain ⟨hs, front, back, rfl, hfront⟩ := List.find?_eq_some_iff_append.mp hf
    simp only [nodes]
    rw [List.eraseP_append_right _ fun a ha => by simpa using hfront a ha, List.eraseP_cons, hs]
    exact List.perm_middle
  | positional rest =>
    cases rest with
    | nil => simp [take] at h
    | cons first rest =>
      simp only [take, Prod.mk.injEq, Option.some.injEq] at h
      obtain ⟨rfl, rfl⟩ := h
      exact List.Perm.refl _

theorem nodes_of_take {m m' : Matching} {node : VirtualNode} (h : m.take node = (none, m')) :
    m'.nodes = m.nodes := by
  cases m with
  | keyed pool =>
    simp only [take, Prod.mk.injEq] at h
    obtain ⟨hf, rfl⟩ := h
    exact List.eraseP_of_forall_not fun old ho => by simpa using List.find?_eq_none.mp hf old ho
  | positional rest =>
    cases rest with
    | nil => simp only [take, Prod.mk.injEq, true_and] at h; rw [← h]
    | cons first rest => simp [take] at h

end Matching

open VirtualNode

theorem filter_exchange {old new : List NodeId} (hn : ∀ id ∈ new, guest id = false)
    (children : List NodeId) : (exchange old new children).filter (!guest ·) =
      exchange old new (children.filter (!guest ·)) := by
  have hnew : ∀ id ∈ new.filter (· ∉ old), (!guest id) = true := fun id hm => by
    rw [hn id (List.mem_of_mem_filter hm)]
    rfl
  rw [exchange, exchange, List.filter_append, List.filter_eq_self.mpr hnew, List.filter_filter,
    List.filter_filter]
  simp only [Bool.and_comm]

structure Rearranged (guest : NodeId → Bool) (parent : NodeId) (old new : List VirtualNode)
    (s s' : Surface) : Prop where
  size_le : s.nodes.size ≤ s'.nodes.size
  origin : ∀ id ∈ heldAll new, id ∈ heldAll old ∨ s.nodes.size ≤ id
  frame : ∀ id < s.nodes.size, id ≠ parent → id ∉ heldAll old → s'.node? id = s.node? id
  placed : Placed s' guest parent new
  node?_parent : ∀ n, s.node? parent = some n → ∃ children,
    s'.node? parent = some { n with children := children } ∧
      children.filter (!guest ·) = flatten new

theorem Exchanged.arrange {old new : List VirtualNode} (h : Exchanged guest parent old new s s₁)
    (hp : Placed s guest parent old)
    (hc : ∀ n, s.node? parent = some n → n.children.filter (!guest ·) = flatten old) :
    Rearranged guest parent old new s (s₁.arrange parent (flatten old) (flatten new)) := by
  have hp₁ := h.placed_new hp
  have hold := flatten_sublist_heldAll old
  have hnew := flatten_sublist_heldAll new
  have ha := Surface.arranged_arrange (s := s₁) (hp.nodup.sublist hold)
    (h.nodup.sublist hnew) (fun i hm => ShownAll.parent? h.shown hm)
    (fun hm => hp₁.parent_not_mem (hnew.subset hm)) (fun i hm => hp₁.not_guest i (hnew.subset hm))
    fun m hm => by
      obtain ⟨n, hn⟩ := s.exists_node? _ hp.parent_lt
      rw [h.node?_parent, hn, Option.map_some, Option.some.injEq] at hm
      rw [← hm, filter_exchange fun i hi => hp₁.not_guest i (hnew.subset hi), hc n hn]
  refine ⟨?_, h.origin, fun i hi hne hm => ?_, ⟨?_, h.nodup, ?_, hp₁.parent_not_mem, ?_,
    hp₁.not_guest⟩, fun n hn => ?_⟩
  · rw [ha.size_eq]
    exact h.size_le
  · rw [ha.frame i hne, h.frame i hi hne hm]
  · exact ShownAll.frame guest (fun i hm => ha.frame i fun he => hp₁.parent_not_mem (he ▸ hm)) h.shown
  · rw [ha.size_eq]
    exact hp₁.parent_lt
  · rw [ha.size_eq]
    exact hp₁.guest_lt
  · have hn₁ := h.node?_parent
    rw [hn, Option.map_some] at hn₁
    obtain ⟨order, hn₂, horder⟩ := ha.node?_parent _ hn₁
    exact ⟨order, hn₂, horder⟩

theorem Placed.exists_element {tag : String} {attrs : Dict String} {listeners : List Listener}
    {children : List VirtualNode}
    (hp : Placed s guest parent [.element tag attrs listeners children (some id)]) :
    ∃ n, s.node? id = some n ∧ n.Holds guest (.element tag attrs) parent (flatten children) ∧
      ShownAll s guest id children := by
  obtain ⟨_, n, heq, hn, hk, hch⟩ := shownAll_singleton.mp hp.shown
  cases heq
  exact ⟨n, hn, hk, hch⟩

theorem Placed.of_element {tag : String} {attrs attrs' : Dict String} {listeners : List Listener}
    {children : List VirtualNode}
    (hp : Placed s guest parent [.element tag attrs listeners children (some id)])
    (hset : Redressed id tag attrs attrs' s s₁) : Placed s₁ guest id children := by
  obtain ⟨_, -, -, hch⟩ := hp.exists_element
  have hheld := heldAll_element tag attrs listeners children id
  have hnodup := List.nodup_cons.mp (hheld ▸ hp.nodup)
  refine ⟨ShownAll.frame guest (fun i hm => hset.frame i ?_) hch, hnodup.2, ?_, hnodup.1, ?_, ?_⟩
  · exact fun he => hnodup.1 (he ▸ hm)
  · rw [hset.size_eq]
    exact hp.lt_size (by simp [hheld])
  · rw [hset.size_eq]
    exact hp.guest_lt
  · exact fun i hm => hp.not_guest i (by simp [hheld, hm])

theorem Placed.subset_of_element {tag : String} {attrs attrs' : Dict String}
    {listeners : List Listener} {children : List VirtualNode}
    (hp : Placed s guest parent [.element tag attrs listeners children (some id)])
    (hset : Redressed id tag attrs attrs' s s₁) : flatten children ⊆ s₁.children id := by
  obtain ⟨n, hn, hk, -⟩ := hp.exists_element
  rw [Surface.children, hset.node?_eq n hn hk.kind_eq, ← hk.children_eq]
  exact List.filter_subset_self _

theorem Exchanged.of_element_old {tag : String} {attrs attrs' : Dict String}
    {listeners listeners' : List Listener} {children children' : List VirtualNode}
    (hp : Placed s guest parent [.element tag attrs' listeners' children' (some id)])
    (hset : Redressed id tag attrs' attrs s s₁)
    (h : Placed s₁ guest id children' → Exchanged guest id children' children s₁ s₂) :
    Exchanged guest parent [.element tag attrs' listeners' children' (some id)]
      [.element tag attrs listeners children (some id)] s
      (s₂.arrange id (flatten children') (flatten children)) := by
  obtain ⟨n, hn, hk, -⟩ := hp.exists_element
  have hpid : parent ≠ id ∧ parent ∉ heldAll children' := by
    have := hp.parent_not_mem
    rwa [heldAll_element, List.mem_cons, not_or] at this
  have hp₁ := hp.of_element hset
  have hn₁ := hset.node?_eq n hn hk.kind_eq
  have hx := (h hp₁).arrange hp₁ fun m hm => by
    rw [hn₁, Option.some.injEq] at hm
    rw [← hm]
    exact hk.children_eq
  generalize s₂.arrange id (flatten children') (flatten children) = s₃ at hx
  obtain ⟨order, hn₃, horder⟩ := hx.node?_parent _ hn₁
  -- Nothing but the element and what is in it has changed.
  have hframe : ∀ i < s.nodes.size, i ≠ id → i ∉ heldAll children' → s₃.node? i = s.node? i := by
    intro i hi hne hm
    rw [hx.frame i (by rw [hset.size_eq]; exact hi) hne hm, hset.frame i hne]
  refine ⟨?_, ?_, ?_, ?_, ?_, ?_⟩
  · rw [← hset.size_eq]
    exact hx.size_le
  · intro i hm
    rw [heldAll_element, List.mem_cons] at hm ⊢
    obtain rfl | hm := hm
    · exact Or.inl (Or.inl rfl)
    · rw [← hset.size_eq]
      exact (hx.origin i hm).imp_left Or.inr
  · rw [heldAll_element, List.nodup_cons]
    exact ⟨hx.placed.parent_not_mem, hx.placed.nodup⟩
  · intro i hi hip hm
    rw [heldAll_element, List.mem_cons, not_or] at hm
    exact hframe i hi hm.1 hm.2
  · rw [flatten_element, flatten_element, hframe parent hp.parent_lt hpid.1 hpid.2]
    simp [exchange_self]
  · rw [shownAll_singleton]
    exact ⟨id, _, rfl, hn₃, ⟨rfl, hk.parent_eq, horder⟩, hx.placed.shown⟩

theorem Exchanged.of_text_old {content content' : String}
    (hp : Placed s guest parent [.text content' (some id)]) :
    Exchanged guest parent [.text content' (some id)] [.text content (some id)] s
      (if content' = content then s else s.setText id content) := by
  obtain ⟨_, n, heq, hn, hk⟩ := shownAll_singleton.mp hp.shown
  cases heq
  have hne : parent ≠ id := fun he => hp.parent_not_mem (by simp [heldAll, held, he])
  have hset : ∀ i, (if content' = content then s else s.setText id content).node? i =
      if i = id then some { n with kind := .text content } else s.node? i := by
    intro i
    split
    · rename_i heq
      subst heq
      by_cases hi : i = id
      · rw [hi, if_pos rfl, hn, ← hk.kind_eq]
      · rw [if_neg hi]
    · rw [Surface.setText, Surface.node?_note, Surface.node?_modify, hn]
      simp [LiveNode.withText, hk.kind_eq]
  have hsize : (if content' = content then s else s.setText id content).nodes.size =
      s.nodes.size := by
    split
    · rfl
    · simp [Surface.setText]
  refine ⟨Nat.le_of_eq hsize.symm, ?_, ?_, ?_, ?_, ?_⟩
  · simp [heldAll, held]
  · simp [heldAll, held]
  · intro i _ _ hm
    rw [hset, if_neg (by simpa [heldAll, held] using hm)]
  · rw [hset, if_neg hne]
    simp [flatten, handles, exchange_self]
  · rw [shownAll_singleton]
    exact ⟨id, { n with kind := .text content }, rfl, by rw [hset, if_pos rfl], rfl, hk.parent_eq,
      hk.children_eq⟩

namespace VirtualNode

mutual

theorem bare_reconcile (e : Enumeration) : ∀ (next old : VirtualNode) (parent : NodeId)
    (s : Surface), (reconcile e parent old next s).1.bare = next.bare
  | text content live, old, parent, s => by
    unfold reconcile
    split
    · rfl
    · exact bare_paint _ _ _
  | element tag attrs listeners children live, old, parent, s => by
    unfold reconcile
    split
    · split
      · simp only [bare]
        rw [bareAll_reconcileAll e children]
      · exact bare_paint _ _ _
    · exact bare_paint _ _ _
  | fragment key shown children, old, parent, s => by
    unfold reconcile
    split
    · split
      · simp only [bare]
        rw [bareAll_reconcileAll e children]
      · exact bare_paint _ _ _
    · exact bare_paint _ _ _

theorem bareAll_reconcileAll (e : Enumeration) : ∀ (next : List VirtualNode) (m : Matching)
    (parent : NodeId) (s : Surface), bareAll (reconcileAll e parent m next s).1 = bareAll next
  | [], _, _, _ => by simp [reconcileAll]
  | node :: rest, m, parent, s => by
    unfold reconcileAll
    simp only [bareAll]
    rw [bareAll_reconcileAll e rest]
    split
    · rw [bare_reconcile e node]
    · rw [bare_paint]

end

mutual

/-- Reconciling a node puts it in the place of the previous one. -/
theorem exchanged_reconcile (e : Enumeration) : ∀ (next : VirtualNode) {old : VirtualNode}
    {parent : NodeId} {s : Surface}, Placed s guest parent [old] →
    Exchanged guest parent [old] [(reconcile e parent old next s).1] s
      (reconcile e parent old next s).2
  | text content live, old, parent, s, hp => by
    unfold reconcile
    split
    · exact Exchanged.of_text_old hp
    · exact exchanged_replace hp _
  | element tag attrs listeners children live, old, parent, s, hp => by
    unfold reconcile
    split
    · split
      · rename_i htag
        subst htag
        apply Exchanged.of_element_old hp (Surface.redressed_patch s _ _)
        intro hp₁
        have hx := exchanged_reconcileAll e children (m := Matching.start _ children)
          (by rw [Matching.nodes_start]; exact hp₁)
        rwa [Matching.nodes_start] at hx
      · exact exchanged_replace hp _
    · exact exchanged_replace hp _
  | fragment key shown children, old, parent, s, hp => by
    unfold reconcile
    split
    · split
      · have hp₁ : Placed s guest parent _ := hp.of_fragment
        have hx := exchanged_reconcileAll e children (m := Matching.start _ children)
          (by rw [Matching.nodes_start]; exact hp₁)
        rw [Matching.nodes_start] at hx
        exact hx.fragment_old.fragment_new
      · exact exchanged_replace hp _
    · exact exchanged_replace hp _

theorem exchanged_reconcileAll (e : Enumeration) : ∀ (next : List VirtualNode) {m : Matching}
    {parent : NodeId} {s : Surface}, Placed s guest parent m.nodes →
    Exchanged guest parent m.nodes (reconcileAll e parent m next s).1 s
      (reconcileAll e parent m next s).2
  | [], m, parent, s, hp => by
    unfold reconcileAll
    have hperm := m.stale_perm e
    exact (exchanged_tearDown (hp.perm hperm.symm)).congr_old hperm
  | node :: rest, m, parent, s, hp => by
    unfold reconcileAll
    rcases ht : m.take node with ⟨_ | old, m'⟩
    · have hnodes := Matching.nodes_of_take ht
      rw [← hnodes] at hp ⊢
      have hx := exchanged_paint node hp.nil
      exact hx.append (exchanged_reconcileAll e rest (hx.placed hp).right) hp
    · have hperm := Matching.perm_of_take ht
      have hp' := hp.perm hperm
      have hold : Placed s guest parent [old] := Placed.left (show Placed _ _ _ ([old] ++ _) from hp')
      have hx := exchanged_reconcile e node hold
      have hr := exchanged_reconcileAll e rest (m := m') (hx.placed hp').right
      exact (hx.append hr hp').congr_old hperm.symm

end

end VirtualNode

end ReactiveView
