import ReactiveView.Proofs.Tree.Attributes
import ReactiveView.Proofs.Tree.Exchange

namespace ReactiveView

open VirtualNode

namespace VirtualNode

mutual

theorem bare_paint : ∀ (node : VirtualNode) (parent : NodeId) (s : Surface),
    (node.paint parent s).1.bare = node.bare
  | element tag attrs listeners children _, parent, s => by
    simp only [paint, bare]
    rw [bareAll_paintAll children]
  | text _ _, _, _ => rfl
  | fragment _ _ children, parent, s => by
    simp only [paint, bare]
    rw [bareAll_paintAll children]

theorem bareAll_paintAll : ∀ (nodes : List VirtualNode) (parent : NodeId) (s : Surface),
    bareAll (paintAll parent nodes s).1 = bareAll nodes
  | [], _, _ => rfl
  | node :: rest, parent, s => by
    simp only [paintAll, bareAll]
    rw [bare_paint node, bareAll_paintAll rest]

end

end VirtualNode

variable {s s₁ s₂ : Surface} {guest : NodeId → Bool} {parent id : NodeId}

theorem exchange_nil (new children : List NodeId) : exchange [] new children = children ++ new := by
  simp [exchange]

theorem Exchanged.of_element {tag : String} {attrs : Dict String} {listeners : List Listener}
    {children : List VirtualNode} (hp : Placed s guest parent [])
    (hsize : s₁.nodes.size = s.nodes.size + 1)
    (hold : ∀ i, i ≠ s.nodes.size → s₁.node? i = s.node? i)
    (hnew : s₁.node? s.nodes.size = some ⟨.element tag attrs, none, [], []⟩)
    (h : Placed s₁ guest s.nodes.size [] → Exchanged guest s.nodes.size [] children s₁ s₂) :
    Exchanged guest parent [] [.element tag attrs listeners children (some s.nodes.size)] s
      (s₂.append parent s.nodes.size) := by
  have hne : parent ≠ s.nodes.size := Nat.ne_of_lt hp.parent_lt
  have hlt : s.nodes.size < s₁.nodes.size := by omega
  have hp₁ : Placed s₁ guest s.nodes.size [] :=
    ⟨trivial, by simp, hlt, by simp, fun id hg => Nat.lt_trans (hp.guest_lt id hg) hlt, by simp⟩
  have hx := h hp₁
  have hch := hx.placed_new hp₁
  have hin : ∀ i ∈ heldAll children, s.nodes.size < i := fun i hm =>
    Nat.lt_of_lt_of_le hlt ((hx.origin i hm).resolve_left (by simp))
  have hnode : s₂.node? s.nodes.size = some ⟨.element tag attrs, none, flatten children, []⟩ := by
    rw [hx.node?_parent, hnew]
    simp [exchange_nil]
  have hpar : s₂.parent? s.nodes.size = none := by simp [Surface.parent?, hnode]
  have happ := fun i => s₂.node?_append i parent s.nodes.size hpar hne
  have hbefore : ∀ i < s.nodes.size, s₂.node? i = s.node? i := fun i hi => by
    rw [hx.frame i (Nat.lt_trans hi hlt) (Nat.ne_of_lt hi) (by simp), hold i (Nat.ne_of_lt hi)]
  refine ⟨?_, ?_, ?_, ?_, ?_, ?_⟩
  · rw [Surface.append, Surface.size_insertBefore]
    exact Nat.le_trans (Nat.le_of_lt hlt) hx.size_le
  · intro i hm
    rw [heldAll_element, List.mem_cons] at hm
    obtain rfl | hm := hm
    · exact Or.inr (Nat.le_refl _)
    · exact Or.inr (Nat.le_of_lt (hin i hm))
  · rw [heldAll_element, List.nodup_cons]
    exact ⟨fun hm => Nat.lt_irrefl _ (hin _ hm), hx.nodup⟩
  · intro i hi hip _
    rw [happ, if_neg (Nat.ne_of_lt hi), if_neg hip, hbefore i hi]
  · rw [happ, if_neg hne, if_pos rfl, hbefore parent hp.parent_lt]
    simp [flatten, handles, exchange_nil]
  · rw [shownAll_singleton]
    refine ⟨s.nodes.size, _, rfl, by rw [happ, if_pos rfl, hnode, Option.map_some],
      ⟨rfl, rfl, ?_⟩, ShownAll.frame guest (fun i hm => ?_) hx.shown⟩
    · exact List.filter_eq_self.mpr fun i hm => by
        simp [hch.not_guest i ((flatten_sublist_heldAll children).subset hm)]
    · have hi := hin i hm
      have hip : i ≠ parent := Nat.ne_of_gt (Nat.lt_trans hp.parent_lt hi)
      rw [happ, if_neg (Nat.ne_of_gt hi), if_neg hip]

theorem Exchanged.of_text {content : String} (hp : Placed s guest parent [])
    (hsize : s₁.nodes.size = s.nodes.size + 1)
    (hold : ∀ i, i ≠ s.nodes.size → s₁.node? i = s.node? i)
    (hnew : s₁.node? s.nodes.size = some ⟨.text content, none, [], []⟩) :
    Exchanged guest parent [] [.text content (some s.nodes.size)] s
      (s₁.append parent s.nodes.size) := by
  have hne : parent ≠ s.nodes.size := Nat.ne_of_lt hp.parent_lt
  have hpar : s₁.parent? s.nodes.size = none := by simp [Surface.parent?, hnew]
  have happ := fun i => s₁.node?_append i parent s.nodes.size hpar hne
  refine ⟨?_, ?_, ?_, ?_, ?_, ?_⟩
  · rw [Surface.append, Surface.size_insertBefore, hsize]
    exact Nat.le_succ _
  · simp [heldAll, held]
  · simp [heldAll, held]
  · intro i hi hip _
    rw [happ, if_neg (Nat.ne_of_lt hi), if_neg hip, hold i (Nat.ne_of_lt hi)]
  · rw [happ, if_neg hne, if_pos rfl, hold parent hne]
    simp [flatten, handles, exchange_nil]
  · rw [shownAll_singleton]
    exact ⟨s.nodes.size, _, rfl, by rw [happ, if_pos rfl, hnew, Option.map_some], rfl, rfl, rfl⟩

theorem Exchanged.none (guest : NodeId → Bool) (parent : NodeId) (s : Surface) :
    Exchanged guest parent [] [] s s where
  size_le := Nat.le_refl _
  origin := by simp
  nodup := by simp
  frame := fun _ _ _ _ => rfl
  node?_parent := by simp [exchange_nil]
  shown := trivial

namespace VirtualNode

theorem paint_element (tag : String) (attrs : Dict String) (listeners : List Listener)
    (children : List VirtualNode) (live : Option NodeId) (parent : NodeId) (s : Surface) :
    (element tag attrs listeners children live).paint parent s =
      (element tag attrs listeners
        (paintAll s.nodes.size children (attrs.entries.foldl
          (fun t a => t.setAttribute s.nodes.size a.1 a.2) (s.createElement tag).2)).1
        (some s.nodes.size),
      (paintAll s.nodes.size children (attrs.entries.foldl
        (fun t a => t.setAttribute s.nodes.size a.1 a.2) (s.createElement tag).2)).2.append parent
        s.nodes.size) := rfl

mutual

/-- Painting a node puts it last under its parent. -/
theorem exchanged_paint : ∀ (node : VirtualNode) {parent : NodeId} {s : Surface},
    Placed s guest parent [] →
    Exchanged guest parent [] [(node.paint parent s).1] s (node.paint parent s).2
  | element tag attrs listeners children live, parent, s, hp => by
    rw [paint_element]
    have hset : Redressed s.nodes.size tag Dict.empty attrs (s.createElement tag).2 _ :=
      Surface.redressed_setAll _ attrs
    refine Exchanged.of_element hp ?_ ?_ ?_ fun hp₁ => exchanged_paintAll children hp₁
    · rw [hset.size_eq, Surface.size_createElement]
    · intro i hi
      rw [hset.frame i hi, Surface.node?_createElement, if_neg hi]
    · rw [hset.node?_eq _ (by rw [Surface.node?_createElement, if_pos rfl]) rfl]
  | text content _, parent, s, hp => by
    have hold : ∀ i, i ≠ s.nodes.size → (s.createText content).2.node? i = s.node? i := by
      intro i hi
      rw [Surface.node?_createText, if_neg hi]
    have hnew : (s.createText content).2.node? s.nodes.size = some ⟨.text content, none, [], []⟩ := by
      rw [Surface.node?_createText, if_pos rfl]
    exact Exchanged.of_text hp (s.size_createText content) hold hnew
  | fragment key shown children, parent, s, hp => (exchanged_paintAll children hp).fragment_new

theorem exchanged_paintAll : ∀ (nodes : List VirtualNode) {parent : NodeId} {s : Surface},
    Placed s guest parent [] →
    Exchanged guest parent [] (paintAll parent nodes s).1 s (paintAll parent nodes s).2
  | [], parent, s, _ => Exchanged.none guest parent s
  | node :: rest, parent, s, hp => by
    have hx := exchanged_paint node hp
    have hr := exchanged_paintAll rest (hx.placed_new hp).nil
    exact hx.append hr hp

end

end VirtualNode

theorem node?_foldl_removeChild {ids : List NodeId} {s : Surface}
    (hpar : ∀ id ∈ ids, s.parent? id = some parent) (hn : ids.Nodup) (hne : parent ∉ ids) :
    (ids.foldl (fun s id => s.removeChild parent id) s).nodes.size = s.nodes.size ∧
    (∀ i ∉ ids, i ≠ parent →
      (ids.foldl (fun s id => s.removeChild parent id) s).node? i = s.node? i) ∧
    (ids.foldl (fun s id => s.removeChild parent id) s).node? parent = (s.node? parent).map fun n =>
      { n with children := n.children.filter (· ∉ ids) } := by
  induction ids generalizing s with
  | nil => simp
  | cons id rest ih =>
    have hn' := List.nodup_cons.mp hn
    have hip : parent ≠ id := fun h => hne (by simp [h])
    have hrm := fun i => s.node?_removeChild i parent id (hpar id (by simp)) hip
    have hpar' : ∀ i ∈ rest, (s.removeChild parent id).parent? i = some parent := by
      intro i hi
      have hii : i ≠ id := fun h => hn'.1 (h ▸ hi)
      have hiq : i ≠ parent := fun h => hne (by simp [← h, hi])
      rw [Surface.parent?, hrm, if_neg hii, if_neg hiq]
      exact hpar i (by simp [hi])
    obtain ⟨hs, hf, hp⟩ := ih hpar' hn'.2 fun h => hne (by simp [h])
    refine ⟨?_, ?_, ?_⟩
    · rw [List.foldl_cons, hs, Surface.size_removeChild]
    · intro i hi hiq
      simp only [List.mem_cons, not_or] at hi
      rw [List.foldl_cons, hf i hi.2 hiq, hrm, if_neg hi.1, if_neg hiq]
    · rw [List.foldl_cons, hp, hrm, if_neg hip, if_pos rfl, Option.map_map]
      simp only [Function.comp_def, List.filter_filter, List.mem_cons, not_or,
        Bool.decide_and, Bool.and_comm, ne_eq]

theorem exchanged_tearDown {nodes : List VirtualNode} (hp : Placed s guest parent nodes) :
    Exchanged guest parent nodes [] s (tearDown parent nodes s) := by
  have hsub := flatten_sublist_heldAll nodes
  obtain ⟨hs, hf, hpar⟩ := node?_foldl_removeChild (s := s)
    (fun id hm => ShownAll.parent? hp.shown hm) (hp.nodup.sublist hsub)
    fun hm => hp.parent_not_mem (hsub.subset hm)
  refine ⟨Nat.le_of_eq hs.symm, by simp, by simp, ?_, ?_, trivial⟩
  · intro i _ hi hm
    exact hf i (fun h => hm (hsub.subset h)) hi
  · rw [tearDown, hpar]
    simp [exchange]

theorem exchanged_replace {old : VirtualNode} (hp : Placed s guest parent [old])
    (next : VirtualNode) :
    Exchanged guest parent [old] [(old.replace parent next s).1] s (old.replace parent next s).2 := by
  have hdown := exchanged_tearDown hp
  have hpaint := exchanged_paint next (hdown.placed_new hp)
  exact hdown.append hpaint hp

end ReactiveView
