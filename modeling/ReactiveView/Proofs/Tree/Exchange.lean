import Mathlib.Data.List.Nodup
import ReactiveView.Proofs.Tree.Shown

namespace ReactiveView

open VirtualNode

/-- The children of a parent after some of its nodes were exchanged for others. -/
def exchange (old new children : List NodeId) : List NodeId :=
  children.filter (fun id => id ∉ old ∨ id ∈ new) ++ new.filter (· ∉ old)

theorem exchange_exchange {old old' new new' : List NodeId} (children : List NodeId)
    (ho : old.Disjoint old') (hn : new.Disjoint old') (hn' : new'.Disjoint old) :
    exchange old' new' (exchange old new children) =
      exchange (old ++ old') (new ++ new') children := by
  have hc : ∀ id ∈ children, (decide (id ∉ old ∨ id ∈ new) && decide (id ∉ old' ∨ id ∈ new')) =
      decide (id ∉ old ++ old' ∨ id ∈ new ++ new') := by
    intro id _
    have h1 := @ho id
    have h2 := @hn id
    have h3 := @hn' id
    by_cases ha : id ∈ old <;> by_cases hb : id ∈ old' <;> by_cases hd : id ∈ new <;>
      by_cases he : id ∈ new' <;> simp_all
  have hl : ∀ id ∈ new, (decide (id ∉ old) && decide (id ∉ old' ∨ id ∈ new')) =
      decide (id ∉ old ++ old') := by
    intro id hm
    have hm' : id ∉ old' := fun ho => hn hm ho
    simp [hm']
  have hr : ∀ id ∈ new', decide (id ∉ old') = decide (id ∉ old ++ old') := by
    intro id hm
    have hm' : id ∉ old := fun ho => hn' hm ho
    simp [hm']
  simp only [exchange, List.filter_append, List.filter_filter]
  rw [List.filter_congr (fun id hm => (Bool.and_comm _ _).trans (hc id hm)),
    List.filter_congr (fun id hm => (Bool.and_comm _ _).trans (hl id hm)),
    List.filter_congr hr, List.append_assoc]

theorem exchange_congr {old old' : List NodeId} (h : ∀ id, id ∈ old ↔ id ∈ old')
    (new children : List NodeId) : exchange old new children = exchange old' new children := by
  simp only [exchange, h]

theorem exchange_self (ids children : List NodeId) : exchange ids ids children = children := by
  have h : ∀ id ∈ children, decide (id ∉ ids ∨ id ∈ ids) = true := fun id _ => by
    by_cases hm : id ∈ ids <;> simp [hm]
  have hn : ∀ id ∈ ids, ¬ decide (id ∉ ids) = true := fun id hm => by simp [hm]
  rw [exchange, List.filter_eq_self.mpr h, List.filter_eq_nil_iff.mpr hn, List.append_nil]

/-- A surface shows nodes under a parent that is not among them, each under a handle of its own. -/
structure Placed (s : Surface) (guest : NodeId → Bool) (parent : NodeId)
    (nodes : List VirtualNode) : Prop where
  shown : ShownAll s guest parent nodes
  nodup : (heldAll nodes).Nodup
  parent_lt : parent < s.nodes.size
  parent_not_mem : parent ∉ heldAll nodes
  guest_lt : ∀ id, guest id = true → id < s.nodes.size
  not_guest : ∀ id ∈ heldAll nodes, guest id = false

/-- The nodes of a parent that were exchanged for others, with what became of the surface. The
handles that are new are those of nodes made since. Painting, tearing down and matching all are
exchanges, and two of them on different nodes of one parent are one. -/
structure Exchanged (guest : NodeId → Bool) (parent : NodeId) (old new : List VirtualNode)
    (s s' : Surface) : Prop where
  size_le : s.nodes.size ≤ s'.nodes.size
  origin : ∀ id ∈ heldAll new, id ∈ heldAll old ∨ s.nodes.size ≤ id
  nodup : (heldAll new).Nodup
  frame : ∀ id < s.nodes.size, id ≠ parent → id ∉ heldAll old → s'.node? id = s.node? id
  node?_parent : s'.node? parent = (s.node? parent).map fun n =>
    { n with children := exchange (flatten old) (flatten new) n.children }
  shown : ShownAll s' guest parent new

variable {s s₁ s₂ : Surface} {guest : NodeId → Bool} {parent : NodeId}
  {nodes more old new old' new' : List VirtualNode}

namespace Placed

theorem lt_size (h : Placed s guest parent nodes) {id : NodeId} (hm : id ∈ heldAll nodes) :
    id < s.nodes.size := ShownAll.lt_size h.shown hm

theorem perm (h : Placed s guest parent nodes) (hp : nodes.Perm more) :
    Placed s guest parent more where
  shown := (shownAll_perm hp).mp h.shown
  nodup := (heldAll_perm hp).nodup_iff.mp h.nodup
  parent_lt := h.parent_lt
  parent_not_mem := fun hm => h.parent_not_mem ((heldAll_perm hp).mem_iff.mpr hm)
  guest_lt := h.guest_lt
  not_guest := fun id hm => h.not_guest id ((heldAll_perm hp).mem_iff.mpr hm)

theorem left (h : Placed s guest parent (nodes ++ more)) : Placed s guest parent nodes where
  shown := (shownAll_append.mp h.shown).1
  nodup := (List.nodup_append.mp (heldAll_append .. ▸ h.nodup)).1
  parent_lt := h.parent_lt
  parent_not_mem := fun hm => h.parent_not_mem (by simp [heldAll_append, hm])
  guest_lt := h.guest_lt
  not_guest := fun id hm => h.not_guest id (by simp [heldAll_append, hm])

theorem disjoint (h : Placed s guest parent (nodes ++ more)) :
    (heldAll nodes).Disjoint (heldAll more) :=
  List.disjoint_of_nodup_append (heldAll_append .. ▸ h.nodup)

theorem right (h : Placed s guest parent (nodes ++ more)) : Placed s guest parent more :=
  (h.perm List.perm_append_comm).left

theorem of_fragment {key : FragmentKey} {shown : Bool}
    (h : Placed s guest parent [.fragment key shown nodes]) : Placed s guest parent nodes where
  shown := (shownAll_fragment key shown).mp h.shown
  nodup := heldAll_fragment key shown nodes ▸ h.nodup
  parent_lt := h.parent_lt
  parent_not_mem := heldAll_fragment key shown nodes ▸ h.parent_not_mem
  guest_lt := h.guest_lt
  not_guest := heldAll_fragment key shown nodes ▸ h.not_guest

theorem nil (h : Placed s guest parent nodes) : Placed s guest parent [] :=
  left (show Placed s guest parent ([] ++ nodes) from h)

end Placed

namespace Exchanged

theorem congr_old (h : Exchanged guest parent old new s s₁) (hp : old.Perm old') :
    Exchanged guest parent old' new s s₁ where
  size_le := h.size_le
  origin := fun id hm => (h.origin id hm).imp_left (heldAll_perm hp).mem_iff.mp
  nodup := h.nodup
  frame := fun id hl hne hm =>
    h.frame id hl hne fun hm' => hm ((heldAll_perm hp).mem_iff.mp hm')
  node?_parent := by
    rw [h.node?_parent]
    simp only [exchange_congr fun id => (flatten_perm hp).mem_iff]
  shown := h.shown

theorem fragment_old {key : FragmentKey} {shown : Bool}
    (h : Exchanged guest parent old new s s₁) :
    Exchanged guest parent [.fragment key shown old] new s s₁ where
  size_le := h.size_le
  origin := by rw [heldAll_fragment]; exact h.origin
  nodup := h.nodup
  frame := by rw [heldAll_fragment]; exact h.frame
  node?_parent := by rw [flatten_fragment]; exact h.node?_parent
  shown := h.shown

theorem fragment_new {key : FragmentKey} {shown : Bool}
    (h : Exchanged guest parent old new s s₁) :
    Exchanged guest parent old [.fragment key shown new] s s₁ where
  size_le := h.size_le
  origin := by rw [heldAll_fragment]; exact h.origin
  nodup := by rw [heldAll_fragment]; exact h.nodup
  frame := h.frame
  node?_parent := by rw [flatten_fragment]; exact h.node?_parent
  shown := (shownAll_fragment key shown).mpr h.shown

theorem lt_size (h : Exchanged guest parent old new s s₁) {id : NodeId} (hm : id ∈ heldAll new) :
    id < s₁.nodes.size := ShownAll.lt_size h.shown hm

theorem not_mem (h : Exchanged guest parent old new s s₁) {id : NodeId} (hl : id < s.nodes.size)
    (hm : id ∉ heldAll old) : id ∉ heldAll new := fun hn =>
  (h.origin id hn).elim hm fun hs => Nat.lt_irrefl _ (Nat.lt_of_lt_of_le hl hs)

theorem placed (h : Exchanged guest parent old new s s₁)
    (hp : Placed s guest parent (old ++ more)) : Placed s₁ guest parent (new ++ more) where
  shown := by
    refine shownAll_append.mpr ⟨h.shown, ShownAll.frame guest (fun id hm => ?_) hp.right.shown⟩
    refine h.frame id (hp.right.lt_size hm) ?_ fun hm' => hp.disjoint hm' hm
    rintro rfl
    exact hp.right.parent_not_mem hm
  nodup := by
    rw [heldAll_append, List.nodup_append']
    refine ⟨h.nodup, hp.right.nodup, fun id hm hm' => ?_⟩
    exact h.not_mem (hp.right.lt_size hm') (fun ho => hp.disjoint ho hm') hm
  parent_lt := Nat.lt_of_lt_of_le hp.parent_lt h.size_le
  parent_not_mem := by
    rw [heldAll_append, List.mem_append, not_or]
    exact ⟨h.not_mem hp.parent_lt hp.left.parent_not_mem, hp.right.parent_not_mem⟩
  guest_lt := fun id hg => Nat.lt_of_lt_of_le (hp.guest_lt id hg) h.size_le
  not_guest := by
    intro id hm
    rw [heldAll_append, List.mem_append] at hm
    obtain hm | hm := hm
    · apply (h.origin id hm).elim (hp.left.not_guest id)
      intro hs
      apply Bool.eq_false_iff.mpr
      intro hg
      exact Nat.lt_irrefl _ (Nat.lt_of_lt_of_le (hp.guest_lt id hg) hs)
    · exact hp.right.not_guest id hm

theorem placed_new (h : Exchanged guest parent old new s s₁) (hp : Placed s guest parent old) :
    Placed s₁ guest parent new := by
  have hx := h.placed (by rwa [List.append_nil])
  rwa [List.append_nil] at hx

theorem append (h : Exchanged guest parent old new s s₁)
    (h' : Exchanged guest parent old' new' s₁ s₂) (hp : Placed s guest parent (old ++ old')) :
    Exchanged guest parent (old ++ old') (new ++ new') s s₂ := by
  have hp₁ := h.placed hp
  have hsub := fun {id : NodeId} (nodes : List VirtualNode) (hm : id ∈ flatten nodes) =>
    (flatten_sublist_heldAll nodes).subset hm
  -- What the second exchange brings in was made after the first one, or it was in its own place.
  have hnew : (heldAll new').Disjoint (heldAll old) := fun id hm ho =>
    h'.not_mem (Nat.lt_of_lt_of_le (hp.left.lt_size ho) h.size_le) (hp.disjoint ho) hm
  refine ⟨Nat.le_trans h.size_le h'.size_le, ?_, ?_, ?_, ?_, ?_⟩
  · intro id hm
    rw [heldAll_append, List.mem_append] at hm ⊢
    obtain hm | hm := hm
    · exact (h.origin id hm).imp_left Or.inl
    · exact (h'.origin id hm).imp Or.inr (Nat.le_trans h.size_le)
  · rw [heldAll_append, List.nodup_append']
    exact ⟨h.nodup, h'.nodup, fun id hm hm' =>
      h'.not_mem (h.lt_size hm) (hp₁.disjoint hm) hm'⟩
  · intro id hl hne hm
    rw [heldAll_append, List.mem_append, not_or] at hm
    rw [h'.frame id (Nat.lt_of_lt_of_le hl h.size_le) hne hm.2, h.frame id hl hne hm.1]
  · have ho : (flatten old).Disjoint (flatten old') := fun id hm hm' =>
      hp.disjoint (hsub old hm) (hsub old' hm')
    have hn : (flatten new).Disjoint (flatten old') := fun id hm hm' =>
      hp₁.disjoint (hsub new hm) (hsub old' hm')
    have hn' : (flatten new').Disjoint (flatten old) := fun id hm hm' =>
      hnew (hsub new' hm) (hsub old hm')
    have hx := fun children => exchange_exchange children ho hn hn'
    rw [h'.node?_parent, h.node?_parent, Option.map_map]
    simp only [Function.comp_def, hx, flatten_append]
  · refine shownAll_append.mpr ⟨ShownAll.frame guest (fun id hm => ?_) h.shown, h'.shown⟩
    refine h'.frame id (h.lt_size hm) ?_ (hp₁.disjoint hm)
    rintro rfl
    exact hp₁.left.parent_not_mem hm

theorem subset_children (h : Exchanged guest parent old new s s₁)
    (hp : Placed s guest parent (old ++ more)) (hc : flatten (old ++ more) ⊆ s.children parent) :
    flatten more ⊆ s₁.children parent := by
  intro id hm
  obtain ⟨n, hn⟩ := s.exists_node? _ hp.parent_lt
  have hn₁ := h.node?_parent
  rw [hn, Option.map_some] at hn₁
  have hold : id ∉ flatten old := fun ho => hp.disjoint ((flatten_sublist_heldAll old).subset ho)
    ((flatten_sublist_heldAll more).subset hm)
  have hid : id ∈ s.children parent := hc (by rw [flatten_append]; exact List.mem_append_right _ hm)
  simp only [Surface.children, hn] at hid
  simp only [Surface.children, hn₁, exchange, List.mem_append, List.mem_filter]
  exact Or.inl ⟨hid, by simpa using Or.inl hold⟩

end Exchanged

end ReactiveView
