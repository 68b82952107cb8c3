import Mathlib.Logic.Relation
import ReactiveView.Proofs.Tree.Calls
import ReactiveView.Proofs.Tree.Painted
import ReactiveView.Proofs.Tree.Shape

namespace ReactiveView

variable {s s₁ s₂ : Surface} {guest : NodeId → Bool} {parent : NodeId}

namespace Surface

/-- Each call that removes a node takes it from a parent whose child it is at that moment. -/
def RemovesChildren (s : Surface) (ops : List Op) : Prop :=
  ∀ before parent child after, ops = before ++ .remove parent child :: after →
    child ∈ (s.performAll before).children parent

theorem Changes.removesChildren {ops : List Op} {made : List NodeId} (h : s.Changes ops made [] s₁) :
    s.RemovesChildren ops := fun before parent child after heq => by
  have hm : Op.remove parent child ∈ ops := heq ▸ List.mem_append_right _ List.mem_cons_self
  have hnone := List.filterMap_eq_nil_iff.mp h.gone_eq _ hm
  cases hnone

theorem RemovesChildren.append {ops more : List Op} (h : s.RemovesChildren ops)
    (hd : s.Does ops s₁) (h' : s₁.RemovesChildren more) : s.RemovesChildren (ops ++ more) := by
  intro before parent child after heq
  obtain ⟨mid, rfl, hmore⟩ | ⟨mid, hops, hmore⟩ := List.append_eq_append_iff.mp heq
  · rw [performAll_append, hd.performAll_eq]
    exact h' mid parent child after hmore
  · cases mid with
    | nil =>
      rw [List.append_nil] at hops
      rw [← hops, hd.performAll_eq]
      exact h' [] parent child after hmore.symm
    | cons op mid =>
      obtain ⟨rfl, rfl⟩ := List.cons.inj hmore
      exact h before parent child mid hops

theorem RemovesChildren.cons {op : Op} {more : List Op}
    (h : ∀ parent child, op = .remove parent child → child ∈ s.children parent)
    (h' : (s.perform op).RemovesChildren more) : s.RemovesChildren (op :: more) := by
  intro before parent child after heq
  cases before with
  | nil =>
    obtain ⟨rfl, -⟩ := List.cons.inj heq
    exact h parent child rfl
  | cons first before =>
    obtain ⟨rfl, hmore⟩ := List.cons.inj heq
    exact h' before parent child after hmore

theorem removesChildren_map {ids : List NodeId} (hn : ids.Nodup) (hc : ids ⊆ s.children parent)
    (hp : ∀ id ∈ ids, s.parent? id = some parent) (hne : parent ∉ ids) :
    s.RemovesChildren (ids.map (.remove parent)) := by
  induction ids generalizing s with
  | nil =>
    intro before p child after heq
    cases before <;> cases heq
  | cons id rest ih =>
    obtain ⟨hid, hrest⟩ := List.nodup_cons.mp hn
    have hparent := hp id List.mem_cons_self
    have hip : parent ≠ id := fun h => hne (by simp [h])
    have hother : ∀ i ∈ rest, i ≠ id := fun i hi h => hid (h ▸ hi)
    -- Removing the first one leaves the others where they are.
    refine RemovesChildren.cons ?_ (ih hrest (fun i hi => ?_) (fun i hi => ?_) ?_)
    · rintro _ _ ⟨⟩
      exact hc List.mem_cons_self
    · rw [perform, children_removeChild s parent id hparent]
      exact List.mem_filter.mpr ⟨hc (List.mem_cons_of_mem _ hi), by simpa using hother i hi⟩
    · have hiq : i ≠ parent := fun h => hne (by simp [← h, hi])
      rw [perform, Surface.parent?, s.node?_removeChild i parent id hparent hip,
        if_neg (hother i hi), if_neg hiq]
      exact hp i (List.mem_cons_of_mem _ hi)
    · exact fun h => hne (List.mem_cons_of_mem _ h)

end Surface

namespace VirtualNode

/-- Nodes that were exchanged for others, with what the calls did to live nodes: those made are
the ones held since, those removed were held before and no longer are, and a node that is still
held is held by a node of its kind. -/
structure Traded (old new : List VirtualNode) (s : Surface) (ops : List Op) (s' : Surface) :
    Prop where
  does : s.Does ops s'
  removesChildren : s.RemovesChildren ops
  created_eq : ops.filterMap Op.created? = (heldAll new).filter (s.nodes.size ≤ ·)
  removed_nodup : (ops.filterMap Op.removed?).Nodup
  removed_subset : ops.filterMap Op.removed? ⊆ heldAll old
  removed_disjoint : (ops.filterMap Op.removed?).Disjoint (heldAll new)
  kind_eq : ∀ n ∈ walkAll new, ∀ id < s.nodes.size, n.live? = some id →
    ∃ m ∈ walkAll old, m.live? = some id ∧ m.kind = n.kind

namespace Traded

variable {old new old' new' : List VirtualNode} {ops more : List Op}

theorem congr_old (h : Traded old new s ops s₁) (hp : old.Perm old') : Traded old' new s ops s₁ where
  does := h.does
  removesChildren := h.removesChildren
  created_eq := h.created_eq
  removed_nodup := h.removed_nodup
  removed_subset := fun _ hm => (heldAll_perm hp).mem_iff.mp (h.removed_subset hm)
  removed_disjoint := h.removed_disjoint
  kind_eq := fun n hn id hid hl => by
    obtain ⟨m, hm, hml⟩ := h.kind_eq n hn id hid hl
    rw [walkAll_eq_flatMap] at hm ⊢
    exact ⟨m, (hp.flatMap_right walk).mem_iff.mp hm, hml⟩

theorem append (h : Traded old new s ops s₁) (h' : Traded old' new' s₁ more s₂)
    (hx : Exchanged guest parent old new s s₁) (hx' : Exchanged guest parent old' new' s₁ s₂)
    (hp : Placed s guest parent (old ++ old')) :
    Traded (old ++ old') (new ++ new') s (ops ++ more) s₂ := by
  have hlt : ∀ id ∈ heldAll old', id < s.nodes.size := fun id hm => hp.right.lt_size hm
  -- What the second exchange keeps was there before the first, so new to it is new to both.
  have hnew : ∀ id ∈ heldAll new', s₁.nodes.size ≤ id ↔ s.nodes.size ≤ id := fun id hm => by
    refine ⟨Nat.le_trans hx.size_le, fun hs => (hx'.origin id hm).resolve_left fun ho => ?_⟩
    exact Nat.lt_irrefl _ (Nat.lt_of_lt_of_le (hlt id ho) hs)
  refine ⟨h.does.trans h'.does, h.removesChildren.append h.does h'.removesChildren, ?_, ?_, ?_, ?_, ?_⟩
  · rw [List.filterMap_append, h.created_eq, h'.created_eq, heldAll_append, List.filter_append]
    simp only [List.append_cancel_left_eq]
    exact List.filter_congr fun id hm => by simp only [hnew id hm]
  · rw [List.filterMap_append, List.nodup_append']
    exact ⟨h.removed_nodup, h'.removed_nodup, fun id hm hm' =>
      hp.disjoint (h.removed_subset hm) (h'.removed_subset hm')⟩
  · rw [List.filterMap_append, heldAll_append]
    exact List.append_subset.mpr ⟨List.Subset.trans h.removed_subset (List.subset_append_left _ _),
      List.Subset.trans h'.removed_subset (List.subset_append_right _ _)⟩
  · intro id hm hn
    rw [List.filterMap_append, List.mem_append] at hm
    rw [heldAll_append, List.mem_append] at hn
    obtain hm | hm := hm <;> obtain hn | hn := hn
    · exact h.removed_disjoint hm hn
    · have hold := h.removed_subset hm
      exact hx'.not_mem (Nat.lt_of_lt_of_le (hp.left.lt_size hold) hx.size_le) (hp.disjoint hold) hn
    · have hold := h'.removed_subset hm
      exact hx.not_mem (hlt id hold) (fun ho => hp.disjoint ho hold) hn
    · exact h'.removed_disjoint hm hn
  · intro n hn id hid hl
    rw [walkAll_append, List.mem_append] at hn
    simp only [walkAll_append, List.mem_append]
    obtain hn | hn := hn
    · obtain ⟨m, hm, hml⟩ := h.kind_eq n hn id hid hl
      exact ⟨m, Or.inl hm, hml⟩
    · obtain ⟨m, hm, hml⟩ := h'.kind_eq n hn id (Nat.lt_of_lt_of_le hid hx.size_le) hl
      exact ⟨m, Or.inr hm, hml⟩

theorem fragment {key key' : FragmentKey} {shown shown' : Bool} (h : Traded old new s ops s₁) :
    Traded [.fragment key shown old] [.fragment key' shown' new] s ops s₁ where
  does := h.does
  removesChildren := h.removesChildren
  created_eq := by rw [heldAll_fragment]; exact h.created_eq
  removed_nodup := h.removed_nodup
  removed_subset := by rw [heldAll_fragment]; exact h.removed_subset
  removed_disjoint := by rw [heldAll_fragment]; exact h.removed_disjoint
  kind_eq := fun n hn id hid hl => by
    rw [walkAll_singleton, walk, List.mem_cons] at hn
    obtain rfl | hn := hn
    · cases hl
    · obtain ⟨m, hm, hml⟩ := h.kind_eq n hn id hid hl
      rw [walkAll_singleton, walk]
      exact ⟨m, List.mem_cons_of_mem _ hm, hml⟩

theorem of_changes (h : s.Changes ops ((heldAll new).filter (s.nodes.size ≤ ·)) [] s₁)
    (hk : ∀ n ∈ walkAll new, ∀ id < s.nodes.size, n.live? = some id →
      ∃ m ∈ walkAll old, m.live? = some id ∧ m.kind = n.kind) : Traded old new s ops s₁ where
  does := h.does
  removesChildren := h.removesChildren
  created_eq := h.made_eq
  removed_nodup := h.gone_eq ▸ List.nodup_nil
  removed_subset := h.gone_eq ▸ List.nil_subset _
  removed_disjoint := h.gone_eq ▸ List.disjoint_nil_left _
  kind_eq := hk

theorem text {id : NodeId} {shown content : String}
    (hp : Placed s guest parent [.text shown (some id)]) :
    ∃ ops, Traded [.text shown (some id)] [.text content (some id)] s ops
      (if shown = content then s else s.setText id content) := by
  obtain ⟨ops, hops⟩ := Surface.exists_changes_setText s id shown content
  have hid : id < s.nodes.size := hp.lt_size (by simp [heldAll, held])
  have hmade : (heldAll [VirtualNode.text content (some id)]).filter (s.nodes.size ≤ ·) = [] := by
    simpa [heldAll, held] using hid
  refine ⟨ops, of_changes (hmade ▸ hops) fun n hn i _ hl => ?_⟩
  obtain rfl := List.mem_singleton.mp (walkAll_singleton (.text content (some id)) ▸ hn)
  exact ⟨.text shown (some id), by simp [walkAll, walk], hl, rfl⟩

theorem of_made (h : s.Changes ops (heldAll new) [] s₁)
    (hn : ∀ id ∈ heldAll new, s.nodes.size ≤ id) : Traded old new s ops s₁ := by
  have hmade : (heldAll new).filter (s.nodes.size ≤ ·) = heldAll new :=
    List.filter_eq_self.mpr fun id hm => decide_eq_true (hn id hm)
  refine of_changes (hmade.symm ▸ h) fun n hm id hid hl => ?_
  exact absurd (hn id (mem_heldAll.mpr ⟨n, hm, hl⟩)) (Nat.not_le.mpr hid)

theorem paint (hp : Placed s guest parent []) (node : VirtualNode) :
    ∃ ops, Traded [] [(node.paint parent s).1] s ops (node.paint parent s).2 := by
  obtain ⟨ops, hops⟩ := exists_changes_paint node parent s
  rw [← heldAll_singleton] at hops
  exact ⟨ops, of_made hops fun id hm =>
    ((exchanged_paint node hp).origin id hm).resolve_left List.not_mem_nil⟩

theorem paintAll (hp : Placed s guest parent []) (nodes : List VirtualNode) :
    ∃ ops, Traded [] (paintAll parent nodes s).1 s ops (VirtualNode.paintAll parent nodes s).2 := by
  obtain ⟨ops, hops⟩ := exists_changes_paintAll nodes parent s
  exact ⟨ops, of_made hops fun id hm =>
    ((exchanged_paintAll nodes hp).origin id hm).resolve_left List.not_mem_nil⟩

theorem tearDown (hp : Placed s guest parent old) (hc : flatten old ⊆ s.children parent) :
    ∃ ops, Traded old [] s ops (VirtualNode.tearDown parent old s) := by
  have hsub := flatten_sublist_heldAll old
  have hdown := Surface.changes_tearDown s parent old
  have hnodup : (flatten old).Nodup := hp.nodup.sublist hsub
  refine ⟨_, hdown.does, ?_, hdown.made_eq, ?_, ?_, ?_, by simp [walkAll]⟩
  · exact Surface.removesChildren_map hnodup hc (fun id hm => ShownAll.parent? hp.shown hm)
      fun hm => hp.parent_not_mem (hsub.subset hm)
  · rwa [hdown.gone_eq]
  · rw [hdown.gone_eq]
    exact hsub.subset
  · rw [heldAll_nil]
    exact List.disjoint_nil_right _

theorem replace {a : VirtualNode} (hp : Placed s guest parent [a])
    (hc : flatten [a] ⊆ s.children parent) (next : VirtualNode) :
    ∃ ops, Traded [a] [(a.replace parent next s).1] s ops (a.replace parent next s).2 := by
  have hx := exchanged_tearDown hp
  have hp₁ := hx.placed_new hp
  obtain ⟨ops, hops⟩ := tearDown hp hc
  obtain ⟨more, hmore⟩ := paint hp₁ next
  exact ⟨ops ++ more, hops.append hmore hx (exchanged_paint next hp₁) hp⟩

theorem around {pre post : List Op} {s₃ : Surface} (h : Traded old new s₁ ops s₂)
    (hpre : s.Changes pre [] [] s₁) (hsize : s₁.nodes.size = s.nodes.size)
    (hpost : s₂.Changes post [] [] s₃) : Traded old new s (pre ++ ops ++ post) s₃ := by
  have hmade : (pre ++ ops ++ post).filterMap Op.created? = ops.filterMap Op.created? := by
    simp [hpre.made_eq, hpost.made_eq]
  have hgone : (pre ++ ops ++ post).filterMap Op.removed? = ops.filterMap Op.removed? := by
    simp [hpre.gone_eq, hpost.gone_eq]
  have hdoes := hpre.does.trans h.does
  have hremoves := hpre.removesChildren.append hpre.does h.removesChildren
  refine ⟨hdoes.trans hpost.does, hremoves.append hdoes hpost.removesChildren, ?_, ?_, ?_, ?_, ?_⟩
  · rw [hmade, h.created_eq, hsize]
  · rw [hgone]
    exact h.removed_nodup
  · rw [hgone]
    exact h.removed_subset
  · rw [hgone]
    exact h.removed_disjoint
  · rw [← hsize]
    exact h.kind_eq

theorem element {id : NodeId} {tag : String} {attrs attrs' : Dict String}
    {listeners listeners' : List Listener} {children children' : List VirtualNode}
    (hp : Placed s guest parent [.element tag attrs' listeners' children' (some id)])
    (h : Traded children' children s ops s₁) :
    Traded [.element tag attrs' listeners' children' (some id)]
      [.element tag attrs listeners children (some id)] s ops s₁ := by
  have hid : id < s.nodes.size := hp.lt_size (by simp [heldAll, held])
  have hnodup := List.nodup_cons.mp (heldAll_element tag attrs' listeners' children' id ▸ hp.nodup)
  refine ⟨h.does, h.removesChildren, ?_, h.removed_nodup, ?_, ?_, ?_⟩
  · rw [heldAll_element, List.filter_cons_of_neg (by simpa using hid)]
    exact h.created_eq
  · rw [heldAll_element]
    exact List.Subset.trans h.removed_subset (List.subset_cons_self _ _)
  · rw [heldAll_element]
    exact List.disjoint_cons_right.mpr ⟨fun hm => hnodup.1 (h.removed_subset hm), h.removed_disjoint⟩
  · intro n hn i hi hl
    rw [walkAll_singleton, walk, List.mem_cons] at hn
    rw [walkAll_singleton, walk]
    obtain rfl | hn := hn
    · exact ⟨_, List.mem_cons_self, hl, rfl⟩
    · obtain ⟨m, hm, hml⟩ := h.kind_eq n hn i hi hl
      exact ⟨m, List.mem_cons_of_mem _ hm, hml⟩

end Traded

mutual

theorem traded_reconcile (e : Enumeration) : ∀ (next : VirtualNode) {old : VirtualNode}
    {parent : NodeId} {s : Surface}, Placed s guest parent [old] →
    flatten [old] ⊆ s.children parent →
    ∃ ops, Traded [old] [(reconcile e parent old next s).1] s ops (reconcile e parent old next s).2
  | text content live, old, parent, s, hp, hc => by
    unfold reconcile
    split
    · exact Traded.text hp
    · exact Traded.replace hp hc _
  | element tag attrs listeners children live, old, parent, s, hp, hc => by
    unfold reconcile
    split
    · split
      · rename_i tag' attrs' listeners' children' id htag
        subst htag
        have hset : Redressed id tag' attrs' attrs s _ := Surface.redressed_patch s attrs' attrs
        obtain ⟨pre, hpre⟩ := Surface.exists_changes_patch s id attrs' attrs
        obtain ⟨ops, hops⟩ := traded_reconcileAll e children (m := Matching.start children' children)
          (by rw [Matching.nodes_start]; exact hp.of_element hset)
          (by rw [Matching.nodes_start]; exact hp.subset_of_element hset)
        rw [Matching.nodes_start] at hops
        obtain ⟨post, hpost⟩ := Surface.exists_changes_arrange _ id (flatten children') _
        exact ⟨_, Traded.element hp (hops.around hpre hset.size_eq hpost)⟩
      · exact Traded.replace hp hc _
    · exact Traded.replace hp hc _
  | fragment key shown children, old, parent, s, hp, hc => by
    unfold reconcile
    split
    · split
      · rename_i children' hkey
        have hp₁ : Placed s guest parent children' := hp.of_fragment
        have hc₁ : flatten children' ⊆ s.children parent := by rwa [flatten_fragment] at hc
        obtain ⟨ops, hops⟩ := traded_reconcileAll e children (m := Matching.start children' children)
          (by rw [Matching.nodes_start]; exact hp₁) (by rw [Matching.nodes_start]; exact hc₁)
        rw [Matching.nodes_start] at hops
        exact ⟨ops, hops.fragment⟩
      · exact Traded.replace hp hc _
    · exact Traded.replace hp hc _

theorem traded_reconcileAll (e : Enumeration) : ∀ (next : List VirtualNode) {m : Matching}
    {parent : NodeId} {s : Surface}, Placed s guest parent m.nodes →
    flatten m.nodes ⊆ s.children parent →
    ∃ ops, Traded m.nodes (reconcileAll e parent m next s).1 s ops (reconcileAll e parent m next s).2
  | [], m, parent, s, hp, hc => by
    unfold reconcileAll
    have hperm := m.stale_perm e
    obtain ⟨ops, hops⟩ := Traded.tearDown (hp.perm hperm.symm)
      fun id hm => hc ((flatten_perm hperm).mem_iff.mp hm)
    exact ⟨ops, hops.congr_old hperm⟩
  | node :: rest, m, parent, s, hp, hc => by
    unfold reconcileAll
    rcases ht : m.take node with ⟨_ | old, m'⟩
    · have hnodes := Matching.nodes_of_take ht
      rw [← hnodes] at hp hc ⊢
      have hx := exchanged_paint node hp.nil
      obtain ⟨ops, hops⟩ := Traded.paint hp.nil node
      have hp₁ := (hx.placed hp).right
      obtain ⟨more, hmore⟩ := traded_reconcileAll e rest hp₁ (hx.subset_children hp hc)
      exact ⟨ops ++ more, hops.append hmore hx (exchanged_reconcileAll e rest hp₁) hp⟩
    · have hperm := Matching.perm_of_take ht
      have hp' : Placed s guest parent ([old] ++ m'.nodes) := hp.perm hperm
      have hc' : flatten ([old] ++ m'.nodes) ⊆ s.children parent :=
        fun id hm => hc ((flatten_perm hperm).mem_iff.mpr hm)
      have hx := exchanged_reconcile e node hp'.left
      obtain ⟨ops, hops⟩ := traded_reconcile e node hp'.left fun id hm =>
        hc' (by rw [flatten_append]; exact List.mem_append_left _ hm)
      have hp₁ := (hx.placed hp').right
      obtain ⟨more, hmore⟩ := traded_reconcileAll e rest hp₁ (hx.subset_children hp' hc')
      exact ⟨ops ++ more,
        (hops.append hmore hx (exchanged_reconcileAll e rest hp₁) hp').congr_old hperm.symm⟩

end

end VirtualNode

namespace VirtualTree

open VirtualNode

variable {t : VirtualTree}

theorem exists_traded_diff (h : t.Painted guest s) (e : Enumeration) (next : VirtualTree) :
    ∃ ops, Traded t.children (diff e t next s).1.children s ops (diff e t next s).2 := by
  obtain hlive | rfl := h.live
  · have hc : flatten t.children ⊆ s.children Surface.root := h.children ▸ List.filter_subset_self _
    obtain ⟨ops, hops⟩ := traded_reconcileAll e next.children
      (m := Matching.start t.children next.children) (by rw [Matching.nodes_start]; exact h.placed)
      (by rw [Matching.nodes_start]; exact hc)
    rw [Matching.nodes_start] at hops
    obtain ⟨post, hpost⟩ := Surface.exists_changes_arrange _ Surface.root (flatten t.children) _
    simp only [diff, hlive]
    exact ⟨_, hops.around (Surface.Changes.refl s) rfl hpost⟩
  · exact Traded.paintAll h.placed next.children

namespace Painted

theorem reachable (h : t.Painted guest s)
    (hg : ∀ id, guest id = true → id ≠ Surface.root → ∀ child ∈ s.children id, guest child = true)
    {id : NodeId}
    (hr : Relation.ReflTransGen (fun parent child => child ∈ s.children parent) Surface.root id) :
    id = Surface.root ∨ id ∈ heldAll t.children ∨ guest id = true := by
  induction hr with
  | refl => exact Or.inl rfl
  | @tail above child _ hc ih =>
    have hroot : child ∈ s.children Surface.root → child ∈ heldAll t.children ∨ guest child = true := by
      intro hc
      by_cases hgc : guest child = true
      · exact Or.inr hgc
      · have hf : child ∈ flatten t.children := h.children ▸ List.mem_filter.mpr ⟨hc, by simpa using hgc⟩
        exact Or.inl ((flatten_sublist_heldAll _).subset hf)
    obtain rfl | hm | hga := ih
    · exact Or.inr (hroot hc)
    · exact Or.inr (ShownAll.children h.placed.shown above hm child hc).symm
    · by_cases hr : above = Surface.root
      · exact Or.inr (hroot (hr ▸ hc))
      · exact Or.inr (Or.inr (hg above hga hr child hc))

theorem node?_diff (h : t.Painted guest s) (e : Enumeration) (next : VirtualTree) {id : NodeId}
    (hid : id < s.nodes.size) (hr : id ≠ Surface.root) (hm : id ∉ heldAll t.children) :
    (VirtualTree.diff e t next s).2.node? id = s.node? id := by
  obtain hlive | rfl := h.live
  · exact (h.rearranged_diff hlive e next).frame id hid hr hm
  · exact (exchanged_paintAll next.children h.placed).frame id hid hr hm

end Painted

/-- What becomes of live nodes in a pass from one tree to another, whose calls are given. -/
structure Conserves (t u : VirtualTree) (s : Surface) (ops : List Op) (s' : Surface) : Prop where
  does : s.Does ops s'
  live_eq : u.live = some Surface.root
  nodup : (Surface.root :: heldAll u.children).Nodup
  allLive : AllLive u.children
  /-- A node has a handle made in the pass, or that of a node of its kind. -/
  origin : ∀ n ∈ u.walk, ∀ id, n.live? = some id → id ∈ ops.filterMap Op.created? ∨
    ∃ m ∈ t.walk, m.live? = some id ∧ m.kind = n.kind
  created_eq : ops.filterMap Op.created? =
    (heldAll u.children).filter (· ∉ heldAll t.children)
  removesChildren : s.RemovesChildren ops
  removed_nodup : (ops.filterMap Op.removed?).Nodup
  removed_disjoint : (ops.filterMap Op.removed?).Disjoint (heldAll u.children)
  /-- A handle that is held no more is not below the root. -/
  not_reachable : ∀ id ∈ heldAll t.children, id ∉ heldAll u.children →
    ¬ Relation.ReflTransGen (fun parent child => child ∈ s'.children parent) Surface.root id

/-- A pass neither loses nor doubles live nodes. Below a guest there have to be guests only. -/
theorem exists_conserves_diff (h : t.Painted guest s)
    (hg : ∀ id, guest id = true → id ≠ Surface.root → ∀ child ∈ s.children id, guest child = true)
    (e : Enumeration) (next : VirtualTree) :
    ∃ ops, Conserves t (diff e t next s).1 s ops (diff e t next s).2 := by
  obtain ⟨ops, hx⟩ := exists_traded_diff h e next
  have hp := h.diff e next
  have hold : ∀ id ∈ heldAll (diff e t next s).1.children,
      s.nodes.size ≤ id ↔ id ∉ heldAll t.children := fun id hm =>
    ⟨fun hs ho => Nat.lt_irrefl _ (Nat.lt_of_lt_of_le (h.placed.lt_size ho) hs),
      ((h.diff_succeeds e next).origin id hm).resolve_left⟩
  have hcreated : ops.filterMap Op.created? =
      (heldAll (diff e t next s).1.children).filter (· ∉ heldAll t.children) := by
    rw [hx.created_eq]
    exact List.filter_congr fun id hm => by simp only [hold id hm]
  refine ⟨ops, hx.does, ?_, List.nodup_cons.mpr ⟨hp.placed.parent_not_mem, hp.placed.nodup⟩,
    ShownAll.allLive hp.placed.shown, fun n hn id hl => ?_, hcreated, hx.removesChildren,
    hx.removed_nodup, hx.removed_disjoint, fun id ho hn hr => ?_⟩
  · obtain hlive | rfl := h.live
    · simp only [diff, hlive]
    · rfl
  · have hm : id ∈ heldAll (diff e t next s).1.children := mem_heldAll.mpr ⟨n, hn, hl⟩
    by_cases hid : id < s.nodes.size
    · exact Or.inr (hx.kind_eq n hn id hid hl)
    · rw [hx.created_eq]
      exact Or.inl (List.mem_filter.mpr ⟨hm, by simpa using hid⟩)
  · have hg' : ∀ id, guest id = true → id ≠ Surface.root →
        ∀ child ∈ (diff e t next s).2.children id, guest child = true := by
      intro id hid hne child hc
      have hm : id ∉ heldAll t.children := fun hm => by
        rw [h.placed.not_guest id hm] at hid
        cases hid
      have hnode := h.node?_diff e next (h.placed.guest_lt id hid) hne hm
      exact hg id hid hne child (by simpa only [Surface.children, hnode] using hc)
    obtain rfl | hm | hid := hp.reachable hg' hr
    · exact h.placed.parent_not_mem ho
    · exact hn hm
    · rw [h.placed.not_guest id ho] at hid
      cases hid

def box (children : List VirtualNode) : VirtualTree :=
  .ofChildren [.element "div" Dict.empty [] children none]

theorem exists_conserves_diff_box :
    let t := (box [.ofText "p", .fragment (.component "c") true
      [.ofText "q", .element "b" Dict.empty [] [.ofText "r"] none]]).paint Surface.empty
    let v := diff .document t.1 (box [.ofText "s", .element "b" Dict.empty [] [] none]) t.2
    t.1.Painted (fun _ => false) t.2 ∧ heldAll t.1.children = [1, 2, 3, 4, 5] ∧
      heldAll v.1.children = [1, 2, 6] ∧
      ∃ ops, Conserves t.1 v.1 t.2 ops v.2 ∧ ops.filterMap Op.created? = [6] := by
  intro t v
  have ht : heldAll t.1.children = [1, 2, 3, 4, 5] := rfl
  have hv : heldAll v.1.children = [1, 2, 6] := rfl
  have hp := painted_paint_empty (box [.ofText "p", .fragment (.component "c") true
      [.ofText "q", .element "b" Dict.empty [] [.ofText "r"] none]])
  obtain ⟨ops, h⟩ : ∃ ops, Conserves t.1 v.1 t.2 ops v.2 := exists_conserves_diff hp (by simp) .document _
  refine ⟨hp, ht, hv, ops, h, ?_⟩
  rw [h.created_eq, ht, hv]
  decide

end VirtualTree

end ReactiveView
