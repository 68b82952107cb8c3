import Mathlib.Data.List.Dedup
import ReactiveView.Proofs.Tree.Painted
import ReactiveView.Tree.Binding

namespace ReactiveView

variable {s s' : Surface} {guest : NodeId → Bool}

namespace Surface

theorem listeners_eq_nil {id : NodeId} (h : s.nodes.size ≤ id) : s.listeners id = [] := by
  simp only [listeners, node?_eq_none s id h]

@[simp] theorem listeners_note (op : Op) : (s.note op).listeners = s.listeners := rfl

theorem listeners_modify (id : NodeId) {f : LiveNode → LiveNode}
    (h : ∀ n, (f n).listeners = n.listeners) : (s.modify id f).listeners = s.listeners := by
  funext i
  simp only [listeners, node?_modify]
  by_cases hi : i = id
  · subst hi
    cases s.node? i <;> simp [h]
  · simp [hi]

@[simp] theorem listeners_alloc (kind : LiveKind) : (s.alloc kind).2.listeners = s.listeners := by
  funext i
  simp only [listeners, node?_alloc]
  by_cases hi : i = s.nodes.size
  · subst hi
    simp [node?_eq_none]
  · simp [hi]

@[simp] theorem listeners_createElement (tag : String) :
    (s.createElement tag).2.listeners = s.listeners := listeners_alloc _

@[simp] theorem listeners_createText (content : String) :
    (s.createText content).2.listeners = s.listeners := listeners_alloc _

theorem listeners_mapAttrs (n : LiveNode) (f : Dict String → Dict String) :
    (n.mapAttrs f).listeners = n.listeners := by
  unfold LiveNode.mapAttrs
  split <;> rfl

@[simp] theorem listeners_setAttribute (id : NodeId) (name value : String) :
    (s.setAttribute id name value).listeners = s.listeners :=
  listeners_modify id fun n => listeners_mapAttrs n _

@[simp] theorem listeners_removeAttribute (id : NodeId) (name : String) :
    (s.removeAttribute id name).listeners = s.listeners :=
  listeners_modify id fun n => listeners_mapAttrs n _

@[simp] theorem listeners_setText (id : NodeId) (content : String) :
    (s.setText id content).listeners = s.listeners := by
  apply listeners_modify id
  intro n
  unfold LiveNode.withText
  split <;> rfl

@[simp] theorem listeners_detach (child : NodeId) : (s.detach child).listeners = s.listeners := by
  unfold detach
  split
  · rfl
  · rw [listeners_modify, listeners_modify] <;> exact fun _ => rfl

@[simp] theorem listeners_insertBefore (parent child : NodeId) (before : Option NodeId) :
    (s.insertBefore parent child before).listeners = s.listeners := by
  unfold insertBefore
  rw [listeners_note, listeners_modify, listeners_modify, listeners_detach] <;> exact fun _ => rfl

@[simp] theorem listeners_append (parent child : NodeId) :
    (s.append parent child).listeners = s.listeners := listeners_insertBefore parent child none

@[simp] theorem listeners_removeChild (parent child : NodeId) :
    (s.removeChild parent child).listeners = s.listeners := by
  unfold removeChild
  split <;> simp

theorem listeners_foldl {β : Type} {f : Surface → β → Surface}
    (h : ∀ s b, (f s b).listeners = s.listeners) (bs : List β) (s : Surface) :
    (bs.foldl f s).listeners = s.listeners := by
  induction bs generalizing s with
  | nil => rfl
  | cons b rest ih => rw [List.foldl_cons, ih, h]

@[simp] theorem listeners_patch (id : NodeId) (previous next : Dict String) :
    (s.patch id previous next).listeners = s.listeners := by
  unfold patch
  rw [listeners_foldl, listeners_foldl]
  · intro s a
    split <;> simp
  · intro s name
    split <;> simp

@[simp] theorem listeners_arrange (parent : NodeId) (before after : List NodeId) :
    (s.arrange parent before after).listeners = s.listeners := by
  have hf : ∀ (ps : List (NodeId × Bool)),
      (ps.foldr (fun p t =>
        (some p.1, if p.2 then t.2 else t.2.insertBefore parent p.1 t.1)) (none, s)).2.listeners =
        s.listeners := by
    intro ps
    induction ps with
    | nil => rfl
    | cons p rest ih =>
      obtain ⟨id, stays⟩ := p
      rw [List.foldr_cons]
      cases stays with
      | true => exact ih
      | false => exact (listeners_insertBefore _ _ _).trans ih
  simp only [arrange]
  split
  · rfl
  · split
    · rfl
    · exact hf _

end Surface

namespace VirtualNode

open Surface

mutual

theorem listeners_paint (parent : NodeId) : ∀ (node : VirtualNode) (s : Surface),
    (node.paint parent s).2.listeners = s.listeners
  | element _ attrs _ children _, s => by
    simp only [paint, listeners_append, listeners_paintAll, fst_createElement]
    rw [listeners_foldl fun s a => listeners_setAttribute _ _ _, listeners_createElement]
  | text _ _, s => by simp only [paint, listeners_append, listeners_createText]
  | fragment _ _ children, s => by simp only [paint, listeners_paintAll]

theorem listeners_paintAll (parent : NodeId) : ∀ (nodes : List VirtualNode) (s : Surface),
    (paintAll parent nodes s).2.listeners = s.listeners
  | [], _ => rfl
  | node :: rest, s => by simp only [paintAll, listeners_paintAll, listeners_paint parent node]

end

theorem listeners_tearDown (parent : NodeId) (nodes : List VirtualNode) (s : Surface) :
    (tearDown parent nodes s).listeners = s.listeners :=
  listeners_foldl (fun _ _ => listeners_removeChild _ _) _ _

theorem listeners_replace (parent : NodeId) (old next : VirtualNode) (s : Surface) :
    (old.replace parent next s).2.listeners = s.listeners := by
  rw [replace, listeners_paint, listeners_tearDown]

mutual

theorem listeners_reconcile (e : Enumeration) (parent : NodeId) (old next : VirtualNode)
    (s : Surface) : (reconcile e parent old next s).2.listeners = s.listeners := by
  match next with
  | text content live =>
    unfold reconcile
    split
    · split <;> simp
    · exact listeners_replace _ _ _ _
  | element tag attrs listeners children live =>
    unfold reconcile
    split
    · split
      · simp only [listeners_arrange, listeners_reconcileAll, listeners_patch]
      · exact listeners_replace _ _ _ _
    · exact listeners_replace _ _ _ _
  | fragment key shown children =>
    unfold reconcile
    split
    · split
      · simp only [listeners_reconcileAll]
      · exact listeners_replace _ _ _ _
    · exact listeners_replace _ _ _ _

theorem listeners_reconcileAll (e : Enumeration) (parent : NodeId) (m : Matching)
    (next : List VirtualNode) (s : Surface) :
    (reconcileAll e parent m next s).2.listeners = s.listeners := by
  match next with
  | [] => exact listeners_tearDown _ _ _
  | node :: rest =>
    simp only [reconcileAll, listeners_reconcileAll]
    split
    · exact listeners_reconcile _ _ _ _ _
    · exact listeners_paint _ _ _

end

end VirtualNode

namespace VirtualTree

theorem listeners_paint (t : VirtualTree) (s : Surface) :
    (t.paint s).2.listeners = s.listeners := VirtualNode.listeners_paintAll _ _ _

theorem listeners_diff (e : Enumeration) (previous next : VirtualTree) (s : Surface) :
    (diff e previous next s).2.listeners = s.listeners := by
  unfold diff
  split
  · exact listeners_paint next s
  · simp only [Surface.listeners_arrange, VirtualNode.listeners_reconcileAll]

end VirtualTree

namespace Surface

theorem listeners_relisten (id other : NodeId) (f : List Listener → List Listener) :
    (s.modify id fun n => { n with listeners := f n.listeners }).listeners other =
      if other = id ∧ id < s.nodes.size then f (s.listeners id) else s.listeners other := by
  simp only [listeners, node?_modify]
  by_cases hi : other = id
  · subst hi
    by_cases hlt : other < s.nodes.size
    · obtain ⟨n, hn⟩ := s.exists_node? _ hlt
      simp [hlt, hn]
    · simp [hlt, s.node?_eq_none other (Nat.not_lt.mp hlt)]
  · simp [hi]

theorem listeners_removeListener (id other : NodeId) (l : Listener) :
    (s.removeListener id l).listeners other =
      (s.listeners other).filter fun k => EventBinding.mk other k ≠ ⟨id, l⟩ := by
  rw [removeListener, listeners_note, listeners_relisten id other (List.filter (· ≠ l))]
  by_cases hi : other = id
  · subst hi
    by_cases hlt : other < s.nodes.size
    · simp [hlt]
    · simp [hlt, listeners_eq_nil (Nat.not_lt.mp hlt)]
  · simp [hi]

theorem listeners_addListener {id : NodeId} (hid : id < s.nodes.size) (other : NodeId)
    (l : Listener) : (s.addListener id l).listeners other =
      s.listeners other ++ if other = id then [l] else [] := by
  rw [addListener, listeners_note, listeners_relisten id other (· ++ [l])]
  by_cases hi : other = id
  · subst hi; simp [hid]
  · simp [hi]

theorem listeners_foldl_remove (bindings : List EventBinding) (s : Surface) (id : NodeId) :
    (bindings.foldl (fun s b => s.removeListener b.node b.listener) s).listeners id =
      (s.listeners id).filter fun l => EventBinding.mk id l ∉ bindings := by
  induction bindings generalizing s with
  | nil => simp
  | cons b rest ih =>
    rw [List.foldl_cons, ih, listeners_removeListener, List.filter_filter]
    apply List.filter_congr
    intro l _
    simp only [List.mem_cons, not_or, Bool.decide_and]
    exact Bool.and_comm _ _

theorem listeners_foldl_add (bindings : List EventBinding) (s : Surface)
    (h : ∀ b ∈ bindings, b.node < s.nodes.size) (id : NodeId) :
    (bindings.foldl (fun s b => s.addListener b.node b.listener) s).listeners id =
      s.listeners id ++ (bindings.filter (·.node = id)).map (·.listener) := by
  induction bindings generalizing s with
  | nil => simp
  | cons b rest ih =>
    have hb := h b (by simp)
    have hrest : ∀ c ∈ rest, c.node < (s.addListener b.node b.listener).nodes.size := by
      intro c hc
      rw [addListener, nodes_note, size_modify]
      exact h c (by simp [hc])
    rw [List.foldl_cons, ih _ hrest, listeners_addListener hb, List.append_assoc]
    by_cases hi : id = b.node
    · subst hi; simp
    · simp [hi, Ne.symm hi]

structure Alike (s s' : Surface) : Prop where
  size_eq : s'.nodes.size = s.nodes.size
  node?_eq : ∀ id, ∃ listeners, s'.node? id = (s.node? id).map fun n =>
    { n with listeners := listeners }

namespace Alike

theorem refl (s : Surface) : Alike s s := by
  refine ⟨rfl, fun id => ⟨s.listeners id, ?_⟩⟩
  rw [listeners]
  cases s.node? id <;> rfl

theorem trans {s₁ s₂ : Surface} (h : Alike s s₁) (h' : Alike s₁ s₂) : Alike s s₂ := by
  refine ⟨h'.size_eq.trans h.size_eq, fun id => ?_⟩
  obtain ⟨l, hl⟩ := h.node?_eq id
  obtain ⟨l', hl'⟩ := h'.node?_eq id
  refine ⟨l', ?_⟩
  rw [hl', hl, Option.map_map]
  rfl

theorem modify (s : Surface) (id : NodeId) (f : List Listener → List Listener) :
    Alike s (s.modify id fun n => { n with listeners := f n.listeners }) := by
  refine ⟨by simp, fun i => ?_⟩
  rw [node?_modify]
  by_cases hi : i = id
  · subst hi
    refine ⟨f (s.listeners i), ?_⟩
    rw [listeners]
    cases s.node? i <;> simp
  · rw [if_neg hi]
    exact (refl s).node?_eq i

theorem removeListener (s : Surface) (id : NodeId) (l : Listener) :
    Alike s (s.removeListener id l) :=
  have h := modify s id (List.filter (· ≠ l))
  ⟨h.size_eq, h.node?_eq⟩

theorem addListener (s : Surface) (id : NodeId) (l : Listener) : Alike s (s.addListener id l) :=
  have h := modify s id (· ++ [l])
  ⟨h.size_eq, h.node?_eq⟩

theorem foldl {β : Type} {f : Surface → β → Surface} (h : ∀ s b, Alike s (f s b)) (bs : List β)
    (s : Surface) : Alike s (bs.foldl f s) := by
  induction bs generalizing s with
  | nil => exact refl s
  | cons b rest ih => exact (h s b).trans (ih _)

theorem children (h : Alike s s') : s'.children = s.children := by
  funext id
  obtain ⟨l, hl⟩ := h.node?_eq id
  simp only [Surface.children, hl]
  cases s.node? id <;> rfl

theorem parent? (h : Alike s s') : s'.parent? = s.parent? := by
  funext id
  obtain ⟨l, hl⟩ := h.node?_eq id
  simp only [Surface.parent?, hl]
  cases s.node? id <;> rfl

end Alike

end Surface

namespace VirtualNode

mutual

theorem Shown.alike (h : s.Alike s') : ∀ {node : VirtualNode} {parent : NodeId},
    node.Shown s guest parent → node.Shown s' guest parent
  | element _ _ _ _ _, _, ⟨id, n, hl, hn, hk, hc⟩ => by
    obtain ⟨ls, hls⟩ := h.node?_eq id
    rw [hn, Option.map_some] at hls
    exact ⟨id, _, hl, hls, ⟨hk.kind_eq, hk.parent_eq, hk.children_eq⟩, ShownAll.alike h hc⟩
  | text _ _, _, ⟨id, n, hl, hn, hk⟩ => by
    obtain ⟨ls, hls⟩ := h.node?_eq id
    rw [hn, Option.map_some] at hls
    exact ⟨id, _, hl, hls, ⟨hk.kind_eq, hk.parent_eq, hk.children_eq⟩⟩
  | fragment _ _ children, parent, hs =>
    ShownAll.alike h (show ShownAll s guest parent children from hs)

theorem ShownAll.alike (h : s.Alike s') : ∀ {nodes : List VirtualNode} {parent : NodeId},
    ShownAll s guest parent nodes → ShownAll s' guest parent nodes
  | [], _, _ => trivial
  | _ :: _, _, hs => ⟨Shown.alike h hs.1, ShownAll.alike h hs.2⟩

end

end VirtualNode

theorem VirtualTree.Painted.alike {t : VirtualTree} (h : t.Painted guest s) (ha : s.Alike s') :
    t.Painted guest s' where
  live := h.live
  placed := ⟨VirtualNode.ShownAll.alike ha h.placed.shown, h.placed.nodup,
    ha.size_eq ▸ h.placed.parent_lt, h.placed.parent_not_mem,
    ha.size_eq ▸ h.placed.guest_lt, h.placed.not_guest⟩
  children := ha.children ▸ h.children
  parent? := ha.parent? ▸ h.parent?

namespace EventSet

theorem mem_minus {a b : EventSet} {binding : EventBinding} :
    binding ∈ a.minus b ↔ binding ∈ a ∧ binding ∉ b := by
  simp only [minus, List.mem_filter, decide_eq_true_eq]

theorem alike_refresh (e : Enumeration) (previous next : EventSet) (s : Surface) :
    s.Alike (refresh e previous next s).2 :=
  (Surface.Alike.foldl (fun s (b : EventBinding) => .removeListener s b.node b.listener) _ s).trans
    (Surface.Alike.foldl (fun s (b : EventBinding) => .addListener s b.node b.listener) _ _)

/-- A surface holds a set of bindings: each node has the listeners that it is bound to, each
once. -/
structure HeldBy (events : EventSet) (s : Surface) : Prop where
  nodup : ∀ id, (s.listeners id).Nodup
  mem_iff : ∀ id l, l ∈ s.listeners id ↔ EventBinding.mk id l ∈ events

theorem heldBy_empty : HeldBy [] Surface.empty := by
  have hl : ∀ id, Surface.empty.listeners id = [] := by
    intro id
    by_cases hid : id = 0
    · subst hid; rfl
    · exact Surface.listeners_eq_nil (Nat.one_le_iff_ne_zero.mpr hid)
  refine ⟨fun id => ?_, fun id l => ?_⟩
  · rw [hl]
    exact List.nodup_nil
  · rw [hl]
    exact iff_of_false List.not_mem_nil List.not_mem_nil

variable {previous next : EventSet}

/-- What a node has after a change: what it had and keeps, then what is new. -/
theorem listeners_refresh (e : Enumeration) (hlt : ∀ b ∈ next, b.node < s.nodes.size) (id : NodeId) :
    (refresh e previous next s).2.listeners id =
      ((s.listeners id).filter fun l => EventBinding.mk id l ∉ previous.minus next) ++
        ((e.bindings (next.minus previous)).filter (·.node = id)).map (·.listener) := by
  have hgone := e.bindings_perm (previous.minus next)
  have hfresh := e.bindings_perm (next.minus previous)
  have hsize := (Surface.Alike.foldl (fun s (b : EventBinding) =>
    .removeListener s b.node b.listener) (e.bindings (previous.minus next)) s).size_eq
  simp only [refresh]
  rw [Surface.listeners_foldl_add, Surface.listeners_foldl_remove]
  · simp only [hgone.mem_iff]
  · intro b hb
    rw [hsize]
    exact hlt b (mem_minus.mp (hfresh.mem_iff.mp hb)).1

theorem HeldBy.congr {events : EventSet} (h : events.HeldBy s) (hl : s'.listeners = s.listeners) :
    events.HeldBy s' where
  nodup := hl ▸ h.nodup
  mem_iff := hl ▸ h.mem_iff

theorem HeldBy.refresh (h : previous.HeldBy s) (hnext : next.Nodup)
    (hlt : ∀ b ∈ next, b.node < s.nodes.size) (e : Enumeration) :
    next.HeldBy (EventSet.refresh e previous next s).2 := by
  have hfresh := e.bindings_perm (next.minus previous)
  have hnodup := hfresh.nodup_iff.mpr (hnext.filter _)
  have hmem : ∀ id l, l ∈ ((e.bindings (next.minus previous)).filter (·.node = id)).map (·.listener) ↔
      EventBinding.mk id l ∈ next.minus previous := by
    intro id l
    rw [← hfresh.mem_iff, List.mem_map]
    simp only [List.mem_filter, decide_eq_true_eq]
    constructor
    · rintro ⟨⟨i, k⟩, ⟨hb, rfl⟩, rfl⟩
      exact hb
    · intro hb
      exact ⟨⟨id, l⟩, ⟨hb, rfl⟩, rfl⟩
  refine ⟨fun id => ?_, fun id l => ?_⟩
  · rw [listeners_refresh e hlt, List.nodup_append']
    refine ⟨(h.nodup id).filter _, (hnodup.filter _).map_on ?_, fun l hm hm' => ?_⟩
    · rintro ⟨i, k⟩ hb ⟨j, k'⟩ hb' rfl
      simp only [List.mem_filter, decide_eq_true_eq] at hb hb'
      rw [hb.2, hb'.2]
    · exact (mem_minus.mp ((hmem id l).mp hm')).2 ((h.mem_iff id l).mp (List.mem_of_mem_filter hm))
  · rw [listeners_refresh e hlt, List.mem_append, hmem, List.mem_filter, h.mem_iff, decide_eq_true_eq,
      mem_minus, mem_minus]
    by_cases hp : EventBinding.mk id l ∈ previous <;> by_cases hn : EventBinding.mk id l ∈ next <;>
      simp [hp, hn]

end EventSet

end ReactiveView
