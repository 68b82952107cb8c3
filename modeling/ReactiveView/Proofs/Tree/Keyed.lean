import ReactiveView.Proofs.Tree.Patching

namespace ReactiveView

variable {s : Surface} {guest : NodeId → Bool} {parent : NodeId} {e : Enumeration}

namespace Matching

theorem keyed_of_take_none {pool : List VirtualNode} {node : VirtualNode} {m : Matching}
    (h : take node (.keyed pool) = (none, m)) :
    m = .keyed pool ∧ node.itemKey? ∉ pool.map VirtualNode.itemKey? := by
  have hnodes := nodes_of_take h
  obtain ⟨hf, rfl⟩ := Prod.mk.inj h
  refine ⟨congrArg keyed hnodes, fun hm => ?_⟩
  obtain ⟨a, ha, hk⟩ := List.mem_map.mp hm
  exact List.find?_eq_none.mp hf a ha (by simpa using hk)

theorem keyed_of_take_some {pool : List VirtualNode} {node old : VirtualNode} {m : Matching}
    (h : take node (.keyed pool) = (some old, m)) :
    ∃ rest, m = .keyed rest ∧ pool.Perm (old :: rest) ∧ old.itemKey? = node.itemKey? := by
  have hperm := perm_of_take h
  obtain ⟨hf, rfl⟩ := Prod.mk.inj h
  exact ⟨_, rfl, hperm, by simpa using List.find?_some hf⟩

end Matching

namespace VirtualNode

/-- The children at the end of a path, each step of which is the position of a node among its
siblings. -/
def childrenAt? : List Nat → List VirtualNode → Option (List VirtualNode)
  | [], nodes => some nodes
  | i :: path, nodes => nodes[i]?.bind fun node => childrenAt? path node.children

def Skeleton.mapChildren (f : List Skeleton → List Skeleton) : Skeleton → Skeleton
  | node kind live children => .node kind live (f children)

def Skeleton.hollow : List Nat → List Skeleton → List Skeleton
  | [], _ => []
  | i :: path, all => all.modify i (Skeleton.mapChildren (hollow path))

theorem modify_middle {α : Type} (f : α → α) (front back : List α) (a : α) :
    (front ++ a :: back).modify front.length f = front ++ f a :: back := by
  induction front with
  | nil => rfl
  | cons b rest ih => rw [List.cons_append, List.length_cons, List.modify_succ_cons, ih,
      List.cons_append]

theorem childrenAt?_middle (path : List Nat) (front back : List VirtualNode) (node : VirtualNode) :
    childrenAt? (front.length :: path) (front ++ node :: back) = childrenAt? path node.children := by
  simp [childrenAt?]

theorem allLive_of_childrenAt? : ∀ {path : List Nat} {nodes items : List VirtualNode},
    AllLive nodes → childrenAt? path nodes = some items → AllLive items
  | [], _, _, hl, h => Option.some.inj h ▸ hl
  | i :: path, nodes, items, hl, h => by
    obtain ⟨node, hn, hc⟩ := Option.bind_eq_some_iff.mp h
    obtain ⟨front, back, rfl⟩ := List.append_of_mem (List.mem_of_getElem? hn)
    have hnode := allLive_cons.mp (allLive_append.mp hl).2
    exact allLive_of_childrenAt? hnode.2.1 hc

theorem exists_of_childrenAt? {i : Nat} {path : List Nat} {nodes items : List VirtualNode}
    (h : childrenAt? (i :: path) nodes = some items) : ∃ front node back,
      nodes = front ++ node :: back ∧ front.length = i ∧
        childrenAt? path node.children = some items := by
  obtain ⟨node, hn, hc⟩ := Option.bind_eq_some_iff.mp h
  obtain ⟨hi, -⟩ := List.getElem?_eq_some_iff.mp hn
  obtain ⟨front, a, back, rfl, rfl, -⟩ := List.exists_of_modify id hi
  obtain rfl : a = node := by simpa using hn
  exact ⟨front, a, back, rfl, rfl, hc⟩

theorem hollow_middle (path : List Nat) (front back : List Skeleton) (a : Skeleton) :
    Skeleton.hollow (front.length :: path) (front ++ a :: back) =
      front ++ a.mapChildren (Skeleton.hollow path) :: back := modify_middle _ front back a

theorem shapeAll_append (nodes more : List VirtualNode) :
    shapeAll (nodes ++ more) = shapeAll nodes ++ shapeAll more := by
  simp only [shapeAll_eq_map, List.map_append]

theorem skeletonAll_append (nodes more : List VirtualNode) :
    skeletonAll (nodes ++ more) = skeletonAll nodes ++ skeletonAll more := by
  simp only [skeletonAll_eq_map, List.map_append]

theorem length_shapeAll (nodes : List VirtualNode) : (shapeAll nodes).length = nodes.length := by
  rw [shapeAll_eq_map, List.length_map]

theorem length_skeletonAll (nodes : List VirtualNode) :
    (skeletonAll nodes).length = nodes.length := by
  rw [skeletonAll_eq_map, List.length_map]

theorem hollow_shapeAll (path : List Nat) (front back : List VirtualNode) (node : VirtualNode) :
    Skeleton.hollow (front.length :: path) (shapeAll (front ++ node :: back)) = shapeAll front ++
      .node node.kind none (Skeleton.hollow path (shapeAll node.children)) :: shapeAll back := by
  rw [shapeAll_append, shapeAll_cons, ← length_shapeAll, hollow_middle, shape_eq]
  rfl

theorem hollow_skeletonAll (path : List Nat) (front back : List VirtualNode) (node : VirtualNode) :
    Skeleton.hollow (front.length :: path) (skeletonAll (front ++ node :: back)) =
      skeletonAll front ++ .node node.kind node.live?
        (Skeleton.hollow path (skeletonAll node.children)) :: skeletonAll back := by
  rw [skeletonAll_append, skeletonAll, ← length_skeletonAll, hollow_middle, skeleton_eq]
  rfl

/-- The nodes with keys that none of the others has. -/
def unshared (nodes others : List VirtualNode) : List VirtualNode :=
  nodes.filter fun node => node.itemKey? ∉ others.map itemKey?

/-- Items brought to others: those whose keys were there already keep their handles, the nodes
that are made are those of the items with new keys, and the topmost ones of the items without
successor are removed. -/
structure Rekeyed (old next : List VirtualNode) (s : Surface) (items : List VirtualNode)
    (s' : Surface) : Prop where
  bare_eq : bareAll items = bareAll next
  kept : ∀ a ∈ old, ∀ b ∈ items, a.itemKey? = b.itemKey? → b.skeleton = a.skeleton
  exists_changes : ∃ ops gone, s.Changes ops (heldAll (unshared items old)) gone s' ∧
    gone.Perm (flatten (unshared old next))

theorem itemKey?_bare (node : VirtualNode) : node.bare.itemKey? = node.itemKey? := by
  cases node with
  | fragment key shown children => cases key <;> rfl
  | _ => rfl

theorem itemKey?_eq_of_bare_eq {a b : VirtualNode} (h : a.bare = b.bare) :
    a.itemKey? = b.itemKey? := by
  rw [← itemKey?_bare a, h, itemKey?_bare]

theorem bareAll_eq_map (nodes : List VirtualNode) : bareAll nodes = nodes.map bare := by
  induction nodes with
  | nil => rfl
  | cons node rest ih => rw [bareAll, ih, List.map_cons]

theorem map_itemKey?_of_bareAll_eq {nodes more : List VirtualNode}
    (h : bareAll nodes = bareAll more) : nodes.map itemKey? = more.map itemKey? := by
  rw [bareAll_eq_map, bareAll_eq_map] at h
  have hk := congrArg (List.map itemKey?) h
  simpa only [List.map_map, Function.comp_def, itemKey?_bare] using hk

theorem unshared_perm {nodes more : List VirtualNode} (h : nodes.Perm more)
    (others : List VirtualNode) : (unshared nodes others).Perm (unshared more others) := h.filter _

theorem unshared_nil (nodes : List VirtualNode) : unshared nodes [] = nodes :=
  List.filter_eq_self.mpr fun _ _ => by simp

theorem unshared_congr {nodes others others' : List VirtualNode}
    (h : ∀ node ∈ nodes, node.itemKey? ∈ others.map itemKey? ↔ node.itemKey? ∈ others'.map itemKey?) :
    unshared nodes others = unshared nodes others' :=
  List.filter_congr fun node hm => by simp only [h node hm]

theorem unshared_cons_right {nodes others : List VirtualNode} {node : VirtualNode}
    (h : node.itemKey? ∉ nodes.map itemKey?) : unshared nodes (node :: others) = unshared nodes others :=
  unshared_congr fun a hm => by
    have hne : a.itemKey? ≠ node.itemKey? := fun he => h (he ▸ List.mem_map_of_mem hm)
    simp [hne]

theorem unshared_cons_of_mem {nodes others : List VirtualNode} {node : VirtualNode}
    (h : node.itemKey? ∈ others.map itemKey?) : unshared (node :: nodes) others = unshared nodes others :=
  List.filter_cons_of_neg (by simpa using h)

theorem unshared_cons_of_not_mem {nodes others : List VirtualNode} {node : VirtualNode}
    (h : node.itemKey? ∉ others.map itemKey?) :
    unshared (node :: nodes) others = node :: unshared nodes others :=
  List.filter_cons_of_pos (by simpa using h)

namespace Rekeyed

variable {old pool next rest items : List VirtualNode} {a b node : VirtualNode} {s₁ s₂ : Surface}

theorem nil (e : Enumeration) (parent : NodeId) (pool : List VirtualNode) (s : Surface) :
    Rekeyed pool [] s [] (tearDown parent (e.nodes pool) s) where
  bare_eq := rfl
  kept := by simp
  exists_changes := by
    refine ⟨_, _, Surface.changes_tearDown s parent (e.nodes pool), ?_⟩
    rw [unshared_nil]
    exact flatten_perm (e.nodes_perm pool)

theorem congr_old (h : Rekeyed pool next s items s₁) (hp : pool.Perm old) :
    Rekeyed old next s items s₁ where
  bare_eq := h.bare_eq
  kept := fun a hm => h.kept a (hp.mem_iff.mpr hm)
  exists_changes := by
    obtain ⟨ops, gone, hops, hgone⟩ := h.exists_changes
    rw [unshared_congr fun a _ => (hp.map itemKey?).mem_iff] at hops
    exact ⟨ops, gone, hops, hgone.trans (flatten_perm (unshared_perm hp next))⟩

theorem map_itemKey?_eq (h : Rekeyed pool next s items s₁) :
    items.map itemKey? = next.map itemKey? := map_itemKey?_of_bareAll_eq h.bare_eq

theorem found (h : Rekeyed pool rest s₁ items s₂) (hp : Patched [a] [node] s [b] s₁)
    (hb : b.bare = node.bare) (hk : a.itemKey? = node.itemKey?)
    (hpool : ((a :: pool).map itemKey?).Nodup) (hnext : ((node :: rest).map itemKey?).Nodup) :
    Rekeyed (a :: pool) (node :: rest) s (b :: items) s₂ := by
  have hbk : b.itemKey? = a.itemKey? := (itemKey?_eq_of_bare_eq hb).trans hk.symm
  have ha : a.itemKey? ∉ pool.map itemKey? := (List.nodup_cons.mp hpool).1
  have hn : node.itemKey? ∉ rest.map itemKey? := (List.nodup_cons.mp hnext).1
  have hi : a.itemKey? ∉ items.map itemKey? := by rwa [h.map_itemKey?_eq, hk]
  refine ⟨?_, ?_, ?_⟩
  · rw [bareAll, bareAll, hb, h.bare_eq]
  · intro x hx y hy hxy
    obtain rfl | hx := List.mem_cons.mp hx <;> obtain rfl | hy := List.mem_cons.mp hy
    · exact (List.cons.inj hp.skeleton_eq).1
    · exact absurd (hxy ▸ List.mem_map_of_mem hy) hi
    · exact absurd (hbk ▸ hxy ▸ List.mem_map_of_mem hx) ha
    · exact h.kept x hx y hy hxy
  · obtain ⟨patches, hpatches⟩ := hp.exists_changes
    obtain ⟨ops, gone, hops, hgone⟩ := h.exists_changes
    refine ⟨patches ++ ops, gone, ?_, ?_⟩
    · rw [unshared_cons_of_mem (by simp [hbk]), unshared_cons_right hi]
      exact hpatches.trans hops
    · rwa [unshared_cons_of_mem (by simp [hk]), unshared_cons_right (hk ▸ ha)]

theorem made {ops : List Op} (h : Rekeyed pool rest s₁ items s₂) (hm : s.Changes ops b.held [] s₁)
    (hb : b.bare = node.bare) (hk : node.itemKey? ∉ pool.map itemKey?) :
    Rekeyed pool (node :: rest) s (b :: items) s₂ := by
  have hbk := itemKey?_eq_of_bare_eq hb
  refine ⟨?_, ?_, ?_⟩
  · rw [bareAll, bareAll, hb, h.bare_eq]
  · intro x hx y hy hxy
    obtain rfl | hy := List.mem_cons.mp hy
    · exact absurd (hbk ▸ hxy ▸ List.mem_map_of_mem hx) hk
    · exact h.kept x hx y hy hxy
  · obtain ⟨more, gone, hmore, hgone⟩ := h.exists_changes
    refine ⟨ops ++ more, gone, ?_, ?_⟩
    · rw [unshared_cons_of_not_mem (by rwa [hbk]), heldAll]
      exact hm.trans hmore
    · rwa [unshared_cons_right hk]

end Rekeyed

theorem rekeyed_reconcileAll : ∀ {next pool : List VirtualNode}, AllLive pool →
    (pool.map itemKey?).Nodup → (next.map itemKey?).Nodup →
    (∀ a ∈ pool, ∀ b ∈ next, a.itemKey? = b.itemKey? → a.shape = b.shape) →
    ∀ (parent : NodeId) (s : Surface),
    Rekeyed pool next s (reconcileAll e parent (.keyed pool) next s).1
      (reconcileAll e parent (.keyed pool) next s).2
  | [], pool, _, _, _, _, parent, s => by
    simp only [reconcileAll]
    exact Rekeyed.nil e parent pool s
  | node :: rest, pool, hl, hpool, hnext, hs, parent, s => by
    have hrest : (rest.map itemKey?).Nodup := (List.nodup_cons.mp hnext).2
    rcases ht : Matching.take node (.keyed pool) with ⟨_ | a, m⟩
    · obtain ⟨rfl, hk⟩ := Matching.keyed_of_take_none ht
      obtain ⟨ops, hops⟩ := exists_changes_paint node parent s
      have hr := rekeyed_reconcileAll hl hpool hrest
        (fun x hx y hy => hs x hx y (List.mem_cons_of_mem _ hy)) parent (node.paint parent s).2
      rw [reconcileAll_none ht]
      exact hr.made hops (bare_paint node parent s) hk
    · -- The node with the key is taken out of the pool wherever it stands in it.
      obtain ⟨more, rfl, hperm, hk⟩ := Matching.keyed_of_take_some ht
      have hkeys : ((a :: more).map itemKey?).Nodup := (hperm.map itemKey?).nodup_iff.mp hpool
      obtain ⟨ha, hch, hmore⟩ := allLive_cons.mp (hl.perm hperm)
      have hshape : a.shape = node.shape :=
        hs a (hperm.mem_iff.mpr List.mem_cons_self) node List.mem_cons_self hk
      have hp := patched_reconcile (e := e) (allLive_cons.mpr ⟨ha, hch, allLive_nil⟩) hshape parent s
      have hr := rekeyed_reconcileAll hmore (List.nodup_cons.mp hkeys).2 hrest
        (fun x hx y hy => hs x (hperm.mem_iff.mpr (List.mem_cons_of_mem _ hx)) y
          (List.mem_cons_of_mem _ hy)) parent (reconcile e parent a node s).2
      rw [reconcileAll_some ht]
      exact (hr.found hp (bare_reconcile e node a parent s) hk hkeys hnext).congr_old hperm.symm

/-- Nodes brought to others that differ from them in shape only by the items at the end of a path.
All other nodes keep their handles. -/
structure RekeyedAt (path : List Nat) (before after old : List VirtualNode) (s : Surface)
    (new : List VirtualNode) (s' : Surface) : Prop where
  exists_items : ∃ items, childrenAt? path new = some items ∧ Rekeyed before after s items s'
  hollow_eq : Skeleton.hollow path (skeletonAll new) = Skeleton.hollow path (skeletonAll old)

namespace RekeyedAt

variable {path : List Nat} {before after old new : List VirtualNode} {s₁ s₂ s₃ : Surface}

theorem around {ops more : List Op} (h : RekeyedAt path before after old s₁ new s₂)
    (hpre : s.Changes ops [] [] s₁) (hpost : s₂.Changes more [] [] s₃) :
    RekeyedAt path before after old s new s₃ where
  exists_items := by
    obtain ⟨items, hi, hbare, hkept, calls, gone, hcalls, hgone⟩ := h.exists_items
    have hx := (hpre.trans hcalls).trans hpost
    rw [List.nil_append, List.nil_append, List.append_nil, List.append_nil] at hx
    exact ⟨items, hi, hbare, hkept, _, gone, hx, hgone⟩
  hollow_eq := h.hollow_eq

theorem reconcile {a b : VirtualNode} (hl : AllLive [a]) (hk : a.kind = b.kind)
    (h : ∀ parent s, RekeyedAt path before after a.children s
      (reconcileAll e parent (Matching.start a.children b.children) b.children s).1
      (reconcileAll e parent (Matching.start a.children b.children) b.children s).2)
    (parent : NodeId) (s : Surface) :
    RekeyedAt path before after a.children s (reconcile e parent a b s).1.children
      (VirtualNode.reconcile e parent a b s).2 ∧
      (VirtualNode.reconcile e parent a b s).1.kind = a.kind ∧
      (VirtualNode.reconcile e parent a b s).1.live? = a.live? := by
  have hlive := (allLive_cons.mp hl).1
  match a, b with
  | text shown (some id), text content live =>
    obtain ⟨ops, hops⟩ := Surface.exists_changes_setText s id shown content
    have hx := h parent (if shown = content then s else s.setText id content)
    simp only [children, reconcileAll_start_nil] at hx
    exact ⟨hx.around hops (Surface.Changes.refl _), rfl, rfl⟩
  | element tag attrs listeners children (some id), element tag' attrs' listeners' children' live =>
    obtain rfl : tag = tag' := by injection hk
    obtain ⟨ops, hops⟩ := Surface.exists_changes_patch s id attrs attrs'
    obtain ⟨more, hmore⟩ := Surface.exists_changes_arrange _ id (flatten children) (flatten
      (reconcileAll e id (Matching.start children children') children' (s.patch id attrs attrs')).1)
    rw [reconcile_element]
    exact ⟨(h id (s.patch id attrs attrs')).around hops hmore, rfl, rfl⟩
  | fragment key shown children, fragment key' shown' children' =>
    obtain rfl : key = key' := by injection hk
    rw [reconcile_fragment]
    exact ⟨h parent s, rfl, rfl⟩
  | text _ none, _ =>
    obtain ⟨key, hkey⟩ := hlive rfl
    cases hkey
  | element _ _ _ _ none, _ =>
    obtain ⟨key, hkey⟩ := hlive rfl
    cases hkey

theorem within {front front' back back' f g : List VirtualNode} {a node : VirtualNode}
    (hf : Patched front front' s f s₁)
    (h : RekeyedAt path before after a.children s₁ node.children s₂) (hk : node.kind = a.kind)
    (hl : node.live? = a.live?) (hb : Patched back back' s₂ g s₃) :
    RekeyedAt (front.length :: path) before after (front ++ a :: back) s (f ++ node :: g) s₃ := by
  have hlen : front.length = f.length := by
    rw [← length_skeletonAll f, hf.skeleton_eq, length_skeletonAll]
  obtain ⟨ops, hops⟩ := hf.exists_changes
  obtain ⟨more, hmore⟩ := hb.exists_changes
  have hx := h.around hops hmore
  refine ⟨?_, ?_⟩
  · rw [hlen, childrenAt?_middle]
    exact hx.exists_items
  · rw [hollow_skeletonAll, hlen, hollow_skeletonAll, hf.skeleton_eq, hb.skeleton_eq, hk, hl,
      hx.hollow_eq]

end RekeyedAt

theorem nodup_of_uniquelyKeyed {nodes : List VirtualNode} (h : uniquelyKeyed nodes = true) :
    (nodes.map itemKey?).Nodup := of_decide_eq_true ((Bool.and_eq_true _ _).mp h).2

theorem rekeyedAt_reconcileAll {before after : List VirtualNode} (hbefore : uniquelyKeyed before = true)
    (hafter : uniquelyKeyed after = true)
    (hs : ∀ a ∈ before, ∀ b ∈ after, a.itemKey? = b.itemKey? → a.shape = b.shape) :
    ∀ {path : List Nat} {old next : List VirtualNode}, AllLive old →
    childrenAt? path old = some before → childrenAt? path next = some after →
    Skeleton.hollow path (shapeAll old) = Skeleton.hollow path (shapeAll next) →
    ∀ (parent : NodeId) (s : Surface), RekeyedAt path before after old s
      (reconcileAll e parent (Matching.start old next) next s).1
      (reconcileAll e parent (Matching.start old next) next s).2
  | [], old, next, hl, ho, hn, _, parent, s => by
    obtain rfl : old = before := Option.some.inj ho
    obtain rfl : next = after := Option.some.inj hn
    have hx := rekeyed_reconcileAll (e := e) hl (nodup_of_uniquelyKeyed hbefore)
      (nodup_of_uniquelyKeyed hafter) hs parent s
    rw [Matching.start, if_pos (by rw [hbefore, hafter]; rfl)]
    exact ⟨⟨_, rfl, hx⟩, rfl⟩
  | i :: path, old, next, hl, ho, hn, hh, parent, s => by
    obtain ⟨front, a, back, rfl, rfl, ha⟩ := exists_of_childrenAt? ho
    obtain ⟨front', b, back', rfl, hlen, hb⟩ := exists_of_childrenAt? hn
    rw [hollow_shapeAll, ← hlen, hollow_shapeAll] at hh
    obtain ⟨hfront, hh⟩ := List.append_inj hh (by rw [length_shapeAll, length_shapeAll, hlen])
    obtain ⟨hnode, hback⟩ := List.cons.inj hh
    injection hnode with hkind _ hchildren
    obtain ⟨hlfront, hl⟩ := allLive_append.mp hl
    obtain ⟨hla, hlc, hlback⟩ := allLive_cons.mp hl
    have hkinds : (front ++ a :: back).map kind = (front' ++ b :: back').map kind := by
      rw [List.map_append, List.map_append, List.map_cons, List.map_cons, hkind,
        map_kind_of_shapeAll_eq hfront, map_kind_of_shapeAll_eq hback]
    -- The path goes through nodes of the same kinds, which are matched by position.
    rw [reconcileAll_start hkinds, reconcileAll_append hlen, reconcileAll_some rfl]
    have hf := patched_reconcileAll (e := e) hlfront hfront parent s
    generalize reconcileAll e parent (.positional front) front' s = f at hf ⊢
    have hr := RekeyedAt.reconcile (e := e) (allLive_cons.mpr ⟨hla, hlc, allLive_nil⟩) hkind
      (rekeyedAt_reconcileAll hbefore hafter hs hlc ha hb hchildren) parent f.2
    generalize reconcile e parent a b f.2 = r at hr ⊢
    exact RekeyedAt.within hf hr.1 hr.2.1 hr.2.2 (patched_reconcileAll hlback hback parent r.2)

theorem unshared_eq_nil {nodes others : List VirtualNode}
    (h : ∀ node ∈ nodes, node.itemKey? ∈ others.map itemKey?) : unshared nodes others = [] :=
  List.filter_eq_nil_iff.mpr fun node hm => by simpa using h node hm

end VirtualNode

namespace VirtualTree

open VirtualNode

variable {t u : VirtualTree} {path : List Nat} {before after : List VirtualNode}

theorem rekeyedAt_diff (h : t.Painted guest s) (ht : childrenAt? path t.children = some before)
    (hu : childrenAt? path u.children = some after)
    (hbeside : Skeleton.hollow path t.shape = Skeleton.hollow path u.shape)
    (hbefore : uniquelyKeyed before = true) (hafter : uniquelyKeyed after = true)
    (hs : ∀ a ∈ before, ∀ b ∈ after, a.itemKey? = b.itemKey? → a.shape = b.shape)
    (e : Enumeration) : RekeyedAt path before after t.children s (diff e t u s).1.children
      (diff e t u s).2 := by
  obtain hlive | rfl := h.live
  · obtain ⟨ops, hops⟩ := Surface.exists_changes_arrange (reconcileAll e Surface.root
      (Matching.start t.children u.children) u.children s).2 Surface.root (flatten t.children)
      (flatten (reconcileAll e Surface.root (Matching.start t.children u.children) u.children s).1)
    have hx := rekeyedAt_reconcileAll (e := e) hbefore hafter hs (ShownAll.allLive h.placed.shown)
      ht hu hbeside Surface.root s
    simp only [diff, hlive]
    exact hx.around (Surface.Changes.refl s) hops
  · cases path with
    | cons i path => cases ht
    | nil =>
      obtain rfl : [] = before := Option.some.inj ht
      obtain rfl : u.children = after := Option.some.inj hu
      obtain ⟨ops, hops⟩ := exists_changes_paintAll u.children Surface.root s
      refine ⟨⟨_, rfl, bareAll_paintAll u.children Surface.root s, by simp, ops, [], ?_, ?_⟩, rfl⟩
      · rw [unshared_nil]
        exact hops
      · exact List.Perm.refl _

/-- Where the list items at the same place of two trees have keys all different and the trees are of
one shape but for them, items that are in both keep all their live nodes, and so do all nodes beside
the items. What is made are the nodes of the items with new keys, what is removed are the topmost
nodes of the items whose keys are gone, and nothing if the items are only put in another order. -/
theorem diff_of_uniquelyKeyed (h : t.Painted guest s)
    (ht : childrenAt? path t.children = some before) (hu : childrenAt? path u.children = some after)
    (hbeside : Skeleton.hollow path t.shape = Skeleton.hollow path u.shape)
    (hbefore : uniquelyKeyed before = true) (hafter : uniquelyKeyed after = true)
    (hs : ∀ a ∈ before, ∀ b ∈ after, a.itemKey? = b.itemKey? → a.shape = b.shape)
    (e : Enumeration) : ∃ ops items, s.Does ops (diff e t u s).2 ∧
      childrenAt? path (diff e t u s).1.children = some items ∧ bareAll items = bareAll after ∧
      AllLive items ∧
      (∀ a ∈ before, ∀ b ∈ items, a.itemKey? = b.itemKey? → b.skeleton = a.skeleton) ∧
      Skeleton.hollow path (diff e t u s).1.skeleton = Skeleton.hollow path t.skeleton ∧
      ops.filterMap Op.created? = heldAll (unshared items before) ∧
      (ops.filterMap Op.removed?).Perm (flatten (unshared before after)) ∧
      ((before.map itemKey?).Perm (after.map itemKey?) →
        ops.filterMap Op.created? = [] ∧ ops.filterMap Op.removed? = []) := by
  obtain ⟨⟨items, hi, hbare, hkept, ops, gone, hops, hgone⟩, hhollow⟩ :=
    rekeyedAt_diff h ht hu hbeside hbefore hafter hs e
  have hlive := allLive_of_childrenAt? (ShownAll.allLive (h.diff e u).placed.shown) hi
  obtain rfl := hops.gone_eq
  refine ⟨ops, items, hops.does, hi, hbare, hlive, hkept, hhollow, hops.made_eq, hgone, fun hp => ?_⟩
  have hkeys : items.map itemKey? = after.map itemKey? := map_itemKey?_of_bareAll_eq hbare
  have hmade : unshared items before = [] := unshared_eq_nil fun b hm =>
    hp.mem_iff.mpr (hkeys ▸ List.mem_map_of_mem hm)
  have hlost : unshared before after = [] := unshared_eq_nil fun a hm =>
    hp.mem_iff.mp (List.mem_map_of_mem hm)
  rw [hlost] at hgone
  exact ⟨by rw [hops.made_eq, hmade, heldAll_nil], hgone.eq_nil⟩

def shelf (items : List (String × List String)) : VirtualTree :=
  .ofChildren [.element "ul" Dict.empty [] [.fragment (.list "rows") true (items.map fun item =>
    .fragment (.item item.1) true (item.2.map .ofText))] none, .ofText "end"]

theorem diff_of_uniquelyKeyed_shelf :
    let t := (shelf [("a", ["p", "q"]), ("b", ["r"]), ("c", [])]).paint Surface.empty
    let v := diff .document t.1 (shelf [("c", []), ("d", ["x", "y"]), ("a", ["s", "t"])]) t.2
    t.1.Painted (fun _ => false) t.2 ∧ ∃ ops items, t.2.Does ops v.2 ∧
      childrenAt? [0, 0] v.1.children = some items ∧ items.map held = [[], [6, 7], [2, 3]] ∧
      ops.filterMap Op.created? = [6, 7] ∧ ops.filterMap Op.removed? = [4] := by
  intro t v
  have hp := painted_paint_empty (shelf [("a", ["p", "q"]), ("b", ["r"]), ("c", [])])
  have ht : childrenAt? [0, 0] t.1.children = some
    [.fragment (.item "a") true [.text "p" (some 2), .text "q" (some 3)],
      .fragment (.item "b") true [.text "r" (some 4)], .fragment (.item "c") true []] := rfl
  have hu : childrenAt? [0, 0] (shelf [("c", []), ("d", ["x", "y"]), ("a", ["s", "t"])]).children =
    some [.fragment (.item "c") true [], .fragment (.item "d") true [.ofText "x", .ofText "y"],
      .fragment (.item "a") true [.ofText "s", .ofText "t"]] := rfl
  have hv : childrenAt? [0, 0] v.1.children = some [.fragment (.item "c") true [],
    .fragment (.item "d") true [.text "x" (some 6), .text "y" (some 7)],
    .fragment (.item "a") true [.text "s" (some 2), .text "t" (some 3)]] := rfl
  obtain ⟨ops, items, hdoes, hi, -, -, -, -, hmade, hgone, -⟩ := diff_of_uniquelyKeyed hp ht hu rfl
    (by decide) (by decide) (by simp [itemKey?, VirtualNode.shape, VirtualNode.bare, bareAll,
      VirtualNode.skeleton, skeletonAll, ofText]) .document
  obtain rfl := Option.some.inj (hi.symm.trans hv)
  exact ⟨hp, ops, _, hdoes, hi, rfl, hmade, List.perm_singleton.mp hgone⟩

end VirtualTree

end ReactiveView
