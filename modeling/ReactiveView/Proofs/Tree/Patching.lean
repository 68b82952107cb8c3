import ReactiveView.Proofs.Tree.Calls
import ReactiveView.Proofs.Tree.Painted
import ReactiveView.Proofs.Tree.Shape

namespace ReactiveView

variable {s : Surface} {guest : NodeId → Bool} {parent : NodeId} {e : Enumeration}

namespace VirtualNode

theorem reconcileAll_some {m m' : Matching} {old node : VirtualNode}
    (h : m.take node = (some old, m')) (rest : List VirtualNode) (s : Surface) :
    reconcileAll e parent m (node :: rest) s =
      ((reconcile e parent old node s).1 ::
        (reconcileAll e parent m' rest (reconcile e parent old node s).2).1,
      (reconcileAll e parent m' rest (reconcile e parent old node s).2).2) := by
  simp only [reconcileAll, h]

theorem reconcileAll_none {m m' : Matching} {node : VirtualNode} (h : m.take node = (none, m'))
    (rest : List VirtualNode) (s : Surface) :
    reconcileAll e parent m (node :: rest) s =
      ((node.paint parent s).1 :: (reconcileAll e parent m' rest (node.paint parent s).2).1,
      (reconcileAll e parent m' rest (node.paint parent s).2).2) := by
  simp only [reconcileAll, h]

theorem reconcileAll_keyed : ∀ {next old : List VirtualNode},
    old.map (·.itemKey?) = next.map (·.itemKey?) → ∀ s : Surface,
    reconcileAll e parent (.keyed old) next s = reconcileAll e parent (.positional old) next s
  | [], [], _, s => by
    have hnil : e.nodes [] = [] := (e.nodes_perm []).eq_nil
    simp only [reconcileAll, Matching.stale, hnil]
  | node :: rest, old :: more, h, s => by
    obtain ⟨hk, hr⟩ := List.cons.inj h
    have htake : Matching.take node (.keyed (old :: more)) = (some old, .keyed more) := by
      simp only [Matching.take]
      rw [List.find?_cons_of_pos (by simpa using hk), List.eraseP_cons_of_pos (by simpa using hk)]
    rw [reconcileAll_some htake, reconcileAll_some rfl, reconcileAll_keyed hr]

theorem reconcileAll_start {old next : List VirtualNode} (h : old.map kind = next.map kind)
    (s : Surface) : reconcileAll e parent (Matching.start old next) next s =
      reconcileAll e parent (.positional old) next s := by
  unfold Matching.start
  split
  · exact reconcileAll_keyed (map_itemKey?_of_map_kind h) s
  · rfl

theorem reconcileAll_start_nil (s : Surface) :
    reconcileAll e parent (Matching.start [] []) [] s = ([], s) := by
  rw [reconcileAll_start rfl]
  simp [reconcileAll, Matching.stale, tearDown]

theorem reconcileAll_append : ∀ {front old : List VirtualNode}, front.length = old.length →
    ∀ (next rest : List VirtualNode) (s : Surface),
    reconcileAll e parent (.positional (old ++ rest)) (front ++ next) s =
      ((reconcileAll e parent (.positional old) front s).1 ++ (reconcileAll e parent
          (.positional rest) next (reconcileAll e parent (.positional old) front s).2).1,
        (reconcileAll e parent (.positional rest) next
          (reconcileAll e parent (.positional old) front s).2).2)
  | [], [], _, next, rest, s => by simp [reconcileAll, tearDown, Matching.stale]
  | node :: front, first :: old, h, next, rest, s => by
    have hlen : front.length = old.length := Nat.succ.inj h
    rw [List.cons_append, List.cons_append, reconcileAll_some rfl, reconcileAll_some rfl,
      reconcileAll_append hlen]
    rfl

/-- The calls that make a live node show what another node of its kind says. -/
def patches : VirtualNode → VirtualNode → List Op
  | element _ attrs _ _ (some id), element _ attrs' _ _ _ =>
    (attrs'.entries.filter fun a => attrs.get? a.1 ≠ some a.2).map
        (fun a => .setAttribute id a.1 a.2) ++
      (attrs.keys.filter fun name => ¬ attrs'.contains name).map (.removeAttribute id)
  | text content (some id), text content' _ =>
    if content = content' then [] else [.setText id content']
  | _, _ => []

def content : VirtualNode → Dict String × String
  | element _ attrs _ _ _ => (attrs, "")
  | text content _ => (Dict.empty, content)
  | fragment _ _ _ => (Dict.empty, "")

def patchesAll (old next : List VirtualNode) : List Op :=
  ((walkAll old).zip (walkAll next)).flatMap fun p => p.1.patches p.2

theorem patchesAll_cons {a b : VirtualNode} (h : a.shape = b.shape) (rest more : List VirtualNode) :
    patchesAll (a :: rest) (b :: more) = patchesAll [a] [b] ++ patchesAll rest more := by
  simp only [patchesAll, walkAll, List.append_nil]
  rw [List.zip_append (length_walk_of_shape_eq h), List.flatMap_append]

theorem patchesAll_singleton (a b : VirtualNode) :
    patchesAll [a] [b] = a.patches b ++ patchesAll a.children b.children := by
  simp only [patchesAll, walkAll, List.append_nil]
  rw [walk_eq, walk_eq, List.zip_cons_cons, List.flatMap_cons]

/-- Nodes that are brought to others of their shapes: they keep what they have of kinds and handles,
and the calls are those where texts and attributes differ. -/
structure Patched (old next : List VirtualNode) (s : Surface) (new : List VirtualNode)
    (s' : Surface) : Prop where
  skeleton_eq : skeletonAll new = skeletonAll old
  does : s.Does (patchesAll old next) s'

theorem arrange_self (s : Surface) (parent : NodeId) (ids : List NodeId) :
    s.arrange parent ids ids = s := by
  have h : ids.filter (· ∈ ids) ++ ids.filter (· ∉ ids) = ids := by
    rw [List.filter_eq_self.mpr fun id hm => by simpa using hm,
      List.filter_eq_nil_iff.mpr fun id hm => by simpa using hm, List.append_nil]
  rw [Surface.arrange, if_pos h]

theorem reconcile_element (tag : String) (attrs attrs' : Dict String)
    (listeners listeners' : List Listener) (children children' : List VirtualNode) (id : NodeId)
    (live : Option NodeId) (s : Surface) :
    reconcile e parent (element tag attrs' listeners' children' (some id))
        (element tag attrs listeners children live) s =
      (element tag attrs listeners (reconcileAll e id (Matching.start children' children) children
          (s.patch id attrs' attrs)).1 (some id),
        (reconcileAll e id (Matching.start children' children) children
          (s.patch id attrs' attrs)).2.arrange id (flatten children')
          (flatten (reconcileAll e id (Matching.start children' children) children
            (s.patch id attrs' attrs)).1)) := by
  simp [reconcile]

theorem reconcile_fragment (key : FragmentKey) (shown shown' : Bool)
    (children children' : List VirtualNode) (s : Surface) :
    reconcile e parent (fragment key shown' children') (fragment key shown children) s =
      (fragment key shown (reconcileAll e parent (Matching.start children' children) children s).1,
        (reconcileAll e parent (Matching.start children' children) children s).2) := by
  simp [reconcile]

mutual

theorem patched_reconcile : ∀ {next old : VirtualNode}, AllLive [old] → old.shape = next.shape →
    ∀ (parent : NodeId) (s : Surface),
    Patched [old] [next] s [(reconcile e parent old next s).1] (reconcile e parent old next s).2
  | text content live, old, hl, h, parent, s => by
    match old with
    | text shown (some id) =>
      refine ⟨rfl, ?_⟩
      have hset := (Surface.does_setText s id content).ifNot (p := shown = content)
      simpa [patchesAll, walkAll, walk, patches, reconcile] using hset
    | text shown none =>
      obtain ⟨key, hk⟩ := (allLive_cons.mp hl).1 rfl
      cases hk
  | element tag attrs listeners children live, old, hl, h, parent, s => by
    match old with
    | element tag' attrs' listeners' children' (some id) =>
      obtain rfl : tag' = tag := by injection (shape_inj h).1
      have hch : shapeAll children' = shapeAll children := (shape_inj h).2
      have hlive : AllLive children' := (allLive_cons.mp hl).2.1
      have hx := patched_reconcileAll hlive hch id (s.patch id attrs' attrs)
      rw [reconcile_element, reconcileAll_start (map_kind_of_shapeAll_eq hch),
        flatten_of_skeletonAll_eq hx.skeleton_eq, arrange_self]
      refine ⟨?_, ?_⟩
      · simp only [skeletonAll, skeleton, hx.skeleton_eq]
      · rw [patchesAll_singleton]
        exact (Surface.does_patch s id attrs' attrs).trans hx.does
    | element tag' attrs' listeners' children' none =>
      obtain ⟨key, hk⟩ := (allLive_cons.mp hl).1 rfl
      cases hk
  | fragment key shown children, old, hl, h, parent, s => by
    match old with
    | fragment key' shown' children' =>
      obtain rfl : key' = key := by injection (shape_inj h).1
      have hch : shapeAll children' = shapeAll children := (shape_inj h).2
      have hlive : AllLive children' := (allLive_cons.mp hl).2.1
      have hx := patched_reconcileAll hlive hch parent s
      rw [reconcile_fragment, reconcileAll_start (map_kind_of_shapeAll_eq hch)]
      refine ⟨?_, ?_⟩
      · simp only [skeletonAll, skeleton, hx.skeleton_eq]
      · rw [patchesAll_singleton]
        exact hx.does

theorem patched_reconcileAll : ∀ {next old : List VirtualNode}, AllLive old →
    shapeAll old = shapeAll next → ∀ (parent : NodeId) (s : Surface),
    Patched old next s (reconcileAll e parent (.positional old) next s).1
      (reconcileAll e parent (.positional old) next s).2
  | [], [], _, _, _, s => ⟨rfl, Surface.Does.refl s⟩
  | node :: rest, old :: more, hl, h, parent, s => by
    obtain ⟨h1, h2⟩ := List.cons.inj h
    obtain ⟨hnode, hch, hmore⟩ := allLive_cons.mp hl
    have hold : AllLive [old] := allLive_cons.mpr ⟨hnode, hch, allLive_nil⟩
    rw [reconcileAll_some rfl]
    have hp := patched_reconcile hold h1 parent s
    have hr := patched_reconcileAll hmore h2 parent (reconcile e parent old node s).2
    refine ⟨?_, ?_⟩
    · have := hp.skeleton_eq
      simp only [skeletonAll, List.cons.injEq, and_true] at this ⊢
      exact ⟨this, hr.skeleton_eq⟩
    · rw [patchesAll_cons h1]
      exact hp.does.trans hr.does

end

theorem patch_of_mem_patches {a b : VirtualNode} {op : Op} (h : op ∈ a.patches b) :
    op.created? = none ∧ op.inserted? = none ∧ op.removed? = none := by
  unfold patches at h
  split at h
  · obtain h | h := List.mem_append.mp h <;> obtain ⟨x, -, rfl⟩ := List.mem_map.mp h <;>
      exact ⟨rfl, rfl, rfl⟩
  · split at h
    · cases h
    · rw [List.mem_singleton.mp h]
      exact ⟨rfl, rfl, rfl⟩
  · cases h

theorem Patched.exists_changes {old next new : List VirtualNode} {s s' : Surface}
    (h : Patched old next s new s') : ∃ ops, s.Changes ops [] [] s' :=
  ⟨_, Surface.Changes.of_does h.does fun op hm => by
    obtain ⟨p, -, hp⟩ := List.mem_flatMap.mp hm
    obtain ⟨hmade, -, hgone⟩ := patch_of_mem_patches hp
    exact ⟨hmade, hgone⟩⟩

theorem patches_of_content_eq {a b : VirtualNode} (h : a.content = b.content) : a.patches b = [] := by
  unfold patches
  split
  · obtain ⟨rfl, -⟩ := Prod.mk.inj h
    rw [List.append_eq_nil_iff, List.map_eq_nil_iff, List.map_eq_nil_iff, List.filter_eq_nil_iff,
      List.filter_eq_nil_iff]
    refine ⟨fun entry hm => ?_, fun name hm => ?_⟩
    · simp [Dict.get?_of_mem hm]
    · simp [Dict.mem_keys.mp hm]
  · obtain ⟨-, rfl⟩ := Prod.mk.inj h
    rw [if_pos rfl]
  · rfl

end VirtualNode

namespace VirtualTree

open VirtualNode

variable {t u : VirtualTree}

/-- A pass to a tree of the shape of the one before does exactly the patches of the nodes that stand
at the same position, and every node takes over the handle at its position. Where texts and
attributes agree nothing is done. -/
theorem diff_of_shape_eq (h : t.Painted guest s) (hs : t.shape = u.shape) (e : Enumeration) :
    s.Does ((t.walk.zip u.walk).flatMap fun p => p.1.patches p.2) (diff e t u s).2 ∧
      (diff e t u s).1.skeleton = t.skeleton ∧ (diff e t u s).1.bare = u.bare ∧
      (∀ op ∈ (t.walk.zip u.walk).flatMap fun p => p.1.patches p.2,
        op.created? = none ∧ op.inserted? = none ∧ op.removed? = none) ∧
      ((∀ p ∈ t.walk.zip u.walk, p.1.content = p.2.content) → (diff e t u s).2 = s) := by
  have hpatched : Patched t.children u.children s (diff e t u s).1.children (diff e t u s).2 := by
    obtain hlive | rfl := h.live
    · have hx := patched_reconcileAll (ShownAll.allLive h.placed.shown) hs Surface.root s (e := e)
      simp only [diff, hlive]
      rw [reconcileAll_start (map_kind_of_shapeAll_eq hs), flatten_of_skeletonAll_eq hx.skeleton_eq,
        arrange_self]
      exact hx
    · obtain ⟨children, live⟩ := u
      cases children with
      | nil => exact ⟨rfl, Surface.Does.refl s⟩
      | cons node rest => cases hs
  refine ⟨hpatched.does, hpatched.skeleton_eq, bare_diff e t u s, fun op hm => ?_, fun hc => ?_⟩
  · obtain ⟨p, -, hp⟩ := List.mem_flatMap.mp hm
    exact patch_of_mem_patches hp
  · have hnil : patchesAll t.children u.children = [] :=
      List.flatMap_eq_nil_iff.mpr fun p hp => patches_of_content_eq (hc p hp)
    have hdoes := hpatched.does.performAll_eq
    rw [hnil] at hdoes
    exact hdoes.symm

def leaflet (attrs : List (String × String)) (first second last : String) : VirtualTree :=
  .ofChildren [.element "ul" (Dict.ofList attrs) [] [.fragment (.list "rows") true
    [.fragment (.item "a") true [.ofText first], .fragment (.item "a") true [.ofText second]]] none,
    .ofText last]

theorem diff_of_shape_eq_leaflet :
    let t := (leaflet [("class", "x"), ("id", "y")] "p" "q" "r").paint Surface.empty
    let u := leaflet [("class", "z"), ("lang", "w")] "p" "s" "t"
    t.1.Painted (fun _ => false) t.2 ∧ t.1.shape = u.shape ∧
      t.2.Does [.setAttribute 1 "class" "z", .setAttribute 1 "lang" "w", .removeAttribute 1 "id",
        .setText 3 "s", .setText 4 "t"] (diff .document t.1 u t.2).2 ∧
      (diff .document t.1 u t.2).1.skeleton = t.1.skeleton :=
  have hp := painted_paint_empty (leaflet [("class", "x"), ("id", "y")] "p" "q" "r")
  have h := diff_of_shape_eq hp (u := leaflet [("class", "z"), ("lang", "w")] "p" "s" "t") rfl
    .document
  ⟨hp, rfl, h.1, h.2.1⟩

end VirtualTree

end ReactiveView
