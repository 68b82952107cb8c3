import ReactiveView.Proofs.Tree.FewestMoves
import ReactiveView.Proofs.Tree.Conserving

namespace ReactiveView

open VirtualNode

variable {s s' s₁ s₂ : Surface} {guest guest' : NodeId → Bool} {parent : NodeId} {t : VirtualTree}

/-- Two states of a live node that differ in listeners and in the guests among the children only.
Who is a guest may differ too. -/
structure LiveNode.Alike (n n' : LiveNode) (guest guest' : NodeId → Bool) : Prop where
  kind_eq : n'.kind = n.kind
  parent_eq : n'.parent = n.parent
  children_eq : n'.children.filter (!guest' ·) = n.children.filter (!guest ·)

theorem LiveNode.Holds.congr {n n' : LiveNode} {kind : LiveKind} {children : List NodeId}
    (h : n.Holds guest kind parent children) (ha : n.Alike n' guest guest') :
    n'.Holds guest' kind parent children where
  kind_eq := ha.kind_eq.trans h.kind_eq
  parent_eq := ha.parent_eq.trans h.parent_eq
  children_eq := ha.children_eq.trans h.children_eq

namespace VirtualNode

mutual

theorem Shown.congr : ∀ {node : VirtualNode} {parent : NodeId},
    (∀ id ∈ node.held, ∀ n, s.node? id = some n →
      ∃ n', s'.node? id = some n' ∧ n.Alike n' guest guest') →
    node.Shown s guest parent → node.Shown s' guest' parent
  | element _ _ _ children live, parent, ha, ⟨id, n, hl, hn, hk, hc⟩ => by
    have hi : id ∈ live.toList := by simp [hl]
    obtain ⟨n', hn', hnn⟩ := ha id (by simp [held, hi]) n hn
    exact ⟨id, n', hl, hn', hk.congr hnn, ShownAll.congr (fun i hm => ha i (by simp [held, hm])) hc⟩
  | text _ live, parent, ha, ⟨id, n, hl, hn, hk⟩ => by
    have hi : id ∈ live.toList := by simp [hl]
    obtain ⟨n', hn', hnn⟩ := ha id (by simp [held, hi]) n hn
    exact ⟨id, n', hl, hn', hk.congr hnn⟩
  | fragment _ _ children, parent, ha, h =>
    ShownAll.congr ha (show ShownAll s guest parent children from h)

theorem ShownAll.congr : ∀ {nodes : List VirtualNode} {parent : NodeId},
    (∀ id ∈ heldAll nodes, ∀ n, s.node? id = some n →
      ∃ n', s'.node? id = some n' ∧ n.Alike n' guest guest') →
    ShownAll s guest parent nodes → ShownAll s' guest' parent nodes
  | [], _, _, _ => trivial
  | node :: rest, _, ha, h =>
    ⟨Shown.congr (fun id hm => ha id (by simp [heldAll, hm])) h.1,
      ShownAll.congr (fun id hm => ha id (by simp [heldAll, hm])) h.2⟩

end

end VirtualNode

/-- What a surface comes to when guests alone are made, changed and put elsewhere. The root counts
as a node that is not changed. -/
structure Surface.Visited (guest : NodeId → Bool) (s s' : Surface) : Prop where
  size_le : s.nodes.size ≤ s'.nodes.size
  alike : ∀ id n, s.node? id = some n → (guest id = true → id = Surface.root) →
    ∃ n', s'.node? id = some n' ∧ n.Alike n' guest guest

namespace Surface.Visited

theorem refl (s : Surface) : Visited guest s s :=
  ⟨Nat.le_refl _, fun _ n hn _ => ⟨n, hn, rfl, rfl, rfl⟩⟩

theorem trans (h : Visited guest s s₁) (h' : Visited guest s₁ s₂) : Visited guest s s₂ where
  size_le := Nat.le_trans h.size_le h'.size_le
  alike := fun id n hn hid => by
    obtain ⟨n₁, hn₁, ha⟩ := h.alike id n hn hid
    obtain ⟨n₂, hn₂, ha'⟩ := h'.alike id n₁ hn₁ hid
    exact ⟨n₂, hn₂, ha'.kind_eq.trans ha.kind_eq, ha'.parent_eq.trans ha.parent_eq,
      ha'.children_eq.trans ha.children_eq⟩

theorem note (h : Visited guest s s₁) (op : Op) : Visited guest s (s₁.note op) := ⟨h.size_le, h.alike⟩

theorem alloc (s : Surface) (kind : LiveKind) : Visited guest s (s.alloc kind).2 where
  size_le := by
    rw [size_alloc]
    exact Nat.le_succ _
  alike := fun id n hn _ =>
    ⟨n, by rw [node?_alloc, if_neg (Nat.ne_of_lt (s.node?_eq_some_lt id hn)), hn], rfl, rfl, rfl⟩

theorem modify_guest (s : Surface) {id : NodeId} (hg : guest id = true) (hne : id ≠ Surface.root)
    (f : LiveNode → LiveNode) : Visited guest s (s.modify id f) where
  size_le := Nat.le_of_eq (s.size_modify id f).symm
  alike := fun other n hn hother => by
    have hoi : other ≠ id := fun he => hne (he ▸ hother (he ▸ hg))
    exact ⟨n, by rw [node?_modify, if_neg hoi, hn], rfl, rfl, rfl⟩

theorem modify (s : Surface) (id : NodeId) (f : LiveNode → LiveNode)
    (hf : ∀ n : LiveNode, n.Alike (f n) guest guest) : Visited guest s (s.modify id f) where
  size_le := Nat.le_of_eq (s.size_modify id f).symm
  alike := fun other n hn _ => by
    rw [node?_modify]
    by_cases hoi : other = id
    · subst hoi
      exact ⟨f n, by rw [if_pos rfl, hn, Option.map_some], hf n⟩
    · exact ⟨n, by rw [if_neg hoi, hn], rfl, rfl, rfl⟩

variable {child : NodeId}

theorem detach (s : Surface) (hg : guest child = true) (hne : child ≠ Surface.root) :
    Visited guest s (s.detach child) := by
  unfold Surface.detach
  split
  · exact refl s
  · refine (modify s _ (fun n => { n with children := n.children.filter (· ≠ child) })
      fun n => ⟨rfl, rfl, ?_⟩).trans (modify_guest _ hg hne _)
    rw [List.filter_filter]
    refine List.filter_congr fun id _ => ?_
    by_cases hid : id = child <;> simp [hid, hg]

theorem insertBefore (s : Surface) (parent : NodeId) (hg : guest child = true)
    (hne : child ≠ Surface.root) (before : Option NodeId) :
    Visited guest s (s.insertBefore parent child before) := by
  refine ((detach s hg hne).trans ((modify _ parent
    (fun n => { n with children := insertInto n.children child before })
    fun n => ⟨rfl, rfl, ?_⟩).trans (modify_guest _ hg hne _))).note _
  cases before with
  | none => simp [insertInto, hg]
  | some b =>
    rw [insertInto, List.filter_append, List.filter_cons_of_neg (by simp [hg]), ← List.filter_append,
      List.takeWhile_append_dropWhile]

theorem removeChild (s : Surface) (parent : NodeId) (hg : guest child = true)
    (hne : child ≠ Surface.root) : Visited guest s (s.removeChild parent child) := by
  unfold Surface.removeChild
  split
  · exact (detach s hg hne).note _
  · exact (refl s).note _

end Surface.Visited

inductive GuestCall where
  | createElement (tag : String)
  | createText (content : String)
  | setAttribute (id : NodeId) (name value : String)
  | removeAttribute (id : NodeId) (name : String)
  | setText (id : NodeId) (content : String)
  | insert (parent child : NodeId) (before : Option NodeId)
  | remove (parent child : NodeId)
  | addListener (id : NodeId) (l : Listener)
  | removeListener (id : NodeId) (l : Listener)

namespace GuestCall

def perform (s : Surface) : GuestCall → Surface
  | createElement tag => (s.createElement tag).2
  | createText content => (s.createText content).2
  | setAttribute id name value => s.setAttribute id name value
  | removeAttribute id name => s.removeAttribute id name
  | setText id content => s.setText id content
  | insert parent child before => s.insertBefore parent child before
  | remove parent child => s.removeChild parent child
  | addListener id l => s.addListener id l
  | removeListener id l => s.removeListener id l

def touched? : GuestCall → Option NodeId
  | createElement _ | createText _ | addListener _ _ | removeListener _ _ => none
  | setAttribute id _ _ | removeAttribute id _ | setText id _ => some id
  | insert _ child _ | remove _ child => some child

theorem visited_perform (s : Surface) (c : GuestCall)
    (h : ∀ id ∈ c.touched?, guest id = true ∧ id ≠ Surface.root) :
    s.Visited guest (c.perform s) := by
  cases c with
  | createElement tag | createText content => exact (Surface.Visited.alloc s _).note _
  | setAttribute id _ _ | removeAttribute id _ | setText id _ =>
    obtain ⟨hg, hne⟩ := h id rfl
    exact (Surface.Visited.modify_guest s hg hne _).note _
  | insert parent child before =>
    obtain ⟨hg, hne⟩ := h child rfl
    exact Surface.Visited.insertBefore s parent hg hne before
  | remove parent child =>
    obtain ⟨hg, hne⟩ := h child rfl
    exact Surface.Visited.removeChild s parent hg hne
  | addListener id l =>
    exact (Surface.Visited.modify s id (fun n => { n with listeners := n.listeners ++ [l] })
      fun n => ⟨rfl, rfl, rfl⟩).note _
  | removeListener id l =>
    exact (Surface.Visited.modify s id
      (fun n => { n with listeners := n.listeners.filter (· ≠ l) }) fun n => ⟨rfl, rfl, rfl⟩).note _

end GuestCall

/-- The nodes that were there have the guests among their children that they had, in the same
order. -/
def Surface.Spares (guest : NodeId → Bool) (s s' : Surface) : Prop :=
  ∀ id < s.nodes.size, (s'.children id).filter guest = (s.children id).filter guest

namespace Surface

theorem Spares.refl (s : Surface) : s.Spares guest s := fun _ _ => rfl

theorem Spares.trans (h : s.Spares guest s₁) (hsize : s.nodes.size ≤ s₁.nodes.size)
    (h' : s₁.Spares guest s₂) : s.Spares guest s₂ := fun id hid =>
  (h' id (Nat.lt_of_lt_of_le hid hsize)).trans (h id hid)

theorem spares_setText (s : Surface) (id : NodeId) (content : String) :
    s.Spares guest (s.setText id content) := by
  have hn : ∀ n : LiveNode, (n.withText content).children = n.children := fun n => by
    unfold LiveNode.withText
    split <;> rfl
  intro other _
  simp only [setText, children, node?_note, node?_modify]
  by_cases he : other = id
  · subst he
    cases s.node? other <;> simp [hn]
  · simp [he]

theorem filter_filter_of_not_guest {child : NodeId} (hg : guest child = false) (l : List NodeId) :
    (l.filter (· ∉ [child])).filter guest = l.filter guest := by
  rw [List.filter_filter]
  refine List.filter_congr fun id _ => ?_
  by_cases hid : id = child <;> simp [hid, hg]

theorem spares_insertBefore (s : Surface) (parent : NodeId) {child : NodeId}
    (hg : guest child = false) (before : Option NodeId) :
    s.Spares guest (s.insertBefore parent child before) := by
  intro id _
  have h := filter_children_insertBefore (List.mem_singleton_self child) s parent id before
  rw [← filter_filter_of_not_guest hg, h, filter_filter_of_not_guest hg]

theorem spares_removeChild (s : Surface) (parent : NodeId) {child : NodeId}
    (hg : guest child = false) : s.Spares guest (s.removeChild parent child) := by
  intro id _
  have hdetach : ((s.detach child).children id).filter guest = (s.children id).filter guest := by
    rw [children_detach]
    split
    · have h := filter_filter_of_not_guest hg (s.children id)
      simpa using h
    · rfl
  rw [removeChild]
  split
  · exact hdetach
  · rfl

theorem spares_settle {zs : List (NodeId × Bool)} (hg : ∀ z ∈ zs, guest z.1 = false) :
    s.Spares guest (s.settle parent zs) := by
  induction zs with
  | nil => exact Spares.refl s
  | cons z rest ih =>
    obtain ⟨id, stays⟩ := z
    have hrest := ih fun z hz => hg z (List.mem_cons_of_mem _ hz)
    cases stays with
    | true => exact hrest
    | false =>
      exact hrest.trans (Nat.le_of_eq (size_settle rest).symm)
        (spares_insertBefore _ parent (hg (id, false) List.mem_cons_self) _)

theorem spares_arrange {before after : List NodeId} (hb : before.Nodup) (ha : after.Nodup)
    (hg : ∀ id ∈ after, guest id = false) : s.Spares guest (s.arrange parent before after) := by
  rw [arrange_eq hb ha]
  split
  · exact Spares.refl s
  · exact spares_settle fun z hz => hg z.1 (mem_of_mem_plan hz)

end Surface

theorem Exchanged.spares {new : List VirtualNode} (h : Exchanged guest parent [] new s s')
    (hp : Placed s guest parent []) : s.Spares guest s' := by
  have hnew : ∀ id ∈ flatten new, ¬guest id = true := fun id hm => by
    rw [(h.placed_new hp).not_guest id ((flatten_sublist_heldAll _).subset hm)]
    exact Bool.false_ne_true
  intro id hid
  by_cases hparent : id = parent
  · subst hparent
    obtain ⟨n, hn⟩ := s.exists_node? id hid
    have hn' := h.node?_parent
    rw [hn, Option.map_some, flatten_nil, exchange_nil] at hn'
    simp only [Surface.children, hn, hn', List.filter_append, List.filter_eq_nil_iff.mpr hnew,
      List.append_nil]
  · simp only [Surface.children, h.frame id hid hparent List.not_mem_nil]

namespace VirtualNode

theorem spares_tearDown {nodes : List VirtualNode} (hg : ∀ id ∈ heldAll nodes, guest id = false)
    (s : Surface) : s.Spares guest (tearDown parent nodes s) := by
  have hids : ∀ id ∈ flatten nodes, guest id = false := fun id hm =>
    hg id ((flatten_sublist_heldAll nodes).subset hm)
  rw [tearDown]
  generalize flatten nodes = ids at hids
  induction ids generalizing s with
  | nil => exact Surface.Spares.refl s
  | cons id rest ih =>
    refine (Surface.spares_removeChild s parent (hids id List.mem_cons_self)).trans ?_
      (ih _ fun i hm => hids i (List.mem_cons_of_mem _ hm))
    exact Nat.le_of_eq (s.size_removeChild parent id).symm

theorem spares_replace {old : VirtualNode} (hp : Placed s guest parent [old]) (next : VirtualNode) :
    s.Spares guest (old.replace parent next s).2 := by
  have hdown := exchanged_tearDown hp
  have hp₁ := hdown.placed_new hp
  exact (spares_tearDown hp.not_guest s).trans hdown.size_le ((exchanged_paint next hp₁).spares hp₁)

theorem spares_element {id : NodeId} {tag : String} {attrs attrs' : Dict String}
    {listeners' : List Listener} {children children' : List VirtualNode}
    (hp : Placed s guest parent [.element tag attrs' listeners' children' (some id)])
    (hset : Redressed id tag attrs' attrs s s₁) (hx : Exchanged guest id children' children s₁ s₂)
    (h : s₁.Spares guest s₂) :
    s.Spares guest (s₂.arrange id (flatten children') (flatten children)) := by
  obtain ⟨n, hn, hk, -⟩ := hp.exists_element
  have hp₁ := hp.of_element hset
  have hp₂ := hx.placed_new hp₁
  have hold : s.Spares guest s₁ := fun i _ => by
    by_cases hi : i = id
    · subst hi
      simp only [Surface.children, hn, hset.node?_eq n hn hk.kind_eq]
    · simp only [Surface.children, hset.frame i hi]
  have hsize : s.nodes.size ≤ s₁.nodes.size := Nat.le_of_eq hset.size_eq.symm
  refine (hold.trans hsize h).trans (Nat.le_trans hsize hx.size_le) ?_
  exact Surface.spares_arrange (hp₁.nodup.sublist (flatten_sublist_heldAll _))
    (hp₂.nodup.sublist (flatten_sublist_heldAll _))
    fun i hm => hp₂.not_guest i ((flatten_sublist_heldAll _).subset hm)

mutual

theorem spares_reconcile (e : Enumeration) : ∀ (next : VirtualNode) {old : VirtualNode}
    {parent : NodeId} {s : Surface}, Placed s guest parent [old] →
    s.Spares guest (reconcile e parent old next s).2
  | text content live, old, parent, s, hp => by
    unfold reconcile
    split
    · rename_i shown id
      split
      · exact Surface.Spares.refl s
      · exact Surface.spares_setText s id content
    · exact spares_replace hp _
  | element tag attrs listeners children live, old, parent, s, hp => by
    unfold reconcile
    split
    · split
      · rename_i tag' attrs' listeners' children' id htag
        subst htag
        have hset : Redressed id tag' attrs' attrs s _ := Surface.redressed_patch s attrs' attrs
        have hp₁ : Placed (s.patch id attrs' attrs) guest id
            (Matching.start children' children).nodes := by
          rw [Matching.nodes_start]
          exact hp.of_element hset
        have hx := exchanged_reconcileAll e children hp₁
        rw [Matching.nodes_start] at hx
        exact spares_element hp hset hx (spares_reconcileAll e children hp₁)
      · exact spares_replace hp _
    · exact spares_replace hp _
  | fragment key shown children, old, parent, s, hp => by
    unfold reconcile
    split
    · split
      · exact spares_reconcileAll e children (by rw [Matching.nodes_start]; exact hp.of_fragment)
      · exact spares_replace hp _
    · exact spares_replace hp _

theorem spares_reconcileAll (e : Enumeration) : ∀ (next : List VirtualNode) {m : Matching}
    {parent : NodeId} {s : Surface}, Placed s guest parent m.nodes →
    s.Spares guest (reconcileAll e parent m next s).2
  | [], m, parent, s, hp => by
    unfold reconcileAll
    exact spares_tearDown (hp.perm (m.stale_perm e).symm).not_guest s
  | node :: rest, m, parent, s, hp => by
    unfold reconcileAll
    rcases ht : m.take node with ⟨_ | old, m'⟩
    · rw [← Matching.nodes_of_take ht] at hp
      have hx := exchanged_paint node hp.nil
      exact (hx.spares hp.nil).trans hx.size_le (spares_reconcileAll e rest (hx.placed hp).right)
    · have hp' : Placed s guest parent ([old] ++ m'.nodes) := hp.perm (Matching.perm_of_take ht)
      have hx := exchanged_reconcile e node hp'.left
      exact (spares_reconcile e node hp'.left).trans hx.size_le
        (spares_reconcileAll e rest (hx.placed hp').right)

end

end VirtualNode

namespace VirtualTree

theorem Painted.spares_diff (h : t.Painted guest s) (e : Enumeration) (next : VirtualTree) :
    s.Spares guest (VirtualTree.diff e t next s).2 := by
  obtain hlive | rfl := h.live
  · have hp : Placed s guest Surface.root (Matching.start t.children next.children).nodes := by
      rw [Matching.nodes_start]
      exact h.placed
    have hx := exchanged_reconcileAll e next.children hp
    rw [Matching.nodes_start] at hx
    have hp' := hx.placed_new h.placed
    simp only [VirtualTree.diff, hlive]
    refine (spares_reconcileAll e next.children hp).trans hx.size_le ?_
    exact Surface.spares_arrange (h.placed.nodup.sublist (flatten_sublist_heldAll _))
      (hp'.nodup.sublist (flatten_sublist_heldAll _))
      fun i hm => hp'.not_guest i ((flatten_sublist_heldAll _).subset hm)
  · exact (exchanged_paintAll next.children h.placed).spares h.placed

end VirtualTree

namespace VirtualTree

def outside (t : VirtualTree) (s : Surface) (id : NodeId) : Bool :=
  decide (id < s.nodes.size ∧ id ∉ heldAll t.children)

/-- A node that is there, is not the root and is none of the tree's. -/
def Foreign (t : VirtualTree) (s : Surface) (id : NodeId) : Prop :=
  id < s.nodes.size ∧ id ≠ Surface.root ∧ id ∉ heldAll t.children

instance (t : VirtualTree) (s : Surface) : DecidablePred (t.Foreign s) := fun _ =>
  inferInstanceAs (Decidable (_ ∧ _ ∧ _))

theorem Foreign.outside {id : NodeId} (h : t.Foreign s id) : t.outside s id = true :=
  decide_eq_true ⟨h.1, h.2.2⟩

namespace Painted

theorem visited (h : t.Painted guest s) (hv : s.Visited guest s') : t.Painted guest s' := by
  obtain ⟨n, hn⟩ := s.exists_node? _ h.root_lt
  obtain ⟨n', hn', ha⟩ := hv.alike _ n hn fun _ => rfl
  have hshown : ShownAll s' guest Surface.root t.children := by
    refine ShownAll.congr (fun id hm m hk => hv.alike id m hk fun hg => ?_) h.placed.shown
    rw [h.placed.not_guest id hm] at hg
    cases hg
  refine ⟨h.live, ⟨hshown, h.placed.nodup, Nat.lt_of_lt_of_le h.placed.parent_lt hv.size_le,
    h.placed.parent_not_mem, fun id hg => Nat.lt_of_lt_of_le (h.placed.guest_lt id hg) hv.size_le,
    h.placed.not_guest⟩, ?_, ?_⟩
  · have hc := h.children
    simp only [Surface.children, hn] at hc
    simp only [Surface.children, hn']
    exact ha.children_eq.trans hc
  · have hp := h.parent?
    simp only [Surface.parent?, hn, Option.bind_some] at hp
    simp only [Surface.parent?, hn', Option.bind_some]
    exact ha.parent_eq.trans hp

theorem mono (h : t.Painted guest s) (hle : ∀ id, guest id = true → guest' id = true)
    (hlt : ∀ id, guest' id = true → id < s.nodes.size)
    (hn : ∀ id ∈ heldAll t.children, guest' id = false) : t.Painted guest' s := by
  have hfilter : ∀ children : List NodeId,
      (∀ child ∈ children, guest child = true ∨ child ∈ heldAll t.children) →
      children.filter (!guest' ·) = children.filter (!guest ·) := by
    intro children hc
    refine List.filter_congr fun child hm => ?_
    obtain hg | hh := hc child hm
    · rw [hg, hle child hg]
    · rw [hn child hh, h.placed.not_guest child hh]
  have hroot : ∀ child ∈ s.children Surface.root, guest child = true ∨ child ∈ heldAll t.children := by
    intro child hm
    by_cases hg : guest child = true
    · exact Or.inl hg
    · have hf : child ∈ flatten t.children := h.children ▸ List.mem_filter.mpr ⟨hm, by simpa using hg⟩
      exact Or.inr ((flatten_sublist_heldAll _).subset hf)
  have hshown : ShownAll s guest' Surface.root t.children := by
    refine ShownAll.congr (fun id hm n hk => ⟨n, hk, rfl, rfl, hfilter n.children fun child hc => ?_⟩)
      h.placed.shown
    have hch := ShownAll.children h.placed.shown id hm child
    simp only [Surface.children, hk] at hch
    exact hch hc
  exact ⟨h.live, ⟨hshown, h.placed.nodup, h.placed.parent_lt, h.placed.parent_not_mem, hlt, hn⟩,
    (hfilter _ hroot).trans h.children, h.parent?⟩

theorem outside (h : t.Painted guest s) : t.Painted (t.outside s) s :=
  h.mono (fun id hg => decide_eq_true ⟨h.placed.guest_lt id hg, fun hm => by
    rw [h.placed.not_guest id hm] at hg
    cases hg⟩) (fun _ hg => (of_decide_eq_true hg).1)
    fun _ hm => decide_eq_false fun hg => hg.2 hm

end Painted

/-- A tree brought to a surface on which somebody else makes nodes, changes them and puts them
where they like, in between as often as they like. -/
inductive Hosted : VirtualTree → Surface → Prop
  | start : Hosted VirtualTree.empty Surface.empty
  | paint {t : VirtualTree} {s : Surface} (h : Hosted t s) (next : VirtualTree) :
      Hosted (next.paint s).1 (next.paint s).2
  | pass {t : VirtualTree} {s : Surface} (h : Hosted t s) (e : Enumeration) (next : VirtualTree) :
      Hosted (diff e t next s).1 (diff e t next s).2
  | call {t : VirtualTree} {s : Surface} (h : Hosted t s) (c : GuestCall)
      (hc : ∀ id ∈ c.touched?, t.Foreign s id) : Hosted t (c.perform s)

theorem Hosted.painted (h : t.Hosted s) : t.Painted (t.outside s) s := by
  induction h with
  | start => exact painted_empty.outside
  | paint _ next ih => exact (ih.paint next).outside
  | pass _ e next ih => exact (ih.diff e next).outside
  | call _ c hc ih =>
    exact (ih.visited (c.visited_perform _ fun id hid => ⟨(hc id hid).outside, (hc id hid).2.1⟩)).outside

/-- A pass changes nothing about the nodes that are not the tree's, and every node has those among
its children that it had, in the same order. -/
theorem Hosted.diff_foreign (h : t.Hosted s) (e : Enumeration) (next : VirtualTree) :
    (∀ id, t.Foreign s id → (diff e t next s).2.node? id = s.node? id) ∧
      ∀ id < s.nodes.size, ((diff e t next s).2.children id).filter (t.Foreign s ·) =
        (s.children id).filter (t.Foreign s ·) := by
  have hp := h.painted
  refine ⟨fun id hf => hp.node?_diff e next hf.1 hf.2.1 hf.2.2, fun id hid => ?_⟩
  have hforeign : ∀ children : List NodeId, children.filter (t.Foreign s ·) =
      (children.filter (t.outside s)).filter (t.Foreign s ·) := by
    intro children
    rw [List.filter_filter]
    refine List.filter_congr fun i _ => ?_
    by_cases hf : t.Foreign s i
    · simp [hf, hf.outside]
    · simp [hf]
  rw [hforeign, hp.spares_diff e next id hid, ← hforeign]

def itemised (keys : List String) : VirtualTree :=
  .ofChildren [.fragment (.list "keys") true (keys.map fun key =>
    .fragment (.item key) true [.element "li" Dict.empty [] [.ofText key] none])]

theorem Hosted.diff_foreign_itemised :
    let t := (itemised ["a", "b"]).paint Surface.empty
    let s := [GuestCall.createElement "hr", .insert Surface.root 5 (some 3), .createText "!",
      .insert 1 6 (some 2), .createElement "p"].foldl GuestCall.perform t.2
    let s' := (diff .document t.1 (itemised ["b", "c", "a"]) s).2
    t.1.Hosted s ∧ s.children Surface.root = [1, 5, 3] ∧ s'.children Surface.root = [5, 3, 8, 1] ∧
      (∀ id ∈ [5, 6, 7], t.1.Foreign s id ∧ s'.node? id = s.node? id) ∧
      ∀ id ∈ [Surface.root, 1], (s'.children id).filter (t.1.Foreign s ·) =
        (s.children id).filter (t.1.Foreign s ·) := by
  intro t s s'
  have hs : t.1.Hosted s := by
    refine ((((((Hosted.start.paint _).call (.createElement "hr") ?_).call
      (.insert Surface.root 5 (some 3)) ?_).call (.createText "!") ?_).call
      (.insert 1 6 (some 2)) ?_).call (.createElement "p") ?_)
    all_goals decide +kernel
  have h := hs.diff_foreign .document (itemised ["b", "c", "a"])
  have hf : ∀ id ∈ [5, 6, 7], t.1.Foreign s id := by decide +kernel
  exact ⟨hs, by decide +kernel, by decide +kernel, fun id hm => ⟨hf id hm, h.1 id (hf id hm)⟩,
    fun id hm => h.2 id (by revert id; decide +kernel)⟩

end VirtualTree

end ReactiveView
