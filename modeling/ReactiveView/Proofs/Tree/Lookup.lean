import ReactiveView.Tree.Surface

namespace ReactiveView.Surface

variable (s : Surface) (id other parent child : NodeId)

@[simp] theorem nodes_note (op : Op) : (s.note op).nodes = s.nodes := rfl

@[simp] theorem node?_note (op : Op) : (s.note op).node? id = s.node? id := rfl

@[simp] theorem size_modify (f : LiveNode → LiveNode) :
    (s.modify id f).nodes.size = s.nodes.size := by
  simp [modify]

theorem node?_modify (f : LiveNode → LiveNode) :
    (s.modify id f).node? other = if other = id then (s.node? id).map f else s.node? other := by
  simp only [node?, modify, Array.getElem?_modify]
  by_cases h : id = other
  · subst h; simp
  · simp [h, Ne.symm h]

theorem node?_eq_some_lt {n : LiveNode} (h : s.node? id = some n) : id < s.nodes.size := by
  obtain ⟨hlt, -⟩ := Array.getElem?_eq_some_iff.mp h
  exact hlt

theorem node?_eq_none (h : s.nodes.size ≤ id) : s.node? id = none :=
  Array.getElem?_eq_none h

theorem exists_node? (h : id < s.nodes.size) : ∃ n, s.node? id = some n :=
  ⟨s.nodes[id], Array.getElem?_eq_getElem h⟩

theorem node?_alloc (kind : LiveKind) :
    (s.alloc kind).2.node? id = if id = s.nodes.size then some ⟨kind, none, [], []⟩ else s.node? id := by
  simp only [node?, alloc, Array.getElem?_push]

@[simp] theorem size_alloc (kind : LiveKind) : (s.alloc kind).2.nodes.size = s.nodes.size + 1 := by
  simp [alloc]

@[simp] theorem fst_createElement (tag : String) : (s.createElement tag).1 = s.nodes.size := rfl

@[simp] theorem size_createElement (tag : String) :
    (s.createElement tag).2.nodes.size = s.nodes.size + 1 := s.size_alloc _

@[simp] theorem size_createText (content : String) :
    (s.createText content).2.nodes.size = s.nodes.size + 1 := s.size_alloc _

theorem node?_createElement (tag : String) :
    (s.createElement tag).2.node? id =
      if id = s.nodes.size then some ⟨.element tag Dict.empty, none, [], []⟩ else s.node? id :=
  s.node?_alloc id _

theorem node?_createText (content : String) :
    (s.createText content).2.node? id =
      if id = s.nodes.size then some ⟨.text content, none, [], []⟩ else s.node? id :=
  s.node?_alloc id _

theorem node?_detach (h : s.parent? child = some parent) (hne : parent ≠ child) :
    (s.detach child).node? id =
      if id = child then (s.node? child).map fun n => { n with parent := none }
      else if id = parent then
        (s.node? parent).map fun n => { n with children := n.children.filter (· ≠ child) }
      else s.node? id := by
  simp only [detach, h, node?_modify]
  by_cases hc : id = child
  · simp [hc, Ne.symm hne]
  · by_cases hp : id = parent
    · subst hp; simp [hne]
    · simp [hc, hp]

@[simp] theorem size_detach : (s.detach child).nodes.size = s.nodes.size := by
  unfold detach
  split <;> simp

@[simp] theorem size_insertBefore (before : Option NodeId) :
    (s.insertBefore parent child before).nodes.size = s.nodes.size := by
  simp [insertBefore]

@[simp] theorem size_removeChild : (s.removeChild parent child).nodes.size = s.nodes.size := by
  unfold removeChild
  split <;> simp

theorem node?_append (h : s.parent? child = none) (hne : parent ≠ child) :
    (s.append parent child).node? id =
      if id = child then (s.node? child).map fun n => { n with parent := some parent }
      else if id = parent then
        (s.node? parent).map fun n => { n with children := n.children ++ [child] }
      else s.node? id := by
  simp only [append, insertBefore, detach, h, node?_note, node?_modify, insertInto]
  by_cases hc : id = child
  · simp [hc, Ne.symm hne]
  · by_cases hp : id = parent
    · subst hp; simp [hne]
    · simp [hc, hp]

theorem node?_insertBefore (before : Option NodeId) (h : s.parent? child = some parent)
    (hne : parent ≠ child) :
    (s.insertBefore parent child before).node? id =
      if id = parent then
        (s.node? parent).map fun n =>
          { n with children := insertInto (n.children.filter (· ≠ child)) child before }
      else s.node? id := by
  simp only [insertBefore, node?_note, node?_modify, node?_detach s _ parent child h hne]
  by_cases hc : id = child
  · subst hc
    obtain ⟨n, hn, hp⟩ := Option.bind_eq_some_iff.mp h
    simp [Ne.symm hne, hn, ← hp]
  · by_cases hp : id = parent
    · subst hp
      cases s.node? id <;> simp [hc]
    · simp [hc, hp]

theorem node?_removeChild (h : s.parent? child = some parent) (hne : parent ≠ child) :
    (s.removeChild parent child).node? id =
      if id = child then (s.node? child).map fun n => { n with parent := none }
      else if id = parent then
        (s.node? parent).map fun n => { n with children := n.children.filter (· ≠ child) }
      else s.node? id := by
  rw [removeChild, if_pos h]
  exact node?_detach s id parent child h hne

theorem children_eq_nil (h : s.nodes.size ≤ id) : s.children id = [] := by
  simp only [children, node?_eq_none s id h]

theorem children_move (f : List NodeId → List NodeId) (parent' : Option NodeId) :
    ((s.modify parent fun n => { n with children := f n.children }).modify child
      fun n => { n with parent := parent' }).children id =
      if id = parent ∧ parent < s.nodes.size then f (s.children parent) else s.children id := by
  have hchild : ∀ t : Surface, (t.modify child fun n => { n with parent := parent' }).children id =
      t.children id := by
    intro t
    simp only [children, node?_modify]
    by_cases hc : id = child
    · subst hc
      cases t.node? id <;> simp
    · simp [hc]
  rw [hchild]
  simp only [children, node?_modify]
  by_cases hp : id = parent
  · subst hp
    by_cases hlt : id < s.nodes.size
    · obtain ⟨n, hn⟩ := s.exists_node? _ hlt
      simp [hn, hlt]
    · simp [s.node?_eq_none _ (Nat.not_lt.mp hlt), hlt]
  · simp [hp]

theorem children_detach : (s.detach child).children id =
    if s.parent? child = some id then (s.children id).filter (· ≠ child) else s.children id := by
  unfold detach
  cases s.parent? child with
  | none => simp
  | some parent =>
    simp only [Option.some.injEq, children_move s id parent child (List.filter (· ≠ child))]
    by_cases hp : parent = id
    · subst hp
      by_cases hlt : parent < s.nodes.size
      · simp [hlt]
      · simp [hlt, s.children_eq_nil parent (Nat.not_lt.mp hlt)]
    · simp [hp, Ne.symm hp]

theorem children_removeChild (h : s.parent? child = some parent) :
    (s.removeChild parent child).children parent = (s.children parent).filter (· ≠ child) := by
  rw [removeChild, if_pos h]
  exact (s.children_detach parent child).trans (if_pos h)

theorem children_insertBefore (before : Option NodeId) :
    (s.insertBefore parent child before).children id =
      if id = parent ∧ parent < s.nodes.size then
        insertInto ((s.detach child).children parent) child before
      else (s.detach child).children id := by
  have h := (s.detach child).children_move id parent child (insertInto · child before) (some parent)
  rw [size_detach] at h
  exact h

theorem parent?_move (f : LiveNode → LiveNode) (parent' : Option NodeId)
    (hf : ∀ n, (f n).parent = n.parent) :
    ((s.modify parent f).modify child fun n => { n with parent := parent' }).parent? id =
      if id = child ∧ child < s.nodes.size then parent' else s.parent? id := by
  have hparent : ∀ i, ((s.modify parent f).node? i).bind LiveNode.parent = s.parent? i := by
    intro i
    rw [parent?, node?_modify]
    by_cases hp : i = parent
    · subst hp
      cases s.node? i <;> simp [hf]
    · simp [hp]
  rw [parent?, node?_modify]
  by_cases hc : id = child
  · subst hc
    by_cases hlt : id < s.nodes.size
    · obtain ⟨n, hn⟩ := (s.modify parent f).exists_node? id (by rwa [size_modify])
      simp [hn, hlt]
    · have hn := (s.modify parent f).node?_eq_none id (by rw [size_modify]; exact Nat.not_lt.mp hlt)
      have hs := s.node?_eq_none id (Nat.not_lt.mp hlt)
      simp [hn, hlt, parent?, hs]
  · rw [if_neg hc, hparent, if_neg fun h => hc h.1]

theorem parent?_detach : (s.detach child).parent? id =
    if id = child then none else s.parent? id := by
  unfold detach
  cases h : s.parent? child with
  | none =>
    by_cases hc : id = child
    · simp [hc, h]
    · simp [hc]
  | some parent =>
    have hlt : child < s.nodes.size := by
      obtain ⟨n, hn, -⟩ := Option.bind_eq_some_iff.mp h
      exact s.node?_eq_some_lt child hn
    have hm := s.parent?_move id parent child
      (fun n => { n with children := n.children.filter (· ≠ child) }) none fun _ => rfl
    simpa only [hlt, and_true] using hm

theorem parent?_insertBefore (before : Option NodeId) :
    (s.insertBefore parent child before).parent? id =
      if id = child ∧ child < s.nodes.size then some parent else (s.detach child).parent? id := by
  have h := (s.detach child).parent?_move id parent child
    (fun n => { n with children := insertInto n.children child before }) (some parent) fun _ => rfl
  rw [size_detach] at h
  exact h

end ReactiveView.Surface
