import ReactiveView.Proofs.Tree.Listeners

namespace ReactiveView

variable {s : Surface} {guest : NodeId → Bool}

namespace VirtualNode

mutual

/-- The nodes with a handle within a node, each with the listeners declared on it. A text declares
none. -/
def hearers : VirtualNode → List (NodeId × List Listener)
  | element _ _ listeners children live => (live.map (·, listeners)).toList ++ hearersAll children
  | text _ live => (live.map (·, [])).toList
  | fragment _ _ children => hearersAll children

def hearersAll : List VirtualNode → List (NodeId × List Listener)
  | [] => []
  | node :: rest => node.hearers ++ hearersAll rest

end

/-- The way out from a node within some nodes: it and the elements around it, from the inside out,
each with the listeners declared on it. Fragments are no part of it. -/
inductive Reaches : List VirtualNode → NodeId → List (NodeId × List Listener) → Prop
  | text {nodes : List VirtualNode} {content : String} {id : NodeId}
      (h : text content (some id) ∈ nodes) : Reaches nodes id [(id, [])]
  | element {nodes : List VirtualNode} {tag : String} {attrs : Dict String}
      {listeners : List Listener} {children : List VirtualNode} {id : NodeId}
      (h : element tag attrs listeners children (some id) ∈ nodes) : Reaches nodes id [(id, listeners)]
  | inside {nodes : List VirtualNode} {tag : String} {attrs : Dict String}
      {listeners : List Listener} {children : List VirtualNode} {outer id : NodeId}
      {line : List (NodeId × List Listener)}
      (h : element tag attrs listeners children (some outer) ∈ nodes) (h' : Reaches children id line) :
      Reaches nodes id (line ++ [(outer, listeners)])
  | fragment {nodes : List VirtualNode} {key : FragmentKey} {shown : Bool}
      {children : List VirtualNode} {id : NodeId} {line : List (NodeId × List Listener)}
      (h : fragment key shown children ∈ nodes) (h' : Reaches children id line) : Reaches nodes id line

mutual

theorem map_fst_hearers : ∀ node : VirtualNode, node.hearers.map (·.1) = node.held
  | element _ _ _ children live => by
    rw [hearers, held, List.map_append, map_fst_hearersAll children]
    cases live <;> rfl
  | text _ live => by
    rw [hearers, held]
    cases live <;> rfl
  | fragment _ _ children => by rw [hearers, held, map_fst_hearersAll children]

theorem map_fst_hearersAll : ∀ nodes : List VirtualNode,
    (hearersAll nodes).map (·.1) = heldAll nodes
  | [] => rfl
  | node :: rest => by
    rw [hearersAll, heldAll, List.map_append, map_fst_hearers node, map_fst_hearersAll rest]

end

mutual

theorem declared_eq : ∀ node : VirtualNode,
    node.declared = node.hearers.flatMap fun h => h.2.map (EventBinding.mk h.1)
  | element _ _ listeners children live => by
    rw [declared, hearers, List.flatMap_append, declaredAll_eq children]
    cases live <;> simp
  | text _ live => by
    rw [declared, hearers]
    cases live <;> simp
  | fragment _ _ children => by rw [declared, hearers, declaredAll_eq children]

theorem declaredAll_eq : ∀ nodes : List VirtualNode,
    declaredAll nodes = (hearersAll nodes).flatMap fun h => h.2.map (EventBinding.mk h.1)
  | [] => rfl
  | node :: rest => by
    rw [declaredAll, hearersAll, List.flatMap_append, declared_eq node, declaredAll_eq rest]

end

variable {nodes : List VirtualNode}

theorem mem_declaredAll {binding : EventBinding} : binding ∈ declaredAll nodes ↔
    ∃ listeners, (binding.node, listeners) ∈ hearersAll nodes ∧ binding.listener ∈ listeners := by
  rw [declaredAll_eq, List.mem_flatMap]
  constructor
  · rintro ⟨⟨id, listeners⟩, hm, hb⟩
    obtain ⟨l, hl, rfl⟩ := List.mem_map.mp hb
    exact ⟨listeners, hm, hl⟩
  · rintro ⟨listeners, hm, hl⟩
    exact ⟨(binding.node, listeners), hm, List.mem_map.mpr ⟨binding.listener, hl, rfl⟩⟩

theorem length_held_le {node : VirtualNode} (h : node ∈ nodes) :
    node.held.length ≤ (heldAll nodes).length := by
  rw [heldAll_eq_flatMap]
  exact (List.sublist_flatten_of_mem (List.mem_map_of_mem h)).length_le

theorem Reaches.mono {more : List VirtualNode} {id : NodeId} {line : List (NodeId × List Listener)}
    (h : Reaches nodes id line) (hs : nodes ⊆ more) : Reaches more id line := by
  cases h with
  | text h => exact .text (hs h)
  | element h => exact .element (hs h)
  | inside h h' => exact .inside (hs h) h'
  | fragment h h' => exact .fragment (hs h) h'

mutual

theorem Shown.exists_reaches {id : NodeId} : ∀ {node : VirtualNode} {parent : NodeId},
    node.Shown s guest parent → id ∈ node.held → ∃ line, Reaches [node] id line
  | element _ _ _ children live, _, ⟨outer, n, hl, _, _, hc⟩, hm => by
    subst hl
    obtain rfl | hm := List.mem_cons.mp hm
    · exact ⟨_, .element List.mem_cons_self⟩
    · obtain ⟨line, hl⟩ := ShownAll.exists_reaches hc hm
      exact ⟨_, .inside List.mem_cons_self hl⟩
  | text _ live, _, ⟨_, _, hl, _⟩, hm => by
    subst hl
    rw [held, Option.toList_some, List.mem_singleton] at hm
    subst hm
    exact ⟨_, .text List.mem_cons_self⟩
  | fragment _ _ children, parent, h, hm => by
    have hc : ShownAll s guest parent children := h
    obtain ⟨line, hl⟩ := ShownAll.exists_reaches hc hm
    exact ⟨line, .fragment List.mem_cons_self hl⟩

theorem ShownAll.exists_reaches {id : NodeId} : ∀ {nodes : List VirtualNode} {parent : NodeId},
    ShownAll s guest parent nodes → id ∈ heldAll nodes → ∃ line, Reaches nodes id line
  | node :: rest, _, h, hm => by
    obtain hm | hm := List.mem_append.mp hm
    · obtain ⟨line, hl⟩ := Shown.exists_reaches h.1 hm
      exact ⟨line, hl.mono (by simp)⟩
    · obtain ⟨line, hl⟩ := ShownAll.exists_reaches h.2 hm
      exact ⟨line, hl.mono (List.subset_cons_self _ _)⟩

end

namespace Reaches

variable {id : NodeId} {line : List (NodeId × List Listener)}

theorem length_le (h : Reaches nodes id line) : line.length ≤ (heldAll nodes).length := by
  induction h with
  | text h => exact Nat.le_trans (by simp [held]) (length_held_le h)
  | element h => exact Nat.le_trans (by simp [held]) (length_held_le h)
  | inside h _ ih =>
    refine Nat.le_trans ?_ (length_held_le h)
    simp only [held, Option.toList_some, List.length_append, List.length_singleton]
    omega
  | fragment h _ ih =>
    refine Nat.le_trans ?_ (length_held_le h)
    rwa [held]

theorem lineage (h : Reaches nodes id line) : ∀ {parent : NodeId}, ShownAll s guest parent nodes →
    ∀ levels, s.lineage (line.length + levels) id = line.map (·.1) ++ s.lineage levels parent := by
  induction h with
  | text h =>
    intro parent hs levels
    obtain ⟨_, n, heq, hn, hk⟩ := shownAll_iff.mp hs _ h
    cases heq
    simp only [List.length_singleton, Nat.add_comm 1, Surface.lineage, hn, hk.parent_eq]
    rfl
  | element h =>
    intro parent hs levels
    obtain ⟨_, n, heq, hn, hk, -⟩ := shownAll_iff.mp hs _ h
    cases heq
    simp only [List.length_singleton, Nat.add_comm 1, Surface.lineage, hn, hk.parent_eq]
    rfl
  | inside h _ ih =>
    intro parent hs levels
    obtain ⟨_, n, heq, hn, hk, hc⟩ := shownAll_iff.mp hs _ h
    cases heq
    rw [List.length_append, Nat.add_assoc, ih hc, List.map_append, List.append_assoc]
    simp only [List.length_singleton, Nat.add_comm 1, Surface.lineage, hn, hk.parent_eq]
    rfl
  | fragment h _ ih =>
    intro parent hs levels
    exact ih (shownAll_iff.mp hs _ h) levels

end Reaches

end VirtualNode

namespace VirtualTree

open VirtualNode

variable {t : VirtualTree}

theorem nodup_eraseDups {α : Type} [DecidableEq α] (l : List α) : l.eraseDups.Nodup := by
  induction h : l.length using Nat.strongRecOn generalizing l with
  | ind n ih =>
    cases l with
    | nil => simp
    | cons a rest =>
      rw [List.eraseDups_cons, List.nodup_cons]
      refine ⟨by simp [List.mem_eraseDups], ih _ ?_ _ rfl⟩
      rw [← h, List.length_cons]
      exact Nat.lt_succ_of_le (List.length_filter_le _ _)

theorem nodup_events (t : VirtualTree) : List.Nodup t.events := nodup_eraseDups _

theorem mem_events {binding : EventBinding} :
    binding ∈ t.events ↔ binding ∈ declaredAll t.children := List.mem_eraseDups

namespace Painted

theorem node_lt (h : t.Painted guest s) {binding : EventBinding} (hb : binding ∈ t.events) :
    binding.node < s.nodes.size := by
  obtain ⟨listeners, hm, -⟩ := mem_declaredAll.mp (mem_events.mp hb)
  apply h.placed.lt_size
  rw [← map_fst_hearersAll]
  exact List.mem_map_of_mem hm

theorem refresh {u : VirtualTree} (h : t.Painted guest s) (hs : u.events.HeldBy s) (e : Enumeration) :
    t.Painted guest (EventSet.refresh e u.events t.events s).2 ∧
      t.events.HeldBy (EventSet.refresh e u.events t.events s).2 :=
  ⟨h.alike (EventSet.alike_refresh e _ _ s), hs.refresh t.nodup_events (fun _ hb => h.node_lt hb) e⟩

theorem listeners_nil (hs : t.events.HeldBy s) {id : NodeId} (hm : id ∉ heldAll t.children) :
    s.listeners id = [] := by
  refine List.eq_nil_iff_forall_not_mem.mpr fun l hl => hm ?_
  obtain ⟨listeners, hh, -⟩ := mem_declaredAll.mp (mem_events.mp ((hs.mem_iff id l).mp hl))
  rw [← map_fst_hearersAll]
  exact List.mem_map_of_mem hh

theorem lineage_root (h : t.Painted guest s) (levels : Nat) :
    s.lineage (levels + 1) Surface.root = [Surface.root] := by
  obtain ⟨n, hn⟩ := s.exists_node? _ h.root_lt
  have hp := h.parent?
  simp only [Surface.parent?, hn, Option.bind_some] at hp
  simp only [Surface.lineage, hn, hp]
  rfl

/-- An event that reaches a node of the tree is heard by what is declared for it on the node and on
the elements around it. -/
theorem hearing_eq (h : t.Painted guest s) (hs : t.events.HeldBy s) {target : NodeId}
    {line : List (NodeId × List Listener)} (hl : Reaches t.children target line) (event : String) :
    s.hearing target event =
      line.flatMap fun h => ((s.listeners h.1).filter (·.event = event)).map (·.handler) := by
  obtain ⟨levels, hlevels⟩ : ∃ k, s.nodes.size = line.length + (k + 1) := by
    have hle := hl.length_le
    have hlt := h.length_held_lt
    exact ⟨s.nodes.size - line.length - 1, by omega⟩
  rw [Surface.hearing, hlevels, hl.lineage h.placed.shown, h.lineage_root, List.flatMap_append,
    List.flatMap_map, List.flatMap_singleton, listeners_nil hs h.placed.parent_not_mem]
  simp

end Painted

end VirtualTree

end ReactiveView
