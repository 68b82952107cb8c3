import ReactiveView.Proofs.Tree.Order
import ReactiveView.Proofs.Tree.Painting

namespace ReactiveView

namespace Op

def created? : Op → Option NodeId
  | createElement node _ => some node
  | createText node _ => some node
  | _ => none

def removed? : Op → Option NodeId
  | remove _ child => some child
  | _ => none

def inserted? : Op → Option NodeId
  | insert _ child _ => some child
  | _ => none

end Op

namespace Surface

/-- The surface after a call. Who listens is not in the log, so calls about listeners are only
noted. -/
def perform (s : Surface) : Op → Surface
  | .createElement _ tag => (s.createElement tag).2
  | .createText _ content => (s.createText content).2
  | .setAttribute node name value => s.setAttribute node name value
  | .removeAttribute node name => s.removeAttribute node name
  | .setText node content => s.setText node content
  | .insert parent child before => s.insertBefore parent child before
  | .remove parent child => s.removeChild parent child
  | .addListener node event => s.note (.addListener node event)
  | .removeListener node event => s.note (.removeListener node event)

def performAll (s : Surface) (ops : List Op) : Surface := ops.foldl perform s

/-- Calls that lead from one surface to another and are what was logged meanwhile. -/
structure Does (s : Surface) (ops : List Op) (s' : Surface) : Prop where
  performAll_eq : s.performAll ops = s'
  log_eq : s'.log.toList = s.log.toList ++ ops

variable {s s₁ s₂ : Surface} {ops more : List Op} {parent : NodeId}

theorem performAll_append (s : Surface) (ops more : List Op) :
    s.performAll (ops ++ more) = (s.performAll ops).performAll more := List.foldl_append

namespace Does

theorem refl (s : Surface) : s.Does [] s := ⟨rfl, by simp⟩

theorem trans (h : s.Does ops s₁) (h' : s₁.Does more s₂) : s.Does (ops ++ more) s₂ where
  performAll_eq := by rw [performAll_append, h.performAll_eq, h'.performAll_eq]
  log_eq := by rw [h'.log_eq, h.log_eq, List.append_assoc]

theorem ifNot {p : Prop} [Decidable p] (h : s.Does ops s₁) :
    s.Does (if p then [] else ops) (if p then s else s₁) := by
  split
  · exact refl s
  · exact h

theorem foldl {β : Type} {f : Surface → β → Surface} {g : β → List Op}
    (hstep : ∀ (s : Surface) b, s.Does (g b) (f s b)) (bs : List β) (s : Surface) :
    s.Does (bs.flatMap g) (bs.foldl f s) := by
  induction bs generalizing s with
  | nil => exact refl s
  | cons b rest ih => exact (hstep s b).trans (ih _)

end Does

theorem log_detach (s : Surface) (child : NodeId) : (s.detach child).log = s.log := by
  unfold detach
  split <;> rfl

theorem does_createElement (s : Surface) (tag : String) :
    s.Does [.createElement s.nodes.size tag] (s.createElement tag).2 :=
  ⟨rfl, by simp [createElement, alloc, note]⟩

theorem does_createText (s : Surface) (content : String) :
    s.Does [.createText s.nodes.size content] (s.createText content).2 :=
  ⟨rfl, by simp [createText, alloc, note]⟩

theorem does_setAttribute (s : Surface) (id : NodeId) (name value : String) :
    s.Does [.setAttribute id name value] (s.setAttribute id name value) :=
  ⟨rfl, by simp [setAttribute, modify, note]⟩

theorem does_removeAttribute (s : Surface) (id : NodeId) (name : String) :
    s.Does [.removeAttribute id name] (s.removeAttribute id name) :=
  ⟨rfl, by simp [removeAttribute, modify, note]⟩

theorem does_setText (s : Surface) (id : NodeId) (content : String) :
    s.Does [.setText id content] (s.setText id content) :=
  ⟨rfl, by simp [setText, modify, note]⟩

theorem does_insertBefore (s : Surface) (parent child : NodeId) (before : Option NodeId) :
    s.Does [.insert parent child before] (s.insertBefore parent child before) :=
  ⟨rfl, by simp [insertBefore, modify, note, log_detach]⟩

theorem does_removeChild (s : Surface) (parent child : NodeId) :
    s.Does [.remove parent child] (s.removeChild parent child) := by
  refine ⟨rfl, ?_⟩
  unfold removeChild
  split <;> simp [note, log_detach]

theorem flatMap_ite_nil {α β : Type} (p : α → Prop) [DecidablePred p] (f : α → β) (items : List α) :
    (items.flatMap fun a => if p a then [] else [f a]) = (items.filter (¬ p ·)).map f := by
  induction items with
  | nil => rfl
  | cons a rest ih =>
    rw [List.flatMap_cons, ih]
    by_cases h : p a <;> simp [h]

theorem does_patch (s : Surface) (id : NodeId) (previous next : Dict String) :
    s.Does ((next.entries.filter fun a => previous.get? a.1 ≠ some a.2).map
        (fun a => .setAttribute id a.1 a.2) ++
      (previous.keys.filter fun name => ¬ next.contains name).map (.removeAttribute id))
      (s.patch id previous next) := by
  have hset := Does.foldl (fun s (a : String × String) =>
    (does_setAttribute s id a.1 a.2).ifNot (p := previous.get? a.1 = some a.2)) next.entries s
  have hdrop := Does.foldl (fun s name =>
    (does_removeAttribute s id name).ifNot (p := next.contains name = true)) previous.keys
  rw [flatMap_ite_nil (fun a : String × String => previous.get? a.1 = some a.2)] at hset
  simp only [flatMap_ite_nil (fun name => next.contains name = true)] at hdrop
  exact hset.trans (hdrop _)

theorem does_tearDown (s : Surface) (parent : NodeId) (nodes : List VirtualNode) :
    s.Does ((VirtualNode.flatten nodes).map (.remove parent))
      (VirtualNode.tearDown parent nodes s) := by
  have h := Does.foldl (fun s id => does_removeChild s parent id) (VirtualNode.flatten nodes) s
  rwa [← List.map_eq_flatMap] at h

def insertions (parent : NodeId) : List (NodeId × Bool) → List Op
  | [] => []
  | (id, stays) :: rest =>
    insertions parent rest ++ if stays then [] else [.insert parent id (rest.head?.map (·.1))]

theorem does_settle (s : Surface) (parent : NodeId) (zs : List (NodeId × Bool)) :
    s.Does (insertions parent zs) (s.settle parent zs) := by
  induction zs with
  | nil => exact Does.refl s
  | cons z rest ih =>
    obtain ⟨id, stays⟩ := z
    cases stays with
    | true => simpa [insertions, settle] using ih
    | false =>
      have h := ih.trans (does_insertBefore _ parent id (rest.head?.map (·.1)))
      simpa [insertions, settle] using h

theorem length_insertions (parent : NodeId) (zs : List (NodeId × Bool)) :
    (insertions parent zs).length + zs.countP (·.2) = zs.length := by
  induction zs with
  | nil => rfl
  | cons z rest ih =>
    obtain ⟨id, stays⟩ := z
    cases stays <;> simp [insertions] <;> omega

theorem eq_insert_of_mem {zs : List (NodeId × Bool)} {op : Op}
    (h : op ∈ insertions parent zs) : ∃ id before, op = .insert parent id before := by
  induction zs with
  | nil => cases h
  | cons z rest ih =>
    obtain ⟨id, stays⟩ := z
    obtain h | h := List.mem_append.mp h
    · exact ih h
    · cases stays with
      | true => cases h
      | false => exact ⟨id, _, List.mem_singleton.mp h⟩

theorem does_arrange (s : Surface) (parent : NodeId) (before after : List NodeId) :
    ∃ ops, s.Does ops (s.arrange parent before after) ∧
      ∀ op ∈ ops, ∃ id before, op = .insert parent id before := by
  unfold arrange
  simp only
  split
  · exact ⟨[], Does.refl s, by simp⟩
  · split
    · exact ⟨[], Does.refl s, by simp⟩
    · rw [foldr_eq_settle]
      exact ⟨_, does_settle s parent _, fun _ => eq_insert_of_mem⟩

/-- Calls that lead from one surface to another, with the nodes that they make and those that they
remove. -/
structure Changes (s : Surface) (ops : List Op) (made gone : List NodeId) (s' : Surface) :
    Prop where
  does : s.Does ops s'
  made_eq : ops.filterMap Op.created? = made
  gone_eq : ops.filterMap Op.removed? = gone

namespace Changes

variable {made gone made' gone' : List NodeId}

theorem refl (s : Surface) : s.Changes [] [] [] s := ⟨Does.refl s, rfl, rfl⟩

theorem trans (h : s.Changes ops made gone s₁) (h' : s₁.Changes more made' gone' s₂) :
    s.Changes (ops ++ more) (made ++ made') (gone ++ gone') s₂ where
  does := h.does.trans h'.does
  made_eq := by rw [List.filterMap_append, h.made_eq, h'.made_eq]
  gone_eq := by rw [List.filterMap_append, h.gone_eq, h'.gone_eq]

theorem of_does (h : s.Does ops s₁)
    (hops : ∀ op ∈ ops, op.created? = none ∧ op.removed? = none) : s.Changes ops [] [] s₁ where
  does := h
  made_eq := List.filterMap_eq_nil_iff.mpr fun op hm => (hops op hm).1
  gone_eq := List.filterMap_eq_nil_iff.mpr fun op hm => (hops op hm).2

end Changes

theorem changes_append (s : Surface) (parent child : NodeId) :
    s.Changes [.insert parent child none] [] [] (s.append parent child) :=
  ⟨does_insertBefore s parent child none, rfl, rfl⟩

theorem exists_changes_setAll (s : Surface) (id : NodeId) (entries : List (String × String)) :
    ∃ ops, s.Changes ops [] [] (entries.foldl (fun s a => s.setAttribute id a.1 a.2) s) := by
  have h := Does.foldl (fun s (a : String × String) => does_setAttribute s id a.1 a.2) entries s
  refine ⟨_, Changes.of_does h fun op hm => ?_⟩
  obtain ⟨a, -, hm⟩ := List.mem_flatMap.mp hm
  rw [List.mem_singleton.mp hm]
  exact ⟨rfl, rfl⟩

theorem exists_changes_patch (s : Surface) (id : NodeId) (previous next : Dict String) :
    ∃ ops, s.Changes ops [] [] (s.patch id previous next) := by
  refine ⟨_, Changes.of_does (does_patch s id previous next) fun op hm => ?_⟩
  obtain hm | hm := List.mem_append.mp hm <;> obtain ⟨x, -, rfl⟩ := List.mem_map.mp hm <;>
    exact ⟨rfl, rfl⟩

theorem exists_changes_setText (s : Surface) (id : NodeId) (shown content : String) :
    ∃ ops, s.Changes ops [] [] (if shown = content then s else s.setText id content) := by
  refine ⟨_, Changes.of_does ((does_setText s id content).ifNot (p := shown = content)) fun op hm => ?_⟩
  split at hm
  · cases hm
  · rw [List.mem_singleton.mp hm]
    exact ⟨rfl, rfl⟩

theorem exists_changes_arrange (s : Surface) (parent : NodeId) (before after : List NodeId) :
    ∃ ops, s.Changes ops [] [] (s.arrange parent before after) := by
  obtain ⟨ops, h, hops⟩ := does_arrange s parent before after
  refine ⟨ops, Changes.of_does h fun op hm => ?_⟩
  obtain ⟨id, anchor, rfl⟩ := hops op hm
  exact ⟨rfl, rfl⟩

theorem changes_tearDown (s : Surface) (parent : NodeId) (nodes : List VirtualNode) :
    s.Changes ((VirtualNode.flatten nodes).map (.remove parent)) [] (VirtualNode.flatten nodes)
      (VirtualNode.tearDown parent nodes s) := by
  refine ⟨does_tearDown s parent nodes, ?_, ?_⟩
  · rw [List.filterMap_map]
    exact List.filterMap_eq_nil_iff.mpr fun _ _ => rfl
  · rw [List.filterMap_map]
    exact List.filterMap_some

end Surface

namespace VirtualNode

open Surface

mutual

theorem exists_changes_paint : ∀ (node : VirtualNode) (parent : NodeId) (s : Surface),
    ∃ ops, s.Changes ops (node.paint parent s).1.held [] (node.paint parent s).2
  | element tag attrs listeners children live, parent, s => by
    rw [paint_element]
    obtain ⟨sets, hset⟩ := exists_changes_setAll (s.createElement tag).2 s.nodes.size attrs.entries
    obtain ⟨ops, hops⟩ := exists_changes_paintAll children s.nodes.size _
    have hmake : s.Changes [.createElement s.nodes.size tag] [s.nodes.size] []
      (s.createElement tag).2 := ⟨does_createElement s tag, rfl, rfl⟩
    have h := ((hmake.trans hset).trans hops).trans (changes_append _ parent s.nodes.size)
    simp only [List.append_nil] at h
    exact ⟨_, h⟩
  | text content _, parent, s => by
    have hmake : s.Changes [.createText s.nodes.size content] [s.nodes.size] []
      (s.createText content).2 := ⟨does_createText s content, rfl, rfl⟩
    exact ⟨_, hmake.trans (changes_append _ parent s.nodes.size)⟩
  | fragment _ _ children, parent, s => exists_changes_paintAll children parent s

theorem exists_changes_paintAll : ∀ (nodes : List VirtualNode) (parent : NodeId) (s : Surface),
    ∃ ops, s.Changes ops (heldAll (paintAll parent nodes s).1) [] (paintAll parent nodes s).2
  | [], _, s => ⟨[], Changes.refl s⟩
  | node :: rest, parent, s => by
    obtain ⟨ops, hops⟩ := exists_changes_paint node parent s
    obtain ⟨more, hmore⟩ := exists_changes_paintAll rest parent (node.paint parent s).2
    exact ⟨_, hops.trans hmore⟩

end

end VirtualNode

end ReactiveView
