import Mathlib.Data.List.Induction
import ReactiveView.Render.Expand

namespace ReactiveView

variable {ω : Type} {library : Library ω} {mount : Mount ω}

namespace Frame

/-- Two frames of one component in which the heads of some references stand for the same. -/
structure Alike (f g : Frame ω) (references : List String) : Prop where
  component_eq : g.component = f.component
  depth_eq : g.depth = f.depth
  imports_eq : g.descriptor.imports = f.descriptor.imports
  head?_eq : ∀ reference ∈ references, ∀ name ∈ (splitAt '.' reference).head?,
    g.head? name = f.head? name

theorem head?_enter (f : Frame ω) (context : String) (item : Value) (name : String) :
    (f.enter context item).head? name =
      if name = context then some (.value item) else f.head? name := by
  by_cases hname : name = context
  · simp [head?, enter, hname]
  · simp [head?, enter, Entries.lookup_cons, hname]

namespace Alike

variable {f g : Frame ω} {references more : List String} {reference : String} {a : Attr}

theorem mono (h : f.Alike g references) (hs : more ⊆ references) : f.Alike g more where
  component_eq := h.component_eq
  depth_eq := h.depth_eq
  imports_eq := h.imports_eq
  head?_eq := fun r hr => h.head?_eq r (hs hr)

theorem left (h : f.Alike g (references ++ more)) : f.Alike g references :=
  h.mono (List.subset_append_left _ _)

theorem right (h : f.Alike g (references ++ more)) : f.Alike g more :=
  h.mono (List.subset_append_right _ _)

theorem enter (h : f.Alike g references) (context : String) (item : Value) :
    (f.enter context item).Alike (g.enter context item) references where
  component_eq := h.component_eq
  depth_eq := h.depth_eq
  imports_eq := h.imports_eq
  head?_eq := by
    intro r hr name hname
    rw [head?_enter, head?_enter, h.head?_eq r hr name hname]

theorem wrongKind_eq (h : f.Alike g references) (reference : String) (expected : List BindingKind)
    (found : Binding ω) :
    g.wrongKind reference expected found = f.wrongKind reference expected found := by
  rw [wrongKind, wrongKind, h.component_eq]

theorem resolve_eq (h : f.Alike g references) (hr : reference ∈ references) :
    g.resolve reference = f.resolve reference := by
  unfold resolve
  cases hsplit : splitAt '.' reference with
  | nil => rw [h.component_eq]
  | cons name members =>
    have hname : name ∈ (splitAt '.' reference).head? := by
      rw [hsplit]
      rfl
    simp only [h.head?_eq reference hr name hname, h.component_eq, h.wrongKind_eq]

theorem value_eq (h : f.Alike g references) (hr : reference ∈ references) :
    g.value reference = f.value reference := by
  simp only [value, h.resolve_eq hr, h.wrongKind_eq]

theorem items_eq (h : f.Alike g references) (hr : reference ∈ references) :
    g.items reference = f.items reference := by
  simp only [items, h.resolve_eq hr, h.wrongKind_eq]

theorem import?_eq (h : f.Alike g references) (library : Library ω) (name : String) :
    g.descriptor.import? library name = f.descriptor.import? library name := by
  rw [Descriptor.import?, Descriptor.import?, h.imports_eq]

theorem add_eq (h : f.Alike g references) (ha : ∀ r ∈ a.reference?, r ∈ references)
    (p : ElementParts) : p.add g a = p.add f a := by
  obtain ⟨name, value⟩ := a
  cases value with
  | empty | literal text => rfl
  | serial reference =>
    simp only [ElementParts.add, h.resolve_eq (ha reference rfl), h.wrongKind_eq]

theorem handed_eq (h : f.Alike g references) (ha : ∀ r ∈ a.reference?, r ∈ references) :
    g.handed a = f.handed a := by
  obtain ⟨name, value⟩ := a
  cases value with
  | empty | literal text => rfl
  | serial reference => exact h.resolve_eq (ha reference rfl)

theorem foldlM_eq {β : Type} {step step' : β → Attr → Except RenderError β}
    (hstep : ∀ {a : Attr}, (∀ r ∈ a.reference?, r ∈ references) → ∀ b, step' b a = step b a)
    {attrs : List Attr} (hs : attrs.filterMap Attr.reference? ⊆ references) (b : β) :
    attrs.foldlM step' b = attrs.foldlM step b := by
  induction attrs generalizing b with
  | nil => rfl
  | cons a rest ih =>
    have ha : ∀ r ∈ a.reference?, r ∈ references := fun r hr =>
      hs (List.mem_filterMap.mpr ⟨a, List.mem_cons_self, hr⟩)
    have hrest : rest.filterMap Attr.reference? ⊆ references := fun r hr => by
      obtain ⟨a', ha', hr⟩ := List.mem_filterMap.mp hr
      exact hs (List.mem_filterMap.mpr ⟨a', List.mem_cons_of_mem a ha', hr⟩)
    rw [List.foldlM_cons, List.foldlM_cons, hstep ha]
    exact bind_congr fun b' => ih hrest b'

theorem parts_eq {attrs : List Attr} (h : f.Alike g (attrs.filterMap Attr.reference?)) :
    attrs.foldlM (ElementParts.add g) ElementParts.empty =
      attrs.foldlM (ElementParts.add f) ElementParts.empty :=
  foldlM_eq (fun ha p => h.add_eq ha p) (List.Subset.refl _) _

theorem handedAll_eq {attrs : List Attr} (h : f.Alike g (attrs.filterMap Attr.reference?)) :
    g.handedAll attrs = f.handedAll attrs :=
  foldlM_eq (fun ha props => by rw [h.handed_eq ha]) (List.Subset.refl _) _

theorem use_eq {handed : List Attr} (h : f.Alike g (handed.filterMap Attr.reference?))
    (library : Library ω) (mount : Mount ω) (name : String) :
    g.use library mount name handed = f.use library mount name handed := by
  unfold Frame.use
  simp only [h.import?_eq, h.handedAll_eq, h.component_eq, h.depth_eq]

end Alike

end Frame

namespace Node

mutual

theorem expand_eq (library : Library ω) (mount : Mount ω) : ∀ (node : Node) {f g : Frame ω},
    f.Alike g node.references → node.expand library mount g = node.expand library mount f
  | .element tag attrs children, f, g, h => by
    rw [references] at h
    rw [expand, expand, h.left.parts_eq, expandAll_eq library mount children h.right]
  | .custom name attrs props children, f, g, h => by
    rw [references, ← List.filterMap_append] at h
    rw [expand, expand, h.left.use_eq]
  | .literal text, f, g, h => by
    rw [expand, expand]
  | .serial reference, f, g, h => by
    rw [expand, expand, h.value_eq (List.mem_singleton_self reference)]
  | .command .map binding children, f, g, h => by
    rw [references] at h
    have hchildren := h.mono (List.subset_cons_self binding _)
    rw [expand, expand, h.items_eq List.mem_cons_self]
    simp only [fun context item => expandAll_eq library mount children (hchildren.enter context item)]

theorem expandAll_eq (library : Library ω) (mount : Mount ω) : ∀ (nodes : List Node)
    {f g : Frame ω}, f.Alike g (referencesAll nodes) →
      expandAll library mount g nodes = expandAll library mount f nodes
  | [], f, g, h => by
    rw [expandAll, expandAll]
  | node :: rest, f, g, h => by
    rw [referencesAll] at h
    rw [expandAll, expandAll, expand_eq library mount node h.left,
      expandAll_eq library mount rest h.right]

end

theorem expandAll_eq_mapM (library : Library ω) (mount : Mount ω) (f : Frame ω) (nodes : List Node) :
    expandAll library mount f nodes = nodes.mapM fun node => node.expand library mount f := by
  induction nodes with
  | nil => rw [expandAll, List.mapM_nil]
  | cons node rest ih => rw [expandAll, List.mapM_cons, ih]

end Node

namespace Descriptor

def attach (d : Descriptor ω) (name : String) (v : Value) : Descriptor ω :=
  { d with attached := d.attached.insert name (.value v) }

def attachAll (d : Descriptor ω) (values : List (String × Value)) : Descriptor ω :=
  values.foldl (fun d e => d.attach e.1 e.2) d

theorem attachAll_concat (d : Descriptor ω) (values : List (String × Value)) (e : String × Value) :
    d.attachAll (values ++ [e]) = (d.attachAll values).attach e.1 e.2 := List.foldl_append

end Descriptor

namespace Frame

variable (component : String) (depth : Nat) (d : Descriptor ω) (contexts : List (String × Value))

/-- A frame with items of lists in scope, the outermost first. -/
def within : Frame ω := ⟨component, depth, d, contexts.reverse⟩

theorem within_concat (e : String × Value) : within component depth d (contexts ++ [e]) =
    (within component depth d contexts).enter e.1 e.2 := by
  rw [within, List.reverse_append]
  rfl

theorem head?_attach (name : String) (v : Value) (other : String) :
    (within component depth (d.attach name v) []).head? other =
      if other = name then some (.value v) else (within component depth d []).head? other :=
  Dict.get?_insert d.attached name other (.value v)

theorem head?_within (name : String) : (within component depth (d.attachAll contexts) []).head? name =
    (within component depth d contexts).head? name := by
  induction contexts using List.reverseRecOn with
  | nil => rfl
  | append_singleton contexts e ih =>
    rw [Descriptor.attachAll_concat, head?_attach, within_concat, head?_enter, ih]

theorem imports_attachAll : (d.attachAll contexts).imports = d.imports := by
  induction contexts using List.reverseRecOn with
  | nil => rfl
  | append_singleton contexts e ih =>
    rw [Descriptor.attachAll_concat]
    exact ih

theorem alike_within (references : List String) : (within component depth d contexts).Alike
    (within component depth (d.attachAll contexts) []) references where
  component_eq := rfl
  depth_eq := rfl
  imports_eq := imports_attachAll d contexts
  head?_eq := fun _ _ name _ => head?_within component depth d contexts name

end Frame

namespace Node

/-- Items of lists are in scope like values attached in the place of what has their names, the
innermost last. A node is expanded alike with the one and the other, which means from all hooks and
caches to the same result, hooks, caches and effects; so is each node of several by itself, and what
a list shows is expanded once for each item, in order, with the item attached over the rest. -/
theorem expand_within (library : Library ω) (mount : Mount ω) (component : String) (depth : Nat)
    (d : Descriptor ω) (contexts : List (String × Value)) :
    (∀ node : Node, node.expand library mount (.within component depth d contexts) =
      node.expand library mount (.within component depth (d.attachAll contexts) [])) ∧
    (∀ nodes : List Node, Node.expandAll library mount (.within component depth d contexts) nodes =
      nodes.mapM fun node =>
        node.expand library mount (.within component depth (d.attachAll contexts) [])) ∧
    ∀ (binding : String) (children : List Node),
      (Node.command .map binding children).expand library mount
          (.within component depth d contexts) = do
        let r ← Pass.ofExcept
          ((Frame.within component depth (d.attachAll contexts) []).items binding)
        let nodes ← r.items.zipIdx.mapM fun (item, position) => do
          let nodes ← children.mapM fun node => node.expand library mount
            (.within component depth ((d.attachAll contexts).attach r.context item) [])
          return VirtualNode.fragment (.item (r.keyOf position item)) true nodes
        return .fragment (.list binding) true nodes := by
  have halike := fun references => Frame.alike_within component depth d contexts references
  refine ⟨fun node => (Node.expand_eq library mount node (halike _)).symm, fun nodes => ?_, ?_⟩
  · rw [← Node.expandAll_eq library mount nodes (halike _), Node.expandAll_eq_mapM]
  · intro binding children
    -- With one more item in scope the list of what is attached gets longer by that item.
    have hitem : ∀ context item, Node.expandAll library mount
        ((Frame.within component depth d contexts).enter context item) children =
        children.mapM fun node => node.expand library mount
          (.within component depth ((d.attachAll contexts).attach context item) []) := by
      intro context item
      have hmore := Frame.alike_within component depth d (contexts ++ [(context, item)])
        (Node.referencesAll children)
      rw [Descriptor.attachAll_concat, Frame.within_concat] at hmore
      rw [← Node.expandAll_eq library mount children hmore, Node.expandAll_eq_mapM]
    rw [Node.expand, ← (halike [binding]).items_eq (List.mem_singleton_self binding)]
    simp only [hitem]

end Node

end ReactiveView
