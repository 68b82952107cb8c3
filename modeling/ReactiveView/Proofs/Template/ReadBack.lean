import ReactiveView.Proofs.Template.Caching
import ReactiveView.Tool

namespace ReactiveView

open Json

def Attr.listNesting (attrs : List Attr) : Nat := if attrs.isEmpty then 1 else 3

namespace Node

mutual

/-- How many containers stand inside one another in the stored form of a node. A list of children is
one even where it is empty. -/
def nesting : Node → Nat
  | element _ attrs children => max (Attr.listNesting attrs) (nestingAll children + 1) + 1
  | custom _ attrs props children =>
    max (max (Attr.listNesting attrs) (Attr.listNesting props)) (nestingAll children + 1) + 1
  | literal _ => 1
  | serial _ => 1
  | command _ _ children => nestingAll children + 2

def nestingAll : List Node → Nat
  | [] => 0
  | node :: rest => max node.nesting (nestingAll rest)

end

end Node

def Template.nesting (t : Template) : Nat := t.root.nesting + 1

theorem AttrValue.depth_toJson (v : AttrValue) : v.toJson.depth = 1 := by
  cases v <;> rfl

theorem Attr.depth_toJson (a : Attr) : a.toJson.depth = 2 := by
  simp only [toJson, depth, depthFields, a.value.depth_toJson]
  rfl

theorem Attr.depth_list (attrs : List Attr) :
    (Json.arr (attrs.map toJson)).depth = listNesting attrs := by
  have hall : ∀ (a : Attr) (rest : List Attr), depthAll ((a :: rest).map toJson) = 2 := by
    intro a rest
    induction rest generalizing a with
    | nil => rw [List.map_cons, depthAll, a.depth_toJson]; rfl
    | cons b rest ih => rw [List.map_cons, depthAll, ih, a.depth_toJson]; rfl
  cases attrs with
  | nil => rfl
  | cons a rest =>
    rw [depth, hall]
    rfl

namespace Node

mutual

theorem depth_toJson : ∀ n : Node, n.toJson.depth = n.nesting
  | element _ attrs children => by
    have hattrs := Attr.depth_list attrs
    have hchildren := depth_toJsonAll children
    simp only [toJson, depth, depthFields, nesting] at hattrs ⊢
    omega
  | custom _ attrs props children => by
    have hattrs := Attr.depth_list attrs
    have hprops := Attr.depth_list props
    have hchildren := depth_toJsonAll children
    simp only [toJson, depth, depthFields, nesting] at hattrs hprops ⊢
    omega
  | literal _ => rfl
  | serial _ => rfl
  | command _ _ children => by
    have hchildren := depth_toJsonAll children
    simp only [toJson, depth, depthFields, nesting]
    omega

theorem depth_toJsonAll : ∀ nodes : List Node, depthAll (toJsonAll nodes) = nestingAll nodes
  | [] => rfl
  | node :: rest => by rw [toJsonAll, depthAll, nestingAll, depth_toJson node, depth_toJsonAll rest]

end

end Node

namespace Template

theorem depth_toJson (t : Template) : t.toJson.depth = t.nesting := by
  simp only [toJson, depth, depthFields, nesting, t.root.depth_toJson, Nat.max_zero]

theorem tree_of_compile {t : Template} {source : String} (h : compile source = .ok t) :
    Tool.tree source = .ok t.toJson.lines := by
  rw [Tool.tree, h]
  rfl

theorem ofStored?_lines (t : Template) :
    ofStored? t.toJson.lines = if t.toJson.depth ≤ nestingLimit then some t else none := by
  rw [ofStored?, read?_lines t.textual_toJson]
  split
  · exact t.ofJson?_toJson
  · rfl

/-- A template is read back from what a cache keeps of it and from what is printed of it exactly if
the JSON has no more than 127 containers inside one another. -/
theorem read_back (t : Template) :
    t.toJson.depth = t.nesting ∧
    (∀ (c : Cache) (id : String), c.enabled = true → (c.insert id t).get id =
      if t.toJson.depth ≤ 127 then .ok (some t) else .error (.corrupt id)) ∧
    ∀ source, compile source = .ok t → ∃ printed, Tool.tree source = .ok printed ∧
      ofStored? printed = if t.toJson.depth ≤ 127 then some t else none :=
  ⟨t.depth_toJson, fun _ id hc => Cache.get_insert hc id t,
    fun _ h => ⟨_, tree_of_compile h, t.ofStored?_lines⟩⟩

/-- Elements around a text can be 62 levels deep; with one more their JSON can no longer be read. -/
theorem read_back_tower :
    (∃ printed, Tool.tree (String.ofList (towerText 62)) = .ok printed ∧
      ofStored? printed = some ⟨tower 62⟩) ∧
    (Cache.empty.insert "b" ⟨tower 62⟩).get "b" = .ok (some ⟨tower 62⟩) ∧
    (Cache.empty.insert "b" ⟨tower 63⟩).get "b" = .error (.corrupt "b") ∧
    ∃ printed, Tool.tree (String.ofList (towerText 63)) = .ok printed ∧ ofStored? printed = none := by
  have hlow : (⟨tower 62⟩ : Template).toJson.depth ≤ 127 := by rw [depth_tower]; decide
  have hhigh : ¬(⟨tower 63⟩ : Template).toJson.depth ≤ 127 := by rw [depth_tower]; decide
  obtain ⟨-, hget, hprint⟩ := read_back ⟨tower 62⟩
  obtain ⟨-, hget', hprint'⟩ := read_back ⟨tower 63⟩
  rw [if_pos hlow] at hprint
  rw [if_neg hhigh] at hprint'
  exact ⟨hprint _ (compile_tower 62), (hget Cache.empty "b" rfl).trans (if_pos hlow),
    (hget' Cache.empty "b" rfl).trans (if_neg hhigh), hprint' _ (compile_tower 63)⟩

end Template

end ReactiveView
