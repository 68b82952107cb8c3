import ReactiveView.Proofs.Json.Printed
import ReactiveView.Template.Cache

namespace ReactiveView

open Json

theorem AttrValue.textual_toJson (v : AttrValue) : v.toJson.Textual := by
  cases v <;> simp [AttrValue.toJson, Textual, FieldsTextual]

theorem Attr.textual_toJson (a : Attr) : a.toJson.Textual :=
  ⟨trivial, a.value.textual_toJson, trivial⟩

theorem Attr.allTextual_toJson (attrs : List Attr) : AllTextual (attrs.map Attr.toJson) :=
  allTextual_iff.mpr fun _ hj => by
    obtain ⟨a, -, rfl⟩ := List.mem_map.mp hj
    exact a.textual_toJson

namespace Node

mutual

theorem textual_toJson : ∀ n : Node, n.toJson.Textual
  | element _ attrs children => ⟨trivial, trivial, Attr.allTextual_toJson attrs,
      textual_toJsonAll children, trivial⟩
  | custom _ attrs props children => ⟨trivial, trivial, Attr.allTextual_toJson attrs,
      Attr.allTextual_toJson props, textual_toJsonAll children, trivial⟩
  | literal _ => ⟨trivial, trivial, trivial, trivial⟩
  | serial _ => ⟨trivial, trivial, trivial, trivial⟩
  | command _ _ children => ⟨trivial, trivial, trivial, textual_toJsonAll children, trivial⟩

theorem textual_toJsonAll : ∀ nodes : List Node, AllTextual (toJsonAll nodes)
  | [] => trivial
  | node :: rest => ⟨textual_toJson node, textual_toJsonAll rest⟩

end

end Node

theorem AttrValue.ofJson?_toJson (v : AttrValue) : AttrValue.ofJson? v.toJson = some v := by
  cases v <;> rfl

theorem Attr.ofJson?_toJson (a : Attr) : Attr.ofJson? a.toJson = some a := by
  have hvalue := a.value.ofJson?_toJson
  simp only [Attr.ofJson?, Attr.toJson, field?, Entries.lookup_cons]
  simp [text?, hvalue]

theorem Attr.mapM_ofJson? (attrs : List Attr) :
    (attrs.map Attr.toJson).mapM Attr.ofJson? = some attrs := by
  induction attrs with
  | nil => rfl
  | cons a rest ih =>
    rw [List.map_cons, List.mapM_cons, a.ofJson?_toJson, ih]
    rfl

theorem Command.ofName?_name (c : Command) : Command.ofName? c.name = some c := by
  cases c
  rfl

namespace Node

mutual

theorem ofJson?_toJson : ∀ n : Node, ofJson? n.toJson = some n
  | element tag attrs children => by
    have hchildren := allOf?_toJsonAll children
    have hattrs := Attr.mapM_ofJson? attrs
    simp only [toJson, ofJson?, childrenOf?, listOf?, ofFields?, Attr.list?, field?,
      Entries.lookup_cons, text?, items?, hchildren]
    simp [hattrs]
  | custom name attrs props children => by
    have hchildren := allOf?_toJsonAll children
    have hattrs := Attr.mapM_ofJson? attrs
    have hprops := Attr.mapM_ofJson? props
    simp only [toJson, ofJson?, childrenOf?, listOf?, ofFields?, Attr.list?, field?,
      Entries.lookup_cons, text?, items?, hchildren]
    simp [hattrs, hprops]
  | literal text => rfl
  | serial reference => rfl
  | command c binding children => by
    have hchildren := allOf?_toJsonAll children
    have hname := c.ofName?_name
    simp only [toJson, ofJson?, childrenOf?, listOf?, ofFields?, field?, Entries.lookup_cons, text?,
      hchildren]
    simp [hname]

theorem allOf?_toJsonAll : ∀ nodes : List Node, allOf? (toJsonAll nodes) = some nodes
  | [] => rfl
  | node :: rest => by
    rw [toJsonAll, allOf?, ofJson?_toJson node, allOf?_toJsonAll rest]
    rfl

end

end Node

namespace Template

theorem ofJson?_toJson (t : Template) : Template.ofJson? t.toJson = some t := by
  have hroot := t.root.ofJson?_toJson
  simp only [Template.ofJson?, Template.toJson, field?, Entries.lookup_cons]
  simp [hroot]

theorem textual_toJson (t : Template) : t.toJson.Textual := ⟨t.root.textual_toJson, trivial⟩

/-- A template is read back from its stored form, unless that nests too deeply. -/
theorem ofStored?_stored (t : Template) :
    ofStored? t.stored = if t.toJson.depth ≤ nestingLimit then some t else none := by
  rw [ofStored?, stored, read?_line t.textual_toJson]
  split
  · exact t.ofJson?_toJson
  · rfl

end Template

end ReactiveView
