import Mathlib.Data.List.Forall2
import ReactiveView.Proofs.Json.Spelling

namespace ReactiveView.Json

mutual

/-- A value that holds nothing but strings and containers. -/
def Textual : Json → Prop
  | .str _ => True
  | .arr items => AllTextual items
  | .obj fields => FieldsTextual fields
  | _ => False

def AllTextual : List Json → Prop
  | [] => True
  | j :: rest => j.Textual ∧ AllTextual rest

def FieldsTextual : List (String × Json) → Prop
  | [] => True
  | (_, j) :: rest => j.Textual ∧ FieldsTextual rest

end

theorem allTextual_iff {items : List Json} : AllTextual items ↔ ∀ j ∈ items, j.Textual := by
  induction items with
  | nil => simp [AllTextual]
  | cons j rest ih => rw [AllTextual, ih, List.forall_mem_cons]

theorem Blanks.append {u v : List Char} (hu : Blanks u) (hv : Blanks v) : Blanks (u ++ v) :=
  List.forall_mem_append.mpr ⟨hu, hv⟩

theorem blanks_newLine (indent : Nat) : Blanks (newLine indent) := by
  intro c hc
  rw [newLine, List.mem_cons, List.mem_replicate] at hc
  obtain rfl | ⟨-, rfl⟩ := hc
  · exact .inr (.inl rfl)
  · exact .inl rfl

theorem SpelledField.blank {field : String × Json} {u w : List Char} (hu : Blanks u)
    (h : SpelledField field w) : SpelledField field (u ++ w) := by
  obtain ⟨ht, hv, hx, hj⟩ := h
  rw [← List.append_assoc]
  exact .mk (hu.append ht) hv hx hj

theorem spelledField_quote (name : String) {j : Json} {v w : List Char} (hv : Blanks v)
    (h : Spelled j w) : SpelledField (name, j) (quote name ++ ':' :: (v ++ w)) := by
  have hfield : SpelledField (name, j) _ := .mk .nil .nil hv h
  simpa only [quote, List.nil_append, List.cons_append, List.append_assoc] using hfield

theorem intercalate_append_cons (sep u part : List Char) (parts : List (List Char)) :
    sep.intercalate ((u ++ part) :: parts) = u ++ sep.intercalate (part :: parts) := by
  cases parts <;> simp [List.intercalate_cons_cons]

section

variable {u v : List Char}

theorem spelledItems_intercalate (hu : Blanks u) (hv : Blanks v) :
    ∀ {items : List Json} {parts : List (List Char)}, List.Forall₂ Spelled items parts →
      items ≠ [] → SpelledItems items (u ++ ((',' :: u).intercalate parts ++ (v ++ [']'])))
  | _, _, .nil, hne => absurd rfl hne
  | _, _, .cons hj .nil, _ => by
    rw [List.intercalate_singleton]
    exact .last hu hj hv
  | _, _, .cons hj (.cons hk h), _ => by
    have hrest := spelledItems_intercalate hu hv (.cons hk h) (List.cons_ne_nil _ _)
    have hall := SpelledItems.cons hu hj .nil hrest
    simpa [List.intercalate_cons_cons] using hall

theorem spelledFields_intercalate (hu : Blanks u) (hv : Blanks v) :
    ∀ {fields : List (String × Json)} {parts : List (List Char)},
      List.Forall₂ SpelledField fields parts → fields ≠ [] →
      SpelledFields fields (u ++ ((',' :: u).intercalate parts ++ (v ++ ['\x7d'])))
  | _, _, .nil, hne => absurd rfl hne
  | _, _, .cons hf .nil, _ => by
    rw [List.intercalate_singleton, ← List.append_assoc]
    exact .last (hf.blank hu) hv
  | _, _, .cons hf (.cons hg h), _ => by
    have hrest := spelledFields_intercalate hu hv (.cons hg h) (List.cons_ne_nil _ _)
    have hall := SpelledFields.cons (hf.blank hu) .nil hrest
    simpa [List.intercalate_cons_cons] using hall

end

mutual

theorem spelled_compact : ∀ {j : Json}, j.Textual → Spelled j j.compact
  | .str s, _ => .text s
  | .arr [], _ => .emptyArray .nil
  | .arr (_ :: _), h =>
    .array (spelledItems_intercalate .nil .nil (spelled_compactAll h) (List.cons_ne_nil _ _))
  | .obj [], _ => .emptyObject .nil
  | .obj (_ :: _), h =>
    .object (spelledFields_intercalate .nil .nil (spelled_compactFields h) (List.cons_ne_nil _ _))

theorem spelled_compactAll : ∀ {items : List Json}, AllTextual items →
    List.Forall₂ Spelled items (compactAll items)
  | [], _ => .nil
  | _ :: _, h => .cons (spelled_compact h.1) (spelled_compactAll h.2)

theorem spelled_compactFields : ∀ {fields : List (String × Json)}, FieldsTextual fields →
    List.Forall₂ SpelledField fields (compactFields fields)
  | [], _ => .nil
  | (name, _) :: _, h =>
    .cons (spelledField_quote name .nil (spelled_compact h.1)) (spelled_compactFields h.2)

end

theorem block_cons (indent : Nat) (opening closing : Char) (part : List Char)
    (parts : List (List Char)) :
    block indent opening closing (part :: parts) = opening :: (newLine (indent + 1) ++
      ((',' :: newLine (indent + 1)).intercalate (part :: parts) ++ (newLine indent ++ [closing]))) := by
  have hblock : block indent opening closing (part :: parts) =
      opening :: ((',' :: newLine (indent + 1)).intercalate ((newLine (indent + 1) ++ part) :: parts) ++
        newLine indent ++ [closing]) := rfl
  rw [hblock, intercalate_append_cons, List.append_assoc, List.append_assoc]

mutual

theorem spelled_pretty : ∀ {j : Json} (indent : Nat), j.Textual → Spelled j (j.pretty indent)
  | .str s, _, _ => .text s
  | .arr [], _, _ => .emptyArray .nil
  | .arr (_ :: _), indent, h => by
    rw [pretty, prettyAll, block_cons]
    exact .array (spelledItems_intercalate (blanks_newLine _) (blanks_newLine _)
      (spelled_prettyAll (indent + 1) h) (List.cons_ne_nil _ _))
  | .obj [], _, _ => .emptyObject .nil
  | .obj ((_, _) :: _), indent, h => by
    rw [pretty, prettyFields, block_cons]
    exact .object (spelledFields_intercalate (blanks_newLine _) (blanks_newLine _)
      (spelled_prettyFields (indent + 1) h) (List.cons_ne_nil _ _))

theorem spelled_prettyAll : ∀ {items : List Json} (indent : Nat), AllTextual items →
    List.Forall₂ Spelled items (prettyAll indent items)
  | [], _, _ => .nil
  | _ :: _, indent, h => .cons (spelled_pretty indent h.1) (spelled_prettyAll indent h.2)

theorem spelled_prettyFields : ∀ {fields : List (String × Json)} (indent : Nat),
    FieldsTextual fields → List.Forall₂ SpelledField fields (prettyFields indent fields)
  | [], _, _ => .nil
  | (name, _) :: _, indent, h => by
    have hspace : Blanks [' '] := List.forall_mem_singleton.mpr (.inl rfl)
    exact .cons (spelledField_quote name hspace (spelled_pretty indent h.1))
      (spelled_prettyFields indent h.2)

end

/-- Whatever its layout, a text of a value is read as that value or nests too deeply. -/
theorem Spelled.read? {j : Json} {w : List Char} (h : Spelled j w) :
    Json.read? (String.ofList w) = if j.depth ≤ nestingLimit then some j else none := by
  have hread := h.read nestingLimit []
  rw [List.append_nil] at hread
  rw [Json.read?, String.toList_ofList, hread]
  by_cases hd : j.depth ≤ nestingLimit
  · simp only [if_pos hd]
    rfl
  · simp only [if_neg hd]

theorem read?_line {j : Json} (h : j.Textual) :
    Json.read? j.line = if j.depth ≤ nestingLimit then some j else none :=
  (spelled_compact h).read?

theorem read?_lines {j : Json} (h : j.Textual) :
    Json.read? j.lines = if j.depth ≤ nestingLimit then some j else none :=
  (spelled_pretty 0 h).read?

end ReactiveView.Json
