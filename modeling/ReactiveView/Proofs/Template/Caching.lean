import ReactiveView.Proofs.Template.Complete
import ReactiveView.Proofs.Template.Stored

namespace ReactiveView

/-- Sources of components whose stored templates can be read back. -/
def Readable (source : String → String) : Prop :=
  ∀ id t, compile (source id) = .ok t → t.toJson.depth ≤ Json.nestingLimit

namespace Cache

variable {source : String → String} {c : Cache} {id text : String} {dynamic : Bool}

/-- What is kept for a component is read as the template that its source compiles to. -/
def Faithful (source : String → String) (c : Cache) : Prop :=
  ∀ id stored, c.entries.get? id = some stored →
    ∃ t, compile (source id) = .ok t ∧ Template.ofStored? stored = some t

theorem faithful_of_empty (h : c.entries = Dict.empty) : c.Faithful source := by
  intro id stored hstored
  rw [h] at hstored
  cases hstored

theorem Faithful.get_cases (h : c.Faithful source) (id : String) :
    c.get id = .ok none ∨ ∃ t, compile (source id) = .ok t ∧ c.get id = .ok (some t) := by
  rw [get]
  cases he : c.entries.get? id with
  | none => exact .inl rfl
  | some stored =>
    obtain ⟨t, hcompile, hread⟩ := h id stored he
    exact .inr ⟨t, hcompile, by simp only [hread]⟩

theorem Faithful.insert (h : c.Faithful source) (hr : Readable source) {t : Template}
    (ht : compile (source id) = .ok t) : (c.insert id t).Faithful source := by
  rw [Cache.insert]
  split
  · intro other stored hstored
    rw [Dict.get?_insert] at hstored
    split at hstored
    · rename_i heq
      cases hstored
      refine ⟨t, heq ▸ ht, ?_⟩
      rw [t.ofStored?_stored, if_pos (hr id t ht)]
    · exact h other stored hstored
  · exact h

theorem Faithful.load (h : c.Faithful source) (hr : Readable source)
    (hs : dynamic = false → text = source id) :
    (c.load id text dynamic).1 = compile text ∧ (c.load id text dynamic).2.Faithful source := by
  rw [Cache.load]
  split
  · exact ⟨rfl, h⟩
  · rename_i hstatic
    have htext : text = source id := hs (by simp_all)
    obtain hget | ⟨t, hcompile, hget⟩ := h.get_cases id
    · rw [hget, htext]
      cases hc : compile (source id) with
      | error e => exact ⟨rfl, h⟩
      | ok t => exact ⟨rfl, h.insert hr hc⟩
    · rw [hget, htext]
      exact ⟨hcompile.symm, h⟩

end Cache

namespace Cache

theorem load_of_get_none {c : Cache} {id text : String} {t : Template} (hget : c.get id = .ok none)
    (ht : compile text = .ok t) : c.load id text false = (.ok t, c.insert id t) := by
  cases hc : c.enabled with
  | false =>
    rw [Cache.load, Cache.insert, hc, ht]
    rfl
  | true =>
    rw [Cache.load, hc, hget, ht]
    rfl

theorem load_of_get_error {c : Cache} {id : String} {e : TemplateError} (hc : c.enabled = true)
    (hget : c.get id = .error e) (text : String) : c.load id text false = (.error e, c) := by
  rw [Cache.load, hc, hget]
  rfl

/-- What is kept of a template is found, unless it nests too deeply to be read. -/
theorem get_insert {c : Cache} (hc : c.enabled = true) (id : String) (t : Template) :
    (c.insert id t).get id =
      if t.toJson.depth ≤ Json.nestingLimit then .ok (some t) else .error (.corrupt id) := by
  rw [insert, if_pos hc, get]
  simp only [Dict.get?_insert, if_pos, t.ofStored?_stored]
  by_cases hd : t.toJson.depth ≤ Json.nestingLimit
  · simp only [if_pos hd]
  · simp only [if_neg hd]

end Cache

def tower : Nat → Node
  | 0 => .literal "x"
  | levels + 1 => .element "b" [] [tower levels]

def towerText : Nat → List Char
  | 0 => ['x']
  | levels + 1 => '<' :: 'b' :: '>' :: towerText levels ++ ['<', '/', 'b', '>']

theorem written_tower (levels : Nat) : (tower levels).Written (towerText levels) := by
  induction levels with
  | zero =>
    have htext : ∀ c ∈ ['x'], Scanner.isText c = true := List.forall_mem_singleton.mpr (by decide)
    exact .literal (by decide) (by decide) htext
  | succ levels ih =>
    have hpart : ∀ c ∈ ['b'], isLowerOrDigit c = true := List.forall_mem_singleton.mpr (by decide)
    have hname : NameClass.kebab.Spells ['b'] := ⟨by decide, [['b']], List.cons_ne_nil _ _,
      List.forall_mem_singleton.mpr ⟨List.cons_ne_nil _ _, hpart⟩, rfl⟩
    have hblank : Blank [] := by simp [Blank]
    have hstart : WrittenStart .regular "b" [] [] true ['<', 'b'] := .mk hblank hname .nil
    have hclose : WrittenClose .regular "b" ['<', '/', 'b', '>'] := .mk hblank hblank hblank hname
    exact .paired .element hstart (.node .nil ih fun _ => rfl) hclose

theorem compile_tower (levels : Nat) :
    compile (String.ofList (towerText levels)) = .ok ⟨tower levels⟩ := by
  apply compile_of_written
  rw [String.toList_ofList]
  exact .node .nil (written_tower levels) fun _ => rfl

theorem depth_tower (levels : Nat) : (tower levels).toJson.depth = 2 * levels + 1 := by
  induction levels with
  | zero => rfl
  | succ levels ih =>
    simp only [tower, Node.toJson, Node.toJsonAll, Json.depth, Json.depthFields, Json.depthAll,
      List.map_nil, ih]
    omega

theorem Template.depth_tower (levels : Nat) :
    (⟨tower levels⟩ : Template).toJson.depth = 2 * levels + 2 := by
  simp only [Template.toJson, Json.depth, Json.depthFields, ReactiveView.depth_tower]
  omega

theorem readable_tower {levels : Nat} (h : 2 * levels + 2 ≤ Json.nestingLimit) :
    Readable fun _ => String.ofList (towerText levels) := by
  intro id t ht
  cases (compile_tower levels).symm.trans ht
  rwa [Template.depth_tower]

theorem Cache.get_insert_tower {c : Cache} (hc : c.enabled = true) (id : String) {levels : Nat}
    (h : Json.nestingLimit < 2 * levels + 2) :
    (c.insert id ⟨tower levels⟩).get id = .error (.corrupt id) := by
  rw [get_insert hc, Template.depth_tower, if_neg (by omega)]

end ReactiveView
