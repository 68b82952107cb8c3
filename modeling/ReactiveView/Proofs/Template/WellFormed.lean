import Mathlib.Data.List.Chain
import Mathlib.Data.List.Induction
import ReactiveView.Proofs.Template.Writing

namespace ReactiveView

def AttrValue.WellFormed : AttrValue → Prop
  | empty => True
  | literal text => '"' ∉ text.toList
  | serial reference => SpellsReference reference.toList

def Attr.WellFormed (a : Attr) : Prop :=
  NameClass.lowerCamel.Spells a.name.toList ∧ a.value.WellFormed

namespace Node

def Apart (nodes : List Node) : Prop :=
  nodes.IsChain fun m n => n.isLiteral = true → m.isLiteral = false

mutual

def WellFormed : Node → Prop
  | element tag attrs children => NameClass.kebab.Spells tag.toList ∧
      (∀ a ∈ attrs, a.WellFormed) ∧ AllWellFormed children ∧ Apart children
  | custom name attrs props children => NameClass.upperCamel.Spells name.toList ∧
      (∀ a ∈ attrs, a.WellFormed) ∧ (∀ a ∈ props, a.WellFormed ∧ a.value ≠ .empty) ∧
      AllWellFormed children ∧ Apart children
  | literal text => text.toList ≠ [] ∧ trim text.toList = text.toList ∧
      ∀ c ∈ text.toList, Scanner.isText c = true
  | serial reference => SpellsReference reference.toList
  | command _ binding children => SpellsReference binding.toList ∧ AllWellFormed children ∧
      Apart children

def AllWellFormed : List Node → Prop
  | [] => True
  | node :: rest => node.WellFormed ∧ AllWellFormed rest

end

theorem allWellFormed_iff {nodes : List Node} :
    AllWellFormed nodes ↔ ∀ n ∈ nodes, n.WellFormed := by
  induction nodes with
  | nil => simp [AllWellFormed]
  | cons node rest ih => rw [AllWellFormed, ih, List.forall_mem_cons]

theorem apart_append {nodes : List Node} {n : Node} :
    Apart (nodes ++ [n]) ↔ Apart nodes ∧ (n.isLiteral = true → endsInLiteral nodes = false) := by
  unfold Apart endsInLiteral
  rw [List.isChain_append]
  cases nodes.getLast? with
  | none => simp
  | some m => simp

end Node

theorem AttrValue.Written.wellFormed {value : AttrValue} {u : List Char} (h : value.Written u) :
    value.WellFormed := by
  cases h with
  | empty => trivial
  | given _ _ hq =>
    cases hq with
    | literal h => exact h
    | serial h => exact h

namespace WrittenBody

variable {kind : TagKind} {attrs props : List Attr} {named : Bool} {w : List Char}

theorem wellFormed (h : WrittenBody kind attrs props named w) :
    (∀ a ∈ attrs, a.WellFormed) ∧ ∀ a ∈ props, a.WellFormed ∧ a.value ≠ .empty := by
  induction h with
  | nil => simp
  | space _ _ ih => exact ih
  | attr _ hn hv ih =>
    refine ⟨?_, ih.2⟩
    intro a ha
    obtain ha | ha := List.mem_append.mp ha
    · exact ih.1 a ha
    · obtain rfl := List.mem_singleton.mp ha
      exact ⟨hn, hv.wellFormed⟩
  | prop _ _ hn hne hv ih =>
    refine ⟨ih.1, ?_⟩
    intro a ha
    obtain ha | ha := List.mem_append.mp ha
    · exact ih.2 a ha
    · obtain rfl := List.mem_singleton.mp ha
      exact ⟨⟨hn, hv.wellFormed⟩, hne⟩

end WrittenBody

namespace Node

variable {n : Node} {kind : TagKind} {name : String} {attrs props : List Attr} {children : List Node}

theorem IsTag.wellFormed {named : Bool} {w : List Char}
    (h : IsTag n kind name attrs props children)
    (hs : WrittenStart kind name attrs props named w)
    (hc : AllWellFormed children ∧ Apart children) : n.WellFormed := by
  cases hs with
  | mk _ hn hbody =>
    obtain ⟨hattrs, hprops⟩ := hbody.wellFormed
    cases h with
    | element => exact ⟨hn, hattrs, hc⟩
    | custom => exact ⟨hn, hattrs, hprops, hc⟩
    | map => exact ⟨(hattrs _ List.mem_cons_self).2, hc⟩

mutual

theorem Written.wellFormed {n : Node} {v : List Char} : Written n v → n.WellFormed
  | .literal hne ht h => ⟨hne, ht, h⟩
  | .serial h => h
  | .childless ht hs _ => ht.wellFormed hs ⟨trivial, List.isChain_nil⟩
  | .paired ht hs hc _ => ht.wellFormed hs hc.wellFormed

theorem WrittenAll.wellFormed {nodes : List Node} {w : List Char} :
    WrittenAll nodes w → AllWellFormed nodes ∧ Apart nodes
  | .nil => ⟨trivial, List.isChain_nil⟩
  | .space h _ => h.wellFormed
  | .node h hn hl => by
    obtain ⟨hall, hapart⟩ := h.wellFormed
    have hnode := hn.wellFormed
    refine ⟨allWellFormed_iff.mpr fun m hm => ?_, apart_append.mpr ⟨hapart, hl⟩⟩
    obtain hm | hm := List.mem_append.mp hm
    · exact allWellFormed_iff.mp hall m hm
    · obtain rfl := List.mem_singleton.mp hm
      exact hnode

end

end Node

theorem AttrValue.WellFormed.exists_written {value : AttrValue} (h : value.WellFormed) :
    ∃ u, value.Written u := by
  cases value with
  | empty => exact ⟨_, .empty⟩
  | literal text => exact ⟨_, .given .nil .nil (.literal h)⟩
  | serial reference => exact ⟨_, .given .nil .nil (.serial h)⟩

theorem exists_writtenBody {kind : TagKind} {attrs props : List Attr}
    (hattrs : ∀ a ∈ attrs, a.WellFormed) (hprops : ∀ a ∈ props, a.WellFormed ∧ a.value ≠ .empty)
    (hk : props ≠ [] → kind = .custom) : ∃ named w, WrittenBody kind attrs props named w := by
  induction props using List.reverseRecOn with
  | nil =>
    induction attrs using List.reverseRecOn with
    | nil => exact ⟨_, _, .nil⟩
    | append_singleton attrs a ih =>
      obtain ⟨named, w, h⟩ := ih fun b hb => hattrs b (by simp [hb])
      obtain ⟨hn, hv⟩ := hattrs a (by simp)
      obtain ⟨u, hu⟩ := hv.exists_written
      have hspace : isSpace ' ' = true := by decide
      exact ⟨_, _, .attr (.space h hspace) hn hu⟩
  | append_singleton props a ih =>
    have hkind := hk (by simp)
    obtain ⟨named, w, h⟩ := ih (fun b hb => hprops b (by simp [hb])) fun _ => hkind
    obtain ⟨⟨hn, hv⟩, hne⟩ := hprops a (by simp)
    obtain ⟨u, hu⟩ := hv.exists_written
    exact ⟨_, _, .prop h hkind hn hne hu⟩

namespace Node

variable {n : Node} {kind : TagKind} {name : String} {attrs props : List Attr} {children : List Node}

theorem exists_writtenAll {nodes : List Node} (h : ∀ n ∈ nodes, ∃ v, Written n v)
    (ha : Apart nodes) : ∃ w, WrittenAll nodes w := by
  induction nodes using List.reverseRecOn with
  | nil => exact ⟨_, .nil⟩
  | append_singleton nodes n ih =>
    obtain ⟨ha, hl⟩ := apart_append.mp ha
    obtain ⟨w, hw⟩ := ih (fun m hm => h m (by simp [hm])) ha
    obtain ⟨v, hv⟩ := h n (by simp)
    exact ⟨_, .node hw hv hl⟩

theorem IsTag.exists_written (h : IsTag n kind name attrs props children)
    (hn : kind.nameClass.Spells name.toList) (hattrs : ∀ a ∈ attrs, a.WellFormed)
    (hprops : ∀ a ∈ props, a.WellFormed ∧ a.value ≠ .empty) (hk : props ≠ [] → kind = .custom)
    (hc : ∃ v, WrittenAll children v) : ∃ v, Written n v := by
  obtain ⟨named, w, hw⟩ := exists_writtenBody hattrs hprops hk
  obtain ⟨v, hv⟩ := hc
  exact ⟨_, .paired h (.mk .nil hn hw) hv (.mk .nil .nil .nil hn)⟩

mutual

theorem WellFormed.exists_written : ∀ {n : Node}, n.WellFormed → ∃ v, Written n v
  | element _ _ _, ⟨hn, hattrs, hall, hapart⟩ => by
    have hc := exists_writtenAll (AllWellFormed.exists_written hall) hapart
    exact IsTag.element.exists_written hn hattrs (by simp) (by simp) hc
  | custom _ _ _ _, ⟨hn, hattrs, hprops, hall, hapart⟩ => by
    have hc := exists_writtenAll (AllWellFormed.exists_written hall) hapart
    exact IsTag.custom.exists_written hn hattrs hprops (fun _ => rfl) hc
  | literal _, ⟨hne, ht, h⟩ => ⟨_, .literal hne ht h⟩
  | serial _, h => ⟨_, .serial h⟩
  | command .map _ _, ⟨hb, hall, hapart⟩ => by
    have hc := exists_writtenAll (AllWellFormed.exists_written hall) hapart
    have hmap : NameClass.lowerCamel.Spells "map".toList :=
      ⟨'m', ['a', 'p'], rfl, List.cons_ne_nil _ _, rfl, List.all_eq_true.mp rfl⟩
    have heach : NameClass.lowerCamel.Spells "each".toList :=
      ⟨'e', ['a', 'c', 'h'], rfl, List.cons_ne_nil _ _, rfl, List.all_eq_true.mp rfl⟩
    refine IsTag.map.exists_written hmap ?_ (by simp) (by simp) hc
    intro a ha
    obtain rfl := List.mem_singleton.mp ha
    exact ⟨heach, hb⟩

theorem AllWellFormed.exists_written : ∀ {nodes : List Node}, AllWellFormed nodes →
    ∀ n ∈ nodes, ∃ v, Written n v
  | node :: rest, ⟨hnode, hrest⟩, n, hn => by
    have hfirst := WellFormed.exists_written hnode
    obtain heq | hn := List.mem_cons.mp hn
    · exact heq ▸ hfirst
    · exact AllWellFormed.exists_written hrest n hn

end

end Node

/-- The templates that can be written are the well-formed ones. -/
theorem Template.exists_written_iff {t : Template} : (∃ w, t.Written w) ↔ t.root.WellFormed := by
  constructor
  · rintro ⟨w, hw⟩
    exact hw.wellFormed.1.1
  · intro h
    obtain ⟨v, hv⟩ := h.exists_written
    exact ⟨_, .node .nil hv fun _ => rfl⟩

end ReactiveView
