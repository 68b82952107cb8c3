import ReactiveView.Proofs.Dict
import ReactiveView.Proofs.Tree.Lookup
import ReactiveView.Tree.Reconcile

namespace ReactiveView

/-- An element whose attributes were changed, with what became of the surface. -/
structure Redressed (id : NodeId) (tag : String) (old new : Dict String) (s s' : Surface) :
    Prop where
  size_eq : s'.nodes.size = s.nodes.size
  frame : ∀ i, i ≠ id → s'.node? i = s.node? i
  node?_eq : ∀ n, s.node? id = some n → n.kind = .element tag old →
    s'.node? id = some { n with kind := .element tag new }

variable {id : NodeId} {tag : String} {old mid new : Dict String} {s s₁ s₂ : Surface}

namespace Redressed

theorem refl (s : Surface) : Redressed id tag old old s s where
  size_eq := rfl
  frame := fun _ _ => rfl
  node?_eq := fun n hn hk => by rw [hn, ← hk]

theorem trans (h : Redressed id tag old mid s s₁) (h' : Redressed id tag mid new s₁ s₂) :
    Redressed id tag old new s s₂ where
  size_eq := h'.size_eq.trans h.size_eq
  frame := fun i hi => (h'.frame i hi).trans (h.frame i hi)
  node?_eq := fun n hn hk => by rw [h'.node?_eq _ (h.node?_eq n hn hk) rfl]

theorem ifNot {p : Prop} [Decidable p] (h : Redressed id tag old new s s₁) :
    Redressed id tag old (if p then old else new) s (if p then s else s₁) := by
  split
  · exact refl s
  · exact h

theorem foldl {β : Type} {f : Surface → β → Surface} {g : Dict String → β → Dict String}
    (hstep : ∀ s d b, Redressed id tag d (g d b) s (f s b)) (bs : List β) (s : Surface)
    (d : Dict String) : Redressed id tag d (bs.foldl g d) s (bs.foldl f s) := by
  induction bs generalizing s d with
  | nil => exact refl s
  | cons b rest ih => exact (hstep s d b).trans (ih _ _)

end Redressed

namespace Surface

theorem redressed_modify (s : Surface) (f : Dict String → Dict String) (op : Op) :
    Redressed id tag old (f old) s ((s.modify id (·.mapAttrs f)).note op) where
  size_eq := by simp
  frame := fun i hi => by simp [node?_modify, hi]
  node?_eq := fun n hn hk => by simp [node?_modify, hn, LiveNode.mapAttrs, hk]

theorem redressed_setAttribute (s : Surface) (name value : String) :
    Redressed id tag old (old.insert name value) s (s.setAttribute id name value) :=
  redressed_modify s (·.insert name value) _

theorem redressed_removeAttribute (s : Surface) (name : String) :
    Redressed id tag old (old.erase name) s (s.removeAttribute id name) :=
  redressed_modify s (·.erase name) _

theorem redressed_setAll (s : Surface) (attrs : Dict String) :
    Redressed id tag Dict.empty attrs s
      (attrs.entries.foldl (fun s a => s.setAttribute id a.1 a.2) s) := by
  have hstep : ∀ s d (a : String × String),
      Redressed id tag d (d.insert a.1 a.2) s (s.setAttribute id a.1 a.2) :=
    fun s d a => redressed_setAttribute s a.1 a.2
  have h := Redressed.foldl hstep attrs.entries s Dict.empty
  have hd : attrs.entries.foldl (fun d a => d.insert a.1 a.2) Dict.empty = attrs := by
    apply Dict.ext_get?
    intro key
    have hi := Dict.get?_foldl_insert (fun _ => False) attrs.sorted Dict.empty (by simp) key
    rw [Dict.get?_empty, Option.or_none] at hi
    simpa only [if_false] using! hi
  rwa [hd] at h

theorem redressed_patch (s : Surface) (previous next : Dict String) :
    Redressed id tag previous next s (s.patch id previous next) := by
  have hadd : ∀ s d (a : String × String), Redressed id tag d (d.insert a.1 a.2) s _ :=
    fun s d a => redressed_setAttribute s a.1 a.2
  have herase : ∀ s d (name : String), Redressed id tag d (d.erase name) s _ :=
    fun s d name => redressed_removeAttribute s name
  have hset := Redressed.foldl (fun s d a => (hadd s d a).ifNot (p := previous.get? a.1 = some a.2))
    next.entries s previous
  have hdrop := Redressed.foldl (fun s d name => (herase s d name).ifNot
    (p := next.contains name = true)) previous.keys
  have hd : previous.keys.foldl (fun d name => if next.contains name then d else d.erase name)
      (next.entries.foldl (fun d a => if previous.get? a.1 = some a.2 then d else
        d.insert a.1 a.2) previous) = next := by
    apply Dict.ext_get?
    intro key
    rw [Dict.get?_foldl_erase (fun name => next.contains name = true),
      Dict.get?_foldl_insert (fun a => previous.get? a.1 = some a.2) next.sorted previous
        (fun _ _ h => h)]
    simp only [Dict.mem_keys, Dict.contains]
    change (if _ then none else (next.get? key).or _) = _
    cases hn : next.get? key with
    | some v => simp
    | none => cases hp : previous.get? key <;> simp
  have h := hset.trans (hdrop _ _)
  rwa [hd] at h

end Surface

end ReactiveView
