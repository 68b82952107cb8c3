import ReactiveView.Proofs.Render.Closed
import ReactiveView.Proofs.Render.Scoping

namespace ReactiveView

variable {ω α : Type} {library : Library ω}

/-- States of two passes that have done the same, however they have come to it. -/
structure PassState.Agrees (s s' : PassState ω) : Prop where
  scope_eq : s.scope = s'.scope
  cache_eq : s.cache = s'.cache

namespace Pass

/-- What a part of a pass does and results in does not depend on the steps taken before. -/
def Memoryless (p : Pass ω α) : Prop :=
  ∀ s s' : PassState ω, s.Agrees s' →
    (p.run s).1 = (p.run s').1 ∧ (p.run s).2.Agrees (p.run s').2

theorem memoryless_template (id source : String) (dynamic : Bool) :
    Memoryless (Pass.template id source dynamic : Pass ω Template) := by
  intro s s' h
  obtain ⟨scope, cache, steps⟩ := s
  obtain ⟨scope', cache', steps'⟩ := s'
  obtain ⟨rfl, rfl⟩ := h
  exact ⟨rfl, rfl, rfl⟩

theorem closed_memoryless (library : Library ω) : Closed library fun _ p => Memoryless p where
  pure := fun _ _ _ h => ⟨rfl, h⟩
  throw := fun _ _ _ h => ⟨rfl, h⟩
  bind := fun hp hf s s' h => bind_alike (hp s s' h) fun a ha => hf s a ha
  load := fun key s s' h => by
    obtain ⟨scope, cache, steps⟩ := s
    obtain ⟨scope', cache', steps'⟩ := s'
    obtain ⟨rfl, rfl⟩ := h
    exact ⟨rfl, rfl, rfl⟩
  clean := fun s s' h => by
    obtain ⟨scope, cache, steps⟩ := s
    obtain ⟨scope', cache', steps'⟩ := s'
    obtain ⟨rfl, rfl⟩ := h
    exact ⟨rfl, rfl, rfl⟩
  describe := fun key props s s' h => by
    obtain ⟨scope, cache, steps⟩ := s
    obtain ⟨scope', cache', steps'⟩ := s'
    obtain ⟨rfl, rfl⟩ := h
    exact ⟨rfl, rfl, rfl⟩
  template := fun _ => memoryless_template _ _ _

end Pass

/-- What is attached for the heads of some references is attached again. -/
def Bindings.Covers (attached' attached : Bindings ω) (references : List String) : Prop :=
  ∀ reference ∈ references, ∀ name ∈ (splitAt '.' reference).head?,
    attached'.get? name = attached.get? name

theorem Frame.alike_of_covers {attached : Bindings ω} {d : Descriptor ω} {references : List String}
    (h : attached.Covers d.attached references) (component : String) (depth : Nat) :
    Frame.Alike ⟨component, depth, d, []⟩ ⟨component, depth, { d with attached }, []⟩ references where
  component_eq := rfl
  depth_eq := rfl
  imports_eq := rfl
  head?_eq := h

namespace Library

variable {key key' : String} {props props' : Bindings ω} {depth : Nat} {s : PassState ω}
  {d : Descriptor ω} {attached : Bindings ω} {scope : Scope ω}

theorem memoryless_unwrap (library : Library ω) (levels depth : Nat) (id : String)
    (d : Descriptor ω) : (library.unwrap levels depth id d).Memoryless := by
  have hclosed := Pass.closed_memoryless library
  exact hclosed.bind (Pass.memoryless_template _ _ _) fun _ template _ =>
    hclosed.bind (hclosed.expand (hclosed.mount levels (depth + 1)) template.root _) fun _ root _ =>
      hclosed.pure _

theorem run_unwrap_of_covers (library : Library ω) (levels depth : Nat) (id : String)
    (h : ∀ t, (s.cache.load id d.template d.dynamic).1 = .ok t →
      attached.Covers d.attached t.references) :
    (library.unwrap levels depth id { d with attached }).run s =
      (library.unwrap levels depth id d).run s := by
  rw [unwrap, unwrap, Pass.run_bind, Pass.run_bind, Pass.run_template]
  cases hload : (s.cache.load id d.template d.dynamic).1 with
  | error e => rfl
  | ok t =>
    dsimp only [Except.mapError]
    rw [Node.expand_eq library _ t.root (Frame.alike_of_covers (h t hload) id depth)]

/-- A pass depends on what is attached for the heads of the references of a template, and on nothing
else that is attached: two components that are told apart by that alone result in the same and leave
the same hooks, the same effects and the same cache behind. -/
theorem mount_of_covers (hid : (library key').id = (library key).id)
    (hd : ((library key).describe props).run
      { s.scope with registry := s.scope.registry.load ⟨(library key).id, depth⟩ } = (.ok d, scope))
    (hd' : ((library key').describe props').run
      { s.scope with registry := s.scope.registry.load ⟨(library key).id, depth⟩ } =
        (.ok { d with attached }, scope))
    (hr : ∀ t, (s.cache.load (library key).id d.template d.dynamic).1 = .ok t →
      attached.Covers d.attached t.references) (levels : Nat) :
    ((library.mount levels depth key' props').run s).1 =
        ((library.mount levels depth key props).run s).1 ∧
      ((library.mount levels depth key' props').run s).2.Agrees
        ((library.mount levels depth key props).run s).2 := by
  cases levels with
  | zero =>
    rw [Library.mount, Library.mount, hid]
    exact ⟨rfl, rfl, rfl⟩
  | succ levels =>
    rw [← hid] at hd'
    have hunwrap := run_unwrap_of_covers (s := ⟨scope, s.cache,
      s.steps ++ [.load ⟨(library key).id, depth⟩] ++ [.describe ((library key').describe props')]⟩)
      library levels depth (library key).id hr
    rw [run_mount hd, run_mount hd', hid, hunwrap]
    exact memoryless_unwrap library levels depth _ d _ _ ⟨rfl, rfl⟩

def book : Descriptor Unit :=
  ⟨["stamp"], "<p title=\x7buser.name\x7d><Stamp/></p>",
    Dict.empty.insert "user" (.value (.map [("name", .str "u")])), false⟩

def stamped : Library Unit := fun key =>
  if key = "stamp" then
    ⟨"Stamp", fun _ => .state (.flag false) fun _ _ => .done (.ok ⟨[], "<b/>", Dict.empty, false⟩)⟩
  else if key = "noted" then
    ⟨"Book", fun _ => .done (.ok { book with attached := book.attached.insert "note" (.value .null) })⟩
  else ⟨"Book", fun _ => .done (.ok book)⟩

def firstPass : PassState Unit := ⟨⟨Registry.empty, Store.start ()⟩, Cache.empty, []⟩

theorem mount_of_covers_stamped :
    ((stamped.mount 3 0 "noted" Dict.empty).run firstPass).1 =
        ((stamped.mount 3 0 "book" Dict.empty).run firstPass).1 ∧
      ((stamped.mount 3 0 "noted" Dict.empty).run firstPass).2.Agrees
        ((stamped.mount 3 0 "book" Dict.empty).run firstPass).2 ∧
      ((stamped.mount 3 0 "book" Dict.empty).run firstPass).1.toOption.isSome = true ∧
      ((stamped.mount 3 0 "book" Dict.empty).run firstPass).2.scope.registry.buckets =
        [(⟨"Book", 0⟩, []), (⟨"Stamp", 1⟩, [0])] := by
  have hload : (firstPass.cache.load "Book" book.template book.dynamic).1.toOption.map
      Template.references = some ["user.name"] := by decide +kernel
  have hhead : (splitAt '.' "user.name").head? = some "user" := by decide +kernel
  have hcovers : ∀ t, (firstPass.cache.load "Book" book.template book.dynamic).1 = .ok t →
      Bindings.Covers (book.attached.insert "note" (.value .null)) book.attached t.references := by
    intro t ht
    rw [ht] at hload
    rw [show t.references = ["user.name"] from Option.some.inj hload]
    refine List.forall_mem_singleton.mpr fun name hname => ?_
    rw [hhead, Option.mem_some_iff] at hname
    rw [← hname, Dict.get?_insert, if_neg (by decide)]
  have hplain : ((stamped "book").describe Dict.empty).run { firstPass.scope with
        registry := firstPass.scope.registry.load ⟨(stamped "book").id, 0⟩ } =
      (.ok book, { firstPass.scope with registry := firstPass.scope.registry.load ⟨"Book", 0⟩ }) := rfl
  have hnoted : ((stamped "noted").describe Dict.empty).run { firstPass.scope with
        registry := firstPass.scope.registry.load ⟨(stamped "book").id, 0⟩ } =
      (.ok { book with attached := book.attached.insert "note" (.value .null) },
        { firstPass.scope with registry := firstPass.scope.registry.load ⟨"Book", 0⟩ }) := rfl
  have hid : (stamped "noted").id = (stamped "book").id := rfl
  obtain ⟨hresult, hstate⟩ := mount_of_covers hid hplain hnoted hcovers 3
  exact ⟨hresult, hstate, by decide +kernel, by decide +kernel⟩

end Library

end ReactiveView
