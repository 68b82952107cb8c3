import ReactiveView.Hook.Scope
import ReactiveView.Render.Error

namespace ReactiveView

variable {ω : Type}

/-- What a component wants to show in one pass. -/
structure Descriptor (ω : Type) where
  /-- The keys of the components that the template can use. -/
  imports : List String
  template : String
  attached : Bindings ω
  /-- The template depends on the pass, so that its compiled form is not kept. -/
  dynamic : Bool

/-- A component. Each pass asks it anew what it wants to show. -/
structure Component (ω : Type) where
  id : String
  /-- What it wants to show, given what the component around it hands it. -/
  describe : Bindings ω → Describe ω (Except RenderError (Descriptor ω))

abbrev Library (ω : Type) := String → Component ω

def Descriptor.import? (d : Descriptor ω) (library : Library ω) (name : String) : Option String :=
  d.imports.find? fun key => (library key).id = name

end ReactiveView
