import ReactiveView.Render.Binding
import ReactiveView.Template.Parse

namespace ReactiveView

/-- Why a pass failed, with the component at which it did. -/
inductive RenderError where
  /-- The template of the component does not compile. -/
  | template (component : String) (cause : TemplateError)
  /-- Nothing is attached under a name that the template reads, or what is attached has no such
  member. -/
  | missing (component name : String)
  /-- What a name stands for cannot stand where it does. -/
  | wrongKind (component name : String) (expected : List BindingKind) (found : BindingKind)
  /-- The template uses a component that is not imported. -/
  | unknownComponent (component name : String)
  | failed (component reason : String)
  /-- More components stand inside one another than the limit allows. -/
  | tooDeep (component : String)
  deriving DecidableEq, Repr

def RenderError.message : RenderError → String
  | template component _ => "template of `" ++ component ++ "` does not compile"
  | missing component name => "`" ++ component ++ "` has no binding named `" ++ name ++ "`"
  | wrongKind component name expected found =>
    "binding `" ++ name ++ "` in `" ++ component ++ "` is a " ++ found.label ++ ", expected " ++
      " or ".intercalate (expected.map BindingKind.label)
  | unknownComponent component name =>
    "`" ++ component ++ "` uses `<" ++ name ++ ">` without importing it"
  | failed component reason => "`" ++ component ++ "` failed: " ++ reason
  | tooDeep component => "`" ++ component ++ "` is nested too deeply"

end ReactiveView
