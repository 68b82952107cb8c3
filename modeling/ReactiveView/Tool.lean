import ReactiveView.Render.Attached
import ReactiveView.Render.Session
import ReactiveView.Tree.Markup

namespace ReactiveView.Tool

def tokens (source : String) : Except TemplateError String :=
  match tokenize source with
  | .ok tokens => .ok (Json.lines (.arr (tokens.map Token.toJson)))
  | .error e => .error (.lex e)

def tree (source : String) : Except TemplateError String :=
  (compile source).map fun t => Json.lines t.toJson

def check (source : String) : Option String :=
  match compile source with
  | .ok _ => none
  | .error e => some e.message

inductive Failure where
  | attach (e : AttachError)
  | render (e : RenderError)

def Failure.message : Failure → String
  | attach e => e.message
  | render e => e.message

def componentId : String := "Template"

def component (source : String) (attached : Bindings Unit) : Component Unit :=
  ⟨componentId, fun _ => .done (.ok ⟨[], source, attached, false⟩)⟩

def render (source : String) (attach : Option String) (cacheTemplates : Bool) :
    Except Failure String := do
  let attached ← match attach with
    | some text => (Bindings.read text).mapError .attach
    | none => .ok Dict.empty
  let options := { SessionOptions.standard with cacheTemplates }
  let (mounted, session) := Session.mount ⟨fun _ => component source attached, componentId, options⟩ ()
  mounted.mapError .render
  let (settled, session) := session.runUntilIdle
  discard (settled.mapError .render)
  return session.surface.html

end ReactiveView.Tool
