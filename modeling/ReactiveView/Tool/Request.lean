import ReactiveView.Tool

namespace ReactiveView.Tool

inductive Request where
  | tokens (path : String)
  | tree (path : String)
  | check (paths : List String)
  | render (path : String) (attach : Option String) (cacheTemplates : Bool)
  deriving DecidableEq, Repr

namespace Request

structure RenderArguments where
  path : Option String
  attach : Option String
  cacheTemplates : Bool
  deriving DecidableEq, Repr

/-- Read the arguments of a request to show a template. The file and the bindings are given at
most once. -/
def renderArguments (r : RenderArguments) : List String → Option RenderArguments
  | [] => some r
  | "--no-cache" :: rest => renderArguments { r with cacheTemplates := false } rest
  | "--attach" :: attach :: rest =>
    if r.attach.isSome then none else renderArguments { r with attach := some attach } rest
  | path :: rest =>
    if r.path.isSome || path.startsWith "-" then none
    else renderArguments { r with path := some path } rest

def ofArguments? : List String → Option Request
  | ["tokens", path] => some (.tokens path)
  | ["ast", path] => some (.tree path)
  | "check" :: path :: paths => some (.check (path :: paths))
  | "render" :: arguments =>
    match renderArguments ⟨none, none, true⟩ arguments with
    | some ⟨some path, attach, cacheTemplates⟩ => some (.render path attach cacheTemplates)
    | _ => none
  | _ => none

end Request

def usage : String :=
  "usage: tokens FILE | ast FILE | check FILE... | render FILE [--attach JSON] [--no-cache]"

end ReactiveView.Tool
