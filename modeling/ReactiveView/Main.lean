import ReactiveView.Tool.Request

namespace ReactiveView.Tool

def source (path : String) : IO String := do
  try IO.FS.readFile path
  catch _ => throw (IO.userError ("failed to read " ++ path))

def orFail {ε α : Type} (message : ε → String) : Except ε α → IO α
  | .ok a => pure a
  | .error e => throw (IO.userError (message e))

def checkAll (paths : List String) : IO Unit := do
  let results ← paths.mapM fun path => return (path, check (← source path))
  for (path, error) in results do
    match error with
    | some message => IO.eprintln (path ++ ": " ++ message)
    | none => IO.println (path ++ ": ok")
  let failed := results.countP fun r => r.2.isSome
  if failed > 0 then
    throw (IO.userError (toString failed ++ " of " ++ toString results.length ++
      " templates failed"))

def Request.perform : Request → IO Unit
  | tokens path => do IO.println (← orFail TemplateError.message (Tool.tokens (← source path)))
  | tree path => do IO.println (← orFail TemplateError.message (Tool.tree (← source path)))
  | check paths => checkAll paths
  | render path attach cacheTemplates => do
    IO.println (← orFail Failure.message (Tool.render (← source path) attach cacheTemplates))

end ReactiveView.Tool

open ReactiveView.Tool in
/-- Run the tool; the answer is 0, or 1 after an error, or 2 if the arguments are not in order. -/
def main (arguments : List String) : IO UInt32 := do
  match Request.ofArguments? arguments with
  | none =>
    IO.eprintln usage
    return 2
  | some request =>
    try
      request.perform
      return 0
    catch e =>
      IO.eprintln ("Error: " ++ toString e)
      return 1
