import ReactiveView.Script.Expr

namespace ReactiveView.Script

/-- An action. One that names nothing does nothing. -/
inductive Act where
  | set (state : String) (e : Expr)
  | update (state : String) (n : Int64)
  | toggle (state : String)
  | put (ref : String) (e : Expr)
  | setEnv (name : String) (e : Expr)
  | log (e : Expr)
  | request
  | call (prop event : String) (content : Expr)
  /-- Wait at a gate; only asynchronous effects do. -/
  | await (gate : String)

def Site.change {m : Mode} (site : Site) (name : String) (f : View Host → Value → Value)
    (next : Program Host m) : Program Host m :=
  .look fun v =>
    match site.state? v name with
    | some (_, setter) => .set setter (.value (f v (v.cells.read setter.cell).toValue)) next
    | none => next

def Act.program (m : Mode) (site : Site) : List Act → Program Host m
  | [] => .done
  | .set name e :: rest => site.change name (fun v _ => e.eval site v) (program m site rest)
  | .update name n :: rest => site.change name (fun _ old => old.add n) (program m site rest)
  | .toggle name :: rest =>
    site.change name (fun _ old => .bool !old.truthy) (program m site rest)
  | .put name e :: rest =>
    let next := program m site rest
    .look fun v =>
      match site.ref? v name with
      | some ref => .put ref (.value (e.eval site v)) next
      | none => next
  | .setEnv name e :: rest =>
    let next := program m site rest
    .look fun v => .alter (·.setEnv name (e.eval site v)) next
  | .log e :: rest =>
    let next := program m site rest
    .look fun v => .alter (·.note (e.eval site v)) next
  | .request :: rest => .request (program m site rest)
  | .call prop event content :: rest =>
    let next := program m site rest
    match site.handler? prop with
    | some handler => .look fun v => (handler.react ⟨event, content.eval site v⟩).andThen next
    | none => next
  | .await gate :: rest =>
    match m with
    | .sync => program .sync site rest
    | .async => .await gate (program .async site rest)

end ReactiveView.Script
