import ReactiveView.Hook.Scope
import ReactiveView.Value.Convert
import ReactiveView.Value.Diagnostic

namespace ReactiveView

namespace Datum

/-- The content of a kind that a value stands for; a value of another kind stands for zero, the
empty text or false. -/
def ofValue (kind : DatumKind) (v : Value) : Datum :=
  match kind with
  | .int => .int (v.int?.getD 0)
  | .text => .text (v.string?.getD "")
  | .flag => .flag (v.bool?.getD false)
  | .value => .value v
  | .deps => .deps (some v)

def diagnostic : Datum → String
  | int n => toString n.toInt
  | text s => Value.quote s
  | flag b => if b then "true" else "false"
  | value v => v.diagnostic
  | deps d => (Value.ofOption d).diagnostic

end Datum

inductive HandleSort where
  | setter
  | ref
  | cell
  deriving DecidableEq, Repr

structure Handle where
  sort : HandleSort
  cell : CellId
  deriving DecidableEq, Repr

structure BenchHost where
  handles : Dict Handle
  log : List Value

inductive Action where
  | log (v : Value)
  | set (name : String) (v : Value)
  | update (name : String) (n : Int64)
  | request
  | defer (actions : List Action)
  /-- Wait at a gate; only asynchronous effects do. -/
  | await (gate : String)

def Handle.write {m : Mode} (h : Handle) (d : Datum) (next : Program BenchHost m) :
    Program BenchHost m :=
  match h.sort with
  | .setter => .set ⟨h.cell⟩ d next
  | _ => .put ⟨h.cell⟩ d next

def Handle.change {m : Mode} (name : String) (f : Datum → Datum) (next : Program BenchHost m) :
    Program BenchHost m :=
  .look fun v =>
    match v.host.handles.get? name with
    | some h => h.write (f (v.cells.read h.cell)) next
    | none => next

def Action.program (m : Mode) : List Action → Program BenchHost m
  | [] => .done
  | .log v :: rest => .alter (fun h => { h with log := h.log ++ [v] }) (program m rest)
  | .set name v :: rest => Handle.change name (fun d => Datum.ofValue d.kind v) (program m rest)
  | .update name n :: rest => Handle.change name (Datum.add n) (program m rest)
  | .request :: rest => .request (program m rest)
  | .defer actions :: rest => .defer (program .sync actions) (program m rest)
  | .await gate :: rest =>
    match m with
    | .sync => program .sync rest
    | .async => .await gate (program .async rest)

inductive HookCall where
  | state (name : String) (initial : Datum)
  | ref (name : String) (initial : Datum)
  | effect (deps : Value) (actions : List Action)
  | effectAsync (deps : Value) (actions : List Action)
  | pending

/-- What a hook gives back: the content of its cell, and for a cell that is kept under a name
whether it is the one that was kept there before. -/
inductive HookAnswer where
  | content (v : Value)
  | sameContent (v : Value) (same : Option Bool)
  | flag (b : Bool)
  | nothing

structure Bench where
  scope : Scope BenchHost
  executor : Executor BenchHost

namespace Bench

def start : Bench := ⟨⟨Registry.empty, Store.start ⟨Dict.empty, []⟩⟩, Executor.empty⟩

def handle? (b : Bench) (name : String) : Option Handle := b.scope.store.host.handles.get? name

def content (b : Bench) (cell : CellId) : Datum := b.scope.store.cells.read cell

def withStore (b : Bench) (store : Store BenchHost) : Bench := { b with scope.store := store }

def withRegistry (b : Bench) (registry : Registry) : Bench :=
  { b with scope.registry := registry }

def keep (b : Bench) (name : String) (h : Handle) : Bench :=
  let store := b.scope.store
  b.withStore { store with host.handles := store.host.handles.insert name h }

/-- Keep a cell under a name. The answer is its content and whether it is the cell that was kept
there before, by a handle of the same sort and with a content of the same kind. -/
def keepCell (b : Bench) (sort : HandleSort) (name : String) (cell : CellId) :
    HookAnswer × Bench :=
  let same := (b.handle? name).bind fun old =>
    if old.sort = sort ∧ (b.content old.cell).kind = (b.content cell).kind then
      some (old.cell == cell)
    else none
  (.sameContent (b.content cell).toValue same, b.keep name ⟨sort, cell⟩)

def call (b : Bench) : HookCall → HookAnswer × Bench
  | .state name initial =>
    let (content, setter, scope) := b.scope.useState initial
    (.content content.toValue, ({ b with scope } : Bench).keep name ⟨.setter, setter.cell⟩)
  | .ref name initial =>
    let (ref, scope) := b.scope.useRef initial
    ({ b with scope } : Bench).keepCell .ref name ref.cell
  | .effect deps actions =>
    (.nothing, { b with scope := b.scope.useEffect deps (Action.program .sync actions) })
  | .effectAsync deps actions =>
    (.nothing, { b with scope := b.scope.useEffectAsync deps (Action.program .async actions) })
  | .pending => (.flag b.scope.store.scheduler.renderPending, b)

def callAll (b : Bench) (calls : List HookCall) : List HookAnswer × Bench :=
  calls.foldl (fun r c =>
    let (answer, b) := r.2.call c
    (r.1 ++ [answer], b)) ([], b)

def describe (b : Bench) (key : Option Coordinate) (calls : List HookCall) :
    List HookAnswer × Bench :=
  let registry := b.scope.registry.reset
  let registry := match key with
    | some key => registry.load key
    | none => registry
  (b.withRegistry registry).callAll calls

def slot (b : Bench) (name : String) (initial : Datum) : HookAnswer × Bench :=
  let (cell, scope) := b.scope.slot initial
  ({ b with scope } : Bench).keepCell .cell name cell

def newRef (b : Bench) (name : String) (initial : Datum) : Bench :=
  let (cell, cells) := b.scope.store.cells.make initial
  (b.withStore { b.scope.store with cells }).keep name ⟨.ref, cell⟩

def perform (b : Bench) (actions : List Action) : Bench :=
  b.withStore ((Action.program .sync actions).run b.scope.store)

def withScheduler (b : Bench) (scheduler : Scheduler BenchHost) : Bench :=
  b.withStore { b.scope.store with scheduler }

def scheduler (b : Bench) : Scheduler BenchHost := b.scope.store.scheduler

def defer (b : Bench) (actions : List Action) : Bench :=
  b.withScheduler (b.scheduler.defer (Action.program .sync actions))

def deferAsync (b : Bench) (actions : List Action) : Bench :=
  b.withScheduler (b.scheduler.deferAsync (Action.program .async actions))

def runEffects (b : Bench) : Nat × Bench :=
  let (n, store) := b.scope.store.runEffects
  (n, b.withStore store)

def runAsync (b : Bench) : Nat × Bench :=
  let (n, executor, store) := b.executor.drain b.scope.store
  (n, { b.withStore store with executor })

def openGate (b : Bench) (gate : String) : Bench :=
  { b with executor := b.executor.openGate gate }

/-- The diagnostic form of what is kept under a name: a handle shows the content of its cell, a
bare cell shows nothing. Under a name without a handle it is that of the scheduler. -/
def diagnostic (b : Bench) (name : String) : String :=
  match b.handle? name with
  | none => b.scheduler.diagnostic
  | some ⟨.setter, cell⟩ => "Setter \x7b value: " ++ (b.content cell).diagnostic ++ " \x7d"
  | some ⟨.ref, cell⟩ => "HookRef(" ++ (b.content cell).diagnostic ++ ")"
  | some ⟨.cell, _⟩ => ""

end Bench

end ReactiveView
