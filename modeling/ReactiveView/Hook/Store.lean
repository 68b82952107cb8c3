import ReactiveView.Hook.Scheduler

namespace ReactiveView

variable {ω : Type}

structure Store (ω : Type) where
  cells : Cells
  scheduler : Scheduler ω
  /-- What each handler does; a handler's identity is its index. -/
  handlers : Array (Reaction ω)
  host : ω

namespace Store

def start (host : ω) : Store ω := ⟨Cells.empty, Scheduler.idle, #[], host⟩

def view (s : Store ω) : View ω :=
  ⟨s.cells, s.scheduler.renderPending, s.scheduler.asyncInFlight, s.host⟩

def request (s : Store ω) : Store ω := { s with scheduler := s.scheduler.request.2 }

def get (s : Store ω) (state : Setter) : Datum := s.cells.read state.cell

/-- Set a state. A content equal to the one that is there changes nothing, and any other is
written and requests a pass. -/
def set (s : Store ω) (state : Setter) (content : Datum) : Store ω :=
  if s.get state == content then s
  else ({ s with cells := s.cells.write state.cell content } : Store ω).request

def put (s : Store ω) (ref : Ref) (content : Datum) : Store ω :=
  { s with cells := s.cells.write ref.cell content }

def makeHandler (s : Store ω) (react : Reaction ω) : Handler ω × Store ω :=
  (⟨s.handlers.size, react⟩, { s with handlers := s.handlers.push react })

def handler? (s : Store ω) (id : HandlerId) : Option (Handler ω) :=
  s.handlers[id]?.map (Handler.mk id)

end Store

namespace Program

/-- Run a program until it ends or waits at a gate that is not open; then the answer holds the gate
and what is left of the program. -/
def advance (opened : List String) : {m : Mode} → Program ω m → Store ω →
    Option (String × Program ω .async) × Store ω
  | _, done, s => (none, s)
  | _, look next, s => (next s.view).advance opened s
  | _, alter change next, s => next.advance opened { s with host := change s.host }
  | _, set state content next, s => next.advance opened (s.set state content)
  | _, put ref content next, s => next.advance opened (s.put ref content)
  | _, request next, s => next.advance opened s.request
  | _, defer effect next, s => next.advance opened { s with scheduler := s.scheduler.defer effect }
  | _, deferAsync effect next, s =>
    next.advance opened { s with scheduler := s.scheduler.deferAsync effect }
  | _, await gate next, s =>
    if gate ∈ opened then next.advance opened s else (some (gate, next), s)

def run (p : Program ω .sync) (s : Store ω) : Store ω := (p.advance [] s).2

end Program

namespace Store

def runAll (s : Store ω) (programs : List (Program ω .sync)) : Store ω :=
  programs.foldl (fun s p => p.run s) s

def deliver (s : Store ω) (event : Event) (ids : List HandlerId) : Store ω :=
  ids.foldl (fun s id =>
    match s.handlers[id]? with
    | some react => (react event).run s
    | none => s) s

/-- Take the effects that were left and run them; what they leave themselves is left for later.
The answer is how many there were. -/
def runEffects (s : Store ω) : Nat × Store ω :=
  let (effects, scheduler) := s.scheduler.takeEffects
  (effects.length, ({ s with scheduler } : Store ω).runAll effects)

end Store

end ReactiveView
