import SignalCalc.Equation

/-! # Sessions

A session is a store together with the programs that are alive on it, each under a name of its own,
the setting of the next equations and the scope of a script. Whatever replaces a program releases
it.
-/

namespace SignalCalc

structure Session (σ : Type) where
  setting : Setting
  store : σ
  scope : Option Scope := none
  programs : List (String × Program) := []

namespace Session

variable {σ : Type}

def program? (s : Session σ) (name : String) : Option Program :=
  (s.programs.find? (·.1 = name)).map (·.2)

/-- Puts a program in place of the one of that name, which is not released. -/
def put (s : Session σ) (name : String) (p : Program) : Session σ :=
  { s with programs := (name, p) :: s.programs.filter (·.1 ≠ name) }

def withOptions (s : Session σ) (options : Options) : Session σ :=
  { s with setting := { s.setting with options := options } }

variable [VariableStore σ]

/-- Releases the program of a name; tells whether there was one. -/
def drop (s : Session σ) (name : String) : Bool × Session σ :=
  match s.program? name with
  | some p =>
    (true, { s with programs := s.programs.filter (·.1 ≠ name), store := p.release s.store })
  | none => (false, s)

/-- Puts a program in place of the one of that name, which is released. -/
def replace (s : Session σ) (name : String) (p : Program) : Session σ := (s.drop name).2.put name p

/-- Compiles an equation under a name. A refused equation leaves the name as it is. -/
def compile (s : Session σ) (name source : String) : Except EquationError Program × Session σ :=
  let outcome := SignalCalc.compile s.setting s.scope source s.store
  let s := { s with store := outcome.store, scope := outcome.scope }
  match outcome.result with
  | .ok p => (.ok p, s.replace name p)
  | .error e => (.error e, s)

def evaluate (s : Session σ) (source : String) : Except EquationError Evaluation × Session σ :=
  let outcome := SignalCalc.evaluate s.setting s.scope source s.store
  (outcome.result, { s with store := outcome.store, scope := outcome.scope })

def check (s : Session σ) (strict : Bool) (source : String) :
    Except EquationError Report × Session σ :=
  let outcome := SignalCalc.check s.setting strict s.scope source s.store
  (outcome.result, { s with store := outcome.store, scope := outcome.scope })

def share (s : Session σ) (name copy : String) : Option (Session σ) :=
  (s.program? name).map fun p =>
    let (q, store) := p.share s.store
    ({ s with store := store } : Session σ).replace copy q

def resetEdges (s : Session σ) (name : String) : Option (Session σ) :=
  (s.program? name).map fun p => s.put name p.resetEdges

def register (s : Session σ) (name : String) (n : UInt64) : Option (Session σ) :=
  (s.program? name).map fun p =>
    let (p, store) := p.register n s.store
    ({ s with store := store } : Session σ).put name p

/-- Runs a program in one of the ways that `Program` offers. -/
def runWith (s : Session σ) (name : String) (way : Program → σ → Run σ) :
    Option (Run σ × Session σ) :=
  (s.program? name).map fun p =>
    let r := way p s.store
    (r, ({ s with store := r.store } : Session σ).put name r.program)

end Session

end SignalCalc
