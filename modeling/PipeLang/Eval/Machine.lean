import PipeLang.Eval.Operator
import PipeLang.Program

/-!
# The machine

What a running program has computed so far: which modules have run, the values of exported definitions and
of whole modules, and the frames, which hold all other bindings. Frames are keyed by the ids of bindings, so
that no name is looked up here. Nothing that is entered is ever removed, and the latest entry counts.
-/

namespace PipeLang

/-- How far the evaluation of a module has come. -/
inductive RunState where
  | running
  | done
  /-- A statement failed; every later request gets the same error. -/
  | failed (error : RuntimeError)
  deriving DecidableEq, Repr

/-- The running counterpart of a scope: a module, a call, a block, or an iteration of a loop. -/
structure Frame where
  /-- The frames around it, the innermost first. -/
  outer : List FrameId
  values : List (BindingId × Value)

/-- The frames of a program. -/
abbrev Heap := Array Frame

namespace Heap

/-- A frame inside another, or a frame of its own. -/
def push (h : Heap) (parent : Option FrameId) : Heap :=
  Array.push h ⟨match parent with
    | some id => id :: ((h[id]?.map Frame.outer).getD [])
    | none => [], []⟩

/-- Gives a binding a value in a frame. -/
def define (h : Heap) (frame : FrameId) (id : BindingId) (v : Value) : Heap :=
  h.modify frame fun f => { f with values := (id, v) :: f.values }

/-- The value of a binding in a frame itself. -/
def getLocal? (h : Heap) (frame : FrameId) (id : BindingId) : Option Value :=
  match h[frame]? with
  | some f => f.values.lookup id
  | none => none

/-- A frame and the frames around it. -/
def chain (h : Heap) (frame : FrameId) : List FrameId :=
  match h[frame]? with
  | some f => frame :: f.outer
  | none => []

/-- The value of a binding in the innermost frame that has one. -/
def get? (h : Heap) (frame : FrameId) (id : BindingId) : Option Value :=
  (h.chain frame).findSome? fun f => h.getLocal? f id

end Heap

/-- The state of a running program. -/
structure Machine where
  states : List (ModuleId × RunState)
  /-- The values of exported definitions. -/
  items : List ((ModuleId × String) × Value)
  /-- The values that whole modules stand for. -/
  assemblies : List (ModuleId × Value)
  /-- The frames of modules. -/
  roots : List (ModuleId × FrameId)
  heap : Heap
  /-- Identities of functions and objects below this number are taken. -/
  fresh : Nat

/-- Why a computation stops without a value. -/
inductive Stop where
  | error (error : RuntimeError)
  /-- The bound on nested evaluation was reached; this is no answer of the program. -/
  | outOfFuel

/-- A computation of the machine; what it has changed stays changed when it stops. -/
abbrev Eval (α : Type) := EStateM Stop Machine α

/-- Where an expression is evaluated. -/
structure Context where
  module : ModuleId
  frame : FrameId
  deriving DecidableEq, Repr

namespace Machine

/-- A machine on which nothing has run. -/
def new : Machine :=
  ⟨[], [], [], [], #[], 0⟩

end Machine

namespace Eval

/-- Stops with an error. -/
def fail {α : Type} (e : RuntimeError) : Eval α :=
  throw (.error e)

/-- A result, or the stop that takes its place. -/
def ofOutcome {α : Type} : Outcome α → Eval α
  | .ok x => pure x
  | .error e => fail e

/-- Opens a frame inside another, or a frame of its own. -/
def openFrame (parent : Option FrameId) : Eval FrameId :=
  modifyGet fun m => (m.heap.size, { m with heap := m.heap.push parent })

/-- A context inside another. -/
def inside (c : Context) : Eval Context :=
  return { c with frame := ← openFrame (some c.frame) }

/-- Gives a binding a value in a frame. -/
def define (frame : FrameId) (id : BindingId) (v : Value) : Eval Unit :=
  modify fun m => { m with heap := m.heap.define frame id v }

/-- Gives an exported definition its value. -/
def setItem (module : ModuleId) (name : String) (v : Value) : Eval Unit :=
  modify fun m => { m with items := ((module, name), v) :: m.items }

/-- The value of an exported definition. -/
def item? (module : ModuleId) (name : String) : Eval (Option Value) :=
  return (← get).items.lookup (module, name)

/-- Records how far a module has come. -/
def setState (module : ModuleId) (s : RunState) : Eval Unit :=
  modify fun m => { m with states := (module, s) :: m.states }

/-- Records the frame of a module. -/
def setRoot (module : ModuleId) (frame : FrameId) : Eval Unit :=
  modify fun m => { m with roots := (module, frame) :: m.roots }

/-- Records the value that a whole module stands for. -/
def setAssembly (module : ModuleId) (v : Value) : Eval Unit :=
  modify fun m => { m with assemblies := (module, v) :: m.assemblies }

/-- An identity that nothing has yet. -/
def freshIdentity : Eval Nat :=
  modifyGet fun m => (m.fresh, { m with fresh := m.fresh + 1 })

/-- A function literal as a value. -/
def makeClosure (c : Context) (f : Lambda) (name : Option String) : Eval Value := do
  return .closure ⟨name, c.module, f, c.frame, ← freshIdentity⟩

end Eval

end PipeLang
