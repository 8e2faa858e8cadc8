import PipeLang.Fault
import PipeLang.Host.Prelude
import PipeLang.SpanTable

/-!
# Programs

A program is what has been loaded so far: its modules in the order of loading, each read and resolved at most
once, and the imports that were accepted. A module with faults makes every module fail that imports it, also
when the import was accepted before the faults were known, which happens in import cycles.
-/

namespace PipeLang

/-- When a name from a glob import that meets another binding of the name is a fault. -/
inductive GlobPolicy where
  /-- At the import that brings the second binding. -/
  | eager
  /-- At the first use of the name. -/
  | onUse
  deriving DecidableEq, Repr

/-- What a name at one place denotes. -/
structure Reference where
  target : Target
  /-- The type at that place; a loop tag outside its loop is a sequence. -/
  ty : Ty
  deriving Repr

/-- What resolution found out about a module. -/
structure Resolved where
  scopes : Scopes
  /-- What each use of a name or path denotes. -/
  references : SpanTable Reference
  /-- The binding that each declaring name introduces. -/
  declarations : SpanTable BindingId
  /-- The module that each import statement loaded. -/
  imports : SpanTable ModuleId
  /-- The tags to collect when a loop finishes. -/
  loopTags : SpanTable (List BindingId)

namespace Resolved

/-- What a name means at an offset. -/
def lookupAt (r : Resolved) (name : String) (offset : Nat) : Lookup :=
  r.scopes.lookup (r.scopes.scopeAt offset) name offset

/-- An offset behind every text. -/
def behindAll : Nat := 0xffffffffffffffff

/-- The binding of a name at the top level, seen from behind the text. -/
def topLevel? (r : Resolved) (name : String) : Option Binding :=
  match r.scopes.lookup Scopes.root name behindAll with
  | .found id => r.scopes.bindings[id]?
  | _ => none

end Resolved

/-- How far a module has come. -/
inductive LoadStatus where
  /-- Its imports are being resolved; a second request comes through an import cycle. -/
  | loading
  | loaded
  deriving DecidableEq, Repr

/-- A module of a program. -/
structure LoadedModule where
  path : ModulePath
  status : LoadStatus
  source : String
  ast : Option Module
  exports : Exports
  resolved : Option Resolved
  faults : List Fault

namespace LoadedModule

/-- Whether a module ends in an expression and can be used as a value. -/
def isAssembly (m : LoadedModule) : Bool :=
  m.exports.assembly.isSome

/-- Whether a module is loaded without faults; only then may it be imported and run. -/
def isUsable (m : LoadedModule) : Bool :=
  m.status = .loaded && m.faults.isEmpty

theorem isUsable_iff {m : LoadedModule} : m.isUsable = true ↔ m.status = .loaded ∧ m.faults = [] := by
  simp [isUsable]

end LoadedModule

/-- An import that was accepted. -/
structure ImportEdge where
  importer : ModuleId
  target : ModuleId
  site : Span
  deriving DecidableEq, Repr

/-- A program as loaded so far. -/
structure Program where
  sources : Sources
  policy : GlobPolicy
  hosts : Hosts
  modules : Array LoadedModule
  edges : List ImportEdge
  /-- How many texts have been parsed. -/
  parsed : Nat

namespace Program

/-- A program of which nothing is loaded. -/
def new (sources : Sources) (policy : GlobPolicy) (hosts : Hosts) : Program :=
  ⟨sources, policy, hosts, #[], [], 0⟩

/-- The module that was loaded for a path, by a search through the modules. No index from paths to ids is kept beside them: the
id of a module is its place, and since no path is entered twice, an index filled at each entry would answer the same. -/
def findPath? (p : Program) (path : ModulePath) : Option ModuleId :=
  p.modules.findIdx? fun m => m.path = path

/-- The module that was loaded for the path that a text names. -/
def find? (p : Program) (path : String) : Option ModuleId :=
  match ModulePath.parse path with
  | .ok path => p.findPath? path
  | .error _ => none

/-- Changes one module. -/
def modify (p : Program) (id : ModuleId) (f : LoadedModule → LoadedModule) : Program :=
  { p with modules := p.modules.modify id f }

/-- Enters a module whose text has been read and is about to be parsed. -/
def enter (p : Program) (path : ModulePath) (source : String) : Program :=
  { p with
    modules := p.modules.push ⟨path, .loading, source, none, .empty, none, []⟩
    parsed := p.parsed + 1 }

/-- The exports of a module. -/
def exportsOf (p : Program) (id : ModuleId) : Exports :=
  match p.modules[id]? with
  | some m => m.exports
  | none => .empty

/-- Records an accepted import. -/
def addEdge (p : Program) (edge : ImportEdge) : Program :=
  { p with edges := p.edges ++ [edge] }

/-- Fails one importer of a failed module, unless it has faults already; says whether it failed now. -/
def failImporter (path : String) (p : Program) (edge : ImportEdge) : Program × Bool :=
  match p.modules[edge.importer]? with
  | some m =>
    if m.faults.isEmpty then
      (p.modify edge.importer fun m => { m with faults := [.dependencyFailed path edge.site] }, true)
    else
      (p, false)
  | none => (p, false)

/-- Fails the importers along some edges, in order; the failed ones are listed, the last first. -/
def failImporters (path : String) (p : Program) (failed : List ModuleId) :
    List ImportEdge → Program × List ModuleId
  | [] => (p, failed)
  | edge :: rest =>
    match failImporter path p edge with
    | (p, true) => failImporters path p (edge.importer :: failed) rest
    | (p, false) => failImporters path p failed rest

/-- The edges into a module. -/
def edgesInto (p : Program) (target : ModuleId) : List ImportEdge :=
  p.edges.filter fun e => e.target == target

/-- The program without the edges into a module. -/
def dropEdgesInto (p : Program) (target : ModuleId) : Program :=
  { p with edges := p.edges.filter fun e => e.target != target }

/-- The text of a module's path. -/
def pathText (p : Program) (id : ModuleId) : String :=
  match p.modules[id]? with
  | some m => m.path.render
  | none => ""

@[simp] theorem failImporter_edges (path : String) (p : Program) (edge : ImportEdge) :
    (failImporter path p edge).1.edges = p.edges := by
  simp only [failImporter]
  split
  · split <;> rfl
  · rfl

theorem failImporters_edges (path : String) (p : Program) (failed : List ModuleId)
    (edges : List ImportEdge) : (failImporters path p failed edges).1.edges = p.edges := by
  induction edges generalizing p failed with
  | nil => rfl
  | cons edge rest ih =>
    have kept := failImporter_edges path p edge
    simp only [failImporters]
    split
    · next h => rw [ih, ← kept, h]
    · next h => rw [ih, ← kept, h]

theorem failImporters_nil (path : String) (p : Program) (failed : List ModuleId) :
    failImporters path p failed [] = (p, failed) := rfl

/-- An edge makes at most one importer fail. -/
theorem failImporters_length (path : String) (p : Program) (failed : List ModuleId) (edges : List ImportEdge) :
    (failImporters path p failed edges).2.length ≤ failed.length + edges.length := by
  induction edges generalizing p failed with
  | nil => exact Nat.le_refl _
  | cons edge rest ih =>
    simp only [failImporters]
    split
    · next q _ =>
      have := ih q (edge.importer :: failed)
      simp only [List.length_cons] at this ⊢
      omega
    · next q _ =>
      have := ih q failed
      simp only [List.length_cons]
      omega

/-- The edges into a module and the others are all edges. -/
theorem dropEdgesInto_edges (p : Program) (target : ModuleId) :
    (p.edgesInto target).length + (p.dropEdgesInto target).edges.length = p.edges.length := by
  have split := List.length_eq_countP_add_countP (l := p.edges) fun e => e.target == target
  have others (edge : ImportEdge) : (edge.target != target) = decide ¬(edge.target == target) = true := by
    simp only [bne]
    cases edge.target == target <;> rfl
  rw [List.countP_eq_length_filter, List.countP_eq_length_filter] at split
  simp only [edgesInto, dropEdgesInto, others]
  exact split.symm

/-- Makes every module fail that imports one of the pending modules without having faults yet, directly or
through others that fail; the edges into failed modules are used up. -/
def propagate (p : Program) : List ModuleId → Program
  | [] => p
  | target :: pending =>
    let hits := p.edgesInto target
    if hits.isEmpty then
      propagate p pending
    else
      let next := failImporters (p.pathText target) (p.dropEdgesInto target) [] hits
      propagate next.1 (next.2 ++ pending)
  termination_by pending => p.edges.length + pending.length
  decreasing_by
    · simp only [List.length_cons]
      omega
    · have split := dropEdgesInto_edges p target
      have failed := failImporters_length (p.pathText target) (p.dropEdgesInto target) [] (p.edgesInto target)
      simp only [List.length_nil, Nat.zero_add] at failed
      rw [failImporters_edges, List.length_append, List.length_cons]
      omega

/-- Number of faults of all modules. -/
def faultCount (p : Program) : Nat :=
  (p.modules.toList.flatMap LoadedModule.faults).length

end Program

end PipeLang
