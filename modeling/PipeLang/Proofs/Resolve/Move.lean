import Mathlib.Logic.Relation
import PipeLang.Proofs.Resolve.After
import PipeLang.Proofs.Resolve.Retains
import PipeLang.Proofs.Scope.Nested
import PipeLang.Resolve.Expr

/-!
# Moves

Everything that a resolution does is a sequence of moves, each of which changes one thing and is made only where
its conditions hold. What every resolution keeps is shown move by move.
-/

namespace PipeLang

/-- What a module may offer to others, in a program with a number of modules. -/
inductive Target.Offered (size : Nat) : Target → Prop where
  | module {id : Nat} :
    id < size →
    Offered size (.module id)
  | item {id : Nat} {name} :
    id < size →
    Offered size (.item id name)

/-- A binding counts for the loops between its scope and where it was declared: each is a scope inside of the
next, and the last is a scope inside of the binding's. -/
def Scopes.Crosses (t : Scopes) (b : Binding) : Prop :=
  ∀ loop ∈ b.loops, ∃ outer rest, t.path loop = loop :: outer :: rest ∧ (outer = b.scope ∨ outer ∈ b.loops)

/-- A binding that an import brings. -/
def Origin.IsImport (o : Origin) : Prop :=
  o = .named ∨ o = .glob

/-- A binding at the top level of a module, outside of all loops. -/
def Binding.AtTop (b : Binding) : Prop :=
  b.scope = Scopes.root ∧ b.loops = []

namespace Resolution

/-- Nothing has been found wrong so far, and no name is left open. -/
def Clean (r : Resolution) : Prop :=
  r.faults = [] ∧ r.openNames = []

/-- What an import of the module can bind: an imported module, or what such a module exports. -/
def Brings (r : Resolution) (target : Target) : Prop :=
  ∃ (site : Span) (id : Nat) (m : LoadedModule), r.imports.get? site = some id ∧ r.program.modules[id]? = some m ∧
    (target = .module id ∨ ∃ e ∈ m.exports.entries, target = e.target)

/-- What an import binds: the module that it names, or what that module exports under the name that is taken from it. -/
def Sources (r : Resolution) (b : Binding) : Prop :=
  ∃ (site : Span) (id : Nat) (m : LoadedModule), r.imports.get? site = some id ∧ b.visibleFrom = site.stop ∧
    r.program.modules[id]? = some m ∧
      (b.target = .module id ∨ ∃ e ∈ m.exports.entries, e.name = b.sourceName ∧ b.target = e.target)

lemma Sources.brings {r : Resolution} {b : Binding} (h : r.Sources b) : r.Brings b.target := by
  obtain ⟨site, id, m, known, -, found, shown⟩ := h
  exact ⟨site, id, m, known, found, shown.imp_right fun ⟨e, member, _, same⟩ => ⟨e, member, same⟩⟩

/-- A name at the top level stands for what is exported under it. -/
def Presents (r : Resolution) (e : Export) : Prop :=
  ∃ (id : Nat) (b : Binding), r.scopes.bindings[id]? = some b ∧ b.AtTop ∧ b.name = e.name ∧ b.target = e.target

/-- What a use of a name or path can denote. -/
inductive Meant (r : Resolution) : Target → Prop where
  | bound {id : Nat} {b} :
    r.scopes.bindings[id]? = some b →
    b.target ≠ .invalid →
    Meant r b.target
  | host {name signature} :
    r.program.hosts.signature? name = some signature →
    Meant r (.host name)
  | through {id : Nat} {m e} :
    Meant r (.module id) →
    r.program.modules[id]? = some m →
    e ∈ m.exports.entries →
    Meant r e.target

end Resolution

/-- A place between two offsets, which may begin before the first of them. -/
def Span.Within (lo hi : Nat) (s : Span) : Prop :=
  s.start < s.stop ∧ lo < s.stop ∧ s.stop ≤ hi

namespace Resolution

/-- A binding that a name between two offsets can introduce: nothing is in its way, and its name introduces nothing else. -/
structure Declarable (lo hi : Nat) (r : Resolution) (b : Binding) : Prop where
  free : Resolve.obstacle? r.program.policy r.scopes b = none
  scope : b.scope < r.scopes.scopes.size
  crosses : r.scopes.Crosses b
  from_ : lo ≤ b.visibleFrom
  upTo : b.visibleFrom ≤ hi
  within : b.site.Within lo hi
  fresh : r.declarations.get? b.site = none
  own : ¬ b.origin.IsImport

/-- One more binding, which the name at its site introduces. -/
def declaring (r : Resolution) (b : Binding) : Resolution :=
  { r with
    scopes := r.scopes.insert b
    declarations := r.declarations.insert b.site r.scopes.nextBinding }

end Resolution

/-- One change of a resolution, made for syntax between two offsets. -/
inductive Move (load : Loader) (lo hi : Nat) (r : Resolution) : Resolution → Prop where
  | report {faults} :
    (∀ f ∈ faults, f.isPassedOn = false) →
    Move load lo hi r { r with faults := r.faults ++ faults }
  /-- A use, behind everything that is declared before it. -/
  | record {site : Span} {target ty} :
    site.Within lo hi →
    r.references.get? site = none →
    r.Meant target →
    (∀ {id : Nat} {b}, r.scopes.bindings[id]? = some b → b.visibleFrom ≤ site.start) →
    Move load lo hi r { r with references := r.references.insert site ⟨target, ty⟩ }
  | enter {kind range} :
    lo ≤ range.start →
    range.stop ≤ hi →
    Move load lo hi r { r with
      scopes := r.scopes.push (some r.current) kind range
      current := r.scopes.nextScope }
  | leave {outer} :
    outer ∈ r.scopes.path r.current →
    Move load lo hi r { r with current := outer }
  /-- A name that an import brings. -/
  | bind {b : Binding} :
    Resolve.obstacle? r.program.policy r.scopes b = none →
    b.scope < r.scopes.scopes.size →
    r.scopes.Crosses b →
    lo ≤ b.visibleFrom →
    b.visibleFrom ≤ hi →
    r.Sources b →
    Move load lo hi r { r with scopes := r.scopes.insert b }
  /-- A name whose import has been reported. -/
  | keep {ident visibleFrom} :
    r.faults ≠ [] →
    lo ≤ visibleFrom →
    visibleFrom ≤ hi →
    Move load lo hi r { r with scopes := r.scopes.insert (Import.invalidBinding ident r.current visibleFrom) }
  /-- A name that the module keeps for itself. -/
  | declare {b : Binding} :
    r.Declarable lo hi b →
    b.target = .inner r.scopes.nextBinding →
    Move load lo hi r (r.declaring b)
  /-- A definition that the module exports. -/
  | define {b : Binding} {e exports} :
    r.Declarable lo hi b →
    b.target = .item r.home b.name →
    b.AtTop →
    e.name = b.name →
    e.target = b.target →
    e.site = b.site →
    e.reexport = false →
    (r.program.exportsOf r.home).insert e = .ok exports →
    Move load lo hi r { r.declaring b with
      program := r.program.modify r.home fun m => { m with exports := exports } }
  /-- A definition whose name has been exported before. -/
  | redefine {b : Binding} {fault : Fault} :
    r.Declarable lo hi b →
    b.target = .item r.home b.name →
    fault.isPassedOn = false →
    Move load lo hi r { r.declaring b with faults := r.faults ++ [fault] }
  /-- A loop collects a tag. -/
  | collect {tag : Nat} {loop site} {b : Binding} :
    r.scopes.bindings[tag]? = some b →
    loop ∈ b.loops →
    r.loopSites.lookup loop = some site →
    Move load lo hi r { r with loopTags := r.loopTags.insert site ((r.loopTags.get? site).getD [] ++ [tag]) }
  /-- The current scope is the body of a loop. -/
  | loop {site : Span} :
    site.Within lo hi →
    (∀ known ∈ r.loopSites, known.1 ≠ r.current ∧ known.2 ≠ site) →
    Move load lo hi r { r with loopSites := (r.current, site) :: r.loopSites }
  | leaveOpen {name} :
    Move load lo hi r { r with openNames := r.openNames ++ [name] }
  /-- An export of what an import brings. -/
  | forward {e exports} :
    (r.program.exportsOf r.home).insert e = .ok exports →
    r.Brings e.target →
    e.reexport = true →
    r.Presents e →
    Move load lo hi r { r with program := r.program.modify r.home fun m => { m with exports := exports } }
  | load {path} :
    r.program.Retains (load r.program path).2 →
    Move load lo hi r { r with program := (load r.program path).2 }
  /-- An import of a module that can be used so far. -/
  | accept {site : Span} {target : Nat} {m place} :
    site.Within lo hi →
    r.imports.get? site = none →
    (∀ {s x}, r.imports.get? s = some x → s.stop < site.stop) →
    r.program.modules[target]? = some m →
    ¬ (m.status = .loaded ∧ m.faults ≠ []) →
    Move load lo hi r { r with
      imports := r.imports.insert site target
      program := r.program.addEdge ⟨r.home, target, place⟩ }
  /-- An import of a module that has failed. -/
  | refuse {site : Span} {target : Nat} {m place} :
    site.Within lo hi →
    r.imports.get? site = none →
    (∀ {s x}, r.imports.get? s = some x → s.stop < site.stop) →
    r.program.modules[target]? = some m →
    m.faults ≠ [] →
    Move load lo hi r { r with
      imports := r.imports.insert site target
      faults := r.faults ++ [.dependencyFailed m.path.render place] }
  | assembly {place} :
    Move load lo hi r { r with
      program := r.program.modify r.home fun m => { m with exports := { m.exports with assembly := place } } }
  | settle :
    Move load lo hi r { r with
      faults := r.faults ++ r.openNames.map (Resolve.openNameFault r.scopes)
      openNames := [] }

/-- Changes of a resolution one after another. -/
abbrev Moves (load : Loader) (lo hi : Nat) : Resolution → Resolution → Prop :=
  Relation.ReflTransGen (Move load lo hi)

variable {load : Loader} {lo hi lo' hi' : Nat} {r r' : Resolution}

/-- A place between two offsets is between any wider two. -/
lemma Span.Within.widen {s : Span} (h : s.Within lo hi) (before : lo' ≤ lo) (behind : hi ≤ hi') :
    s.Within lo' hi' := by
  simp only [Span.Within] at *
  omega

lemma Resolution.Declarable.widen {b : Binding} (h : r.Declarable lo hi b) (before : lo' ≤ lo) (behind : hi ≤ hi') :
    r.Declarable lo' hi' b :=
  { h with
    from_ := Nat.le_trans before h.from_
    upTo := Nat.le_trans h.upTo behind
    within := h.within.widen before behind }

/-- A change between two offsets is one between any wider two. -/
lemma Move.widen (h : Move load lo hi r r') (before : lo' ≤ lo) (behind : hi ≤ hi') :
    Move load lo' hi' r r' := by
  cases h with
  | report own => exact .report own
  | record within fresh meant seen => exact .record (within.widen before behind) fresh meant seen
  | enter start stop => exact .enter (Nat.le_trans before start) (Nat.le_trans stop behind)
  | leave outer => exact .leave outer
  | bind free scope crosses from_ upTo sources =>
    exact .bind free scope crosses (Nat.le_trans before from_) (Nat.le_trans upTo behind) sources
  | keep faulty from_ upTo => exact .keep faulty (Nat.le_trans before from_) (Nat.le_trans upTo behind)
  | declare declarable target => exact .declare (declarable.widen before behind) target
  | define declarable target top name target' site own inserted =>
    exact .define (declarable.widen before behind) target top name target' site own inserted
  | redefine declarable target own => exact .redefine (declarable.widen before behind) target own
  | collect found member site => exact .collect found member site
  | loop within fresh => exact .loop (within.widen before behind) fresh
  | leaveOpen => exact .leaveOpen
  | forward inserted brings forwarded presents => exact .forward inserted brings forwarded presents
  | load hosts => exact .load hosts
  | accept within fresh last found usable => exact .accept (within.widen before behind) fresh last found usable
  | refuse within fresh last found faulty => exact .refuse (within.widen before behind) fresh last found faulty
  | assembly => exact .assembly
  | settle => exact .settle

/-- Changes between two offsets are changes between any wider two. -/
lemma Moves.widen (h : Moves load lo hi r r') (before : lo' ≤ lo) (behind : hi ≤ hi') :
    Moves load lo' hi' r r' := by
  induction h with
  | refl => exact .refl
  | tail _ move ih => exact ih.tail (move.widen before behind)

end PipeLang
