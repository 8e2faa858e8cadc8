import Mathlib.Logic.Relation
import PipeLang.Proofs.Resolve.Parts
import PipeLang.Proofs.Syntax.Mentions

/-!
# Changes

What a resolution does to the program, to the bindings and to the references, wherever in the text it does it. A
resolution that is traced makes such changes and no others, and wherever it asks the loader for a module it has made
some of them before and makes the rest behind: `Traced`. Resolutions that are traced make up resolutions that are
traced: `Traced.bind`.
-/

namespace PipeLang

namespace Resolution

/-- What a use of a name or path can denote, and of which type. -/
inductive Denotes (r : Resolution) : Target → Ty → Prop where
  | bound {id : Nat} {b ty} :
    r.scopes.bindings[id]? = some b →
    b.target ≠ .invalid →
    (b.loops = [] → ty = b.ty) →
    Denotes r b.target ty
  | host {name signature ty} :
    r.program.hosts.signature? name = some signature →
    Denotes r (.host name) ty
  | exported {id : ModuleId} {e} :
    e ∈ (r.program.exportsOf id).entries →
    Denotes r e.target e.ty

/-- A binding that is not for an exported definition of the module itself. -/
inductive Binds (r : Resolution) (b : Binding) : Prop where
  | inner :
    b.target = .inner r.scopes.nextBinding →
    Binds r b
  | invalid :
    b.target = .invalid →
    Binds r b
  | module {id : Nat} :
    b.target = .module id →
    id < r.program.modules.size →
    Binds r b
  | exported {id : ModuleId} {e} :
    e ∈ (r.program.exportsOf id).entries →
    b.target = e.target →
    b.ty = e.ty →
    b.loops = [] →
    Binds r b

/-- An export of something that comes from another module. -/
inductive Forwards (r : Resolution) (e : Export) : Prop where
  | module {id : Nat} :
    e.target = .module id →
    id < r.program.modules.size →
    Forwards r e
  | exported {id : ModuleId} {e'} :
    e' ∈ (r.program.exportsOf id).entries →
    e.target = e'.target →
    e.kind = e'.kind →
    e.ty = e'.ty →
    Forwards r e

/-- The program in which a module offers other exports. -/
def offering (r : Resolution) (exports : Exports) : Program :=
  r.program.modify r.home fun m => { m with exports := exports }

end Resolution

/-- One change of a resolution that goes over some mentions. Only what stands at the top level changes what the module
offers to others. -/
inductive Change (load : Loader) (mentions : List Mention) (topLevel : Bool) (r : Resolution) : Resolution → Prop where
  /-- Nothing that matters elsewhere. -/
  | tables {r'} :
    r'.program = r.program →
    r'.home = r.home →
    r'.scopes.bindings = r.scopes.bindings →
    r'.references = r.references →
    r.faults ⊆ r'.faults →
    Change load mentions topLevel r r'
  | record {site : Span} {target ty} :
    r.Denotes target ty →
    Change load mentions topLevel r { r with references := r.references.insert site ⟨target, ty⟩ }
  | bind {b} :
    r.Binds b →
    Change load mentions topLevel r { r with scopes := r.scopes.insert b }
  | edge {e} :
    Change load mentions topLevel r { r with program := r.program.addEdge e }
  | load {i} :
    .importing i ∈ mentions →
    Change load mentions topLevel r { r with program := (load r.program i.path).2 }
  /-- An exported import. -/
  | forward {e exports} :
    topLevel = true →
    (r.program.exportsOf r.home).insert e = .ok exports →
    r.Forwards e →
    Change load mentions topLevel r { r with program := r.offering exports }
  /-- An exported definition. -/
  | define {b e exports} :
    topLevel = true →
    b.target = .item r.home b.name →
    b.loops = [] →
    e.name = b.name →
    e.target = b.target →
    e.ty = b.ty →
    e.reexport = false →
    (r.program.exportsOf r.home).insert e = .ok exports →
    Change load mentions topLevel r { r with scopes := r.scopes.insert b, program := r.offering exports }
  /-- A definition whose name has been exported before. -/
  | redefine {b fault} :
    topLevel = true →
    b.target = .item r.home b.name →
    Change load mentions topLevel r { r with scopes := r.scopes.insert b, faults := r.faults ++ [fault] }
  | assembly {place} :
    topLevel = true →
    Change load mentions topLevel r { r with
      program := r.program.modify r.home fun m => { m with exports := { m.exports with assembly := place } } }

/-- Changes one after another. -/
abbrev Changes (load : Loader) (mentions : List Mention) (topLevel : Bool) : Resolution → Resolution → Prop :=
  Relation.ReflTransGen (Change load mentions topLevel)

/-- What a resolution comes to depends on what the loader answers when it is asked for a path in a program. -/
def Resolve.Asks {α : Type} (x : Loader → Resolve α) (load : Loader) (r : Resolution) (p : Program) (raw : String) :
    Prop :=
  ∃ load' : Loader, (∀ q s, q ≠ p ∨ s ≠ raw → load' q s = load q s) ∧ (x load').run r ≠ (x load).run r

open Resolve (after answer Asks)

/-- A resolution makes changes, and asks the loader between them, for what an import among its mentions names. -/
structure Traced {α : Type} (load : Loader) (mentions : List Mention) (topLevel : Bool) (x : Loader → Resolve α) :
    Prop where
  changes : ∀ r, Changes load mentions topLevel r (after (x load) r)
  asks : ∀ {r p raw}, Asks x load r p raw → ∃ i asking, .importing i ∈ mentions ∧ raw = i.path ∧ asking.program = p ∧
    Changes load mentions topLevel r asking ∧
    Changes load mentions topLevel { asking with program := (load p raw).2 } (after (x load) r)

variable {load : Loader} {mentions : List Mention} {topLevel : Bool} {r r' : Resolution} {α β : Type}

/-- A change can be made over more mentions, and a nested one at the top level. -/
lemma Change.widen {more : List Mention} {topLevel' : Bool} (h : Change load mentions topLevel r r')
    (sub : mentions ⊆ more) (top : topLevel = true → topLevel' = true) : Change load more topLevel' r r' := by
  cases h with
  | tables program home bindings references faults => exact .tables program home bindings references faults
  | record denotes => exact .record denotes
  | bind binds => exact .bind binds
  | edge => exact .edge
  | load member => exact .load (sub member)
  | forward here inserted forwards => exact .forward (top here) inserted forwards
  | define here target loops name target' ty own inserted =>
    exact .define (top here) target loops name target' ty own inserted
  | redefine here target => exact .redefine (top here) target
  | assembly here => exact .assembly (top here)

lemma Changes.widen {more : List Mention} {topLevel' : Bool} (h : Changes load mentions topLevel r r')
    (sub : mentions ⊆ more) (top : topLevel = true → topLevel' = true) : Changes load more topLevel' r r' :=
  Relation.ReflTransGen.mono (fun _ _ change => change.widen sub top) _ _ h

namespace Traced

variable {x : Loader → Resolve α}

lemma widen {more : List Mention} {topLevel' : Bool} (h : Traced load mentions topLevel x) (sub : mentions ⊆ more)
    (top : topLevel = true → topLevel' = true) : Traced load more topLevel' x where
  changes r := (h.changes r).widen sub top
  asks asked := by
    obtain ⟨i, asking, member, path, program, before, behind⟩ := h.asks asked
    exact ⟨i, asking, sub member, path, program, before.widen sub top, behind.widen sub top⟩

/-- A resolution that does without the loader. -/
lemma own {x : Resolve α} (changes : ∀ r, Changes load mentions topLevel r (after x r)) :
    Traced load mentions topLevel fun _ => x where
  changes := changes
  asks := fun ⟨_, _, differs⟩ => absurd rfl differs

lemma pure (a : α) : Traced load mentions topLevel fun _ => (Pure.pure a : Resolve α) :=
  own fun _ => .refl

/-- One resolution behind another. -/
lemma bind {f : Loader → α → Resolve β} (first : Traced load mentions topLevel x)
    (second : ∀ a, Traced load mentions topLevel fun load => f load a) :
    Traced load mentions topLevel fun load => x load >>= f load where
  changes r := (first.changes r).trans ((second _).changes _)
  asks {r p raw} := by
    rintro ⟨load', same, differs⟩
    by_cases alike : (x load').run r = (x load).run r
    · -- the first asks nothing here, and the second begins in the same state
      have later : (f load' (answer (x load) r)).run (after (x load) r) ≠
          (f load (answer (x load) r)).run (after (x load) r) := by
        intro e
        apply differs
        change (f load' ((x load').run r).1).run ((x load').run r).2 = _
        rw [alike]
        exact e
      obtain ⟨i, asking, member, path, program, before, behind⟩ := (second _).asks ⟨load', same, later⟩
      exact ⟨i, asking, member, path, program, (first.changes r).trans before, behind⟩
    · obtain ⟨i, asking, member, path, program, before, behind⟩ := first.asks ⟨load', same, alike⟩
      exact ⟨i, asking, member, path, program, before, behind.trans ((second _).changes _)⟩

end Traced

end PipeLang
