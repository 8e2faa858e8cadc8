import PipeLang.Proofs.Eval.Lockstep

/-!
# Twin machines

Two evaluations go on, each on a machine of its own, in a region of modules that have been begun on both. As long as frames and identities
correspond and everything else is the same, they go in lockstep, `Twins.lockstep`, and come to the same end: `Twins.run_along`. What was
there before is spared: `Machine.Spares`.
-/

namespace PipeLang

open Eval

/-! ### What is spared -/

/-- Frames that were there are as they were, and nothing more is known of modules. -/
structure Machine.Spares (m m' : Machine) : Prop extends m.Keeps m' where
  states : m'.states = m.states
  items : m'.items = m.items
  assemblies : m'.assemblies = m.assemblies

namespace Machine.Spares

variable {m m' : Machine} {f : FrameId} {id : BindingId} {v : Value}

lemma refl : m.Spares m :=
  ⟨.refl, rfl, rfl, rfl⟩

lemma push (h : m.Spares m') {parent : Option FrameId} : m.Spares { m' with heap := m'.heap.push parent } :=
  { h with toKeeps := h.toKeeps.push }

lemma define (h : m.Spares m') (above : m.heap.size ≤ f) : m.Spares { m' with heap := m'.heap.define f id v } :=
  { h with toKeeps := h.toKeeps.define above }

lemma issue (h : m.Spares m') : m.Spares { m' with fresh := m'.fresh + 1 } :=
  { h with toKeeps := h.toKeeps.issue }

end Machine.Spares

/-! ### Regions -/

/-- A region of modules, and two machines on which evaluations begin. -/
structure Twins where
  program : Program
  /-- The modules whose functions may be called. -/
  region : ModuleId → Prop
  left : Machine
  right : Machine

namespace Twins

/-- Modules of the region import modules of the region. -/
structure Closed (T : Twins) : Prop where
  rest : T.program.AtRest
  imports : ∀ {id other}, T.region id → T.program.Imports id other → T.region other

/-- The modules of the region, where no import statement has to be executed. -/
def area (T : Twins) : Region :=
  ⟨T.program, T.region, fun _ _ => True, fun _ _ => True⟩

/-- Values that are the same but for what corresponds. -/
abbrev Alike (T : Twins) (M : Matching) : Value → Value → Prop :=
  T.area.Alike M

/-- Two machines are side by side. -/
structure Beside (T : Twins) (M : Matching) (x y : Machine) : Prop extends M.Carries T.area.code x.heap y.heap where
  left : T.left.Spares x
  right : T.right.Spares y
  identities : ∀ {i j}, M.identities i j → i < x.fresh ∧ j < y.fresh
  states : ∀ {id}, T.region id → ∃ s, x.states.lookup id = some s ∧ y.states.lookup id = some s
  items : ∀ {id} name, T.region id → Option.Rel (T.Alike M) (x.items.lookup (id, name)) (y.items.lookup (id, name))
  assemblies : ∀ {id}, T.region id → Option.Rel (T.Alike M) (x.assemblies.lookup id) (y.assemblies.lookup id)

variable {T : Twins} {M M' : Matching} {x y : Machine} {f g : FrameId} {v w : Value}

namespace Beside

/-- What corresponds more leaves what is known of modules alike. -/
lemma known (h : T.Beside M x y) (within : M.Within M') :
    (∀ {id} name, T.region id → Option.Rel (T.Alike M') (x.items.lookup (id, name)) (y.items.lookup (id, name))) ∧
      ∀ {id}, T.region id → Option.Rel (T.Alike M') (x.assemblies.lookup id) (y.assemblies.lookup id) :=
  ⟨fun name inside => Region.Alike.rel_mono (h.items name inside) within,
    fun inside => Region.Alike.rel_mono (h.assemblies inside) within⟩

/-- Two frames are opened, inside of frames that correspond. -/
lemma push (h : T.Beside M x y) (pair : M.frames f g) :
    T.Beside (M.withFrame x.heap.size y.heap.size) { x with heap := x.heap.push (some f) } { y with heap := y.heap.push (some g) } where
  toCarries := h.toCarries.push pair
  left := h.left.push
  right := h.right.push
  identities := h.identities
  states := h.states
  items := (h.known Matching.within_withFrame).1
  assemblies := (h.known Matching.within_withFrame).2

/-- Frames that have been opened since are given values that are alike. -/
lemma define (h : T.Beside M x y) (pair : M.frames f g) (left : T.left.heap.size ≤ f) (right : T.right.heap.size ≤ g) (id : BindingId)
    (alike : T.Alike M v w) : T.Beside M { x with heap := x.heap.define f id v } { y with heap := y.heap.define g id w } :=
  { h with
    toCarries := h.toCarries.define pair id alike
    left := h.left.define left
    right := h.right.define right }

/-- Two identities are given away. -/
lemma issue (h : T.Beside M x y) :
    T.Beside (M.withIdentity x.fresh y.fresh) { x with fresh := x.fresh + 1 } { y with fresh := y.fresh + 1 } where
  toCarries := h.toCarries.issue fun pair => (h.identities pair).imp Nat.ne_of_lt Nat.ne_of_lt
  left := h.left.issue
  right := h.right.issue
  identities := by
    rintro i j (old | ⟨rfl, rfl⟩)
    · exact (h.identities old).imp Nat.lt_succ_of_lt Nat.lt_succ_of_lt
    · exact ⟨Nat.lt_succ_self _, Nat.lt_succ_self _⟩
  states := h.states
  items := (h.known Matching.within_withIdentity).1
  assemblies := (h.known Matching.within_withIdentity).2

end Beside

/-- Evaluations go in lockstep on machines that are side by side. -/
def lockstep (T : Twins) : Lockstep where
  toRegion := T.area
  slack := .none
  exports _ := False
  left := T.left.heap.size
  right := T.right.heap.size
  Beside := T.Beside
  carries h := h.toCarries
  size h := ⟨h.left.size, h.right.size⟩
  push h pair := h.push pair
  define h pair left right alike := h.define pair left right _ alike
  issue h := h.issue
  setItem _ exports _ := exports.elim

/-- Modules that are reached from the region are in it. -/
lemma Closed.reached {id other : ModuleId} (closed : T.Closed) (inside : T.region id)
    (way : Relation.ReflTransGen T.program.Imports id other) : T.region other := by
  induction way with
  | refl => exact inside
  | tail _ imports ih => exact closed.imports ih imports

variable {run run' : Task → Eval Value} {id : ModuleId}

/-- A module of the region has been begun, on both machines. -/
lemma module_along (inside : T.region id) :
    T.lockstep.Along M (step T.program run (.module id)) (step T.program run' (.module id)) T.Alike := by
  refine Lockstep.Along.bind (Q := fun _ _ _ => True) (.read fun x y beside => ?_) fun _ _ _ _ _ => .pure .unit
  obtain ⟨s, known, known'⟩ := beside.states inside
  simp only [known, known']
  cases s with
  | running | done => exact .pure trivial
  | failed e => exact .fail

/-- The value of an exported definition of a module of the region. -/
lemma item_along {name : String} (inside : T.region id) :
    T.lockstep.Along M (item? id name) (item? id name) fun M => Option.Rel (T.Alike M) :=
  .read fun _ _ beside => .pure (beside.items name inside)

section

variable (modules : ∀ {M : Matching} {id : ModuleId}, T.region id → T.lockstep.Along M (run (.module id)) (run' (.module id)) T.Alike)
include modules

/-- The value of a whole module. -/
lemma assembly_along (inside : T.region id) : T.lockstep.Along M (assembly T.program run id) (assembly T.program run' id) T.Alike := by
  simp only [assembly, Eval.module]
  cases T.program.modules[(id : Nat)]? with
  | none => exact Lockstep.Along.fail.bind (Q := fun _ _ _ => False) fun _ _ _ _ => False.elim
  | some l =>
    simp only [pure_bind]
    split
    · refine (modules inside).bind fun M' _ _ _ _ => .read fun x y beside => ?_
      have value := beside.assemblies inside
      generalize x.assemblies.lookup id = o at value ⊢
      generalize y.assemblies.lookup id = o' at value ⊢
      cases value with
      | some alike => exact .pure alike
      | none => exact .fail
    · exact .fail

/-- What modules of the region import and refer to is in the region. -/
lemma Closed.hooks (closed : T.Closed) : T.lockstep.Hooks run run' where
  importing {M c c' t scope passed i} lies := by
    simp only [statement, lies.resolvedOf, pure_bind]
    cases imported : t.imports.get? i.span with
    | some target =>
      have inside : T.region target := closed.imports lies.inside ⟨t, i.span, lies.here.resolved, imported⟩
      exact (modules inside).bind fun _ _ _ _ _ => .pure ⟨.unit, trivial⟩
    | none => exact .pure ⟨.unit, trivial⟩
  item {M c c' t scope passed site id item ty name} lies _ found := by
    have inside : T.region id := closed.reached lies.inside (closed.rest.reached lies.here.resolved found)
    refine (item_along inside).bind fun M' o o' _ value => ?_
    cases value with
    | some alike => exact .pure alike
    | none =>
      refine (modules inside).bind fun _ _ _ _ _ => (item_along inside).bind fun _ o o' _ value => ?_
      cases value with
      | some alike => exact .pure alike
      | none => exact .fail
  whole lies _ found := assembly_along modules (closed.reached lies.inside (closed.rest.reached lies.here.resolved found))

end

variable (closed : T.Closed) (onePlace : T.program.OnePlace) (pure : T.program.hosts.Pure)
include closed onePlace pure

/-- Two evaluations of a task that begin side by side come to the same end at every depth. -/
theorem run_along (fuel : Nat) : T.lockstep.Agree (Task.run T.program fuel) (Task.run T.program fuel) := by
  induction fuel with
  | zero => exact ⟨fun _ _ _ beside => .stop .refl beside, fun _ _ _ _ _ _ _ beside => .stop .refl beside⟩
  | succ fuel ih =>
    refine Lockstep.step_along onePlace pure (closed.hooks fun inside => ?_) ih
    cases fuel with
    | zero => exact fun _ _ beside => .stop .refl beside
    | succ fuel => exact module_along inside

end Twins

end PipeLang
