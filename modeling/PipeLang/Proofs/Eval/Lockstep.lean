import PipeLang.Proofs.Eval.Carries
import PipeLang.Proofs.Eval.Iterations
import PipeLang.Proofs.Eval.Pure
import PipeLang.Proofs.Eval.Sound
import PipeLang.Proofs.Eval.Tiers
import PipeLang.Proofs.Load.TopLevel
import PipeLang.Proofs.Resolve.Definitions
import PipeLang.Proofs.Syntax.Demands

/-!
# Evaluations in lockstep

Two evaluations of the same task go on, each on a machine of its own, and keep the machines beside each other in some way that the
changes keep to which evaluation makes to frames and identities: `Lockstep`. They come to the same end, with values that are alike,
unless one of them runs out of depth that is allowed to: `Lockstep.Along`. A step of a task goes along if the tasks do that it asks
for, `Lockstep.step_along`, and there is one lemma for each kind of task. What becomes of modules is left open: of imports, and of
names that stand for what others export, `Lockstep.Hooks` says that they go along.
-/

namespace PipeLang

open Eval

/-! ### Regions -/

/-- A scope of a module that can be used. -/
structure Program.Scoped (p : Program) (id : ModuleId) (t : Resolved) (scope : ScopeId) : Prop where
  usable : p.Usable id
  resolved : p.resolvedOf id = some t
  nested : t.scopes.Nested
  there : t.scopes.path scope ≠ []

lemma Program.Scoped.inner {p : Program} {id : ModuleId} {t : Resolved} {scope inner : ScopeId} (h : p.Scoped id t scope)
    (opens : t.scopes.Opens scope inner) : p.Scoped id t inner :=
  { h with there := opens ▸ List.cons_ne_nil _ _ }

/-- What is inside of a scope is not the scope of the module. -/
lemma Program.Scoped.inner_ne_root {p : Program} {id : ModuleId} {t : Resolved} {scope inner : ScopeId} (h : p.Scoped id t scope)
    (opens : t.scopes.Opens scope inner) : inner ≠ Scopes.root := by
  rintro rfl
  rw [Scopes.Opens, h.nested.root, List.cons.injEq] at opens
  exact h.there opens.2.symm

/-- Modules whose code may be evaluated, and what is known of the import statements in them. -/
structure Region where
  program : Program
  /-- The modules whose functions may be called. -/
  inside : ModuleId → Prop
  /-- An import statement has been executed. -/
  ran : ModuleId → Span → Prop
  /-- A use stands for what has been brought by what it stands behind. -/
  serves : ModuleId → Demand → Prop

namespace Region

/-- Import statements have been executed. -/
def Passed (R : Region) (id : ModuleId) (passed : List Span) : Prop :=
  ∀ s ∈ passed, R.ran id s

/-- Uses stand for what has been brought. -/
def Serves (R : Region) (id : ModuleId) (ds : List Demand) : Prop :=
  ∀ d ∈ ds, R.serves id d

/-- The function literals of modules of the region, behind import statements that have been executed. -/
def code (R : Region) : Code :=
  fun id f => R.inside id ∧ ∃ t scope, R.program.Scoped id t scope ∧ f.Settled R.program t True scope ∧
    ∃ passed, R.Passed id passed ∧ R.Serves id (f.demands passed)

/-- Values that are the same but for what corresponds. -/
abbrev Alike (R : Region) (M : Matching) : Value → Value → Prop :=
  Value.Alike M R.code

variable {R : Region} {M M' : Matching} {v w : Value} {id : ModuleId} {ds ds' : List Demand}

lemma serves_append : R.Serves id (ds ++ ds') ↔ R.Serves id ds ∧ R.Serves id ds' :=
  List.forall_mem_append

lemma Alike.mono (h : R.Alike M v w) (within : M.Within M') : R.Alike M' v w :=
  Value.Alike.mono within (fun _ _ => id) v h

lemma Alike.rel_mono {o o' : Option Value} (h : Option.Rel (R.Alike M) o o') (within : M.Within M') :
    Option.Rel (R.Alike M') o o' :=
  Option.Rel.imp h fun _ _ alike => alike.mono within

lemma Alike.all_mono {vs ws : List Value} (h : List.Forall₂ (R.Alike M) vs ws) (within : M.Within M') :
    List.Forall₂ (R.Alike M') vs ws :=
  h.imp fun _ _ alike => alike.mono within

end Region

/-- Which of two evaluations may run out of depth before the other does. -/
inductive Slack where
  | none
  | left
  | right

/-- Two machines that stay beside each other when the same happens to frames and identities of both. Frames that were there when the
evaluations began are not written to. -/
structure Lockstep extends Region where
  slack : Slack
  /-- The modules whose exported definitions may be given values. -/
  exports : ModuleId → Prop
  left : Nat
  right : Nat
  Beside : Matching → Machine → Machine → Prop
  carries : ∀ {M x y}, Beside M x y → M.Carries toRegion.code x.heap y.heap
  size : ∀ {M x y}, Beside M x y → left ≤ x.heap.size ∧ right ≤ y.heap.size
  push : ∀ {M x y f g}, Beside M x y → M.frames f g → Beside (M.withFrame x.heap.size y.heap.size)
    { x with heap := x.heap.push (some f) } { y with heap := y.heap.push (some g) }
  define : ∀ {M x y f g id v w}, Beside M x y → M.frames f g → left ≤ f → right ≤ g → toRegion.Alike M v w →
    Beside M { x with heap := x.heap.define f id v } { y with heap := y.heap.define g id w }
  issue : ∀ {M x y}, Beside M x y → Beside (M.withIdentity x.fresh y.fresh)
    { x with fresh := x.fresh + 1 } { y with fresh := y.fresh + 1 }
  setItem : ∀ {M x y id name v w}, Beside M x y → exports id → toRegion.Alike M v w →
    Beside M { x with items := ((id, name), v) :: x.items } { y with items := ((id, name), w) :: y.items }

namespace Lockstep

/-- Two evaluations come to the same end, or one of them has run out of depth that may. -/
inductive Ends (T : Lockstep) {α β : Type} (M : Matching) (Q : Matching → α → β → Prop) :
    EStateM.Result Stop Machine α → EStateM.Result Stop Machine β → Prop where
  | ok {M' a b x y} :
    M.Within M' →
    T.Beside M' x y →
    Q M' a b →
    Ends T M Q (.ok a x) (.ok b y)
  | stop {M' s x y} :
    M.Within M' →
    T.Beside M' x y →
    Ends T M Q (.error s x) (.error s y)
  | left {x r} :
    T.slack = .left →
    Ends T M Q (.error .outOfFuel x) r
  | right {r y} :
    T.slack = .right →
    Ends T M Q r (.error .outOfFuel y)

/-- Two evaluations that begin side by side come to the same end. -/
def Along (T : Lockstep) {α β : Type} (M : Matching) (e : Eval α) (e' : Eval β) (Q : Matching → α → β → Prop) : Prop :=
  ∀ x y, T.Beside M x y → T.Ends M Q (e x) (e' y)

variable {T : Lockstep} {M M' : Matching} {α β γ δ : Type}

lemma Ends.since {Q : Matching → α → β → Prop} {r : EStateM.Result Stop Machine α} {r' : EStateM.Result Stop Machine β}
    (h : T.Ends M' Q r r') (since : M.Within M') : T.Ends M Q r r' := by
  cases h with
  | ok within beside q => exact .ok (since.trans within) beside q
  | stop within beside => exact .stop (since.trans within) beside
  | left slack => exact .left slack
  | right slack => exact .right slack

lemma Ends.imp {Q Q' : Matching → α → β → Prop} {r : EStateM.Result Stop Machine α} {r' : EStateM.Result Stop Machine β}
    (h : T.Ends M Q r r') (weaker : ∀ M' a b, Q M' a b → Q' M' a b) : T.Ends M Q' r r' := by
  cases h with
  | ok within beside q => exact .ok within beside (weaker _ _ _ q)
  | stop within beside => exact .stop within beside
  | left slack => exact .left slack
  | right slack => exact .right slack

/-- Two frames correspond that were not there when the evaluations began. -/
structure Opened (T : Lockstep) (M : Matching) (f g : FrameId) : Prop where
  pair : M.frames f g
  left : T.left ≤ f
  right : T.right ≤ g

lemma Opened.mono {f g : FrameId} (h : T.Opened M f g) (within : M.Within M') : T.Opened M' f g :=
  { h with pair := within.frames h.pair }

namespace Along

variable {Q Q' : Matching → α → β → Prop} {R : Matching → γ → δ → Prop} {e : Eval α} {e' : Eval β} {f : α → Eval γ}
  {f' : β → Eval δ}

lemma pure {a : α} {b : β} (h : Q M a b) : T.Along M (Pure.pure a) (Pure.pure b) Q :=
  fun _ _ beside => .ok .refl beside h

lemma fail {error : RuntimeError} : T.Along M (Eval.fail error) (Eval.fail error) Q :=
  fun _ _ beside => .stop .refl beside

lemma ofOutcome {o : Outcome α} {o' : Outcome β} (both : Outcome.Both (Q M) o o') :
    T.Along M (Eval.ofOutcome o) (Eval.ofOutcome o') Q := by
  cases both with
  | ok h => exact .pure h
  | error => exact .fail

lemma imp (h : T.Along M e e' Q) (weaker : ∀ M' a b, Q M' a b → Q' M' a b) : T.Along M e e' Q' :=
  fun x y beside => (h x y beside).imp weaker

lemma bind (first : T.Along M e e' Q) (next : ∀ M' a b, M.Within M' → Q M' a b → T.Along M' (f a) (f' b) R) :
    T.Along M (e >>= f) (e' >>= f') R := by
  intro x y beside
  have ends := first x y beside
  show T.Ends M R (EStateM.bind e f x) (EStateM.bind e' f' y)
  unfold EStateM.bind
  generalize e x = r at ends ⊢
  generalize e' y = r' at ends ⊢
  cases ends with
  | ok within beside q => exact (next _ _ _ within q _ _ beside).since within
  | stop within beside => exact .stop within beside
  | left slack => exact .left slack
  | right slack => exact .right slack

/-- What is read from the machines goes into what follows. -/
lemma read {g : Machine → Eval γ} {g' : Machine → Eval δ} (next : ∀ x y, T.Beside M x y → T.Along M (g x) (g' y) R) :
    T.Along M (get >>= g) (get >>= g') R :=
  fun x y beside => next x y beside x y beside

lemma define {g g' : FrameId} {id : BindingId} {v w : Value} (opened : T.Opened M g g') (alike : T.Alike M v w) :
    T.Along M (Eval.define g id v) (Eval.define g' id w) fun _ _ _ => True :=
  fun _ _ beside => .ok .refl (T.define beside opened.pair opened.left opened.right alike) trivial

lemma freshIdentity : T.Along M Eval.freshIdentity Eval.freshIdentity fun M i j => M.identities i j :=
  fun _ _ beside => .ok Matching.within_withIdentity (T.issue beside) (Or.inr ⟨rfl, rfl⟩)

lemma setItem {id : ModuleId} {name : String} {v w : Value} (exports : T.exports id) (alike : T.Alike M v w) :
    T.Along M (Eval.setItem id name v) (Eval.setItem id name w) fun _ _ _ => True :=
  fun _ _ beside => .ok .refl (T.setItem beside exports alike) trivial

end Along

/-! ### Tasks -/

/-- A scope of a module of the region, in frames that correspond, behind import statements that have been executed. -/
structure Lies (T : Lockstep) (M : Matching) (c c' : Context) (t : Resolved) (scope : ScopeId) (passed : List Span) : Prop where
  module : c'.module = c.module
  pair : M.frames c.frame c'.frame
  inside : T.inside c.module
  here : T.program.Scoped c.module t scope
  passed : T.Passed c.module passed

/-- A scope of a module of the region, in frames that correspond and that have been opened since the evaluations began. -/
structure Stands (T : Lockstep) (M : Matching) (c c' : Context) (t : Resolved) (scope : ScopeId) (passed : List Span) : Prop
    extends T.Lies M c c' t scope passed where
  opened : T.Opened M c.frame c'.frame

lemma Lies.mono {c c' : Context} {t : Resolved} {scope : ScopeId} {passed : List Span} (h : T.Lies M c c' t scope passed)
    (within : M.Within M') : T.Lies M' c c' t scope passed :=
  { h with pair := within.frames h.pair }

lemma Stands.mono {c c' : Context} {t : Resolved} {scope : ScopeId} {passed : List Span} (h : T.Stands M c c' t scope passed)
    (within : M.Within M') : T.Stands M' c c' t scope passed :=
  ⟨h.toLies.mono within, h.opened.mono within⟩

/-- A statement gives values to exported definitions of modules only that may be given any. -/
def Permits (T : Lockstep) (id : ModuleId) : Statement → Prop
  | .define _ name _ _ => ∀ t b, T.program.resolvedOf id = some t → t.declarations.get? name.span = some b →
    ∀ i item, t.scopes.target b = .item i item → T.exports i
  | _ => True

end Lockstep

/-- The same task of a module of the region, in frames that correspond and with values that are alike. -/
inductive Task.Twin (T : Lockstep) (M : Matching) : Task → Task → Prop where
  | expr {c c' t scope passed receives e i i'} :
    T.Stands M c c' t scope passed →
    e.Settled T.program t True scope receives →
    T.Serves c.module (e.demands passed) →
    Option.Rel (T.Alike M) i i' →
    Twin T M (.expr c e i) (.expr c' e i')
  | block {c c' t scope passed receives b i i'} :
    T.Stands M c c' t scope passed →
    b.Settled T.program t True scope receives →
    T.Serves c.module (b.demands passed) →
    Option.Rel (T.Alike M) i i' →
    Twin T M (.block c b i) (.block c' b i')
  | branch {c c' t scope passed receives b i i'} :
    T.Stands M c c' t scope passed →
    b.Settled T.program t True scope receives →
    T.Serves c.module (b.demands passed) →
    Option.Rel (T.Alike M) i i' →
    Twin T M (.branch c b i) (.branch c' b i')
  | pipeline {c c' t scope passed receives stages i i'} :
    T.Stands M c c' t scope passed →
    Stages.Settled T.program t True scope receives stages →
    T.Serves c.module (Stage.allDemands stages passed) →
    Option.Rel (T.Alike M) i i' →
    Twin T M (.pipeline c stages i) (.pipeline c' stages i')
  | loop {c c' t scope passed receives l i i'} :
    T.Stands M c c' t scope passed →
    l.Settled T.program t True scope receives →
    T.Serves c.module (l.demands passed) →
    Option.Rel (T.Alike M) i i' →
    Twin T M (.loop c l i) (.loop c' l i')
  | call {v w vs ws ks ks'} :
    T.Alike M v w →
    List.Forall₂ (T.Alike M) vs ws →
    List.Forall₂ (sameKey (T.Alike M)) ks ks' →
    Twin T M (.call v vs ks) (.call w ws ks')

namespace Lockstep

/-- Two evaluations of tasks that come to the same ends. Behind a statement the module that it imports has been imported. -/
structure Agree (T : Lockstep) (run run' : Task → Eval Value) : Prop where
  task : ∀ {M task task'}, Task.Twin T M task task' → T.Along M (run task) (run' task') T.Alike
  statement : ∀ {M c c' t scope passed receives} {s : Statement}, T.Stands M c c' t scope passed →
    s.Settled T.program t True scope receives → receives = false → T.Serves c.module (s.demands passed) → T.Permits c.module s →
      T.Along M (run (.statement c s)) (run' (.statement c' s)) fun M v w =>
        T.Alike M v w ∧ T.Passed c.module (s.passed passed)

variable {T : Lockstep} {M M' : Matching} {c c' : Context} {t : Resolved} {scope inner : ScopeId} {passed : List Span}
  {run run' : Task → Eval Value} {incoming incoming' : Option Value} {receives : Bool}

/-- An expression without an incoming value. -/
lemma plain {e : Expr} (stands : T.Stands M c c' t scope passed) (settled : e.Settled T.program t True scope receives)
    (serves : T.Serves c.module (e.demands passed)) : Task.Twin T M (.expr c e none) (.expr c' e none) :=
  .expr stands settled serves .none

lemma Lies.resolvedOf (h : T.Lies M c c' t scope passed) :
    Eval.resolvedOf T.program c.module = Pure.pure t ∧ Eval.resolvedOf T.program c'.module = Pure.pure t :=
  ⟨resolvedOf_eq h.here.resolved, h.module ▸ resolvedOf_eq h.here.resolved⟩

/-- Frames are opened for a scope inside of one. -/
lemma inside_along (lies : T.Lies M c c' t scope passed) (opens : t.scopes.Opens scope inner) :
    T.Along M (Eval.inside c) (Eval.inside c') fun M c₁ c₁' => c₁.module = c.module ∧ T.Stands M c₁ c₁' t inner passed := by
  intro x y beside
  have pair : (M.withFrame x.heap.size y.heap.size).frames x.heap.size y.heap.size := Or.inr ⟨rfl, rfl⟩
  refine .ok Matching.within_withFrame (T.push beside lies.pair) ⟨rfl, ?_⟩
  exact ⟨⟨lies.module, pair, lies.inside, lies.here.inner opens, lies.passed⟩, pair, (T.size beside).1, (T.size beside).2⟩

lemma makeClosure_along {f : Lambda} {name : Option String} (stands : T.Stands M c c' t scope passed)
    (settled : f.Settled T.program t True scope) (serves : T.Serves c.module (f.demands passed)) :
    T.Along M (makeClosure c f name) (makeClosure c' f name) T.Alike := by
  refine Along.freshIdentity.bind fun M' i j within pair => .pure (.closure ?_)
  exact ⟨rfl, stands.module, rfl, within.frames stands.pair, pair, stands.inside, t, scope, stands.here, settled, passed,
    stands.passed, serves⟩

/-! ### References -/

end Lockstep

/-- The value of an exported definition, for which its module may have to be run. -/
def Eval.exportedValue (run : Task → Eval Value) (id : ModuleId) (item name : String) : Eval Value := do
  match ← item? id item with
  | some v => return v
  | none =>
    let _ ← run (.module id)
    match ← item? id item with
    | some v => return v
    | none => fail (.uninitialized name)

namespace Lockstep

/-- What evaluations do about other modules goes along: import statements, and names that stand for what is exported. -/
structure Hooks (T : Lockstep) (run run' : Task → Eval Value) : Prop where
  importing : ∀ {M c c' t scope passed i}, T.Lies M c c' t scope passed →
    T.Along M (statement T.program run c (.importing i)) (statement T.program run' c' (.importing i)) fun M v w =>
      T.Alike M v w ∧ T.ran c.module i.span
  item : ∀ {M c c' t scope passed site id item ty name}, T.Lies M c c' t scope passed → T.serves c.module ⟨site, passed⟩ →
    t.references.get? site = some ⟨.item id item, ty⟩ →
      T.Along M (exportedValue run id item name) (exportedValue run' id item name) T.Alike
  whole : ∀ {M c c' t scope passed site id ty}, T.Lies M c c' t scope passed → T.serves c.module ⟨site, passed⟩ →
    t.references.get? site = some ⟨.module id, ty⟩ → T.Along M (assembly T.program run id) (assembly T.program run' id) T.Alike

variable {T : Lockstep} {M M' : Matching} {c c' : Context} {t : Resolved} {scope inner : ScopeId} {passed : List Span}
  {run run' : Task → Eval Value} {incoming incoming' : Option Value} {receives : Bool}

lemma reference_along {site : Span} {name : String} (hooks : T.Hooks run run') (stands : T.Stands M c c' t scope passed)
    (serves : T.serves c.module ⟨site, passed⟩) :
    T.Along M (reference T.program run c site name) (reference T.program run' c' site name) T.Alike := by
  simp only [reference, stands.toLies.resolvedOf, pure_bind]
  cases found : t.references.get? site with
  | none => exact .fail
  | some ref =>
    obtain ⟨target, ty⟩ := ref
    cases target with
    | inner id =>
      refine .read fun x y beside => ?_
      have value := (T.carries beside).get stands.pair id
      generalize x.heap.get? c.frame id = o at value ⊢
      generalize y.heap.get? c'.frame id = o' at value ⊢
      cases value with
      | some alike => exact .pure alike
      | none => exact .fail
    | item id item => exact hooks.item stands.toLies serves found
    | module id => exact hooks.whole stands.toLies serves found
    | host name => exact .pure .host
    | invalid => exact .fail

/-! ### Expressions -/

lemma exprs_along {es : List Expr} (agree : T.Agree run run') (stands : T.Stands M c c' t scope passed)
    (settled : ∀ e ∈ es, e.Settled T.program t True scope false) (serves : T.Serves c.module (Expr.allDemands es passed)) :
    T.Along M (exprs run c es) (exprs run' c' es) fun M => List.Forall₂ (T.Alike M) := by
  induction es generalizing M with
  | nil => exact .pure .nil
  | cons e es ih =>
    simp only [exprs, List.mapM_cons] at ih ⊢
    obtain ⟨head, tail⟩ := List.forall_mem_cons.1 settled
    obtain ⟨first, others⟩ := Region.serves_append.1 serves
    refine (agree.task (plain stands head first)).bind fun M₁ v w within alike => ?_
    exact (ih (stands.mono within) tail others).bind fun M₂ vs ws within' all => .pure (.cons (alike.mono within') all)

/-- Arguments, in two lists. -/
lemma arguments_along {args : List Argument} (agree : T.Agree run run') (stands : T.Stands M c c' t scope passed)
    (settled : ∀ a ∈ args, a.value.Settled T.program t True scope false) (serves : T.Serves c.module (Argument.allDemands args passed)) :
    T.Along M (arguments run c args) (arguments run' c' args) fun M given given' =>
      List.Forall₂ (T.Alike M) given.1 given'.1 ∧ List.Forall₂ (sameKey (T.Alike M)) given.2 given'.2 := by
  induction args generalizing M with
  | nil => exact .pure ⟨.nil, .nil⟩
  | cons a args ih =>
    obtain ⟨head, tail⟩ := List.forall_mem_cons.1 settled
    obtain ⟨name, value⟩ := a
    obtain ⟨first, others⟩ := Region.serves_append.1 serves
    simp only [arguments]
    refine (agree.task (plain stands head first)).bind fun M₁ v w within alike => ?_
    refine (ih (stands.mono within) tail others).bind fun M₂ given given' within' both => ?_
    obtain ⟨vs, ks⟩ := given
    obtain ⟨ws, ks'⟩ := given'
    obtain ⟨all, keyed⟩ := both
    cases name with
    | some name => exact .pure ⟨all, .cons ⟨rfl, alike.mono within'⟩ keyed⟩
    | none => exact .pure ⟨.cons (alike.mono within') all, keyed⟩

lemma whole_along {what : String} {v w : Value} (alike : T.Alike M v w) :
    T.Along M (ofOutcome (v.whole what)) (ofOutcome (w.whole what)) fun _ => Eq := by
  rw [Value.Alike.whole alike]
  exact .ofOutcome (.of_eq rfl fun _ _ => rfl)

lemma outcome_along {o o' : Outcome Value} (both : Outcome.Both (T.Alike M) o o') :
    T.Along M (ofOutcome o) (ofOutcome o') T.Alike :=
  .ofOutcome both

lemma apply_along {op : BinaryOp} {v v' w w' : Value} (left : T.Alike M v w) (right : T.Alike M v' w') :
    T.Along M (ofOutcome (op.apply v v')) (ofOutcome (op.apply w w')) T.Alike :=
  fun x y beside => outcome_along (BinaryOp.apply_alike (T.carries beside).unique op left right) x y beside

lemma plainExpr_along {e : Expr} (hooks : T.Hooks run run') (agree : T.Agree run run') (stands : T.Stands M c c' t scope passed)
    (settled : e.Settled T.program t True scope receives) (serves : T.Serves c.module (e.demands passed)) :
    T.Along M (plainExpr T.program run c e) (plainExpr T.program run' c' e) T.Alike := by
  obtain ⟨-, -, pieces⟩ := settled
  cases pieces with
  | name => exact reference_along hooks stands (serves _ (by simp [Expr.demands]))
  | path => exact reference_along hooks stands (serves _ (by simp [Expr.demands]))
  | literal => exact .pure (Literal.value_alike _)
  | array items => exact (exprs_along agree stands items serves).bind fun _ _ _ _ all => .pure (.array all)
  | range start stop =>
    obtain ⟨first, second⟩ := Region.serves_append.1 serves
    refine (agree.task (plain stands start first)).bind fun M₁ v w within alike => (whole_along alike).bind fun M₂ i j within' same => ?_
    subst same
    have stands := (stands.mono within).mono within'
    refine (agree.task (plain stands stop second)).bind fun M₃ v w _ alike => (whole_along alike).bind fun M₄ i j _ same => ?_
    subst same
    exact outcome_along (Value.ofRange_alike ..)
  | @binary _ _ op left right _ leftSettled rightSettled =>
    obtain ⟨first, second⟩ := Region.serves_append.1 serves
    refine (agree.task (plain stands leftSettled first)).bind fun M₁ v w within alike => ?_
    obtain ⟨same, decided⟩ := BinaryOp.decided_alike alike
    rw [same]
    cases known : op.decided? v with
    | some u => exact .pure (decided u known)
    | none =>
      refine (agree.task (plain (stands.mono within) rightSettled second)).bind fun M₂ v' w' within' alike' => ?_
      exact apply_along (alike.mono within') alike'
  | unary operand =>
    exact (agree.task (plain stands operand serves)).bind fun _ _ _ _ alike => outcome_along (UnaryOp.apply_alike alike)
  | call callee args =>
    obtain ⟨first, others⟩ := Region.serves_append.1 serves
    refine (agree.task (plain stands callee first)).bind fun M₁ f g within alike => ?_
    refine (arguments_along agree (stands.mono within) args others).bind fun M₂ (_, _) (_, _) within' ⟨all, keyed⟩ => ?_
    exact agree.task (.call (alike.mono within') all keyed)
  | index base index =>
    obtain ⟨first, second⟩ := Region.serves_append.1 serves
    refine (agree.task (plain stands base first)).bind fun M₁ v w within alike => ?_
    refine (agree.task (plain (stands.mono within) index second)).bind fun M₂ v' w' within' alike' => ?_
    exact outcome_along (Value.Alike.itemAt (alike.mono within') alike')
  | lambda settled => exact makeClosure_along stands settled serves
  | block settled => exact agree.task (.block stands settled serves .none)
  | branch settled => exact agree.task (.branch stands settled serves .none)
  | pipeline settled => exact agree.task (.pipeline stands settled serves .none)
  | loop settled => exact agree.task (.loop stands settled serves .none)

lemma stageExpr_along {e : Expr} {v w : Value} (agree : T.Agree run run') (stands : T.Stands M c c' t scope passed)
    (settled : e.Settled T.program t True scope receives) (serves : T.Serves c.module (e.demands passed)) (alike : T.Alike M v w) :
    T.Along M (stageExpr run c v e) (stageExpr run' c' w e) T.Alike := by
  have called : T.Along M (run (.expr c e none) >>= fun f => run (.call f [v] []))
      (run' (.expr c' e none) >>= fun f => run' (.call f [w] [])) T.Alike :=
    (agree.task (plain stands settled serves)).bind fun M₁ f g within callee =>
      agree.task (.call callee (.cons (alike.mono within) .nil) .nil)
  obtain ⟨-, -, pieces⟩ := settled
  cases pieces with
  | name | path => exact called
  | call callee args =>
    obtain ⟨first, others⟩ := Region.serves_append.1 serves
    refine (agree.task (plain stands callee first)).bind fun M₁ f g within callee => ?_
    refine (arguments_along agree (stands.mono within) args others).bind fun M₂ (_, _) (_, _) within' ⟨all, keyed⟩ => ?_
    exact agree.task (.call (callee.mono within') (.cons ((alike.mono within).mono within') all) keyed)
  | block settled => exact agree.task (.block stands settled serves (.some alike))
  | branch settled => exact agree.task (.branch stands settled serves (.some alike))
  | pipeline settled => exact agree.task (.pipeline stands settled serves (.some alike))
  | loop settled => exact agree.task (.loop stands settled serves (.some alike))
  | _ => exact .fail

lemma expr_along {e : Expr} (hooks : T.Hooks run run') (agree : T.Agree run run') (stands : T.Stands M c c' t scope passed)
    (settled : e.Settled T.program t True scope receives) (serves : T.Serves c.module (e.demands passed))
    (given : Option.Rel (T.Alike M) incoming incoming') :
    T.Along M (expr T.program run c e incoming) (expr T.program run' c' e incoming') T.Alike := by
  cases given with
  | none => exact plainExpr_along hooks agree stands settled serves
  | some alike => exact stageExpr_along agree stands settled serves alike

/-! ### Statements -/

/-- A name is given values that are alike. Others may see it only if its module may be given values. -/
lemma bindDefinition_along {exported : Bool} {name : Ident} {value : Expr} {span : Span} {v w : Value}
    (stands : T.Stands M c c' t scope passed) (permits : T.Permits c.module (.define exported name value span))
    (alike : T.Alike M v w) :
    T.Along M (bindDefinition T.program c name v) (bindDefinition T.program c' name w) fun _ _ _ => True := by
  simp only [bindDefinition, stands.toLies.resolvedOf, pure_bind]
  cases declared : t.declarations.get? name.span with
  | none => exact .fail
  | some id =>
    have exports := permits t id stands.here.resolved declared
    dsimp only
    cases target : t.scopes.target id with
    | item i item => exact .setItem (exports i item target) alike
    | _ => exact .define stands.opened alike

lemma statement_along {s : Statement} (hooks : T.Hooks run run') (agree : T.Agree run run')
    (stands : T.Stands M c c' t scope passed) (settled : s.Settled T.program t True scope receives)
    (serves : T.Serves c.module (s.demands passed)) (permits : T.Permits c.module s) :
    T.Along M (statement T.program run c s) (statement T.program run' c' s) fun M v w =>
      T.Alike M v w ∧ T.Passed c.module (s.passed passed) := by
  cases settled with
  | importing =>
    refine (hooks.importing stands.toLies).imp fun M' v w ⟨alike, ran⟩ => ⟨alike, ?_⟩
    exact List.forall_mem_cons.2 ⟨ran, stands.passed⟩
  | @define _ _ exported name value span valueSettled declares =>
    rw [statement_define, statement_define]
    have value : T.Along M (definedValue run c name value) (definedValue run' c' name value) T.Alike := by
      have plain := plain stands valueSettled serves
      obtain ⟨-, -, pieces⟩ := valueSettled
      cases pieces with
      | lambda settled => exact makeClosure_along stands settled serves
      | _ => exact agree.task plain
    exact value.bind fun M₁ v w within alike => (bindDefinition_along (stands.mono within) permits alike).bind fun _ _ _ _ _ =>
      .pure ⟨.unit, stands.passed⟩
  | expr settled => exact (agree.task (plain stands settled serves)).imp fun _ _ _ alike => ⟨alike, stands.passed⟩

lemma blockStatements_along {ss : List Statement} (agree : T.Agree run run') (stands : T.Stands M c c' t scope passed)
    (settled : Statements.Settled T.program t True scope receives ss) (serves : T.Serves c.module (Statement.allDemands ss passed))
    (permits : ∀ s ∈ ss, T.Permits c.module s) (given : Option.Rel (T.Alike M) incoming incoming') :
    T.Along M (blockStatements run c incoming ss) (blockStatements run' c' incoming' ss) T.Alike := by
  have passOver {M' : Matching} : T.Along M' (blockStatements.passOver incoming) (blockStatements.passOver incoming') T.Alike := by
    cases given with
    | none => exact .pure .unit
    | some _ => exact .fail
  induction ss generalizing M passed with
  | nil => exact passOver
  | cons s ss ih =>
    obtain ⟨first, others⟩ := List.forall_mem_cons.1 permits
    obtain ⟨here, behind⟩ := Region.serves_append.1 serves
    cases settled with
    | last settled =>
      cases settled with
      | expr settled => exact agree.task (.expr stands settled here given)
      | importing => exact (agree.statement stands .importing rfl here first).bind fun _ _ _ _ _ => passOver
      | define value declares => exact (agree.statement stands (.define value declares) rfl here first).bind fun _ _ _ _ _ => passOver
    | cons head tail =>
      rw [blockStatements_cons, blockStatements_cons]
      refine (agree.statement stands head rfl here first).bind fun M₁ _ _ within ⟨_, passed⟩ => ?_
      have stands₁ : T.Stands M₁ c c' t scope (s.passed _) := { stands.mono within with passed := passed }
      exact ih stands₁ tail behind others (Region.Alike.rel_mono given within)

/-- Statements of a scope inside of another introduce nothing that others can see. -/
lemma statements_permitted {ss : List Statement} {id : ModuleId} (onePlace : T.program.OnePlace) (here : T.program.Scoped id t scope)
    (inner : scope ≠ Scopes.root) (settled : Statements.Settled T.program t True scope receives ss) : ∀ s ∈ ss, T.Permits id s := by
  intro s member
  obtain ⟨receives, settled⟩ := settled.of_mem member
  cases settled with
  | define value declares =>
    intro t' b resolved declared i item target
    cases here.resolved.symm.trans resolved
    exact absurd ((onePlace here.usable here.resolved).top declared target (declares trivial)) inner
  | _ => trivial

lemma block_along {b : Block} (onePlace : T.program.OnePlace) (agree : T.Agree run run') (stands : T.Stands M c c' t scope passed)
    (settled : b.Settled T.program t True scope receives) (serves : T.Serves c.module (b.demands passed))
    (given : Option.Rel (T.Alike M) incoming incoming') :
    T.Along M (block run c b incoming) (block run' c' b incoming') T.Alike := by
  cases settled with
  | mk opens tail settled =>
    refine (inside_along stands.toLies opens).bind fun M₁ c₁ c₁' within ⟨same, stands₁⟩ => ?_
    have permits := statements_permitted onePlace stands₁.here (stands.here.inner_ne_root opens) settled
    exact blockStatements_along agree stands₁ settled (same ▸ serves) permits (Region.Alike.rel_mono given within)

lemma branch_along {b : Branch} (agree : T.Agree run run') (stands : T.Stands M c c' t scope passed)
    (settled : b.Settled T.program t True scope receives) (serves : T.Serves c.module (b.demands passed))
    (given : Option.Rel (T.Alike M) incoming incoming') :
    T.Along M (branch run c b incoming) (branch run' c' b incoming') T.Alike := by
  cases settled with
  | mk condition consequence alternative =>
    obtain ⟨before, other⟩ := Region.serves_append.1 serves
    obtain ⟨first, second⟩ := Region.serves_append.1 before
    refine (agree.task (plain stands condition first)).bind fun M₁ v w within alike => ?_
    replace stands := stands.mono within
    replace given := Region.Alike.rel_mono given within
    cases alike with
    | @bool decision =>
      cases decision with
      | true => exact agree.task (.block stands consequence second given)
      | false =>
        cases alternative with
        | absent =>
          cases given with
          | none => exact .pure .unit
          | some alike => exact .pure alike
        | block settled => exact agree.task (.block stands settled other given)
        | branch settled => exact agree.task (.branch stands settled other given)
    | _ => exact .fail

/-! ### Pipelines -/

lemma bindTag_along {tag : Option Ident} {v w : Value} (stands : T.Stands M c c' t scope passed) (alike : T.Alike M v w) :
    T.Along M (bindTag T.program c v tag) (bindTag T.program c' w tag) fun _ _ _ => True := by
  cases tag with
  | none => exact .pure trivial
  | some name =>
    simp only [bindTag, stands.toLies.resolvedOf, pure_bind]
    cases t.declarations.get? name.span with
    | some id => exact .define stands.opened alike
    | none => exact .fail

lemma stage_along {s : Stage} (agree : T.Agree run run') (stands : T.Stands M c c' t scope passed)
    (settled : s.Settled T.program t True scope receives) (serves : T.Serves c.module (s.demands passed))
    (given : Option.Rel (T.Alike M) incoming incoming') :
    T.Along M (stage run c incoming s) (stage run' c' incoming' s) T.Alike := by
  cases settled with
  | expr settled _ => exact agree.task (.expr stands settled serves given)
  | operator operand _ =>
    cases given with
    | none => exact .fail
    | some alike =>
      exact (agree.task (plain stands operand serves)).bind fun M₁ _ _ within alike' => apply_along (alike.mono within) alike'

lemma pipeline_along {stages : List Stage} (agree : T.Agree run run') (stands : T.Stands M c c' t scope passed)
    (settled : Stages.Settled T.program t True scope receives stages) (serves : T.Serves c.module (Stage.allDemands stages passed))
    (given : Option.Rel (T.Alike M) incoming incoming') :
    T.Along M (pipeline T.program run c incoming stages) (pipeline T.program run' c' incoming' stages) T.Alike := by
  induction stages generalizing M receives incoming incoming' with
  | nil =>
    cases given with
    | none => exact .pure .unit
    | some alike => exact .pure alike
  | cons s stages ih =>
    obtain ⟨here, behind⟩ := Region.serves_append.1 serves
    cases settled with
    | cons first others =>
      refine (stage_along agree stands first here given).bind fun M₁ v w within alike => ?_
      refine (bindTag_along (stands.mono within) alike).bind fun M₂ _ _ within' _ => ?_
      exact ih ((stands.mono within).mono within') others behind (.some (alike.mono within'))

/-! ### Loops -/

/-- What two loops have made so far corresponds: both fold or both map, with values that are alike and frames that correspond. -/
structure Progress (T : Lockstep) (M : Matching) (progress progress' : LoopProgress) : Prop where
  folded : Option.Rel (T.Alike M) progress.folded progress'.folded
  mapped : List.Forall₂ (T.Alike M) progress.mapped progress'.mapped
  frames : List.Forall₂ M.frames progress.frames progress'.frames

lemma Progress.mono {progress progress' : LoopProgress} (h : T.Progress M progress progress') (within : M.Within M') :
    T.Progress M' progress progress' where
  folded := Region.Alike.rel_mono h.folded within
  mapped := Region.Alike.all_mono h.mapped within
  frames := h.frames.imp fun _ _ => within.frames

lemma iterate_along {l : Loop} {progress progress' : LoopProgress} (agree : T.Agree run run')
    (stands : T.Stands M c c' t scope passed) (settled : Stages.Settled T.program t True scope receives l.body.stages)
    (serves : T.Serves c.module (Stage.allDemands l.body.stages passed)) (same : T.Progress M progress progress') :
    T.Along M (iterate run c l progress) (iterate run' c' l progress') T.Progress := by
  refine (agree.task (.pipeline stands settled serves same.folded)).bind fun M₁ v w within alike => ?_
  replace same := same.mono within
  have frames := List.Forall₂.cons (within.frames stands.pair) same.frames
  obtain ⟨folded, mapped, others⟩ := progress
  obtain ⟨folded', mapped', others'⟩ := progress'
  obtain ⟨given, all, -⟩ := same
  cases given with
  | some _ => exact .pure ⟨.some alike, all, frames⟩
  | none => exact .pure ⟨.none, .cons alike all, frames⟩

lemma iteration_along {l : Loop} {bound? : Option BindingId} {progress progress' : LoopProgress} {v w : Value} (agree : T.Agree run run')
    (lies : T.Lies M c c' t scope passed) (opens : t.scopes.Opens scope inner)
    (settled : Stages.Settled T.program t True inner receives l.body.stages)
    (serves : T.Serves c.module (Stage.allDemands l.body.stages passed)) (same : T.Progress M progress progress')
    (element : T.Alike M v w) :
    T.Along M (iteration run c l bound? progress v) (iteration run' c' l bound? progress' w) T.Progress := by
  refine (inside_along lies opens).bind fun M₁ c₁ c₁' within ⟨home, stands₁⟩ => ?_
  cases bound? with
  | some id =>
    refine (Along.define stands₁.opened (element.mono within)).bind fun M₂ _ _ within' _ => ?_
    exact iterate_along agree (stands₁.mono within') settled (home ▸ serves) ((same.mono within).mono within')
  | none => exact iterate_along agree stands₁ settled (home ▸ serves) (same.mono within)

lemma iterations_along {l : Loop} {bound? : Option BindingId} {progress progress' : LoopProgress} {elements elements' : List Value}
    (agree : T.Agree run run') (lies : T.Lies M c c' t scope passed) (opens : t.scopes.Opens scope inner)
    (settled : Stages.Settled T.program t True inner receives l.body.stages)
    (serves : T.Serves c.module (Stage.allDemands l.body.stages passed)) (same : T.Progress M progress progress')
    (all : List.Forall₂ (T.Alike M) elements elements') :
    T.Along M (elements.foldlM (iteration run c l bound?) progress) (elements'.foldlM (iteration run' c' l bound?) progress')
      T.Progress := by
  induction elements generalizing M progress progress' elements' with
  | nil =>
    cases all
    exact .pure same
  | cons v elements ih =>
    cases all with
    | cons first others =>
      rw [List.foldlM_cons, List.foldlM_cons]
      refine (iteration_along agree lies opens settled serves same first).bind fun M₁ next next' within same' => ?_
      exact ih (lies.mono within) same' (Region.Alike.all_mono others within)

lemma collectTag_along {frames frames' : List FrameId} {tag : BindingId} (stands : T.Stands M c c' t scope passed)
    (same : List.Forall₂ M.frames frames frames') :
    T.Along M (collectTag c frames tag) (collectTag c' frames' tag) fun _ _ _ => True := by
  refine .read fun x y beside => .define stands.opened (.array ?_)
  induction same with
  | nil => exact .nil
  | @cons f g frames frames' pair _ ih =>
    have here := (T.carries beside).getLocal pair tag
    simp only [List.filterMap_cons]
    generalize x.heap.getLocal? f tag = o at here ⊢
    generalize y.heap.getLocal? g tag = o' at here ⊢
    cases here with
    | some alike => exact .cons alike ih
    | none => exact ih

lemma collectTags_along {frames frames' : List FrameId} {tags : List BindingId} (stands : T.Stands M c c' t scope passed)
    (same : List.Forall₂ M.frames frames frames') :
    T.Along M (tags.forM (collectTag c frames)) (tags.forM (collectTag c' frames')) fun _ _ _ => True := by
  induction tags generalizing M with
  | nil => exact .pure trivial
  | cons tag tags ih =>
    refine (collectTag_along stands same).bind fun M₁ _ _ within _ => ?_
    exact ih (stands.mono within) (same.imp fun _ _ => within.frames)

lemma loop_along {l : Loop} (agree : T.Agree run run') (stands : T.Stands M c c' t scope passed)
    (settled : l.Settled T.program t True scope receives) (serves : T.Serves c.module (l.demands passed))
    (given : Option.Rel (T.Alike M) incoming incoming') :
    T.Along M (loop T.program run c l incoming) (loop T.program run' c' l incoming') T.Alike := by
  cases settled with
  | @mk _ _ inner sequence binding stages bodySpan span sequenceSettled opens declares settled collects =>
    obtain ⟨first, body⟩ := Region.serves_append.1 serves
    replace body : T.Serves c.module (Stage.allDemands (Loop.mk sequence binding ⟨stages, bodySpan⟩ span).body.stages passed) := body
    refine (agree.task (plain stands sequenceSettled first)).bind fun M₁ v w within elements => ?_
    cases elements with
    | array all =>
      replace stands := stands.mono within
      simp only [stands.toLies.resolvedOf, pure_bind]
      refine (iterations_along agree stands.toLies opens settled body ⟨Region.Alike.rel_mono given within, .nil, .nil⟩ all).bind
        fun M₂ last last' within' same => ?_
      refine (collectTags_along (stands.mono within') (List.rel_reverse same.frames)).bind fun M₃ _ _ within'' _ => ?_
      obtain ⟨folded, mapped, frames⟩ := last
      obtain ⟨folded', mapped', frames'⟩ := last'
      obtain ⟨given, all, -⟩ := same.mono within''
      cases given with
      | some alike => exact .pure alike
      | none => exact .pure (.array (List.rel_reverse all))
    | _ => exact .fail

/-! ### Calls -/

lemma checkArgument_along {callee name : String} {ty : Option Ty} {v w : Value} (alike : T.Alike M v w) :
    T.Along M (ofOutcome (checkArgument callee name ty v)) (ofOutcome (checkArgument callee name ty w)) fun _ _ _ => True := by
  rw [checkArgument_both alike]
  exact .ofOutcome (.of_eq rfl fun _ _ => trivial)

/-- Parameters are given values that are alike: what the calls give, or their defaults. -/
lemma bindParams_along {callee : String} {count : Nat} {params : List Param} {given given' : List (Option Value)} (agree : T.Agree run run')
    (stands : T.Stands M c c' t scope passed) (settled : ∀ q ∈ params, q.Settled T.program t True scope)
    (serves : T.Serves c.module (Param.allDemands params passed)) (same : List.Forall₂ (Option.Rel (T.Alike M)) given given') :
    T.Along M (bindParams run callee count t c (params.zip given)) (bindParams run' callee count t c' (params.zip given')) fun _ _ _ => True := by
  induction params generalizing M given given' with
  | nil => exact .pure trivial
  | cons q params ih =>
    cases same with
    | nil => exact .pure trivial
    | @cons o o' given given' first others =>
      obtain ⟨head, tail⟩ := List.forall_mem_cons.1 settled
      have behind : T.Serves c.module (Param.allDemands params passed) := by
        obtain ⟨name, note, fallback, span⟩ := q
        cases fallback with
        | none => exact serves
        | some e => exact (Region.serves_append.1 serves).2
      have bound {M₁ : Matching} {v w : Value} (within : M.Within M₁) (alike : T.Alike M₁ v w) :
          T.Along M₁ (bindParam run callee count t c q (params.zip given) v) (bindParam run' callee count t c' q (params.zip given') w)
            fun _ _ _ => True := by
        have later {M₂ : Matching} (within' : M₁.Within M₂) :
            T.Along M₂ (bindParams run callee count t c (params.zip given)) (bindParams run' callee count t c' (params.zip given')) fun _ _ _ => True :=
          ih (stands.mono (within.trans within')) tail behind
            (others.imp fun _ _ rel => Region.Alike.rel_mono rel (within.trans within'))
        refine (checkArgument_along alike).bind fun M₂ _ _ within' _ => ?_
        cases t.declarations.get? q.name.span with
        | some id =>
          refine (Along.define (stands.mono (within.trans within')).opened (alike.mono within')).bind fun M₃ _ _ within'' _ => ?_
          exact later (within'.trans within'')
        | none => exact later within'
      obtain ⟨name, note, fallback, span⟩ := q
      cases head with
      | mk whenMissing declares =>
        cases first with
        | some alike => exact bound .refl alike
        | none =>
          cases fallback with
          | some e =>
            have here := (Region.serves_append.1 serves).1
            exact (agree.task (plain stands (whenMissing e rfl) here)).bind fun M₁ v w within alike => bound within alike
          | none => exact Along.fail.bind (Q := fun _ _ _ => False) fun _ _ _ _ => False.elim

lemma callClosure_along {f g : Closure} {vs ws : List Value} {ks ks' : List (String × Value)} (agree : T.Agree run run')
    (alike : Closure.Alike M T.code f g) (all : List.Forall₂ (T.Alike M) vs ws)
    (keyed : List.Forall₂ (sameKey (T.Alike M)) ks ks') :
    T.Along M (callClosure T.program run f vs ks) (callClosure T.program run' g ws ks') T.Alike := by
  obtain ⟨name, module, ⟨params, returns, body, span⟩, frame, identity⟩ := f
  obtain ⟨name', module', lambda', frame', identity'⟩ := g
  obtain rfl : name' = name := alike.name
  obtain rfl : module' = module := alike.module
  obtain rfl : lambda' = ⟨params, returns, body, span⟩ := alike.lambda
  have pair : M.frames frame frame' := alike.frame
  obtain ⟨inside, t, scope, here, settled, passed, ran, serves⟩ := alike.allowed
  obtain ⟨first, second⟩ := Region.serves_append.1 serves
  cases settled with
  | mk opens paramsSettled bodySettled =>
    refine (Along.ofOutcome (Q := fun M => List.Forall₂ (Option.Rel (T.Alike M))) (bindSlots_both all keyed)).bind
      fun M₁ given given' within same => ?_
    have lies : T.Lies M₁ ⟨module', frame⟩ ⟨module', frame'⟩ t scope passed := ⟨rfl, within.frames pair, inside, here, ran⟩
    refine (inside_along lies opens).bind fun M₂ c c' within' ⟨home, stands⟩ => ?_
    simp only [resolvedOf_eq here.resolved, pure_bind]
    refine (bindParams_along agree stands paramsSettled (home ▸ first)
      (same.imp fun _ _ rel => Region.Alike.rel_mono rel within')).bind fun M₃ _ _ within'' _ => ?_
    refine (agree.task (plain (stands.mono within'') bodySettled (home ▸ second))).bind fun M₄ v w _ value => ?_
    cases returns with
    | none => exact .pure value
    | some note =>
      have conforms : w.conforms note.ty = v.conforms note.ty := Value.Alike.conforms v value note.ty
      have name : w.typeName = v.typeName := Value.Alike.typeName value
      simp only [conforms, name]
      split
      · exact .pure value
      · exact .fail

/-- Pure host functions do the same. -/
lemma callHost_along {name : String} {vs ws : List Value} {ks ks' : List (String × Value)} (pure : T.program.hosts.Pure)
    (all : List.Forall₂ (T.Alike M) vs ws) (keyed : List.Forall₂ (sameKey (T.Alike M)) ks ks') :
    T.Along M (callHost T.program name vs ks) (callHost T.program name ws ks') T.Alike := by
  unfold callHost
  cases found : T.program.hosts.get? name with
  | none => exact .fail
  | some f =>
    have pure := pure name f found
    refine (Along.ofOutcome (Q := fun M => List.Forall₂ (Option.Rel (T.Alike M))) (bindSlots_both all keyed)).bind
      fun M₁ given given' _ same => ?_
    refine (Along.ofOutcome (Q := fun M => List.Forall₂ (T.Alike M))
      (hostArguments_both (fun q member d fallback => pure.fallback q member d fallback _ _) same)).bind fun M₂ args args' _ all => ?_
    refine Along.freshIdentity.bind fun M₃ i j within issued x y beside => ?_
    have answers := pure.apply (T.carries beside).unique issued (Region.Alike.all_mono all within)
    generalize f.apply i args = answer at answers ⊢
    generalize f.apply j args' = answer' at answers ⊢
    cases answers with
    | ok alike => exact .ok .refl beside alike
    | error => exact .stop .refl beside

lemma call_along {f g : Value} {vs ws : List Value} {ks ks' : List (String × Value)} (pure : T.program.hosts.Pure)
    (agree : T.Agree run run') (alike : T.Alike M f g) (all : List.Forall₂ (T.Alike M) vs ws)
    (keyed : List.Forall₂ (sameKey (T.Alike M)) ks ks') :
    T.Along M (call T.program run f vs ks) (call T.program run' g ws ks') T.Alike := by
  cases alike with
  | closure alike => exact callClosure_along agree alike all keyed
  | host => exact callHost_along pure all keyed
  | _ => exact .fail

/-! ### Modules -/

/-- The statements of a module, with which everything that they import has been imported. -/
lemma moduleStatements_along {ss : List Statement} {v w : Value} (agree : T.Agree run run')
    (stands : T.Stands M c c' t scope passed) (settled : ∀ s ∈ ss, s.Settled T.program t True scope false)
    (serves : T.Serves c.module (Statement.allDemands ss passed)) (permits : ∀ s ∈ ss, T.Permits c.module s) (last : T.Alike M v w) :
    T.Along M (moduleStatements run c v ss) (moduleStatements run' c' w ss) fun M v w =>
      T.Alike M v w ∧ T.Passed c.module (Statement.allPassed ss passed) := by
  induction ss generalizing M passed v w with
  | nil => exact .pure ⟨last, stands.passed⟩
  | cons s ss ih =>
    obtain ⟨first, others⟩ := List.forall_mem_cons.1 permits
    obtain ⟨head, tail⟩ := List.forall_mem_cons.1 settled
    obtain ⟨here, behind⟩ := Region.serves_append.1 serves
    refine (agree.statement stands head rfl here first).bind fun M₁ v w within ⟨alike, passed⟩ => ?_
    exact ih { stands.mono within with passed := passed } tail behind others alike

section

variable (onePlace : T.program.OnePlace) (pure : T.program.hosts.Pure)
include onePlace pure

/-- A step of two tasks that are the same goes along if the tasks do that it asks for. -/
theorem step_along (hooks : T.Hooks run run') (agree : T.Agree run run') : T.Agree (step T.program run) (step T.program run') where
  task {M task task'} twin := by
    cases twin with
    | expr stands settled serves given => exact expr_along hooks agree stands settled serves given
    | block stands settled serves given => exact block_along onePlace agree stands settled serves given
    | branch stands settled serves given => exact branch_along agree stands settled serves given
    | pipeline stands settled serves given => exact pipeline_along agree stands settled serves given
    | loop stands settled serves given => exact loop_along agree stands settled serves given
    | call alike all keyed => exact call_along pure agree alike all keyed
  statement stands settled _ serves permits := statement_along hooks agree stands settled serves permits

end

end Lockstep

end PipeLang
