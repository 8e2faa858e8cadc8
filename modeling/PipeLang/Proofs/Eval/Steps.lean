import PipeLang.Proofs.Eval.Keeps

/-!
# Steps

A step of a task that fits keeps the machine sound if the tasks that it asks for do: `step_keeps`. There is one lemma for
each kind of task.
-/

namespace PipeLang

variable {p : Program} {labels : Labels} {c : Context} {t : Resolved} {scope : ScopeId}

/-- The module of a context is settled. -/
lemma Context.Stands.settled (stands : c.Stands p labels t scope) (rest : p.AtRest) :
    ∃ (m : LoadedModule) (ast : Module), m.Settled p p.Imports c.module t ast True := by
  obtain ⟨m, t', ast, found, resolved, -, settled⟩ := rest.ready stands.usable
  have same := stands.resolved
  rw [Program.resolvedOf, found, Option.bind_some, resolved, Option.some.injEq] at same
  exact ⟨m, ast, same ▸ settled⟩

namespace Eval

variable {base : Labels} {run run' : Task → Eval Value} {inner : ScopeId} {incoming : Option Value}

lemma module_eq {id : ModuleId} {m : LoadedModule} (found : p.modules[(id : Nat)]? = some m) :
    module p id = pure m := by
  simp only [module, found]

lemma resolvedOf_eq {id : ModuleId} (resolved : p.resolvedOf id = some t) : Eval.resolvedOf p id = pure t := by
  obtain ⟨m, found, resolved⟩ := Option.bind_eq_some_iff.1 resolved
  simp only [Eval.resolvedOf, module_eq found, pure_bind, resolved]

lemma assembly_keeps {id : ModuleId} (agree : Agree p base run run') (usable : p.Usable id) :
    Keeps p base labels (assembly p run id) (assembly p run' id) (Value.Fits p) := by
  have runs : Keeps p base labels _ _ _ := agree (.module usable)
  obtain ⟨m, found, -⟩ := usable
  simp only [assembly, module_eq found, pure_bind]
  split
  · refine runs.bind fun _ _ _ _ => Keeps.read.bind fun labels' s _ sound => ?_
    cases value : s.assemblies.lookup id with
    | some v => exact .pure (sound.assemblies _ (mem_of_lookup value))
    | none => exact .fail rfl
  · exact .fail rfl

/-- A reference that resolution knows gives a value that fits. -/
lemma reference_keeps {site : Span} {name : String} (rest : p.AtRest) (agree : Agree p base run run')
    (stands : c.Stands p labels t scope) (known : (t.references.get? site).isSome) :
    Keeps p base labels (reference p run c site name) (reference p run' c site name) (Value.Fits p) := by
  obtain ⟨m, ast, settled⟩ := stands.settled rest
  obtain ⟨⟨target, ty⟩, found⟩ := Option.isSome_iff_exists.1 known
  have reached := settled.reached found
  have valid := settled.valid found
  have host {name : String} (e : target = .host name) : (p.hosts.get? name).isSome := settled.host found e
  simp only [reference, resolvedOf_eq stands.resolved, pure_bind, found]
  cases target with
  | inner id =>
    refine Keeps.read.bind fun labels' s _ sound => ?_
    cases value : s.heap.get? c.frame id with
    | some v => exact .pure (sound.get value)
    | none => exact .fail rfl
  | item id item =>
    have usable := rest.reached_usable stands.usable reached
    refine Keeps.item?.bind fun labels' o _ fits => ?_
    cases o with
    | some v => exact .pure (fits v rfl)
    | none =>
      refine (agree (.module usable)).bind fun _ _ _ _ => Keeps.item?.bind fun labels'' o _ fits => ?_
      cases o with
      | some v => exact .pure (fits v rfl)
      | none => exact .fail rfl
  | module id => exact assembly_keeps agree (rest.reached_usable stands.usable reached)
  | host name => exact .pure (Value.holds_host.2 (.host (host rfl)))
  | invalid => exact absurd rfl valid

lemma exprs_keeps {es : List Expr} (agree : Agree p base run run') (stands : c.Stands p labels t scope)
    (settled : ∀ e ∈ es, e.Settled p t True scope false) :
    Keeps p base labels (exprs run c es) (exprs run' c es) fun labels' vs => ∀ v ∈ vs, v.Fits p labels' := by
  induction es generalizing labels with
  | nil => exact .pure nofun
  | cons e es ih =>
    simp only [exprs, List.mapM_cons] at ih ⊢
    obtain ⟨head, tail⟩ := List.forall_mem_cons.1 settled
    refine (agree (.plain stands head)).bind fun labels' v grows fits => ?_
    refine (ih (stands.mono grows) tail).bind fun labels'' vs grows' fit => .pure ?_
    exact List.forall_mem_cons.2 ⟨fits.mono grows', fit⟩

/-- Arguments, in two lists, of which all values fit. -/
lemma arguments_keeps {args : List Argument} (agree : Agree p base run run') (stands : c.Stands p labels t scope)
    (settled : ∀ a ∈ args, a.value.Settled p t True scope false) :
    Keeps p base labels (arguments run c args) (arguments run' c args) fun labels' (positional, keyword) =>
      (∀ v ∈ positional, v.Fits p labels') ∧ ∀ entry ∈ keyword, entry.2.Fits p labels' := by
  induction args generalizing labels with
  | nil => exact .pure ⟨nofun, nofun⟩
  | cons a args ih =>
    obtain ⟨head, tail⟩ := List.forall_mem_cons.1 settled
    simp only [arguments]
    refine (agree (.plain stands head)).bind fun labels' v grows fits => ?_
    refine (ih (stands.mono grows) tail).bind fun labels'' (positional, keyword) grows' ⟨fit, fit'⟩ => ?_
    cases a.name with
    | some name => exact .pure ⟨fit, List.forall_mem_cons.2 ⟨fits.mono grows', fit'⟩⟩
    | none => exact .pure ⟨List.forall_mem_cons.2 ⟨fits.mono grows', fit⟩, fit'⟩

lemma whole_keeps {what : String} {v : Value} :
    Keeps p base labels (ofOutcome (v.whole what)) (ofOutcome (v.whole what)) fun _ _ => True :=
  .ofOutcome (Value.whole_gives what v)

lemma plainExpr_keeps {e : Expr} (rest : p.AtRest) (agree : Agree p base run run')
    (stands : c.Stands p labels t scope) (settled : e.Settled p t True scope false) :
    Keeps p base labels (plainExpr p run c e) (plainExpr p run' c e) (Value.Fits p) := by
  obtain ⟨-, -, pieces⟩ := settled
  cases pieces with
  | name answers known => exact reference_keeps rest agree stands (known trivial)
  | path answers known => exact reference_keeps rest agree stands (known trivial)
  | literal => exact .pure Value.holds_literal
  | array items =>
    exact (exprs_keeps agree stands items).bind fun _ vs _ fit => .pure (Value.holds_array.2 fit)
  | range start stop =>
    refine (agree (.plain stands start)).bind fun labels₁ _ grows _ => whole_keeps.bind fun labels₂ _ grows' _ => ?_
    have stands := (stands.mono grows).mono grows'
    refine (agree (.plain stands stop)).bind fun labels₃ _ _ _ => whole_keeps.bind fun labels₄ _ _ _ => ?_
    exact .ofOutcome (Value.ofRange_gives ..)
  | @binary _ _ op left right _ leftSettled rightSettled =>
    refine (agree (.plain stands leftSettled)).bind fun labels' v grows _ => ?_
    cases decided : op.decided? v with
    | some w => exact .pure (BinaryOp.decided_holds decided)
    | none =>
      refine (agree (.plain (stands.mono grows) rightSettled)).bind fun _ _ _ _ => ?_
      exact .ofOutcome (BinaryOp.apply_gives ..)
  | unary operand =>
    exact (agree (.plain stands operand)).bind fun _ _ _ _ => .ofOutcome (UnaryOp.apply_gives ..)
  | call callee args =>
    refine (agree (.plain stands callee)).bind fun labels' f grows fits => ?_
    refine (arguments_keeps agree (stands.mono grows) args).bind fun _ (_, _) grows' ⟨fit, fit'⟩ => ?_
    exact agree (.call (fits.mono grows') fit fit')
  | index base index =>
    refine (agree (.plain stands base)).bind fun labels' _ grows fits => ?_
    refine (agree (.plain (stands.mono grows) index)).bind fun _ _ grows' _ => ?_
    exact .ofOutcome (Value.itemAt_gives _ (fits.mono grows'))
  | lambda settled => exact .makeClosure stands settled
  | block settled => exact agree (.block stands settled nofun)
  | branch settled => exact agree (.branch stands settled nofun)
  | pipeline settled => exact agree (.pipeline stands settled nofun)
  | loop settled => exact agree (.loop stands settled nofun)

/-- A stage is given an incoming value only if it can take one. -/
lemma stageExpr_keeps {e : Expr} {v : Value} (agree : Agree p base run run') (stands : c.Stands p labels t scope)
    (settled : e.Settled p t True scope true) (fits : v.Fits p labels) :
    Keeps p base labels (stageExpr run c v e) (stageExpr run' c v e) (Value.Fits p) := by
  obtain ⟨place, rejects, pieces⟩ := settled
  have accepted := rejects trivial rfl
  have passed : ∀ w ∈ some v, w.Fits p labels := fun w e => Option.some.inj e ▸ fits
  cases pieces with
  | name answers known =>
    refine (agree (.plain stands ⟨place, nofun, .name answers known nofun⟩)).bind fun labels' f grows callable => ?_
    exact agree (.call callable (List.forall_mem_singleton.2 (fits.mono grows)) nofun)
  | path answers known follows =>
    refine (agree (.plain stands ⟨place, nofun, .path answers known follows nofun⟩)).bind fun labels' f grows callable => ?_
    exact agree (.call callable (List.forall_mem_singleton.2 (fits.mono grows)) nofun)
  | call callee args =>
    refine (agree (.plain stands callee)).bind fun labels' f grows callable => ?_
    refine (arguments_keeps agree (stands.mono grows) args).bind fun labels'' (_, _) grows' ⟨fit, fit'⟩ => ?_
    have first := (fits.mono grows).mono grows'
    exact agree (.call (callable.mono grows') (List.forall_mem_cons.2 ⟨first, fit⟩) fit')
  | block settled => exact agree (.block stands settled passed)
  | branch settled => exact agree (.branch stands settled passed)
  | pipeline settled => exact agree (.pipeline stands settled passed)
  | loop settled => exact agree (.loop stands settled passed)
  | _ => cases accepted

lemma expr_keeps {e : Expr} (rest : p.AtRest) (agree : Agree p base run run') (stands : c.Stands p labels t scope)
    (settled : e.Settled p t True scope incoming.isSome) (fits : ∀ v ∈ incoming, v.Fits p labels) :
    Keeps p base labels (expr p run c e incoming) (expr p run' c e incoming) (Value.Fits p) := by
  cases incoming with
  | none => exact plainExpr_keeps rest agree stands settled
  | some v => exact stageExpr_keeps agree stands settled (fits v rfl)

lemma bindDefinition_keeps {name : Ident} {v : Value} {visibleFrom : Nat} (stands : c.Stands p labels t scope)
    (declares : t.Declares scope name.span visibleFrom) (fits : v.Fits p labels) :
    Keeps p base labels (bindDefinition p c name v) (bindDefinition p c name v) fun _ _ => True := by
  obtain ⟨id, declared, declares⟩ := declares.declares
  simp only [bindDefinition, resolvedOf_eq stands.resolved, pure_bind, declared]
  cases t.scopes.target id with
  | item module item => exact .change fun _ sound => sound.setItem fits
  | _ => exact .define stands declares fits

/-- The value of a definition; a function literal gets its name. -/
def definedValue (run : Task → Eval Value) (c : Context) (name : Ident) (value : Expr) : Eval Value :=
  match value with
  | .lambda f => makeClosure c f (some name.name)
  | other => run (.expr c other none)

lemma statement_define {exported : Bool} {name : Ident} {value : Expr} {span : Span} :
    statement p run c (.define exported name value span) =
      definedValue run c name value >>= fun v => bindDefinition p c name v >>= fun _ => pure .unit := by
  cases value <;> rfl

lemma statement_keeps {s : Statement} (rest : p.AtRest) (agree : Agree p base run run')
    (stands : c.Stands p labels t scope) (settled : s.Settled p t True scope false) :
    Keeps p base labels (statement p run c s) (statement p run' c s) (Value.Fits p) := by
  cases settled with
  | @importing _ _ i =>
    simp only [statement, resolvedOf_eq stands.resolved, pure_bind]
    cases imported : t.imports.get? i.span with
    | some target =>
      have usable := rest.import_usable stands.usable ⟨t, i.span, stands.resolved, imported⟩
      exact (agree (.module usable)).bind fun _ _ _ _ => .pure Value.holds_unit
    | none => exact .pure Value.holds_unit
  | define value declares =>
    have bound (labels' : Labels) (v : Value) (grows : labels <+: labels') (fits : v.Fits p labels') :
        Keeps p base labels' (bindDefinition p c _ v >>= fun _ => pure .unit)
          (bindDefinition p c _ v >>= fun _ => pure .unit) (Value.Fits p) :=
      (bindDefinition_keeps (stands.mono grows) (declares trivial) fits).bind fun _ _ _ _ => .pure Value.holds_unit
    have plain := value
    obtain ⟨-, -, pieces⟩ := value
    cases pieces with
    | lambda settled => exact (Keeps.makeClosure stands settled).bind bound
    | _ => exact (agree (.plain stands plain)).bind bound
  | expr settled => exact agree (.plain stands settled)

lemma blockStatements_cons {s next : Statement} {ss : List Statement} :
    blockStatements run c incoming (s :: next :: ss) =
      run (.statement c s) >>= fun _ => blockStatements run c incoming (next :: ss) := by
  cases s <;> rfl

/-- What comes before the last statement of a block is run for its effect. -/
lemma blockStatements_keeps {ss : List Statement} (agree : Agree p base run run') (stands : c.Stands p labels t scope)
    (settled : Statements.Settled p t True scope incoming.isSome ss)
    (tail : incoming.isSome = true → (tailExpr? ss).isSome) (fits : ∀ v ∈ incoming, v.Fits p labels) :
    Keeps p base labels (blockStatements run c incoming ss) (blockStatements run' c incoming ss) (Value.Fits p) := by
  have passOver {labels : Labels} (plain : incoming.isSome = true → False) :
      Keeps p base labels (blockStatements.passOver incoming) (blockStatements.passOver incoming) (Value.Fits p) := by
    cases incoming with
    | none => exact .pure Value.holds_unit
    | some v => exact (plain rfl).elim
  induction ss generalizing labels with
  | nil => exact passOver fun given => by cases tail given
  | cons s ss ih =>
    cases settled with
    | last settled =>
      cases settled with
      | expr settled => exact agree (.expr stands settled fits)
      | importing =>
        exact (agree (.statement stands .importing)).bind fun _ _ _ _ => passOver fun given => by cases tail given
      | define value declares =>
        refine (agree (.statement stands (.define value declares))).bind fun _ _ _ _ => ?_
        exact passOver fun given => by cases tail given
    | @cons _ _ _ next ss first others =>
      have later : tailExpr? (s :: next :: ss) = tailExpr? (next :: ss) := by cases s <;> rfl
      rw [blockStatements_cons, blockStatements_cons]
      refine (agree (.statement stands first)).bind fun labels' _ grows _ => ?_
      exact ih (stands.mono grows) others (later ▸ tail) fun v given => (fits v given).mono grows

lemma block_keeps {b : Block} (agree : Agree p base run run') (stands : c.Stands p labels t scope)
    (settled : b.Settled p t True scope incoming.isSome) (fits : ∀ v ∈ incoming, v.Fits p labels) :
    Keeps p base labels (block run c b incoming) (block run' c b incoming) (Value.Fits p) := by
  cases settled with
  | mk opens tail settled =>
    refine (Keeps.inside stands opens).bind fun labels' c' grows ⟨stands', _⟩ => ?_
    exact blockStatements_keeps agree stands' settled (tail trivial) fun v given => (fits v given).mono grows

lemma branch_keeps {b : Branch} (agree : Agree p base run run') (stands : c.Stands p labels t scope)
    (settled : b.Settled p t True scope incoming.isSome) (fits : ∀ v ∈ incoming, v.Fits p labels) :
    Keeps p base labels (branch run c b incoming) (branch run' c b incoming) (Value.Fits p) := by
  cases settled with
  | mk condition consequence alternative =>
    refine (agree (.plain stands condition)).bind fun labels' v grows _ => ?_
    replace stands := stands.mono grows
    replace fits : ∀ v ∈ incoming, v.Fits p labels' := fun v given => (fits v given).mono grows
    cases v with
    | bool decision =>
      cases decision with
      | true => exact agree (.block stands consequence fits)
      | false =>
        cases alternative with
        | absent =>
          refine .pure ?_
          cases incoming with
          | none => exact Value.holds_unit
          | some v => exact fits v rfl
        | block settled => exact agree (.block stands settled fits)
        | branch settled => exact agree (.branch stands settled fits)
    | _ => exact .fail rfl

lemma bindTag_keeps {tag : Option Ident} {v : Value} {visibleFrom : Nat} (stands : c.Stands p labels t scope)
    (declares : ∀ name, tag = some name → t.Declares scope name.span visibleFrom) (fits : v.Fits p labels) :
    Keeps p base labels (bindTag p c v tag) (bindTag p c v tag) fun _ _ => True := by
  cases tag with
  | none => exact .pure trivial
  | some name =>
    obtain ⟨id, declared, declares⟩ := (declares name rfl).declares
    simp only [bindTag, resolvedOf_eq stands.resolved, pure_bind, declared]
    exact .define stands declares fits

lemma stage_keeps {s : Stage} (agree : Agree p base run run') (stands : c.Stands p labels t scope)
    (settled : s.Settled p t True scope incoming.isSome) (fits : ∀ v ∈ incoming, v.Fits p labels) :
    Keeps p base labels (stage run c incoming s) (stage run' c incoming s) (Value.Fits p) := by
  cases settled with
  | expr settled tagged => exact agree (.expr stands settled fits)
  | operator operand tagged =>
    cases incoming with
    | none => exact .fail rfl
    | some left => exact (agree (.plain stands operand)).bind fun _ _ _ _ => .ofOutcome (BinaryOp.apply_gives ..)

lemma stage_declares {s : Stage} {receives : Bool} (settled : s.Settled p t True scope receives) :
    ∀ name, s.tag = some name → t.Declares scope name.span s.span.stop := by
  cases settled with
  | expr _ tagged => exact tagged trivial
  | operator _ tagged => exact tagged trivial

lemma pipeline_keeps {stages : List Stage} (agree : Agree p base run run') (stands : c.Stands p labels t scope)
    (settled : Stages.Settled p t True scope incoming.isSome stages) (fits : ∀ v ∈ incoming, v.Fits p labels) :
    Keeps p base labels (pipeline p run c incoming stages) (pipeline p run' c incoming stages) (Value.Fits p) := by
  induction stages generalizing labels incoming with
  | nil =>
    refine .pure ?_
    cases incoming with
    | none => exact Value.holds_unit
    | some v => exact fits v rfl
  | cons s stages ih =>
    cases settled with
    | cons first others =>
      refine (stage_keeps agree stands first fits).bind fun labels₁ v grows fits' => ?_
      refine (bindTag_keeps (stands.mono grows) (stage_declares first) fits').bind fun labels₂ _ grows' _ => ?_
      refine ih ((stands.mono grows).mono grows') others fun w e => ?_
      exact Option.some.inj e ▸ fits'.mono grows'

/-- What a loop has made so far fits; it folds if it was given a value. Its iterations had frames of the scope of its body. -/
structure LoopProgress.Fits (p : Program) (labels : Labels) (receives : Bool) (module : ModuleId) (inner : ScopeId)
    (progress : LoopProgress) : Prop where
  folds : progress.folded.isSome = receives
  folded : ∀ v ∈ progress.folded, v.Fits p labels
  mapped : ∀ v ∈ progress.mapped, v.Fits p labels
  frames : ∀ f ∈ progress.frames, labels[(f : Nat)]? = some (module, inner)

lemma iteration_keeps {l : Loop} {id : BindingId} {receives : Bool} {progress : LoopProgress} {v : Value}
    (agree : Agree p base run run') (stands : c.Stands p labels t scope) (opens : t.scopes.Opens scope inner)
    (declares : t.scopes.Declares inner id) (settled : Stages.Settled p t True inner receives l.body.stages)
    (fits : progress.Fits p labels receives c.module inner) (element : v.Fits p labels) :
    Keeps p base labels (iteration run c l (some id) progress v) (iteration run' c l (some id) progress v)
      fun labels' next => next.Fits p labels' receives c.module inner := by
  obtain ⟨folds, folded, mapped, frames⟩ := fits
  refine (Keeps.inside stands opens).bind fun labels₁ c' grows₁ ⟨stands', same⟩ => ?_
  refine (Keeps.define stands' declares (element.mono grows₁)).bind fun labels₂ _ grows₂ _ => ?_
  have grows := grows₁.trans grows₂
  have task := agree (.pipeline (stands'.mono grows₂) (folds ▸ settled) fun w e => (folded w e).mono grows)
  refine task.bind fun labels₃ w grows₃ result => ?_
  have others : ∀ w ∈ progress.mapped, w.Fits p labels₃ := fun w member => (mapped w member).mono (grows.trans grows₃)
  have labelled : ∀ f ∈ c'.frame :: progress.frames, labels₃[(f : Nat)]? = some (c.module, inner) :=
    List.forall_mem_cons.2 ⟨same ▸ Labels.kept (grows₂.trans grows₃) stands'.label, fun f member =>
      Labels.kept (grows.trans grows₃) (frames f member)⟩
  cases made : progress.folded with
  | some u => exact .pure ⟨by simp [← folds, made], fun _ e => Option.some.inj e ▸ result, others, labelled⟩
  | none => exact .pure ⟨by simp [← folds, made], nofun, List.forall_mem_cons.2 ⟨result, others⟩, labelled⟩

/-- An iteration when the loop variable has its value. -/
def iterate (run : Task → Eval Value) (c : Context) (l : Loop) (progress : LoopProgress) : Eval LoopProgress := do
  let v ← run (.pipeline c l.body.stages progress.folded)
  let frames := c.frame :: progress.frames
  match progress.folded with
  | some _ => return ⟨some v, progress.mapped, frames⟩
  | none => return ⟨none, v :: progress.mapped, frames⟩

lemma iterations_keep {l : Loop} {id : BindingId} {receives : Bool} {progress : LoopProgress} {elements : List Value}
    (agree : Agree p base run run') (stands : c.Stands p labels t scope) (opens : t.scopes.Opens scope inner)
    (declares : t.scopes.Declares inner id) (settled : Stages.Settled p t True inner receives l.body.stages)
    (fits : progress.Fits p labels receives c.module inner) (fit : ∀ v ∈ elements, v.Fits p labels) :
    Keeps p base labels (elements.foldlM (iteration run c l (some id)) progress)
      (elements.foldlM (iteration run' c l (some id)) progress) fun labels' last =>
        last.Fits p labels' receives c.module inner := by
  induction elements generalizing labels progress with
  | nil => exact .pure fits
  | cons v elements ih =>
    obtain ⟨head, tail⟩ := List.forall_mem_cons.1 fit
    rw [List.foldlM_cons, List.foldlM_cons]
    refine (iteration_keeps agree stands opens declares settled fits head).bind fun labels' next grows fits' => ?_
    exact ih (stands.mono grows) fits' fun v member => (tail v member).mono grows

/-- An iteration is in a new frame inside the one around the loop. -/
lemma iteration_opens {l : Loop} {bound? : Option BindingId} {progress next : LoopProgress} {v : Value} {m m' : Machine}
    (growing : Growing run) (there : (c.frame : Nat) < m.heap.size)
    (ran : iteration run c l bound? progress v m = .ok next m') :
    m.heap.Grows m'.heap ∧ next.frames = m.heap.size :: progress.frames ∧ m'.heap.Iterates c.frame bound? m.heap.size v := by
  obtain ⟨c', m₁, opened, ran⟩ := bind_ok ran
  cases opened
  -- the frame is given the element, and then the stages are run
  have stages {m₂ : Machine} (before : (m.heap.push (some c.frame)).Grows m₂.heap)
      (bound : ∀ id ∈ bound?, m₂.heap.Holds m.heap.size id v)
      (ran : iterate run ⟨c.module, m.heap.size⟩ l progress m₂ = .ok next m') :
      m.heap.Grows m'.heap ∧ next.frames = m.heap.size :: progress.frames ∧
        m'.heap.Iterates c.frame bound? m.heap.size v := by
    obtain ⟨w, m₃, stages, ran⟩ := bind_ok ran
    have frames : m' = m₃ ∧ next.frames = m.heap.size :: progress.frames := by
      split at ran <;> cases ran <;> exact ⟨rfl, rfl⟩
    obtain ⟨rfl, frames⟩ := frames
    have grows := before.trans (growing _ _ _ _ stages)
    have new : m.heap.size < (m.heap.push (some c.frame)).size := by simp [Heap.size_push]
    refine ⟨Heap.Grows.push.trans grows, frames, ?_, fun id member => (bound id member).grows (growing _ _ _ _ stages)⟩
    rw [grows.chain new, Heap.push_chain there, (Heap.Grows.push.trans grows).chain there]
  cases bound? with
  | none => exact stages .refl nofun ran
  | some id =>
    obtain ⟨_, m₂, defined, ran⟩ := bind_ok ran
    cases defined
    refine stages Heap.Grows.define (fun other same => ?_) ran
    obtain rfl := Option.some.inj same
    exact Heap.holds_define (by simp [Heap.size_push])

/-- The iterations of a loop are in frames inside the one around it, one for each element. -/
lemma iterations_open {l : Loop} {bound? : Option BindingId} {progress last : LoopProgress} {elements : List Value}
    {m m' : Machine} (growing : Growing run) (there : (c.frame : Nat) < m.heap.size)
    (ran : elements.foldlM (iteration run c l bound?) progress m = .ok last m') :
    m.heap.Grows m'.heap ∧ ∃ frames, last.frames = frames.reverse ++ progress.frames ∧
      List.Forall₂ (m'.heap.Iterates c.frame bound?) frames elements := by
  induction elements generalizing progress m with
  | nil =>
    cases ran
    exact ⟨.refl, [], rfl, .nil⟩
  | cons v elements ih =>
    rw [List.foldlM_cons] at ran
    obtain ⟨next, m₁, first, ran⟩ := bind_ok ran
    obtain ⟨before, added, iterates⟩ := iteration_opens growing there first
    have there₁ := Nat.lt_of_lt_of_le there before.size_le
    obtain ⟨behind, frames, all, others⟩ := ih there₁ ran
    refine ⟨before.trans behind, m.heap.size :: frames, ?_, .cons (iterates.grows there₁ behind) others⟩
    rw [all, added, List.reverse_cons, List.append_assoc, List.singleton_append]

lemma loop_opens {l : Loop} {bound? : Option BindingId} {last : LoopProgress} {elements : List Value} {m m' : Machine}
    (growing : Growing run) (there : (c.frame : Nat) < m.heap.size)
    (ran : elements.foldlM (iteration run c l bound?) ⟨incoming, [], []⟩ m = .ok last m') :
    m.heap.Grows m'.heap ∧ List.Forall₂ (m'.heap.Iterates c.frame bound?) last.frames.reverse elements := by
  obtain ⟨grows, frames, all, iterates⟩ := iterations_open growing there ran
  rw [all, List.append_nil, List.reverse_reverse]
  exact ⟨grows, iterates⟩

/-- The tags of a loop are collected where it stands, with one layer more than in its body. -/
lemma collectTags_keep {frames : List FrameId} {tags : List BindingId} {m : Machine} (sound : m.Sound p labels)
    (nested : t.scopes.Nested) (stands : c.Stands p labels t scope) (opens : t.scopes.Opens scope inner)
    (isTags : ∀ tag ∈ tags, t.scopes.IsTag tag) (collects : ∀ tag ∈ tags, t.scopes.Collects scope inner tag)
    (labelled : ∀ f ∈ frames, labels[(f : Nat)]? = some (c.module, inner))
    (opened : ∀ f ∈ frames, m.heap.chain f = f :: m.heap.chain c.frame) :
    Leaves p labels (fun _ _ => True) (tags.forM (collectTag c frames) m) := by
  induction tags generalizing m with
  | nil => exact ⟨labels, List.prefix_rfl, sound, trivial⟩
  | cons tag tags ih =>
    obtain ⟨isTag, isTags⟩ := List.forall_mem_cons.1 isTags
    obtain ⟨⟨b, found, held, crossed⟩, collects⟩ := List.forall_mem_cons.1 collects
    obtain ⟨b', found', -, s, fronts⟩ := isTag
    cases found.symm.trans found'
    have layered : ∀ b, t.scopes.bindings[(tag : Nat)]? = some b → m.heap.Layered tag (t.scopes.layersAt b scope) c.frame
        (.array (frames.filterMap fun f => m.heap.getLocal? f tag)) := by
      intro b' found'
      cases found.symm.trans found'
      rw [Scopes.layersAt_outside nested opens (nested.loops_nodup fronts) crossed]
      exact .collect opened fun g member w holds =>
        sound.layers g _ _ t (labelled g member) stands.resolved tag w b holds found
    have collected : (Value.array (frames.filterMap fun f => m.heap.getLocal? f tag)).Fits p labels := by
      refine Value.holds_array.2 fun v member => ?_
      obtain ⟨f, -, here⟩ := List.mem_filterMap.1 member
      exact sound.getLocal here
    refine ih (sound.define stands ⟨b, found, held⟩ layered collected) isTags collects fun f member => ?_
    rw [Heap.chain_define, Heap.chain_define, opened f member]

lemma loop_keeps {l : Loop} (rest : p.AtRest) (agree : Agree p base run run') (growing : Growing run)
    (stands : c.Stands p labels t scope) (settled : l.Settled p t True scope incoming.isSome)
    (fits : ∀ v ∈ incoming, v.Fits p labels) :
    Keeps p base labels (loop p run c l incoming) (loop p run' c l incoming) (Value.Fits p) := by
  obtain ⟨_, _, known⟩ := stands.settled rest
  cases settled with
  | @mk _ _ inner sequence binding stages bodySpan span sequenceSettled opens declares settled collects =>
    refine (agree (.plain stands sequenceSettled)).bind fun labels₁ v grows₁ elements => ?_
    cases v with
    | array items =>
      obtain ⟨id, declared, declares⟩ := (declares trivial).declares
      simp only [resolvedOf_eq stands.resolved, pure_bind, declared]
      replace stands := stands.mono grows₁
      have start : LoopProgress.Fits p labels₁ incoming.isSome c.module inner ⟨incoming, [], []⟩ :=
        ⟨rfl, fun v given => (fits v given).mono grows₁, nofun, nofun⟩
      have iterations := iterations_keep (l := ⟨sequence, binding, ⟨stages, bodySpan⟩, span⟩) agree stands opens declares
        settled start (Value.holds_array.1 elements)
      refine iterations.bind_knowing (K := fun last m' => List.Forall₂ (m'.heap.Iterates c.frame (some id)) last.frames.reverse items)
        (fun m sound last m' ran => ?_) fun labels₂ last m' grows₂ sound ⟨_, folded, mapped, labelled⟩ iterates => ⟨rfl, ?_⟩
      · exact (loop_opens growing (sound.heap.size ▸ (List.getElem?_eq_some_iff.1 stands.label).1) ran).2
      have tags : ∀ tag ∈ (t.loopTags.get? span).getD [], t.scopes.IsTag tag ∧ t.scopes.Collects scope inner tag := by
        intro tag member
        cases found : t.loopTags.get? span with
        | none => simp [found] at member
        | some tags =>
          replace member : tag ∈ tags := by simpa [found] using member
          exact ⟨known.tags found tag member, collects tags found tag member⟩
      have opened : ∀ f ∈ last.frames.reverse, m'.heap.chain f = f :: m'.heap.chain c.frame := by
        intro f member
        obtain ⟨i, inside, rfl⟩ := List.getElem_of_mem member
        exact (iterates.get inside (iterates.length_eq ▸ inside)).chain
      have collected := collectTags_keep sound known.nested (stands.mono grows₂) opens (fun tag member => (tags tag member).1)
        (fun tag member => (tags tag member).2) (fun f member => labelled f (List.mem_reverse.1 member)) opened
      refine collected.bind fun labels₃ _ grows₃ _ => ?_
      cases made : last.folded with
      | some v => exact .pure ((folded v made).mono grows₃)
      | none => exact .pure (Value.holds_array.2 fun v member => (mapped v (List.mem_reverse.1 member)).mono grows₃)
    | _ => exact .fail rfl

lemma checkArgument_gives {callee name : String} {ty : Option Ty} {v : Value} :
    (checkArgument callee name ty v).Gives fun _ => True := by
  unfold checkArgument
  split
  · split
    · trivial
    · rfl
  · trivial

/-- Gives a parameter its value, and the parameters behind it theirs. -/
def bindParam (run : Task → Eval Value) (callee : String) (count : Nat) (t : Resolved) (c : Context) (param : Param)
    (rest : List (Param × Option Value)) (v : Value) : Eval Unit := do
  ofOutcome (checkArgument callee param.name.name (param.note.map TypeNote.ty) v)
  match t.declarations.get? param.name.span with
  | some id => define c.frame id v
  | none => pure ()
  bindParams run callee count t c rest

/-- Parameters are given values that fit: what the call gives, or their defaults. -/
lemma bindParams_keeps {callee : String} {count : Nat} {places : List (Param × Option Value)} (agree : Agree p base run run')
    (stands : c.Stands p labels t scope) (settled : ∀ place ∈ places, place.1.Settled p t True scope)
    (fit : ∀ place ∈ places, ∀ v ∈ place.2, v.Fits p labels) :
    Keeps p base labels (bindParams run callee count t c places) (bindParams run' callee count t c places) fun _ _ => True := by
  induction places generalizing labels with
  | nil => exact .pure trivial
  | cons place places ih =>
    obtain ⟨q, given⟩ := place
    obtain ⟨head, tail⟩ := List.forall_mem_cons.1 settled
    obtain ⟨first, others⟩ := List.forall_mem_cons.1 fit
    cases head with
    | @mk _ name note fallback span whenMissing declares =>
      obtain ⟨id, declared, declares⟩ := (declares trivial).declares
      have bound (labels₁ : Labels) (v : Value) (grows₁ : labels <+: labels₁) (fits : v.Fits p labels₁) :
          Keeps p base labels₁
            (ofOutcome (checkArgument callee name.name (note.map TypeNote.ty) v) >>= fun _ =>
              define c.frame id v >>= fun _ => bindParams run callee count t c places)
            (ofOutcome (checkArgument callee name.name (note.map TypeNote.ty) v) >>= fun _ =>
              define c.frame id v >>= fun _ => bindParams run' callee count t c places) fun _ _ => True := by
        refine (Keeps.ofOutcome (Q := fun _ _ => True) checkArgument_gives).bind fun labels₂ _ grows₂ _ => ?_
        refine (Keeps.define ((stands.mono grows₁).mono grows₂) declares (fits.mono grows₂)).bind
          fun labels₃ _ grows₃ _ => ?_
        have grows := grows₁.trans (grows₂.trans grows₃)
        exact ih (stands.mono grows) tail fun place member v e => (others place member v e).mono grows
      simp only [bindParams, declared]
      cases given with
      | some v => exact (Keeps.pure (Q := Value.Fits p) (first v rfl)).bind bound
      | none =>
        cases fallback with
        | some e => exact (agree (.plain stands (whenMissing e rfl))).bind bound
        | none => exact (Keeps.fail (Q := Value.Fits p) rfl).bind bound

/-- What is bound to parameters was given. -/
lemma bindSlots_gives {callee : String} {params : List ParamSlot} {positional : List Value}
    {keyword : List (String × Value)} {kind : Value → Prop} (fit : ∀ v ∈ positional, v.Holds kind)
    (fit' : ∀ entry ∈ keyword, entry.2.Holds kind) :
    (bindSlots callee params positional keyword).Gives fun given => ∀ v, some v ∈ given → v.Holds kind := by
  unfold bindSlots
  cases bound : bindArguments params positional keyword with
  | error fault => rfl
  | ok given =>
    intro v member
    rcases bindArguments_mem bound member with among | among
    · exact fit v among
    · obtain ⟨entry, named, rfl⟩ := List.mem_map.1 among
      exact fit' entry named

lemma callClosure_keeps {f : Closure} {positional : List Value} {keyword : List (String × Value)}
    (agree : Agree p base run run') (callable : Value.Callable p labels (.closure f))
    (fit : ∀ v ∈ positional, v.Fits p labels) (fit' : ∀ entry ∈ keyword, entry.2.Fits p labels) :
    Keeps p base labels (callClosure p run f positional keyword) (callClosure p run' f positional keyword)
      (Value.Fits p) := by
  obtain ⟨name, module, ⟨params, returns, body, span⟩, frame, identity⟩ := f
  cases callable with
  | @closure _ t scope stands settled =>
    cases settled with
    | mk opens paramsSettled bodySettled =>
      refine (Keeps.ofOutcome (Q := fun _ given => ∀ v, some v ∈ given → v.Fits p labels)
        (bindSlots_gives fit fit')).bind fun labels₁ given grows₁ fits => ?_
      refine (Keeps.inside (stands.mono grows₁) opens).bind fun labels₂ c grows₂ ⟨stands', _⟩ => ?_
      simp only [resolvedOf_eq stands.resolved, pure_bind]
      have known : ∀ place ∈ params.zip given, place.1.Settled p t True _ := fun place member =>
        paramsSettled _ (List.of_mem_zip member).1
      have good : ∀ place ∈ params.zip given, ∀ v ∈ place.2, v.Fits p labels₂ := fun place member v e =>
        (fits v (e ▸ (List.of_mem_zip member).2)).mono (grows₁.trans grows₂)
      refine (bindParams_keeps agree stands' known good).bind fun labels₃ _ grows₃ _ => ?_
      refine (agree (.plain (stands'.mono grows₃) bodySettled)).bind fun labels₄ v grows₄ result => ?_
      cases returns with
      | none => exact .pure result
      | some note =>
        by_cases conforms : v.conforms note.ty
        · simp only [conforms, if_true]
          exact .pure result
        · simp only [conforms]
          exact .fail rfl

/-- The arguments of a host function are what was given, or defaults. -/
lemma hostArguments_gives {callee : String} {places : List (HostParam × Option Value)} {kind : Value → Prop}
    (given : ∀ place ∈ places, ∀ v, place.2 = some v → v.Holds kind) :
    (places.mapM (hostArgument callee)).Gives fun args =>
      ∀ v ∈ args, v.Holds kind ∨ ∃ place ∈ places, place.1.fallback = some v := by
  induction places with
  | nil => exact nofun
  | cons place places ih =>
    obtain ⟨first, others⟩ := List.forall_mem_cons.1 given
    rw [List.mapM_cons]
    have argument : (hostArgument callee place).Gives fun v => v.Holds kind ∨ place.1.fallback = some v :=
      checkArgument_gives.bind fun _ _ => by
        show Value.Holds kind ((place.2 <|> place.1.fallback).getD .unit) ∨
          place.1.fallback = some ((place.2 <|> place.1.fallback).getD .unit)
        cases here : place.2 with
        | some v => exact Or.inl (first v here)
        | none =>
          cases default : place.1.fallback with
          | some v => exact Or.inr rfl
          | none => exact Or.inl Value.holds_unit
    refine argument.bind fun v head => (ih others).bind fun args tail => List.forall_mem_cons.2 ⟨?_, fun w member => ?_⟩
    · exact head.imp_right fun default => ⟨place, List.mem_cons_self, default⟩
    · exact (tail w member).imp_right fun ⟨q, among, default⟩ => ⟨q, List.mem_cons_of_mem _ among, default⟩

lemma callHost_keeps {name : String} {positional : List Value} {keyword : List (String × Value)}
    (honest : p.hosts.Honest) (known : (p.hosts.get? name).isSome) (fit : ∀ v ∈ positional, v.Fits p labels)
    (fit' : ∀ entry ∈ keyword, entry.2.Fits p labels) :
    Keeps p base labels (callHost p name positional keyword) (callHost p name positional keyword) (Value.Fits p) := by
  obtain ⟨f, found⟩ := Option.isSome_iff_exists.1 known
  simp only [callHost, found]
  refine (Keeps.ofOutcome (Q := fun _ given => ∀ v, some v ∈ given → v.Fits p labels)
    (bindSlots_gives fit fit')).bind fun labels₁ given grows₁ fits => ?_
  refine (Keeps.ofOutcome (Q := fun _ args => ∀ v ∈ args, v.Fits p labels ∨
    ∃ place ∈ f.signature.params.zip given, place.1.fallback = some v) (hostArguments_gives fun place member v e =>
      fits v (e ▸ (List.of_mem_zip member).2))).bind fun labels₂ args grows₂ fit => ?_
  refine Keeps.freshIdentity.bind fun labels₃ serial grows₃ _ => ?_
  cases answer : f.apply serial args with
  | error message => exact .fail rfl
  | ok v =>
    have fits : v.Fits p labels := fun g member => by
      rcases honest name f found serial args v answer g member with ⟨other, rfl, registered⟩ | ⟨⟨a, among, inside⟩, new⟩
      · exact .host registered
      · rcases fit a among with holds | ⟨place, member, default⟩
        · exact holds g inside
        · exact absurd inside (new _ (List.of_mem_zip member).1 a default)
    exact .pure (fits.mono (grows₁.trans (grows₂.trans grows₃)))

lemma call_keeps {callee : Value} {positional : List Value} {keyword : List (String × Value)}
    (honest : p.hosts.Honest) (agree : Agree p base run run') (callable : callee.Fits p labels)
    (fit : ∀ v ∈ positional, v.Fits p labels) (fit' : ∀ entry ∈ keyword, entry.2.Fits p labels) :
    Keeps p base labels (call p run callee positional keyword) (call p run' callee positional keyword)
      (Value.Fits p) := by
  cases callee with
  | closure f => exact callClosure_keeps agree (Value.holds_closure.1 callable) fit fit'
  | host name =>
    cases Value.holds_host.1 callable with
    | host known => exact callHost_keeps honest known fit fit'
  | _ => exact .fail rfl

lemma moduleStatements_keeps {last : Value} {ss : List Statement} (agree : Agree p base run run')
    (stands : c.Stands p labels t scope) (settled : ∀ s ∈ ss, s.Settled p t True scope false)
    (fits : last.Fits p labels) :
    Keeps p base labels (moduleStatements run c last ss) (moduleStatements run' c last ss) (Value.Fits p) := by
  induction ss generalizing labels last with
  | nil => exact .pure fits
  | cons s ss ih =>
    obtain ⟨head, tail⟩ := List.forall_mem_cons.1 settled
    exact (agree (.statement stands head)).bind fun labels' v grows fits' => ih (stands.mono grows) tail fits'

/-- What is left of the statements of a module: an error that stopped them is recorded. -/
def afterStatements (id : ModuleId) : EStateM.Result Stop Machine Value → EStateM.Result Stop Machine Value
  | .ok v m => .ok v m
  | .error stop m => (markFailed id stop >>= fun _ => throw stop : Eval Value) m

lemma guarded_eq {id : ModuleId} {x : Eval Value} {m : Machine} : guarded id x m = afterStatements id (x m) := by
  simp only [guarded, tryCatch, tryCatchThe, MonadExceptOf.tryCatch, EStateM.tryCatch]
  cases x m <;> rfl

lemma guarded_keeps {id : ModuleId} {x x' : Eval Value} {Q : Labels → Value → Prop}
    (body : Keeps p base labels x x' Q) : Keeps p base labels (guarded id x) (guarded id x') Q := by
  intro since m sound
  obtain ⟨same, leaves⟩ := body since m sound
  rw [guarded_eq, guarded_eq, ← same]
  refine ⟨rfl, ?_⟩
  cases h : x m with
  | ok v m' =>
    rw [h] at leaves
    exact leaves
  | error stop m' =>
    rw [h] at leaves
    obtain ⟨labels', grows, sound', dynamic⟩ := leaves
    cases stop with
    | outOfFuel => exact ⟨labels', grows, sound', dynamic⟩
    | error e =>
      refine ⟨labels', grows, sound'.setState fun e' same => ?_, dynamic⟩
      cases same
      exact dynamic

/-- A module that begins to run, with the machine on which its statements run. -/
def begun (id : ModuleId) (m : Machine) : Machine :=
  { m with states := (id, .running) :: m.states, heap := m.heap.push none, roots := (id, m.heap.size) :: m.roots }

/-- What a module does once it has begun. -/
def runBegun (run : Task → Eval Value) (id : ModuleId) (m : LoadedModule) (ast : Module) (frame : FrameId) :
    Eval Unit := do
  let last ← guarded id (moduleStatements run ⟨id, frame⟩ .unit ast.statements)
  if m.isAssembly then
    setAssembly id last
  setState id .done

lemma runModule_eq {id : ModuleId} {loaded : LoadedModule} {ast : Module} {m : Machine} :
    runModule run id loaded ast m = runBegun run id loaded ast m.heap.size (begun id m) := rfl

lemma runBegun_keeps {id : ModuleId} {frame : FrameId} {m : LoadedModule} {ast : Module} (agree : Agree p base run run')
    (stands : Context.Stands p labels ⟨id, frame⟩ t scope)
    (settled : ∀ s ∈ ast.statements, s.Settled p t True scope false) :
    Keeps p base labels (runBegun run id m ast frame) (runBegun run' id m ast frame) fun _ _ => True := by
  have statements := moduleStatements_keeps agree stands settled Value.holds_unit
  refine (guarded_keeps statements).bind fun labels' v _ fits => ?_
  have finish {labels : Labels} : Keeps p base labels (setState id .done) (setState id .done) fun _ _ => True :=
    .change fun _ sound => sound.setState nofun
  split
  · exact (Keeps.change fun _ sound => sound.setAssembly fits).bind fun _ _ _ _ => finish
  · exact finish

/-- A usable module runs unless it has run before. -/
lemma ensureModule_keeps {id : ModuleId} (rest : p.AtRest) (agree : Agree p base run run') (usable : p.Usable id) :
    Keeps p base labels (ensureModule p run id) (ensureModule p run' id) fun _ _ => True := by
  obtain ⟨loaded, t, ast, found, resolved, fine, settled⟩ := rest.ready usable
  have known : p.resolvedOf id = some t := by rw [Program.resolvedOf, found, Option.bind_some, resolved]
  simp only [ensureModule, module_eq found, settled.parsed, fine, pure_bind, if_true]
  refine Keeps.look fun since m sound => ?_
  cases state : m.states.lookup id with
  | some s =>
    cases s with
    | running | done => exact Keeps.pure trivial since m sound
    | failed e => exact Keeps.fail (sound.failed state) since m sound
  | none =>
    show runModule run id loaded ast m = runModule run' id loaded ast m ∧
      Leaves p labels (fun _ _ => True) (runModule run id loaded ast m)
    rw [runModule_eq, runModule_eq]
    have begins := sound.begin known settled.nested state
    have grows : labels <+: labels ++ [(id, Scopes.root)] := List.prefix_append _ _
    have stands : Context.Stands p (labels ++ [(id, Scopes.root)]) ⟨id, m.heap.size⟩ t Scopes.root :=
      ⟨usable, known, by simp [← sound.heap.size]⟩
    have runs := runBegun_keeps (m := loaded) agree stands (settled.statements _ .refl rest.offers)
    obtain ⟨same, leaves⟩ := runs (since.trans grows) (begun id m) begins
    exact ⟨same, leaves.widen grows⟩

/-- A step of a task that fits does the same over evaluations that agree, and keeps the machine sound. -/
theorem step_keeps {task : Task} (rest : p.AtRest) (honest : p.hosts.Honest) (agree : Agree p base run run')
    (growing : Growing run) (fits : task.Fits p labels) : Keeps p base labels (step p run task) (step p run' task) (Value.Fits p) := by
  cases fits with
  | expr stands settled fits => exact expr_keeps rest agree stands settled fits
  | statement stands settled => exact statement_keeps rest agree stands settled
  | block stands settled fits => exact block_keeps agree stands settled fits
  | branch stands settled fits => exact branch_keeps agree stands settled fits
  | pipeline stands settled fits => exact pipeline_keeps agree stands settled fits
  | loop stands settled fits => exact loop_keeps rest agree growing stands settled fits
  | call callable fit fit' => exact call_keeps honest agree callable fit fit'
  | module usable => exact (ensureModule_keeps rest agree usable).bind fun _ _ _ _ => .pure Value.holds_unit

end Eval

end PipeLang
