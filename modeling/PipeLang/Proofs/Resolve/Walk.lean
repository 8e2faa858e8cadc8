import PipeLang.Proofs.Resolve.Imports

/-!
# The walk over a module

Resolving a piece of syntax is a walk over it that settles it. Each construct is shown for itself, from walks over its
pieces; `Expr.walks` and its companions put them together along the syntax.
-/

namespace PipeLang

open Resolve

/-- Wherever an expression stands, resolving it settles it. -/
def Expr.Walks (load : Loader) (e : Expr) : Prop :=
  ∀ (incoming : Option Ty) {r : Resolution} {hi : Nat}, r.Tidy → r.Ready e.span.start hi → e.span.stop ≤ hi →
    Walked load e.span.start e.span.stop r (after (expr load incoming e) r) fun f =>
      Expr.Settled f.program f.resolved f.Clean r.current incoming.isSome e

/-- Wherever a function literal stands, resolving it settles it. -/
def Lambda.Walks (load : Loader) (f : Lambda) : Prop :=
  ∀ {r : Resolution} {hi : Nat}, r.Tidy → r.Ready f.span.start hi → f.span.stop ≤ hi →
    Walked load f.span.start f.span.stop r (after (lambda load f) r) fun done =>
      Lambda.Settled done.program done.resolved done.Clean r.current f

/-- Wherever a block stands, resolving it settles it; its brace may touch what is before it. -/
def Block.Walks (load : Loader) (b : Block) : Prop :=
  ∀ (incoming : Option Ty) {r : Resolution} {hi : Nat}, r.Tidy → r.Ready (b.span.start + 1) hi → b.span.stop ≤ hi →
    Walked load b.span.start b.span.stop r (after (block load incoming b) r) fun f =>
      Block.Settled f.program f.resolved f.Clean r.current incoming.isSome b

/-- Wherever a statement stands, resolving it settles it. -/
def Statement.Walks (load : Loader) (s : Statement) : Prop :=
  ∀ (topLevel : Bool) (incoming : Option Ty) {r : Resolution} {hi : Nat}, (topLevel = true → r.current = Scopes.root) →
    r.Tidy → r.Ready s.span.start hi → s.span.stop ≤ hi →
    Walked load s.span.start s.span.stop r (after (statement load topLevel incoming s) r) fun f =>
      Statement.Settled f.program f.resolved f.Clean r.current incoming.isSome s

/-- Wherever a conditional stands, resolving it settles it. -/
def Branch.Walks (load : Loader) (b : Branch) : Prop :=
  ∀ (incoming : Option Ty) {r : Resolution} {hi : Nat}, r.Tidy → r.Ready b.span.start hi → b.span.stop ≤ hi →
    Walked load b.span.start b.span.stop r (after (branch load incoming b) r) fun f =>
      Branch.Settled f.program f.resolved f.Clean r.current incoming.isSome b

/-- Resolving what follows `else` between two offsets settles it. -/
def Alternative.Walks (load : Loader) (a : Alternative) : Prop :=
  ∀ (incoming : Option Ty) {r : Resolution} {lo stop hi : Nat}, Between lo stop a → r.Tidy → r.Ready lo hi →
    stop ≤ hi →
    Walked load lo stop r (after (alternative load incoming a) r) fun f =>
      Alternative.Settled f.program f.resolved f.Clean r.current incoming.isSome a

/-- Wherever a stage stands, resolving it settles it. -/
def Stage.Walks (load : Loader) (s : Stage) : Prop :=
  ∀ (incoming : Option Ty) {r : Resolution} {hi : Nat}, r.Tidy → r.Ready s.span.start hi → s.span.stop ≤ hi →
    Walked load s.span.start s.span.stop r (after (stage load incoming s) r) fun f =>
      Stage.Settled f.program f.resolved f.Clean r.current incoming.isSome s

/-- Wherever a loop stands, resolving it settles it. -/
def Loop.Walks (load : Loader) (l : Loop) : Prop :=
  ∀ (incoming : Option Ty) {r : Resolution} {hi : Nat}, r.Tidy → r.Ready l.span.start hi → l.span.stop ≤ hi →
    Walked load l.span.start l.span.stop r (after (loop load incoming l) r) fun f =>
      Loop.Settled f.program f.resolved f.Clean r.current incoming.isSome l

namespace Resolve

variable {load : Loader} {r r' : Resolution} {lo hi stop : Nat} {incoming : Option Ty}

/-- An expression is settled once its pieces are. -/
lemma settled_walked {e : Expr} (body : Resolve Ty) (keeps : load.KeepsOffers) (proper : e.span.Proper)
    (tidy : r.Tidy) (ready : r.Ready e.span.start hi) (inside : e.span.stop ≤ hi)
    (pieces : ∀ {r : Resolution}, r.Tidy → r.Ready e.span.start hi →
      Walked load e.span.start e.span.stop r (after body r) fun f =>
        Expr.Pieces f.program f.resolved f.Clean r.current incoming.isSome e) :
    Walked load e.span.start e.span.stop r (after (rejectIncoming incoming e >>= fun _ => body) r) fun f =>
      Expr.Settled f.program f.resolved f.Clean r.current incoming.isSome e := by
  have rejected : Quiet load r (after (rejectIncoming incoming e) r) _ := rejectIncoming_quiet
  have walked := pieces (rejected.tidy keeps tidy) (rejected.ready ready)
  have both := rejected.andThen walked
  refine ⟨both.moves, both.current, fun {f} fTidy later => ?_⟩
  obtain ⟨refused, settled⟩ := both.tells fTidy later
  rw [rejected.current] at settled
  have grows : r.scopes.Grows e.span.start f.scopes :=
    (both.moves.spread.later.trans (later.mono (Nat.le_of_lt proper))).scopes
  exact .mk (ready.enclosing tidy fTidy.nested grows proper (Nat.le_refl _) inside) refused settled

/-- Two expressions one behind the other. -/
lemma pair_walked {left right : Expr} (keeps : load.KeepsOffers) (leftWalks : left.Walks load)
    (rightWalks : right.Walks load) (leftProper : left.span.Proper) (rightProper : right.span.Proper)
    (apart : left.span.stop < right.span.start) (tidy : r.Tidy) (ready : r.Ready left.span.start hi)
    (inside : right.span.stop ≤ hi) :
    Walked load left.span.start right.span.stop r (after (expr load none right) (after (expr load none left) r))
      fun f => Expr.Settled f.program f.resolved f.Clean r.current false left ∧
        Expr.Settled f.program f.resolved f.Clean r.current false right := by
  simp only [Span.Proper] at leftProper rightProper
  have first := leftWalks none tidy ready (by omega)
  have second := rightWalks none (first.tidy keeps tidy) (first.ready tidy ready apart (by omega)) inside
  rw [first.current] at second
  exact first.seq second (by omega) (by omega) (by omega)

lemma exprs_walked (es : List Expr) (keeps : load.KeepsOffers) (walks : ∀ e ∈ es, e.Walks load)
    (order : Span.InOrder lo stop (es.map Expr.span)) (tidy : r.Tidy) (ready : r.Ready lo hi) (inside : stop ≤ hi) :
    Walked load lo stop r (after (exprs load es) r) fun f =>
      ∀ e ∈ es, Expr.Settled f.program f.resolved f.Clean r.current false e := by
  induction es generalizing r lo with
  | nil => exact Walked.skip.imp (by simp)
  | cons e es ih =>
    cases order with
    | cons le proper behind =>
      have := behind.le
      have proper' : e.span.start < e.span.stop := proper
      simp only [exprs, after_bind, after_pure]
      have ready' := ready.narrow le (Nat.le_refl _)
      have first := walks e List.mem_cons_self none tidy ready' (by omega)
      have rest := ih (fun e member => walks e (List.mem_cons_of_mem _ member)) behind (first.tidy keeps tidy)
        (first.ready tidy ready (Nat.lt_succ_self _) (by omega))
      rw [first.current] at rest
      refine ((first.widen le (Nat.le_refl _)).seq rest (by omega) (by omega) (by omega)).imp fun f ⟨one, others⟩ => ?_
      exact List.forall_mem_cons.2 ⟨one, others⟩

/-- The arguments of a call are resolved like the items of an array. -/
lemma after_arguments {args : List Argument} :
    after (arguments load args) r = after (exprs load (args.map Argument.value)) r := by
  induction args generalizing r with
  | nil => rfl
  | cons a args ih =>
    obtain ⟨name, value⟩ := a
    simp only [arguments, List.map_cons, exprs, after_bind, after_pure]
    exact ih

/-- Without an incoming value a stage is not called. -/
lemma after_stageType {site : Span} {found : Option (Target × Ty)} : after (stageType none site found) r = r := by
  cases found <;> rfl

/-- Syntax inside of a scope that is opened for it: the scope's range lies between two offsets, and the walk over the
syntax in it is one that ends outside. -/
lemma inside_walked {kind : ScopeKind} {range : Span} {m m' : Nat} {tells : Resolution → Prop} (tidy : r.Tidy)
    (keeps : load.KeepsOffers) (walked : Walked load m m' (after (enter kind range) r) r' tells) (le : range.start ≤ m)
    (within : m' ≤ range.stop) :
    Walked load range.start range.stop r { r' with current := r.current } fun f =>
      tells f ∧ f.scopes.Opens r.current r.scopes.nextScope := by
  let r₁ := after (enter kind range) r
  have entered : Move load range.start range.stop r r₁ := .enter (Nat.le_refl _) (Nat.le_refl _)
  have tidy₁ : r₁.Tidy := entered.tidy keeps tidy
  have path : r₁.scopes.path r₁.current = r₁.current :: r.scopes.path r.current := Scopes.path_push
  have inner : Moves load range.start range.stop r₁ r' := walked.moves.widen le within
  have path' : r'.scopes.path r'.current = r₁.current :: r.scopes.path r.current := by
    rw [walked.current]
    exact (inner.spread.scopes.path_eq tidy₁.current).trans path
  have left : Move load range.start range.stop r' { r' with current := r.current } :=
    .leave (by rw [path']; exact List.mem_cons_of_mem _ (tidy.nested.mem_self tidy.current))
  refine ⟨.tail (.head entered inner) left, rfl, fun {f} fTidy later => ?_⟩
  have later' : r'.Later range.stop f := { later with }
  refine ⟨walked.tells fTidy (later'.mono within), ?_⟩
  have grows : r₁.scopes.Grows 0 f.scopes := (inner.spread.scopes.mono (Nat.zero_le _)).trans
    (later'.scopes.mono (Nat.zero_le _))
  have outer : f.scopes.path r.current = r.scopes.path r.current :=
    (entered.spread.scopes.mono (Nat.zero_le _) |>.trans grows).path_eq tidy.current
  rw [Scopes.Opens, outer]
  exact (grows.path_eq tidy₁.current).trans path

/-- Inside of a scope that has been opened, a resolution is ready for what stands in it. -/
lemma enter_ready {kind : ScopeKind} {range : Span} (ready : r.Ready lo hi) (le : lo ≤ range.start + 1)
    (inside : range.stop ≤ hi) : (after (enter kind range) r).Ready (range.start + 1) range.stop := by
  have path : (after (enter kind range) r).scopes.path (after (enter kind range) r).current =
      r.scopes.nextScope :: r.scopes.path r.current := Scopes.path_push
  have ready := ready.narrow le inside
  refine { ready with closed := fun {id s} found outside => ?_, opened := fun {id s} found open_ => ?_ }
  · rw [path, List.mem_cons, not_or] at outside
    simp only [after_enter, Scopes.push, Array.getElem?_push] at found
    split at found
    · exact absurd ‹_› outside.1
    · exact ready.closed found outside.2
  · rw [path, List.mem_cons] at open_
    simp only [after_enter, Scopes.push, Array.getElem?_push] at found
    split at found
    · cases found
      exact Or.inr ⟨Nat.lt_succ_self _, Nat.le_refl _⟩
    · next old => exact ready.opened found (open_.resolve_left old)

/-- A walk behind a place declares nothing there. -/
lemma declarations_fresh_behind {site : Span} {m m' : Nat} {tells : Resolution → Prop} (ready : r.Ready lo hi)
    (from_ : lo ≤ site.start) (walked : Walked load m m' r r' tells) (behind : site.stop ≤ m) :
    r'.declarations.get? site = none := by
  by_contra known
  obtain ⟨x, known⟩ := Option.ne_none_iff_exists'.1 known
  rcases walked.moves.spread.declarations.placed known with old | ⟨-, start, -⟩
  · rw [declarations_fresh ready from_] at old
    cases old
  · omega

/-- The default of a parameter, if it has one. -/
def fallbackOf (load : Loader) (fallback : Option Expr) : Resolve Unit :=
  match fallback with
  | some e => do let _ ← expr load none e
  | none => pure ()

lemma after_params {name : Ident} {note : Option TypeNote} {fallback : Option Expr} {span : Span} {ps : List Param} :
    after (params load (⟨name, note, fallback, span⟩ :: ps)) r =
      after (params load ps) (after (declareInner name span.stop (TypeNote.orElse note .any) .parameter)
        (after (fallbackOf load fallback) r)) := by
  cases fallback <;> rfl

lemma fallback_walked {name : Ident} {note : Option TypeNote} {fallback : Option Expr} {span : Span}
    (ordered : Param.Ordered ⟨name, note, fallback, span⟩) (walks : ∀ e, fallback = some e → e.Walks load)
    (tidy : r.Tidy) (ready : r.Ready lo hi) (le : lo ≤ name.span.stop) (inside : span.stop ≤ hi) :
    Walked load name.span.stop span.stop r (after (fallbackOf load fallback) r) fun f =>
      ∀ e, fallback = some e → Expr.Settled f.program f.resolved f.Clean r.current false e := by
  cases ordered with
  | mk nameProper starts stops apart fallbackOrdered fallbackStops =>
    cases fallback with
    | none => exact Walked.skip.imp (by simp)
    | some e =>
      have := apart e rfl
      have := fallbackStops e rfl
      have walked := walks e rfl none tidy (ready.narrow (by omega) (Nat.le_refl _)) (by omega)
      refine (walked.widen (by omega) (by omega)).imp fun f settled e' same => ?_
      cases same
      exact settled

lemma params_walked {ps : List Param} (keeps : load.KeepsOffers)
    (walks : ∀ p ∈ ps, ∀ e, p.fallback = some e → e.Walks load) (ordered : ∀ p ∈ ps, p.Ordered)
    (order : Span.InOrder lo stop (ps.map Param.span)) (tidy : r.Tidy) (ready : r.Ready lo hi) (inside : stop ≤ hi) :
    Walked load lo stop r (after (params load ps) r) fun f =>
      ∀ p ∈ ps, Param.Settled f.program f.resolved f.Clean r.current p := by
  induction ps generalizing r lo with
  | nil => exact Walked.skip.imp (by simp)
  | cons p ps ih =>
    obtain ⟨name, note, fallback, span⟩ := p
    cases order with
    | cons le proper behind =>
      have proper' : span.start < span.stop := proper
      replace le : lo ≤ span.start := le
      replace behind : Span.InOrder (span.stop + 1) stop (ps.map Param.span) := behind
      have := behind.le
      have paramOrdered := ordered _ List.mem_cons_self
      obtain ⟨nameProper, starts, stops⟩ : name.span.start < name.span.stop ∧ span.start ≤ name.span.start ∧
          name.span.stop ≤ span.stop := by
        cases paramOrdered with
        | mk nameProper starts stops _ _ _ => exact ⟨nameProper, starts, stops⟩
      rw [after_params]
      have ready' : r.Ready span.start hi := ready.narrow le (Nat.le_refl _)
      have value := fallback_walked paramOrdered (walks _ List.mem_cons_self) tidy ready' (by omega) (by omega)
      have fresh := declarations_fresh_behind ready' starts value (Nat.le_refl _)
      have tidy₁ := value.tidy keeps tidy
      have current₁ := value.current
      generalize after (fallbackOf load fallback) r = r₁ at value fresh tidy₁ current₁ ⊢
      have declared : Declared load span.start span.stop span.stop r₁
          (after (declareInner name span.stop (TypeNote.orElse note .any) .parameter) r₁) r₁.current name.span :=
        declareInner_declared tidy₁ (by simp [Origin.IsImport]) fresh ⟨nameProper, by omega, stops⟩ (Nat.le_of_lt proper')
          (Nat.le_refl _)
      have first := (value.widen (by omega) (Nat.le_refl _)).seqLater declared.walked declared.later (Nat.le_refl _)
        (Nat.le_refl _)
      rw [current₁] at first
      have rest := ih (fun p member => walks p (List.mem_cons_of_mem _ member))
        (fun p member => ordered p (List.mem_cons_of_mem _ member)) behind (first.tidy keeps tidy)
        (first.ready tidy ready (Nat.lt_succ_self _) (by omega))
      rw [first.current] at rest
      refine ((first.widen le (Nat.le_refl _)).seq rest (by omega) (by omega) (by omega)).imp
        fun f told => ?_
      exact List.forall_mem_cons.2 ⟨.mk told.1.1 told.1.2, told.2⟩

/-- A scope that is opened keeps a resolution tidy. -/
lemma enter_tidy {kind : ScopeKind} {range : Span} (keeps : load.KeepsOffers) (tidy : r.Tidy) :
    (after (enter kind range) r).Tidy := by
  have entered : Move load range.start range.stop r (after (enter kind range) r) :=
    .enter (Nat.le_refl _) (Nat.le_refl _)
  exact entered.tidy keeps tidy

lemma lambda_walks {ps : List Param} {returns : Option TypeNote} {body : Expr} {span : Span}
    (keeps : load.KeepsOffers) (ordered : Lambda.Ordered ⟨ps, returns, body, span⟩)
    (paramsWalk : ∀ p ∈ ps, ∀ e, p.fallback = some e → e.Walks load) (bodyWalks : body.Walks load) :
    Lambda.Walks load ⟨ps, returns, body, span⟩ := by
  intro r hi tidy ready inside
  replace inside : span.stop ≤ hi := inside
  cases ordered with
  | @mk _ _ _ _ between order paramsOrdered apart bodyOrdered stops =>
    have proper : body.span.start < body.span.stop := bodyOrdered.proper
    have := order.le
    have tidy₁ : (after (enter .function span) r).Tidy := enter_tidy keeps tidy
    have ready₁ : (after (enter .function span) r).Ready (span.start + 1) span.stop :=
      enter_ready ready (Nat.le_succ _) inside
    have params := params_walked keeps paramsWalk paramsOrdered order tidy₁ ready₁ (by omega)
    have body := bodyWalks none (params.tidy keeps tidy₁) (params.ready tidy₁ ready₁ apart (by omega)) stops
    rw [params.current] at body
    have walked := inside_walked tidy keeps (params.seq body (by omega) (by omega) (by omega)) (Nat.le_succ _) stops
    exact walked.imp fun f ⟨⟨settled, bodySettled⟩, opens⟩ => .mk opens settled bodySettled

lemma blockStatements_walked (incoming : Option Ty) {ss : List Statement} (keeps : load.KeepsOffers) (walks : ∀ s ∈ ss, s.Walks load)
    (order : Span.InOrder lo stop (ss.map Statement.span)) (tidy : r.Tidy) (ready : r.Ready lo hi)
    (inside : stop ≤ hi) :
    Walked load lo stop r (after (blockStatements load incoming ss) r) fun f =>
      Statements.Settled f.program f.resolved f.Clean r.current incoming.isSome ss := by
  induction ss generalizing r lo with
  | nil => exact Walked.skip.imp fun _ _ => .nil
  | cons s ss ih =>
    cases order with
    | cons le proper behind =>
      have := behind.le
      have proper' : s.span.start < s.span.stop := proper
      have ready' := ready.narrow le (Nat.le_refl _)
      cases ss with
      | nil =>
        have last := walks s List.mem_cons_self false incoming nofun tidy ready' (by omega)
        exact (last.widen le (by omega)).imp fun _ settled => .last settled
      | cons next ss =>
        rw [blockStatements]
        · have first := walks s List.mem_cons_self false none nofun tidy ready' (by omega)
          have rest := ih (fun s member => walks s (List.mem_cons_of_mem _ member)) behind (first.tidy keeps tidy)
            (first.ready tidy ready (Nat.lt_succ_self _) (by omega))
          rw [first.current] at rest
          have both := (first.widen le (Nat.le_refl _)).seq rest (by omega) (by omega) (by omega)
          exact both.imp fun f ⟨settled, others⟩ => .cons settled others
        · simp

lemma block_walks {ss : List Statement} {span : Span} (keeps : load.KeepsOffers)
    (ordered : Block.Ordered ⟨ss, span⟩) (walks : ∀ s ∈ ss, s.Walks load) : Block.Walks load ⟨ss, span⟩ := by
  intro incoming r hi tidy ready inside
  cases ordered with
  | mk proper order statementsOrdered =>
    have rejected : Quiet load r (after (rejectTailless incoming ss span) r) _ := rejectTailless_quiet
    have tidy₀ := rejected.tidy keeps tidy
    have ready₀ := rejected.ready ready
    have current := rejected.current
    simp only [block, after_bind, after_pure, answer_enter, after_leave]
    generalize after (rejectTailless incoming ss span) r = r₀ at rejected tidy₀ ready₀ current ⊢
    have tidy₁ : (after (enter .block span) r₀).Tidy := enter_tidy keeps tidy₀
    have ready₁ : (after (enter .block span) r₀).Ready (span.start + 1) span.stop :=
      enter_ready ready₀ (Nat.le_refl _) inside
    have body := blockStatements_walked incoming keeps walks order tidy₁ ready₁ (Nat.le_refl _)
    have walked := rejected.andThen (inside_walked tidy₀ keeps body (Nat.le_succ _) (Nat.le_refl _))
    refine walked.imp fun f ⟨takes, settled, opens⟩ => ?_
    rw [current] at opens
    exact .mk opens takes settled

lemma statement_walks_expr {e : Expr} (walks : e.Walks load) : (Statement.expr e e.span).Walks load :=
  fun _ incoming _ _ _ tidy ready inside => (walks incoming tidy ready inside).imp fun _ settled => .expr settled

lemma statement_walks_import {i : Import} (keeps : load.KeepsOffers) (answers : load.Answers)
    (proper : i.span.Proper) : (Statement.importing i).Walks load :=
  fun _ _ _ _ top tidy ready _ => (importStatement_walked keeps answers tidy top ready proper).imp fun _ _ => .importing

lemma statement_walks_define {exported : Bool} {name : Ident} {value : Expr} {span : Span} (keeps : load.KeepsOffers)
    (ordered : (Statement.define exported name value span).Ordered) (walks : value.Walks load) :
    (Statement.define exported name value span).Walks load := by
  intro topLevel incoming r hi top tidy ready inside
  replace ready : r.Ready span.start hi := ready
  replace inside : span.stop ≤ hi := inside
  cases ordered with
  | define starts nameProper apart valueOrdered stops =>
    have proper : value.span.start < value.span.stop := valueOrdered.proper
    have nameProper' : name.span.start < name.span.stop := nameProper
    have refused : Quiet load r (after (refuseNested exported topLevel span) r) _ := refuseNested_quiet
    have tidy₀ := refused.tidy keeps tidy
    have ready₀ := refused.ready ready
    have current := refused.current
    simp only [statement, after_bind, after_pure]
    generalize after (refuseNested exported topLevel span) r = r₀ at refused tidy₀ ready₀ current ⊢
    have settled := walks none tidy₀ (ready₀.narrow (by omega) (Nat.le_refl _)) (by omega)
    have fresh := declarations_fresh_behind ready₀ starts settled (Nat.le_of_lt apart)
    have declared : Declared load span.start span.stop span.stop _
        (after (define exported topLevel name value.isLambda (answer (expr load none value) r₀) span) _) _ name.span :=
      define_declared (settled.tidy keeps tidy₀) (fun here => (settled.current.trans current).trans (top here)) fresh ⟨nameProper, by omega, by omega⟩ (by omega) (Nat.le_refl _)
    rw [settled.current, current] at declared
    rw [current] at settled
    have both := (settled.widen (by omega) stops).seqLater declared.walked declared.later (Nat.le_refl _) (Nat.le_refl _)
    exact (refused.andThen both).imp fun f ⟨_, valueSettled, declares⟩ => .define valueSettled declares

lemma branch_walks {condition : Expr} {consequence : Block} {other : Alternative} {span : Span}
    (keeps : load.KeepsOffers) (ordered : Branch.Ordered ⟨condition, consequence, other, span⟩)
    (conditionWalks : condition.Walks load) (consequenceWalks : consequence.Walks load)
    (alternativeWalks : other.Walks load) : Branch.Walks load ⟨condition, consequence, other, span⟩ := by
  intro incoming r hi tidy ready inside
  cases ordered with
  | mk starts conditionOrdered touches consequenceOrdered stops between =>
    have := conditionOrdered.proper
    have := consequenceOrdered.proper
    simp only [Span.Proper] at *
    replace ready : r.Ready span.start hi := ready
    replace inside : span.stop ≤ hi := inside
    have first := conditionWalks none tidy (ready.narrow (by omega) (Nat.le_refl _)) (by omega)
    have tidy₁ := first.tidy keeps tidy
    have ready₁ := first.ready tidy ready (Nat.lt_succ_of_le touches) (by omega)
    have second := consequenceWalks incoming tidy₁ ready₁ (by omega)
    have tidy₂ := second.tidy keeps tidy₁
    have third := alternativeWalks incoming between tidy₂ (second.ready tidy₁ ready₁ (Nat.lt_succ_self _) (by omega))
      inside
    rw [second.current, first.current] at third
    rw [first.current] at second
    have blocks := second.seq third (Nat.le_succ _) (by omega) stops
    have all := (first.widen (Nat.le_of_lt starts) (Nat.le_refl _)).seq blocks touches (by omega) (by omega)
    exact all.imp fun f ⟨settled, taken, otherwise⟩ => .mk settled taken otherwise

/-- The tag of a stage, if it has one. -/
def tagOf (tag : Option Ident) (visibleFrom : Nat) (ty : Ty) : Resolve Unit :=
  match tag with
  | some tag => declareTag tag visibleFrom ty
  | none => pure ()

lemma tag_walked {tag : Option Ident} (load : Loader) (ty : Ty) (between : Ident.TagBetween lo stop tag) (tidy : r.Tidy)
    (ready : r.Ready lo hi) : Walked load lo stop r (after (tagOf tag stop ty) r) fun f =>
      f.Clean → ∀ name, tag = some name → f.resolved.Declares r.current name.span stop := by
  cases between with
  | none => exact Walked.skip.imp (by simp)
  | @some tag starts proper stops =>
    have proper' : tag.span.start < tag.span.stop := proper
    have declared : Declared load lo stop stop r (after (declareTag tag stop ty) r) r.current tag.span :=
      declareTag_declared tidy (declarations_fresh ready starts) ⟨proper, by omega, stops⟩ (by omega) (Nat.le_refl _)
    refine declared.walked.imp fun f declares clean name same => ?_
    cases same
    exact declares clean

/-- A stage whose value is made by an expression, with the tag behind it. -/
lemma tagged_walked {e : Expr} {tag : Option Ident} {span : Span} {ty : Ty} (keeps : load.KeepsOffers)
    (ordered : e.Ordered) (starts : span.start ≤ e.span.start) (stops : e.span.stop ≤ span.stop)
    (between : Ident.TagBetween (e.span.stop + 1) span.stop tag) (walks : e.Walks load) (tidy : r.Tidy)
    (ready : r.Ready span.start hi) (inside : span.stop ≤ hi) :
    Walked load span.start span.stop r (after (tagOf tag span.stop ty) (after (expr load incoming e) r)) fun f =>
      Expr.Settled f.program f.resolved f.Clean r.current incoming.isSome e ∧
        (f.Clean → ∀ name, tag = some name → f.resolved.Declares r.current name.span span.stop) := by
  have proper : e.span.start < e.span.stop := ordered.proper
  have first := walks incoming tidy (ready.narrow starts (Nat.le_refl _)) (by omega)
  have second := tag_walked load ty between (first.tidy keeps tidy)
    (first.ready tidy ready (Nat.lt_succ_self _) (by omega))
  rw [first.current] at second
  exact (first.widen starts (Nat.le_refl _)).seq second (Nat.le_succ _) (by omega) stops

lemma stage_walks_expr {e : Expr} {tag : Option Ident} {span : Span} (keeps : load.KeepsOffers)
    (ordered : (Stage.expr e tag span).Ordered) (walks : e.Walks load) : (Stage.expr e tag span).Walks load := by
  intro incoming r hi tidy ready inside
  have unfolded : after (stage load incoming (.expr e tag span)) r =
      after (tagOf tag span.stop (answer (expr load incoming e) r)) (after (expr load incoming e) r) := by
    cases tag <;> rfl
  rw [unfolded]
  cases ordered with
  | expr starts ordered stops between =>
    exact (tagged_walked keeps ordered starts stops between walks tidy ready inside).imp
      fun f ⟨settled, declares⟩ => .expr settled declares

lemma stage_walks_operator {op : BinaryOp} {e : Expr} {tag : Option Ident} {span : Span} (keeps : load.KeepsOffers)
    (ordered : (Stage.operator op e tag span).Ordered) (walks : e.Walks load) :
    (Stage.operator op e tag span).Walks load := by
  intro incoming r hi tidy ready inside
  have unfolded : after (stage load incoming (.operator op e tag span)) r =
      after (tagOf tag span.stop (op.resultType (incoming.getD .any) (answer (expr load none e) r)))
        (after (expr load none e) r) := by
    cases tag <;> rfl
  rw [unfolded]
  cases ordered with
  | operator starts ordered stops between =>
    exact (tagged_walked keeps ordered (Nat.le_of_lt starts) stops between walks tidy ready inside).imp
      fun f ⟨settled, declares⟩ => .operator settled declares

lemma stages_walked (incoming : Option Ty) {ss : List Stage} (keeps : load.KeepsOffers) (walks : ∀ s ∈ ss, s.Walks load)
    (order : Span.InOrder lo stop (ss.map Stage.span)) (tidy : r.Tidy) (ready : r.Ready lo hi)
    (inside : stop ≤ hi) :
    Walked load lo stop r (after (stages load incoming ss) r) fun f =>
      Stages.Settled f.program f.resolved f.Clean r.current incoming.isSome ss := by
  induction ss generalizing r lo incoming with
  | nil => exact Walked.skip.imp fun _ _ => .nil
  | cons s ss ih =>
    cases order with
    | cons le proper behind =>
      have := behind.le
      have proper' : s.span.start < s.span.stop := proper
      simp only [stages, after_bind]
      have first := walks s List.mem_cons_self incoming tidy (ready.narrow le (Nat.le_refl _)) (by omega)
      have rest := ih (some (answer (stage load incoming s) r)) (fun s member => walks s (List.mem_cons_of_mem _ member)) behind (first.tidy keeps tidy)
        (first.ready tidy ready (Nat.lt_succ_self _) (by omega))
      rw [first.current] at rest
      have both := (first.widen le (Nat.le_refl _)).seq rest (by omega) (by omega) (by omega)
      exact both.imp fun f ⟨settled, others⟩ => .cons settled others

/-- The tags that a loop collects may be stored around it: each crosses its body. -/
lemma loopTags_stored {f : Resolution} {site : Span} {scope inner : ScopeId} (tidy : f.Tidy)
    (known : (inner, site) ∈ f.loopSites) (opens : f.scopes.Opens scope inner) (inside : scope < f.scopes.scopes.size)
    {tags : List BindingId} (collected : f.resolved.loopTags.get? site = some tags) :
    ∀ tag ∈ tags, f.resolved.scopes.Collects scope inner tag := by
  intro tag member
  obtain ⟨loop, b, known', found, crossed⟩ := tidy.loopTags collected tag member
  obtain rfl := tidy.loopSites known known'
  obtain ⟨outer, rest, path, stored⟩ := tidy.crosses found inner crossed
  obtain ⟨behind, scopePath⟩ := tidy.nested.path_head inside
  rw [opens, scopePath, List.cons.injEq, List.cons.injEq] at path
  rw [← path.2.1] at stored
  exact ⟨b, found, stored.imp Eq.symm id, crossed⟩

lemma loop_after {sequence : Expr} {binding : Ident} {body : List Stage} {bodySpan span : Span} :
    after (loop load incoming ⟨sequence, binding, ⟨body, bodySpan⟩, span⟩) r =
      let r₁ := after (expr load none sequence) r
      let r₂ := after (enter .loopBody ⟨binding.span.start, span.stop⟩) r₁
      let r₃ := { r₂ with loopSites := (r₂.current, span) :: r₂.loopSites }
      let ty := (answer (expr load none sequence) r).element
      { after (stages load incoming body) (after (declareInner binding binding.span.stop ty .loopVariable) r₃) with
        current := r₁.current } := by
  cases incoming <;> rfl

/-- What is known of loops before another one is no loop at its place, and has another scope. -/
lemma loopSites_fresh {span : Span} {m m' : Nat} {tells : Resolution → Prop} (keeps : load.KeepsOffers) (tidy : r.Tidy)
    (ready : r.Ready span.start hi) (walked : Walked load m m' r r' tells) (inner : m' < span.stop) :
    ∀ known ∈ r'.loopSites, known.1 ≠ r'.scopes.nextScope ∧ known.2 ≠ span := by
  refine fun known member => ⟨Nat.ne_of_lt ((walked.tidy keeps tidy).loopScopes member), ?_⟩
  rintro rfl
  rcases walked.moves.spread.newLoop member with old | ⟨-, -, stop⟩
  · exact Nat.lt_irrefl _ (ready.loopSites old)
  · omega

/-- The scope of a loop body, which is known to be that of the loop. -/
def openLoop (r : Resolution) (binding : Ident) (span : Span) : Resolution :=
  let r' := after (enter .loopBody ⟨binding.span.start, span.stop⟩) r
  { r' with loopSites := (r'.current, span) :: r'.loopSites }

/-- In the scope of a loop body its variable is declared first, and a resolution is ready for it. -/
lemma openLoop_ready {binding : Ident} {span : Span} (keeps : load.KeepsOffers) (tidy : r.Tidy)
    (ready : r.Ready binding.span.start hi) (starts : span.start < binding.span.start) (proper : binding.span.Proper)
    (stops : binding.span.stop < span.stop) (inside : span.stop ≤ hi)
    (newLoop : ∀ known ∈ r.loopSites, known.1 ≠ r.scopes.nextScope ∧ known.2 ≠ span) (ty : Ty) :
    Move load binding.span.start span.stop (after (enter .loopBody ⟨binding.span.start, span.stop⟩) r)
        (openLoop r binding span) ∧
      (openLoop r binding span).Tidy ∧ (openLoop r binding span).Ready (binding.span.start + 1) span.stop ∧
      Declared load binding.span.start binding.span.stop binding.span.stop (openLoop r binding span)
        (after (declareInner binding binding.span.stop ty .loopVariable) (openLoop r binding span))
        (openLoop r binding span).current binding.span := by
  have proper' : binding.span.start < binding.span.stop := proper
  let range : Span := ⟨binding.span.start, span.stop⟩
  have entered : (after (enter .loopBody range) r).Ready (range.start + 1) range.stop :=
    enter_ready ready (Nat.le_succ _) inside
  have opened : Move load binding.span.start span.stop (after (enter .loopBody range) r) (openLoop r binding span) :=
    .loop ⟨by omega, by omega, Nat.le_refl _⟩ newLoop
  have tidy' : (openLoop r binding span).Tidy := opened.tidy keeps (enter_tidy keeps tidy)
  refine ⟨opened, tidy', { entered with loopSites := fun {known} member => ?_ }, ?_⟩
  · rcases List.mem_cons.1 member with rfl | member
    · show span.start < _
      omega
    · exact entered.loopSites member
  · have fresh : r.declarations.get? binding.span = none := declarations_fresh ready (Nat.le_refl _)
    exact declareInner_declared tidy' (by simp [Origin.IsImport]) fresh ⟨proper', proper', Nat.le_refl _⟩
      (Nat.le_of_lt proper') (Nat.le_refl _)

lemma loop_walks {sequence : Expr} {binding : Ident} {body : List Stage} {bodySpan span : Span}
    (keeps : load.KeepsOffers) (ordered : Loop.Ordered ⟨sequence, binding, ⟨body, bodySpan⟩, span⟩)
    (sequenceWalks : sequence.Walks load) (stagesWalk : ∀ s ∈ body, s.Walks load) :
    Loop.Walks load ⟨sequence, binding, ⟨body, bodySpan⟩, span⟩ := by
  intro incoming r hi tidy ready inside
  replace ready : r.Ready span.start hi := ready
  replace inside : span.stop ≤ hi := inside
  cases ordered with
  | mk starts sequenceOrdered apart bindingProper before bodyOrdered stops =>
    cases bodyOrdered with
    | mk bodyProper order stagesOrdered =>
      have sequenceProper := sequenceOrdered.proper
      simp only [Span.Proper] at *
      have first := sequenceWalks none tidy (ready.narrow (by omega) (Nat.le_refl _)) (by omega)
      have tidy₁ := first.tidy keeps tidy
      have ready₁ : (after (expr load none sequence) r).Ready binding.span.start hi :=
        first.ready tidy ready apart (by omega)
      have newLoop := loopSites_fresh keeps tidy ready first (by omega)
      let ty := (answer (expr load none sequence) r).element
      have current₁ := first.current
      rw [loop_after]
      generalize after (expr load none sequence) r = r₁ at first tidy₁ ready₁ newLoop current₁ ⊢
      obtain ⟨opened, tidy₃, ready₃, declared⟩ :=
        openLoop_ready keeps tidy₁ ready₁ (by omega) bindingProper (by omega) inside newLoop ty
      let r₂ := after (enter .loopBody ⟨binding.span.start, span.stop⟩) r₁
      let r₃ := openLoop r₁ binding span
      have chain := stages_walked incoming keeps stagesWalk order (declared.walked.tidy keeps tidy₃)
        (declared.walked.ready tidy₃ ready₃ before (by omega)) stops
      rw [declared.walked.current] at chain
      have inner := declared.walked.seq chain (by omega) (by omega) (by omega)
      have opened' : Walked load binding.span.start span.stop r₂ _ fun f =>
          (r₂.current, span) ∈ f.loopSites ∧ ((f.Clean → f.resolved.Declares r₃.current binding.span binding.span.stop) ∧
            Stages.Settled f.program f.resolved f.Clean r₃.current incoming.isSome _) :=
        ⟨.head opened (inner.moves.widen (Nat.le_refl _) stops), inner.current, fun fTidy later =>
          ⟨later.loopSites (inner.moves.spread.loopSites List.mem_cons_self), inner.tells fTidy (later.mono stops)⟩⟩
      have second : Walked load binding.span.start span.stop r₁ _ _ := inside_walked tidy₁ keeps opened' (Nat.le_refl _) (Nat.le_refl _)
      have both := (first.widen (Nat.le_of_lt starts) (Nat.le_refl _)).seq second (Nat.le_of_lt apart) (by omega)
        (by omega)
      refine ⟨both.moves, both.current, fun {f} fTidy later => ?_⟩
      obtain ⟨settled, ⟨known, declares, chain⟩, opens⟩ := both.tells fTidy later
      rw [current₁] at opens
      have within : r.current < f.scopes.scopes.size := Nat.lt_of_lt_of_le tidy.current
        ((both.moves.spread.scopes.mono (Nat.zero_le _)).trans (later.scopes.mono (Nat.zero_le _))).scopes_size_le
      exact .mk settled opens declares chain fun tags collected => loopTags_stored fTidy known opens within collected

end Resolve

end PipeLang
