import PipeLang.Proofs.Resolve.Walk

/-!
# Resolved modules

Every piece of ordered syntax walks, and so a module that has been resolved is settled: `module_settled`.
-/

namespace PipeLang

namespace Resolve

variable {load : Loader} {r r' : Resolution} {lo hi stop : Nat} {incoming : Option Ty}

lemma expr_walks_name {ident : Ident} (keeps : load.KeepsOffers) (proper : ident.span.Proper) :
    (Expr.name ident).Walks load := by
  intro incoming r hi tidy ready inside
  refine settled_walked _ keeps proper tidy ready inside fun {r} tidy ready => ?_
  have use : NameUse load r ident _ _ := useName_use ident tidy
  have walked := use.walked tidy ready proper (Nat.le_refl _) inside
  exact (walked.andQuiet stageType_quiet).imp fun f ⟨⟨answers, recorded⟩, passes⟩ =>
    .name answers (fun clean => (recorded clean).isSome) fun clean given =>
      (recorded clean).admits (passes clean given)

lemma expr_walks_path {head : Ident} {rest : List Ident} {span : Span} (keeps : load.KeepsOffers)
    (ordered : (Expr.path head rest span).Ordered) : (Expr.path head rest span).Walks load := by
  intro incoming r hi tidy ready inside
  refine settled_walked _ keeps ordered.proper tidy ready inside fun {r} tidy ready => ?_
  cases ordered with
  | path proper starts stops =>
    have use := usePath_walked rest tidy ready proper starts stops (Nat.le_refl _) inside keeps
    exact (use.andQuiet stageType_quiet).imp fun f ⟨⟨answers, recorded, follows⟩, passes⟩ =>
      .path answers (fun clean => (recorded clean).isSome) follows fun clean given =>
        (recorded clean).admits (passes clean given)

lemma expr_walks_literal {value : Literal} {span : Span} (keeps : load.KeepsOffers) (proper : span.Proper) :
    (Expr.literal value span).Walks load := by
  intro incoming r hi tidy ready inside
  exact settled_walked _ keeps proper tidy ready inside fun _ _ => Walked.skip.imp fun _ _ => .literal

lemma expr_walks_array {items : List Expr} {span : Span} (keeps : load.KeepsOffers)
    (ordered : (Expr.array items span).Ordered) (walks : ∀ e ∈ items, e.Walks load) :
    (Expr.array items span).Walks load := by
  intro incoming r hi tidy ready inside
  refine settled_walked _ keeps ordered.proper tidy ready inside fun {r} tidy ready => ?_
  cases ordered with
  | array proper order itemsOrdered =>
    have walked := exprs_walked items keeps walks order tidy (ready.narrow (Nat.le_succ _) (Nat.le_refl _)) inside
    exact (walked.widen (Nat.le_succ _) (Nat.le_refl _)).imp fun f settled => .array settled

/-- An expression that is made up of two others. -/
lemma expr_walks_pair {e left right : Expr} (keeps : load.KeepsOffers) (proper : e.span.Proper)
    (starts : e.span.start ≤ left.span.start) (leftOrdered : left.Ordered)
    (apart : left.span.stop < right.span.start) (rightOrdered : right.Ordered) (stops : right.span.stop ≤ e.span.stop)
    (leftWalks : left.Walks load) (rightWalks : right.Walks load)
    (unfolded : ∀ incoming r, after (expr load incoming e) r =
      after (expr load none right) (after (expr load none left) (after (rejectIncoming incoming e) r)))
    (pieces : ∀ {program t clean scope receives}, Expr.Settled program t clean scope false left →
      Expr.Settled program t clean scope false right → Expr.Pieces program t clean scope receives e) : e.Walks load := by
  intro incoming r hi tidy ready inside
  rw [unfolded]
  let body : Resolve Ty := do
    let _ ← expr load none left
    expr load none right
  refine settled_walked body keeps proper tidy ready inside fun {r} tidy ready => ?_
  have walked := pair_walked keeps leftWalks rightWalks leftOrdered.proper rightOrdered.proper apart tidy
    (ready.narrow starts (Nat.le_refl _)) (Nat.le_trans stops inside)
  exact (walked.widen starts stops).imp fun f ⟨one, other⟩ => pieces one other

lemma expr_walks_unary {op : UnaryOp} {operand : Expr} {span : Span} (keeps : load.KeepsOffers)
    (ordered : (Expr.unary op operand span).Ordered) (walks : operand.Walks load) :
    (Expr.unary op operand span).Walks load := by
  intro incoming r hi tidy ready inside
  refine settled_walked _ keeps ordered.proper tidy ready inside fun {r} tidy ready => ?_
  cases ordered with
  | unary starts operandOrdered stops =>
    have walked := walks none tidy (ready.narrow (Nat.le_of_lt starts) (Nat.le_refl _)) (Nat.le_trans stops inside)
    exact (walked.widen (Nat.le_of_lt starts) stops).imp fun f settled => .unary settled

/-- The callee of a call; a name or path is not taken for a stage. -/
def calleeOf (load : Loader) (callee : Expr) : Resolve (Option (Target × Ty)) :=
  match callee with
  | .name ident => useName ident
  | .path head rest span => usePath head rest span
  | other => do
    let ty ← expr load none other
    pure (some (.invalid, ty))

/-- The callee of a call is resolved like any expression. -/
lemma after_calleeOf {callee : Expr} : after (calleeOf load callee) r = after (expr load none callee) r := by
  cases callee with
  | name ident => exact after_stageType.symm
  | path head rest span => exact after_stageType.symm
  | _ => rfl

/-- Resolving a callee settles it, and what a name or path denotes is what is recorded of it. -/
lemma calleeOf_walked {callee : Expr} (keeps : load.KeepsOffers) (ordered : callee.Ordered) (walks : callee.Walks load)
    (tidy : r.Tidy) (ready : r.Ready callee.span.start hi) (inside : callee.span.stop ≤ hi) :
    Walked load callee.span.start callee.span.stop r (after (calleeOf load callee) r) fun f =>
      Expr.Settled f.program f.resolved f.Clean r.current false callee ∧
        (f.Clean → ∀ use, callee.useSite? = some use → f.Recorded use (answer (calleeOf load callee) r)) := by
  have settled := walks none tidy ready inside
  rw [← after_calleeOf] at settled
  refine { settled with tells := fun {f} fTidy later => ⟨settled.tells fTidy later, ?_⟩ }
  intro clean use same
  cases ordered with
  | @name ident proper =>
    cases same
    have used : NameUse load r ident _ _ := useName_use ident tidy
    exact ((used.walked tidy ready proper (Nat.le_refl _) inside).tells fTidy later).2 clean
  | @path head rest span proper starts stops =>
    cases same
    exact ((usePath_walked rest tidy ready proper starts stops (Nat.le_refl _) inside keeps).tells fTidy later).2.1 clean
  | _ => cases same

/-- What is left of a call behind its callee and its arguments. -/
def checkCall (incoming : Option Ty) (args : List Argument) (span : Span) : Option (Target × Ty) → Resolve Ty
  | some (target, ty) => do
    checkHostCall target (positionalCount args incoming) (keywordNames args) span
    return ty.result
  | none => return .any

lemma checkCall_quiet {args : List Argument} {span : Span} {found : Option (Target × Ty)} :
    Quiet load r (after (checkCall incoming args span found) r) fun f => f.Clean → ∀ known, found = some known →
      known.1.Admits f.program.hosts (positionalCount args incoming) (keywordNames args) span := by
  cases found with
  | none => exact Quiet.skip.imp (by simp)
  | some known =>
    refine checkHostCall_quiet.imp fun f admits clean _ same => ?_
    cases same
    exact admits clean

lemma expr_call {callee : Expr} {args : List Argument} {span : Span} :
    expr load incoming (.call callee args span) = rejectIncoming incoming (.call callee args span) >>= fun _ =>
      calleeOf load callee >>= fun found => arguments load args >>= fun _ => checkCall incoming args span found := by
  cases callee <;> rfl

lemma expr_walks_call {callee : Expr} {args : List Argument} {span : Span} (keeps : load.KeepsOffers)
    (ordered : (Expr.call callee args span).Ordered) (calleeWalks : callee.Walks load)
    (argsWalk : ∀ a ∈ args, a.value.Walks load) : (Expr.call callee args span).Walks load := by
  intro incoming r hi tidy ready inside
  rw [expr_call]
  refine settled_walked _ keeps ordered.proper tidy ready inside fun {r} tidy ready => ?_
  cases ordered with
  | call starts calleeOrdered before order argsOrdered =>
    replace inside : span.stop ≤ hi := inside
    replace ready : r.Ready span.start hi := ready
    have proper : callee.span.start < callee.span.stop := calleeOrdered.proper
    simp only [after_bind, after_arguments]
    have first := calleeOf_walked keeps calleeOrdered calleeWalks tidy (ready.narrow starts (Nat.le_refl _)) (by omega)
    have second := exprs_walked (args.map Argument.value) keeps (by simpa using argsWalk) (by rwa [List.map_map])
      (first.tidy keeps tidy) (first.ready tidy ready (Nat.lt_succ_self _) (by omega)) inside
    rw [first.current] at second
    have both := (first.widen starts (Nat.le_refl _)).seq second (Nat.le_succ _) (by omega) (Nat.le_of_lt before)
    refine (both.andQuiet checkCall_quiet).imp fun f ⟨⟨⟨settled, recorded⟩, argsSettled⟩, passes⟩ =>
      .call settled (by simpa using argsSettled) fun clean use same => ?_
    have count : args.countP (fun a => a.name.isNone) + incoming.isSome.toNat = positionalCount args incoming := by
      cases incoming <;> rfl
    rw [count]
    exact (recorded clean use same).admits (passes clean)

lemma expr_walks_lambda {f : Lambda} (keeps : load.KeepsOffers) (ordered : f.Ordered) (walks : f.Walks load) :
    (Expr.lambda f).Walks load := by
  intro incoming r hi tidy ready inside
  exact settled_walked _ keeps ordered.proper tidy ready inside fun tidy ready =>
    (walks tidy ready inside).imp fun _ settled => .lambda settled

lemma expr_walks_block {b : Block} (keeps : load.KeepsOffers) (ordered : b.Ordered) (walks : b.Walks load) :
    (Expr.block b).Walks load := by
  intro incoming r hi tidy ready inside
  exact settled_walked _ keeps ordered.proper tidy ready inside fun tidy ready =>
    (walks incoming tidy (ready.narrow (Nat.le_succ _) (Nat.le_refl _)) inside).imp fun _ settled => .block settled

lemma expr_walks_branch {b : Branch} (keeps : load.KeepsOffers) (ordered : b.Ordered) (walks : b.Walks load) :
    (Expr.branch b).Walks load := by
  intro incoming r hi tidy ready inside
  exact settled_walked _ keeps ordered.proper tidy ready inside fun tidy ready =>
    (walks incoming tidy ready inside).imp fun _ settled => .branch settled

lemma expr_walks_pipeline {body : List Stage} {span : Span} (keeps : load.KeepsOffers)
    (ordered : Pipeline.Ordered ⟨body, span⟩) (walks : ∀ s ∈ body, s.Walks load) :
    (Expr.pipeline ⟨body, span⟩).Walks load := by
  intro incoming r hi tidy ready inside
  refine settled_walked _ keeps ordered.proper tidy ready inside fun {r} tidy ready => ?_
  cases ordered with
  | mk proper order stagesOrdered =>
    exact (stages_walked _ keeps walks order tidy ready inside).imp fun _ settled => .pipeline settled

lemma expr_walks_loop {l : Loop} (keeps : load.KeepsOffers) (ordered : l.Ordered) (walks : l.Walks load) :
    (Expr.loop l).Walks load := by
  intro incoming r hi tidy ready inside
  exact settled_walked _ keeps ordered.proper tidy ready inside fun tidy ready =>
    (walks incoming tidy ready inside).imp fun _ settled => .loop settled

end Resolve

open Resolve

section

variable {load : Loader} (keeps : load.KeepsOffers) (answers : load.Answers)
include keeps answers

set_option linter.unusedSectionVars false in
mutual

/-- Resolving an expression settles it. -/
theorem Expr.walks (e : Expr) (ordered : e.Ordered) : e.Walks load :=
  match e with
  | .name ident => by
    cases ordered with
    | name proper => exact expr_walks_name keeps proper
  | .path head rest span => expr_walks_path keeps ordered
  | .literal value span => expr_walks_literal keeps ordered.proper
  | .array items span => by
    have inner : ∀ e ∈ items, e.Ordered := by
      cases ordered with
      | array _ _ inner => exact inner
    exact expr_walks_array keeps ordered (Expr.all_walk items inner)
  | .range start stop inclusive span => by
    have proper := ordered.proper
    cases ordered with
    | range starts first apart last stops =>
      exact expr_walks_pair keeps proper (Nat.le_of_lt starts) first apart last stops (Expr.walks start first)
        (Expr.walks stop last) (fun _ _ => rfl) .range
  | .binary op left right span => by
    have proper := ordered.proper
    cases ordered with
    | binary starts first apart last stops =>
      exact expr_walks_pair keeps proper starts first apart last stops (Expr.walks left first)
        (Expr.walks right last) (fun _ _ => rfl) .binary
  | .unary op operand span => by
    have inner : operand.Ordered := by
      cases ordered with
      | unary _ inner _ => exact inner
    exact expr_walks_unary keeps ordered (Expr.walks operand inner)
  | .call callee args span => by
    obtain ⟨calleeOrdered, argsOrdered⟩ : callee.Ordered ∧ ∀ a ∈ args, a.value.Ordered := by
      cases ordered with
      | call _ calleeOrdered _ _ argsOrdered => exact ⟨calleeOrdered, argsOrdered⟩
    exact expr_walks_call keeps ordered (Expr.walks callee calleeOrdered) (Argument.all_walk args argsOrdered)
  | .index base index span => by
    have proper := ordered.proper
    cases ordered with
    | index starts first apart last stops =>
      exact expr_walks_pair keeps proper starts first apart last stops (Expr.walks base first)
        (Expr.walks index last) (fun _ _ => rfl) .index
  | .lambda f => by
    cases ordered with
    | lambda inner => exact expr_walks_lambda keeps inner (Lambda.walks f inner)
  | .block b => by
    cases ordered with
    | block inner => exact expr_walks_block keeps inner (Block.walks b inner)
  | .branch b => by
    cases ordered with
    | branch inner => exact expr_walks_branch keeps inner (Branch.walks b inner)
  | .pipeline ⟨body, span⟩ => by
    cases ordered with
    | pipeline inner =>
      have stagesOrdered : ∀ s ∈ body, s.Ordered := by
        cases inner with
        | mk _ _ stagesOrdered => exact stagesOrdered
      exact expr_walks_pipeline keeps inner (Stage.all_walk body stagesOrdered)
  | .loop l => by
    cases ordered with
    | loop inner => exact expr_walks_loop keeps inner (Loop.walks l inner)
termination_by structural e

/-- Resolving any of some expressions settles it. -/
theorem Expr.all_walk (es : List Expr) (ordered : ∀ e ∈ es, e.Ordered) : ∀ e ∈ es, e.Walks load :=
  match es with
  | [] => nofun
  | e :: es =>
    List.forall_mem_cons.2 ⟨Expr.walks e (ordered e List.mem_cons_self),
      Expr.all_walk es fun e member => ordered e (List.mem_cons_of_mem _ member)⟩
termination_by structural es

/-- Resolving the value of any argument settles it. -/
theorem Argument.all_walk (args : List Argument) (ordered : ∀ a ∈ args, a.value.Ordered) :
    ∀ a ∈ args, a.value.Walks load :=
  match args with
  | [] => nofun
  | ⟨_, value⟩ :: args =>
    List.forall_mem_cons.2 ⟨Expr.walks value (ordered _ List.mem_cons_self),
      Argument.all_walk args fun a member => ordered a (List.mem_cons_of_mem _ member)⟩
termination_by structural args

/-- Resolving the default of any parameter settles it. -/
theorem Param.all_walk (ps : List Param) (ordered : ∀ p ∈ ps, p.Ordered) :
    ∀ p ∈ ps, ∀ e, p.fallback = some e → e.Walks load :=
  match ps with
  | [] => nofun
  | ⟨name, note, none, span⟩ :: ps =>
    List.forall_mem_cons.2 ⟨nofun, Param.all_walk ps fun p member => ordered p (List.mem_cons_of_mem _ member)⟩
  | ⟨name, note, some e, span⟩ :: ps => by
    have inner : e.Ordered := by
      cases ordered _ List.mem_cons_self with
      | mk _ _ _ _ inner _ => exact inner e rfl
    have walks := Expr.walks e inner
    refine List.forall_mem_cons.2 ⟨fun e' same => ?_,
      Param.all_walk ps fun p member => ordered p (List.mem_cons_of_mem _ member)⟩
    cases same
    exact walks
termination_by structural ps

/-- Resolving a function literal settles it. -/
theorem Lambda.walks (f : Lambda) (ordered : f.Ordered) : f.Walks load :=
  match f with
  | ⟨ps, returns, body, span⟩ => by
    obtain ⟨paramsOrdered, bodyOrdered⟩ : (∀ p ∈ ps, p.Ordered) ∧ body.Ordered := by
      cases ordered with
      | mk _ paramsOrdered _ bodyOrdered _ => exact ⟨paramsOrdered, bodyOrdered⟩
    exact lambda_walks keeps ordered (Param.all_walk ps paramsOrdered) (Expr.walks body bodyOrdered)
termination_by structural f

/-- Resolving a block settles it. -/
theorem Block.walks (b : Block) (ordered : b.Ordered) : b.Walks load :=
  match b with
  | ⟨ss, span⟩ => by
    have inner : ∀ s ∈ ss, s.Ordered := by
      cases ordered with
      | mk _ _ inner => exact inner
    exact block_walks keeps ordered (Statement.all_walk ss inner)
termination_by structural b

/-- Resolving any of some statements settles it. -/
theorem Statement.all_walk (ss : List Statement) (ordered : ∀ s ∈ ss, s.Ordered) : ∀ s ∈ ss, s.Walks load :=
  match ss with
  | [] => nofun
  | s :: ss =>
    List.forall_mem_cons.2 ⟨Statement.walks s (ordered s List.mem_cons_self),
      Statement.all_walk ss fun s member => ordered s (List.mem_cons_of_mem _ member)⟩
termination_by structural ss

/-- Resolving a statement settles it. -/
theorem Statement.walks (s : Statement) (ordered : s.Ordered) : s.Walks load :=
  match s with
  | .importing i => statement_walks_import keeps answers ordered.proper
  | .define exported name value span => by
    have inner : value.Ordered := by
      cases ordered with
      | define _ _ _ inner _ => exact inner
    exact statement_walks_define keeps ordered (Expr.walks value inner)
  | .expr e span => by
    cases ordered with
    | expr inner => exact statement_walks_expr (Expr.walks e inner)
termination_by structural s

/-- Resolving a conditional settles it. -/
theorem Branch.walks (b : Branch) (ordered : b.Ordered) : b.Walks load :=
  match b with
  | ⟨condition, consequence, other, span⟩ => by
    obtain ⟨conditionOrdered, consequenceOrdered, between⟩ : condition.Ordered ∧ consequence.Ordered ∧
        other.Between (consequence.span.stop + 1) span.stop := by
      cases ordered with
      | mk _ conditionOrdered _ consequenceOrdered _ between => exact ⟨conditionOrdered, consequenceOrdered, between⟩
    exact branch_walks keeps ordered (Expr.walks condition conditionOrdered)
      (Block.walks consequence consequenceOrdered) (Alternative.walks other)
termination_by structural b

/-- Resolving what follows `else` settles it. -/
theorem Alternative.walks (a : Alternative) : a.Walks load := by
  intro incoming r lo stop hi between tidy ready inside
  match a with
  | .absent => exact Walked.skip.imp fun _ _ => .absent
  | .block b =>
    cases between with
    | block starts ordered stops =>
      have walked := Block.walks b ordered incoming tidy (ready.narrow (Nat.le_succ_of_le starts) (Nat.le_refl _))
        (Nat.le_trans stops inside)
      exact (walked.widen starts stops).imp fun f settled => .block settled
  | .branch b =>
    cases between with
    | branch starts ordered stops =>
      have walked := Branch.walks b ordered incoming tidy (ready.narrow starts (Nat.le_refl _))
        (Nat.le_trans stops inside)
      exact (walked.widen starts stops).imp fun f settled => .branch settled
termination_by structural a

/-- Resolving any of some stages settles it. -/
theorem Stage.all_walk (ss : List Stage) (ordered : ∀ s ∈ ss, s.Ordered) : ∀ s ∈ ss, s.Walks load :=
  match ss with
  | [] => nofun
  | s :: ss =>
    List.forall_mem_cons.2 ⟨Stage.walks s (ordered s List.mem_cons_self),
      Stage.all_walk ss fun s member => ordered s (List.mem_cons_of_mem _ member)⟩
termination_by structural ss

/-- Resolving a stage settles it. -/
theorem Stage.walks (s : Stage) (ordered : s.Ordered) : s.Walks load :=
  match s with
  | .expr e tag span => by
    have inner : e.Ordered := by
      cases ordered with
      | expr _ inner _ _ => exact inner
    exact stage_walks_expr keeps ordered (Expr.walks e inner)
  | .operator op operand tag span => by
    have inner : operand.Ordered := by
      cases ordered with
      | operator _ inner _ _ => exact inner
    exact stage_walks_operator keeps ordered (Expr.walks operand inner)
termination_by structural s

/-- Resolving a loop settles it. -/
theorem Loop.walks (l : Loop) (ordered : l.Ordered) : l.Walks load :=
  match l with
  | ⟨sequence, binding, ⟨body, bodySpan⟩, span⟩ => by
    obtain ⟨sequenceOrdered, stagesOrdered⟩ : sequence.Ordered ∧ ∀ s ∈ body, s.Ordered := by
      cases ordered with
      | mk _ sequenceOrdered _ _ _ bodyOrdered _ =>
        cases bodyOrdered with
        | mk _ _ stagesOrdered => exact ⟨sequenceOrdered, stagesOrdered⟩
    exact loop_walks keeps ordered (Expr.walks sequence sequenceOrdered) (Stage.all_walk body stagesOrdered)
termination_by structural l

end

end

variable {load : Loader}

lemma Resolve.topLevel_walked {r : Resolution} {lo hi stop : Nat} {ss : List Statement} (keeps : load.KeepsOffers)
    (top : r.current = Scopes.root)
    (walks : ∀ s ∈ ss, s.Walks load) (order : Span.InOrder lo stop (ss.map Statement.span)) (tidy : r.Tidy)
    (ready : r.Ready lo hi) (inside : stop ≤ hi) :
    Walked load lo stop r (after (topLevel load ss) r) fun f =>
      ∀ s ∈ ss, Statement.Settled f.program f.resolved f.Clean r.current false s := by
  induction ss generalizing r lo with
  | nil => exact Walked.skip.imp (by simp)
  | cons s ss ih =>
    cases order with
    | cons le proper behind =>
      have := behind.le
      have proper' : s.span.start < s.span.stop := proper
      have first := walks s List.mem_cons_self true none (fun _ => top) tidy (ready.narrow le (Nat.le_refl _)) (by omega)
      have rest := ih (first.current.trans top) (fun s member => walks s (List.mem_cons_of_mem _ member)) behind (first.tidy keeps tidy)
        (first.ready tidy ready (Nat.lt_succ_self _) (by omega))
      rw [first.current] at rest
      refine ((first.widen le (Nat.le_refl _)).seq rest (by omega) (by omega) (by omega)).imp fun f ⟨one, others⟩ => ?_
      exact List.forall_mem_cons.2 ⟨one, others⟩

/-- When a resolution starts, it is ready for everything. -/
lemma Resolution.start_ready {p : Program} {home : ModuleId} {range : Span} {hi : Nat} :
    (start p home range).Ready 0 hi where
  closed {id s} found outside := by
    simp only [start, Scopes.new, List.getElem?_toArray, List.getElem?_singleton] at found
    split at found
    · next root => exact absurd (by simp [root, start, Scopes.path, Scopes.new, Scopes.root]) outside
    · cases found
  opened {id s} found _ := by
    simp only [start, Scopes.new, List.getElem?_toArray, List.getElem?_singleton] at found
    split at found
    · next root => exact Or.inl root
    · cases found
  bindings found := by simp [start, Scopes.new] at found
  references found := by simp [start] at found
  declarations found := by simp [start] at found
  imports found := by simp [start] at found
  loopSites known := by simp [start] at known

/-- A module that has been resolved: how the resolution came there, and what it knows of the statements in every later
program. -/
structure Resolution.Done (load : Loader) (p : Program) (home : ModuleId) (ast : Module) (r : Resolution) : Prop where
  moves : ∃ hi, Moves load 0 hi (start p home ast.span) r
  tidy : r.Tidy
  noneOpen : r.openNames = []
  settled : ∀ q, r.program.Retains q → q.Offers →
    ∀ s ∈ ast.statements, Statement.Settled q r.resolved r.Clean Scopes.root false s

/-- The end of a module leaves the tables as they are. -/
lemma Resolve.conclude_quiet {r : Resolution} (ast : Module) :
    Quiet load r (after (do markAssembly ast; reportOpenNames) r) fun _ => True := by
  have marked : Quiet load r (after (markAssembly ast) r) fun _ => True := by
    simp only [markAssembly]
    cases ast.assembly? with
    | none => exact .skip
    | some e => exact ⟨fun _ _ => .single .assembly, rfl, rfl, rfl, rfl, rfl, rfl, fun _ => trivial⟩
  have reported : Quiet load (after (markAssembly ast) r) (after reportOpenNames (after (markAssembly ast) r)) fun _ => True :=
    ⟨fun _ _ => .single .settle, rfl, rfl, rfl, rfl, rfl, rfl, fun _ => trivial⟩
  exact (marked.trans reported).imp fun _ _ => trivial

/-- A module whose syntax is in order is resolved by moves between the offsets of its statements. -/
lemma Resolve.module_walked {p : Program} {home : ModuleId} {ast : Module} {hi : Nat} (keeps : load.KeepsOffers)
    (answers : load.Answers) (offers : p.Offers) (inside : home < p.modules.size)
    (order : Span.InOrder 0 hi (ast.statements.map Statement.span)) (ordered : ∀ s ∈ ast.statements, s.Ordered) :
    Walked load 0 hi (.start p home ast.span) (after (module load ast) (.start p home ast.span)) fun f =>
      (∀ s ∈ ast.statements, Statement.Settled f.program f.resolved f.Clean Scopes.root false s) ∧ True := by
  have tidy : (Resolution.start p home ast.span).Tidy := Resolution.tidy_start offers inside
  have statements := topLevel_walked keeps rfl (Statement.all_walk keeps answers ast.statements ordered) order tidy
    Resolution.start_ready (Nat.le_refl _)
  exact statements.andQuiet (conclude_quiet ast)

/-- A module whose syntax is in order is settled by its resolution. -/
theorem Resolve.module_done {p : Program} {home : ModuleId} {ast : Module} (keeps : load.KeepsOffers)
    (answers : load.Answers) (offers : p.Offers) (inside : home < p.modules.size)
    (order : ∃ hi, Span.InOrder 0 hi (ast.statements.map Statement.span))
    (ordered : ∀ s ∈ ast.statements, s.Ordered) :
    Resolution.Done load p home ast (after (module load ast) (.start p home ast.span)) := by
  obtain ⟨hi, order⟩ := order
  have tidy : (Resolution.start p home ast.span).Tidy := Resolution.tidy_start offers inside
  have walked := module_walked keeps answers offers inside order ordered
  have tidy' := walked.tidy keeps tidy
  refine ⟨⟨hi, walked.moves⟩, tidy', rfl, fun q retains offers => ?_⟩
  exact (walked.tells (tidy'.within retains offers) (.within retains)).1

end PipeLang
