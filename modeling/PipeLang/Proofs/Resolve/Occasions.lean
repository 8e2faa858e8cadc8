import PipeLang.Proofs.Resolve.Meets

/-!
# Every use at its moment

Wherever ordered syntax stands, its resolution meets the occurrences in it. Each construct is shown for itself, from its pieces;
`Expr.meets` and its companions put them together along the syntax. Main statement: `Resolve.topLevel_meets`.
-/

namespace PipeLang

open Resolve

/-- All of some occurrences hold in place what they are made up of. -/
abbrev Occurrence.AllPlaced (occs : List Occurrence) : Prop :=
  ∀ o ∈ occs, o.Placed

open Occurrence (AllPlaced)

/-- Wherever an expression stands, its resolution comes upon its occurrences. -/
def Expr.Meets (load : Loader) (e : Expr) : Prop :=
  AllPlaced e.occurrences → ∀ (incoming : Option Ty) {r : Resolution} {hi : Nat}, r.Tidy → r.Ready e.span.start hi →
    e.span.stop ≤ hi → r.Meets e.span.start e.span.stop e.occurrences (after (expr load incoming e) r)

/-- Wherever a function literal stands, its resolution comes upon its occurrences. -/
def Lambda.Meets (load : Loader) (f : Lambda) : Prop :=
  AllPlaced f.occurrences → ∀ {r : Resolution} {hi : Nat}, r.Tidy → r.Ready f.span.start hi →
    f.span.stop ≤ hi → r.Meets f.span.start f.span.stop f.occurrences (after (lambda load f) r)

/-- Wherever a block stands, its resolution comes upon its occurrences. -/
def Block.Meets (load : Loader) (b : Block) : Prop :=
  AllPlaced b.occurrences → ∀ (incoming : Option Ty) {r : Resolution} {hi : Nat}, r.Tidy → r.Ready (b.span.start + 1) hi →
    b.span.stop ≤ hi → r.Meets b.span.start b.span.stop b.occurrences (after (block load incoming b) r)

/-- Wherever a statement stands, its resolution comes upon its occurrences. -/
def Statement.Meets (load : Loader) (s : Statement) : Prop :=
  AllPlaced s.occurrences → ∀ (topLevel : Bool) (incoming : Option Ty) {r : Resolution} {hi : Nat},
    (topLevel = true → r.current = Scopes.root) → r.Tidy → r.Ready s.span.start hi → s.span.stop ≤ hi →
      r.Meets s.span.start s.span.stop s.occurrences (after (statement load topLevel incoming s) r)

/-- Wherever a conditional stands, its resolution comes upon its occurrences. -/
def Branch.Meets (load : Loader) (b : Branch) : Prop :=
  AllPlaced b.occurrences → ∀ (incoming : Option Ty) {r : Resolution} {hi : Nat}, r.Tidy → r.Ready b.span.start hi →
    b.span.stop ≤ hi → r.Meets b.span.start b.span.stop b.occurrences (after (branch load incoming b) r)

/-- What follows `else` between two offsets comes upon its occurrences. -/
def Alternative.Meets (load : Loader) (a : Alternative) : Prop :=
  AllPlaced a.occurrences → ∀ (incoming : Option Ty) {r : Resolution} {lo stop hi : Nat}, Between lo stop a → r.Tidy →
    r.Ready lo hi → stop ≤ hi → r.Meets lo stop a.occurrences (after (alternative load incoming a) r)

/-- Wherever a stage stands, its resolution comes upon its occurrences. -/
def Stage.Meets (load : Loader) (s : Stage) : Prop :=
  AllPlaced s.occurrences → ∀ (incoming : Option Ty) {r : Resolution} {hi : Nat}, r.Tidy → r.Ready s.span.start hi →
    s.span.stop ≤ hi → r.Meets s.span.start s.span.stop s.occurrences (after (stage load incoming s) r)

/-- Wherever a loop stands, its resolution comes upon its occurrences. -/
def Loop.Meets (load : Loader) (l : Loop) : Prop :=
  AllPlaced l.occurrences → ∀ (incoming : Option Ty) {r : Resolution} {hi : Nat}, r.Tidy → r.Ready l.span.start hi →
    l.span.stop ≤ hi → r.Meets l.span.start l.span.stop l.occurrences (after (loop load incoming l) r)

namespace Resolve

variable {load : Loader} {r r' : Resolution} {lo hi stop : Nat} {incoming : Option Ty} {occs : List Occurrence}

/-- A refusal of an incoming value in front notes nothing of names. -/
lemma rejected_meets {e : Expr} (body : Resolve Ty) (keeps : load.KeepsOffers) (proper : e.span.Proper) (tidy : r.Tidy)
    (ready : r.Ready e.span.start hi)
    (pieces : ∀ {r : Resolution}, r.Tidy → r.Ready e.span.start hi →
      r.Meets e.span.start e.span.stop occs (after body r)) :
    r.Meets e.span.start e.span.stop occs (after (rejectIncoming incoming e >>= fun _ => body) r) := by
  have rejected : Quiet load r (after (rejectIncoming incoming e) r) _ := rejectIncoming_quiet
  have met := pieces (rejected.tidy keeps tidy) (rejected.ready ready)
  exact .behindQuiet (rejectIncoming_notes r) rejected met (Nat.le_of_lt proper)

lemma expr_meets_name {ident : Ident} (keeps : load.KeepsOffers) (proper : ident.span.Proper) :
    (Expr.name ident).Meets load := by
  intro _ incoming r hi tidy ready inside
  refine rejected_meets _ keeps proper tidy ready fun {r} tidy ready => ?_
  let o : Occurrence := .name ident
  have use : NameUse load r ident _ _ := useName_use ident tidy
  have walked := use.walked tidy ready proper (Nat.le_refl _) inside
  have here : ident.span.Between ident.span.start ident.span.stop := ⟨Nat.le_refl _, proper, Nat.le_refl _⟩
  have outcome : o.Outcome ident r (after (useName ident) r) :=
    useName_outcome (fun known => Nat.le_of_lt (ready.bindings known)) (references_fresh ready (Nat.le_refl _))
  have met : r.Meets o.span.start o.span.stop [o] (after (useName ident) r) :=
    .one rfl proper tidy (ready.narrow (Nat.le_refl _) inside) (useName_notes here ⟨o, List.mem_cons_self, rfl⟩ r)
      walked.onward outcome
  exact met.andQuiet (stageType_notes _) (@stageType_quiet load ..) (Nat.le_of_lt proper)

lemma expr_meets_path {head : Ident} {rest : List Ident} {span : Span} (keeps : load.KeepsOffers)
    (ordered : (Expr.path head rest span).Ordered) : (Expr.path head rest span).Meets load := by
  intro placed incoming r hi tidy ready inside
  let o : Occurrence := .path head rest span
  have here : ∀ ident ∈ head :: rest, ident.span.Between o.span.start o.span.stop := fun ident member =>
    placed o List.mem_cons_self ident.node (List.mem_map_of_mem (f := Ident.node) member)
  refine rejected_meets _ keeps ordered.proper tidy ready fun {r} tidy ready => ?_
  have proper := ordered.proper
  cases ordered with
  | path headProper starts stops =>
    have other : span ≠ head.span := fun same => Nat.lt_irrefl _ (same ▸ stops)
    have outcome : o.Outcome head r (after (usePath head rest span) r) :=
      usePath_outcome keeps tidy ready headProper (Nat.le_of_eq starts) (Nat.le_trans (Nat.le_of_lt stops) inside)
        (references_fresh ready (Nat.le_refl _)) other fun ident member => (here ident member).holds
    have walked := usePath_walked rest tidy ready headProper starts stops (Nat.le_refl _) inside keeps
    have met : r.Meets o.span.start o.span.stop [o] (after (usePath head rest span) r) :=
      .one rfl proper tidy (ready.narrow (Nat.le_refl _) inside) (usePath_notes here ⟨o, List.mem_cons_self, rfl⟩ r)
        walked.onward outcome
    exact met.andQuiet (stageType_notes _) (@stageType_quiet load ..) (Nat.le_of_lt proper)

section

variable (keeps : load.KeepsOffers) (answers : load.Answers)
include keeps answers

/-- Two expressions one behind the other. -/
lemma pair_meets {left right : Expr} (leftMeets : left.Meets load) (rightMeets : right.Meets load)
    (leftOrdered : left.Ordered) (rightOrdered : right.Ordered) (apart : left.span.stop < right.span.start)
    (placed : AllPlaced (left.occurrences ++ right.occurrences)) (tidy : r.Tidy) (ready : r.Ready left.span.start hi)
    (inside : right.span.stop ≤ hi) :
    r.Meets left.span.start right.span.stop (left.occurrences ++ right.occurrences)
      (after (expr load none right) (after (expr load none left) r)) := by
  obtain ⟨leftPlaced, rightPlaced⟩ := List.forall_mem_append.1 placed
  have leftProper : left.span.start < left.span.stop := leftOrdered.proper
  have rightProper : right.span.start < right.span.stop := rightOrdered.proper
  have walked := Expr.walks keeps answers left leftOrdered none tidy ready (by omega)
  have first := leftMeets leftPlaced none tidy ready (by omega)
  have second := rightMeets rightPlaced none (walked.tidy keeps tidy) (walked.ready tidy ready apart (by omega)) inside
  exact first.seq (second.widen (Nat.le_of_lt apart) (Nat.le_refl _)) (by omega) (by omega)

/-- An expression that is made up of two others. -/
lemma expr_meets_pair {e left right : Expr} (proper : e.span.Proper) (starts : e.span.start ≤ left.span.start)
    (leftOrdered : left.Ordered) (apart : left.span.stop < right.span.start) (rightOrdered : right.Ordered)
    (stops : right.span.stop ≤ e.span.stop) (leftMeets : left.Meets load) (rightMeets : right.Meets load)
    (parts : e.occurrences = left.occurrences ++ right.occurrences)
    (unfolded : ∀ incoming r, after (expr load incoming e) r =
      after (expr load none right) (after (expr load none left) (after (rejectIncoming incoming e) r))) :
    e.Meets load := by
  intro placed incoming r hi tidy ready inside
  rw [unfolded]
  rw [parts] at placed ⊢
  let body : Resolve Ty := do
    let _ ← expr load none left
    expr load none right
  refine rejected_meets body keeps proper tidy ready fun {r} tidy ready => ?_
  have met := pair_meets keeps answers leftMeets rightMeets leftOrdered rightOrdered apart placed tidy
    (ready.narrow starts (Nat.le_refl _)) (Nat.le_trans stops inside)
  exact met.widen starts stops

lemma exprs_meet {es : List Expr} (ordered : ∀ e ∈ es, e.Ordered) (meets : ∀ e ∈ es, e.Meets load)
    (placed : AllPlaced (Expr.allOccurrences es)) (order : Span.InOrder lo stop (es.map Expr.span)) (tidy : r.Tidy)
    (ready : r.Ready lo hi) (inside : stop ≤ hi) :
    r.Meets lo stop (Expr.allOccurrences es) (after (exprs load es) r) := by
  induction es generalizing r lo with
  | nil => exact .none
  | cons e es ih =>
    obtain ⟨ordered, othersOrdered⟩ := List.forall_mem_cons.1 ordered
    obtain ⟨meets, othersMeet⟩ := List.forall_mem_cons.1 meets
    obtain ⟨placed, othersPlaced⟩ := List.forall_mem_append.1 placed
    cases order with
    | cons le proper behind =>
      have := behind.le
      have proper' : e.span.start < e.span.stop := proper
      have ready' := ready.narrow le (Nat.le_refl _)
      have walked := Expr.walks keeps answers e ordered none tidy ready' (by omega)
      have first := meets placed none tidy ready' (by omega)
      have rest := ih othersOrdered othersMeet othersPlaced behind (walked.tidy keeps tidy)
        (walked.ready tidy ready (Nat.lt_succ_self _) (by omega))
      exact first.next rest le proper (by omega)

lemma expr_meets_array {items : List Expr} {span : Span} (ordered : (Expr.array items span).Ordered)
    (meets : ∀ e ∈ items, e.Meets load) : (Expr.array items span).Meets load := by
  intro placed incoming r hi tidy ready inside
  refine rejected_meets _ keeps ordered.proper tidy ready fun {r} tidy ready => ?_
  cases ordered with
  | array proper order itemsOrdered =>
    have met := exprs_meet keeps answers itemsOrdered meets placed order tidy
      (ready.narrow (Nat.le_succ _) (Nat.le_refl _)) inside
    exact met.widen (Nat.le_succ _) (Nat.le_refl _)

omit answers in
lemma expr_meets_unary {op : UnaryOp} {operand : Expr} {span : Span} (ordered : (Expr.unary op operand span).Ordered)
    (meets : operand.Meets load) : (Expr.unary op operand span).Meets load := by
  intro placed incoming r hi tidy ready inside
  refine rejected_meets _ keeps ordered.proper tidy ready fun {r} tidy ready => ?_
  cases ordered with
  | unary starts operandOrdered stops =>
    have met := meets placed none tidy (ready.narrow (Nat.le_of_lt starts) (Nat.le_refl _)) (Nat.le_trans stops inside)
    exact met.widen (Nat.le_of_lt starts) stops

omit keeps answers in
/-- Arguments hold what their values do. -/
lemma occurrences_arguments {args : List Argument} :
    Argument.allOccurrences args = Expr.allOccurrences (args.map Argument.value) := by
  induction args with
  | nil => rfl
  | cons a args ih =>
    obtain ⟨name, value⟩ := a
    exact congrArg (value.occurrences ++ ·) ih

omit keeps answers in
lemma checkCall_notes {P : Span → Prop} {args : List Argument} {span : Span} {found : Option (Target × Ty)} :
    Notes P occs (checkCall incoming args span found) := by
  cases found with
  | none => exact .pure _
  | some found => exact checkHostCall_notes.bind fun _ => .pure _

lemma expr_meets_call {callee : Expr} {args : List Argument} {span : Span}
    (ordered : (Expr.call callee args span).Ordered) (calleeMeets : callee.Meets load)
    (argsMeet : ∀ a ∈ args, a.value.Meets load) : (Expr.call callee args span).Meets load := by
  intro placed incoming r hi tidy ready inside
  obtain ⟨calleePlaced, argsPlaced⟩ := List.forall_mem_append.1 placed
  rw [expr_call]
  refine rejected_meets _ keeps ordered.proper tidy ready fun {r} tidy ready => ?_
  cases ordered with
  | call starts calleeOrdered before order argsOrdered =>
    replace inside : span.stop ≤ hi := inside
    replace ready : r.Ready span.start hi := ready
    have proper : callee.span.start < callee.span.stop := calleeOrdered.proper
    have ready' := ready.narrow starts (Nat.le_refl _)
    have walked := Expr.walks keeps answers callee calleeOrdered none tidy ready' (by omega)
    have first := calleeMeets calleePlaced none tidy ready' (by omega)
    rw [occurrences_arguments] at argsPlaced
    have second := exprs_meet keeps answers (by simpa using argsOrdered) (by simpa using argsMeet) argsPlaced
      (by rwa [List.map_map]) (walked.tidy keeps tidy) (walked.ready tidy ready (Nat.lt_succ_self _) (by omega)) inside
    have both := (first.widen starts (Nat.le_refl _)).seq (second.widen (Nat.le_succ _) (Nat.le_refl _)) (by omega)
      (Nat.le_of_lt before)
    rw [← occurrences_arguments] at both
    simp only [after_bind, after_arguments, after_calleeOf]
    exact both.andQuiet (checkCall_notes _) (@checkCall_quiet load ..) (by omega)

omit keeps answers in
/-- Parameters hold what the first holds, and then the others. -/
lemma occurrences_params {p : Param} {ps : List Param} :
    Param.allOccurrences (p :: ps) = Param.allOccurrences [p] ++ Param.allOccurrences ps := by
  obtain ⟨name, note, fallback, span⟩ := p
  cases fallback with
  | none => rfl
  | some e => simp only [Param.allOccurrences, List.append_nil]

omit keeps answers in
/-- A parameter is declared behind its default, at a name before it. -/
lemma param_meets {p : Param} (ordered : p.Ordered) (meets : ∀ e, p.fallback = some e → e.Meets load)
    (placed : AllPlaced (Param.allOccurrences [p])) (tidy : r.Tidy) (ready : r.Ready p.span.start hi)
    (inside : p.span.stop ≤ hi) :
    r.Meets p.span.start p.span.stop (Param.allOccurrences [p]) (after (params load [p]) r) := by
  cases ordered with
  | @mk name note fallback span nameProper starts stops apart fallbackOrdered fallbackStops =>
    have nameProper' : name.span.start < name.span.stop := nameProper
    replace inside : span.stop ≤ hi := inside
    cases fallback with
    | none =>
      have here : name.span.Between span.start span.stop := ⟨starts, nameProper, stops⟩
      have proper : span.start ≤ span.stop := by omega
      exact .behind (declareInner_notes here r) (declareInner_onward.mono proper) .none proper (Nat.le_refl _)
    | some e =>
      have := apart e rfl
      have := fallbackStops e rfl
      have proper : e.span.start < e.span.stop := (fallbackOrdered e rfl).proper
      have value := meets e rfl (List.forall_mem_append.1 placed).1 none tidy
        (ready.narrow (by show span.start ≤ _; omega) (Nat.le_refl _)) (by omega)
      have here : name.span.Between name.span.start name.span.stop := ⟨Nat.le_refl _, nameProper, Nat.le_refl _⟩
      have declared : (after (expr load none e) r).Onward e.span.stop
          (after (declareInner name span.stop (TypeNote.orElse note .any) .parameter) (after (expr load none e) r)) :=
        declareInner_onward.mono (fallbackStops e rfl)
      have both := value.andThen (declareInner_notes here _) declared (Or.inl (by omega)) (by omega) starts (by omega)
        (fallbackStops e rfl) stops
      rw [← List.append_nil e.occurrences] at both
      exact both

lemma params_meet {ps : List Param} (ordered : ∀ p ∈ ps, p.Ordered)
    (meets : ∀ p ∈ ps, ∀ e, p.fallback = some e → e.Meets load) (placed : AllPlaced (Param.allOccurrences ps))
    (order : Span.InOrder lo stop (ps.map Param.span)) (tidy : r.Tidy) (ready : r.Ready lo hi) (inside : stop ≤ hi) :
    r.Meets lo stop (Param.allOccurrences ps) (after (params load ps) r) := by
  induction ps generalizing r lo with
  | nil => exact .none
  | cons p ps ih =>
    obtain ⟨ordered, othersOrdered⟩ := List.forall_mem_cons.1 ordered
    obtain ⟨meets, othersMeet⟩ := List.forall_mem_cons.1 meets
    rw [occurrences_params] at placed ⊢
    obtain ⟨placed, othersPlaced⟩ := List.forall_mem_append.1 placed
    cases order with
    | cons le proper behind =>
      have := behind.le
      have proper' : p.span.start < p.span.stop := proper
      have ready' := ready.narrow le (Nat.le_refl _)
      have alone : ∀ q ∈ [p], q.Ordered := List.forall_mem_singleton.2 ordered
      have order : Span.InOrder p.span.start p.span.stop ([p].map Param.span) :=
        .cons (Nat.le_refl _) proper (.nil (Nat.le_refl _))
      have walked := params_walked keeps (Param.all_walk keeps answers [p] alone) alone order tidy ready' (by omega)
      have first := param_meets ordered meets placed tidy ready' (by omega)
      have rest := ih othersOrdered othersMeet othersPlaced behind (walked.tidy keeps tidy)
        (walked.ready tidy ready (Nat.lt_succ_self _) (by omega))
      have unfolded : after (params load (p :: ps)) r = after (params load ps) (after (params load [p]) r) := by
        obtain ⟨name, note, fallback, span⟩ := p
        rw [after_params, after_params]
        rfl
      rw [unfolded]
      exact first.next rest le proper (by omega)

lemma lambda_meets {ps : List Param} {returns : Option TypeNote} {body : Expr} {span : Span}
    (ordered : Lambda.Ordered ⟨ps, returns, body, span⟩) (paramsMeet : ∀ p ∈ ps, ∀ e, p.fallback = some e → e.Meets load)
    (bodyMeets : body.Meets load) : Lambda.Meets load ⟨ps, returns, body, span⟩ := by
  intro placed r hi tidy ready inside
  obtain ⟨paramsPlaced, bodyPlaced⟩ := List.forall_mem_append.1 placed
  replace inside : span.stop ≤ hi := inside
  cases ordered with
  | @mk _ _ _ _ between order paramsOrdered apart bodyOrdered stops =>
    have proper : body.span.start < body.span.stop := bodyOrdered.proper
    have := order.le
    have tidy₁ : (after (enter .function span) r).Tidy := enter_tidy keeps tidy
    have ready₁ : (after (enter .function span) r).Ready (span.start + 1) span.stop :=
      enter_ready ready (Nat.le_succ _) inside
    have walked := params_walked keeps (Param.all_walk keeps answers ps paramsOrdered) paramsOrdered order tidy₁ ready₁
      (by omega)
    have params := params_meet keeps answers paramsOrdered paramsMeet paramsPlaced order tidy₁ ready₁ (by omega)
    have inner := bodyMeets bodyPlaced none (walked.tidy keeps tidy₁) (walked.ready tidy₁ ready₁ apart (by omega)) stops
    have both := (params.widen (Nat.le_refl _) (Nat.le_of_lt apart)).seq inner (by omega) (by omega)
    exact both.inside (Nat.le_succ _) stops

lemma blockStatements_meet (incoming : Option Ty) {ss : List Statement} (ordered : ∀ s ∈ ss, s.Ordered)
    (meets : ∀ s ∈ ss, s.Meets load) (placed : AllPlaced (Statement.allOccurrences ss))
    (order : Span.InOrder lo stop (ss.map Statement.span)) (tidy : r.Tidy) (ready : r.Ready lo hi) (inside : stop ≤ hi) :
    r.Meets lo stop (Statement.allOccurrences ss) (after (blockStatements load incoming ss) r) := by
  induction ss generalizing r lo with
  | nil => exact .none
  | cons s ss ih =>
    obtain ⟨firstOrdered, othersOrdered⟩ := List.forall_mem_cons.1 ordered
    obtain ⟨firstMeets, othersMeet⟩ := List.forall_mem_cons.1 meets
    obtain ⟨firstPlaced, othersPlaced⟩ := List.forall_mem_append.1 placed
    cases order with
    | cons le proper behind =>
      have := behind.le
      have proper' : s.span.start < s.span.stop := proper
      have ready' := ready.narrow le (Nat.le_refl _)
      cases ss with
      | nil =>
        have last := firstMeets firstPlaced false incoming nofun tidy ready' (by omega)
        have whole := last.widen le (show s.span.stop ≤ stop by omega)
        rw [← List.append_nil s.occurrences] at whole
        exact whole
      | cons next ss =>
        rw [blockStatements]
        · have walked := Statement.walks keeps answers s firstOrdered false none nofun tidy ready' (by omega)
          have first := firstMeets firstPlaced false none nofun tidy ready' (by omega)
          have rest := ih othersOrdered othersMeet othersPlaced behind (walked.tidy keeps tidy)
            (walked.ready tidy ready (Nat.lt_succ_self _) (by omega))
          exact first.next rest le proper (by omega)
        · simp

lemma block_meets {ss : List Statement} {span : Span} (ordered : Block.Ordered ⟨ss, span⟩)
    (meets : ∀ s ∈ ss, s.Meets load) : Block.Meets load ⟨ss, span⟩ := by
  intro placed incoming r hi tidy ready inside
  cases ordered with
  | mk proper order statementsOrdered =>
    have rejected : Quiet load r (after (rejectTailless incoming ss span) r) _ := rejectTailless_quiet
    have tidy₀ := rejected.tidy keeps tidy
    have ready₀ := rejected.ready ready
    refine .behindQuiet (rejectTailless_notes r) rejected ?_ (Nat.le_of_lt proper)
    simp only [block, after_bind, after_pure, answer_enter, after_leave]
    generalize after (rejectTailless incoming ss span) r = r₀ at tidy₀ ready₀ ⊢
    have tidy₁ : (after (enter .block span) r₀).Tidy := enter_tidy keeps tidy₀
    have ready₁ : (after (enter .block span) r₀).Ready (span.start + 1) span.stop :=
      enter_ready ready₀ (Nat.le_refl _) inside
    have body := blockStatements_meet keeps answers incoming statementsOrdered meets placed order tidy₁ ready₁
      (Nat.le_refl _)
    exact body.inside (Nat.le_succ _) (Nat.le_refl _)

omit keeps answers in
lemma statement_meets_expr {e : Expr} (meets : e.Meets load) : (Statement.expr e e.span).Meets load :=
  fun placed _ incoming _ _ _ tidy ready inside => meets placed incoming tidy ready inside

lemma statement_meets_import {i : Import} (proper : i.span.Proper) : (Statement.importing i).Meets load := by
  intro placed topLevel incoming r hi top tidy ready inside
  have walked := importStatement_walked keeps answers tidy top ready proper
  have notes : r.Notes (Span.Between i.span.start i.span.stop) [.importing i] (after (importStatement load i topLevel) r) :=
    importStatement_notes keeps (placed _ List.mem_cons_self) tidy.offers
  exact ⟨notes, walked.onward, List.forall_mem_singleton.2 nofun⟩

omit answers in
lemma statement_meets_define {exported : Bool} {name : Ident} {value : Expr} {span : Span}
    (ordered : (Statement.define exported name value span).Ordered) (meets : value.Meets load) :
    (Statement.define exported name value span).Meets load := by
  intro placed topLevel incoming r hi top tidy ready inside
  replace inside : span.stop ≤ hi := inside
  cases ordered with
  | define starts nameProper apart valueOrdered stops =>
    have proper : value.span.start < value.span.stop := valueOrdered.proper
    have nameProper' : name.span.start < name.span.stop := nameProper
    have refused : Quiet load r (after (refuseNested exported topLevel span) r) _ := refuseNested_quiet
    have tidy₀ := refused.tidy keeps tidy
    have ready₀ : (after (refuseNested exported topLevel span) r).Ready span.start hi := refused.ready ready
    have before : span.start ≤ value.span.start := by omega
    refine .behindQuiet (refuseNested_notes r) refused ?_ (show span.start ≤ span.stop by omega)
    simp only [statement, after_bind, after_pure]
    generalize after (refuseNested exported topLevel span) r = r₀ at tidy₀ ready₀ ⊢
    have met := meets placed none tidy₀ (ready₀.narrow before (Nat.le_refl _)) (by omega)
    have here : name.span.Between name.span.start name.span.stop := ⟨Nat.le_refl _, nameProper, Nat.le_refl _⟩
    have nameStops : name.span.stop ≤ span.stop := by omega
    exact met.andThen (define_notes here _) (define_onward.mono stops) (Or.inl (Nat.le_of_lt apart)) before starts
      (Nat.le_of_lt proper) stops nameStops

lemma branch_meets {condition : Expr} {consequence : Block} {other : Alternative} {span : Span}
    (ordered : Branch.Ordered ⟨condition, consequence, other, span⟩) (conditionMeets : condition.Meets load)
    (consequenceMeets : consequence.Meets load) (alternativeMeets : other.Meets load) :
    Branch.Meets load ⟨condition, consequence, other, span⟩ := by
  intro placed incoming r hi tidy ready inside
  obtain ⟨conditionPlaced, placed⟩ := List.forall_mem_append.1 placed
  obtain ⟨consequencePlaced, alternativePlaced⟩ := List.forall_mem_append.1 placed
  cases ordered with
  | mk starts conditionOrdered touches consequenceOrdered stops between =>
    have := conditionOrdered.proper
    have := consequenceOrdered.proper
    simp only [Span.Proper] at *
    replace ready : r.Ready span.start hi := ready
    replace inside : span.stop ≤ hi := inside
    have ready' := ready.narrow (Nat.le_of_lt starts) (Nat.le_refl _)
    have walked := Expr.walks keeps answers condition conditionOrdered none tidy ready' (by omega)
    have first := conditionMeets conditionPlaced none tidy ready' (by omega)
    have tidy₁ := walked.tidy keeps tidy
    have ready₁ := walked.ready tidy ready (Nat.lt_succ_of_le touches) (by omega)
    have walked₁ := Block.walks keeps answers consequence consequenceOrdered incoming tidy₁ ready₁ (by omega)
    have second := consequenceMeets consequencePlaced incoming tidy₁ ready₁ (by omega)
    have third := alternativeMeets alternativePlaced incoming between (walked₁.tidy keeps tidy₁)
      (walked₁.ready tidy₁ ready₁ (Nat.lt_succ_self _) (by omega)) inside
    have blocks := second.seq (third.widen (Nat.le_succ _) (Nat.le_refl _)) (by omega) stops
    have all := (first.widen (Nat.le_of_lt starts) (Nat.le_refl _)).seq (blocks.widen touches (Nat.le_refl _)) (by omega)
      (by omega)
    exact all

omit keeps answers in
/-- A tag behind the expression that makes the value of a stage. -/
lemma tagged_meets {e : Expr} {tag : Option Ident} {span : Span} {ty : Ty} (ordered : e.Ordered)
    (starts : span.start ≤ e.span.start) (stops : e.span.stop ≤ span.stop)
    (between : Ident.TagBetween (e.span.stop + 1) span.stop tag) (meets : e.Meets load) (placed : AllPlaced e.occurrences)
    (tidy : r.Tidy) (ready : r.Ready span.start hi) (inside : span.stop ≤ hi) :
    r.Meets span.start span.stop e.occurrences (after (tagOf tag span.stop ty) (after (expr load incoming e) r)) := by
  have proper : e.span.start < e.span.stop := ordered.proper
  have met := meets placed incoming tidy (ready.narrow starts (Nat.le_refl _)) (by omega)
  cases between with
  | none => exact met.widen starts stops
  | @some tag behind tagProper tagStops =>
    have tagProper' : tag.span.start < tag.span.stop := tagProper
    have here : tag.span.Between tag.span.start tag.span.stop := ⟨Nat.le_refl _, tagProper, Nat.le_refl _⟩
    exact met.andThen (declareTag_notes here _) (declareTag_onward.mono stops) (Or.inr (by omega)) starts (by omega)
      (Nat.le_of_lt proper) stops tagStops

omit keeps answers in
lemma stage_meets_expr {e : Expr} {tag : Option Ident} {span : Span} (ordered : (Stage.expr e tag span).Ordered)
    (meets : e.Meets load) : (Stage.expr e tag span).Meets load := by
  intro placed incoming r hi tidy ready inside
  have unfolded : after (stage load incoming (.expr e tag span)) r =
      after (tagOf tag span.stop (answer (expr load incoming e) r)) (after (expr load incoming e) r) := by
    cases tag <;> rfl
  rw [unfolded]
  cases ordered with
  | expr starts ordered stops between => exact tagged_meets ordered starts stops between meets placed tidy ready inside

omit keeps answers in
lemma stage_meets_operator {op : BinaryOp} {e : Expr} {tag : Option Ident} {span : Span}
    (ordered : (Stage.operator op e tag span).Ordered) (meets : e.Meets load) :
    (Stage.operator op e tag span).Meets load := by
  intro placed incoming r hi tidy ready inside
  have unfolded : after (stage load incoming (.operator op e tag span)) r =
      after (tagOf tag span.stop (op.resultType (incoming.getD .any) (answer (expr load none e) r)))
        (after (expr load none e) r) := by
    cases tag <;> rfl
  rw [unfolded]
  cases ordered with
  | operator starts ordered stops between =>
    exact tagged_meets ordered (Nat.le_of_lt starts) stops between meets placed tidy ready inside

lemma stages_meet (incoming : Option Ty) {ss : List Stage} (ordered : ∀ s ∈ ss, s.Ordered)
    (meets : ∀ s ∈ ss, s.Meets load) (placed : AllPlaced (Stage.allOccurrences ss))
    (order : Span.InOrder lo stop (ss.map Stage.span)) (tidy : r.Tidy) (ready : r.Ready lo hi) (inside : stop ≤ hi) :
    r.Meets lo stop (Stage.allOccurrences ss) (after (stages load incoming ss) r) := by
  induction ss generalizing r lo incoming with
  | nil => exact .none
  | cons s ss ih =>
    obtain ⟨ordered, othersOrdered⟩ := List.forall_mem_cons.1 ordered
    obtain ⟨meets, othersMeet⟩ := List.forall_mem_cons.1 meets
    obtain ⟨placed, othersPlaced⟩ := List.forall_mem_append.1 placed
    cases order with
    | cons le proper behind =>
      have := behind.le
      have proper' : s.span.start < s.span.stop := proper
      have ready' := ready.narrow le (Nat.le_refl _)
      have walked := Stage.walks keeps answers s ordered incoming tidy ready' (by omega)
      have first := meets placed incoming tidy ready' (by omega)
      have rest := ih (some (answer (stage load incoming s) r)) othersOrdered othersMeet othersPlaced behind
        (walked.tidy keeps tidy) (walked.ready tidy ready (Nat.lt_succ_self _) (by omega))
      exact first.next rest le proper (by omega)

lemma loop_meets {sequence : Expr} {binding : Ident} {body : List Stage} {bodySpan span : Span}
    (ordered : Loop.Ordered ⟨sequence, binding, ⟨body, bodySpan⟩, span⟩) (sequenceMeets : sequence.Meets load)
    (stagesMeet : ∀ s ∈ body, s.Meets load) : Loop.Meets load ⟨sequence, binding, ⟨body, bodySpan⟩, span⟩ := by
  intro placed incoming r hi tidy ready inside
  obtain ⟨sequencePlaced, bodyPlaced⟩ := List.forall_mem_append.1 placed
  replace ready : r.Ready span.start hi := ready
  replace inside : span.stop ≤ hi := inside
  cases ordered with
  | mk starts sequenceOrdered apart bindingProper before bodyOrdered stops =>
    cases bodyOrdered with
    | mk bodyProper order stagesOrdered =>
      have sequenceProper := sequenceOrdered.proper
      simp only [Span.Proper] at *
      have ready' := ready.narrow (Nat.le_of_lt starts) (Nat.le_refl _)
      have walked := Expr.walks keeps answers sequence sequenceOrdered none tidy ready' (by omega)
      have first := sequenceMeets sequencePlaced none tidy ready' (by omega)
      have tidy₁ := walked.tidy keeps tidy
      have ready₁ : (after (expr load none sequence) r).Ready binding.span.start hi :=
        walked.ready tidy ready apart (by omega)
      have newLoop := loopSites_fresh keeps tidy ready walked (by omega)
      let ty := (answer (expr load none sequence) r).element
      rw [loop_after]
      generalize after (expr load none sequence) r = r₁ at first tidy₁ ready₁ newLoop ⊢
      obtain ⟨-, tidy₃, ready₃, declared⟩ :=
        openLoop_ready keeps tidy₁ ready₁ (by omega) bindingProper (by omega) inside newLoop ty
      have chain := stages_meet keeps answers incoming stagesOrdered stagesMeet bodyPlaced order
        (declared.walked.tidy keeps tidy₃) (declared.walked.ready tidy₃ ready₃ before (by omega)) stops
      have here : binding.span.Between binding.span.start bodySpan.start := ⟨Nat.le_refl _, bindingProper, Nat.le_of_lt before⟩
      have inner : (openLoop r₁ binding span).Meets binding.span.start bodySpan.stop (Stage.allOccurrences body) _ :=
        .behind (declareInner_notes here _) (declareInner_onward.mono (Nat.le_of_lt bindingProper)) chain
          (by omega) (Nat.le_of_lt bodyProper)
      have opened : (after (enter .loopBody ⟨binding.span.start, span.stop⟩) r₁).Notes
          (Span.Between binding.span.start binding.span.start) [] (openLoop r₁ binding span) := .of_same rfl rfl rfl
      have entered := Resolution.Meets.behind opened (.of_same rfl rfl) inner (Nat.le_refl _) (by omega)
      have second := entered.inside (Nat.le_refl _) stops
      exact (first.widen (Nat.le_of_lt starts) (Nat.le_refl _)).seq (second.widen (Nat.le_of_lt apart) (Nat.le_refl _))
        (by omega) (by omega)

omit answers in
/-- An expression that is one piece of syntax. -/
lemma expr_meets_piece {e : Expr} {body : Option Ty → Resolve Ty} (proper : e.span.Proper)
    (unfolded : ∀ incoming, expr load incoming e = rejectIncoming incoming e >>= fun _ => body incoming)
    (pieces : AllPlaced e.occurrences → ∀ (incoming : Option Ty) {r : Resolution} {hi : Nat}, r.Tidy → r.Ready e.span.start hi →
      e.span.stop ≤ hi → r.Meets e.span.start e.span.stop e.occurrences (after (body incoming) r)) : e.Meets load := by
  intro placed incoming r hi tidy ready inside
  rw [unfolded]
  exact rejected_meets _ keeps proper tidy ready fun tidy ready => pieces placed incoming tidy ready inside

end

end Resolve

section

variable {load : Loader} (keeps : load.KeepsOffers) (answers : load.Answers)
include keeps answers

set_option linter.unusedSectionVars false in
mutual

/-- Resolving an expression meets its occurrences. -/
theorem Expr.meets (e : Expr) (ordered : e.Ordered) : e.Meets load :=
  match e with
  | .name ident => by
    cases ordered with
    | name proper => exact expr_meets_name keeps proper
  | .path head rest span => expr_meets_path keeps ordered
  | .literal value span =>
    expr_meets_piece keeps ordered.proper (fun _ => rfl) fun _ _ _ _ _ _ _ => .none
  | .array items span => by
    have inner : ∀ e ∈ items, e.Ordered := by
      cases ordered with
      | array _ _ inner => exact inner
    exact expr_meets_array keeps answers ordered (Expr.all_meet items inner)
  | .range start stop inclusive span => by
    have proper := ordered.proper
    cases ordered with
    | range starts first apart last stops =>
      exact expr_meets_pair keeps answers proper (Nat.le_of_lt starts) first apart last stops (Expr.meets start first)
        (Expr.meets stop last) rfl (fun _ _ => rfl)
  | .binary op left right span => by
    have proper := ordered.proper
    cases ordered with
    | binary starts first apart last stops =>
      exact expr_meets_pair keeps answers proper starts first apart last stops (Expr.meets left first)
        (Expr.meets right last) rfl (fun _ _ => rfl)
  | .unary op operand span => by
    have inner : operand.Ordered := by
      cases ordered with
      | unary _ inner _ => exact inner
    exact expr_meets_unary keeps ordered (Expr.meets operand inner)
  | .call callee args span => by
    obtain ⟨calleeOrdered, argsOrdered⟩ : callee.Ordered ∧ ∀ a ∈ args, a.value.Ordered := by
      cases ordered with
      | call _ calleeOrdered _ _ argsOrdered => exact ⟨calleeOrdered, argsOrdered⟩
    exact expr_meets_call keeps answers ordered (Expr.meets callee calleeOrdered) (Argument.all_meet args argsOrdered)
  | .index base index span => by
    have proper := ordered.proper
    cases ordered with
    | index starts first apart last stops =>
      exact expr_meets_pair keeps answers proper starts first apart last stops (Expr.meets base first)
        (Expr.meets index last) rfl (fun _ _ => rfl)
  | .lambda f => by
    have proper := ordered.proper
    cases ordered with
    | lambda inner =>
      have meets := Lambda.meets f inner
      exact expr_meets_piece keeps proper (fun _ => rfl) fun placed _ _ _ tidy ready inside => meets placed tidy ready inside
  | .block b => by
    have proper := ordered.proper
    cases ordered with
    | block inner =>
      have meets := Block.meets b inner
      exact expr_meets_piece keeps proper (fun _ => rfl) fun placed incoming _ _ tidy ready inside =>
        meets placed incoming tidy (ready.narrow (Nat.le_succ _) (Nat.le_refl _)) inside
  | .branch b => by
    have proper := ordered.proper
    cases ordered with
    | branch inner =>
      have meets := Branch.meets b inner
      exact expr_meets_piece keeps proper (fun _ => rfl) meets
  | .pipeline ⟨body, span⟩ => by
    have proper := ordered.proper
    cases ordered with
    | pipeline inner =>
      obtain ⟨order, stagesOrdered⟩ : Span.InOrder span.start span.stop (body.map Stage.span) ∧ ∀ s ∈ body, s.Ordered := by
        cases inner with
        | mk _ order stagesOrdered => exact ⟨order, stagesOrdered⟩
      have meets := Stage.all_meet body stagesOrdered
      exact expr_meets_piece keeps proper (fun _ => rfl) fun placed incoming _ _ tidy ready inside =>
        stages_meet keeps answers incoming stagesOrdered meets placed order tidy ready inside
  | .loop l => by
    have proper := ordered.proper
    cases ordered with
    | loop inner =>
      have meets := Loop.meets l inner
      exact expr_meets_piece keeps proper (fun _ => rfl) meets
termination_by structural e

/-- Resolving any of some expressions meets its occurrences. -/
theorem Expr.all_meet (es : List Expr) (ordered : ∀ e ∈ es, e.Ordered) : ∀ e ∈ es, e.Meets load :=
  match es with
  | [] => nofun
  | e :: es =>
    List.forall_mem_cons.2 ⟨Expr.meets e (ordered e List.mem_cons_self),
      Expr.all_meet es fun e member => ordered e (List.mem_cons_of_mem _ member)⟩
termination_by structural es

/-- Resolving the value of any argument meets its occurrences. -/
theorem Argument.all_meet (args : List Argument) (ordered : ∀ a ∈ args, a.value.Ordered) :
    ∀ a ∈ args, a.value.Meets load :=
  match args with
  | [] => nofun
  | ⟨_, value⟩ :: args =>
    List.forall_mem_cons.2 ⟨Expr.meets value (ordered _ List.mem_cons_self),
      Argument.all_meet args fun a member => ordered a (List.mem_cons_of_mem _ member)⟩
termination_by structural args

/-- Resolving the default of any parameter meets its occurrences. -/
theorem Param.all_meet (ps : List Param) (ordered : ∀ p ∈ ps, p.Ordered) :
    ∀ p ∈ ps, ∀ e, p.fallback = some e → e.Meets load :=
  match ps with
  | [] => nofun
  | ⟨name, note, none, span⟩ :: ps =>
    List.forall_mem_cons.2 ⟨nofun, Param.all_meet ps fun p member => ordered p (List.mem_cons_of_mem _ member)⟩
  | ⟨name, note, some e, span⟩ :: ps => by
    have inner : e.Ordered := by
      cases ordered _ List.mem_cons_self with
      | mk _ _ _ _ inner _ => exact inner e rfl
    have meets := Expr.meets e inner
    refine List.forall_mem_cons.2 ⟨fun e' same => ?_,
      Param.all_meet ps fun p member => ordered p (List.mem_cons_of_mem _ member)⟩
    cases same
    exact meets
termination_by structural ps

/-- Resolving a function literal meets its occurrences. -/
theorem Lambda.meets (f : Lambda) (ordered : f.Ordered) : f.Meets load :=
  match f with
  | ⟨ps, returns, body, span⟩ => by
    obtain ⟨paramsOrdered, bodyOrdered⟩ : (∀ p ∈ ps, p.Ordered) ∧ body.Ordered := by
      cases ordered with
      | mk _ paramsOrdered _ bodyOrdered _ => exact ⟨paramsOrdered, bodyOrdered⟩
    exact lambda_meets keeps answers ordered (Param.all_meet ps paramsOrdered) (Expr.meets body bodyOrdered)
termination_by structural f

/-- Resolving a block meets its occurrences. -/
theorem Block.meets (b : Block) (ordered : b.Ordered) : b.Meets load :=
  match b with
  | ⟨ss, span⟩ => by
    have inner : ∀ s ∈ ss, s.Ordered := by
      cases ordered with
      | mk _ _ inner => exact inner
    exact block_meets keeps answers ordered (Statement.all_meet ss inner)
termination_by structural b

/-- Resolving any of some statements meets its occurrences. -/
theorem Statement.all_meet (ss : List Statement) (ordered : ∀ s ∈ ss, s.Ordered) : ∀ s ∈ ss, s.Meets load :=
  match ss with
  | [] => nofun
  | s :: ss =>
    List.forall_mem_cons.2 ⟨Statement.meets s (ordered s List.mem_cons_self),
      Statement.all_meet ss fun s member => ordered s (List.mem_cons_of_mem _ member)⟩
termination_by structural ss

/-- Resolving a statement meets its occurrences. -/
theorem Statement.meets (s : Statement) (ordered : s.Ordered) : s.Meets load :=
  match s with
  | .importing i => statement_meets_import keeps answers ordered.proper
  | .define exported name value span => by
    have inner : value.Ordered := by
      cases ordered with
      | define _ _ _ inner _ => exact inner
    exact statement_meets_define keeps ordered (Expr.meets value inner)
  | .expr e span => by
    cases ordered with
    | expr inner => exact statement_meets_expr (Expr.meets e inner)
termination_by structural s

/-- Resolving a conditional meets its occurrences. -/
theorem Branch.meets (b : Branch) (ordered : b.Ordered) : b.Meets load :=
  match b with
  | ⟨condition, consequence, other, span⟩ => by
    obtain ⟨conditionOrdered, consequenceOrdered, between⟩ : condition.Ordered ∧ consequence.Ordered ∧
        other.Between (consequence.span.stop + 1) span.stop := by
      cases ordered with
      | mk _ conditionOrdered _ consequenceOrdered _ between => exact ⟨conditionOrdered, consequenceOrdered, between⟩
    exact branch_meets keeps answers ordered (Expr.meets condition conditionOrdered)
      (Block.meets consequence consequenceOrdered) (Alternative.meets other)
termination_by structural b

/-- Resolving what follows `else` meets its occurrences. -/
theorem Alternative.meets (a : Alternative) : a.Meets load := by
  intro placed incoming r lo stop hi between tidy ready inside
  match a with
  | .absent => exact .none
  | .block b =>
    cases between with
    | block starts ordered stops =>
      have met := Block.meets b ordered placed incoming tidy
        (ready.narrow (Nat.le_succ_of_le starts) (Nat.le_refl _)) (Nat.le_trans stops inside)
      exact met.widen starts stops
  | .branch b =>
    cases between with
    | branch starts ordered stops =>
      have met := Branch.meets b ordered placed incoming tidy (ready.narrow starts (Nat.le_refl _))
        (Nat.le_trans stops inside)
      exact met.widen starts stops
termination_by structural a

/-- Resolving any of some stages meets its occurrences. -/
theorem Stage.all_meet (ss : List Stage) (ordered : ∀ s ∈ ss, s.Ordered) : ∀ s ∈ ss, s.Meets load :=
  match ss with
  | [] => nofun
  | s :: ss =>
    List.forall_mem_cons.2 ⟨Stage.meets s (ordered s List.mem_cons_self),
      Stage.all_meet ss fun s member => ordered s (List.mem_cons_of_mem _ member)⟩
termination_by structural ss

/-- Resolving a stage meets its occurrences. -/
theorem Stage.meets (s : Stage) (ordered : s.Ordered) : s.Meets load :=
  match s with
  | .expr e tag span => by
    have inner : e.Ordered := by
      cases ordered with
      | expr _ inner _ _ => exact inner
    exact stage_meets_expr ordered (Expr.meets e inner)
  | .operator op operand tag span => by
    have inner : operand.Ordered := by
      cases ordered with
      | operator _ inner _ _ => exact inner
    exact stage_meets_operator ordered (Expr.meets operand inner)
termination_by structural s

/-- Resolving a loop meets its occurrences. -/
theorem Loop.meets (l : Loop) (ordered : l.Ordered) : l.Meets load :=
  match l with
  | ⟨sequence, binding, ⟨body, bodySpan⟩, span⟩ => by
    obtain ⟨sequenceOrdered, stagesOrdered⟩ : sequence.Ordered ∧ ∀ s ∈ body, s.Ordered := by
      cases ordered with
      | mk _ sequenceOrdered _ _ _ bodyOrdered _ =>
        cases bodyOrdered with
        | mk _ _ stagesOrdered => exact ⟨sequenceOrdered, stagesOrdered⟩
    exact loop_meets keeps answers ordered (Expr.meets sequence sequenceOrdered) (Stage.all_meet body stagesOrdered)
termination_by structural l

end

lemma Resolve.topLevel_meets {r : Resolution} {lo hi stop : Nat} {ss : List Statement} (top : r.current = Scopes.root)
    (ordered : ∀ s ∈ ss, s.Ordered) (placed : AllPlaced (Statement.allOccurrences ss))
    (order : Span.InOrder lo stop (ss.map Statement.span)) (tidy : r.Tidy) (ready : r.Ready lo hi) (inside : stop ≤ hi) :
    r.Meets lo stop (Statement.allOccurrences ss) (after (topLevel load ss) r) := by
  induction ss generalizing r lo with
  | nil => exact .none
  | cons s ss ih =>
    obtain ⟨ordered, othersOrdered⟩ := List.forall_mem_cons.1 ordered
    obtain ⟨placed, othersPlaced⟩ := List.forall_mem_append.1 placed
    cases order with
    | cons le proper behind =>
      have := behind.le
      have proper' : s.span.start < s.span.stop := proper
      have ready' := ready.narrow le (Nat.le_refl _)
      have walked := Statement.walks keeps answers s ordered true none (fun _ => top) tidy ready' (by omega)
      have first := Statement.meets keeps answers s ordered placed true none (fun _ => top) tidy ready' (by omega)
      have rest := ih (walked.current.trans top) othersOrdered othersPlaced behind (walked.tidy keeps tidy)
        (walked.ready tidy ready (Nat.lt_succ_self _) (by omega))
      exact first.next rest le proper (by omega)

end

end PipeLang
