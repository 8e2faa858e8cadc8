import PipeLang.Proofs.Scope.Layers
import PipeLang.Proofs.Resolve.Retains

/-!
# Settled syntax

What a finished resolution knows of the pieces of a module. A piece is settled in the scope that it stands in: its
pieces are settled there or in the scope that it opens, its names answer as they did when they were resolved, and if
nothing was found wrong then every name and every declaration is known and only what can take an incoming value is
given one.
-/

namespace PipeLang

/-- What a table of scopes says of a use agrees with what was recorded of it. -/
structure Resolved.Answers (t : Resolved) (use : Ident) (known : Reference) : Prop where
  bound : (∀ name, known.target ≠ .host name) → ∃ id,
    t.lookupAt use.name use.span.start = .found id ∧ t.scopes.target id = known.target ∧
      t.scopes.typeAt id (t.scopes.scopeAt use.span.start) = known.ty
  here : t.scopes.scopeAt use.span.start = t.scopes.enclosing use.span
  host : ∀ name, known.target = .host name →
    t.lookupAt use.name use.span.start = .notFound ∨
      ∃ id, t.lookupAt use.name use.span.start = .notYetDeclared id

/-- A use of a name for which a binding is found denotes what the binding stands for. -/
lemma Resolved.Answers.found {t : Resolved} {use : Ident} {known : Reference} {id : BindingId} (h : t.Answers use known)
    (found : t.lookupAt use.name use.span.start = .found id) : t.scopes.target id = known.target := by
  by_cases host : ∃ name, known.target = .host name
  · obtain ⟨name, same⟩ := host
    rcases h.host name same with missing | ⟨later, missing⟩
    · cases found.symm.trans missing
    · cases found.symm.trans missing
  · obtain ⟨other, found', target, -⟩ := h.bound (not_exists.1 host)
    cases found.symm.trans found'
    exact target

/-- Frames of a scope may store a binding: it is declared there, or it is a tag that is collected there. -/
def Scopes.Stores (t : Scopes) (scope : ScopeId) (id : BindingId) : Prop :=
  ∃ b, t.bindings[(id : Nat)]? = some b ∧ b.HeldIn scope

/-- A scope was opened inside another. -/
def Scopes.Opens (t : Scopes) (scope inner : ScopeId) : Prop :=
  t.path inner = inner :: t.path scope

/-- The name at a place introduces a binding that frames of a scope may store and that is visible from an offset. The scope is the
innermost one that holds the binding. -/
def Resolved.Declares (t : Resolved) (scope : ScopeId) (site : Span) (visibleFrom : Nat) : Prop :=
  ∃ id b, t.declarations.get? site = some id ∧ t.scopes.bindings[(id : Nat)]? = some b ∧
    b.HeldIn scope ∧ b.visibleFrom = visibleFrom ∧ b.Fronts (t.scopes.path scope)

/-- Frames of a scope may store a binding as it is declared there, and not as a sequence. -/
structure Scopes.Declares (t : Scopes) (scope : ScopeId) (id : BindingId) : Prop where
  stores : t.Stores scope id
  plain : ∀ b, t.bindings[(id : Nat)]? = some b → t.layersAt b scope = 0

/-- Frames of a scope may store what a loop with a body in it collects of a tag. -/
def Scopes.Collects (t : Scopes) (scope inner : ScopeId) (id : BindingId) : Prop :=
  ∃ b, t.bindings[(id : Nat)]? = some b ∧ b.HeldIn scope ∧ inner ∈ b.loops

lemma Resolved.Declares.declares {t : Resolved} {scope : ScopeId} {site : Span} {visibleFrom : Nat}
    (h : t.Declares scope site visibleFrom) : ∃ id, t.declarations.get? site = some id ∧ t.scopes.Declares scope id := by
  obtain ⟨id, b, declared, found, held, -, behind, split⟩ := h
  refine ⟨id, declared, ⟨b, found, held⟩, fun b' found' => ?_⟩
  cases found.symm.trans found'
  exact Scopes.layersAt_eq_zero fun loop member => split ▸ List.mem_append_left _ member

/-- Nothing is wrong with a call of what a target means, if that is a host function. -/
def Target.Admits (target : Target) (hosts : Hosts) (positional : Nat) (keywords : List Ident) (site : Span) : Prop :=
  ∀ name signature, target = .host name → hosts.signature? name = some signature →
    callFaults (signature.params.map HostParam.slot) positional keywords site = []

/-- Nothing is wrong with a call of what the use at a place denotes. -/
def Resolved.Admits (t : Resolved) (hosts : Hosts) (use : Span) (positional : Nat) (keywords : List Ident)
    (site : Span) : Prop :=
  ∀ known, t.references.get? use = some known → known.target.Admits hosts positional keywords site

/-- A path denotes what its segments lead to from what its head denotes. -/
def Resolved.Follows (t : Resolved) (p : Program) (head : Ident) (rest : List Ident) (site : Span) : Prop :=
  ∀ known, t.references.get? head.span = some known → ∃ found, t.references.get? site = some found ∧
    p.follow known.target rest = some found.target

/-- The place of a name or path. -/
def Expr.useSite? : Expr → Option Span
  | .name ident => some ident.span
  | .path _ _ span => some span
  | _ => none

variable (p : Program) (t : Resolved) (clean : Prop)

mutual

/-- An expression that stands in a scope, with or without an incoming value. -/
inductive Expr.Settled : ScopeId → Bool → Expr → Prop where
  | mk {scope receives e} :
    t.scopes.enclosing e.span = scope →
    (clean → receives = true → e.rejection? = none) →
    Expr.Pieces scope receives e →
    Expr.Settled scope receives e

/-- The pieces of an expression. -/
inductive Expr.Pieces : ScopeId → Bool → Expr → Prop where
  | name {scope receives ident} :
    (∀ known, t.references.get? ident.span = some known → t.Answers ident known) →
    (clean → (t.references.get? ident.span).isSome) →
    (clean → receives = true → t.Admits p.hosts ident.span 1 [] ident.span) →
    Expr.Pieces scope receives (.name ident)
  | path {scope receives head rest span} :
    (∀ known, t.references.get? head.span = some known → t.Answers head known) →
    (clean → (t.references.get? span).isSome) →
    (clean → t.Follows p head rest span) →
    (clean → receives = true → t.Admits p.hosts span 1 [] span) →
    Expr.Pieces scope receives (.path head rest span)
  | literal {scope receives value span} :
    Expr.Pieces scope receives (.literal value span)
  | array {scope receives items span} :
    (∀ e ∈ items, Expr.Settled scope false e) →
    Expr.Pieces scope receives (.array items span)
  | range {scope receives start stop inclusive span} :
    Expr.Settled scope false start →
    Expr.Settled scope false stop →
    Expr.Pieces scope receives (.range start stop inclusive span)
  | binary {scope receives op left right span} :
    Expr.Settled scope false left →
    Expr.Settled scope false right →
    Expr.Pieces scope receives (.binary op left right span)
  | unary {scope receives op operand span} :
    Expr.Settled scope false operand →
    Expr.Pieces scope receives (.unary op operand span)
  | call {scope receives callee args span} :
    Expr.Settled scope false callee →
    (∀ a ∈ args, Expr.Settled scope false a.value) →
    (clean → ∀ use, callee.useSite? = some use →
      t.Admits p.hosts use (args.countP (fun a => a.name.isNone) + receives.toNat) (Resolve.keywordNames args) span) →
    Expr.Pieces scope receives (.call callee args span)
  | index {scope receives base index span} :
    Expr.Settled scope false base →
    Expr.Settled scope false index →
    Expr.Pieces scope receives (.index base index span)
  | lambda {scope receives f} :
    Lambda.Settled scope f →
    Expr.Pieces scope receives (.lambda f)
  | block {scope receives b} :
    Block.Settled scope receives b →
    Expr.Pieces scope receives (.block b)
  | branch {scope receives b} :
    Branch.Settled scope receives b →
    Expr.Pieces scope receives (.branch b)
  | pipeline {scope receives stages span} :
    Stages.Settled scope receives stages →
    Expr.Pieces scope receives (.pipeline ⟨stages, span⟩)
  | loop {scope receives l} :
    Loop.Settled scope receives l →
    Expr.Pieces scope receives (.loop l)

/-- A parameter of a function with the given scope. -/
inductive Param.Settled : ScopeId → Param → Prop where
  | mk {scope name note fallback span} :
    (∀ e, fallback = some e → Expr.Settled scope false e) →
    (clean → t.Declares scope name.span span.stop) →
    Param.Settled scope ⟨name, note, fallback, span⟩

/-- A function literal that stands in a scope. -/
inductive Lambda.Settled : ScopeId → Lambda → Prop where
  | mk {scope inner params returns body span} :
    t.scopes.Opens scope inner →
    (∀ q ∈ params, Param.Settled inner q) →
    Expr.Settled inner false body →
    Lambda.Settled scope ⟨params, returns, body, span⟩

/-- A block that stands in a scope. -/
inductive Block.Settled : ScopeId → Bool → Block → Prop where
  | mk {scope receives inner statements span} :
    t.scopes.Opens scope inner →
    (clean → receives = true → (tailExpr? statements).isSome) →
    Statements.Settled inner receives statements →
    Block.Settled scope receives ⟨statements, span⟩

/-- Statements one after another; the last one may have an incoming value. -/
inductive Statements.Settled : ScopeId → Bool → List Statement → Prop where
  | nil {scope receives} :
    Statements.Settled scope receives []
  | last {scope receives s} :
    Statement.Settled scope receives s →
    Statements.Settled scope receives [s]
  | cons {scope receives s next rest} :
    Statement.Settled scope false s →
    Statements.Settled scope receives (next :: rest) →
    Statements.Settled scope receives (s :: next :: rest)

/-- A statement of a scope. -/
inductive Statement.Settled : ScopeId → Bool → Statement → Prop where
  | importing {scope receives i} :
    Statement.Settled scope receives (.importing i)
  | define {scope receives exported name value span} :
    Expr.Settled scope false value →
    (clean → t.Declares scope name.span span.stop) →
    Statement.Settled scope receives (.define exported name value span)
  | expr {scope receives e span} :
    Expr.Settled scope receives e →
    Statement.Settled scope receives (.expr e span)

/-- A conditional that stands in a scope. -/
inductive Branch.Settled : ScopeId → Bool → Branch → Prop where
  | mk {scope receives condition consequence alternative span} :
    Expr.Settled scope false condition →
    Block.Settled scope receives consequence →
    Alternative.Settled scope receives alternative →
    Branch.Settled scope receives ⟨condition, consequence, alternative, span⟩

/-- What follows `else`. -/
inductive Alternative.Settled : ScopeId → Bool → Alternative → Prop where
  | absent {scope receives} :
    Alternative.Settled scope receives .absent
  | block {scope receives b} :
    Block.Settled scope receives b →
    Alternative.Settled scope receives (.block b)
  | branch {scope receives b} :
    Branch.Settled scope receives b →
    Alternative.Settled scope receives (.branch b)

/-- Stages one after another; all but the first have an incoming value. -/
inductive Stages.Settled : ScopeId → Bool → List Stage → Prop where
  | nil {scope receives} :
    Stages.Settled scope receives []
  | cons {scope receives s rest} :
    Stage.Settled scope receives s →
    Stages.Settled scope true rest →
    Stages.Settled scope receives (s :: rest)

/-- A stage with its tag. -/
inductive Stage.Settled : ScopeId → Bool → Stage → Prop where
  | expr {scope receives e tag span} :
    Expr.Settled scope receives e →
    (clean → ∀ name, tag = some name → t.Declares scope name.span span.stop) →
    Stage.Settled scope receives (.expr e tag span)
  | operator {scope receives op operand tag span} :
    Expr.Settled scope false operand →
    (clean → ∀ name, tag = some name → t.Declares scope name.span span.stop) →
    Stage.Settled scope receives (.operator op operand tag span)

/-- A loop that stands in a scope, with the tags that it collects there. -/
inductive Loop.Settled : ScopeId → Bool → Loop → Prop where
  | mk {scope receives inner sequence binding stages bodySpan span} :
    Expr.Settled scope false sequence →
    t.scopes.Opens scope inner →
    (clean → t.Declares inner binding.span binding.span.stop) →
    Stages.Settled inner receives stages →
    (∀ tags, t.loopTags.get? span = some tags → ∀ tag ∈ tags, t.scopes.Collects scope inner tag) →
    Loop.Settled scope receives ⟨sequence, binding, ⟨stages, bodySpan⟩, span⟩

end

end PipeLang
