import PipeLang.Proofs.Resolve.Settled

/-!
# Uses of names

The names and the heads of paths that stand in a piece of syntax. Of each, settled syntax knows what its table of scopes
answers: `Statement.Settled.answers`.
-/

namespace PipeLang

mutual

/-- The names and the heads of paths in an expression. -/
def Expr.uses : Expr → List Ident
  | .name ident => [ident]
  | .path head _ _ => [head]
  | .literal _ _ => []
  | .array items _ => Expr.allUses items
  | .range start stop _ _ => start.uses ++ stop.uses
  | .binary _ left right _ => left.uses ++ right.uses
  | .unary _ operand _ => operand.uses
  | .call callee args _ => callee.uses ++ Argument.allUses args
  | .index base index _ => base.uses ++ index.uses
  | .lambda f => f.uses
  | .block b => b.uses
  | .branch b => b.uses
  | .pipeline ⟨stages, _⟩ => Stage.allUses stages
  | .loop l => l.uses
termination_by structural e => e

/-- The uses in some expressions. -/
def Expr.allUses : List Expr → List Ident
  | [] => []
  | e :: es => e.uses ++ Expr.allUses es
termination_by structural es => es

/-- The uses in some arguments. -/
def Argument.allUses : List Argument → List Ident
  | [] => []
  | ⟨_, value⟩ :: args => value.uses ++ Argument.allUses args
termination_by structural args => args

/-- The uses in the defaults of some parameters. -/
def Param.allUses : List Param → List Ident
  | [] => []
  | ⟨_, _, none, _⟩ :: ps => Param.allUses ps
  | ⟨_, _, some e, _⟩ :: ps => e.uses ++ Param.allUses ps
termination_by structural ps => ps

/-- The uses in a function literal. -/
def Lambda.uses : Lambda → List Ident
  | ⟨ps, _, body, _⟩ => Param.allUses ps ++ body.uses
termination_by structural f => f

/-- The uses in a block. -/
def Block.uses : Block → List Ident
  | ⟨statements, _⟩ => Statement.allUses statements
termination_by structural b => b

/-- The uses in some statements. -/
def Statement.allUses : List Statement → List Ident
  | [] => []
  | s :: ss => s.uses ++ Statement.allUses ss
termination_by structural ss => ss

/-- The uses in a statement. -/
def Statement.uses : Statement → List Ident
  | .importing _ => []
  | .define _ _ value _ => value.uses
  | .expr e _ => e.uses
termination_by structural s => s

/-- The uses in a conditional. -/
def Branch.uses : Branch → List Ident
  | ⟨condition, consequence, other, _⟩ => condition.uses ++ consequence.uses ++ other.uses
termination_by structural b => b

/-- The uses in what follows `else`. -/
def Alternative.uses : Alternative → List Ident
  | .absent => []
  | .block b => b.uses
  | .branch b => b.uses
termination_by structural a => a

/-- The uses in some stages. -/
def Stage.allUses : List Stage → List Ident
  | [] => []
  | s :: ss => s.uses ++ Stage.allUses ss
termination_by structural ss => ss

/-- The uses in a stage. -/
def Stage.uses : Stage → List Ident
  | .expr e _ _ => e.uses
  | .operator _ operand _ _ => operand.uses
termination_by structural s => s

/-- The uses in a loop. -/
def Loop.uses : Loop → List Ident
  | ⟨sequence, _, ⟨stages, _⟩, _⟩ => sequence.uses ++ Stage.allUses stages
termination_by structural l => l

end

/-- The names and the heads of paths in a module. -/
def Module.uses (m : Module) : List Ident :=
  Statement.allUses m.statements

/-- What is recorded of a use is what the table of scopes says of it. -/
def Resolved.AnswersAll (t : Resolved) (uses : List Ident) : Prop :=
  ∀ use ∈ uses, ∀ known, t.references.get? use.span = some known → t.Answers use known

variable {program : Program} {t : Resolved} {clean : Prop}

lemma Resolved.AnswersAll.append {uses uses' : List Ident} (h : t.AnswersAll uses) (h' : t.AnswersAll uses') :
    t.AnswersAll (uses ++ uses') :=
  fun use member => (List.mem_append.1 member).elim (h use) (h' use)

lemma Resolved.AnswersAll.one {use : Ident} (h : ∀ known, t.references.get? use.span = some known → t.Answers use known) :
    t.AnswersAll [use] := by
  intro use' member
  cases List.mem_singleton.1 member
  exact h

lemma Resolved.AnswersAll.none : t.AnswersAll [] :=
  nofun

/-- The pieces of a settled expression. -/
lemma Expr.Settled.pieces {scope : ScopeId} {receives : Bool} {e : Expr} (h : e.Settled program t clean scope receives) :
    e.Pieces program t clean scope receives := by
  cases h with
  | mk _ _ pieces => exact pieces

mutual

/-- Of the uses in a settled expression the tables say the same. -/
theorem Expr.Settled.answers {scope : ScopeId} {receives : Bool} (e : Expr)
    (h : e.Settled program t clean scope receives) : t.AnswersAll e.uses :=
  match e with
  | .name ident => by
    cases h.pieces with
    | name answers _ _ => exact .one answers
  | .path head rest span => by
    cases h.pieces with
    | path answers _ _ _ => exact .one answers
  | .literal value span => .none
  | .array items span => by
    cases h.pieces with
    | array settled => exact Expr.Settled.allAnswer items settled
  | .range start stop inclusive span => by
    cases h.pieces with
    | range first last => exact (Expr.Settled.answers start first).append (Expr.Settled.answers stop last)
  | .binary op left right span => by
    cases h.pieces with
    | binary first last => exact (Expr.Settled.answers left first).append (Expr.Settled.answers right last)
  | .unary op operand span => by
    cases h.pieces with
    | unary settled => exact Expr.Settled.answers operand settled
  | .call callee args span => by
    cases h.pieces with
    | call settled argsSettled _ =>
      exact (Expr.Settled.answers callee settled).append (Argument.allAnswer args argsSettled)
  | .index base index span => by
    cases h.pieces with
    | index first last => exact (Expr.Settled.answers base first).append (Expr.Settled.answers index last)
  | .lambda f => by
    cases h.pieces with
    | lambda settled => exact Lambda.Settled.answers f settled
  | .block b => by
    cases h.pieces with
    | block settled => exact Block.Settled.answers b settled
  | .branch b => by
    cases h.pieces with
    | branch settled => exact Branch.Settled.answers b settled
  | .pipeline ⟨stages, span⟩ => by
    cases h.pieces with
    | pipeline settled => exact Stages.Settled.answers stages settled
  | .loop l => by
    cases h.pieces with
    | loop settled => exact Loop.Settled.answers l settled
termination_by structural e

theorem Expr.Settled.allAnswer {scope : ScopeId} (es : List Expr)
    (h : ∀ e ∈ es, e.Settled program t clean scope false) : t.AnswersAll (Expr.allUses es) :=
  match es with
  | [] => .none
  | e :: es => (Expr.Settled.answers e (h e List.mem_cons_self)).append
      (Expr.Settled.allAnswer es fun e member => h e (List.mem_cons_of_mem _ member))
termination_by structural es

theorem Argument.allAnswer {scope : ScopeId} (args : List Argument)
    (h : ∀ a ∈ args, a.value.Settled program t clean scope false) : t.AnswersAll (Argument.allUses args) :=
  match args with
  | [] => .none
  | ⟨_, value⟩ :: args => (Expr.Settled.answers value (h _ List.mem_cons_self)).append
      (Argument.allAnswer args fun a member => h a (List.mem_cons_of_mem _ member))
termination_by structural args

theorem Param.Settled.allAnswer {scope : ScopeId} (ps : List Param)
    (h : ∀ p ∈ ps, p.Settled program t clean scope) : t.AnswersAll (Param.allUses ps) :=
  match ps with
  | [] => .none
  | ⟨_, _, none, _⟩ :: ps => Param.Settled.allAnswer ps fun p member => h p (List.mem_cons_of_mem _ member)
  | ⟨_, _, some e, _⟩ :: ps => by
    have settled : e.Settled program t clean scope false := by
      cases h _ List.mem_cons_self with
      | mk fallback _ => exact fallback e rfl
    exact (Expr.Settled.answers e settled).append
      (Param.Settled.allAnswer ps fun p member => h p (List.mem_cons_of_mem _ member))
termination_by structural ps

theorem Lambda.Settled.answers {scope : ScopeId} (f : Lambda) (h : f.Settled program t clean scope) : t.AnswersAll f.uses :=
  match f with
  | ⟨ps, _, body, _⟩ => by
    cases h with
    | mk _ params settled => exact (Param.Settled.allAnswer ps params).append (Expr.Settled.answers body settled)
termination_by structural f

theorem Block.Settled.answers {scope : ScopeId} {receives : Bool} (b : Block)
    (h : b.Settled program t clean scope receives) : t.AnswersAll b.uses :=
  match b with
  | ⟨statements, _⟩ => by
    cases h with
    | mk _ _ settled => exact Statements.Settled.answers statements settled
termination_by structural b

theorem Statements.Settled.answers {scope : ScopeId} {receives : Bool} (ss : List Statement)
    (h : Statements.Settled program t clean scope receives ss) : t.AnswersAll (Statement.allUses ss) :=
  match ss with
  | [] => .none
  | [s] => by
    cases h with
    | last settled => exact (Statement.Settled.answers s settled).append .none
  | s :: next :: rest => by
    cases h with
    | cons settled settledRest =>
      exact (Statement.Settled.answers s settled).append (Statements.Settled.answers (next :: rest) settledRest)
termination_by structural ss

/-- Of the uses in a settled statement the tables say the same. -/
theorem Statement.Settled.answers {scope : ScopeId} {receives : Bool} (s : Statement)
    (h : s.Settled program t clean scope receives) : t.AnswersAll s.uses := by
  match s with
  | .importing i => exact .none
  | .define exported name value span =>
    cases h with
    | define settled _ => exact Expr.Settled.answers value settled
  | .expr e span =>
    cases h with
    | expr settled => exact Expr.Settled.answers e settled
termination_by structural s

theorem Branch.Settled.answers {scope : ScopeId} {receives : Bool} (b : Branch)
    (h : b.Settled program t clean scope receives) : t.AnswersAll b.uses :=
  match b with
  | ⟨condition, consequence, other, _⟩ => by
    cases h with
    | mk settled taken otherwise =>
      exact ((Expr.Settled.answers condition settled).append (Block.Settled.answers consequence taken)).append
        (Alternative.Settled.answers other otherwise)
termination_by structural b

theorem Alternative.Settled.answers {scope : ScopeId} {receives : Bool} (a : Alternative)
    (h : a.Settled program t clean scope receives) : t.AnswersAll a.uses := by
  match a with
  | .absent => exact .none
  | .block b =>
    cases h with
    | block settled => exact Block.Settled.answers b settled
  | .branch b =>
    cases h with
    | branch settled => exact Branch.Settled.answers b settled
termination_by structural a

theorem Stages.Settled.answers {scope : ScopeId} {receives : Bool} (ss : List Stage)
    (h : Stages.Settled program t clean scope receives ss) : t.AnswersAll (Stage.allUses ss) :=
  match ss with
  | [] => .none
  | s :: ss => by
    cases h with
    | cons settled rest => exact (Stage.Settled.answers s settled).append (Stages.Settled.answers ss rest)
termination_by structural ss

theorem Stage.Settled.answers {scope : ScopeId} {receives : Bool} (s : Stage)
    (h : s.Settled program t clean scope receives) : t.AnswersAll s.uses := by
  match s with
  | .expr e tag span =>
    cases h with
    | expr settled _ => exact Expr.Settled.answers e settled
  | .operator op operand tag span =>
    cases h with
    | operator settled _ => exact Expr.Settled.answers operand settled
termination_by structural s

theorem Loop.Settled.answers {scope : ScopeId} {receives : Bool} (l : Loop)
    (h : l.Settled program t clean scope receives) : t.AnswersAll l.uses :=
  match l with
  | ⟨sequence, _, ⟨stages, _⟩, _⟩ => by
    cases h with
    | mk settled _ _ body _ => exact (Expr.Settled.answers sequence settled).append (Stages.Settled.answers stages body)
termination_by structural l

end

/-- Of the uses in a settled module the tables say the same. -/
theorem Module.answers {m : Module} {scope : ScopeId} (h : ∀ s ∈ m.statements, s.Settled program t clean scope false) :
    t.AnswersAll m.uses := by
  rw [Module.uses]
  generalize m.statements = statements at h
  induction statements with
  | nil => exact .none
  | cons s ss ih =>
    exact (Statement.Settled.answers s (h s List.mem_cons_self)).append
      (ih fun s member => h s (List.mem_cons_of_mem _ member))

end PipeLang
