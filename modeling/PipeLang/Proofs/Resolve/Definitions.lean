import PipeLang.Proofs.Resolve.Settled
import PipeLang.Proofs.Syntax.Ordered

/-!
# Definitions

The definitions in a piece of syntax, those inside of the values of others included. In syntax that is settled each of them
declares its name behind its value: `Statement.Settled.places`.
-/

namespace PipeLang

/-- A definition of a module, at whatever depth. -/
structure Definition where
  name : Ident
  value : Expr
  span : Span

mutual

/-- The definitions in an expression. -/
def Expr.definitions : Expr → List Definition
  | .name _ | .path _ _ _ | .literal _ _ => []
  | .array items _ => Expr.allDefinitions items
  | .range start stop _ _ => start.definitions ++ stop.definitions
  | .binary _ left right _ => left.definitions ++ right.definitions
  | .unary _ operand _ => operand.definitions
  | .call callee args _ => callee.definitions ++ Argument.allDefinitions args
  | .index base index _ => base.definitions ++ index.definitions
  | .lambda f => f.definitions
  | .block b => b.definitions
  | .branch b => b.definitions
  | .pipeline p => p.definitions
  | .loop l => l.definitions
termination_by structural e => e

/-- The definitions in some expressions. -/
def Expr.allDefinitions : List Expr → List Definition
  | [] => []
  | e :: es => e.definitions ++ Expr.allDefinitions es
termination_by structural es => es

/-- The definitions in some arguments. -/
def Argument.allDefinitions : List Argument → List Definition
  | [] => []
  | ⟨_, value⟩ :: args => value.definitions ++ Argument.allDefinitions args
termination_by structural args => args

/-- The definitions in the defaults of some parameters. -/
def Param.allDefinitions : List Param → List Definition
  | [] => []
  | ⟨_, _, none, _⟩ :: ps => Param.allDefinitions ps
  | ⟨_, _, some e, _⟩ :: ps => e.definitions ++ Param.allDefinitions ps
termination_by structural ps => ps

/-- The definitions in a function literal. -/
def Lambda.definitions : Lambda → List Definition
  | ⟨ps, _, body, _⟩ => Param.allDefinitions ps ++ body.definitions
termination_by structural f => f

/-- The definitions in a block. -/
def Block.definitions : Block → List Definition
  | ⟨statements, _⟩ => Statement.allDefinitions statements
termination_by structural b => b

/-- The definitions in some statements. -/
def Statement.allDefinitions : List Statement → List Definition
  | [] => []
  | s :: ss => s.definitions ++ Statement.allDefinitions ss
termination_by structural ss => ss

/-- The definitions in a statement, which may be one itself. -/
def Statement.definitions : Statement → List Definition
  | .importing _ => []
  | .define _ name value span => ⟨name, value, span⟩ :: value.definitions
  | .expr e _ => e.definitions
termination_by structural s => s

/-- The definitions in a conditional. -/
def Branch.definitions : Branch → List Definition
  | ⟨condition, consequence, other, _⟩ => condition.definitions ++ consequence.definitions ++ other.definitions
termination_by structural b => b

/-- The definitions in what follows `else`. -/
def Alternative.definitions : Alternative → List Definition
  | .absent => []
  | .block b => b.definitions
  | .branch b => b.definitions
termination_by structural a => a

/-- The definitions in a pipeline. -/
def Pipeline.definitions : Pipeline → List Definition
  | ⟨stages, _⟩ => Stage.allDefinitions stages
termination_by structural p => p

/-- The definitions in some stages. -/
def Stage.allDefinitions : List Stage → List Definition
  | [] => []
  | s :: ss => s.definitions ++ Stage.allDefinitions ss
termination_by structural ss => ss

/-- The definitions in a stage. -/
def Stage.definitions : Stage → List Definition
  | .expr e _ _ => e.definitions
  | .operator _ operand _ _ => operand.definitions
termination_by structural s => s

/-- The definitions in a loop. -/
def Loop.definitions : Loop → List Definition
  | ⟨sequence, _, body, _⟩ => sequence.definitions ++ body.definitions
termination_by structural l => l

end

lemma Statement.mem_allDefinitions {d : Definition} {ss : List Statement} :
    d ∈ Statement.allDefinitions ss ↔ ∃ s ∈ ss, d ∈ s.definitions := by
  induction ss with
  | nil => simp [Statement.allDefinitions]
  | cons s ss ih => simp [Statement.allDefinitions, ih]

/-- A definition ends behind its value, and if nothing is wrong then its name is declared and visible from there on. -/
def Resolved.Places (t : Resolved) (clean : Prop) (d : Definition) : Prop :=
  d.value.span.stop ≤ d.span.stop ∧ (clean → ∃ scope, t.Declares scope d.name.span d.span.stop)

section

variable {program : Program} {t : Resolved} {clean : Prop} {ds ds' : List Definition}

/-- Two lists of definitions that are placed. -/
lemma Resolved.Places.append (h : ∀ d ∈ ds, t.Places clean d) (h' : ∀ d ∈ ds', t.Places clean d) :
    ∀ d ∈ ds ++ ds', t.Places clean d :=
  fun d member => (List.mem_append.1 member).elim (h d) (h' d)

/-- Of statements that are settled the first is, and so are the others. -/
lemma Statements.Settled.uncons {scope : ScopeId} {receives : Bool} {s : Statement} {ss : List Statement}
    (h : Statements.Settled program t clean scope receives (s :: ss)) :
    (∃ receives, Statement.Settled program t clean scope receives s) ∧ Statements.Settled program t clean scope receives ss := by
  cases h with
  | last first => exact ⟨⟨_, first⟩, .nil⟩
  | cons first others => exact ⟨⟨_, first⟩, others⟩

/-- Of statements that are settled every one is. -/
lemma Statements.Settled.of_mem {scope : ScopeId} {receives : Bool} {s : Statement} {ss : List Statement}
    (h : Statements.Settled program t clean scope receives ss) (member : s ∈ ss) :
    ∃ receives, Statement.Settled program t clean scope receives s := by
  induction ss with
  | nil => cases member
  | cons first ss ih =>
    obtain ⟨head, others⟩ := h.uncons
    rcases List.mem_cons.1 member with rfl | member
    · exact head
    · exact ih others member

open Resolved (Places)

mutual

/-- The definitions in an expression that is settled are placed. -/
theorem Expr.Settled.places {scope : ScopeId} {receives : Bool} (e : Expr) (h : Expr.Settled program t clean scope receives e)
    (ordered : e.Ordered) : ∀ d ∈ e.definitions, t.Places clean d :=
  match e with
  | .name _ | .path _ _ _ | .literal _ _ => nofun
  | .array items _ => by
    cases h with | mk _ _ pieces =>
    cases pieces with | array settled =>
    cases ordered with | array _ _ ordered => exact Expr.all_places items settled ordered
  | .range start stop _ _ => by
    cases h with | mk _ _ pieces =>
    cases pieces with | range first last =>
    cases ordered with | range _ first' _ last' _ =>
    exact Places.append (Expr.Settled.places start first first') (Expr.Settled.places stop last last')
  | .binary _ left right _ => by
    cases h with | mk _ _ pieces =>
    cases pieces with | binary first last =>
    cases ordered with | binary _ first' _ last' _ =>
    exact Places.append (Expr.Settled.places left first first') (Expr.Settled.places right last last')
  | .unary _ operand _ => by
    cases h with | mk _ _ pieces =>
    cases pieces with | unary inner =>
    cases ordered with | unary _ inner' _ => exact Expr.Settled.places operand inner inner'
  | .call callee args _ => by
    cases h with | mk _ _ pieces =>
    cases pieces with | call first settled _ =>
    cases ordered with | call _ first' _ _ ordered =>
    exact Places.append (Expr.Settled.places callee first first') (Argument.all_places args settled ordered)
  | .index base index _ => by
    cases h with | mk _ _ pieces =>
    cases pieces with | index first last =>
    cases ordered with | index _ first' _ last' _ =>
    exact Places.append (Expr.Settled.places base first first') (Expr.Settled.places index last last')
  | .lambda f => by
    cases h with | mk _ _ pieces =>
    cases pieces with | lambda inner =>
    cases ordered with | lambda inner' => exact Lambda.Settled.places f inner inner'
  | .block b => by
    cases h with | mk _ _ pieces =>
    cases pieces with | block inner =>
    cases ordered with | block inner' => exact Block.Settled.places b inner inner'
  | .branch b => by
    cases h with | mk _ _ pieces =>
    cases pieces with | branch inner =>
    cases ordered with | branch inner' => exact Branch.Settled.places b inner inner'
  | .pipeline ⟨stages, _⟩ => by
    cases h with | mk _ _ pieces =>
    cases pieces with | pipeline inner =>
    cases ordered with | pipeline inner' =>
    cases inner' with | mk _ _ ordered => exact Stages.Settled.places stages inner ordered
  | .loop l => by
    cases h with | mk _ _ pieces =>
    cases pieces with | loop inner =>
    cases ordered with | loop inner' => exact Loop.Settled.places l inner inner'
termination_by structural e

theorem Expr.all_places {scope : ScopeId} (es : List Expr)
    (settled : ∀ e ∈ es, Expr.Settled program t clean scope false e) (ordered : ∀ e ∈ es, e.Ordered) :
    ∀ d ∈ Expr.allDefinitions es, t.Places clean d :=
  match es with
  | [] => nofun
  | e :: es => by
    obtain ⟨first, others⟩ := List.forall_mem_cons.1 settled
    obtain ⟨first', others'⟩ := List.forall_mem_cons.1 ordered
    exact Places.append (Expr.Settled.places e first first') (Expr.all_places es others others')
termination_by structural es

theorem Argument.all_places {scope : ScopeId} (args : List Argument)
    (settled : ∀ a ∈ args, Expr.Settled program t clean scope false a.value) (ordered : ∀ a ∈ args, a.value.Ordered) :
    ∀ d ∈ Argument.allDefinitions args, t.Places clean d :=
  match args with
  | [] => nofun
  | ⟨_, value⟩ :: args => by
    obtain ⟨first, others⟩ := List.forall_mem_cons.1 settled
    obtain ⟨first', others'⟩ := List.forall_mem_cons.1 ordered
    exact Places.append (Expr.Settled.places value first first') (Argument.all_places args others others')
termination_by structural args

theorem Param.all_places {scope : ScopeId} (ps : List Param)
    (settled : ∀ q ∈ ps, Param.Settled program t clean scope q) (ordered : ∀ q ∈ ps, q.Ordered) :
    ∀ d ∈ Param.allDefinitions ps, t.Places clean d :=
  match ps with
  | [] => nofun
  | ⟨_, _, none, _⟩ :: ps => Param.all_places ps (List.forall_mem_cons.1 settled).2 (List.forall_mem_cons.1 ordered).2
  | ⟨_, _, some e, _⟩ :: ps => by
    obtain ⟨first, others⟩ := List.forall_mem_cons.1 settled
    obtain ⟨first', others'⟩ := List.forall_mem_cons.1 ordered
    cases first with | mk inner _ =>
    cases first' with | mk _ _ _ _ inner' _ =>
    exact Places.append (Expr.Settled.places e (inner e rfl) (inner' e rfl)) (Param.all_places ps others others')
termination_by structural ps

theorem Lambda.Settled.places {scope : ScopeId} (f : Lambda) (h : Lambda.Settled program t clean scope f)
    (ordered : f.Ordered) : ∀ d ∈ f.definitions, t.Places clean d :=
  match f with
  | ⟨ps, _, body, _⟩ => by
    cases h with | mk _ params inner =>
    cases ordered with | mk _ params' _ inner' _ =>
    exact Places.append (Param.all_places ps params params') (Expr.Settled.places body inner inner')
termination_by structural f

theorem Block.Settled.places {scope : ScopeId} {receives : Bool} (b : Block)
    (h : Block.Settled program t clean scope receives b) (ordered : b.Ordered) : ∀ d ∈ b.definitions, t.Places clean d :=
  match b with
  | ⟨statements, _⟩ => by
    cases h with | mk _ _ inner =>
    cases ordered with | mk _ _ inner' => exact Statements.Settled.places statements inner inner'
termination_by structural b

theorem Statements.Settled.places {scope : ScopeId} {receives : Bool} (ss : List Statement)
    (h : Statements.Settled program t clean scope receives ss) (ordered : ∀ s ∈ ss, s.Ordered) :
    ∀ d ∈ Statement.allDefinitions ss, t.Places clean d :=
  match ss with
  | [] => nofun
  | s :: ss => by
    obtain ⟨first', others'⟩ := List.forall_mem_cons.1 ordered
    obtain ⟨⟨_, first⟩, others⟩ := h.uncons
    exact Places.append (Statement.Settled.places s first first') (Statements.Settled.places ss others others')
termination_by structural ss

/-- The definitions in a statement that is settled are placed. -/
theorem Statement.Settled.places {scope : ScopeId} {receives : Bool} (s : Statement)
    (h : Statement.Settled program t clean scope receives s) (ordered : s.Ordered) : ∀ d ∈ s.definitions, t.Places clean d :=
  match s with
  | .importing _ => nofun
  | .define _ _ value _ => by
    cases h with | define inner declares =>
    cases ordered with | define _ _ _ inner' behind =>
    exact List.forall_mem_cons.2
      ⟨⟨behind, fun clean => ⟨scope, declares clean⟩⟩, Expr.Settled.places value inner inner'⟩
  | .expr e _ => by
    cases h with | expr inner =>
    cases ordered with | expr inner' => exact Expr.Settled.places e inner inner'
termination_by structural s

theorem Branch.Settled.places {scope : ScopeId} {receives : Bool} (b : Branch)
    (h : Branch.Settled program t clean scope receives b) (ordered : b.Ordered) : ∀ d ∈ b.definitions, t.Places clean d :=
  match b with
  | ⟨condition, consequence, other, _⟩ => by
    cases h with | mk first then_ else_ =>
    cases ordered with | mk _ first' _ then' _ else' =>
    exact Places.append (Places.append (Expr.Settled.places condition first first')
      (Block.Settled.places consequence then_ then')) (Alternative.Settled.places other else_ else')
termination_by structural b

theorem Alternative.Settled.places {scope : ScopeId} {receives : Bool} {lo hi : Nat} (a : Alternative)
    (h : Alternative.Settled program t clean scope receives a) (ordered : Alternative.Between lo hi a) :
    ∀ d ∈ a.definitions, t.Places clean d :=
  match a with
  | .absent => nofun
  | .block b => by
    cases h with | block inner =>
    cases ordered with | block _ inner' _ => exact Block.Settled.places b inner inner'
  | .branch b => by
    cases h with | branch inner =>
    cases ordered with | branch _ inner' _ => exact Branch.Settled.places b inner inner'
termination_by structural a

theorem Stages.Settled.places {scope : ScopeId} {receives : Bool} (ss : List Stage)
    (h : Stages.Settled program t clean scope receives ss) (ordered : ∀ s ∈ ss, s.Ordered) :
    ∀ d ∈ Stage.allDefinitions ss, t.Places clean d :=
  match ss with
  | [] => nofun
  | s :: ss => by
    obtain ⟨first', others'⟩ := List.forall_mem_cons.1 ordered
    cases h with | cons first others =>
    exact Places.append (Stage.Settled.places s first first') (Stages.Settled.places ss others others')
termination_by structural ss

theorem Stage.Settled.places {scope : ScopeId} {receives : Bool} (s : Stage)
    (h : Stage.Settled program t clean scope receives s) (ordered : s.Ordered) : ∀ d ∈ s.definitions, t.Places clean d :=
  match s with
  | .expr e _ _ => by
    cases h with | expr inner _ =>
    cases ordered with | expr _ inner' _ _ => exact Expr.Settled.places e inner inner'
  | .operator _ operand _ _ => by
    cases h with | operator inner _ =>
    cases ordered with | operator _ inner' _ _ => exact Expr.Settled.places operand inner inner'
termination_by structural s

theorem Loop.Settled.places {scope : ScopeId} {receives : Bool} (l : Loop)
    (h : Loop.Settled program t clean scope receives l) (ordered : l.Ordered) : ∀ d ∈ l.definitions, t.Places clean d :=
  match l with
  | ⟨sequence, _, ⟨stages, _⟩, _⟩ => by
    cases h with | mk first _ _ chain _ =>
    cases ordered with | mk _ first' _ _ _ inner' _ =>
    cases inner' with | mk _ _ ordered =>
    exact Places.append (Expr.Settled.places sequence first first') (Stages.Settled.places stages chain ordered)
termination_by structural l

end

end

end PipeLang
