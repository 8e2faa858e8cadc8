import PipeLang.Proofs.Reader.Places
import PipeLang.Proofs.Syntax.Spelled

/-!
# Occurrences

What stands in a piece of syntax and means something that stands elsewhere: names, paths, and import statements. Each of them
is a node of the piece, so that what is parsed holds in place what its occurrences are made up of: `Module.parse_placed`.
-/

namespace PipeLang

/-- Something in syntax whose meaning stands elsewhere. -/
inductive Occurrence where
  | name (ident : Ident)
  | path (head : Ident) (rest : List Ident) (span : Span)
  | importing (statement : Import)

namespace Occurrence

/-- The place of an occurrence. -/
def span : Occurrence → Span
  | name ident => ident.span
  | path _ _ span => span
  | importing i => i.span

/-- The name that is looked up where an occurrence stands. An import statement looks up none. -/
def head? : Occurrence → Option Ident
  | name ident => some ident
  | path head _ _ => some head
  | importing _ => none

/-- An occurrence as a node. -/
def node : Occurrence → Node
  | name ident => ident.node
  | path head rest span => (Expr.path head rest span).node
  | importing i => i.node

end Occurrence

mutual

/-- The occurrences in an expression, in the order in which they are resolved. -/
def Expr.occurrences : Expr → List Occurrence
  | .name ident => [.name ident]
  | .path head rest span => [.path head rest span]
  | .literal _ _ => []
  | .array items _ => Expr.allOccurrences items
  | .range start stop _ _ => start.occurrences ++ stop.occurrences
  | .binary _ left right _ => left.occurrences ++ right.occurrences
  | .unary _ operand _ => operand.occurrences
  | .call callee args _ => callee.occurrences ++ Argument.allOccurrences args
  | .index base index _ => base.occurrences ++ index.occurrences
  | .lambda f => f.occurrences
  | .block b => b.occurrences
  | .branch b => b.occurrences
  | .pipeline ⟨stages, _⟩ => Stage.allOccurrences stages
  | .loop l => l.occurrences
termination_by structural e => e

/-- The occurrences in some expressions. -/
def Expr.allOccurrences : List Expr → List Occurrence
  | [] => []
  | e :: es => e.occurrences ++ Expr.allOccurrences es
termination_by structural es => es

/-- The occurrences in some arguments. -/
def Argument.allOccurrences : List Argument → List Occurrence
  | [] => []
  | ⟨_, value⟩ :: args => value.occurrences ++ Argument.allOccurrences args
termination_by structural args => args

/-- The occurrences in the defaults of some parameters. -/
def Param.allOccurrences : List Param → List Occurrence
  | [] => []
  | ⟨_, _, none, _⟩ :: ps => Param.allOccurrences ps
  | ⟨_, _, some e, _⟩ :: ps => e.occurrences ++ Param.allOccurrences ps
termination_by structural ps => ps

/-- The occurrences in a function literal. -/
def Lambda.occurrences : Lambda → List Occurrence
  | ⟨ps, _, body, _⟩ => Param.allOccurrences ps ++ body.occurrences
termination_by structural f => f

/-- The occurrences in a block. -/
def Block.occurrences : Block → List Occurrence
  | ⟨statements, _⟩ => Statement.allOccurrences statements
termination_by structural b => b

/-- The occurrences in some statements. -/
def Statement.allOccurrences : List Statement → List Occurrence
  | [] => []
  | s :: ss => s.occurrences ++ Statement.allOccurrences ss
termination_by structural ss => ss

/-- The occurrences in a statement. -/
def Statement.occurrences : Statement → List Occurrence
  | .importing i => [.importing i]
  | .define _ _ value _ => value.occurrences
  | .expr e _ => e.occurrences
termination_by structural s => s

/-- The occurrences in a conditional. -/
def Branch.occurrences : Branch → List Occurrence
  | ⟨condition, consequence, other, _⟩ => condition.occurrences ++ (consequence.occurrences ++ other.occurrences)
termination_by structural b => b

/-- The occurrences in what follows `else`. -/
def Alternative.occurrences : Alternative → List Occurrence
  | .absent => []
  | .block b => b.occurrences
  | .branch b => b.occurrences
termination_by structural a => a

/-- The occurrences in some stages. -/
def Stage.allOccurrences : List Stage → List Occurrence
  | [] => []
  | s :: ss => s.occurrences ++ Stage.allOccurrences ss
termination_by structural ss => ss

/-- The occurrences in a stage. -/
def Stage.occurrences : Stage → List Occurrence
  | .expr e _ _ => e.occurrences
  | .operator _ operand _ _ => operand.occurrences
termination_by structural s => s

/-- The occurrences in a loop. -/
def Loop.occurrences : Loop → List Occurrence
  | ⟨sequence, _, ⟨stages, _⟩, _⟩ => sequence.occurrences ++ Stage.allOccurrences stages
termination_by structural l => l

end

/-- The occurrences in a module. -/
def Module.occurrences (m : Module) : List Occurrence :=
  Statement.allOccurrences m.statements

/-! ### Occurrences among nodes -/

namespace Occurrence

/-- Occurrences that are among some nodes or inside of them. -/
def AllAmong (occurrences : List Occurrence) (nodes : List Node) : Prop :=
  ∀ o ∈ occurrences, o.node ∈ Node.allOf nodes

namespace AllAmong

variable {occs occs' : List Occurrence} {nodes nodes' : List Node}

lemma nil : AllAmong [] nodes :=
  nofun

lemma one {o : Occurrence} : AllAmong [o] [o.node] :=
  List.forall_mem_singleton.2 (Node.mem_allOf List.mem_cons_self)

lemma append (h : AllAmong occs nodes) (h' : AllAmong occs' nodes') : AllAmong (occs ++ occs') (nodes ++ nodes') := by
  intro o member
  rw [Node.allOf_append]
  exact List.mem_append.2 ((List.mem_append.1 member).imp (h o) (h' o))

lemma left (h : AllAmong occs nodes) : AllAmong occs (nodes ++ nodes') :=
  (List.append_nil occs) ▸ h.append nil

lemma right (h : AllAmong occs nodes') : AllAmong occs (nodes ++ nodes') :=
  AllAmong.append nil h

lemma inside {kind : Node.Kind} {span : Span} (h : AllAmong occs nodes) : AllAmong occs [.mk kind span nodes] :=
  fun o member => List.mem_append_left _ (List.mem_cons_of_mem _ (h o member))

end AllAmong

end Occurrence

open Occurrence (AllAmong)

mutual

/-- The occurrences in an expression are among its nodes. -/
theorem Expr.occurrences_among (e : Expr) : AllAmong e.occurrences [e.node] :=
  match e with
  | .name _ | .path _ _ _ => .one
  | .literal _ _ => .nil
  | .array items _ => (Expr.all_among items).inside
  | .range start stop _ _ => ((Expr.occurrences_among start).append (Expr.occurrences_among stop)).inside
  | .binary _ left right _ => ((Expr.occurrences_among left).append (Expr.occurrences_among right)).inside
  | .unary _ operand _ => (Expr.occurrences_among operand).inside
  | .call callee args _ => ((Expr.occurrences_among callee).append (Argument.all_among args)).inside
  | .index base index _ => ((Expr.occurrences_among base).append (Expr.occurrences_among index)).inside
  | .lambda f => Lambda.occurrences_among f
  | .block b => Block.occurrences_among b
  | .branch b => Branch.occurrences_among b
  | .pipeline ⟨stages, _⟩ => (Stage.all_among stages).inside
  | .loop l => Loop.occurrences_among l
termination_by structural e

theorem Expr.all_among (es : List Expr) : AllAmong (Expr.allOccurrences es) (Expr.allNodes es) :=
  match es with
  | [] => .nil
  | e :: es => (Expr.occurrences_among e).append (Expr.all_among es)
termination_by structural es

theorem Argument.all_among (args : List Argument) :
    AllAmong (Argument.allOccurrences args) (Argument.allNodes args) :=
  match args with
  | [] => .nil
  | ⟨_, value⟩ :: args => ((Expr.occurrences_among value).append (Argument.all_among args)).right
termination_by structural args

theorem Param.all_among (ps : List Param) : AllAmong (Param.allOccurrences ps) (Param.allNodes ps) :=
  match ps with
  | [] => .nil
  | ⟨name, note, none, span⟩ :: ps => by
    have first : AllAmong [] [Param.node ⟨name, note, none, span⟩] := .nil
    exact first.append (Param.all_among ps)
  | ⟨name, note, some e, span⟩ :: ps => by
    have inner : AllAmong e.occurrences ([name.node] ++ (TypeNote.optionNodes note ++ [e.node])) :=
      (Expr.occurrences_among e).right.right
    have first : AllAmong e.occurrences [Param.node ⟨name, note, some e, span⟩] := inner.inside
    exact first.append (Param.all_among ps)
termination_by structural ps

theorem Lambda.occurrences_among (f : Lambda) : AllAmong f.occurrences [f.node] :=
  match f with
  | ⟨ps, _, body, _⟩ => ((Param.all_among ps).append (Expr.occurrences_among body).right).inside
termination_by structural f

theorem Block.occurrences_among (b : Block) : AllAmong b.occurrences [b.node] :=
  match b with
  | ⟨statements, _⟩ => (Statement.all_among statements).inside
termination_by structural b

theorem Statement.all_among (ss : List Statement) : AllAmong (Statement.allOccurrences ss) (Statement.allNodes ss) :=
  match ss with
  | [] => .nil
  | s :: ss => (Statement.occurrences_among s).append (Statement.all_among ss)
termination_by structural ss

theorem Statement.occurrences_among (s : Statement) : AllAmong s.occurrences [s.node] :=
  match s with
  | .importing _ => .one
  | .define _ name value _ => by
    have parts : AllAmong value.occurrences ([name.node] ++ [value.node]) := (Expr.occurrences_among value).right
    exact parts.inside
  | .expr e _ => (Expr.occurrences_among e).inside
termination_by structural s

theorem Branch.occurrences_among (b : Branch) : AllAmong b.occurrences [b.node] :=
  match b with
  | ⟨condition, consequence, other, _⟩ =>
    ((Expr.occurrences_among condition).append ((Block.occurrences_among consequence).append
      (Alternative.occurrences_among other))).inside
termination_by structural b

theorem Alternative.occurrences_among (a : Alternative) : AllAmong a.occurrences a.nodes :=
  match a with
  | .absent => .nil
  | .block b => Block.occurrences_among b
  | .branch b => Branch.occurrences_among b
termination_by structural a

theorem Stage.all_among (ss : List Stage) : AllAmong (Stage.allOccurrences ss) (Stage.allNodes ss) :=
  match ss with
  | [] => .nil
  | s :: ss => (Stage.occurrences_among s).append (Stage.all_among ss)
termination_by structural ss

theorem Stage.occurrences_among (s : Stage) : AllAmong s.occurrences [s.node] :=
  match s with
  | .expr e tag _ => by
    have parts : AllAmong e.occurrences ([e.node] ++ Ident.optionNodes tag) := (Expr.occurrences_among e).left
    exact parts.inside
  | .operator _ operand tag _ => by
    have parts : AllAmong operand.occurrences ([operand.node] ++ Ident.optionNodes tag) :=
      (Expr.occurrences_among operand).left
    exact parts.inside
termination_by structural s

theorem Loop.occurrences_among (l : Loop) : AllAmong l.occurrences [l.node] :=
  match l with
  | ⟨sequence, binding, ⟨stages, inner⟩, span⟩ => by
    have body : AllAmong (Stage.allOccurrences stages) [Pipeline.node ⟨stages, inner⟩] := (Stage.all_among stages).inside
    have bound : AllAmong (Stage.allOccurrences stages) ([binding.node] ++ [Pipeline.node ⟨stages, inner⟩]) := body.right
    have parts : AllAmong (sequence.occurrences ++ Stage.allOccurrences stages)
        ([sequence.node] ++ ([binding.node] ++ [Pipeline.node ⟨stages, inner⟩])) :=
      (Expr.occurrences_among sequence).append bound
    exact parts.inside
termination_by structural l

end

/-! ### Places -/

/-- A place between two offsets, both of its ends included. -/
def Span.Between (lo hi : Nat) (s : Span) : Prop :=
  lo ≤ s.start ∧ s.start < s.stop ∧ s.stop ≤ hi

/-- An occurrence that holds in its place what it is made up of. -/
def Occurrence.Placed (o : Occurrence) : Prop :=
  ∀ part ∈ o.node.parts, part.span.Between o.span.start o.span.stop

/-- The name that is looked up stands in the occurrence. -/
lemma Occurrence.Placed.head {o : Occurrence} {head : Ident} (h : o.Placed) (proper : o.span.start < o.span.stop)
    (same : o.head? = some head) : head.span.Between o.span.start o.span.stop := by
  cases o with
  | name ident =>
    cases same
    exact ⟨Nat.le_refl _, proper, Nat.le_refl _⟩
  | path first rest span =>
    cases same
    exact h head.node List.mem_cons_self
  | importing i => cases same

/-- The occurrences of what is parsed hold in place what they are made up of. -/
theorem Module.parse_placed {source : String} {m : Module} (h : Module.parse source = .ok m) :
    ∀ o ∈ m.occurrences, o.Placed := by
  obtain ⟨hi, -, places, -⟩ := Module.parse_inPlace h
  intro o member part held
  obtain ⟨first, from_, -, parts⟩ := places.parts_inPlace o.node (Statement.all_among m.statements o member)
  obtain ⟨start, proper, stop, -⟩ := parts.within part (Node.mem_allOf held)
  have same : o.node.span = o.span := by
    cases o with
    | name | path => rfl
    | importing i =>
      simp only [Occurrence.node, Occurrence.span, Import.node]
      cases i.items <;> rfl
  rw [same] at from_ stop
  exact ⟨Nat.le_trans from_ start, proper, stop⟩

end PipeLang
