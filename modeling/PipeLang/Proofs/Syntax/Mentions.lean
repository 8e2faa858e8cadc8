import PipeLang.Proofs.Syntax.Ordered

/-!
# Mentions

What stands in a piece of syntax and refers to something outside of it: the uses of names and paths, and the import
statements.
-/

namespace PipeLang

/-- Something in syntax that refers to other things than its own parts. -/
inductive Mention where
  /-- A name or path at a place. -/
  | use (site : Span)
  | importing (statement : Import)

mutual

/-- The mentions in an expression. -/
def Expr.mentions : Expr → List Mention
  | .name ident => [.use ident.span]
  | .path _ _ span => [.use span]
  | .literal _ _ => []
  | .array items _ => Expr.allMentions items
  | .range start stop _ _ => start.mentions ++ stop.mentions
  | .binary _ left right _ => left.mentions ++ right.mentions
  | .unary _ operand _ => operand.mentions
  | .call callee args _ => callee.mentions ++ Argument.allMentions args
  | .index base index _ => base.mentions ++ index.mentions
  | .lambda f => f.mentions
  | .block b => b.mentions
  | .branch b => b.mentions
  | .pipeline p => p.mentions
  | .loop l => l.mentions
termination_by structural e => e

/-- The mentions in some expressions. -/
def Expr.allMentions : List Expr → List Mention
  | [] => []
  | e :: es => e.mentions ++ Expr.allMentions es
termination_by structural es => es

/-- The mentions in some arguments. -/
def Argument.allMentions : List Argument → List Mention
  | [] => []
  | ⟨_, value⟩ :: args => value.mentions ++ Argument.allMentions args
termination_by structural args => args

/-- The mentions in the defaults of some parameters. -/
def Param.allMentions : List Param → List Mention
  | [] => []
  | ⟨_, _, none, _⟩ :: ps => Param.allMentions ps
  | ⟨_, _, some e, _⟩ :: ps => e.mentions ++ Param.allMentions ps
termination_by structural ps => ps

/-- The mentions in a function literal. -/
def Lambda.mentions : Lambda → List Mention
  | ⟨ps, _, body, _⟩ => Param.allMentions ps ++ body.mentions
termination_by structural f => f

/-- The mentions in a block. -/
def Block.mentions : Block → List Mention
  | ⟨statements, _⟩ => Statement.allMentions statements
termination_by structural b => b

/-- The mentions in some statements. -/
def Statement.allMentions : List Statement → List Mention
  | [] => []
  | s :: ss => s.mentions ++ Statement.allMentions ss
termination_by structural ss => ss

/-- The mentions in a statement. -/
def Statement.mentions : Statement → List Mention
  | .importing i => [.importing i]
  | .define _ _ value _ => value.mentions
  | .expr e _ => e.mentions
termination_by structural s => s

/-- The mentions in a conditional. -/
def Branch.mentions : Branch → List Mention
  | ⟨condition, consequence, other, _⟩ => condition.mentions ++ consequence.mentions ++ other.mentions
termination_by structural b => b

/-- The mentions in what follows `else`. -/
def Alternative.mentions : Alternative → List Mention
  | .absent => []
  | .block b => b.mentions
  | .branch b => b.mentions
termination_by structural a => a

/-- The mentions in a pipeline. -/
def Pipeline.mentions : Pipeline → List Mention
  | ⟨stages, _⟩ => Stage.allMentions stages
termination_by structural p => p

/-- The mentions in some stages. -/
def Stage.allMentions : List Stage → List Mention
  | [] => []
  | s :: ss => s.mentions ++ Stage.allMentions ss
termination_by structural ss => ss

/-- The mentions in a stage. -/
def Stage.mentions : Stage → List Mention
  | .expr e _ _ => e.mentions
  | .operator _ operand _ _ => operand.mentions
termination_by structural s => s

/-- The mentions in a loop. -/
def Loop.mentions : Loop → List Mention
  | ⟨sequence, _, body, _⟩ => sequence.mentions ++ body.mentions
termination_by structural l => l

end

lemma Param.mem_allMentions {mention : Mention} {ps : List Param} :
    mention ∈ Param.allMentions ps ↔ ∃ q ∈ ps, ∃ e, q.fallback = some e ∧ mention ∈ e.mentions := by
  induction ps with
  | nil => simp [Param.allMentions]
  | cons q ps ih =>
    obtain ⟨name, note, fallback, span⟩ := q
    cases fallback <;> simp [Param.allMentions, ih]

/-- No name or path ends behind an offset. -/
def Mention.Before (hi : Nat) (mentions : List Mention) : Prop :=
  ∀ site, .use site ∈ mentions → site.stop ≤ hi

namespace Mention.Before

variable {mentions others : List Mention} {hi hi' : Nat}

lemma widen (h : Before hi mentions) (le : hi ≤ hi') : Before hi' mentions :=
  fun site member => Nat.le_trans (h site member) le

lemma append (h : Before hi mentions) (h' : Before hi others) : Before hi (mentions ++ others) :=
  fun site member => (List.mem_append.1 member).elim (h site) (h' site)

lemma nil : Before hi [] := nofun

lemma use {site : Span} (le : site.stop ≤ hi) : Before hi [.use site] := by
  intro site' member
  cases List.mem_singleton.1 member
  exact le

end Mention.Before

open Mention (Before)

/-- A place before another ends before the end of the other. -/
lemma Span.Proper.before {place : Span} (proper : place.Proper) {stop hi : Nat} (apart : stop ≤ place.start)
    (behind : place.stop ≤ hi) : stop ≤ hi :=
  Nat.le_trans apart (Nat.le_trans (Nat.le_of_lt proper) behind)

mutual

/-- What an expression mentions stands in it. -/
theorem Expr.Ordered.mentions (e : Expr) (h : e.Ordered) : Before e.span.stop e.mentions :=
  match e with
  | .name _ | .path _ _ _ => .use (Nat.le_refl _)
  | .literal _ _ => .nil
  | .array items _ => by
    cases h with
    | array _ order ordered =>
      exact Expr.all_before items ordered fun e member => (order.within (List.mem_map_of_mem member)).2.2
  | .range start stop _ _ => by
    cases h with
    | range _ first apart last behind =>
      exact ((Expr.Ordered.mentions start first).widen (last.proper.before (Nat.le_of_lt apart) behind)).append
        ((Expr.Ordered.mentions stop last).widen behind)
  | .binary _ left right _ => by
    cases h with
    | binary _ first apart last behind =>
      exact ((Expr.Ordered.mentions left first).widen (last.proper.before (Nat.le_of_lt apart) behind)).append
        ((Expr.Ordered.mentions right last).widen behind)
  | .unary _ operand _ => by
    cases h with
    | unary _ inner behind => exact (Expr.Ordered.mentions operand inner).widen behind
  | .call callee args _ => by
    cases h with
    | call _ first behind order ordered =>
      exact ((Expr.Ordered.mentions callee first).widen (Nat.le_of_lt behind)).append
        (Argument.all_before args ordered fun a member => (order.within (List.mem_map_of_mem member)).2.2)
  | .index base index _ => by
    cases h with
    | index _ first apart last behind =>
      exact ((Expr.Ordered.mentions base first).widen (last.proper.before (Nat.le_of_lt apart) behind)).append
        ((Expr.Ordered.mentions index last).widen behind)
  | .lambda f => by
    cases h with
    | lambda inner => exact Lambda.Ordered.mentions f inner
  | .block b => by
    cases h with
    | block inner => exact Block.Ordered.mentions b inner
  | .branch b => by
    cases h with
    | branch inner => exact Branch.Ordered.mentions b inner
  | .pipeline p => by
    cases h with
    | pipeline inner => exact Pipeline.Ordered.mentions p inner
  | .loop l => by
    cases h with
    | loop inner => exact Loop.Ordered.mentions l inner
termination_by structural e

theorem Expr.all_before {hi : Nat} (es : List Expr) (ordered : ∀ e ∈ es, e.Ordered) (inside : ∀ e ∈ es, e.span.stop ≤ hi) :
    Before hi (Expr.allMentions es) :=
  match es with
  | [] => .nil
  | e :: es => by
    obtain ⟨first, others⟩ := List.forall_mem_cons.1 ordered
    obtain ⟨le, inside⟩ := List.forall_mem_cons.1 inside
    exact ((Expr.Ordered.mentions e first).widen le).append (Expr.all_before es others inside)
termination_by structural es

theorem Argument.all_before {hi : Nat} (args : List Argument) (ordered : ∀ a ∈ args, a.value.Ordered)
    (inside : ∀ a ∈ args, a.value.span.stop ≤ hi) : Before hi (Argument.allMentions args) :=
  match args with
  | [] => .nil
  | ⟨name, value⟩ :: args => by
    obtain ⟨first, others⟩ := List.forall_mem_cons.1 ordered
    obtain ⟨le, inside⟩ := List.forall_mem_cons.1 inside
    exact Before.append ((Expr.Ordered.mentions value first).widen le) (Argument.all_before args others inside)
termination_by structural args

theorem Param.all_before {hi : Nat} (ps : List Param) (ordered : ∀ q ∈ ps, q.Ordered) (inside : ∀ q ∈ ps, q.span.stop ≤ hi) :
    Before hi (Param.allMentions ps) :=
  match ps with
  | [] => .nil
  | ⟨_, _, none, _⟩ :: ps =>
    Param.all_before ps (List.forall_mem_cons.1 ordered).2 (List.forall_mem_cons.1 inside).2
  | ⟨_, _, some e, _⟩ :: ps => by
    obtain ⟨first, others⟩ := List.forall_mem_cons.1 ordered
    obtain ⟨le, inside⟩ := List.forall_mem_cons.1 inside
    cases first with
    | mk _ _ _ _ inner behind =>
      exact Before.append ((Expr.Ordered.mentions e (inner e rfl)).widen (Nat.le_trans (behind e rfl) le))
        (Param.all_before ps others inside)
termination_by structural ps

theorem Lambda.Ordered.mentions (f : Lambda) (h : f.Ordered) : Before f.span.stop f.mentions :=
  match f with
  | ⟨ps, _, body, _⟩ => by
    cases h with
    | mk order params apart inner behind =>
      refine Before.append (Param.all_before ps params fun q member => ?_)
        ((Expr.Ordered.mentions body inner).widen behind)
      exact inner.proper.before (Nat.le_trans (order.within (List.mem_map_of_mem member)).2.2 (Nat.le_of_lt apart)) behind
termination_by structural f

theorem Block.Ordered.mentions (b : Block) (h : b.Ordered) : Before b.span.stop b.mentions :=
  match b with
  | ⟨statements, _⟩ => by
    cases h with
    | mk _ order ordered =>
      exact Statement.all_before statements ordered fun s member => (order.within (List.mem_map_of_mem member)).2.2
termination_by structural b

theorem Statement.all_before {hi : Nat} (ss : List Statement) (ordered : ∀ s ∈ ss, s.Ordered)
    (inside : ∀ s ∈ ss, s.span.stop ≤ hi) : Before hi (Statement.allMentions ss) :=
  match ss with
  | [] => .nil
  | s :: ss => by
    obtain ⟨first, others⟩ := List.forall_mem_cons.1 ordered
    obtain ⟨le, inside⟩ := List.forall_mem_cons.1 inside
    exact ((Statement.Ordered.mentions s first).widen le).append (Statement.all_before ss others inside)
termination_by structural ss

/-- What a statement mentions stands in it. -/
theorem Statement.Ordered.mentions (s : Statement) (h : s.Ordered) : Before s.span.stop s.mentions :=
  match s with
  | .importing _ => fun site member => nomatch List.mem_singleton.1 member
  | .define _ _ value _ => by
    cases h with
    | define _ _ _ inner behind => exact (Expr.Ordered.mentions value inner).widen behind
  | .expr e _ => by
    cases h with
    | expr inner => exact Expr.Ordered.mentions e inner
termination_by structural s

theorem Branch.Ordered.mentions (b : Branch) (h : b.Ordered) : Before b.span.stop b.mentions :=
  match b with
  | ⟨condition, consequence, other, _⟩ => by
    cases h with
    | mk _ first apart then_ behind else_ =>
      exact (((Expr.Ordered.mentions condition first).widen (then_.proper.before apart behind)).append
        ((Block.Ordered.mentions consequence then_).widen behind)).append (Alternative.Between.mentions other else_)
termination_by structural b

theorem Alternative.Between.mentions {lo hi : Nat} (a : Alternative) (h : Alternative.Between lo hi a) :
    Before hi a.mentions :=
  match a with
  | .absent => .nil
  | .block b => by
    cases h with
    | block _ inner behind => exact (Block.Ordered.mentions b inner).widen behind
  | .branch b => by
    cases h with
    | branch _ inner behind => exact (Branch.Ordered.mentions b inner).widen behind
termination_by structural a

theorem Pipeline.Ordered.mentions (p : Pipeline) (h : p.Ordered) : Before p.span.stop p.mentions :=
  match p with
  | ⟨stages, _⟩ => by
    cases h with
    | mk _ order ordered =>
      exact Stage.all_before stages ordered fun s member => (order.within (List.mem_map_of_mem member)).2.2
termination_by structural p

theorem Stage.all_before {hi : Nat} (ss : List Stage) (ordered : ∀ s ∈ ss, s.Ordered)
    (inside : ∀ s ∈ ss, s.span.stop ≤ hi) : Before hi (Stage.allMentions ss) :=
  match ss with
  | [] => .nil
  | s :: ss => by
    obtain ⟨first, others⟩ := List.forall_mem_cons.1 ordered
    obtain ⟨le, inside⟩ := List.forall_mem_cons.1 inside
    exact ((Stage.Ordered.mentions s first).widen le).append (Stage.all_before ss others inside)
termination_by structural ss

theorem Stage.Ordered.mentions (s : Stage) (h : s.Ordered) : Before s.span.stop s.mentions :=
  match s with
  | .expr e _ _ => by
    cases h with
    | expr _ inner behind _ => exact (Expr.Ordered.mentions e inner).widen behind
  | .operator _ operand _ _ => by
    cases h with
    | operator _ inner behind _ => exact (Expr.Ordered.mentions operand inner).widen behind
termination_by structural s

theorem Loop.Ordered.mentions (l : Loop) (h : l.Ordered) : Before l.span.stop l.mentions :=
  match l with
  | ⟨sequence, _, body, _⟩ => by
    cases h with
    | mk _ first apart binding before inner behind =>
      have apart := Nat.le_of_lt (Nat.lt_trans apart (Nat.lt_trans binding before))
      exact ((Expr.Ordered.mentions sequence first).widen (inner.proper.before apart behind)).append
        ((Pipeline.Ordered.mentions body inner).widen behind)
termination_by structural l

end

end PipeLang
