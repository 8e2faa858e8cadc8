import PipeLang.Proofs.Syntax.Demands
import PipeLang.Proofs.Syntax.Spelled

/-!
# Places of uses

Every use stands at a place of its own, since it is spelled by a name or a path of its own: `Demand.Sited`, and `Module.demanded` for
all of a module.
-/

namespace PipeLang

/-- Uses are spelled by names and paths, each by one of its own. -/
def Demand.Sited (ds : List Demand) (nodes : List Node) : Prop :=
  (ds.map Demand.site).Subperm (Node.places .identifier nodes ++ Node.places .path nodes)

namespace Demand.Sited

variable {ds ds' : List Demand} {nodes nodes' : List Node}

lemma nil : Sited [] nodes :=
  List.nil_subperm

/-- More nodes spell the same. -/
lemma more (h : Sited ds nodes) (sub : ∀ kind, (Node.places kind nodes).Subperm (Node.places kind nodes')) : Sited ds nodes' :=
  h.trans (subperm_append (sub _) (sub _))

lemma left (h : Sited ds nodes) : Sited ds (nodes ++ nodes') :=
  h.more fun _ => Node.places_append ▸ (List.sublist_append_left _ _).subperm

lemma right (h : Sited ds nodes') : Sited ds (nodes ++ nodes') :=
  h.more fun _ => Node.places_append ▸ (List.sublist_append_right _ _).subperm

/-- Nodes after another. -/
lemma after {n : Node} (h : Sited ds nodes) : Sited ds (n :: nodes) :=
  show Sited ds ([n] ++ nodes) from h.right

/-- Nodes inside of another. -/
lemma inside {kind : Node.Kind} {span : Span} (h : Sited ds nodes) : Sited ds [.mk kind span nodes] :=
  h.more fun _ => Node.places_inside.subperm

lemma append (h : Sited ds nodes) (h' : Sited ds' nodes') : Sited (ds ++ ds') (nodes ++ nodes') := by
  have order : ((Node.places .identifier nodes ++ Node.places .path nodes) ++
      (Node.places .identifier nodes' ++ Node.places .path nodes')).Perm
      (Node.places .identifier (nodes ++ nodes') ++ Node.places .path (nodes ++ nodes')) := by
    simp only [Node.places_append, List.append_assoc]
    exact (List.perm_append_comm_assoc _ _ _).append_left _
  rw [Sited, List.map_append]
  exact (subperm_append h h').trans order.subperm

lemma name (ident : Ident) (passed : List Span) : Sited [⟨ident.span, passed⟩] [ident.node] :=
  .refl _

lemma path (head : Ident) (rest : List Ident) (span : Span) (passed : List Span) :
    Sited [⟨head.span, passed⟩, ⟨span, passed⟩] [.mk .path span (head.node :: rest.map Ident.node)] := by
  have first : List.Sublist [head.span] (Node.places .identifier (head.node :: rest.map Ident.node)) := by
    show List.Sublist [head.span] (Node.places .identifier ([head.node] ++ rest.map Ident.node))
    rw [Node.places_append]
    exact List.sublist_append_left _ _
  have second : List.Sublist [span] (Node.places .path [.mk .path span (head.node :: rest.map Ident.node)]) := by
    simp [Node.places, Node.allOf, Node.all, Node.kind, Node.span]
  exact ((first.trans Node.places_inside).append second).subperm

end Demand.Sited

open Demand (Sited)

mutual

/-- The uses in an expression are spelled by its node. -/
theorem Expr.demanded (e : Expr) (passed : List Span) : Sited (e.demands passed) [e.node] :=
  match e with
  | .name ident => .name ident passed
  | .path head rest span => .path head rest span passed
  | .literal _ _ => .nil
  | .array items _ => (Expr.all_demanded items passed).inside
  | .range start stop _ _ => ((Expr.demanded start passed).append (Expr.demanded stop passed)).inside
  | .binary _ left right _ => ((Expr.demanded left passed).append (Expr.demanded right passed)).inside
  | .unary _ operand _ => (Expr.demanded operand passed).inside
  | .call callee args _ => ((Expr.demanded callee passed).append (Argument.all_demanded args passed)).inside
  | .index base index _ => ((Expr.demanded base passed).append (Expr.demanded index passed)).inside
  | .lambda f => Lambda.demanded f passed
  | .block b => Block.demanded b passed
  | .branch b => Branch.demanded b passed
  | .pipeline ⟨stages, _⟩ => (Stage.all_demanded stages passed).inside
  | .loop l => Loop.demanded l passed
termination_by structural e

theorem Expr.all_demanded (es : List Expr) (passed : List Span) : Sited (Expr.allDemands es passed) (Expr.allNodes es) :=
  match es with
  | [] => .nil
  | e :: es => (Expr.demanded e passed).append (Expr.all_demanded es passed)
termination_by structural es

theorem Argument.all_demanded (args : List Argument) (passed : List Span) :
    Sited (Argument.allDemands args passed) (Argument.allNodes args) :=
  match args with
  | [] => .nil
  | ⟨_, value⟩ :: args => ((Expr.demanded value passed).append (Argument.all_demanded args passed)).right
termination_by structural args

theorem Param.all_demanded (ps : List Param) (passed : List Span) : Sited (Param.allDemands ps passed) (Param.allNodes ps) :=
  match ps with
  | [] => .nil
  | ⟨_, _, none, _⟩ :: ps => (Param.all_demanded ps passed).after
  | ⟨name, note, some e, span⟩ :: ps => by
    have first : Sited (e.demands passed) [Param.node ⟨name, note, some e, span⟩] :=
      (Expr.demanded e passed).right.after.inside
    exact first.append (Param.all_demanded ps passed)
termination_by structural ps

theorem Lambda.demanded (f : Lambda) (passed : List Span) : Sited (f.demands passed) [f.node] :=
  match f with
  | ⟨ps, _, body, _⟩ => ((Param.all_demanded ps passed).append (Expr.demanded body passed).right).inside
termination_by structural f

theorem Block.demanded (b : Block) (passed : List Span) : Sited (b.demands passed) [b.node] :=
  match b with
  | ⟨statements, _⟩ => (Statement.all_demanded statements passed).inside
termination_by structural b

theorem Statement.all_demanded (ss : List Statement) (passed : List Span) :
    Sited (Statement.allDemands ss passed) (Statement.allNodes ss) :=
  match ss with
  | [] => .nil
  | s :: ss => (Statement.demanded s passed).append (Statement.all_demanded ss _)
termination_by structural ss

theorem Statement.demanded (s : Statement) (passed : List Span) : Sited (s.demands passed) [s.node] :=
  match s with
  | .importing _ => .nil
  | .define _ _ value _ => (Expr.demanded value passed).after.inside
  | .expr e _ => (Expr.demanded e passed).inside
termination_by structural s

theorem Branch.demanded (b : Branch) (passed : List Span) : Sited (b.demands passed) [b.node] :=
  match b with
  | ⟨condition, consequence, other, _⟩ => by
    rw [Branch.demands, List.append_assoc]
    exact ((Expr.demanded condition passed).append ((Block.demanded consequence passed).append (Alternative.demanded other passed))).inside
termination_by structural b

theorem Alternative.demanded (a : Alternative) (passed : List Span) : Sited (a.demands passed) a.nodes :=
  match a with
  | .absent => .nil
  | .block b => Block.demanded b passed
  | .branch b => Branch.demanded b passed
termination_by structural a

theorem Stage.all_demanded (ss : List Stage) (passed : List Span) : Sited (Stage.allDemands ss passed) (Stage.allNodes ss) :=
  match ss with
  | [] => .nil
  | s :: ss => (Stage.demanded s passed).append (Stage.all_demanded ss passed)
termination_by structural ss

theorem Stage.demanded (s : Stage) (passed : List Span) : Sited (s.demands passed) [s.node] :=
  match s with
  | .expr e _ _ => (Expr.demanded e passed).left.inside
  | .operator _ operand _ _ => (Expr.demanded operand passed).left.inside
termination_by structural s

theorem Loop.demanded (l : Loop) (passed : List Span) : Sited (l.demands passed) [l.node] :=
  match l with
  | ⟨sequence, _, ⟨stages, _⟩, _⟩ =>
    ((Expr.demanded sequence passed).append (Stage.all_demanded stages passed).inside.after).inside
termination_by structural l

end

/-- The uses in a module are spelled by its node. -/
theorem Module.demanded (m : Module) : Sited (Statement.allDemands m.statements []) [m.node] :=
  (Statement.all_demanded m.statements []).inside

end PipeLang
