import Mathlib.Data.List.Perm.Subperm
import PipeLang.Proofs.Syntax.Nodes
import PipeLang.Proofs.Syntax.Pieces

/-!
# Places of names and loops

The names that are given values in frames stand at places of their own, and so do the loops, since each is a node of the syntax:
`Spelled`, and `Module.spelled` for all of a module.
-/

namespace PipeLang

lemma subperm_append {α : Type} {l l' k k' : List α} (h : l.Subperm k) (h' : l'.Subperm k') : (l ++ l').Subperm (k ++ k') :=
  ((List.subperm_append_right l').2 h).trans ((List.subperm_append_left k).2 h')

lemma nodup_of_subperm {α : Type} {l k : List α} (h : l.Subperm k) (distinct : k.Nodup) : l.Nodup := by
  obtain ⟨l', perm, sub⟩ := h
  exact perm.nodup_iff.1 (distinct.sublist sub)

namespace Node

variable {kind : Kind} {nodes others : List Node}

lemma allOf_append : allOf (nodes ++ others) = allOf nodes ++ allOf others := by
  induction nodes with
  | nil => rfl
  | cons n nodes ih => simp only [List.cons_append, allOf, ih, List.append_assoc]

/-- The places of the nodes of one kind in some trees. -/
def places (kind : Kind) (nodes : List Node) : List Span :=
  ((allOf nodes).filter fun n => n.kind = kind).map span

lemma places_append : places kind (nodes ++ others) = places kind nodes ++ places kind others := by
  simp only [places, allOf_append, List.filter_append, List.map_append]

/-- What stands in a node stands in the tree. -/
lemma places_inside {outer : Kind} {span : Span} : (places kind nodes).Sublist (places kind [mk outer span nodes]) := by
  simp only [places, allOf, all, List.append_nil]
  exact (List.Sublist.filter _ (List.sublist_cons_self _ _)).map _

lemma places_loop {span : Span} : places .loop [mk .loop span nodes] = span :: places .loop nodes := by
  simp [places, allOf, all, Node.kind]

end Node

lemma Ident.places_optionNodes (name : Option Ident) :
    Node.places .identifier (Ident.optionNodes name) = name.toList.map Ident.span := by
  cases name <;> rfl

/-- Names and pieces are spelled by nodes: each of the names and of those in the frames of the pieces by a node of its own, and each
loop by a node. -/
structure Spelled (names : List Ident) (pieces : List Piece) (nodes : List Node) : Prop where
  names : ((names ++ Piece.allNames pieces).map Ident.span).Subperm (Node.places .identifier nodes)
  loops : ((Piece.loops pieces).map Loop.span).Subperm (Node.places .loop nodes)

namespace Spelled

variable {names names' : List Ident} {pieces pieces' : List Piece} {nodes nodes' : List Node}

lemma nil : Spelled [] [] nodes :=
  ⟨List.nil_subperm, List.nil_subperm⟩

/-- More nodes spell the same. -/
lemma more (h : Spelled names pieces nodes) (sub : ∀ kind, (Node.places kind nodes).Subperm (Node.places kind nodes')) :
    Spelled names pieces nodes' :=
  ⟨h.names.trans (sub _), h.loops.trans (sub _)⟩

lemma left (h : Spelled names pieces nodes) : Spelled names pieces (nodes ++ nodes') :=
  h.more fun _ => Node.places_append ▸ (List.sublist_append_left _ _).subperm

lemma right (h : Spelled names pieces nodes') : Spelled names pieces (nodes ++ nodes') :=
  h.more fun _ => Node.places_append ▸ (List.sublist_append_right _ _).subperm

/-- Nodes inside of another. -/
lemma inside {kind : Node.Kind} {span : Span} (h : Spelled names pieces nodes) : Spelled names pieces [.mk kind span nodes] :=
  h.more fun _ => Node.places_inside.subperm

/-- Some of the names, in whatever order. -/
lemma fewer (h : Spelled names pieces nodes)
    (sub : (names' ++ Piece.allNames pieces').Subperm (names ++ Piece.allNames pieces))
    (same : Piece.loops pieces' = Piece.loops pieces) : Spelled names' pieces' nodes where
  names := by
    obtain ⟨l, perm, sub⟩ := sub
    exact List.Subperm.trans ⟨l.map Ident.span, perm.map _, sub.map _⟩ h.names
  loops := same ▸ h.loops

lemma append (h : Spelled names pieces nodes) (h' : Spelled names' pieces' nodes') :
    Spelled (names ++ names') (pieces ++ pieces') (nodes ++ nodes') where
  names := by
    have order : ((names ++ names') ++ (Piece.allNames pieces ++ Piece.allNames pieces')).Perm
        ((names ++ Piece.allNames pieces) ++ (names' ++ Piece.allNames pieces')) := by
      simp only [List.append_assoc]
      exact (List.perm_append_comm_assoc _ _ _).append_left _
    rw [Piece.allNames_append, Node.places_append]
    refine (order.map Ident.span).subperm.trans ?_
    rw [List.map_append]
    exact subperm_append h.names h'.names
  loops := by
    rw [Piece.loops_append, List.map_append, Node.places_append]
    exact subperm_append h.loops h'.loops

/-- A name that may be left out is spelled by its node. -/
lemma tag (name : Option Ident) : Spelled name.toList [] (Ident.optionNodes name) where
  names := by
    rw [Ident.places_optionNodes]
    cases name <;> exact .refl _
  loops := List.nil_subperm

lemma ident (name : Ident) : Spelled [name] [] [name.node] :=
  tag (some name)

/-- A piece whose frames are given the names. -/
lemma around {q : Piece} (h : Spelled names pieces nodes) (same : q.names = names) (plain : q.loop? = none) :
    Spelled [] (q :: pieces) nodes := by
  refine h.fewer ?_ (by rw [Piece.loops, List.filterMap_cons, plain]; rfl)
  rw [List.nil_append, Piece.allNames_cons, same]

/-- Two names in another order. -/
lemma swap (h : Spelled (names ++ names') pieces nodes) : Spelled (names' ++ names) pieces nodes :=
  h.fewer (List.perm_append_comm.append_right _).subperm rfl

end Spelled

mutual

/-- The tags and the pieces of an expression are spelled by its node. -/
theorem Expr.spelled (e : Expr) : Spelled e.tags e.pieces [e.node] :=
  match e with
  | .name _ | .path _ _ _ | .literal _ _ => .nil
  | .array items _ => (Expr.all_spelled items).inside
  | .range start stop _ _ => ((Expr.spelled start).append (Expr.spelled stop)).inside
  | .binary _ left right _ => ((Expr.spelled left).append (Expr.spelled right)).inside
  | .unary _ operand _ => (Expr.spelled operand).inside
  | .call callee args _ => ((Expr.spelled callee).append (Argument.all_spelled args)).inside
  | .index base index _ => ((Expr.spelled base).append (Expr.spelled index)).inside
  | .lambda f => Lambda.spelled f
  | .block b => Block.spelled b
  | .branch b => Branch.spelled b
  | .pipeline ⟨stages, span⟩ => by
    have whole : Spelled (Stage.allTags stages) (.pipeline ⟨stages, span⟩ :: Stage.allPieces stages) (Stage.allNodes stages) :=
      (Stage.all_spelled stages).fewer (.refl _) rfl
    exact whole.inside
  | .loop l => Loop.spelled l
termination_by structural e

theorem Expr.all_spelled (es : List Expr) : Spelled (Expr.allTags es) (Expr.allPieces es) (Expr.allNodes es) :=
  match es with
  | [] => .nil
  | e :: es => (Expr.spelled e).append (Expr.all_spelled es)
termination_by structural es

theorem Argument.all_spelled (args : List Argument) :
    Spelled (Argument.allTags args) (Argument.allPieces args) (Argument.allNodes args) :=
  match args with
  | [] => .nil
  | ⟨_, value⟩ :: args => ((Expr.spelled value).append (Argument.all_spelled args)).right
termination_by structural args

theorem Param.all_spelled (ps : List Param) :
    Spelled (ps.flatMap Param.names) (Param.allPieces ps) (Param.allNodes ps) :=
  match ps with
  | [] => .nil
  | ⟨name, note, none, span⟩ :: ps => by
    have first : Spelled [name] [] [Param.node ⟨name, note, none, span⟩] := (Spelled.ident name).left.inside
    exact first.append (Param.all_spelled ps)
  | ⟨name, note, some e, span⟩ :: ps => by
    -- the name stands before the default, and is given its value behind it
    have both : Spelled ([name] ++ e.tags) ([] ++ e.pieces) ([name.node] ++ (TypeNote.optionNodes note ++ [e.node])) :=
      (Spelled.ident name).append (Expr.spelled e).right
    have first : Spelled (e.tags ++ [name]) e.pieces [Param.node ⟨name, note, some e, span⟩] := both.swap.inside
    exact first.append (Param.all_spelled ps)
termination_by structural ps

theorem Lambda.spelled (f : Lambda) : Spelled [] f.pieces [f.node] :=
  match f with
  | ⟨ps, returns, body, span⟩ => by
    have parts : Spelled (ps.flatMap Param.names ++ body.tags) (Param.allPieces ps ++ body.pieces)
        (Param.allNodes ps ++ (TypeNote.optionNodes returns ++ [body.node])) :=
      (Param.all_spelled ps).append (Expr.spelled body).right
    exact (parts.around (q := .lambda ⟨ps, returns, body, span⟩) rfl rfl).inside
termination_by structural f

theorem Block.spelled (b : Block) : Spelled [] b.pieces [b.node] :=
  match b with
  | ⟨statements, span⟩ =>
    ((Statement.all_spelled statements).around (q := .block ⟨statements, span⟩) rfl rfl).inside
termination_by structural b

theorem Statement.all_spelled (ss : List Statement) :
    Spelled (ss.flatMap Statement.names) (Statement.allPieces ss) (Statement.allNodes ss) :=
  match ss with
  | [] => .nil
  | s :: ss => (Statement.spelled s).append (Statement.all_spelled ss)
termination_by structural ss

theorem Statement.spelled (s : Statement) : Spelled s.names s.pieces [s.node] :=
  match s with
  | .importing _ => .nil
  | .define _ name value _ => by
    have both : Spelled ([name] ++ value.tags) ([] ++ value.pieces) ([name.node] ++ [value.node]) :=
      (Spelled.ident name).append (Expr.spelled value)
    exact both.swap.inside
  | .expr e _ => (Expr.spelled e).inside
termination_by structural s

theorem Branch.spelled (b : Branch) : Spelled b.tags b.pieces [b.node] :=
  match b with
  | ⟨condition, consequence, other, _⟩ =>
    ((Expr.spelled condition).append ((Block.spelled consequence).append (Alternative.spelled other))).inside
termination_by structural b

theorem Alternative.spelled (a : Alternative) : Spelled a.tags a.pieces a.nodes :=
  match a with
  | .absent => .nil
  | .block b => Block.spelled b
  | .branch b => Branch.spelled b
termination_by structural a

theorem Stage.all_spelled (ss : List Stage) : Spelled (Stage.allTags ss) (Stage.allPieces ss) (Stage.allNodes ss) :=
  match ss with
  | [] => .nil
  | s :: ss => (Stage.spelled s).append (Stage.all_spelled ss)
termination_by structural ss

theorem Stage.spelled (s : Stage) : Spelled s.tags s.pieces [s.node] :=
  match s with
  | .expr e tag _ => by
    have both : Spelled (e.tags ++ tag.toList) (e.pieces ++ []) ([e.node] ++ Ident.optionNodes tag) := (Expr.spelled e).append (.tag tag)
    rw [List.append_nil] at both
    exact both.inside
  | .operator _ operand tag _ => by
    have both : Spelled (operand.tags ++ tag.toList) (operand.pieces ++ []) ([operand.node] ++ Ident.optionNodes tag) :=
      (Expr.spelled operand).append (.tag tag)
    rw [List.append_nil] at both
    exact both.inside
termination_by structural s

theorem Loop.spelled (l : Loop) : Spelled l.tags l.pieces [l.node] :=
  match l with
  | ⟨sequence, binding, ⟨stages, inner⟩, span⟩ => by
    have body : Spelled (Stage.allTags stages) (Stage.allPieces stages) [Pipeline.node ⟨stages, inner⟩] :=
      (Stage.all_spelled stages).inside
    have bound : Spelled ([binding] ++ Stage.allTags stages) (Stage.allPieces stages)
        ([binding.node] ++ [Pipeline.node ⟨stages, inner⟩]) := (Spelled.ident binding).append body
    have parts : Spelled (sequence.tags ++ ([binding] ++ Stage.allTags stages)) (sequence.pieces ++ Stage.allPieces stages)
        ([sequence.node] ++ ([binding.node] ++ [Pipeline.node ⟨stages, inner⟩])) := (Expr.spelled sequence).append bound
    refine ⟨?_, ?_⟩
    · refine List.Subperm.trans ?_ parts.inside.names
      refine (List.Perm.map Ident.span ?_).subperm
      simp only [Loop.tags, Loop.pieces, Piece.allNames_cons, Piece.names, List.append_assoc]
      exact (List.perm_append_comm_assoc _ _ _).append_left _
    · show List.Subperm (span :: _) _
      rw [Loop.node, Node.places_loop]
      exact (List.subperm_cons _).2 parts.loops
termination_by structural l

end

/-- The names in the frame of a module and in those of its pieces are spelled by its node, and so are its loops. -/
theorem Module.spelled (m : Module) : Spelled m.names m.pieces [m.node] :=
  (Statement.all_spelled m.statements).inside

end PipeLang
