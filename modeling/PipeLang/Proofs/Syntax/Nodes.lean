import Mathlib.Tactic.Lemma
import PipeLang.Expr

/-!
# Nodes of syntax

Every piece of syntax as a tree of places, in which each piece that has a place of its own is a node. Tables are keyed
by the places of names, paths, loops and imports, so these are told apart; all other nodes count alike. `Node.InPlace`
says that nodes stand one behind the other and inside of what they belong to. Then no two names, paths, loops or
imports share a place: `InPlace.spans_nodup` and `InPlace.path_ne_name`.
-/

namespace PipeLang

/-- What stands at a node. -/
inductive Node.Kind where
  | identifier
  | path
  | loop
  | importing
  | other
  deriving DecidableEq

/-- A piece of syntax: what it is, its place, and the pieces right inside of it. -/
inductive Node where
  | mk (kind : Node.Kind) (span : Span) (parts : List Node)

namespace Node

/-- What stands at the node. -/
def kind : Node → Kind
  | mk kind _ _ => kind

/-- The place of the node. -/
def span : Node → Span
  | mk _ span _ => span

@[simp] lemma mk_span {kind : Kind} {span : Span} {parts : List Node} : (mk kind span parts).span = span := rfl

/-- The nodes right inside of the node. -/
def parts : Node → List Node
  | mk _ _ parts => parts

mutual

/-- The node and all nodes inside of it, outer ones before inner ones. -/
def all : Node → List Node
  | mk kind span parts => mk kind span parts :: allOf parts
termination_by structural n => n

/-- Some nodes and all nodes inside of them. -/
def allOf : List Node → List Node
  | [] => []
  | n :: ns => n.all ++ allOf ns
termination_by structural ns => ns

end

/-- The nodes inside of a node. -/
def inner (n : Node) : List Node :=
  allOf n.parts

/-- The places of the nodes of one kind in a tree, each as often as there are such nodes. -/
def spansOf (kind : Kind) (n : Node) : List Span :=
  (n.all.filter fun inside => inside.kind = kind).map span

end Node

/-- A name as a node. -/
def Ident.node (ident : Ident) : Node :=
  .mk .identifier ident.span []

/-- A name that may be left out, as nodes. -/
def Ident.optionNodes : Option Ident → List Node
  | none => []
  | some ident => [ident.node]

/-- A type that may be left out, as nodes. -/
def TypeNote.optionNodes : Option TypeNote → List Node
  | none => []
  | some note => [.mk .other note.span []]

/-- An item of an import list as nodes. -/
def ImportItem.nodes : ImportItem → List Node
  | .name ident newName => ident.node :: Ident.optionNodes newName
  | .self span newName => .mk .other span [] :: Ident.optionNodes newName
  | .glob span => [.mk .other span []]

/-- An import statement as a node. -/
def Import.node (i : Import) : Node :=
  let path : Node := .mk .other i.pathSpan []
  match i.items with
  | .module newName => .mk .importing i.span (path :: Ident.optionNodes newName)
  | .list items => .mk .importing i.span (items.flatMap ImportItem.nodes ++ [path])

mutual

/-- An expression as a node. -/
def Expr.node : Expr → Node
  | .name ident => ident.node
  | .path head rest span => .mk .path span (head.node :: rest.map Ident.node)
  | .literal _ span => .mk .other span []
  | .array items span => .mk .other span (Expr.allNodes items)
  | .range start stop _ span => .mk .other span [start.node, stop.node]
  | .binary _ left right span => .mk .other span [left.node, right.node]
  | .unary _ operand span => .mk .other span [operand.node]
  | .call callee args span => .mk .other span (callee.node :: Argument.allNodes args)
  | .index base index span => .mk .other span [base.node, index.node]
  | .lambda f => f.node
  | .block b => b.node
  | .branch b => b.node
  | .pipeline p => p.node
  | .loop l => l.node
termination_by structural e => e

/-- Some expressions as nodes. -/
def Expr.allNodes : List Expr → List Node
  | [] => []
  | e :: es => e.node :: Expr.allNodes es
termination_by structural es => es

/-- Some arguments as nodes; an argument has no place of its own. -/
def Argument.allNodes : List Argument → List Node
  | [] => []
  | ⟨name, value⟩ :: args => Ident.optionNodes name ++ value.node :: Argument.allNodes args
termination_by structural args => args

/-- A parameter as a node. -/
def Param.node : Param → Node
  | ⟨name, note, none, span⟩ => .mk .other span (name.node :: TypeNote.optionNodes note)
  | ⟨name, note, some e, span⟩ => .mk .other span (name.node :: (TypeNote.optionNodes note ++ [e.node]))
termination_by structural p => p

/-- Some parameters as nodes. -/
def Param.allNodes : List Param → List Node
  | [] => []
  | p :: ps => p.node :: Param.allNodes ps
termination_by structural ps => ps

/-- A function literal as a node. -/
def Lambda.node : Lambda → Node
  | ⟨params, returns, body, span⟩ =>
    .mk .other span (Param.allNodes params ++ (TypeNote.optionNodes returns ++ [body.node]))
termination_by structural f => f

/-- A block as a node. -/
def Block.node : Block → Node
  | ⟨statements, span⟩ => .mk .other span (Statement.allNodes statements)
termination_by structural b => b

/-- A statement as a node. -/
def Statement.node : Statement → Node
  | .importing i => i.node
  | .define _ name value span => .mk .other span [name.node, value.node]
  | .expr e span => .mk .other span [e.node]
termination_by structural s => s

/-- Some statements as nodes. -/
def Statement.allNodes : List Statement → List Node
  | [] => []
  | s :: ss => s.node :: Statement.allNodes ss
termination_by structural ss => ss

/-- A conditional as a node. -/
def Branch.node : Branch → Node
  | ⟨condition, consequence, alternative, span⟩ =>
    .mk .other span (condition.node :: consequence.node :: alternative.nodes)
termination_by structural b => b

/-- What follows `else`, as nodes. -/
def Alternative.nodes : Alternative → List Node
  | .absent => []
  | .block b => [b.node]
  | .branch b => [b.node]
termination_by structural a => a

/-- A pipeline as a node. -/
def Pipeline.node : Pipeline → Node
  | ⟨stages, span⟩ => .mk .other span (Stage.allNodes stages)
termination_by structural p => p

/-- A stage as a node. -/
def Stage.node : Stage → Node
  | .expr e tag span => .mk .other span (e.node :: Ident.optionNodes tag)
  | .operator _ operand tag span => .mk .other span (operand.node :: Ident.optionNodes tag)
termination_by structural s => s

/-- Some stages as nodes. -/
def Stage.allNodes : List Stage → List Node
  | [] => []
  | s :: ss => s.node :: Stage.allNodes ss
termination_by structural ss => ss

/-- A loop as a node. -/
def Loop.node : Loop → Node
  | ⟨sequence, binding, body, span⟩ => .mk .loop span [sequence.node, binding.node, body.node]
termination_by structural l => l

end

/-- A module as a node. -/
def Module.node (m : Module) : Node :=
  .mk .other m.span (Statement.allNodes m.statements)

/-- A parameter holds its name, its type and its default. -/
lemma Param.node_eq (p : Param) :
    p.node = .mk .other p.span (p.name.node :: (TypeNote.optionNodes p.note ++ Expr.allNodes p.fallback.toList)) := by
  obtain ⟨name, note, fallback, span⟩ := p
  cases fallback with
  | none => simp [Param.node, Expr.allNodes]
  | some e => rfl

lemma Argument.allNodes_cons (a : Argument) (args : List Argument) :
    Argument.allNodes (a :: args) = Argument.allNodes [a] ++ Argument.allNodes args := by
  obtain ⟨name, value⟩ := a
  simp [Argument.allNodes]

lemma Stage.allNodes_eq (stages : List Stage) : Stage.allNodes stages = stages.map Stage.node := by
  induction stages with
  | nil => rfl
  | cons s stages ih => simp [Stage.allNodes, ih]

@[simp] lemma Lambda.node_span (f : Lambda) : f.node.span = f.span := by
  cases f
  rfl

@[simp] lemma Block.node_span (b : Block) : b.node.span = b.span := by
  cases b
  rfl

@[simp] lemma Branch.node_span (b : Branch) : b.node.span = b.span := by
  cases b
  rfl

@[simp] lemma Pipeline.node_span (p : Pipeline) : p.node.span = p.span := by
  cases p
  rfl

@[simp] lemma Stage.node_span (s : Stage) : s.node.span = s.span := by
  cases s <;> rfl

@[simp] lemma Loop.node_span (l : Loop) : l.node.span = l.span := by
  cases l
  rfl

@[simp] lemma Expr.node_span (e : Expr) : e.node.span = e.span := by
  cases e with
  | lambda f => exact f.node_span
  | block b => exact b.node_span
  | branch b => exact b.node_span
  | pipeline p => exact p.node_span
  | loop l => exact l.node_span
  | _ => rfl

namespace Node

/-- What a node of a kind that begins at an offset may hold from another offset on. A path holds names, and begins with
the first of them. Any other name, loop or import begins before what it holds. -/
inductive Holds : Kind → Nat → Nat → List Node → Prop where
  | behind {kind start first parts} :
    kind ≠ .path →
    start < first →
    Holds kind start first parts
  | names {start first} {head next : Ident} {rest : List Ident} :
    head.span.start = start →
    Holds .path start first ((head :: next :: rest).map Ident.node)
  | other {start first parts} :
    Holds .other start first parts

/-- Nodes one behind the other between two offsets, each holding nodes in place; all begin and end at edges. -/
inductive InPlace (edge : Nat → Prop) : Nat → Nat → List Node → Prop where
  | nil {lo hi} :
    lo ≤ hi →
    InPlace edge lo hi []
  | cons {lo hi kind span first parts rest} :
    lo ≤ span.start →
    span.start < span.stop →
    edge span.start →
    edge span.stop →
    span.start ≤ first →
    Holds kind span.start first parts →
    InPlace edge first span.stop parts →
    InPlace edge span.stop hi rest →
    InPlace edge lo hi (mk kind span parts :: rest)

variable {edge : Nat → Prop} {lo lo' hi hi' mid : Nat} {ns ms : List Node}

/-- Nodes are among themselves and those inside of them. -/
lemma mem_allOf {n : Node} (member : n ∈ ns) : n ∈ allOf ns := by
  induction ns with
  | nil => cases member
  | cons m ns ih =>
    obtain ⟨kind, span, parts⟩ := m
    rcases List.mem_cons.1 member with rfl | member
    · exact List.mem_append_left _ List.mem_cons_self
    · exact List.mem_append_right _ (ih member)

/-- Names hold no nodes. -/
lemma allOf_names (names : List Ident) : allOf (names.map Ident.node) = names.map Ident.node := by
  induction names with
  | nil => rfl
  | cons ident names ih => simp [allOf, all, Ident.node, ih]

namespace InPlace

lemma le (h : InPlace edge lo hi ns) : lo ≤ hi := by
  induction h with
  | nil le => exact le
  | cons le proper _ _ _ _ _ _ _ ih => omega

/-- What is in place between two offsets is in place between any wider two. -/
lemma widen (h : InPlace edge lo hi ns) (before : lo' ≤ lo) (behind : hi ≤ hi') : InPlace edge lo' hi' ns := by
  induction h generalizing lo' with
  | nil le => exact .nil (by omega)
  | cons le proper start stop first holds parts _ _ ih =>
    exact .cons (Nat.le_trans before le) proper start stop first holds parts (ih (Nat.le_refl _) behind)

/-- Nodes behind others. -/
lemma append (h : InPlace edge lo mid ns) (h' : InPlace edge mid hi ms) : InPlace edge lo hi (ns ++ ms) := by
  induction h with
  | nil le => exact h'.widen le (Nat.le_refl _)
  | cons le proper start stop first holds parts _ _ ih => exact .cons le proper start stop first holds parts (ih h')

/-- A node that holds what is in place inside of it. -/
lemma around {span : Span} {parts : List Node} (from_ : lo ≤ span.start) (proper : span.start < span.stop)
    (start : edge span.start) (stop : edge span.stop) (upTo : span.stop ≤ hi)
    (inside : InPlace edge span.start span.stop parts) : InPlace edge lo hi [mk .other span parts] :=
  .cons from_ proper start stop (Nat.le_refl _) .other inside (.nil upTo)

/-- A node that begins before what it holds. -/
lemma behind {kind : Kind} {span : Span} {parts : List Node} {first : Nat} (from_ : lo ≤ span.start)
    (word : span.start < first) (start : edge span.start) (stop : edge span.stop) (upTo : span.stop ≤ hi)
    (noPath : kind ≠ .path) (inside : InPlace edge first span.stop parts) : InPlace edge lo hi [mk kind span parts] :=
  .cons from_ (Nat.lt_of_lt_of_le word inside.le) start stop (Nat.le_of_lt word) (.behind noPath word) inside
    (.nil upTo)

/-- A node that holds nothing. -/
lemma leaf {kind : Kind} {span : Span} (from_ : lo ≤ span.start) (proper : span.start < span.stop)
    (start : edge span.start) (stop : edge span.stop) (upTo : span.stop ≤ hi) (noPath : kind ≠ .path) :
    InPlace edge lo hi [mk kind span []] :=
  .behind from_ proper start stop upTo noPath (.nil (Nat.le_refl _))

/-- The ends of a single node. -/
lemma ends {n : Node} {span : Span} (h : InPlace edge lo hi [n]) (place : n.span = span) :
    lo ≤ span.start ∧ span.start < span.stop ∧ span.stop ≤ hi ∧ edge span.start ∧ edge span.stop := by
  subst place
  cases h with
  | cons from_ proper start stop _ _ _ rest => exact ⟨from_, proper, rest.le, start, stop⟩

/-- The first of some nodes, and those behind it. -/
lemma split {n : Node} {span : Span} (h : InPlace edge lo hi (n :: ns)) (place : n.span = span) :
    InPlace edge lo span.stop [n] ∧ InPlace edge span.stop hi ns := by
  subst place
  cases h with
  | cons from_ proper start stop first holds parts rest =>
    exact ⟨.cons from_ proper start stop first holds parts (.nil (Nat.le_refl _)), rest⟩

/-- A single node stands between its own ends. -/
lemma narrow {n : Node} {span : Span} (h : InPlace edge lo hi [n]) (place : n.span = span) :
    InPlace edge span.start span.stop [n] := by
  subst place
  cases h with
  | cons _ proper start stop first holds parts _ =>
    exact .cons (Nat.le_refl _) proper start stop first holds parts (.nil (Nat.le_refl _))

/-- Some nodes stand between the start of the first and the end of the last. -/
lemma hull {n last : Node} (h : InPlace edge lo hi (n :: ns)) (isLast : (n :: ns).getLast? = some last) :
    InPlace edge n.span.start last.span.stop (n :: ns) ∧ lo ≤ n.span.start ∧ n.span.start ≤ last.span.start ∧
      last.span.start < last.span.stop ∧ n.span.stop ≤ last.span.stop ∧ last.span.stop ≤ hi ∧ edge n.span.start ∧
      edge last.span.stop := by
  induction ns generalizing n lo with
  | nil =>
    obtain rfl : n = last := by simpa using isLast
    obtain ⟨from_, proper, upTo, starts, stops⟩ := h.ends rfl
    exact ⟨h.narrow rfl, from_, Nat.le_refl _, proper, Nat.le_refl _, upTo, starts, stops⟩
  | cons m ns ih =>
    obtain ⟨first, rest⟩ := h.split rfl
    obtain ⟨from_, proper, -, starts, -⟩ := first.ends rfl
    obtain ⟨inside, from', lastStart, lastProper, lastStop, upTo, -, stops⟩ := ih rest (by simpa using isLast)
    refine ⟨(first.narrow rfl).append (inside.widen from' (Nat.le_refl _)), from_, ?_, lastProper, ?_, upTo, starts, stops⟩
    · omega
    · omega

/-- Every node, however deep, stands between the offsets, takes room, and begins and ends at edges. -/
lemma within (h : InPlace edge lo hi ns) : ∀ n ∈ allOf ns,
    lo ≤ n.span.start ∧ n.span.start < n.span.stop ∧ n.span.stop ≤ hi ∧ edge n.span.start ∧ edge n.span.stop := by
  induction h with
  | nil => simp [allOf]
  | @cons lo hi kind span from_ parts rest le proper start stop first holds inside behind ihParts ihRest =>
    have := behind.le
    intro n member
    simp only [allOf, all, List.cons_append, List.mem_cons, List.mem_append] at member
    rcases member with rfl | member | member
    · exact ⟨le, proper, this, start, stop⟩
    · obtain ⟨from', proper', upTo, edges⟩ := ihParts n member
      exact ⟨by omega, proper', by omega, edges⟩
    · obtain ⟨from', proper', upTo, edges⟩ := ihRest n member
      exact ⟨by omega, proper', upTo, edges⟩

/-- Every node, however deep, holds nodes in place. -/
lemma parts_inPlace (h : InPlace edge lo hi ns) : ∀ n ∈ allOf ns, ∃ first, n.span.start ≤ first ∧
    Holds n.kind n.span.start first n.parts ∧ InPlace edge first n.span.stop n.parts := by
  induction h with
  | nil => simp [allOf]
  | @cons lo hi kind span from_ parts rest le proper start stop first holds inside behind ihParts ihRest =>
    intro n member
    simp only [allOf, all, List.cons_append, List.mem_cons, List.mem_append] at member
    rcases member with rfl | member | member
    · exact ⟨_, first, holds, inside⟩
    · exact ihParts n member
    · exact ihRest n member

/-- No node ends before one that it holds, however deep. -/
lemma inner_stop (h : InPlace edge lo hi ns) {n : Node} (member : n ∈ allOf ns) :
    ∀ inside ∈ n.inner, inside.span.stop ≤ n.span.stop := by
  intro inside held
  obtain ⟨first, -, -, parts⟩ := h.parts_inPlace n member
  exact (parts.within inside held).2.2.1

/-- Nodes of one kind begin one behind the other, in the order in which they stand in the tree. -/
lemma starts_increase (h : InPlace edge lo hi ns) {kind : Kind} (told : kind ≠ .other) :
    ((allOf ns).filter fun n => n.kind = kind).Pairwise fun n n' => n.span.start < n'.span.start := by
  induction h with
  | nil => simp [allOf]
  | @cons lo hi outer span from_ parts rest le proper start stop first holds inside behind ihParts ihRest =>
    have apart : ∀ n ∈ (all (mk outer span parts)).filter fun n => n.kind = kind,
        ∀ n' ∈ (allOf rest).filter fun n => n.kind = kind, n.span.start < n'.span.start := by
      intro n member n' member'
      have from' := (behind.within n' (List.mem_filter.1 member').1).1
      have before : n.span.start < span.stop := by
        rcases List.mem_cons.1 (List.mem_filter.1 member).1 with rfl | held
        · exact proper
        · have := inside.within n held
          omega
      omega
    rw [allOf, List.filter_append]
    refine List.pairwise_append.2 ⟨?_, ihRest, apart⟩
    rw [all, List.filter_cons]
    split
    · next same =>
      refine List.pairwise_cons.2 ⟨fun n member => ?_, ihParts⟩
      obtain ⟨held, sameKind⟩ := List.mem_filter.1 member
      simp only [decide_eq_true_eq] at same sameKind
      cases holds with
      | behind _ begins =>
        have := (inside.within n held).1
        exact Nat.lt_of_lt_of_le begins this
      | @names _ _ head next rest =>
        rw [allOf_names] at held
        obtain ⟨ident, -, rfl⟩ := List.mem_map.1 held
        exact absurd (same.trans sameKind.symm) nofun
      | other => exact absurd same.symm told
    · exact ihParts

/-- Two nodes of one kind that begin at the same offset are the same node. -/
lemma eq_of_start (h : InPlace edge lo hi ns) {n n' : Node} (member : n ∈ allOf ns) (member' : n' ∈ allOf ns)
    (told : n.kind ≠ .other) (sameKind : n'.kind = n.kind) (same : n.span.start = n'.span.start) : n = n' := by
  have increase := h.starts_increase told
  refine List.Pairwise.forall_of_forall_of_flip (R := fun n n' : Node => n.span.start = n'.span.start → n = n')
    (fun _ _ _ => rfl) (increase.imp fun lt same => ?_) (increase.imp fun lt same => ?_)
    (List.mem_filter.2 ⟨member, by simp⟩) (List.mem_filter.2 ⟨member', by simpa using sameKind⟩) same
  · exact absurd same (Nat.ne_of_lt lt)
  · exact absurd same.symm (Nat.ne_of_lt lt)

/-- No two nodes of one kind have the same place. -/
lemma spans_nodup (h : InPlace edge lo hi ns) {kind : Kind} (told : kind ≠ .other) :
    (((allOf ns).filter fun n => n.kind = kind).map span).Nodup := by
  refine List.pairwise_map.2 ((h.starts_increase told).imp fun lt same => ?_)
  rw [same] at lt
  exact Nat.lt_irrefl _ lt

/-- What a node holds stands in the tree, however deep. -/
lemma mem_of_inner (h : InPlace edge lo hi ns) {n inside : Node} (member : n ∈ allOf ns) (held : inside ∈ n.inner) :
    inside ∈ allOf ns := by
  induction h with
  | nil => simp [allOf] at member
  | cons _ _ _ _ _ _ _ _ ihParts ihRest =>
    simp only [allOf, all, List.cons_append, List.mem_cons, List.mem_append] at member ⊢
    rcases member with rfl | member | member
    · exact Or.inr (Or.inl held)
    · exact Or.inr (Or.inl (ihParts member))
    · exact Or.inr (Or.inr (ihRest member))

/-- No path has the place of a name: a name that begins where the path does is the first of the path's, and another
follows it. -/
lemma path_ne_name (h : InPlace edge lo hi ns) {path name : Node} (isPath : path ∈ allOf ns)
    (isName : name ∈ allOf ns) (pathKind : path.kind = .path) (nameKind : name.kind = .identifier) :
    path.span ≠ name.span := by
  intro same
  obtain ⟨first, -, holds, parts⟩ := h.parts_inPlace path isPath
  have into {inside : Node} (held : inside ∈ path.inner) : inside ∈ allOf ns := h.mem_of_inner isPath held
  obtain ⟨kind, span, held⟩ := path
  cases holds with
  | behind other => exact other pathKind
  | other => cases pathKind
  | @names _ _ head next rest begins =>
    have headInside : head.node ∈ allOf ns := into (mem_allOf List.mem_cons_self)
    obtain rfl : head.node = name := h.eq_of_start headInside isName nofun nameKind (begins.trans (congrArg Span.start same))
    cases parts with
    | cons _ _ _ _ _ _ _ behind =>
      obtain ⟨apart, proper, upTo, -⟩ := behind.within next.node (mem_allOf List.mem_cons_self)
      have stops : span.stop = head.span.stop := congrArg Span.stop same
      have stop : next.node.span.stop ≤ span.stop := upTo
      omega

end InPlace

end Node

end PipeLang
