import Mathlib.Tactic.Lemma
import PipeLang.Expr

/-!
# Ordered syntax

Syntax whose places follow its structure: every piece is covered by the piece it belongs to, pieces stand one
behind the other in the order of the text, and between two of them that can hold names stands at least one
byte. The one exception is a block, whose brace may touch what comes before it.
-/

namespace PipeLang

/-- A place that is not empty. -/
def Span.Proper (s : Span) : Prop :=
  s.start < s.stop

/-- Places one behind the other between two offsets, none of them touching the next. -/
inductive Span.InOrder : Nat → Nat → List Span → Prop where
  | nil {lo hi} :
    lo ≤ hi + 1 →
    InOrder lo hi []
  | cons {lo hi s rest} :
    lo ≤ s.start →
    s.Proper →
    InOrder (s.stop + 1) hi rest →
    InOrder lo hi (s :: rest)

namespace Span.InOrder

/-- Places take room. -/
lemma le {lo hi spans} (h : InOrder lo hi spans) : lo ≤ hi + 1 := by
  induction h with
  | nil le => exact le
  | @cons lo hi s rest le proper _ ih =>
    have : s.start < s.stop := proper
    omega

/-- What stands between two offsets stands between any wider two. -/
lemma widen {lo lo' hi hi' spans} (h : InOrder lo hi spans) (before : lo' ≤ lo) (behind : hi ≤ hi') :
    InOrder lo' hi' spans := by
  induction h generalizing lo' with
  | nil le => exact .nil (by omega)
  | cons le proper _ ih => exact .cons (by omega) proper (ih (Nat.le_refl _) behind)

/-- Every place is proper and stands between the offsets. -/
lemma within {lo hi spans s} (h : InOrder lo hi spans) (member : s ∈ spans) :
    lo ≤ s.start ∧ s.start < s.stop ∧ s.stop ≤ hi := by
  induction h with
  | nil => cases member
  | @cons lo hi first rest le proper behind ih =>
    rcases List.mem_cons.1 member with rfl | member
    · have := behind.le
      exact ⟨le, proper, by omega⟩
    · have := ih member
      have : first.start < first.stop := proper
      omega

/-- Places that end before an offset stand before it. -/
lemma narrow {lo hi hi' spans} (h : InOrder lo hi spans) (le : lo ≤ hi' + 1) (inside : ∀ s ∈ spans, s.stop ≤ hi') :
    InOrder lo hi' spans := by
  induction h with
  | nil => exact .nil le
  | cons from_ proper _ ih =>
    obtain ⟨first, others⟩ := List.forall_mem_cons.1 inside
    exact .cons from_ proper (ih (Nat.succ_le_succ first) others)

end Span.InOrder

/-- A tag that stands between two offsets, if there is one. -/
inductive Ident.TagBetween : Nat → Nat → Option Ident → Prop where
  | none {lo hi} :
    TagBetween lo hi none
  | some {lo hi tag} :
    lo ≤ tag.span.start →
    tag.span.Proper →
    tag.span.stop ≤ hi →
    TagBetween lo hi (some tag)

/-- A tag between two offsets is between any wider two. -/
lemma Ident.TagBetween.widen {lo lo' hi tag} (h : TagBetween lo hi tag) (before : lo' ≤ lo) :
    TagBetween lo' hi tag := by
  cases h with
  | none => exact .none
  | some start proper stop => exact .some (Nat.le_trans before start) proper stop

mutual

/-- An expression in order. -/
inductive Expr.Ordered : Expr → Prop where
  | name {ident} :
    ident.span.Proper →
    Expr.Ordered (.name ident)
  | path {head rest span} :
    head.span.Proper →
    span.start = head.span.start →
    head.span.stop < span.stop →
    Expr.Ordered (.path head rest span)
  | literal {value span} :
    span.Proper →
    Expr.Ordered (.literal value span)
  | array {items span} :
    span.Proper →
    Span.InOrder (span.start + 1) span.stop (items.map Expr.span) →
    (∀ e ∈ items, e.Ordered) →
    Expr.Ordered (.array items span)
  | range {start stop inclusive span} :
    span.start < start.span.start →
    start.Ordered →
    start.span.stop < stop.span.start →
    stop.Ordered →
    stop.span.stop ≤ span.stop →
    Expr.Ordered (.range start stop inclusive span)
  | binary {op left right span} :
    span.start ≤ left.span.start →
    left.Ordered →
    left.span.stop < right.span.start →
    right.Ordered →
    right.span.stop ≤ span.stop →
    Expr.Ordered (.binary op left right span)
  | unary {op operand span} :
    span.start < operand.span.start →
    operand.Ordered →
    operand.span.stop ≤ span.stop →
    Expr.Ordered (.unary op operand span)
  | call {callee args span} :
    span.start ≤ callee.span.start →
    callee.Ordered →
    callee.span.stop < span.stop →
    Span.InOrder (callee.span.stop + 1) span.stop (args.map fun a => a.value.span) →
    (∀ a ∈ args, a.value.Ordered) →
    Expr.Ordered (.call callee args span)
  | index {base index span} :
    span.start ≤ base.span.start →
    base.Ordered →
    base.span.stop < index.span.start →
    index.Ordered →
    index.span.stop ≤ span.stop →
    Expr.Ordered (.index base index span)
  | lambda {f} :
    f.Ordered →
    Expr.Ordered (.lambda f)
  | block {b} :
    b.Ordered →
    Expr.Ordered (.block b)
  | branch {b} :
    b.Ordered →
    Expr.Ordered (.branch b)
  | pipeline {p} :
    p.Ordered →
    Expr.Ordered (.pipeline p)
  | loop {l} :
    l.Ordered →
    Expr.Ordered (.loop l)

/-- A parameter in order. -/
inductive Param.Ordered : Param → Prop where
  | mk {name note fallback span} :
    name.span.Proper →
    span.start ≤ name.span.start →
    name.span.stop ≤ span.stop →
    (∀ e, fallback = some e → name.span.stop < e.span.start) →
    (∀ e, fallback = some e → e.Ordered) →
    (∀ e, fallback = some e → e.span.stop ≤ span.stop) →
    Param.Ordered ⟨name, note, fallback, span⟩

/-- A function literal in order. -/
inductive Lambda.Ordered : Lambda → Prop where
  | mk {params returns body span between} :
    Span.InOrder (span.start + 1) between (params.map Param.span) →
    (∀ p ∈ params, p.Ordered) →
    between < body.span.start →
    body.Ordered →
    body.span.stop ≤ span.stop →
    Lambda.Ordered ⟨params, returns, body, span⟩

/-- A block in order. -/
inductive Block.Ordered : Block → Prop where
  | mk {statements span} :
    span.Proper →
    Span.InOrder (span.start + 1) span.stop (statements.map Statement.span) →
    (∀ s ∈ statements, s.Ordered) →
    Block.Ordered ⟨statements, span⟩

/-- A statement in order. -/
inductive Statement.Ordered : Statement → Prop where
  | importing {statement} :
    statement.span.Proper →
    Statement.Ordered (.importing statement)
  | define {exported name value span} :
    span.start ≤ name.span.start →
    name.span.Proper →
    name.span.stop < value.span.start →
    value.Ordered →
    value.span.stop ≤ span.stop →
    Statement.Ordered (.define exported name value span)
  | expr {e} :
    e.Ordered →
    Statement.Ordered (.expr e e.span)

/-- A conditional in order. -/
inductive Branch.Ordered : Branch → Prop where
  | mk {condition consequence alternative span} :
    span.start < condition.span.start →
    condition.Ordered →
    condition.span.stop ≤ consequence.span.start →
    consequence.Ordered →
    consequence.span.stop ≤ span.stop →
    Alternative.Between (consequence.span.stop + 1) span.stop alternative →
    Branch.Ordered ⟨condition, consequence, alternative, span⟩

/-- What follows `else`, between two offsets. -/
inductive Alternative.Between : Nat → Nat → Alternative → Prop where
  | absent {lo hi} :
    Alternative.Between lo hi .absent
  | block {lo hi b} :
    lo ≤ b.span.start →
    b.Ordered →
    b.span.stop ≤ hi →
    Alternative.Between lo hi (.block b)
  | branch {lo hi b} :
    lo ≤ b.span.start →
    b.Ordered →
    b.span.stop ≤ hi →
    Alternative.Between lo hi (.branch b)

/-- A pipeline in order. -/
inductive Pipeline.Ordered : Pipeline → Prop where
  | mk {stages span} :
    span.Proper →
    Span.InOrder span.start span.stop (stages.map Stage.span) →
    (∀ s ∈ stages, s.Ordered) →
    Pipeline.Ordered ⟨stages, span⟩

/-- A stage in order. -/
inductive Stage.Ordered : Stage → Prop where
  | expr {e tag span} :
    span.start ≤ e.span.start →
    e.Ordered →
    e.span.stop ≤ span.stop →
    Ident.TagBetween (e.span.stop + 1) span.stop tag →
    Stage.Ordered (.expr e tag span)
  | operator {op operand tag span} :
    span.start < operand.span.start →
    operand.Ordered →
    operand.span.stop ≤ span.stop →
    Ident.TagBetween (operand.span.stop + 1) span.stop tag →
    Stage.Ordered (.operator op operand tag span)

/-- A loop in order. -/
inductive Loop.Ordered : Loop → Prop where
  | mk {sequence binding body span} :
    span.start < sequence.span.start →
    sequence.Ordered →
    sequence.span.stop < binding.span.start →
    binding.span.Proper →
    binding.span.stop < body.span.start →
    body.Ordered →
    body.span.stop ≤ span.stop →
    Loop.Ordered ⟨sequence, binding, body, span⟩

end

/-- What follows `else` between two offsets is between any wider two. -/
lemma Alternative.Between.widen {lo lo' hi a} (h : Between lo hi a) (before : lo' ≤ lo) :
    Between lo' hi a := by
  cases h with
  | absent => exact .absent
  | block start b stop => exact .block (Nat.le_trans before start) b stop
  | branch start b stop => exact .branch (Nat.le_trans before start) b stop

/-- A pipeline in order is not empty. -/
lemma Pipeline.Ordered.proper {p : Pipeline} (h : p.Ordered) : p.span.Proper := by
  cases h with
  | mk proper _ _ => exact proper

/-- A parameter in order is not empty. -/
lemma Param.Ordered.proper {p : Param} (h : p.Ordered) : p.span.Proper := by
  cases h with
  | mk proper starts stops _ _ _ =>
    simp only [Span.Proper] at *
    omega

/-- A block in order is not empty. -/
lemma Block.Ordered.proper {b : Block} (h : b.Ordered) : b.span.Proper := by
  cases h with
  | mk proper _ _ => exact proper

mutual

/-- An expression in order is not empty. -/
theorem Expr.Ordered.proper {e : Expr} (h : e.Ordered) : e.span.Proper := by
  cases h with
  | name proper | literal proper | array proper _ _ => exact proper
  | path proper start stop =>
    simp only [Span.Proper, Expr.span] at proper ⊢
    omega
  | range before first between last behind
  | binary before first between last behind
  | index before first between last behind =>
    have := first.proper
    have := last.proper
    simp only [Span.Proper, Expr.span] at *
    omega
  | unary before operand behind =>
    have := operand.proper
    simp only [Span.Proper, Expr.span] at *
    omega
  | call before callee behind _ _ =>
    have := callee.proper
    simp only [Span.Proper, Expr.span] at *
    omega
  | lambda f => exact f.proper
  | block b => exact b.proper
  | branch b => exact b.proper
  | pipeline p => exact p.proper
  | loop l => exact l.proper

/-- A function literal in order is not empty. -/
theorem Lambda.Ordered.proper {f : Lambda} (h : f.Ordered) : f.span.Proper := by
  cases h with
  | mk params _ between body behind =>
    have := params.le
    have := body.proper
    simp only [Span.Proper] at *
    omega

/-- A conditional in order is not empty. -/
theorem Branch.Ordered.proper {b : Branch} (h : b.Ordered) : b.span.Proper := by
  cases h with
  | mk before condition between consequence behind _ =>
    have := condition.proper
    have := consequence.proper
    simp only [Span.Proper] at *
    omega

/-- A loop in order is not empty. -/
theorem Loop.Ordered.proper {l : Loop} (h : l.Ordered) : l.span.Proper := by
  cases h with
  | mk before sequence _ binding _ body behind =>
    have := sequence.proper
    have := body.proper
    simp only [Span.Proper] at *
    omega

end

/-- A stage in order is not empty. -/
lemma Stage.Ordered.proper {s : Stage} (h : s.Ordered) : s.span.Proper := by
  cases h with
  | expr before e behind _ | operator before e behind _ =>
    have := e.proper
    simp only [Span.Proper, Stage.span] at *
    omega

/-- A statement in order is not empty. -/
lemma Statement.Ordered.proper {s : Statement} (h : s.Ordered) : s.span.Proper := by
  cases h with
  | importing proper => exact proper
  | define before name between value behind =>
    have := value.proper
    simp only [Span.Proper, Statement.span] at *
    omega
  | expr e => exact e.proper

end PipeLang
