import Mathlib.Tactic.Lemma
import PipeLang.Expr

/-!
# Syntax further on

The same syntax where it stands some bytes further on in a text: every place in it is moved on, and nothing else changes. To move it by
nothing leaves it as it is: `Statement.allShift_zero`.
-/

namespace PipeLang

/-- A span, moved on. -/
def Span.shift (n : Nat) (s : Span) : Span :=
  ⟨s.start + n, s.stop + n⟩

@[simp] lemma Span.shift_start {n : Nat} {s : Span} : (s.shift n).start = s.start + n := rfl

@[simp] lemma Span.shift_stop {n : Nat} {s : Span} : (s.shift n).stop = s.stop + n := rfl

@[simp] lemma Span.shift_zero (s : Span) : s.shift 0 = s := rfl

/-- What covers two spans is moved on with them. -/
lemma Span.shift_union {n : Nat} (s t : Span) : (s.union t).shift n = (s.shift n).union (t.shift n) := by
  simp [union, shift, Nat.add_min_add_right, Nat.add_max_add_right]

/-- A name, moved on. -/
def Ident.shift (n : Nat) (i : Ident) : Ident :=
  ⟨i.name, i.span.shift n⟩

@[simp] lemma Ident.shift_zero (i : Ident) : i.shift 0 = i := rfl

@[simp] lemma Ident.shift_span {n : Nat} {i : Ident} : (i.shift n).span = i.span.shift n := rfl

/-- A type, moved on. -/
def TypeNote.shift (n : Nat) (t : TypeNote) : TypeNote :=
  ⟨t.ty, t.span.shift n⟩

@[simp] lemma TypeNote.shift_zero (t : TypeNote) : t.shift 0 = t := rfl

/-- An item of an import list, moved on. -/
def ImportItem.shift (n : Nat) : ImportItem → ImportItem
  | .name ident newName => .name (ident.shift n) (newName.map (Ident.shift n))
  | .self span newName => .self (span.shift n) (newName.map (Ident.shift n))
  | .glob span => .glob (span.shift n)

/-- What an import statement binds, moved on. -/
def ImportItems.shift (n : Nat) : ImportItems → ImportItems
  | .module newName => .module (newName.map (Ident.shift n))
  | .list items => .list (items.map (ImportItem.shift n))

/-- An import statement, moved on. -/
def Import.shift (n : Nat) (i : Import) : Import :=
  ⟨i.exported, i.items.shift n, i.path, i.pathSpan.shift n, i.span.shift n⟩

mutual

/-- An expression, moved on. -/
def Expr.shift (n : Nat) : Expr → Expr
  | .name ident => .name (ident.shift n)
  | .path head rest span => .path (head.shift n) (rest.map (Ident.shift n)) (span.shift n)
  | .literal value span => .literal value (span.shift n)
  | .array items span => .array (Expr.allShift n items) (span.shift n)
  | .range start stop inclusive span => .range (start.shift n) (stop.shift n) inclusive (span.shift n)
  | .binary op left right span => .binary op (left.shift n) (right.shift n) (span.shift n)
  | .unary op operand span => .unary op (operand.shift n) (span.shift n)
  | .call callee args span => .call (callee.shift n) (Argument.allShift n args) (span.shift n)
  | .index base index span => .index (base.shift n) (index.shift n) (span.shift n)
  | .lambda f => .lambda (f.shift n)
  | .block b => .block (b.shift n)
  | .branch b => .branch (b.shift n)
  | .pipeline p => .pipeline (p.shift n)
  | .loop l => .loop (l.shift n)
termination_by structural e => e

/-- Some expressions, moved on. -/
def Expr.allShift (n : Nat) : List Expr → List Expr
  | [] => []
  | e :: es => e.shift n :: Expr.allShift n es
termination_by structural es => es

/-- Some arguments, moved on. -/
def Argument.allShift (n : Nat) : List Argument → List Argument
  | [] => []
  | ⟨name, value⟩ :: args => ⟨name.map (Ident.shift n), value.shift n⟩ :: Argument.allShift n args
termination_by structural args => args

/-- Some parameters, moved on. -/
def Param.allShift (n : Nat) : List Param → List Param
  | [] => []
  | ⟨name, note, none, span⟩ :: ps =>
    ⟨name.shift n, note.map (TypeNote.shift n), none, span.shift n⟩ :: Param.allShift n ps
  | ⟨name, note, some e, span⟩ :: ps =>
    ⟨name.shift n, note.map (TypeNote.shift n), some (e.shift n), span.shift n⟩ :: Param.allShift n ps
termination_by structural ps => ps

/-- A function literal, moved on. -/
def Lambda.shift (n : Nat) : Lambda → Lambda
  | ⟨params, returns, body, span⟩ =>
    ⟨Param.allShift n params, returns.map (TypeNote.shift n), body.shift n, span.shift n⟩
termination_by structural f => f

/-- A block, moved on. -/
def Block.shift (n : Nat) : Block → Block
  | ⟨statements, span⟩ => ⟨Statement.allShift n statements, span.shift n⟩
termination_by structural b => b

/-- A statement, moved on. -/
def Statement.shift (n : Nat) : Statement → Statement
  | .importing i => .importing (i.shift n)
  | .define exported name value span => .define exported (name.shift n) (value.shift n) (span.shift n)
  | .expr e span => .expr (e.shift n) (span.shift n)
termination_by structural s => s

/-- Some statements, moved on. -/
def Statement.allShift (n : Nat) : List Statement → List Statement
  | [] => []
  | s :: ss => s.shift n :: Statement.allShift n ss
termination_by structural ss => ss

/-- A conditional, moved on. -/
def Branch.shift (n : Nat) : Branch → Branch
  | ⟨condition, consequence, alternative, span⟩ =>
    ⟨condition.shift n, consequence.shift n, alternative.shift n, span.shift n⟩
termination_by structural b => b

/-- What follows `else`, moved on. -/
def Alternative.shift (n : Nat) : Alternative → Alternative
  | .absent => .absent
  | .block b => .block (b.shift n)
  | .branch b => .branch (b.shift n)
termination_by structural a => a

/-- A pipeline, moved on. -/
def Pipeline.shift (n : Nat) : Pipeline → Pipeline
  | ⟨stages, span⟩ => ⟨Stage.allShift n stages, span.shift n⟩
termination_by structural p => p

/-- A stage, moved on. -/
def Stage.shift (n : Nat) : Stage → Stage
  | .expr e tag span => .expr (e.shift n) (tag.map (Ident.shift n)) (span.shift n)
  | .operator op operand tag span => .operator op (operand.shift n) (tag.map (Ident.shift n)) (span.shift n)
termination_by structural s => s

/-- Some stages, moved on. -/
def Stage.allShift (n : Nat) : List Stage → List Stage
  | [] => []
  | s :: ss => s.shift n :: Stage.allShift n ss
termination_by structural ss => ss

/-- A loop, moved on. -/
def Loop.shift (n : Nat) : Loop → Loop
  | ⟨sequence, binding, body, span⟩ => ⟨sequence.shift n, binding.shift n, body.shift n, span.shift n⟩
termination_by structural l => l

end

variable {n : Nat}

/-- An argument, moved on. -/
def Argument.shift (n : Nat) (a : Argument) : Argument :=
  ⟨a.name.map (Ident.shift n), a.value.shift n⟩

lemma Argument.allShift_cons (a : Argument) (args : List Argument) :
    Argument.allShift n (a :: args) = a.shift n :: Argument.allShift n args := by
  cases a
  rfl

/-- A parameter, moved on. -/
def Param.shift (n : Nat) (p : Param) : Param :=
  ⟨p.name.shift n, p.note.map (TypeNote.shift n), p.fallback.map (Expr.shift n), p.span.shift n⟩

lemma Param.allShift_cons (p : Param) (ps : List Param) : Param.allShift n (p :: ps) = p.shift n :: Param.allShift n ps := by
  obtain ⟨name, note, _ | e, span⟩ := p <;> rfl

/-! ### Places -/

@[simp] lemma Block.shift_span (b : Block) : (b.shift n).span = b.span.shift n := by
  cases b
  rfl

@[simp] lemma Pipeline.shift_span (p : Pipeline) : (p.shift n).span = p.span.shift n := by
  cases p
  rfl

@[simp] lemma Expr.shift_span (e : Expr) : (e.shift n).span = e.span.shift n := by
  cases e with
  | lambda f =>
    cases f
    rfl
  | block b => exact b.shift_span
  | branch b =>
    cases b
    rfl
  | pipeline p => exact p.shift_span
  | loop l =>
    cases l
    rfl
  | _ => rfl

@[simp] lemma Stage.shift_span (s : Stage) : (s.shift n).span = s.span.shift n := by
  cases s <;> rfl

@[simp] lemma Stage.isLoop_shift (s : Stage) : (s.shift n).isLoop = s.isLoop := by
  cases s with
  | expr e tag span => cases e <;> rfl
  | operator => rfl

lemma Stage.allShift_eq (stages : List Stage) : Stage.allShift n stages = stages.map (Stage.shift n) := by
  induction stages with
  | nil => rfl
  | cons s stages ih => simp [Stage.allShift, ih]

lemma Statement.allShift_eq (statements : List Statement) :
    Statement.allShift n statements = statements.map (Statement.shift n) := by
  induction statements with
  | nil => rfl
  | cons s statements ih => simp [Statement.allShift, ih]

/-! ### Moved by nothing -/

@[simp] lemma Ident.map_shift_zero (newName : Option Ident) : newName.map (Ident.shift 0) = newName :=
  Option.map_id_apply

@[simp] lemma TypeNote.map_shift_zero (note : Option TypeNote) : note.map (TypeNote.shift 0) = note :=
  Option.map_id_apply

lemma ImportItem.shift_zero (item : ImportItem) : item.shift 0 = item := by
  cases item <;> simp [shift]

lemma Import.shift_zero (i : Import) : i.shift 0 = i := by
  obtain ⟨exported, items, path, pathSpan, span⟩ := i
  cases items with
  | module newName => simp [shift, ImportItems.shift]
  | list items =>
    have same : items.map (ImportItem.shift 0) = items := List.map_id'' ImportItem.shift_zero items
    simp [shift, ImportItems.shift, same]

mutual

lemma Expr.shift_zero : ∀ e : Expr, e.shift 0 = e
  | .name _ => rfl
  | .path _ rest _ => by
    have same : rest.map (Ident.shift 0) = rest := List.map_id'' Ident.shift_zero rest
    simp [Expr.shift, same]
  | .literal _ _ => rfl
  | .array items _ => by simp [Expr.shift, Expr.allShift_zero items]
  | .range start stop _ _ => by simp [Expr.shift, Expr.shift_zero start, Expr.shift_zero stop]
  | .binary _ left right _ => by simp [Expr.shift, Expr.shift_zero left, Expr.shift_zero right]
  | .unary _ operand _ => by simp [Expr.shift, Expr.shift_zero operand]
  | .call callee args _ => by simp [Expr.shift, Expr.shift_zero callee, Argument.allShift_zero args]
  | .index base index _ => by simp [Expr.shift, Expr.shift_zero base, Expr.shift_zero index]
  | .lambda f => by simp [Expr.shift, Lambda.shift_zero f]
  | .block b => by simp [Expr.shift, Block.shift_zero b]
  | .branch b => by simp [Expr.shift, Branch.shift_zero b]
  | .pipeline p => by simp [Expr.shift, Pipeline.shift_zero p]
  | .loop l => by simp [Expr.shift, Loop.shift_zero l]

lemma Expr.allShift_zero : ∀ es : List Expr, Expr.allShift 0 es = es
  | [] => rfl
  | e :: es => by simp [Expr.allShift, Expr.shift_zero e, Expr.allShift_zero es]

lemma Argument.allShift_zero : ∀ args : List Argument, Argument.allShift 0 args = args
  | [] => rfl
  | ⟨_, value⟩ :: args => by simp [Argument.allShift, Expr.shift_zero value, Argument.allShift_zero args]

lemma Param.allShift_zero : ∀ ps : List Param, Param.allShift 0 ps = ps
  | [] => rfl
  | ⟨_, _, none, _⟩ :: ps => by simp [Param.allShift, Param.allShift_zero ps]
  | ⟨_, _, some e, _⟩ :: ps => by simp [Param.allShift, Expr.shift_zero e, Param.allShift_zero ps]

lemma Lambda.shift_zero : ∀ f : Lambda, f.shift 0 = f
  | ⟨params, _, body, _⟩ => by simp [Lambda.shift, Param.allShift_zero params, Expr.shift_zero body]

lemma Block.shift_zero : ∀ b : Block, b.shift 0 = b
  | ⟨statements, _⟩ => by simp [Block.shift, Statement.allShift_zero statements]

lemma Statement.shift_zero : ∀ s : Statement, s.shift 0 = s
  | .importing i => by simp [Statement.shift, i.shift_zero]
  | .define _ _ value _ => by simp [Statement.shift, Expr.shift_zero value]
  | .expr e _ => by simp [Statement.shift, Expr.shift_zero e]

lemma Statement.allShift_zero : ∀ ss : List Statement, Statement.allShift 0 ss = ss
  | [] => rfl
  | s :: ss => by simp [Statement.allShift, Statement.shift_zero s, Statement.allShift_zero ss]

lemma Branch.shift_zero : ∀ b : Branch, b.shift 0 = b
  | ⟨condition, consequence, alternative, _⟩ => by
    simp [Branch.shift, Expr.shift_zero condition, Block.shift_zero consequence, Alternative.shift_zero alternative]

lemma Alternative.shift_zero : ∀ a : Alternative, a.shift 0 = a
  | .absent => rfl
  | .block b => by simp [Alternative.shift, Block.shift_zero b]
  | .branch b => by simp [Alternative.shift, Branch.shift_zero b]

lemma Pipeline.shift_zero : ∀ p : Pipeline, p.shift 0 = p
  | ⟨stages, _⟩ => by simp [Pipeline.shift, Stage.allShift_zero stages]

lemma Stage.shift_zero : ∀ s : Stage, s.shift 0 = s
  | .expr e _ _ => by simp [Stage.shift, Expr.shift_zero e]
  | .operator _ operand _ _ => by simp [Stage.shift, Expr.shift_zero operand]

lemma Stage.allShift_zero : ∀ ss : List Stage, Stage.allShift 0 ss = ss
  | [] => rfl
  | s :: ss => by simp [Stage.allShift, Stage.shift_zero s, Stage.allShift_zero ss]

lemma Loop.shift_zero : ∀ l : Loop, l.shift 0 = l
  | ⟨sequence, _, body, _⟩ => by simp [Loop.shift, Expr.shift_zero sequence, Pipeline.shift_zero body]

end

end PipeLang
