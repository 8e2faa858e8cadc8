import PipeLang.Proofs.Resolve.Trace

/-!
# Requests

Resolution leaves no import out: wherever an import statement stands, the loader is asked for what it names, with
changes made before and behind. `Expr.requested` and the theorems beside it say so of every piece of syntax.
-/

namespace PipeLang

open Resolve (after answer)

/-- A resolution makes changes, and for every import among some mentions it asks the loader between them. -/
structure Requested {α : Type} (load : Loader) (all : List Mention) (topLevel : Bool) (mentions : List Mention)
    (x : Resolve α) : Prop where
  changes : ∀ r, Changes load all topLevel r (after x r)
  asks : ∀ {i}, .importing i ∈ mentions → ∀ r, ∃ asking, Changes load all topLevel r asking ∧
    Changes load all topLevel { asking with program := (load asking.program i.path).2 } (after x r)

variable {load : Loader} {all mentions more : List Mention} {topLevel : Bool} {α β : Type}

namespace Requested

variable {x : Resolve α} {f : α → Resolve β}

/-- A step that has no import to ask for. -/
lemma none {x : Loader → Resolve α} (traced : Traced load all topLevel x)
    (without : ∀ {i}, .importing i ∉ mentions) : Requested load all topLevel mentions (x load) :=
  ⟨traced.changes, fun member => absurd member without⟩

lemma widen (h : Requested load all false mentions x) : Requested load all topLevel mentions x where
  changes r := (h.changes r).widen (List.Subset.refl _) nofun
  asks member r := by
    obtain ⟨asking, before, behind⟩ := h.asks member r
    exact ⟨asking, before.widen (List.Subset.refl _) nofun, behind.widen (List.Subset.refl _) nofun⟩

/-- Both steps ask for their imports. -/
lemma both (first : Requested load all topLevel mentions x) (second : ∀ a, Requested load all topLevel more (f a)) :
    Requested load all topLevel (mentions ++ more) (x >>= f) where
  changes r := (first.changes r).trans ((second _).changes _)
  asks {i} member r := by
    rcases List.mem_append.1 member with here | there
    · obtain ⟨asking, before, behind⟩ := first.asks here r
      exact ⟨asking, before, behind.trans ((second _).changes _)⟩
    · obtain ⟨asking, before, behind⟩ := (second (answer x r)).asks there (after x r)
      exact ⟨asking, (first.changes r).trans before, behind⟩

/-- The first step asks for all imports. -/
lemma first {f : α → Loader → Resolve β} (first : Requested load all topLevel mentions x)
    (second : ∀ a, Traced load all topLevel (f a)) : Requested load all topLevel mentions (x >>= fun a => f a load) := by
  have none (a : α) : Requested load all topLevel [] (f a load) := .none (second a) List.not_mem_nil
  have h := first.both none
  rwa [List.append_nil] at h

/-- The second step asks for all imports. -/
lemma second {x : Loader → Resolve α} (first : Traced load all topLevel x)
    (second : ∀ a, Requested load all topLevel mentions (f a)) : Requested load all topLevel mentions (x load >>= f) := by
  have none : Requested load all topLevel [] (x load) := .none first List.not_mem_nil
  exact none.both second

/-- An answer is made of what has been asked for. -/
lemma answers (h : Requested load all topLevel mentions x) {f : α → β} :
    Requested load all topLevel mentions (x >>= fun a => pure (f a)) :=
  h.first (f := fun a _ => pure (f a)) fun _ => .pure _

end Requested

open Resolve

lemma importStatement_requested {i : Import} (member : .importing i ∈ all) :
    Requested load all topLevel [.importing i] (importStatement load i topLevel) where
  changes := (importStatement_traced member).changes
  asks {i'} here r := by
    cases List.mem_singleton.1 here
    have nested : Changes load all topLevel r (after (refuseNested i.exported topLevel i.span) r) :=
      refuseNested_traced.changes r
    let asking := after (refuseNested i.exported topLevel i.span) r
    let loaded : Resolution := { asking with program := (load asking.program i.path).2 }
    refine ⟨asking, nested, ?_⟩
    show Changes load all topLevel loaded (after (bindLoaded i topLevel (load asking.program i.path).1 loaded.program) loaded)
    exact bindLoaded_changes

lemma calleeOf_requested {callee : Expr} (sub : callee.mentions ⊆ all)
    (requested : Requested load all topLevel callee.mentions (expr load none callee)) :
    Requested load all topLevel callee.mentions (calleeOf load callee) := by
  cases callee with
  | name ident => exact .none useName_traced (by simp [Expr.mentions])
  | path head rest span => exact .none usePath_traced (by simp [Expr.mentions])
  | _ => exact requested.answers

section

mutual

/-- The resolution of an expression asks for its imports. -/
theorem Expr.requested (e : Expr) (sub : e.mentions ⊆ all) (incoming : Option Ty) :
    Requested load all false e.mentions (expr load incoming e) := by
  match e with
  | .name ident => exact .none (Expr.traced (.name ident) sub incoming) (by simp [Expr.mentions])
  | .path head rest span => exact .none (Expr.traced (.path head rest span) sub incoming) (by simp [Expr.mentions])
  | .literal value span => exact .none (Expr.traced (.literal value span) sub incoming) (by simp [Expr.mentions])
  | .array items span =>
    exact .second rejectIncoming_traced fun _ => (Expr.all_requested items sub).answers
  | .range start stop inclusive span =>
    obtain ⟨first, last⟩ := List.append_subset.1 sub
    exact .second rejectIncoming_traced fun _ => (Expr.requested start first none).both fun _ =>
      (Expr.requested stop last none).answers
  | .binary op left right span =>
    obtain ⟨first, last⟩ := List.append_subset.1 sub
    exact .second rejectIncoming_traced fun _ => (Expr.requested left first none).both fun _ =>
      (Expr.requested right last none).answers
  | .unary op operand span =>
    exact .second rejectIncoming_traced fun _ => (Expr.requested operand sub none).answers
  | .call callee args span =>
    obtain ⟨first, last⟩ := List.append_subset.1 sub
    simp only [expr_call]
    exact .second rejectIncoming_traced fun _ => (calleeOf_requested first (Expr.requested callee first none)).both
      fun found => (Argument.all_requested args last).first (f := fun _ _ => checkCall incoming args span found)
        fun _ => checkCall_traced
  | .index base index span =>
    obtain ⟨first, last⟩ := List.append_subset.1 sub
    exact .second rejectIncoming_traced fun _ => (Expr.requested base first none).both fun _ =>
      (Expr.requested index last none).answers
  | .lambda f => exact .second rejectIncoming_traced fun _ => Lambda.requested f sub
  | .block b => exact .second rejectIncoming_traced fun _ => Block.requested b sub incoming
  | .branch b => exact .second rejectIncoming_traced fun _ => Branch.requested b sub incoming
  | .pipeline p => exact .second rejectIncoming_traced fun _ => Pipeline.requested p sub incoming
  | .loop l => exact .second rejectIncoming_traced fun _ => Loop.requested l sub incoming
termination_by structural e

theorem Expr.all_requested (es : List Expr) (sub : Expr.allMentions es ⊆ all) :
    Requested load all false (Expr.allMentions es) (exprs load es) := by
  match es with
  | [] => exact .none (.pure _) (by simp [Expr.allMentions])
  | e :: es =>
    obtain ⟨first, rest⟩ := List.append_subset.1 sub
    exact (Expr.requested e first none).both fun _ => (Expr.all_requested es rest).answers
termination_by structural es

theorem Argument.all_requested (args : List Argument) (sub : Argument.allMentions args ⊆ all) :
    Requested load all false (Argument.allMentions args) (arguments load args) := by
  match args with
  | [] => exact .none (.pure _) (by simp [Argument.allMentions])
  | ⟨_, value⟩ :: args =>
    obtain ⟨first, rest⟩ := List.append_subset.1 sub
    exact (Expr.requested value first none).both fun _ => Argument.all_requested args rest
termination_by structural args

theorem Param.all_requested (ps : List Param) (sub : Param.allMentions ps ⊆ all) :
    Requested load all false (Param.allMentions ps) (params load ps) := by
  match ps with
  | [] => exact .none (.pure _) (by simp [Param.allMentions])
  | ⟨_, _, none, _⟩ :: ps => exact .second declareInner_traced fun _ => Param.all_requested ps sub
  | ⟨_, _, some e, _⟩ :: ps =>
    obtain ⟨first, rest⟩ := List.append_subset.1 sub
    exact (Expr.requested e first none).both fun _ => .second declareInner_traced fun _ => Param.all_requested ps rest
termination_by structural ps

theorem Lambda.requested (f : Lambda) (sub : f.mentions ⊆ all) :
    Requested load all false f.mentions (lambda load f) := by
  match f with
  | ⟨ps, returns, body, span⟩ =>
    obtain ⟨first, rest⟩ := List.append_subset.1 sub
    exact .second enter_traced fun outer => (Param.all_requested ps first).both fun _ =>
      (Expr.requested body rest none).first
        (f := fun inferred _ => leave outer >>= fun _ => pure (Ty.function (TypeNote.orElse returns inferred)))
        fun _ => leave_traced.bind fun _ => .pure _
termination_by structural f

theorem Block.requested (b : Block) (sub : b.mentions ⊆ all) (incoming : Option Ty) :
    Requested load all false b.mentions (block load incoming b) := by
  match b with
  | ⟨statements, span⟩ =>
    exact .second rejectTailless_traced fun _ => .second enter_traced fun outer =>
      (Statement.all_requested statements sub incoming).first (f := fun ty _ => leave outer >>= fun _ => pure ty)
        fun _ => leave_traced.bind fun _ => .pure _
termination_by structural b

theorem Statement.all_requested (ss : List Statement) (sub : Statement.allMentions ss ⊆ all) (incoming : Option Ty) :
    Requested load all false (Statement.allMentions ss) (blockStatements load incoming ss) := by
  match ss with
  | [] => exact .none (.pure _) (by simp [Statement.allMentions])
  | [s] =>
    have requested := Statement.requested s (List.append_subset.1 sub).1 incoming
    rw [show Statement.allMentions [s] = s.mentions from List.append_nil _]
    exact requested
  | s :: next :: ss =>
    obtain ⟨first, rest⟩ := List.append_subset.1 sub
    exact (Statement.requested s first none).both fun _ => Statement.all_requested (next :: ss) rest incoming
termination_by structural ss

/-- The resolution of a nested statement asks for its imports. -/
theorem Statement.requested (s : Statement) (sub : s.mentions ⊆ all) (incoming : Option Ty) :
    Requested load all false s.mentions (statement load false incoming s) := by
  match s with
  | .importing i => exact (importStatement_requested (sub List.mem_cons_self)).answers
  | .define exported name value span =>
    exact .second refuseNested_traced fun _ => (Expr.requested value sub none).first
      (f := fun ty _ => Resolve.define exported false name value.isLambda ty span >>= fun _ => pure Ty.unit)
      fun _ => define_traced.bind fun _ => .pure _
  | .expr e span => exact Expr.requested e sub incoming
termination_by structural s

theorem Branch.requested (b : Branch) (sub : b.mentions ⊆ all) (incoming : Option Ty) :
    Requested load all false b.mentions (branch load incoming b) := by
  match b with
  | ⟨condition, consequence, other, _⟩ =>
    obtain ⟨both, last⟩ := List.append_subset.1 sub
    obtain ⟨first, second⟩ := List.append_subset.1 both
    have requested := (Expr.requested condition first none).both fun _ => (Block.requested consequence second incoming).both
      fun ty => (Alternative.requested other last incoming).answers (f := fun ty' => ty.join ty')
    rwa [← List.append_assoc] at requested
termination_by structural b

theorem Alternative.requested (a : Alternative) (sub : a.mentions ⊆ all) (incoming : Option Ty) :
    Requested load all false a.mentions (alternative load incoming a) := by
  match a with
  | .absent => exact .none (.pure _) (by simp [Alternative.mentions])
  | .block b => exact Block.requested b sub incoming
  | .branch b => exact Branch.requested b sub incoming
termination_by structural a

theorem Pipeline.requested (p : Pipeline) (sub : p.mentions ⊆ all) (incoming : Option Ty) :
    Requested load all false p.mentions (pipeline load incoming p) := by
  match p with
  | ⟨body, _⟩ => exact (Stage.all_requested body sub incoming).answers
termination_by structural p

theorem Stage.all_requested (ss : List Stage) (sub : Stage.allMentions ss ⊆ all) (incoming : Option Ty) :
    Requested load all false (Stage.allMentions ss) (stages load incoming ss) := by
  match ss with
  | [] => exact .none (.pure _) (by simp [Stage.allMentions])
  | s :: ss =>
    obtain ⟨first, rest⟩ := List.append_subset.1 sub
    exact (Stage.requested s first incoming).both fun _ => Stage.all_requested ss rest _
termination_by structural ss

theorem Stage.requested (s : Stage) (sub : s.mentions ⊆ all) (incoming : Option Ty) :
    Requested load all false s.mentions (stage load incoming s) := by
  match s with
  | .expr e none span => exact (Expr.requested e sub incoming).answers
  | .expr e (some tag) span =>
    exact (Expr.requested e sub incoming).first (f := fun ty _ => declareTag tag span.stop ty >>= fun _ => pure ty)
      fun _ => declareTag_traced.bind fun _ => .pure _
  | .operator op operand none span => exact (Expr.requested operand sub none).answers
  | .operator op operand (some tag) span =>
    exact (Expr.requested operand sub none).first
      (f := fun right _ => declareTag tag span.stop (op.resultType (incoming.getD .any) right) >>= fun _ =>
        pure (op.resultType (incoming.getD .any) right))
      fun _ => declareTag_traced.bind fun _ => .pure _
termination_by structural s

theorem Loop.requested (l : Loop) (sub : l.mentions ⊆ all) (incoming : Option Ty) :
    Requested load all false l.mentions (loop load incoming l) := by
  match l with
  | ⟨sequence, binding, body, span⟩ =>
    obtain ⟨first, rest⟩ := List.append_subset.1 sub
    let finish (outer : ScopeId) (ty : Ty) : Resolve Ty := do
      leave outer
      match incoming with
      | some seed => return ty.join seed
      | none => return .array ty
    have finished (outer : ScopeId) (ty : Ty) : Traced load all false fun _ => finish outer ty := by
      refine leave_traced.bind fun _ => ?_
      cases incoming with
      | none => exact .pure _
      | some seed => exact .pure _
    exact (Expr.requested sequence first none).both fun _ => .second enter_traced fun outer => .second loopSite_traced
      fun _ => .second declareInner_traced fun _ => (Pipeline.requested body rest incoming).first
        (f := fun ty _ => finish outer ty) fun ty => finished outer ty
termination_by structural l

end

end

/-- The resolution of a statement at the top level asks for its imports. -/
theorem Statement.top_requested (s : Statement) (sub : s.mentions ⊆ all) :
    Requested load all true s.mentions (statement load true none s) := by
  cases s with
  | importing i => exact (importStatement_requested (sub List.mem_cons_self)).answers
  | define exported name value span =>
    exact .second refuseNested_traced fun _ => (Expr.requested value sub none).widen.first
      (f := fun ty _ => Resolve.define exported true name value.isLambda ty span >>= fun _ => pure Ty.unit)
      fun _ => define_traced.bind fun _ => .pure _
  | expr e span => exact (Expr.requested e sub none).widen

lemma Resolve.topLevel_requested (ss : List Statement) (sub : Statement.allMentions ss ⊆ all) :
    Requested load all true (Statement.allMentions ss) (Resolve.topLevel load ss) := by
  induction ss with
  | nil => exact .none (.pure _) (by simp [Statement.allMentions])
  | cons s ss ih =>
    obtain ⟨first, rest⟩ := List.append_subset.1 sub
    exact (Statement.top_requested s first).both fun _ => ih rest

/-- The resolution of a module asks for its imports. -/
theorem Resolve.module_requested (m : Module) :
    Requested load (Statement.allMentions m.statements) true (Statement.allMentions m.statements)
      (Resolve.module load m) :=
  (topLevel_requested m.statements (List.Subset.refl _)).first (f := fun _ load => remaining load m [])
    fun _ => remaining_traced m [] (by simp [Statement.allMentions])

end PipeLang
