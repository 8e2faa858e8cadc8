import PipeLang.Proofs.Eval.Finished
import PipeLang.Proofs.Eval.Pure

/-!
# Identities are taken

Functions and objects have identities that the machine has given away: `Machine.Issued`. Every evaluation keeps to that if host functions
are pure, at every depth: `Task.run_issued`. So what is new has an identity that nothing has yet.
-/

namespace PipeLang

open Eval

/-- Frames correspond to themselves, and so do identities below a number. -/
def Matching.upTo (n : Nat) : Matching :=
  ⟨Eq, fun i j => i = j ∧ i < n⟩

/-- All identities in a value are below a number. -/
def Value.Issued (n : Nat) (v : Value) : Prop :=
  v.Alike (.upTo n) (fun _ _ => True) v

/-- All identities in the values of a machine are taken. -/
structure Machine.Issued (m : Machine) : Prop where
  values : ∀ {f : Nat} {frame}, m.heap[f]? = some frame → ∀ entry ∈ frame.values, entry.2.Issued m.fresh
  items : ∀ entry ∈ m.items, entry.2.Issued m.fresh
  assemblies : ∀ entry ∈ m.assemblies, entry.2.Issued m.fresh

section

variable {n n' : Nat} {v : Value}

lemma Matching.upTo_oneOne : (upTo n).OneOne where
  frames := ⟨fun _ _ _ h h' => h.trans h'.symm, fun _ _ _ h h' => h.symm.trans h'⟩
  identities := ⟨fun _ _ _ h h' => h.1.trans h'.1.symm, fun _ _ _ h h' => h.1.symm.trans h'.1⟩

lemma Value.Issued.mono (h : v.Issued n) (below : n ≤ n') : v.Issued n' :=
  have within : (Matching.upTo n).Within (.upTo n') := ⟨id, fun ⟨same, taken⟩ => ⟨same, Nat.lt_of_lt_of_le taken below⟩⟩
  Value.Alike.mono within (fun _ _ => id) v h

lemma Value.issued_array {vs : List Value} : (Value.array vs).Issued n ↔ ∀ v ∈ vs, v.Issued n := by
  refine ⟨fun h => ?_, fun h => .array (List.forall₂_same.2 h)⟩
  cases h with
  | array h => exact fun v member => List.forall₂_same.1 h v member

lemma Value.issued_closure {f : Closure} : (Value.closure f).Issued n ↔ f.identity < n := by
  refine ⟨fun h => ?_, fun h => .closure ⟨rfl, rfl, rfl, rfl, ⟨rfl, h⟩, trivial⟩⟩
  cases h with
  | closure h => exact h.identity.2

lemma Value.issued_object {kind : String} {i : Nat} : (Value.object kind i v).Issued n ↔ i < n ∧ v.Issued n := by
  refine ⟨fun h => ?_, fun ⟨h, h'⟩ => .object ⟨rfl, h⟩ h'⟩
  cases h with
  | object h h' => exact ⟨h.2, h'⟩

end

section

variable {n : Nat} {M : Matching} {code : Code}

mutual

/-- A value is like itself if its functions are meant, and their frames and all identities stand for themselves. -/
theorem Value.Issued.alike (identities : ∀ i < n, M.identities i i) : (v : Value) → v.Issued n →
    (∀ f, .closure f ∈ v.functions → M.frames f.frame f.frame ∧ code f.module f.lambda) → v.Alike M code v
  | .unit, _, _ => .unit
  | .number _, _, _ => .number
  | .bool _, _, _ => .bool
  | .text _, _, _ => .text
  | .host _, _, _ => .host
  | .array vs, issued, functions => .array (Value.Issued.all_alike identities vs (Value.issued_array.1 issued) functions)
  | .closure f, issued, functions =>
    have ⟨frame, meant⟩ := functions f (List.mem_singleton_self _)
    .closure ⟨rfl, rfl, rfl, frame, identities _ (Value.issued_closure.1 issued), meant⟩
  | .object _ _ v, issued, functions =>
    have ⟨taken, content⟩ := Value.issued_object.1 issued
    .object (identities _ taken) (Value.Issued.alike identities v content functions)

theorem Value.Issued.all_alike (identities : ∀ i < n, M.identities i i) : (vs : List Value) → (∀ v ∈ vs, v.Issued n) →
    (∀ f, .closure f ∈ Value.allFunctions vs → M.frames f.frame f.frame ∧ code f.module f.lambda) →
      List.Forall₂ (Value.Alike M code) vs vs
  | [], _, _ => .nil
  | v :: vs, issued, functions =>
    have ⟨first, others⟩ := List.forall_mem_cons.1 issued
    .cons (Value.Issued.alike identities v first fun f member => functions f (List.mem_append_left _ member))
      (Value.Issued.all_alike identities vs others fun f member => functions f (List.mem_append_right _ member))

end

end

/-! ### Machines -/

namespace Machine.Issued

variable {m : Machine} {f : FrameId} {id : BindingId} {v : Value}

lemma new : Machine.new.Issued :=
  ⟨fun found => by simp [Machine.new] at found, nofun, nofun⟩

lemma push (h : m.Issued) (parent : Option FrameId) : { m with heap := m.heap.push parent : Machine }.Issued where
  values found entry member := by
    rcases Heap.push_found found with ⟨-, empty⟩ | old
    · rw [empty] at member
      cases member
    · exact h.values old entry member
  items := h.items
  assemblies := h.assemblies

lemma define (h : m.Issued) (f : FrameId) (id : BindingId) (value : v.Issued m.fresh) :
    { m with heap := m.heap.define f id v : Machine }.Issued where
  values found entry member := by
    rw [Heap.getElem?_define] at found
    split at found
    · obtain ⟨old, known, rfl⟩ := Option.map_eq_some_iff.1 found
      rcases List.mem_cons.1 member with rfl | before
      · exact value
      · exact h.values known entry before
    · exact h.values found entry member
  items := h.items
  assemblies := h.assemblies

lemma issue (h : m.Issued) : { m with fresh := m.fresh + 1 }.Issued where
  values found entry member := (h.values found entry member).mono (Nat.le_succ _)
  items entry member := (h.items entry member).mono (Nat.le_succ _)
  assemblies entry member := (h.assemblies entry member).mono (Nat.le_succ _)

lemma setItem (h : m.Issued) (module : ModuleId) (name : String) (value : v.Issued m.fresh) :
    { m with items := ((module, name), v) :: m.items }.Issued :=
  { h with items := List.forall_mem_cons.2 ⟨value, h.items⟩ }

lemma setAssembly (h : m.Issued) (module : ModuleId) (value : v.Issued m.fresh) :
    { m with assemblies := (module, v) :: m.assemblies }.Issued :=
  { h with assemblies := List.forall_mem_cons.2 ⟨value, h.assemblies⟩ }

lemma setState (h : m.Issued) (module : ModuleId) (s : RunState) : { m with states := (module, s) :: m.states }.Issued :=
  { h with }

lemma begun (h : m.Issued) (id : ModuleId) : (Eval.begun id m).Issued :=
  { h.push none with }

lemma getLocal (h : m.Issued) (found : m.heap.getLocal? f id = some v) : v.Issued m.fresh := by
  unfold Heap.getLocal? at found
  split at found
  · next frame known => exact h.values known _ (mem_of_lookup found)
  · cases found

lemma get (h : m.Issued) (found : m.heap.get? f id = some v) : v.Issued m.fresh := by
  obtain ⟨g, -, found⟩ := List.exists_of_findSome?_eq_some found
  exact h.getLocal found

end Machine.Issued

/-! ### Computations -/

namespace Eval

variable {α β : Type} {p : Program} {n n' : Nat} {run : Task → Eval Value} {c : Context} {incoming : Option Value} {id : ModuleId}

/-- A computation has left a machine whose identities are taken. -/
inductive Takes (n : Nat) (Q : Nat → α → Prop) : EStateM.Result Stop Machine α → Prop where
  | ok {n' a m} :
    n ≤ n' →
    m.Issued →
    n' ≤ m.fresh →
    Q n' a →
    Takes n Q (.ok a m)
  | stop {s m} :
    m.Issued →
    n ≤ m.fresh →
    Takes n Q (.error s m)

/-- A computation leaves such a machine if identities below a number are taken. -/
def Issues (n : Nat) (e : Eval α) (Q : Nat → α → Prop) : Prop :=
  ∀ m : Machine, m.Issued → n ≤ m.fresh → Takes n Q (e m)

namespace Issues

variable {Q : Nat → α → Prop} {R : Nat → β → Prop} {e : Eval α} {f : α → Eval β} {v : Value}

lemma since {result : EStateM.Result Stop Machine α} (h : Takes n' Q result) (since : n ≤ n') : Takes n Q result := by
  cases h with
  | ok grows issued taken q => exact .ok (since.trans grows) issued taken q
  | stop issued taken => exact .stop issued (since.trans taken)

lemma pure {a : α} (h : Q n a) : Issues n (Pure.pure a) Q :=
  fun _ issued taken => .ok le_rfl issued taken h

lemma fail {e : RuntimeError} : Issues n (Eval.fail e) Q :=
  fun _ issued taken => .stop issued taken

lemma ofOutcome {o : Outcome α} (h : ∀ a, o = .ok a → Q n a) : Issues n (Eval.ofOutcome o) Q := by
  cases o with
  | ok a => exact pure (h a rfl)
  | error e => exact fail

/-- A result that is related to itself. -/
lemma ofBoth {o : Outcome α} {S : α → α → Prop} (both : Outcome.Both S o o) (h : ∀ a, S a a → Q n a) :
    Issues n (Eval.ofOutcome o) Q := by
  cases both with
  | ok s => exact pure (h _ s)
  | error => exact fail

lemma bind (first : Issues n e Q) (next : ∀ n' a, n ≤ n' → Q n' a → Issues n' (f a) R) : Issues n (e >>= f) R := by
  intro m issued taken
  have ends := first m issued taken
  show Takes n R (EStateM.bind e f m)
  unfold EStateM.bind
  generalize e m = result at ends ⊢
  cases ends with
  | ok grows issued taken q => exact since (next _ _ grows q _ issued taken) grows
  | stop issued taken => exact .stop issued taken

/-- What is read from the machine goes into what follows. -/
lemma read {g : Machine → Eval α} (next : ∀ m : Machine, m.Issued → Issues m.fresh (g m) Q) : Issues n (get >>= g) Q :=
  fun m issued taken => since (next m issued m issued le_rfl) taken

/-- A change of the machine that needs no identities. -/
lemma change {g : Machine → Machine} (h : ∀ m : Machine, m.Issued → n ≤ m.fresh → (g m).Issued ∧ (g m).fresh = m.fresh) :
    Issues n (modify g) fun _ _ => True :=
  fun m issued taken =>
    have ⟨issued', same⟩ := h m issued taken
    .ok le_rfl issued' (same ▸ taken) trivial

lemma define {g : FrameId} {b : BindingId} (value : v.Issued n) : Issues n (Eval.define g b v) fun _ _ => True :=
  change fun _ issued taken => ⟨issued.define g b (value.mono taken), rfl⟩

lemma setItem {name : String} (value : v.Issued n) : Issues n (Eval.setItem id name v) fun _ _ => True :=
  change fun _ issued taken => ⟨issued.setItem id name (value.mono taken), rfl⟩

lemma setAssembly (value : v.Issued n) : Issues n (Eval.setAssembly id v) fun _ _ => True :=
  change fun _ issued taken => ⟨issued.setAssembly id (value.mono taken), rfl⟩

lemma setState {s : RunState} : Issues n (Eval.setState id s) fun _ _ => True :=
  change fun _ issued _ => ⟨issued.setState id s, rfl⟩

lemma inside : Issues n (Eval.inside c) fun _ _ => True :=
  fun _ issued taken => .ok le_rfl (issued.push (some c.frame)) taken trivial

lemma freshIdentity : Issues n Eval.freshIdentity fun n' i => i < n' :=
  fun _ issued taken => .ok (Nat.le_succ_of_le taken) issued.issue le_rfl (Nat.lt_succ_self _)

lemma item? {name : String} : Issues n (Eval.item? id name) fun n o => ∀ v ∈ o, v.Issued n :=
  read fun _ issued => pure fun _ found => issued.items _ (mem_of_lookup found)

lemma module : Issues n (Eval.module p id) fun _ _ => True := by
  unfold Eval.module
  cases p.modules[(id : Nat)]? with
  | none => exact fail
  | some l => exact pure trivial

lemma resolvedOf : Issues n (Eval.resolvedOf p id) fun _ _ => True := by
  refine module.bind fun _ l _ _ => ?_
  cases l.resolved with
  | none => exact fail
  | some t => exact pure trivial

lemma makeClosure {g : Lambda} {name : Option String} : Issues n (Eval.makeClosure c g name) Value.Issued :=
  freshIdentity.bind fun _ _ _ taken => pure (Value.issued_closure.2 taken)

end Issues

end Eval

/-- All identities in the values that a task is about are below a number. -/
def Task.Issued (n : Nat) : Task → Prop
  | .expr _ _ incoming | .block _ _ incoming | .branch _ _ incoming | .pipeline _ _ incoming | .loop _ _ incoming =>
    ∀ v ∈ incoming, v.Issued n
  | .call callee positional keyword =>
    callee.Issued n ∧ (∀ v ∈ positional, v.Issued n) ∧ ∀ entry ∈ keyword, entry.2.Issued n
  | .statement _ _ | .module _ => True

namespace Eval

/-- All identities in what a loop has made so far are below a number. -/
def LoopProgress.Issued (n : Nat) (progress : LoopProgress) : Prop :=
  (∀ v ∈ progress.folded, v.Issued n) ∧ ∀ v ∈ progress.mapped, v.Issued n

lemma LoopProgress.Issued.mono {n n' : Nat} {progress : LoopProgress} (h : progress.Issued n) (below : n ≤ n') : progress.Issued n' :=
  ⟨fun v member => (h.1 v member).mono below, fun v member => (h.2 v member).mono below⟩

variable {p : Program} {n : Nat} {run : Task → Eval Value} {c : Context} {incoming : Option Value} {id : ModuleId} {v w : Value}

/-- Tasks whose identities are taken leave machines whose identities are taken. -/
def Issuing (run : Task → Eval Value) : Prop :=
  ∀ n task, Task.Issued n task → Issues n (run task) Value.Issued

section

variable (issuing : Issuing run)
include issuing

lemma Issuing.plain {e : Expr} : Issues n (run (.expr c e none)) Value.Issued :=
  issuing _ (.expr c e none) nofun

lemma assembly_issues : Issues n (assembly p run id) Value.Issued := by
  refine Issues.module.bind fun n' l _ _ => ?_
  split
  · refine Issues.bind (issuing _ (.module id) trivial) fun _ _ _ _ => .read fun m issued => ?_
    cases value : m.assemblies.lookup id with
    | none => exact .fail
    | some v => exact .pure (issued.assemblies _ (mem_of_lookup value))
  · exact .fail

lemma reference_issues {site : Span} {name : String} : Issues n (reference p run c site name) Value.Issued := by
  refine Issues.resolvedOf.bind fun n' t _ _ => ?_
  cases t.references.get? site with
  | none => exact .fail
  | some ref =>
    obtain ⟨target, ty⟩ := ref
    cases target with
    | inner b =>
      refine .read fun m issued => ?_
      cases value : m.heap.get? c.frame b with
      | none => exact .fail
      | some v => exact .pure (issued.get value)
    | item id item =>
      refine Issues.item?.bind fun _ o _ known => ?_
      cases o with
      | some v => exact .pure (known v rfl)
      | none =>
        refine Issues.bind (issuing _ (.module id) trivial) fun _ _ _ _ => Issues.item?.bind fun _ o _ known => ?_
        cases o with
        | some v => exact .pure (known v rfl)
        | none => exact .fail
    | module id => exact assembly_issues issuing
    | host name => exact .pure .host
    | invalid => exact .fail

lemma exprs_issues {es : List Expr} : Issues n (exprs run c es) fun n vs => ∀ v ∈ vs, v.Issued n := by
  induction es generalizing n with
  | nil => exact .pure nofun
  | cons e es ih =>
    simp only [exprs, List.mapM_cons] at ih ⊢
    refine issuing.plain.bind fun n₁ v _ first => ih.bind fun n₂ vs grows others => .pure ?_
    exact List.forall_mem_cons.2 ⟨first.mono grows, others⟩

lemma arguments_issues {args : List Argument} : Issues n (arguments run c args) fun n (positional, keyword) =>
    (∀ v ∈ positional, v.Issued n) ∧ ∀ entry ∈ keyword, entry.2.Issued n := by
  induction args generalizing n with
  | nil => exact .pure ⟨List.forall_mem_nil _, List.forall_mem_nil _⟩
  | cons a args ih =>
    refine issuing.plain.bind fun n₁ v _ first => ih.bind fun n₂ (positional, keyword) grows ⟨fit, fit'⟩ => ?_
    cases a.name with
    | some name => exact .pure ⟨fit, List.forall_mem_cons.2 ⟨first.mono grows, fit'⟩⟩
    | none => exact .pure ⟨List.forall_mem_cons.2 ⟨first.mono grows, fit⟩, fit'⟩

omit issuing in
/-- What is left of the statements of a module that fails. -/
lemma guarded_issues {e : Eval Value} {Q : Nat → Value → Prop} (body : Issues n e Q) : Issues n (guarded id e) Q := by
  intro m issued taken
  have ends := body m issued taken
  rw [guarded_eq]
  generalize e m = result at ends ⊢
  cases ends with
  | ok grows issued taken q => exact .ok grows issued taken q
  | @stop s _ issued taken =>
    cases s with
    | error e => exact .stop (issued.setState id (.failed e)) taken
    | outOfFuel => exact .stop issued taken

omit issuing in
lemma apply_issues {op : BinaryOp} (left : v.Issued n) (right : w.Issued n) : Issues n (ofOutcome (op.apply v w)) Value.Issued :=
  .ofBoth (BinaryOp.apply_alike Matching.upTo_oneOne op left right) fun _ => id

lemma plainExpr_issues {e : Expr} : Issues n (plainExpr p run c e) Value.Issued := by
  cases e with
  | name | path => exact reference_issues issuing
  | literal l => exact .pure (Literal.value_alike l)
  | array items => exact (exprs_issues issuing).bind fun _ _ _ all => .pure (Value.issued_array.2 all)
  | range start stop inclusive =>
    refine issuing.plain.bind fun _ _ _ _ => Issues.bind (.ofOutcome fun _ _ => trivial) fun _ _ _ (_ : True) => ?_
    refine issuing.plain.bind fun _ _ _ _ => Issues.bind (.ofOutcome fun _ _ => trivial) fun _ _ _ (_ : True) => ?_
    exact .ofBoth (Value.ofRange_alike ..) fun _ => id
  | binary op left right =>
    refine issuing.plain.bind fun _ v _ first => ?_
    cases known : op.decided? v with
    | some u => exact .pure ((BinaryOp.decided_alike first).2 u known)
    | none => exact issuing.plain.bind fun _ _ grows second => apply_issues (first.mono grows) second
  | unary op operand => exact issuing.plain.bind fun _ _ _ first => .ofBoth (UnaryOp.apply_alike first) fun _ => id
  | call callee args =>
    refine issuing.plain.bind fun _ f _ callee => (arguments_issues issuing).bind fun _ (_, _) grows ⟨fit, fit'⟩ => ?_
    exact issuing _ (.call _ _ _) ⟨callee.mono grows, fit, fit'⟩
  | index base index =>
    refine issuing.plain.bind fun _ _ _ first => issuing.plain.bind fun _ _ grows second => ?_
    exact .ofBoth (Value.Alike.itemAt (first.mono grows) second) fun _ => id
  | lambda f => exact .makeClosure
  | block b => exact issuing _ (.block c b none) nofun
  | branch b => exact issuing _ (.branch c b none) nofun
  | pipeline pl => exact issuing _ (.pipeline c pl.stages none) nofun
  | loop l => exact issuing _ (.loop c l none) nofun

lemma stageExpr_issues {e : Expr} (given : v.Issued n) : Issues n (stageExpr run c v e) Value.Issued := by
  have called : Issues n (run (.expr c e none) >>= fun f => run (.call f [v] [])) Value.Issued :=
    issuing.plain.bind fun _ f grows callee =>
      issuing _ (.call f [v] []) ⟨callee, List.forall_mem_singleton.2 (given.mono grows), List.forall_mem_nil _⟩
  have handed {n' : Nat} (grows : n ≤ n') : ∀ w ∈ some v, w.Issued n' := by
    rintro _ ⟨⟩
    exact given.mono grows
  cases e with
  | name | path => exact called
  | call callee args =>
    refine issuing.plain.bind fun _ f grows callee => (arguments_issues issuing).bind fun _ (_, _) grows' ⟨fit, fit'⟩ => ?_
    exact issuing _ (.call _ _ _) ⟨callee.mono grows', List.forall_mem_cons.2 ⟨given.mono (grows.trans grows'), fit⟩, fit'⟩
  | block b => exact issuing _ (.block c b (some v)) (handed le_rfl)
  | branch b => exact issuing _ (.branch c b (some v)) (handed le_rfl)
  | pipeline pl => exact issuing _ (.pipeline c pl.stages (some v)) (handed le_rfl)
  | loop l => exact issuing _ (.loop c l (some v)) (handed le_rfl)
  | _ => exact .fail

lemma expr_issues {e : Expr} (given : ∀ v ∈ incoming, v.Issued n) : Issues n (expr p run c e incoming) Value.Issued := by
  cases incoming with
  | none => exact plainExpr_issues issuing
  | some v => exact stageExpr_issues issuing (given v rfl)

omit issuing in
lemma bindDefinition_issues {name : Ident} (value : v.Issued n) : Issues n (bindDefinition p c name v) fun _ _ => True := by
  refine Issues.resolvedOf.bind fun _ t grows _ => ?_
  cases t.declarations.get? name.span with
  | none => exact .fail
  | some b =>
    dsimp only
    cases t.scopes.target b with
    | item i item => exact .setItem (value.mono grows)
    | _ => exact .define (value.mono grows)

lemma statement_issues {s : Statement} : Issues n (statement p run c s) Value.Issued := by
  cases s with
  | importing i =>
    refine Issues.resolvedOf.bind fun _ t _ _ => ?_
    cases t.imports.get? i.span with
    | none => exact .pure .unit
    | some target => exact Issues.bind (issuing _ (.module target) trivial) fun _ _ _ _ => .pure .unit
  | define exported name value span =>
    rw [statement_define]
    have made : Issues n (definedValue run c name value) Value.Issued := by
      cases value with
      | lambda f => exact .makeClosure
      | _ => exact issuing.plain
    exact made.bind fun _ v _ value => (bindDefinition_issues value).bind fun _ _ _ _ => .pure .unit
  | expr e => exact issuing.plain

lemma blockStatements_issues {ss : List Statement} (given : ∀ v ∈ incoming, v.Issued n) :
    Issues n (blockStatements run c incoming ss) Value.Issued := by
  have passOver {n : Nat} : Issues n (blockStatements.passOver incoming) Value.Issued := by
    cases incoming with
    | none => exact .pure .unit
    | some v => exact .fail
  have first {n : Nat} (s : Statement) : Issues n (run (.statement c s)) Value.Issued := issuing _ (.statement c s) trivial
  induction ss generalizing n with
  | nil => exact passOver
  | cons s ss ih =>
    cases ss with
    | nil =>
      cases s with
      | expr e => exact issuing _ (.expr c e incoming) given
      | _ => exact (first _).bind fun _ _ _ _ => passOver
    | cons s' ss =>
      rw [blockStatements_cons]
      exact (first s).bind fun _ _ grows _ => ih fun v member => (given v member).mono grows

lemma block_issues {b : Block} (given : ∀ v ∈ incoming, v.Issued n) : Issues n (block run c b incoming) Value.Issued :=
  Issues.inside.bind fun _ _ grows _ => blockStatements_issues issuing fun v member => (given v member).mono grows

lemma branch_issues {b : Branch} (given : ∀ v ∈ incoming, v.Issued n) : Issues n (branch run c b incoming) Value.Issued := by
  refine issuing.plain.bind fun n' v grows _ => ?_
  have given : ∀ v ∈ incoming, v.Issued n' := fun v member => (given v member).mono grows
  cases v with
  | bool decision =>
    cases decision with
    | true => exact issuing _ (.block c b.consequence incoming) given
    | false =>
      dsimp only
      cases b.alternative with
      | absent =>
        cases incoming with
        | none => exact .pure .unit
        | some v => exact .pure (given v rfl)
      | block other => exact issuing _ (.block c other incoming) given
      | branch other => exact issuing _ (.branch c other incoming) given
  | _ => exact .fail

omit issuing in
lemma bindTag_issues {tag : Option Ident} (value : v.Issued n) : Issues n (bindTag p c v tag) fun _ _ => True := by
  cases tag with
  | none => exact .pure trivial
  | some name =>
    refine Issues.resolvedOf.bind fun _ t grows _ => ?_
    cases t.declarations.get? name.span with
    | none => exact .fail
    | some b => exact .define (value.mono grows)

lemma stage_issues {s : Stage} (given : ∀ v ∈ incoming, v.Issued n) : Issues n (stage run c incoming s) Value.Issued := by
  cases s with
  | expr e => exact issuing _ (.expr c e incoming) given
  | operator op operand =>
    cases incoming with
    | none => exact .fail
    | some left => exact issuing.plain.bind fun _ _ grows right => apply_issues ((given left rfl).mono grows) right

lemma pipeline_issues {stages : List Stage} (given : ∀ v ∈ incoming, v.Issued n) :
    Issues n (pipeline p run c incoming stages) Value.Issued := by
  induction stages generalizing n incoming with
  | nil =>
    cases incoming with
    | none => exact .pure .unit
    | some v => exact .pure (given v rfl)
  | cons s stages ih =>
    refine (stage_issues issuing given).bind fun _ v _ value => (bindTag_issues value).bind fun _ _ grows _ => ih ?_
    rintro _ ⟨⟩
    exact value.mono grows

omit issuing in
lemma collectTag_issues {frames : List FrameId} {tag : BindingId} : Issues n (collectTag c frames tag) fun _ _ => True := by
  refine .read fun m issued => .define (Value.issued_array.2 fun v member => ?_)
  obtain ⟨f, -, found⟩ := List.mem_filterMap.1 member
  exact issued.getLocal found

omit issuing in
lemma collectTags_issues {frames : List FrameId} {tags : List BindingId} :
    Issues n (tags.forM (collectTag c frames)) fun _ _ => True := by
  induction tags generalizing n with
  | nil => exact .pure trivial
  | cons tag tags ih => exact collectTag_issues.bind fun _ _ _ _ => ih

lemma iterate_issues {l : Loop} {progress : LoopProgress} (made : progress.Issued n) :
    Issues n (iterate run c l progress) fun n next => next.Issued n := by
  refine Issues.bind (issuing _ (.pipeline c l.body.stages progress.folded) made.1) fun n' w grows value => ?_
  obtain ⟨-, others⟩ := made.mono grows
  obtain ⟨folded, mapped, frames⟩ := progress
  cases folded with
  | none => exact .pure ⟨nofun, List.forall_mem_cons.2 ⟨value, others⟩⟩
  | some _ => exact .pure ⟨fun _ same => by cases same; exact value, others⟩

lemma iteration_issues {l : Loop} {bound? : Option BindingId} {progress : LoopProgress} (made : progress.Issued n)
    (element : v.Issued n) : Issues n (iteration run c l bound? progress v) fun n next => next.Issued n := by
  refine Issues.inside.bind fun n₁ inner grows _ => ?_
  cases bound? with
  | some id =>
    refine Issues.bind (.define (element.mono grows)) fun n₂ _ grows' _ => ?_
    exact iterate_issues issuing (made.mono (grows.trans grows'))
  | none => exact iterate_issues issuing (made.mono grows)

lemma iterations_issues {l : Loop} {bound? : Option BindingId} {progress : LoopProgress} {elements : List Value}
    (made : progress.Issued n) (all : ∀ v ∈ elements, v.Issued n) :
    Issues n (elements.foldlM (iteration run c l bound?) progress) fun n last => last.Issued n := by
  induction elements generalizing n progress with
  | nil => exact .pure made
  | cons v elements ih =>
    obtain ⟨first, others⟩ := List.forall_mem_cons.1 all
    rw [List.foldlM_cons]
    exact (iteration_issues issuing made first).bind fun _ next grows made => ih made fun v member => (others v member).mono grows

lemma loop_issues {l : Loop} (given : ∀ v ∈ incoming, v.Issued n) : Issues n (loop p run c l incoming) Value.Issued := by
  refine issuing.plain.bind fun n₁ v grows sequence => ?_
  cases v with
  | array elements =>
    refine Issues.resolvedOf.bind fun n₂ t grows' _ => ?_
    have all (v : Value) (member : v ∈ elements) : v.Issued n₂ := (Value.issued_array.1 sequence v member).mono grows'
    have start : LoopProgress.Issued n₂ ⟨incoming, [], []⟩ :=
      ⟨fun v member => (given v member).mono (grows.trans grows'), List.forall_mem_nil _⟩
    refine (iterations_issues issuing start all).bind fun n₃ last _ made => collectTags_issues.bind fun n₄ _ grows _ => ?_
    obtain ⟨folds, maps⟩ := made.mono grows
    obtain ⟨folded, mapped, frames⟩ := last
    cases folded with
    | some v => exact .pure (folds v rfl)
    | none => exact .pure (Value.issued_array.2 fun v member => maps v (List.mem_reverse.1 member))
  | _ => exact .fail

lemma bindParams_issues {callee : String} {count : Nat} {t : Resolved} {places : List (Param × Option Value)}
    (given : ∀ place ∈ places, ∀ v ∈ place.2, v.Issued n) : Issues n (bindParams run callee count t c places) fun _ _ => True := by
  induction places generalizing n with
  | nil => exact .pure trivial
  | cons place places ih =>
    obtain ⟨q, o⟩ := place
    obtain ⟨first, others⟩ := List.forall_mem_cons.1 given
    have bound {n₁ : Nat} {v : Value} (grows : n ≤ n₁) (value : v.Issued n₁) :
        Issues n₁ (bindParam run callee count t c q places v) fun _ _ => True := by
      have later {n₂ : Nat} (since : n₁ ≤ n₂) : Issues n₂ (bindParams run callee count t c places) fun _ _ => True :=
        ih fun place member w same => (others place member w same).mono (grows.trans since)
      refine Issues.bind (.ofOutcome fun _ _ => trivial) fun n₂ _ since (_ : True) => ?_
      cases t.declarations.get? q.name.span with
      | none => exact later since
      | some b => exact Issues.bind (.define (value.mono since)) fun _ _ since' _ => later (since.trans since')
    cases o with
    | some v => exact bound le_rfl (first v rfl)
    | none =>
      obtain ⟨name, note, fallback, span⟩ := q
      cases fallback with
      | some e => exact issuing.plain.bind fun n₁ v grows value => bound grows value
      | none => exact Issues.fail.bind (Q := fun _ _ => False) fun _ _ _ => False.elim

omit issuing in
/-- What arguments are bound to comes from them. -/
lemma bindSlots_issues {callee : String} {params : List ParamSlot} {positional : List Value} {keyword : List (String × Value)}
    (fit : ∀ v ∈ positional, v.Issued n) (fit' : ∀ entry ∈ keyword, entry.2.Issued n) :
    Issues n (ofOutcome (bindSlots callee params positional keyword)) fun n given =>
      List.Forall₂ (Option.Rel (Value.Alike (.upTo n) fun _ _ => True)) given given :=
  .ofBoth (bindSlots_both (List.forall₂_same.2 fit) (List.forall₂_same.2 fun entry member => ⟨rfl, fit' entry member⟩)) fun _ => id

lemma callClosure_issues {f : Closure} {positional : List Value} {keyword : List (String × Value)}
    (fit : ∀ v ∈ positional, v.Issued n) (fit' : ∀ entry ∈ keyword, entry.2.Issued n) :
    Issues n (callClosure p run f positional keyword) Value.Issued := by
  refine (bindSlots_issues fit fit').bind fun n₁ given _ related => Issues.inside.bind fun n₂ inner grows _ => ?_
  refine Issues.resolvedOf.bind fun n₃ t grows' _ => ?_
  have places : ∀ place ∈ f.lambda.params.zip given, ∀ v ∈ place.2, v.Issued n₃ := by
    rintro ⟨q, o⟩ member v ⟨⟩
    have self := List.forall₂_same.1 related (some v) (List.of_mem_zip member).2
    cases self with
    | some value => exact Value.Issued.mono value (grows.trans grows')
  refine (bindParams_issues issuing places).bind fun n₄ _ _ _ => issuing.plain.bind fun n₅ v _ value => ?_
  cases f.lambda.returns with
  | none => exact .pure value
  | some note =>
    dsimp only
    split
    · exact .pure value
    · exact .fail

lemma moduleStatements_issues {ss : List Statement} (last : v.Issued n) : Issues n (moduleStatements run c v ss) Value.Issued := by
  induction ss generalizing n v with
  | nil => exact .pure last
  | cons s ss ih => exact Issues.bind (issuing _ (.statement c s) trivial) fun _ _ _ value => ih value

lemma ensureModule_issues : Issues n (ensureModule p run id) fun _ _ => True := by
  refine .read fun m issued => ?_
  cases m.states.lookup id with
  | some s =>
    cases s with
    | running | done => exact .pure trivial
    | failed e => exact .fail
  | none =>
    refine Issues.module.bind fun n l _ _ => ?_
    cases l.ast with
    | none => exact .fail
    | some ast =>
      dsimp only
      split
      · intro m issued taken
        rw [runModule_eq]
        refine Issues.bind (Q := Value.Issued) ?_ ?_ (begun id m) (issued.begun id) taken
        · exact guarded_issues (moduleStatements_issues issuing .unit)
        · intro n' v _ value
          split
          · exact (Issues.setAssembly value).bind fun _ _ _ _ => .setState
          · exact .setState
      · exact .fail

end

section

variable (pure : p.hosts.Pure)
include pure

lemma callHost_issues {name : String} {positional : List Value} {keyword : List (String × Value)}
    (fit : ∀ v ∈ positional, v.Issued n) (fit' : ∀ entry ∈ keyword, entry.2.Issued n) :
    Issues n (callHost p name positional keyword) Value.Issued := by
  unfold callHost
  cases found : p.hosts.get? name with
  | none => exact .fail
  | some f =>
    have pure := pure name f found
    refine (bindSlots_issues fit fit').bind fun n₁ given _ related => ?_
    have arguments : Issues n₁ (ofOutcome ((f.signature.params.zip given).mapM (hostArgument name))) fun n args =>
        ∀ v ∈ args, v.Issued n :=
      .ofBoth (hostArguments_both (fun q member d fallback => pure.fallback q member d fallback _ _) related) fun _ all v member =>
        List.forall₂_same.1 all v member
    refine arguments.bind fun n₂ args _ all => Issues.freshIdentity.bind fun n₃ i grows taken => ?_
    have alike : List.Forall₂ (Value.Alike (.upTo n₃) fun _ _ => True) args args :=
      List.forall₂_same.2 fun v member => (all v member).mono grows
    have answers := pure.apply Matching.upTo_oneOne ⟨rfl, taken⟩ alike
    generalize f.apply i args = answer at answers ⊢
    cases answers with
    | ok value => exact .pure value
    | error => exact .fail

lemma call_issues {positional : List Value} {keyword : List (String × Value)} (issuing : Issuing run)
    (fit : ∀ v ∈ positional, v.Issued n) (fit' : ∀ entry ∈ keyword, entry.2.Issued n) :
    Issues n (call p run v positional keyword) Value.Issued := by
  cases v with
  | closure f => exact callClosure_issues issuing fit fit'
  | host name => exact callHost_issues pure fit fit'
  | _ => exact .fail

/-- A step leaves identities taken if the tasks do that it asks for. -/
theorem step_issues (issuing : Issuing run) : Issuing (step p run) := by
  intro n task given
  cases task with
  | expr => exact expr_issues issuing given
  | statement => exact statement_issues issuing
  | block => exact block_issues issuing given
  | branch => exact branch_issues issuing given
  | pipeline => exact pipeline_issues issuing given
  | loop => exact loop_issues issuing given
  | call => exact call_issues pure issuing given.2.1 given.2.2
  | module => exact (ensureModule_issues issuing).bind fun _ _ _ _ => .pure .unit

end

end Eval

/-- Tasks leave identities taken at every depth of nested evaluation. -/
theorem Task.run_issued {p : Program} (pure : p.hosts.Pure) (fuel : Nat) : Issuing (Task.run p fuel) := by
  induction fuel with
  | zero => exact fun _ _ _ _ issued taken => .stop issued taken
  | succ fuel ih => exact step_issues pure ih

/-! ### What is asked for -/

section

variable {α : Type} {p : Program} {n n' fuel : Nat} {run : Task → Eval Value} {m m' : Machine} {task goal next : Task}
  {id : ModuleId} {name : String}

lemma Task.Issued.mono (h : task.Issued n) (below : n ≤ n') : task.Issued n' := by
  cases task with
  | call => exact ⟨h.1.mono below, fun v member => (h.2.1 v member).mono below, fun entry member => (h.2.2 entry member).mono below⟩
  | statement | module => trivial
  | _ => exact fun v member => (h v member).mono below

/-- A machine with an identity that it has not given away. -/
def Machine.forged : Machine :=
  { Machine.new with assemblies := [(0, .object "" 0 .unit)] }

lemma Machine.not_issued_forged : ¬ Machine.forged.Issued :=
  fun issued => absurd (Value.issued_object.1 (issued.assemblies _ (List.mem_singleton_self _))).1 (Nat.not_lt_zero 0)

/-- What a computation that leaves identities taken asks for is about values whose identities are taken. -/
lemma Eval.Consults.issued {x : (Task → Eval Value) → Eval α} {Q : Nat → α → Prop} (asked : Consults x run m task m')
    (halts : ∀ {run' m''}, run' task m' = .error .outOfFuel m'' → (∀ other s, other ≠ task ∨ s ≠ m' → run' other s = run other s) →
      x run' m = .error .outOfFuel m'') (issuing : Issuing run) (issues : ∀ {run}, Issuing run → Issues n (x run) Q)
    (issued : m.Issued) (taken : n ≤ m.fresh) : m'.Issued ∧ task.Issued m'.fresh := by
  classical
  by_contra unfit
  -- the task may do anything there
  let run' (other : Task) : Eval Value := fun s => if other = task ∧ s = m' then .error .outOfFuel .forged else run other s
  have issuing' : Issuing run' := by
    intro k other given s issued taken
    by_cases here : other = task ∧ s = m'
    · obtain ⟨rfl, rfl⟩ := here
      exact absurd ⟨issued, given.mono taken⟩ unfit
    · have same : run' other s = run other s := if_neg here
      exact same ▸ issuing k other given s issued taken
  have halted : x run' m = .error .outOfFuel .forged := halts (if_pos ⟨rfl, rfl⟩) fun other s differs =>
    if_neg fun ⟨same, same'⟩ => differs.elim (absurd same) (absurd same')
  have left := issues issuing' m issued taken
  rw [halted] at left
  cases left with
  | stop issued => exact Machine.not_issued_forged issued

/-- So is every task that is reached. -/
theorem Task.Reaches.issued (pure : p.hosts.Pure) (h : Task.Reaches p fuel task m goal m') (issued : m.Issued)
    (given : task.Issued m.fresh) : m'.Issued ∧ goal.Issued m'.fresh := by
  induction h with
  | here => exact ⟨issued, given⟩
  | inside asked _ ih =>
    obtain ⟨issued', given'⟩ := asked.issued (fun there elsewhere => step_halts there elsewhere asked) (Task.run_issued pure _)
      (fun issuing => step_issues pure issuing _ _ given) issued le_rfl
    exact ih issued' given'

/-! ### Requests -/

/-- All identities in the values of a request are below a number. -/
def Request.Issued (n : Nat) : Request → Prop
  | .query (.call callee positional keyword) => (Task.call callee positional keyword).Issued n
  | .entry _ args _ => ∀ a ∈ args, a.value.Issued n
  | .query _ => True

namespace Eval

variable (issuing : Issuing run)
include issuing

lemma valueOf_issues : Issues n (valueOf p run id name) Value.Issued := by
  refine Issues.bind (issuing _ (.module id) trivial) fun _ _ _ _ => .read fun m issued => ?_
  cases value : topLevelValue? p m id name with
  | none => exact .fail
  | some v =>
    simp only [topLevelValue?, Option.bind_eq_bind, Option.bind_eq_some_iff] at value
    obtain ⟨l, -, t, -, b, -, value⟩ := value
    split at value
    · exact .pure (issued.items _ (mem_of_lookup value))
    · obtain ⟨f, -, value⟩ := Option.bind_eq_some_iff.1 value
      exact .pure (issued.get value)
    · cases value
      exact .pure .host
    · cases value
    · cases value

lemma runName_issues {args : List EntryArgument} (given : ∀ a ∈ args, a.value.Issued n) :
    Issues n (runName p run id args name) Value.Issued := by
  refine (valueOf_issues issuing).bind fun n₁ v grows value => ?_
  have positional : ∀ w ∈ EntryArgument.positional args, w.Issued n₁ := fun w member => by
    obtain ⟨a, among, rfl⟩ := EntryArgument.mem_positional member
    exact (given a among).mono grows
  have keyword : ∀ entry ∈ EntryArgument.keyword args, entry.2.Issued n₁ := fun entry member => by
    obtain ⟨a, among, e⟩ := EntryArgument.mem_keyword member
    exact e ▸ (given a among).mono grows
  have constant : Issues n₁ (if args.isEmpty then pure v else fail (.notCallable ("`" ++ name ++ "`"))) Value.Issued := by
    split
    · exact .pure value
    · exact .fail
  cases v with
  | closure f => exact issuing _ (.call (.closure f) _ _) ⟨value, positional, keyword⟩
  | host other => exact issuing _ (.call (.host other) _ _) ⟨value, positional, keyword⟩
  | _ => exact constant

/-- A request whose identities are taken leaves a machine whose identities are taken. -/
lemma answerOver_issues {r : Request} (given : r.Issued n) : Issues n (r.answerOver p run) fun n vs => ∀ v ∈ vs, v.Issued n := by
  cases r with
  | query q =>
    have answers : Issues n (q.answerOver p run) Value.Issued := by
      cases q with
      | module id => exact issuing _ (.module id) trivial
      | value id name => exact valueOf_issues issuing
      | assembly id => exact assembly_issues issuing
      | call callee positional keyword => exact issuing _ (.call callee positional keyword) given
    exact answers.bind fun _ v _ value => .pure (List.forall_mem_singleton.2 value)
  | entry id args e =>
    simp only [Request.answerOver]
    induction e.names generalizing n with
    | nil => exact .pure (List.forall_mem_nil _)
    | cons name names ih =>
      simp only [List.mapM_cons]
      refine (runName_issues issuing given).bind fun n₁ v grows first => ?_
      refine (ih fun a member => (given a member).mono grows).bind fun n₂ vs grows others => .pure ?_
      exact List.forall_mem_cons.2 ⟨first.mono grows, others⟩

end Eval

namespace Dialogue

variable {d d' : Dialogue} {r : Request}

/-- Requests are made with values that come from answers, and with identities that are taken, and come to their ends. -/
def LeadsOwning (p : Program) : Dialogue → Dialogue → Prop :=
  Relation.ReflTransGen fun d d' => ∃ r fuel, r.Fair p d.known ∧ r.Issued d.machine.fresh ∧ Asks p r fuel d d'

/-- All identities on the machine and in what has been answered are taken. -/
structure Issued (d : Dialogue) : Prop where
  machine : d.machine.Issued
  known : ∀ v ∈ d.known, v.Issued d.machine.fresh

/-- After any such requests the machine is sound, and identities are taken. -/
theorem LeadsOwning.issued (pure : p.hosts.Pure) (leads : LeadsOwning p .start d) : History p d.machine d.known ∧ d.Issued := by
  induction leads with
  | refl => exact ⟨.start, .new, nofun⟩
  | tail _ asks ih =>
    obtain ⟨history, issued⟩ := ih
    obtain ⟨r, fuel, fair, given, asks⟩ := asks
    have left := answerOver_issues (p := p) (Task.run_issued pure fuel) given _ issued.machine le_rfl
    rw [← Request.answer_eq] at left
    cases asks with
    | answered answer =>
      rw [answer] at left
      cases left with
      | ok grows issued' taken values =>
        refine ⟨.answered history fair answer, issued', List.forall_mem_append.2 ⟨fun v member => ?_, fun v member => ?_⟩⟩
        · exact (values v member).mono taken
        · exact (issued.known v member).mono (grows.trans taken)
    | failed answer =>
      rw [answer] at left
      cases left with
      | stop issued' grows => exact ⟨.refused history fair answer, issued', fun v member => (issued.known v member).mono grows⟩

end Dialogue

/-- What a request comes to is about values whose identities are taken. -/
lemma Request.Reaches.issued {r : Request} (pure : p.hosts.Pure) (h : r.Reaches p fuel m goal m') (issued : m.Issued)
    (given : r.Issued m.fresh) : m'.Issued ∧ goal.Issued m'.fresh := by
  obtain ⟨task, between, asked, reaches⟩ := h
  obtain ⟨issued', given'⟩ := asked.issued (fun there elsewhere => Request.script.halts there elsewhere asked)
    (Task.run_issued pure fuel) (fun issuing => answerOver_issues issuing given) issued le_rfl
  exact reaches.issued pure issued' given'

end

end PipeLang
