import PipeLang.Entry
import PipeLang.Proofs.Eval.Runs

/-!
# Requests

A program is asked one thing after another, on a machine that keeps what has been computed. If the modules that are asked
for can be used and the functions that are called come from earlier answers, then no request ends in an error that
resolution is there to prevent, `answer_dynamic`, and every expression is evaluated in an activation of the scope that
it stands in, inside activations of the scopes around it, `expr_encloses`.
-/

namespace PipeLang

/-- What a program can be asked for. -/
inductive Request where
  | query (query : Query)
  /-- To start at an entry point, with arguments. -/
  | entry (id : ModuleId) (args : List EntryArgument) (entry : Entry)

/-- Answers a query over an evaluation of tasks. -/
def Query.answerOver (p : Program) (run : Task → Eval Value) : Query → Eval Value
  | .module id => run (.module id)
  | .value id name => Eval.valueOf p run id name
  | .assembly id => Eval.assembly p run id
  | .call callee positional keyword => run (.call callee positional keyword)

lemma Query.answer_eq {p : Program} {fuel : Nat} {q : Query} : q.answer p fuel = q.answerOver p (Task.run p fuel) := by
  cases q <;> rfl

namespace Request

/-- The values that answer a request, over an evaluation of tasks. -/
def answerOver (p : Program) (run : Task → Eval Value) : Request → Eval (List Value)
  | query q => return [← q.answerOver p run]
  | entry id args e => e.names.mapM fun name => Eval.runName p run id args name

/-- The values that answer a request, within a depth of nested evaluation. -/
def answer (p : Program) (fuel : Nat) : Request → Eval (List Value)
  | query q => return [← q.answer p fuel]
  | entry id args e => return (← e.run p fuel id args).map Prod.snd

lemma answer_eq {p : Program} {fuel : Nat} {r : Request} : r.answer p fuel = r.answerOver p (Task.run p fuel) := by
  cases r with
  | query q => simp only [answer, answerOver, Query.answer_eq]
  | entry id args e =>
    simp only [answer, answerOver, Entry.run]
    induction e.names with
    | nil => rfl
    | cons name names ih =>
      rw [List.mapM_cons, List.mapM_cons, ← ih]
      simp

end Request

/-- The functions in a value come from other values, or they are registered host functions. -/
def Value.MadeFrom (p : Program) (known : List Value) (v : Value) : Prop :=
  v.Holds fun f => (∃ w ∈ known, f ∈ w.functions) ∨ ∃ name, f = .host name ∧ (p.hosts.get? name).isSome

/-- The modules that a request asks for can be used, and its values are made from known ones. -/
inductive Request.Fair (p : Program) (known : List Value) : Request → Prop where
  | module {id} :
    p.Usable id →
    Fair p known (.query (.module id))
  | value {id name} :
    p.Usable id →
    Fair p known (.query (.value id name))
  | assembly {id} :
    p.Usable id →
    Fair p known (.query (.assembly id))
  | call {callee positional keyword} :
    callee.MadeFrom p known →
    (∀ v ∈ positional, v.MadeFrom p known) →
    (∀ entry ∈ keyword, entry.2.MadeFrom p known) →
    Fair p known (.query (.call callee positional keyword))
  | entry {id args e} :
    p.Usable id →
    (∀ a ∈ args, a.value.MadeFrom p known) →
    Fair p known (.entry id args e)

/-- The machines that fair requests lead to, with the values that have been answered so far. -/
inductive History (p : Program) : Machine → List Value → Prop where
  | start :
    History p .new []
  | answered {m known} {r : Request} {fuel vs m'} :
    History p m known →
    r.Fair p known →
    r.answer p fuel m = .ok vs m' →
    History p m' (vs ++ known)
  | refused {m known} {r : Request} {fuel stop m'} :
    History p m known →
    r.Fair p known →
    r.answer p fuel m = .error stop m' →
    History p m' known

namespace EntryArgument

variable {args : List EntryArgument}

lemma mem_positional {v : Value} (member : v ∈ positional args) : ∃ a ∈ args, a.value = v := by
  obtain ⟨a, among, e⟩ := List.mem_filterMap.1 member
  split at e
  · exact ⟨a, among, Option.some.inj e⟩
  · cases e

lemma mem_keyword {entry : String × Value} (member : entry ∈ keyword args) : ∃ a ∈ args, a.value = entry.2 := by
  obtain ⟨a, among, e⟩ := List.mem_filterMap.1 member
  obtain ⟨_, -, rfl⟩ := Option.map_eq_some_iff.1 e
  exact ⟨a, among, rfl⟩

end EntryArgument

/-- A computation has not stopped for an error that resolution prevents. -/
def Eval.Dynamic {α : Type} : EStateM.Result Stop Machine α → Prop
  | .ok _ _ => True
  | .error stop _ => stop.IsDynamic

namespace Eval

variable {p : Program} {base labels : Labels} {run run' : Task → Eval Value} {id : ModuleId} {name : String}

/-- The value of a name at the top level fits. -/
lemma topLevelValue_fits {m : Machine} {v : Value} (rest : p.AtRest) (usable : p.Usable id) (sound : m.Sound p labels)
    (h : topLevelValue? p m id name = some v) : v.Fits p labels := by
  obtain ⟨loaded, t, ast, found, resolved, -, settled⟩ := rest.ready usable
  simp only [topLevelValue?, found, resolved, bind, Option.bind] at h
  cases binding : t.topLevel? name with
  | none => simp [binding] at h
  | some b =>
    rw [binding] at h
    cases target : b.target with
    | item module item =>
      simp only [target] at h
      exact sound.items _ (mem_of_lookup h)
    | inner i =>
      simp only [target] at h
      cases root : m.roots.lookup id with
      | none => simp [root] at h
      | some f =>
        rw [root] at h
        exact sound.get h
    | host other =>
      -- no binding stands for a host function
      unfold Resolved.topLevel? at binding
      split at binding
      · next i _ =>
        have denotes : t.scopes.target i = b.target := by simp only [Scopes.target, binding]
        exact absurd (denotes.trans target) (settled.bound i other)
      · cases binding
    | module other => simp [target] at h
    | invalid => simp [target] at h

lemma valueOf_keeps (rest : p.AtRest) (agree : Agree p base run run') (usable : p.Usable id) :
    Keeps p base labels (valueOf p run id name) (valueOf p run' id name) (Value.Fits p) := by
  refine (agree (.module usable)).bind fun labels' _ _ _ => Keeps.read.bind fun labels'' s _ sound => ?_
  cases value : topLevelValue? p s id name with
  | some v => exact .pure (topLevelValue_fits rest usable sound value)
  | none => exact .fail rfl

lemma runName_keeps {args : List EntryArgument} (rest : p.AtRest) (agree : Agree p base run run') (usable : p.Usable id)
    (fit : ∀ a ∈ args, a.value.Fits p labels) :
    Keeps p base labels (runName p run id args name) (runName p run' id args name) (Value.Fits p) := by
  refine (valueOf_keeps rest agree usable).bind fun labels' v grows fits => ?_
  have positional : ∀ w ∈ EntryArgument.positional args, w.Fits p labels' := fun w member => by
    obtain ⟨a, among, rfl⟩ := EntryArgument.mem_positional member
    exact (fit a among).mono grows
  have keyword : ∀ entry ∈ EntryArgument.keyword args, entry.2.Fits p labels' := fun entry member => by
    obtain ⟨a, among, e⟩ := EntryArgument.mem_keyword member
    exact e ▸ (fit a among).mono grows
  have constant : Keeps p base labels' (if args.isEmpty then pure v else fail (.notCallable ("`" ++ name ++ "`")))
      (if args.isEmpty then pure v else fail (.notCallable ("`" ++ name ++ "`"))) (Value.Fits p) := by
    split
    · exact .pure fits
    · exact .fail rfl
  cases v with
  | closure f => exact agree (.call fits positional keyword)
  | host other => exact agree (.call fits positional keyword)
  | _ => exact constant

end Eval

variable {p : Program} {base labels : Labels} {known : List Value} {m : Machine} {r : Request}

/-- What is made from values that fit fits. -/
lemma Value.MadeFrom.fits {v : Value} (h : v.MadeFrom p known) (fit : ∀ w ∈ known, w.Fits p labels) :
    v.Fits p labels := by
  refine h.imp fun f origin => ?_
  rcases origin with ⟨w, member, inside⟩ | ⟨name, rfl, registered⟩
  · exact fit w member f inside
  · exact .host registered

/-- A fair request does the same over evaluations that agree, and keeps the machine sound. -/
lemma Request.answerOver_keeps {run run' : Task → Eval Value} (rest : p.AtRest) (agree : Eval.Agree p base run run')
    (fair : r.Fair p known) (fit : ∀ v ∈ known, v.Fits p labels) :
    Eval.Keeps p base labels (r.answerOver p run) (r.answerOver p run') fun labels' vs => ∀ v ∈ vs, v.Fits p labels' := by
  have one {q : Query} (keeps : Eval.Keeps p base labels (q.answerOver p run) (q.answerOver p run') (Value.Fits p)) :
      Eval.Keeps p base labels ((Request.query q).answerOver p run) ((Request.query q).answerOver p run')
        fun labels' vs => ∀ v ∈ vs, v.Fits p labels' :=
    keeps.bind fun _ _ _ fits => .pure (List.forall_mem_singleton.2 fits)
  cases fair with
  | module usable => exact one (agree (.module usable))
  | value usable => exact one (Eval.valueOf_keeps rest agree usable)
  | assembly usable => exact one (Eval.assembly_keeps agree usable)
  | call callee positional keyword =>
    exact one (agree (.call (callee.fits fit) (fun v member => (positional v member).fits fit)
      fun entry member => (keyword entry member).fits fit))
  | @entry id args e usable made =>
    have fitArgs : ∀ a ∈ args, a.value.Fits p labels := fun a member => (made a member).fits fit
    clear one made fit
    simp only [Request.answerOver]
    induction e.names generalizing labels with
    | nil => exact .pure nofun
    | cons name names ih =>
      rw [List.mapM_cons, List.mapM_cons]
      refine (Eval.runName_keeps rest agree usable fitArgs).bind fun labels' v grows fits => ?_
      refine (ih fun a member => (fitArgs a member).mono grows).bind fun labels'' vs grows' fit => .pure ?_
      exact List.forall_mem_cons.2 ⟨fits.mono grows', fit⟩

/-- What is left of a fair request. -/
lemma Request.answer_leaves (rest : p.AtRest) (honest : p.hosts.Honest) (fair : r.Fair p known)
    (sound : m.Sound p labels) (fit : ∀ v ∈ known, v.Fits p labels) (fuel : Nat) :
    Eval.Leaves p labels (fun labels' vs => ∀ v ∈ vs, v.Fits p labels') (r.answer p fuel m) := by
  have keeps : Eval.Keeps p labels labels _ _ _ :=
    Request.answerOver_keeps rest (Task.run_keeps rest honest fuel) fair fit
  rw [Request.answer_eq]
  exact (keeps List.prefix_rfl m sound).2

/-- A machine on which nothing has run is sound. -/
lemma Machine.sound_new : Machine.new.Sound p [] where
  heap := ⟨rfl, nofun⟩
  roots := by simp [Machine.new]
  started _ := rfl
  values found := by simp [Machine.new] at found
  layers _ _ _ _ label := by simp at label
  items := nofun
  assemblies := nofun
  failed found := by simp [Machine.new] at found

/-- After any fair requests the machine is sound, and what has been answered fits. -/
theorem History.sound (rest : p.AtRest) (honest : p.hosts.Honest) (history : History p m known) :
    ∃ labels, m.Sound p labels ∧ ∀ v ∈ known, v.Fits p labels := by
  induction history with
  | start => exact ⟨[], Machine.sound_new, nofun⟩
  | @answered m known r fuel vs m' _ fair answer ih =>
    obtain ⟨labels, sound, fit⟩ := ih
    have leaves := Request.answer_leaves rest honest fair sound fit fuel
    rw [answer] at leaves
    obtain ⟨labels', grows, sound', fit'⟩ := leaves
    refine ⟨labels', sound', fun v member => ?_⟩
    rcases List.mem_append.1 member with new | old
    · exact fit' v new
    · exact (fit v old).mono grows
  | @refused m known r fuel stop m' _ fair answer ih =>
    obtain ⟨labels, sound, fit⟩ := ih
    have leaves := Request.answer_leaves rest honest fair sound fit fuel
    rw [answer] at leaves
    obtain ⟨labels', grows, sound', -⟩ := leaves
    exact ⟨labels', sound', fun v member => (fit v member).mono grows⟩

/-- The evaluation that answers a request comes to evaluate a task on a machine. -/
def Request.Reaches (p : Program) (fuel : Nat) (r : Request) (m : Machine) (goal : Task) (m' : Machine) : Prop :=
  ∃ task between, Eval.Consults (fun run => r.answerOver p run) (Task.run p fuel) m task between ∧
    Task.Reaches p fuel task between goal m'

/-- A call of a function without parameters comes to its body, in a frame inside that of the function. -/
lemma Task.reaches_body {f : Closure} {t : Resolved} {fuel : Nat} (params : f.lambda.params = [])
    (resolved : p.resolvedOf f.module = some t)
    (goes : ∀ s, Task.run p (fuel + 1) (.call (.closure f) [] []) m ≠ .error .outOfFuel s) :
    Task.Reaches p (fuel + 1) (.call (.closure f) [] []) m (.expr ⟨f.module, m.heap.size⟩ f.lambda.body none)
      { m with heap := m.heap.push (some f.frame) } := by
  refine .of_stop _ { m with heap := m.heap.push (some f.frame) } (fun run s stops => ⟨s, ?_⟩) goes fun _ => .here
  simp only [Eval.step, Eval.call, Eval.callClosure, params, Eval.resolvedOf_eq resolved, pure_bind]
  change EStateM.bind (run (.expr ⟨f.module, m.heap.size⟩ f.lambda.body none)) _ { m with heap := _ } = _
  simp [EStateM.bind, stops]

/-- A request for such a call comes to the body as well. -/
lemma Request.reaches_body {f : Closure} {t : Resolved} {fuel : Nat} (params : f.lambda.params = [])
    (resolved : p.resolvedOf f.module = some t)
    (goes : ∀ s, (query (.call (.closure f) [] [])).answer p (fuel + 1) m ≠ .error .outOfFuel s) :
    (query (.call (.closure f) [] [])).Reaches p (fuel + 1) m (.expr ⟨f.module, m.heap.size⟩ f.lambda.body none)
      { m with heap := m.heap.push (some f.frame) } := by
  refine ⟨.call (.closure f) [] [], m, .of_stop (fun run s stops => ?_) goes, Task.reaches_body params resolved fun s stops => ?_⟩
  · exact ⟨s, by simp [answerOver, Query.answerOver, bind, EStateM.bind, stops]⟩
  · exact goes s (by simp [answer, Query.answer, bind, EStateM.bind, stops])

/-- A module that has not run comes to its first statement, in a frame of its own. -/
lemma Request.reaches_statement {id : ModuleId} {loaded : LoadedModule} {ast : Module} {s : Statement}
    {ss : List Statement} {fuel : Nat} {goal : Task} {m' : Machine} (found : p.modules[(id : Nat)]? = some loaded)
    (fine : loaded.isUsable = true) (parsed : loaded.ast = some ast) (statements : ast.statements = s :: ss)
    (fresh : m.states.lookup id = none)
    (goes : ∀ s, (query (.module id)).answer p (fuel + 1) m ≠ .error .outOfFuel s)
    (reaches : (∀ s', Task.run p fuel (.statement ⟨id, m.heap.size⟩ s) (Eval.begun id m) ≠ .error .outOfFuel s') →
      Task.Reaches p fuel (.statement ⟨id, m.heap.size⟩ s) (Eval.begun id m) goal m') :
    (query (.module id)).Reaches p (fuel + 1) m goal m' := by
  refine ⟨.module id, m, .of_stop (fun run s stops => ?_) goes, ?_⟩
  · exact ⟨s, by simp [answerOver, Query.answerOver, bind, EStateM.bind, stops]⟩
  refine .of_stop _ _ (fun run s' stops => ?_) (fun s stops => ?_) reaches
  · refine ⟨s', ?_⟩
    have first : Eval.moduleStatements run ⟨id, m.heap.size⟩ .unit ast.statements (Eval.begun id m) =
        .error .outOfFuel s' := by
      rw [statements]
      change EStateM.bind (run (.statement ⟨id, m.heap.size⟩ s)) _ (Eval.begun id m) = _
      simp only [EStateM.bind, stops]
    have ran : Eval.runModule run id loaded ast m = .error .outOfFuel s' := by
      rw [Eval.runModule_eq]
      change EStateM.bind (EStateM.tryCatch _ _) _ (Eval.begun id m) = _
      simp only [EStateM.bind, EStateM.tryCatch, first]
      rfl
    have begins : Eval.ensureModule p run id m = Eval.runModule run id loaded ast m := by
      have asked : (get : Eval Machine) m = .ok m m := rfl
      rw [Eval.ensureModule, Eval.bind_eq asked, fresh]
      simp only [Eval.module_eq found, parsed, fine, pure_bind, if_true]
    change EStateM.bind (Eval.ensureModule p run id) _ m = _
    simp only [EStateM.bind, begins, ran]
  · exact goes s (by simp [answer, Query.answer, bind, EStateM.bind, stops])

/-- An expression is evaluated where it stands: the frames of its context, from the inside out, are activations of the
scopes around it, one for each, and the last is that of its module. A binding is read from one of them that may
store it. -/
structure Machine.Encloses (p : Program) (labels : Labels) (m : Machine) (c : Context) (site : Span) (t : Resolved) :
    Prop where
  resolved : p.resolvedOf c.module = some t
  frames : m.heap.Lexical p labels
  scopes : (t.scopes.path (t.scopes.enclosing site)).head? = some (t.scopes.enclosing site) ∧
    (t.scopes.path (t.scopes.enclosing site)).getLast? = some Scopes.root
  chain : (m.heap.chain c.frame).map (fun f => labels[(f : Nat)]?) =
    (t.scopes.path (t.scopes.enclosing site)).map fun s => some (c.module, s)
  outermost : (m.heap.chain c.frame).getLast? = m.roots.lookup c.module
  reads : ∀ known id name run, t.references.get? site = some known → known.target = .inner id →
    Eval.reference p run c site name m = .error (.error (.uninitialized name)) m ∨
      ∃ f ∈ m.heap.chain c.frame, ∃ scope ∈ t.scopes.path (t.scopes.enclosing site), ∃ v,
        labels[(f : Nat)]? = some (c.module, scope) ∧ t.scopes.Stores scope id ∧ m.heap.getLocal? f id = some v ∧
          Eval.reference p run c site name m = .ok v m

/-- A context that stands in the scope around a place encloses it. -/
lemma Context.Stands.encloses {c : Context} {t : Resolved} {scope : ScopeId} {site : Span}
    (stands : c.Stands p labels t scope) (sound : m.Sound p labels) (place : t.scopes.enclosing site = scope) :
    m.Encloses p labels c site t := by
  obtain ⟨t', resolved, nested, activates⟩ := sound.heap.frames stands.label
  rw [stands.resolved, Option.some.injEq] at resolved
  subst resolved place
  have inside : c.frame < m.heap.size := sound.heap.size ▸ (List.getElem?_eq_some_iff.1 stands.label).1
  have chain := activates.chain
  have known : t.scopes.enclosing site < t.scopes.scopes.size := by
    cases path : t.scopes.path (t.scopes.enclosing site) with
    | nil => simp [path, Heap.chain, inside] at chain
    | cons first others => exact Scopes.lt_of_mem_path (path ▸ List.mem_cons_self)
  refine ⟨stands.resolved, sound.heap, ⟨?_, nested.path_last known⟩, chain, ?_, ?_⟩
  · obtain ⟨outer, e⟩ := nested.path_head known
    rw [e, List.head?_cons]
  · have last := congrArg List.getLast? chain
    rw [List.getLast?_map, List.getLast?_map, nested.path_last known] at last
    obtain ⟨f, e, label⟩ := Option.map_eq_some_iff.1 last
    rw [e, sound.roots.1 label]
  · intro known id name run found target
    have asked : (get : Eval Machine) m = .ok m m := rfl
    simp only [Eval.reference, Eval.resolvedOf_eq stands.resolved, pure_bind, found, target, Eval.bind_eq asked]
    cases value : m.heap.get? c.frame id with
    | none => exact Or.inl rfl
    | some v =>
      obtain ⟨f, member, here⟩ := List.exists_of_findSome?_eq_some value
      have labelled : labels[(f : Nat)]? ∈ (t.scopes.path (t.scopes.enclosing site)).map fun s => some (c.module, s) :=
        chain ▸ List.mem_map_of_mem member
      obtain ⟨scope, around, label⟩ := List.mem_map.1 labelled
      obtain ⟨t', resolved, -, activates'⟩ := sound.heap.frames label.symm
      rw [stands.resolved, Option.some.injEq] at resolved
      subst resolved
      refine Or.inr ⟨f, member, scope, around, v, label.symm, ?_, here, rfl⟩
      unfold Heap.getLocal? at here
      split at here
      · next frame held => exact activates'.stores frame held _ (mem_of_lookup here)
      · cases here

/-! ### Results that can be tested -/

namespace Eval

variable {α : Type} {x : EStateM.Result Stop Machine α}

/-- Whether an evaluation gives something that passes a test, on a machine that does. -/
def gives (test : α → Machine → Bool) : EStateM.Result Stop Machine α → Bool
  | .ok a m => test a m
  | .error _ _ => false

lemma gives_iff {test : α → Machine → Bool} : gives test x = true ↔ ∃ a m, x = .ok a m ∧ test a m = true := by
  cases x with
  | ok a m => exact ⟨fun passes => ⟨a, m, rfl, passes⟩, fun ⟨_, _, same, passes⟩ => by cases same; exact passes⟩
  | error stop m => simp [gives]

/-- Whether an evaluation is stopped by an error that passes a test, on a machine that does. -/
def failsWith (test : RuntimeError → Machine → Bool) : EStateM.Result Stop Machine α → Bool
  | .error (.error e) m => test e m
  | _ => false

lemma failsWith_iff {test : RuntimeError → Machine → Bool} :
    failsWith test x = true ↔ ∃ e m, x = .error (.error e) m ∧ test e m = true := by
  cases x with
  | ok a m => simp [failsWith]
  | error stop m =>
    cases stop with
    | error e => exact ⟨fun passes => ⟨e, m, rfl, passes⟩, fun ⟨_, _, same, passes⟩ => by cases same; exact passes⟩
    | outOfFuel => simp [failsWith]

end Eval

/-- The function literal that a value is, if it is one. -/
def Value.closure? : Value → Option Closure
  | .closure f => some f
  | _ => none

lemma Value.closure?_eq_some {v : Value} {f : Closure} : v.closure? = some f ↔ v = .closure f := by
  cases v <;> simp [closure?]

/-- The name that the body of a function without parameters is, if it is one. -/
def Closure.bodyName? (f : Closure) : Option Ident :=
  match f.lambda.params, f.lambda.body with
  | [], .name ident => some ident
  | _, _ => none

lemma Closure.bodyName?_eq_some {f : Closure} {ident : Ident} (h : f.bodyName? = some ident) :
    f.lambda.params = [] ∧ f.lambda.body = .name ident := by
  unfold bodyName? at h
  split at h
  · next params body =>
    cases h
    exact ⟨params, body⟩
  · cases h

/-- The truth value that a value is, if it is one. -/
def Value.bool? : Value → Option Bool
  | .bool b => some b
  | _ => none

lemma Value.bool?_eq_some {v : Value} {b : Bool} : v.bool? = some b ↔ v = .bool b := by
  cases v <;> simp [bool?]

/-- The elements of a value, if it is an array. -/
def Value.elements? : Value → Option (List Value)
  | .array vs => some vs
  | _ => none

lemma Value.elements?_eq_some {v : Value} {vs : List Value} : v.elements? = some vs ↔ v = .array vs := by
  cases v <;> simp [elements?]

/-- The loop that is the value of the only definition in a module, if it has no other statements. -/
def Module.definedLoop? (ast : Module) : Option Loop :=
  match ast.statements with
  | [.define _ _ (.loop l) _] => some l
  | _ => none

lemma Module.definedLoop?_eq_some {ast : Module} {l : Loop} (h : ast.definedLoop? = some l) :
    ∃ exported name place, ast.statements = [.define exported name (.loop l) place] := by
  unfold definedLoop? at h
  split at h
  · next exported name _ place statements =>
    cases h
    exact ⟨exported, name, place, statements⟩
  · cases h

/-- The call that is the value of the only definition in a module, if it calls a name and there are no other statements. -/
def Module.definedCall? (ast : Module) : Option (Ident × List Argument × Span) :=
  match ast.statements with
  | [.define _ _ (.call (.name ident) args span) _] => some (ident, args, span)
  | _ => none

lemma Module.definedCall?_eq_some {ast : Module} {ident : Ident} {args : List Argument} {span : Span}
    (h : ast.definedCall? = some (ident, args, span)) :
    ∃ exported name place, ast.statements = [.define exported name (.call (.name ident) args span) place] := by
  unfold definedCall? at h
  split at h
  · next exported name _ _ _ place statements =>
    cases h
    exact ⟨exported, name, place, statements⟩
  · cases h

/-- Running a module answers with no value of interest. -/
lemma Query.module_unit {id : ModuleId} {fuel : Nat} {u : Value} {m' : Machine}
    (answer : (Query.module id).answer p fuel m = .ok u m') : u = .unit := by
  cases fuel with
  | zero => cases answer
  | succ fuel =>
    obtain ⟨_, _, -, returned⟩ := Eval.bind_ok answer
    cases returned
    rfl

/-- What answers a question is the only value that answers the request. -/
lemma Request.answer_query {q : Query} {fuel : Nat} {v : Value} {m' : Machine} (answer : q.answer p fuel m = .ok v m') :
    (query q).answer p fuel m = .ok [v] m' := by
  rw [Request.answer, Eval.bind_eq answer]
  rfl

namespace Program

/-- Resolution is sound for evaluation: behind any loads, whatever is asked of usable modules, whatever has been asked
before and whatever functions are called that came from the answers, the answer is no error that resolution is there to
prevent. Host functions are taken to hand on no functions but those that they are given and those that are registered. -/
theorem answer_dynamic (sources : Sources) (policy : GlobPolicy) (hosts : Hosts) (paths : List String)
    (honest : hosts.Honest) {m : Machine} {known : List Value}
    (history : History ((new sources policy hosts).loadAll paths) m known) {r : Request}
    (fair : r.Fair ((new sources policy hosts).loadAll paths) known) (fuel : Nat) :
    Eval.Dynamic (r.answer ((new sources policy hosts).loadAll paths) fuel m) := by
  have start : (new sources policy hosts).AtRest := atRest_new
  obtain ⟨rest, same⟩ := start.loadAll paths
  have honest' : ((new sources policy hosts).loadAll paths).hosts.Honest := same ▸ honest
  obtain ⟨labels, sound, fit⟩ := history.sound rest honest'
  have leaves := Request.answer_leaves rest honest' fair sound fit fuel
  cases answer : r.answer ((new sources policy hosts).loadAll paths) fuel m with
  | ok vs m' => trivial
  | error stop m' =>
    rw [answer] at leaves
    obtain ⟨labels', -, -, dynamic⟩ := leaves
    exact dynamic

/-- A value that has been answered is known. -/
lemma madeFrom_of_mem {p : Program} {known : List Value} {v : Value} (member : v ∈ known) : v.MadeFrom p known :=
  fun _ inside => Or.inl ⟨v, member, inside⟩

/-- A program with a function that is called from another module, in a loop whose tag is used behind it. -/
def piped : Program :=
  (new (.ofTexts (.ofList [("lib.kcl", "export f = (x, last = false) => \x7b y = x\n [y, last] \x7d\n"),
    ("main.kcl", "import f from \"lib\"\nr = for [true, false] as i |> f(i) |> push(i) as y\ns = y\n")])) .eager
      .prelude).loadAll ["main"]

/-- The function of the other module is answered, and it can be called. -/
theorem answer_dynamic_piped : ∃ f m, (Request.query (.value 1 "f")).answer piped 30 .new = .ok [f] m ∧
    Eval.Dynamic ((Request.query (.call f [.bool true] [])).answer piped 30 m) := by
  have computed : (piped.modules[1]?.any (·.isUsable) &&
      Eval.gives (fun _ _ => true) ((Query.value 1 "f").answer piped 30 .new)) = true := by decide +kernel
  simp only [Bool.and_eq_true, Option.any_eq_true, Eval.gives_iff] at computed
  obtain ⟨⟨loaded, found, fine⟩, f, m, answer, -⟩ := computed
  have usable : piped.Usable 1 := ⟨loaded, found, fine⟩
  have answer := Request.answer_query answer
  have history : History piped m [f] := .answered .start (.value usable) answer
  have fair : Request.Fair piped [f] (.query (.call f [.bool true] [])) :=
    .call (madeFrom_of_mem List.mem_cons_self) (List.forall_mem_singleton.2 Value.holds_bool) (List.forall_mem_nil _)
  exact ⟨f, m, answer, answer_dynamic _ _ _ _ Hosts.prelude_honest history fair 30⟩

/-- A program of which nothing is loaded, with one text. -/
def ofText (text : String) (hosts : Hosts) : Program :=
  new (.ofTexts (.ofList [("main.kcl", text)])) .eager hosts

/-- What a program gives for a name before it is asked for anything else. An application can keep it for another program. -/
def kept (p : Program) (name : String) : Value :=
  match (Query.value 0 name).answer p 9 .new with
  | .ok v _ => v
  | .error _ _ => .unit

/-- One host function, which hands on a value that it has. -/
def recalling (v : Value) : Hosts :=
  .register .empty "recall" [] .any fun _ _ => .ok v

/-- A program with a function besides, which calls what its host function hands on. -/
def passingOn (text : String) (v : Value) : Program :=
  (ofText (text ++ "g = () => recall()()\n") (recalling v)).loadAll ["main"]

/-- A function of another program, which reads a definition of that program. -/
def stray : Value :=
  ((ofText "x = true\nf = () => x\n" .empty).loadAll ["main"]).kept "f"

/-- A program whose host function hands on that function. -/
def recalled : Program :=
  (ofText "r = recall()()\n" (recalling stray)).loadAll ["main"]

/-- A program without host functions. -/
def bare : Program :=
  (ofText "r = true\n" .empty).loadAll ["main"]

/-- Not every host function may be there, and not every function may be called. A host function hands on no host function at all, but
a function of another program, whose body is evaluated where nothing is known of the name in it: the module can be used, and
stops for a name that has not been resolved. So does the function itself when it is called, where there are no host functions. -/
theorem not_answer_dynamic_recalled :
    (∀ name f serial args v, recalled.hosts.get? name = some f → f.apply serial args = .ok v →
      ∀ other, Value.host other ∉ v.functions) ∧
    recalled.Usable 0 ∧ (∃ m, (Request.query (.module 0)).answer recalled 9 .new = .error (.error (.unresolved "x")) m) ∧
    ¬ Eval.Dynamic ((Request.query (.module 0)).answer recalled 9 .new) ∧
    bare.Usable 0 ∧ bare.hosts.Honest ∧ ¬ Eval.Dynamic ((Request.query (.call stray [] [])).answer bare 9 .new) := by
  have computed : stray.closure?.isSome = true ∧
      ((recalled.modules[0]?.any (·.isUsable)) && bare.modules[0]?.any (·.isUsable)) = true ∧
      Eval.failsWith (fun e _ => decide (e = .unresolved "x")) ((Request.query (.module 0)).answer recalled 9 .new) = true ∧
      Eval.failsWith (fun e _ => decide (e = .unresolved "x")) ((Request.query (.call stray [] [])).answer bare 9 .new) = true := by
    decide +kernel
  obtain ⟨closure, usable, stopped, stopped'⟩ := computed
  obtain ⟨f, closure⟩ := Option.isSome_iff_exists.1 closure
  simp only [Bool.and_eq_true, Option.any_eq_true] at usable
  obtain ⟨⟨loaded, found, fine⟩, loaded', found', fine'⟩ := usable
  obtain ⟨e, m, answer, same⟩ := Eval.failsWith_iff.1 stopped
  obtain ⟨e', m', answer', same'⟩ := Eval.failsWith_iff.1 stopped'
  obtain rfl := of_decide_eq_true same
  obtain rfl := of_decide_eq_true same'
  have hosts : recalled.hosts = recalling stray := (atRest_new.loadAll _).2
  have none : bare.hosts = .empty := (atRest_new.loadAll _).2
  have static : ¬ Stop.IsDynamic (.error (.unresolved "x")) := by simp [Stop.IsDynamic, RuntimeError.isStatic]
  refine ⟨fun name g serial args v known answer other => ?_, ⟨loaded, found, fine⟩, ⟨m, answer⟩, by rwa [answer],
    ⟨loaded', found', fine'⟩, none ▸ Hosts.empty_honest, by rwa [answer']⟩
  rw [hosts, recalling, Hosts.get?_register, Value.closure?_eq_some.1 closure] at known
  split at known
  · cases known
    cases answer
    simp [Value.functions]
  · cases known

/-- Frames are lexical scopes: behind any loads, and behind requests of usable modules with values that are made from answers,
every frame is an activation of a scope, and whatever is asked next in this way, every expression that is evaluated is
evaluated where it stands. The frames that were there keep their scopes. Host functions are taken to hand on no functions but
those that they are given and those that are registered. -/
theorem expr_encloses (sources : Sources) (policy : GlobPolicy) (hosts : Hosts) (paths : List String)
    (honest : hosts.Honest) {m : Machine} {known : List Value}
    (history : History ((new sources policy hosts).loadAll paths) m known) :
    let p := (new sources policy hosts).loadAll paths
    ∃ labels, m.heap.Lexical p labels ∧ ∀ r fuel c e incoming m', r.Fair p known →
      Request.Reaches p fuel r m (.expr c e incoming) m' →
        ∃ labels' t, labels <+: labels' ∧ m'.Encloses p labels' c e.span t := by
  intro p
  have start : (new sources policy hosts).AtRest := atRest_new
  obtain ⟨rest, same⟩ : p.AtRest ∧ p.hosts = hosts := start.loadAll paths
  have honest' : p.hosts.Honest := same ▸ honest
  obtain ⟨labels, sound, fit⟩ := history.sound rest honest'
  refine ⟨labels, sound.heap, fun r fuel c e incoming m' fair ⟨task, between, consults, reaches⟩ => ?_⟩
  have agree : Eval.Agree p labels _ _ := Task.run_keeps rest honest' fuel
  obtain ⟨labels₁, grows₁, sound₁, fits₁⟩ := consults.fits sound agree fun run' agree =>
    Request.answerOver_keeps rest agree fair fit
  obtain ⟨labels₂, grows₂, sound₂, fits₂⟩ := reaches.fits rest honest' sound₁ fits₁
  cases fits₂ with
  | expr stands settled _ =>
    cases settled with
    | mk place _ _ => exact ⟨labels₂, _, grows₁.trans grows₂, stands.encloses sound₂ place⟩

/-- A program with a binding inside a block. -/
def nested : Program :=
  (new (.ofTexts (.ofList [("main.kcl", "r = \x7b\n t = true\n t\n\x7d\n")])) .eager .prelude).loadAll ["main"]

/-- Whether statements are the definition of a block that begins with the definition of a literal and goes on behind it. -/
def isNested : List Statement → Bool
  | [.define _ _ (.block ⟨.define _ _ (.literal _ _) _ :: _ :: _, _⟩) _] => true
  | _ => false

/-- The value of the binding is evaluated inside two frames. -/
theorem expr_encloses_nested : ∃ value m, Request.Reaches nested 6 (.query (.module 0)) .new (.expr ⟨0, 1⟩ value none) m ∧
    m.heap.size = 2 ∧ ∃ labels t, m.Encloses nested labels ⟨0, 1⟩ value.span t := by
  have computed : (nested.modules[0]?.any fun loaded => loaded.isUsable && (loaded.ast.any fun ast => isNested ast.statements) &&
      Eval.gives (fun _ _ => true) ((Request.query (.module 0)).answer nested 6 .new)) = true := by decide +kernel
  simp only [Bool.and_eq_true, Option.any_eq_true, Eval.gives_iff] at computed
  obtain ⟨loaded, found, ⟨fine, ast, parsed, shape⟩, vs, last, answered, -⟩ := computed
  unfold isNested at shape
  split at shape
  · next e name e' name' l place place' next rest blockPlace definePlace statements =>
    let value : Expr := .literal l place
    let inside : Statement := .define e' name' value place'
    let body : Block := ⟨inside :: next :: rest, blockPlace⟩
    let outside : Statement := .define e name (.block body) definePlace
    let opened : Machine := ⟨[(0, .running)], [], [], [(0, 0)], #[⟨[], []⟩], 0⟩
    let entered : Machine := { opened with heap := #[⟨[], []⟩, ⟨[0], []⟩] }
    have goes : ∀ s, (Request.query (.module 0)).answer nested 6 .new ≠ .error .outOfFuel s := by simp [answered]
    have reaches : Request.Reaches nested 6 (.query (.module 0)) .new (.expr ⟨0, 1⟩ value none) entered := by
      refine ⟨.module 0, .new, .of_stop (fun run s stops => ?_) goes, ?_⟩
      · exact ⟨s, by simp [Request.answerOver, Query.answerOver, bind, EStateM.bind, stops]⟩
      refine .of_stop (.statement ⟨0, 0⟩ outside) opened (fun run s stops => ?_) (fun s stops => ?_) fun goes => ?_
      · refine ⟨s, ?_⟩
        have first : Eval.moduleStatements run ⟨0, 0⟩ .unit ast.statements opened = .error .outOfFuel s := by
          rw [statements]
          change EStateM.bind (run (.statement ⟨0, 0⟩ outside)) _ opened = _
          simp [EStateM.bind, stops]
        have guards : Eval.guarded 0 (Eval.moduleStatements run ⟨0, 0⟩ .unit ast.statements) opened = .error .outOfFuel s := by
          change EStateM.tryCatch _ _ opened = _
          simp only [EStateM.tryCatch, first]
          rfl
        simp only [Eval.step, Eval.ensureModule, Eval.module_eq found, parsed, fine, pure_bind, if_true]
        change EStateM.bind (EStateM.bind (Eval.guarded 0 (Eval.moduleStatements run ⟨0, 0⟩ .unit ast.statements)) _) _
          opened = _
        simp [EStateM.bind, guards]
      · exact goes s (by simp [Request.answer, Query.answer, bind, EStateM.bind, stops])
      refine .of_stop (.expr ⟨0, 0⟩ (.block body) none) opened (fun run s stops => ?_) goes fun goes => ?_
      · exact ⟨s, by simp [Eval.step, Eval.statement, outside, bind, EStateM.bind, stops]⟩
      refine .of_stop (.block ⟨0, 0⟩ body none) opened (fun run s stops => ?_) goes fun goes => ?_
      · exact ⟨s, by simp [Eval.step, Eval.expr, Eval.plainExpr, stops]⟩
      refine .of_stop (.statement ⟨0, 1⟩ inside) entered (fun run s stops => ?_) goes fun goes => ?_
      · refine ⟨s, ?_⟩
        change EStateM.bind (run (.statement ⟨0, 1⟩ inside)) _ entered = _
        simp [EStateM.bind, stops]
      refine .of_stop (.expr ⟨0, 1⟩ value none) entered (fun run s stops => ?_) goes fun goes => .here
      exact ⟨s, by simp [Eval.step, Eval.statement, inside, value, bind, EStateM.bind, stops]⟩
    obtain ⟨labels, -, encloses⟩ := expr_encloses _ _ _ ["main"] Hosts.prelude_honest .start
    obtain ⟨labels', t, -, result⟩ := encloses _ _ _ _ _ _ (.module ⟨loaded, found, fine⟩) reaches
    exact ⟨value, entered, reaches, rfl, labels', t, result⟩
  · cases shape

end Program

end PipeLang
