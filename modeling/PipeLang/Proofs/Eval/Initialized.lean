import PipeLang.Proofs.Eval.Completed
import PipeLang.Proofs.Eval.Dialogue

/-!
# Definitions have their values

When a program is loaded from one module, and imports stand at the top level of modules only, no exported definition is read
before it has its value: `Program.reads_values`. This includes modules that import each other, since a module that
is being loaded shows to others only the definitions that are evaluated before them.
-/

namespace PipeLang

open Eval

variable {p₀ P : Program} {raw₀ : String} {m m' : Machine} {task goal : Task} {r : Request}

/-- A task that comes up when a load is run again: it is ready, or a part of the load. -/
def Task.Due (p₀ : Program) (raw₀ : String) (m : Machine) (task : Task) : Prop :=
  (m.Ready (p₀.load raw₀).2 ∧ task.Ready (p₀.load raw₀).2 m) ∨ ∃ q, task.Follows p₀ raw₀ m q

/-- What a computation asks for is due, if it does the same over evaluations that do the same with what is due. -/
lemma Eval.Consults.due {α : Type} {x : (Task → Eval Value) → Eval α} {run : Task → Eval Value}
    (h : Consults x run m task m') (accord : Accord (p₀.load raw₀).2 run run) (tracks : Tracks p₀ raw₀ run run)
    (same : ∀ run', Accord (p₀.load raw₀).2 run run' → Tracks p₀ raw₀ run run' → x run m = x run' m) :
    task.Due p₀ raw₀ m' := by
  obtain ⟨run', alike, differs⟩ := h
  by_contra undue
  -- the other evaluation differs only where no task that is due is evaluated
  have agree {other : Task} {s : Machine} (due : other.Due p₀ raw₀ s) : run other s = run' other s := by
    refine (alike other s ?_).symm
    by_contra both
    simp only [not_or, not_not] at both
    obtain ⟨rfl, rfl⟩ := both
    exact undue due
  refine differs (same run' ?_ ?_).symm
  · intro s other ready asks
    exact ⟨agree (Or.inl ⟨ready, asks⟩), (accord ready asks).2⟩
  · intro s other q follows
    exact ⟨agree (Or.inr ⟨q, follows⟩), (tracks follows).2⟩

/-- Every task that is reached is due. -/
theorem Task.Reaches.due (honest : (p₀.load raw₀).2.hosts.Honest) (flat : (p₀.load raw₀).2.Flat) (canonical : p₀.Canonical)
    {fuel : Nat} (h : Task.Reaches (p₀.load raw₀).2 fuel task m goal m') (due : task.Due p₀ raw₀ m) :
    goal.Due p₀ raw₀ m' := by
  induction h with
  | here => exact due
  | inside consults _ ih =>
    refine ih (consults.due (Task.run_accord honest _) (Task.run_tracks honest flat canonical _) fun run' accord tracks => ?_)
    rcases due with ⟨ready, asks⟩ | ⟨q, follows⟩
    · exact (step_calm honest accord ready asks).1
    · exact (step_tracks flat canonical accord tracks follows).1

/-- The place of a use of a name or path, and what is written there. -/
def Expr.use? : Expr → Option (Span × String)
  | .name ident => some (ident.span, ident.name)
  | .path head rest span => some (span, pathName head rest)
  | _ => none

/-- If an expression is the use of an exported definition, then the definition has its value, which the use evaluates to. -/
def Machine.Reads (P : Program) (m : Machine) (c : Context) (e : Expr) : Prop :=
  ∀ site name t ref id item, e.use? = some (site, name) → P.resolvedOf c.module = some t →
    t.references.get? site = some ref → ref.target = .item id item → ∃ v, ∀ run, Eval.reference P run c site name m = .ok v m

/-- Where the exported definition that a use denotes has its value, it is read. -/
lemma Machine.reads_of {c : Context} {e : Expr} (values : ∀ {site name t ref id item}, e.use? = some (site, name) →
    P.resolvedOf c.module = some t → t.references.get? site = some ref → ref.target = .item id item →
    ∃ v, m.items.lookup (id, item) = some v) : m.Reads P c e := by
  intro site name t ref id item use resolved found target
  obtain ⟨v, value⟩ := values use resolved found target
  refine ⟨v, fun run => ?_⟩
  have asked : Eval.item? id item m = .ok (some v) m := value ▸ rfl
  simp only [Eval.reference, resolvedOf_eq resolved, pure_bind, found, target, bind_eq asked]
  rfl

/-- What is ready reads definitions that have their values. -/
lemma Task.Ready.reads {c : Context} {e : Expr} {incoming : Option Value} (h : Task.Ready P m (.expr c e incoming)) :
    m.Reads P c e := by
  cases h with
  | expr provides _ =>
    refine Machine.reads_of fun {site name t ref id item} use resolved found target => ?_
    have mentioned : .use site ∈ e.mentions := by
      cases e <;> simp_all [Expr.use?, Expr.mentions]
    have has := provides.uses mentioned resolved found
    rw [target] at has
    exact Option.isSome_iff_exists.1 has

/-- Where an exported definition has no value, it is not read. -/
lemma Machine.not_reads {c : Context} {e : Expr} {site : Span} {name item : String} {t : Resolved} {ref : Reference}
    {id : ModuleId} (use : e.use? = some (site, name)) (resolved : P.resolvedOf c.module = some t)
    (found : t.references.get? site = some ref) (target : ref.target = .item id item)
    (unset : m.items.lookup (id, item) = none) : ¬ m.Reads P c e := by
  intro reads
  obtain ⟨v, value⟩ := reads site name t ref id item use resolved found target
  -- the use asks for the module of the definition, which may come to nothing
  replace value := value fun _ s => .error .outOfFuel s
  have asked : Eval.item? id item m = .ok none m := unset ▸ rfl
  simp only [Eval.reference, resolvedOf_eq resolved, pure_bind, found, target, bind_eq asked] at value
  cases value

lemma Task.Due.reads {c : Context} {e : Expr} {incoming : Option Value} (h : Task.Due p₀ raw₀ m (.expr c e incoming)) :
    m.Reads (p₀.load raw₀).2 c e := by
  rcases h with ⟨-, ready⟩ | ⟨q, follows⟩
  · exact ready.reads
  · cases follows

/-- Every use of an exported definition that comes up when a request is answered reads its value, if the request does the
same over evaluations that do the same with what is due. -/
lemma Request.Reaches.reads {c : Context} {e : Expr} {fuel : Nat} (honest : (p₀.load raw₀).2.hosts.Honest)
    (flat : (p₀.load raw₀).2.Flat) (canonical : p₀.Canonical)
    (h : r.Reaches (p₀.load raw₀).2 fuel m (.expr c e none) m')
    (same : ∀ {run run'}, Accord (p₀.load raw₀).2 run run' → Tracks p₀ raw₀ run run' →
      r.answerOver (p₀.load raw₀).2 run m = r.answerOver (p₀.load raw₀).2 run' m) :
    m'.Reads (p₀.load raw₀).2 c e := by
  obtain ⟨task, between, consults, reaches⟩ := h
  have due := consults.due (Task.run_accord honest fuel) (Task.run_tracks honest flat canonical fuel) fun _ => same
  exact (reaches.due honest flat canonical due).reads

/-! ### The first request -/

namespace Machine

/-- A machine on which nothing has run has no functions in it. -/
lemma ready_new : new.Ready P where
  values found := by simp [new] at found
  items := nofun
  assemblies := nofun

lemma covers_new {sources : Sources} {policy : GlobPolicy} {hosts : Hosts} : new.Covers P (.new sources policy hosts) where
  ready := ready_new
  begun := by simp [new, Program.new]
  items defines := by
    obtain ⟨e, member, -⟩ := defines
    obtain ⟨l, found, -⟩ := Program.mem_exportsOf member
    simp [Program.new] at found

end Machine

variable {sources : Sources} {policy : GlobPolicy} {hosts : Hosts} {raw : String} {root : ModuleId}

/-- To run the module that was loaded is to run the load again. -/
lemma Task.follows_load (loaded : ((Program.new sources policy hosts).load raw).1 = .ok root)
    (flat : ((Program.new sources policy hosts).load raw).2.Flat) :
    (Task.module root).Follows (.new sources policy hosts) raw .new ((Program.new sources policy hosts).load raw).2 := by
  have opens := Program.loader_opens (p := .new sources policy hosts) loaded fun m found _ =>
    (LoadedModule.isUsable_iff.1 (flat.usable found)).2
  rcases opens with ⟨inside, -⟩ | ⟨depth, a, deeper, opens, first, rfl⟩
  · exact absurd inside (Nat.not_lt_zero _)
  · cases deeper
    exact .module .request opens first Machine.covers_new

/-! ### Later requests -/

/-- The machines that requests lead to from a machine, whatever comes of them. -/
def Machine.Onward (P : Program) : Machine → Machine → Prop :=
  Relation.ReflTransGen fun m m' => ∃ (r : Request) (fuel : Nat), m' = Eval.left (r.answer P fuel m)

/-- No request takes back the value of an exported definition. -/
lemma Machine.Onward.values (h : m.Onward P m') : m.items <:+ m'.items := by
  induction h with
  | refl => exact List.suffix_rfl
  | tail _ asks ih =>
    obtain ⟨r, fuel, rfl⟩ := asks
    exact ih.trans (Request.advances P fuel r _).values

/-- Where all that a program names has its value, every use of an exported definition reads it. -/
lemma Machine.reads_named {c : Context} {e : Expr}
    (named : ∀ id name, P.Names id name → ∃ v, m.items.lookup (id, name) = some v) : m.Reads P c e :=
  Machine.reads_of fun {_ _ t _ _ _} _ resolved found target => by
    obtain ⟨l, loaded, resolved⟩ := Option.bind_eq_some_iff.1 resolved
    exact named _ _ (.use loaded resolved found target)

/-- When modules import at their top level only, no exported definition is read before it has its value, also where modules
are imported in a circle: a fresh program is loaded from one module, and this module is run, with host functions that hand on
no functions but those that they are given and those that are registered. If this goes through, with any host functions, then all
modules have been run, all definitions that are named anywhere have their values, and whatever is asked later, they are read. -/
theorem Program.reads_values (sources : Sources) (policy : GlobPolicy) (hosts : Hosts) {raw : String} {root : ModuleId}
    (loaded : ((new sources policy hosts).load raw).1 = .ok root) (flat : ((new sources policy hosts).load raw).2.Flat) :
    let P := ((new sources policy hosts).load raw).2
    (hosts.Honest → ∀ fuel c e m, (Request.query (.module root)).Reaches P fuel .new (.expr c e none) m → m.Reads P c e) ∧
      ∀ fuel vs m, (Request.query (.module root)).answer P fuel .new = .ok vs m →
        (∀ id : Nat, id < P.modules.size → m.states.lookup id = some .done) ∧
        (∀ id name, P.Names id name → ∃ v, m.items.lookup (id, name) = some v) ∧
        ∀ m', m.Onward P m' → ∀ (r : Request) fuel c e (m'' : Machine), r.Reaches P fuel m' (.expr c e none) m'' →
          m''.Reads P c e := by
  intro P
  refine ⟨fun honest fuel c e m reaches => ?_, fun fuel vs m answer => ?_⟩
  · have start : (new sources policy hosts).AtRest := atRest_new
    obtain ⟨-, same⟩ := start.load raw
    have honest : P.hosts.Honest := same ▸ honest
    refine reaches.reads honest flat canonical_new fun {run run'} accord tracks => ?_
    have agree : run (.module root) .new = run' (.module root) .new := (tracks (Task.follows_load loaded flat)).1
    simp only [Request.answerOver, Query.answerOver, bind, EStateM.bind, agree]
  · obtain ⟨v, m₁, ran, rest⟩ := bind_ok answer
    cases rest
    have ran : Task.run P fuel (.module root) .new = .ok v m := ran
    have complete : m.Complete P := Task.run_completes fuel _ ran .new
    obtain ⟨done, named⟩ := complete.whole loaded flat (run_begins ran) (Task.run_ended ran)
    refine ⟨done, named, fun m' onward r fuel c e m'' reaches => Machine.reads_named fun id name names => ?_⟩
    exact Machine.lookup_of_values (onward.values.trans reaches.proceeds.values) (named id name names)

/-- A program of which nothing is loaded, with two modules that import each other; a function of one reads a definition of
the other. -/
def Program.cyclic : Program :=
  new (.ofTexts (.ofList [("main.kcl", "export t = true\nimport g from \"lib\"\nr = g()\n"),
    ("lib.kcl", "import t from \"main\"\nexport g = () => t\n")])) .eager .prelude

/-- Both modules are run to their ends, and all uses on the way read their values. When the function is called later, it comes to the
use of the definition, which reads the value. -/
theorem Program.reads_values_cyclic : ∃ m f m' c e m'',
    (Request.query (.module 0)).answer (cyclic.load "main").2 30 .new = .ok [.unit] m ∧
    m.states.lookup 0 = some .done ∧ m.states.lookup 1 = some .done ∧ (∃ v, m.items.lookup (0, "t") = some v) ∧
    (Request.query (.value 1 "g")).answer (cyclic.load "main").2 30 m = .ok [.closure f] m' ∧
    (Request.query (.call (.closure f) [] [])).Reaches (cyclic.load "main").2 30 m' (.expr c e none) m'' ∧
    e.use?.map Prod.snd = some "t" ∧ m''.Reads (cyclic.load "main").2 c e ∧
    ∀ fuel c e s, (Request.query (.module 0)).Reaches (cyclic.load "main").2 fuel .new (.expr c e none) s →
      s.Reads (cyclic.load "main").2 c e := by
  generalize program : (cyclic.load "main").2 = P
  have computed : (cyclic.load "main").1.toOption = some 0 ∧ P.Flat ∧ P.modules.size = 2 ∧
      (P.exportsOf 0).entries.any (fun e => decide (e.target = .item 0 "t")) = true ∧
      (P.resolvedOf 1).isSome ∧
      Eval.gives (fun _ m => Eval.gives (fun v m' => v.closure?.any fun f => decide (f.module = 1) &&
            (f.bodyName?.any fun ident => ident.name == "t") &&
            Eval.gives (fun _ _ => true) ((Request.query (.call (.closure f) [] [])).answer P 30 m'))
          ((Query.value 1 "g").answer P 30 m))
        ((Query.module 0).answer P 30 .new) = true := by
    subst program
    decide +kernel
  obtain ⟨loaded, flat, size, exported, resolved, answered⟩ := computed
  subst program
  have reads := reads_values _ _ _ (toOption_eq_some loaded) flat
  obtain ⟨t, resolved⟩ := Option.isSome_iff_exists.1 resolved
  obtain ⟨e, member, target⟩ := List.any_eq_true.1 exported
  obtain ⟨l, found, member⟩ := mem_exportsOf member
  simp only [Eval.gives_iff, Option.any_eq_true, Bool.and_eq_true, decide_eq_true_eq, Value.closure?_eq_some] at answered
  obtain ⟨u, m, answer, v, m', answer', f, rfl, ⟨⟨module, ident, body, named⟩, vs, last, returned, -⟩⟩ := answered
  obtain ⟨params, body⟩ := Closure.bodyName?_eq_some body
  obtain rfl : u = .unit := Query.module_unit answer
  have answer := Request.answer_query answer
  have answer' := Request.answer_query answer'
  obtain ⟨done, values, later⟩ := reads.2 30 _ m answer
  have value := values 0 "t" (.exported found member (of_decide_eq_true target))
  have goes : ∀ s, (Request.query (.call (.closure f) [] [])).answer (cyclic.load "main").2 30 m' ≠ .error .outOfFuel s := by
    simp [returned]
  have onward : m.Onward (cyclic.load "main").2 m' := .single ⟨.query (.value 1 "g"), 30, (congrArg Eval.left answer').symm⟩
  have reaches := Request.reaches_body params (module ▸ resolved) goes
  rw [body] at reaches
  exact ⟨m, f, m', _, _, _, answer, done 0 (size ▸ Nat.two_pos), done 1 (size ▸ Nat.one_lt_two), value, answer',
    reaches, congrArg some (eq_of_beq named), later m' onward _ 30 _ _ _ reaches, reads.1 Hosts.prelude_honest⟩

/-- A program of which nothing is loaded, whose first definition calls a function that a host function hands on. -/
def Program.returning (v : Value) : Program :=
  ofText "r = recall()()\nexport t = true\nf = () => t\n" (recalling v)

/-- That program with the function of the same text that a run of it has made, with a host function that handed on itself. -/
def Program.repeated : Program :=
  returning (((returning (.host "recall")).load "main").2.kept "f")

/-- The call with which a module begins by defining a name, if it has no arguments: what is called, and the place. -/
def Module.openingCall? (ast : Module) : Option (Expr × Span) :=
  match ast.statements with
  | .define _ _ (.call callee [] span) _ :: _ => some (callee, span)
  | _ => none

lemma Module.openingCall?_eq_some {ast : Module} {callee : Expr} {span : Span} (h : ast.openingCall? = some (callee, span)) :
    ∃ exported name place ss, ast.statements = .define exported name (.call callee [] span) place :: ss := by
  unfold openingCall? at h
  split at h
  · next exported name _ _ place ss statements =>
    cases h
    exact ⟨exported, name, place, ss, statements⟩
  · cases h

/-- Not every host function may be there. This one hands on a function that an earlier run has made, and the module that calls it
first comes by it to an exported definition further down, which has no value yet. -/
theorem Program.not_reads_values_repeated :
    (repeated.load "main").1 = .ok 0 ∧ (repeated.load "main").2.Flat ∧
    (∃ c e m, (Request.query (.module 0)).Reaches (repeated.load "main").2 9 .new (.expr c e none) m ∧
      ¬ m.Reads (repeated.load "main").2 c e) ∧
    ∃ m, (Request.query (.module 0)).answer (repeated.load "main").2 9 .new = .error (.error (.uninitialized "t")) m := by
  generalize program : (repeated.load "main").2 = P
  have computed : (repeated.load "main").1.toOption = some 0 ∧ P.Flat ∧ (P.modules[0]?.any fun l => l.isUsable &&
      (l.ast.any fun ast => ast.openingCall?.any fun call => Eval.gives (fun v m => v.closure?.any fun f =>
          decide (f.module = 0) && (m.items.lookup (0, "t")).isNone && f.bodyName?.any fun ident => l.resolved.any fun t =>
            (t.references.get? ident.span).any fun ref => decide (ref.target = .item 0 "t"))
        (Task.run P 6 (.expr ⟨0, 0⟩ call.1 none) (Eval.begun 0 .new)))) = true ∧
      Eval.failsWith (fun e _ => decide (e = .uninitialized "t")) ((Request.query (.module 0)).answer P 9 .new) = true := by
    subst program
    decide +kernel
  obtain ⟨loaded, flat, opening, stopped⟩ := computed
  simp only [Option.any_eq_true, Bool.and_eq_true, Eval.gives_iff, decide_eq_true_eq, Option.isNone_iff_eq_none,
    Value.closure?_eq_some] at opening
  obtain ⟨l, found, usable, ast, parsed, ⟨callee, span⟩, opens, _, m, recalls, f, rfl, ⟨module, early⟩, ident, body, t, resolved,
    ref, refers, target⟩ := opening
  obtain ⟨exported, name, place, ss, statements⟩ := Module.openingCall?_eq_some opens
  obtain ⟨params, body⟩ := Closure.bodyName?_eq_some body
  obtain ⟨e, m', answer, same⟩ := Eval.failsWith_iff.1 stopped
  obtain rfl := of_decide_eq_true same
  have tables : P.resolvedOf f.module = some t := module ▸ (resolvedOf_some found).trans resolved
  refine ⟨toOption_eq_some loaded, flat, ⟨⟨f.module, m.heap.size⟩, f.lambda.body, { m with heap := m.heap.push (some f.frame) }, ?_,
    Machine.not_reads (by rw [body, Expr.use?]) tables refers target early⟩, m', answer⟩
  refine Request.reaches_statement found usable parsed statements rfl (by simp [answer]) fun goes => ?_
  refine .of_stop (.expr ⟨0, 0⟩ (.call callee [] span) none) _ (fun run s stops => ⟨s, Eval.bind_stop stops⟩) goes fun goes => ?_
  -- the callee is evaluated first, and gives the function
  have goes' : ∀ s, Task.run P 6 (.call (.closure f) [] []) m ≠ .error .outOfFuel s := fun s stopped =>
    goes s ((Eval.bind_eq recalls).trans stopped)
  exact .inside (.behind recalls (by simp) (.of_stop (fun run s stops => ⟨s, stops⟩) goes'))
    (Task.reaches_body params tables goes')

end PipeLang
