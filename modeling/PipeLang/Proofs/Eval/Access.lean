import Mathlib.Data.Set.Finite.Lattice
import Mathlib.Order.WellFoundedSet
import PipeLang.Proofs.Eval.Finished
import PipeLang.Proofs.Load.Presented
import PipeLang.Proofs.Load.Provenance

/-!
# Access to exported definitions

When a module has run, each definition that it exports has a value, wherever it comes from:
`Dialogue.LeadsKnowing.exported`. Every way to it gives that value: the name at the top level of the module, unless it is
ambiguous there, an import of the name, and a path through the module. Main statement: `Program.exported_value`.
-/

namespace PipeLang

open Eval

variable {p : Program} {m : Machine} {id source owner : ModuleId} {name item : String} {v : Value} {t : Resolved} {c : Context}
  {run : Task → Eval Value} {use : Expr} {e : Export} {l : LoadedModule}

namespace Program

/-- Where imports have no cycles, what holds of a module if it holds of what it imports holds of all. -/
lemma AtRest.importing (rest : p.AtRest) (acyclic : ∀ id, ¬ Relation.TransGen p.Imports id id) :
    WellFounded fun other id => p.Imports id other := by
  have strict : IsStrictOrder ModuleId fun other id => Relation.TransGen p.Imports id other :=
    { irrefl := acyclic
      trans := fun _ _ _ way way' => way'.trans way }
  have finite : {id : ModuleId | (id : Nat) < p.modules.size}.Finite := Set.finite_lt_nat _
  have founded := finite.wellFoundedOn (r := fun other id => Relation.TransGen p.Imports id other)
  have inside {id other : ModuleId} (imports : p.Imports id other) : (other : Nat) < p.modules.size :=
    (rest.sound.imports (Or.inl imports)).1
  refine ⟨fun id => .intro id fun other imports => ?_⟩
  refine founded.induction (inside imports) fun id _ ih => .intro id fun other imports => ?_
  exact ih other (inside imports) (.single imports)

/-- Where every recorded import goes to a module with a greater number, imports have no cycles. -/
lemma acyclic_of_ascending (ascending : ∀ id < p.modules.size, (p.resolvedOf id).all fun t =>
    t.imports.entries.all fun entry => decide (id < (entry.2 : Nat))) (id : ModuleId) :
    ¬ Relation.TransGen p.Imports id id := by
  have up {id other : ModuleId} (imports : p.Imports id other) : (id : Nat) < other := by
    obtain ⟨t, site, tables, recorded⟩ := imports
    obtain ⟨l, found, -⟩ := Option.bind_eq_some_iff.1 tables
    have inside : (id : Nat) < p.modules.size := (Array.getElem?_eq_some_iff.1 found).1
    have checked := ascending id inside
    rw [tables] at checked
    exact of_decide_eq_true (List.all_eq_true.1 checked _ (mem_of_lookup recorded))
  have along {id other : ModuleId} (way : Relation.TransGen p.Imports id other) : (id : Nat) < other := by
    induction way with
    | single imports => exact up imports
    | tail _ imports ih => exact Nat.lt_trans ih (up imports)
  exact fun way => Nat.lt_irrefl _ (along way)

/-- An expression in one module denotes what another exports under a name: a name that an import statement has taken from
there, and not the module itself, or a path that leads to the module and ends with the name. -/
inductive Accesses (p : Program) (reader source : ModuleId) (name : String) : Expr → Prop where
  | imported {t ident} {site : Span} {b : Binding} {found : BindingId} :
    p.resolvedOf reader = some t →
    t.imports.get? site = some source →
    t.lookupAt ident.name ident.span.start = .found found →
    t.scopes.bindings[(found : Nat)]? = some b →
    b.origin.IsImport →
    b.visibleFrom = site.stop →
    b.sourceName = name →
    b.target ≠ .module source →
    Accesses p reader source name (.name ident)
  | through {t known} {head last : Ident} {before : List Ident} {span : Span} :
    p.resolvedOf reader = some t →
    t.references.get? head.span = some known →
    p.follow known.target before = some (.module source) →
    last.name = name →
    Accesses p reader source name (.path head (before ++ [last]) span)

/-- A path leads on from where its first segments lead. -/
lemma follow_append {target : Target} {before rest : List Ident} :
    p.follow target (before ++ rest) = (p.follow target before).bind fun found => p.follow found rest := by
  induction before generalizing target with
  | nil => rfl
  | cons segment before ih =>
    cases target with
    | module id =>
      rw [List.cons_append, follow, follow, Option.bind_assoc]
      exact Option.bind_congr fun e _ => ih
    | _ => rfl

section

variable {sources : Sources} {policy : GlobPolicy} {hosts : Hosts} {paths : List String} {labels : Labels}

/-- What a module exports is what an expression denotes by which another module accesses it. -/
lemma Accesses.denotes (access : ((new sources policy hosts).loadAll paths).Accesses c.module source e.name use)
    (fits : (Task.expr c use none).Fits ((new sources policy hosts).loadAll paths) labels)
    (found : ((new sources policy hosts).loadAll paths).modules[(source : Nat)]? = some l) (usable : l.isUsable = true)
    (member : e ∈ l.exports.entries) :
    ∃ t site shown ref, ((new sources policy hosts).loadAll paths).resolvedOf c.module = some t ∧
      t.references.get? site = some ref ∧ ref.target = e.target ∧ ∀ run,
        step ((new sources policy hosts).loadAll paths) run (.expr c use none) =
          reference ((new sources policy hosts).loadAll paths) run c site shown := by
  have rest : ((new sources policy hosts).loadAll paths).AtRest := (atRest_new.loadAll paths).1
  -- no other export of the module has the name
  have exportsOf : ((new sources policy hosts).loadAll paths).exportsOf source = l.exports := by
    rw [Program.exportsOf, found]
  have distinct : l.exports.Distinct := by
    obtain ⟨l', t, ast, found', resolved, -, settled⟩ := rest.ready ⟨l, found, usable⟩
    cases found.symm.trans found'
    exact (loadAll_linked found settled.parsed resolved).distinct
  have known := distinct e member
  cases fits with
  | @expr _ t scope _ _ stands settled _ =>
  cases settled with
  | mk _ _ pieces =>
  cases access with
  | @imported t₁ ident site b id resolved recorded looked bound brought visible sourceName other =>
    cases resolved.symm.trans stands.resolved
    obtain ⟨l', t', ast, found', resolved', fine, reader⟩ := rest.ready stands.usable
    obtain rfl : t' = t := Option.some.inj (resolved'.symm.trans ((resolvedOf_some found').symm.trans stands.resolved))
    have linked := loadAll_linked found' reader.parsed resolved'
    obtain ⟨e', member', name, target⟩ :=
      (linked.taken bound brought (loadAll_valid found' fine resolved' bound) recorded visible).resolve_left other
    obtain rfl : e' = e := by
      have known' := distinct e' (exportsOf ▸ member')
      rw [name, sourceName, known] at known'
      exact (Option.some.inj known').symm
    cases pieces with
    | name answers isSome _ =>
      obtain ⟨ref, uses⟩ := Option.isSome_iff_exists.1 (isSome trivial)
      have denotes := (answers ref uses).found looked
      rw [Scopes.target, bound] at denotes
      exact ⟨t', ident.span, ident.name, ref, resolved, uses, denotes.symm.trans target, fun _ => rfl⟩
  | @through t₁ known' head last before span resolved recorded leads name =>
    cases resolved.symm.trans stands.resolved
    cases pieces with
    | path _ _ follows _ =>
      obtain ⟨ref, uses, led⟩ := follows trivial known' recorded
      refine ⟨t, span, pathName head (before ++ [last]), ref, resolved, uses, ?_, fun _ => rfl⟩
      rw [follow_append, leads, Option.bind_some, follow, exportsOf, name, known, Option.bind_some, follow] at led
      exact (Option.some.inj led).symm

end

end Program

/-! ### Values -/

namespace Eval

/-- A use of a definition that has a value gives the value. -/
lemma reference_given {site : Span} {shown : String} {ref : Reference} (resolved : p.resolvedOf c.module = some t)
    (uses : t.references.get? site = some ref) (target : ref.target = .item owner item)
    (value : m.items.lookup (owner, item) = some v) : reference p run c site shown m = .ok v m := by
  simp only [reference, resolvedOf_eq resolved, pure_bind, uses, target]
  have read : item? owner item m = .ok (some v) m := congrArg (EStateM.Result.ok · m) value
  rw [bind_eq read]
  rfl

/-- At the top level a name that stands for a definition has its value. -/
lemma topLevelValue?_item {b : Binding} (tables : p.resolvedOf id = some t) (stands : t.topLevel? name = some b)
    (target : b.target = .item owner item) : topLevelValue? p m id name = m.items.lookup (owner, item) := by
  obtain ⟨l, found, resolved⟩ := Option.bind_eq_some_iff.1 tables
  simp only [topLevelValue?, found, resolved, stands, Option.bind_eq_bind, Option.bind_some, target]

lemma topLevelValue?_none (tables : p.resolvedOf id = some t) (missing : t.topLevel? name = none) :
    topLevelValue? p m id name = none := by
  obtain ⟨l, found, resolved⟩ := Option.bind_eq_some_iff.1 tables
  simp only [topLevelValue?, found, resolved, missing, Option.bind_eq_bind, Option.bind_some, Option.bind_none]

/-- A module that has run answers with what there is at its top level. -/
lemma valueOf_done {fuel : Nat} (done : m.states.lookup id = some .done) :
    valueOf p (Task.run p (fuel + 1)) id name m = (match topLevelValue? p m id name with
      | some v => .ok v m
      | none => .error (.error (.missingEntry name)) m) := by
  have ran : Task.run p (fuel + 1) (.module id) m = .ok .unit m := by
    rw [Machine.lookup_states] at done
    cases past : m.past id with
    | nil =>
      rw [past] at done
      cases done
    | cons s before =>
      rw [past] at done
      cases done
      exact step_module_begun past
  have asked : (get : Eval Machine) m = .ok m m := rfl
  rw [valueOf, bind_eq ran, bind_eq asked]
  cases topLevelValue? p m id name with
  | some v => rfl
  | none => rfl

end Eval

/-- A module has run when a request to run it has been answered. -/
lemma Query.module_done {d : Dialogue} {fuel : Nat} {u : Value} {m : Machine} (settled : d.Settled p)
    (ran : (Query.module id).answer p fuel d.machine = .ok u m) : m.states.lookup id = some .done := by
  cases fuel with
  | zero => cases ran
  | succ fuel =>
    change step p (Task.run p fuel) (.module id) d.machine = .ok u m at ran
    rcases settled.modules id with fresh | ⟨-, last, ended, past⟩
    · obtain ⟨result, -, refuses, same⟩ | ⟨-, loaded, ast, -, -, -, runs⟩ := step_module p id d.machine
      · obtain ⟨e, rfl⟩ := refuses fresh
        cases (same _).symm.trans ran
      · rw [runs] at ran
        cases ends : moduleStatements (Task.run p fuel) ⟨id, d.machine.heap.size⟩ .unit ast.statements (begun id d.machine) with
        | ok v m₁ =>
          rw [ends] at ran
          cases ran
          simp
        | error stop m₁ =>
          rw [ends] at ran
          cases stop <;> cases ran
    · rw [step_module_begun past] at ran
      cases last with
      | running => exact absurd rfl ended
      | failed e => cases ran
      | done =>
        cases ran
        rw [Machine.lookup_states, past, List.head?_cons]

section

open Program (new)

variable {sources : Sources} {policy : GlobPolicy} {hosts : Hosts} {paths : List String}
  (acyclic : ∀ id, ¬ Relation.TransGen ((new sources policy hosts).loadAll paths).Imports id id)
include acyclic

/-- When a module has run, each definition that it exports has a value: the module that a statement forwards it from has run as
well, and so on to the module that defines it. -/
theorem Dialogue.LeadsKnowing.exported (honest : hosts.Honest) {d : Dialogue}
    (leads : LeadsKnowing ((new sources policy hosts).loadAll paths) .start d)
    (done : d.machine.states.lookup id = some .done)
    (found : ((new sources policy hosts).loadAll paths).modules[(id : Nat)]? = some l) (usable : l.isUsable = true)
    (member : e ∈ l.exports.entries) (target : e.target = .item owner item) :
    (d.machine.items.lookup (owner, item)).isSome := by
  obtain ⟨rest, same⟩ : ((new sources policy hosts).loadAll paths).AtRest ∧ _ := Program.atRest_new.loadAll paths
  have honest' : ((new sources policy hosts).loadAll paths).hosts.Honest := same ▸ honest
  -- by induction on what the module imports
  induction id using (rest.importing acyclic).induction generalizing l e with
  | _ id ih =>
    obtain ⟨l', t, ast, found', resolved, -, settled⟩ := rest.ready ⟨l, found, usable⟩
    cases found.symm.trans found'
    have tables := (Program.resolvedOf_some found).trans resolved
    obtain ⟨s, among, shows⟩ := Program.loadAll_provenance found usable settled.parsed resolved member
    have achieved := leads.achieved rest honest' Program.loadAll_onePlace Program.loadAll_parsed acyclic done found
      settled.parsed among
    cases shows with
    | define declared defines shown =>
      cases target.symm.trans shown
      exact achieved.items item ⟨t, _, tables, declared, defines⟩
    | @importing i source recorded _ shown =>
      have ran := achieved.imports i rfl t source tables recorded
      have imports : ((new sources policy hosts).loadAll paths).Imports id source := ⟨t, i.span, tables, recorded⟩
      rcases shown with module | ⟨e', member', shown⟩
      · cases target.symm.trans module
      · obtain ⟨l', found', usable'⟩ := rest.import_usable ⟨l, found, usable⟩ imports
        rw [Program.exportsOf, found'] at member'
        exact ih source imports ran found' usable' member' (shown.symm.trans target)

end

namespace Program

/-- An exported definition has the same value in every way to it. Behind any loads without import cycles, after any requests, and
once a usable module has run, each definition that the module exports has a value, which stays. From then on the name answers
with that value at the top level of the module, unless it is ambiguous there, which takes a policy that defers collisions; an
ambiguous name is refused. Wherever an evaluation comes to an expression by which a module accesses the name in the module, by
an import or through a path, the expression gives that value, at once.

Requests are made with values that come from answers, and host functions hand on no functions but those that they are given and
those that are registered. -/
theorem exported_value (sources : Sources) (policy : GlobPolicy) (hosts : Hosts) (paths : List String)
    (acyclic : ∀ id, ¬ Relation.TransGen ((new sources policy hosts).loadAll paths).Imports id id)
    (honest : hosts.Honest) (addressable : sources.Addressable) {d : Dialogue}
    (leads : Dialogue.LeadsKnowing ((new sources policy hosts).loadAll paths) .start d)
    (found : ((new sources policy hosts).loadAll paths).modules[(id : Nat)]? = some l) (usable : l.isUsable = true)
    (resolved : l.resolved = some t) {fuel : Nat} {u : Value}
    (ran : (Query.module id).answer ((new sources policy hosts).loadAll paths) fuel d.machine = .ok u m)
    (member : e ∈ l.exports.entries) (target : e.target = .item owner item) :
    let p := (new sources policy hosts).loadAll paths
    (policy = .eager → ¬ t.Ambiguous e.name) ∧
      ∃ v, ∀ d', Dialogue.LeadsKnowing p ⟨m, u :: d.known⟩ d' →
        (¬ t.Ambiguous e.name → ∀ fuel, (Query.value id e.name).answer p (fuel + 1) d'.machine = .ok v d'.machine) ∧
        (t.Ambiguous e.name → ∀ fuel,
          (Query.value id e.name).answer p (fuel + 1) d'.machine = .error (.error (.missingEntry e.name)) d'.machine) ∧
        ∀ (r : Request) fuel c use m', r.Fair p d'.known → r.Reaches p fuel d'.machine (.expr c use none) m' →
          p.Accesses c.module id e.name use → ∀ depth, Task.run p (depth + 1) (.expr c use none) m' = .ok v m' := by
  intro p
  obtain ⟨rest, same⟩ : p.AtRest ∧ p.hosts = hosts := atRest_new.loadAll paths
  have honest' : p.hosts.Honest := same ▸ honest
  obtain ⟨settled, -⟩ := leads.leads.settled Dialogue.settled_start
  have done := Query.module_done settled ran
  have asked : Dialogue.Asks p (.query (.module id)) fuel d ⟨m, [u] ++ d.known⟩ := by
    refine .answered ?_
    rw [Request.answer, bind_eq ran]
    rfl
  have knows : (Request.query (.module id)).Knows p d.known := by trivial
  have leads₁ : Dialogue.LeadsKnowing p .start ⟨m, u :: d.known⟩ := leads.tail ⟨_, fuel, knows, asked⟩
  obtain ⟨v, value⟩ := Option.isSome_iff_exists.1 (leads₁.exported acyclic honest done found usable member target)
  have tables : p.resolvedOf id = some t := (resolvedOf_some found).trans resolved
  have top := loadAll_topLevel addressable found usable resolved member
  have hidden (ambiguous : t.Ambiguous e.name) : t.topLevel? e.name = none := by
    obtain ⟨ids, ambiguous⟩ := ambiguous
    rw [Resolved.topLevel?, ambiguous]
  refine ⟨fun eager ambiguous => ?_, v, fun d' later => ?_⟩
  · rcases top with ⟨b, stands, -⟩ | ⟨onUse, -⟩
    · cases stands.symm.trans (hidden ambiguous)
    · cases eager.symm.trans onUse
  -- later the module has still run, and the definition has its value
  obtain ⟨settled₁, -⟩ := leads₁.leads.settled Dialogue.settled_start
  obtain ⟨sound₁, -⟩ := leads₁.sound rest honest' loadAll_onePlace loadAll_parsed Dialogue.settled_start Dialogue.sound_start
  obtain ⟨-, since⟩ := later.leads.settled settled₁
  obtain ⟨sound, kept⟩ := later.sound rest honest' loadAll_onePlace loadAll_parsed settled₁ sound₁
  have done' : d'.machine.states.lookup id = some .done := by
    rw [Machine.lookup_states] at done ⊢
    rw [since.past id fun fresh => by simp [fresh] at done]
    exact done
  have value' : d'.machine.items.lookup (owner, item) = some v := lookup_of_suffix kept sound.given.nodup value
  refine ⟨fun plain fuel => ?_, fun ambiguous fuel => ?_, fun r fuel c use m' fair reaches access depth => ?_⟩
  · obtain ⟨b, stands, same⟩ := top.resolve_right fun either => plain either.2
    have read := topLevelValue?_item (m := d'.machine) tables stands (same.trans target)
    show valueOf p (Task.run p (fuel + 1)) id e.name d'.machine = _
    rw [valueOf_done done', read, value']
  · have read := topLevelValue?_none (m := d'.machine) tables (hidden ambiguous)
    show valueOf p (Task.run p (fuel + 1)) id e.name d'.machine = _
    rw [valueOf_done done', read]
  · obtain ⟨labels, sound', fit⟩ := sound.sound
    have current := reaches.found rest honest' loadAll_onePlace loadAll_parsed fair sound value'
    obtain ⟨task, between, consults, reaches⟩ := reaches
    obtain ⟨labels₁, -, sound₁, fits₁⟩ := consults.fits sound' (Task.run_keeps rest honest' fuel) fun run' agree =>
      Request.answerOver_keeps rest agree fair fit
    obtain ⟨labels₂, -, -, fits⟩ := reaches.fits rest honest' sound₁ fits₁
    obtain ⟨t', site, shown, ref, reader, uses, same, steps⟩ := access.denotes fits found usable member
    show step p (Task.run p depth) (.expr c use none) m' = .ok v m'
    rw [steps]
    exact reference_given reader uses (same.trans target) current

/-- Texts of which one imports what another forwards of a third one. -/
def relaying : Texts := .ofList [("lib.kcl", "export x = true\n"),
  ("main.kcl", "export import x as y from \"lib\"\n"), ("user.kcl", "import y from \"main\"\nf = () => y\n")]

/-- What is forwarded has a value at the top level of the module in the middle, and a function of another module that imports
it gives that value. -/
theorem exported_value_relaying :
    let p := (new (.ofTexts relaying) .eager .empty).loadAll ["user"]
    ∃ u m f m' use c m'' v, (Query.module 1).answer p 9 .new = .ok u m ∧
      (Request.query (.value 0 "f")).answer p 9 m = .ok [.closure f] m' ∧
      (Query.value 1 "y").answer p 1 m' = .ok v m' ∧ p.Accesses c.module 1 "y" use ∧
      (Request.query (.call (.closure f) [] [])).Reaches p 9 m' (.expr c use none) m'' ∧
      Task.run p 1 (.expr c use none) m'' = .ok v m'' := by
  intro p
  have computed : (∀ id < p.modules.size, (p.resolvedOf id).all fun t =>
        t.imports.entries.all fun entry => decide (id < (entry.2 : Nat))) ∧
      (p.modules[1]?.any fun l => l.isUsable && l.resolved.isSome && l.exports.entries.any fun e =>
        decide (e.name = "y") && decide (e.target = .item 2 "x")) = true ∧
      gives (fun _ m => gives (fun v m' => v.closure?.any fun f => decide (f.module = 0) && f.bodyName?.any fun ident =>
          ((p.resolvedOf 0).any fun t => decide (t.imports.get? ⟨0, 20⟩ = some 1) &&
            decide (t.lookupAt ident.name ident.span.start = .found 0) && t.scopes.bindings[0]?.any fun b =>
              decide (b.origin = .named) && decide (b.visibleFrom = 20) && decide (b.sourceName = "y") &&
                decide (b.target ≠ .module 1)) &&
          gives (fun _ _ => true) ((Request.query (.call (.closure f) [] [])).answer p 9 m'))
        ((Query.value 0 "f").answer p 9 m)) ((Query.module 1).answer p 9 .new) = true := by
    decide +kernel
  obtain ⟨ascending, exported, answered⟩ := computed
  simp only [Option.any_eq_true, Bool.and_eq_true, List.any_eq_true, decide_eq_true_eq, Option.isSome_iff_exists] at exported
  obtain ⟨l, found, ⟨usable, t, resolved⟩, e, member, named, target⟩ := exported
  simp only [gives_iff, Option.any_eq_true, Bool.and_eq_true, decide_eq_true_eq, Value.closure?_eq_some] at answered
  obtain ⟨u, m, ran, _, m', value, f, rfl, home, ident, body, ⟨t', tables, ⟨recorded, looked⟩, b, bound, ⟨⟨origin, visible⟩, name⟩,
    other⟩, _, _, returned, -⟩ := answered
  obtain ⟨params, body⟩ := Closure.bodyName?_eq_some body
  have acyclic : ∀ id, ¬ Relation.TransGen p.Imports id id := acyclic_of_ascending ascending
  have addressable : (Sources.ofTexts relaying).Addressable := Sources.ofTexts_addressable (by decide +kernel)
  obtain ⟨notAmbiguous, v, later⟩ := exported_value _ .eager .empty _ acyclic Hosts.empty_honest addressable .refl found
    usable resolved ran member target
  replace value := Request.answer_query value
  have onward : Dialogue.LeadsKnowing p ⟨m, [u]⟩ ⟨m', [.closure f, u]⟩ := by
    have asks : Dialogue.Asks p (.query (.value 0 "f")) 9 ⟨m, [u]⟩ ⟨m', [.closure f] ++ [u]⟩ := .answered value
    exact .single ⟨.query (.value 0 "f"), 9, trivial, asks⟩
  have fair : Request.Fair p [.closure f, u] (.query (.call (.closure f) [] [])) :=
    .call (madeFrom_of_mem List.mem_cons_self) (by simp) (by simp)
  have reaches : (Request.query (.call (.closure f) [] [])).Reaches p 9 m' (.expr ⟨f.module, m'.heap.size⟩ f.lambda.body none)
      { m' with heap := m'.heap.push (some f.frame) } := Request.reaches_body params (home ▸ tables) (by simp [returned])
  rw [body, home] at reaches
  have access : p.Accesses 0 1 "y" (.name ident) := .imported tables recorded looked bound (Or.inl origin) visible name other
  obtain ⟨value', -, imported⟩ := later _ onward
  rw [named] at value' imported notAmbiguous
  exact ⟨u, m, f, m', .name ident, ⟨0, m'.heap.size⟩, _, v, ran, value, value' (notAmbiguous rfl) 0, access, reaches,
    imported _ _ _ _ _ fair reaches access 0⟩

/-- Sources of which one defines a name that it then imports everything of another under. -/
def shadowing : Sources := .ofTexts (.ofList [("lib.kcl", "export x = \"text\"\n"),
  ("main.kcl", "export x = true\nimport * from \"lib\"\n"),
  ("user.kcl", "import x from \"main\"\nimport \"main\"\nexport a = x\nexport b = main::x\n")])

/-- A name that the module exports can be refused at its top level, where a glob import has brought another of the name,
although an import of it and a path to it both give its value. -/
theorem not_exported_value_shadowing :
    let p := (new shadowing .onUse .empty).loadAll ["user"]
    (∀ id, ¬ Relation.TransGen p.Imports id id) ∧ (∃ l, p.modules[1]? = some l ∧ l.isUsable = true ∧
      ∃ e ∈ l.exports.entries, e.name = "x" ∧ e.target = .item 1 "x") ∧
      ∃ u m m₁ m₂ m₃, (Query.module 1).answer p 9 .new = .ok u m ∧
        (Query.value 0 "a").answer p 9 m = .ok (.bool true) m₁ ∧ (Query.value 0 "b").answer p 9 m₁ = .ok (.bool true) m₂ ∧
        (Query.value 1 "x").answer p 9 m₂ = .error (.error (.missingEntry "x")) m₃ := by
  intro p
  have computed : (∀ id < p.modules.size, (p.resolvedOf id).all fun t =>
        t.imports.entries.all fun entry => decide (id < (entry.2 : Nat))) ∧
      (p.modules[1]?.any fun l => l.isUsable && l.exports.entries.any fun e =>
        decide (e.name = "x") && decide (e.target = .item 1 "x")) = true ∧
      gives (fun _ m => gives (fun v m₁ => decide (v.bool? = some true) &&
          gives (fun w m₂ => decide (w.bool? = some true) &&
            failsWith (fun e _ => decide (e = .missingEntry "x")) ((Query.value 1 "x").answer p 9 m₂))
          ((Query.value 0 "b").answer p 9 m₁)) ((Query.value 0 "a").answer p 9 m)) ((Query.module 1).answer p 9 .new) = true := by
    decide +kernel
  obtain ⟨ascending, exported, answered⟩ := computed
  simp only [Option.any_eq_true, Bool.and_eq_true, List.any_eq_true, decide_eq_true_eq] at exported
  obtain ⟨l, found, usable, e, member, named, target⟩ := exported
  simp only [gives_iff, failsWith_iff, Bool.and_eq_true, decide_eq_true_eq, Value.bool?_eq_some] at answered
  obtain ⟨u, m, ran, _, m₁, imported, rfl, _, m₂, through, rfl, _, m₃, refused, rfl⟩ := answered
  exact ⟨acyclic_of_ascending ascending, ⟨l, found, usable, e, member, named, target⟩, u, m, m₁, m₂, m₃, ran, imported, through,
    refused⟩

end Program

end PipeLang
