import PipeLang.Proofs.Eval.Requests
import PipeLang.Proofs.Load.Cache
import PipeLang.Proofs.Resolve.Lenient

/-!
# Loading with deferred collisions

The policy that defers collisions is a conservative extension of the other. A program that can be loaded without faults under the
other policy comes out the same, module by module, and answers the same to everything: `Program.load_deferring`.
-/

namespace PipeLang

open Resolve (after)

namespace Program

variable {p q : Program} {id : Nat} {faults : List Fault} {depth : Nat}

/-- Faults are not taken away while programs settle. -/
lemma Faultless.of_settles (h : q.Faultless) (settles : p.Settles q) : p.Faultless := by
  intro m member
  obtain ⟨i, found⟩ := Array.mem_iff_getElem?.1 member
  obtain ⟨m', found', kept⟩ := settles.modules found
  have none : m'.faults = [] := h m' (Array.mem_of_getElem? found')
  exact List.subset_nil.1 (none ▸ kept.faults)

lemma Faultless.of_starting {path : ModulePath} {source : String} {ast : Module}
    (h : (p.starting path source ast).Faultless) : p.Faultless := by
  intro m member
  obtain ⟨i, found⟩ := Array.mem_iff_getElem?.1 member
  have old : i ≠ p.modules.size := (Array.getElem?_eq_some_iff.1 found).1.ne
  have found' : (p.starting path source ast).modules[i]? = some m := by rw [starting_modules, if_neg old, found]
  exact h m (Array.mem_of_getElem? found')

/-- A module without faults is finished without a word to its importers. -/
lemma finish_unmarked {m : LoadedModule} (found : p.modules[id]? = some m) (fine : m.faults = []) :
    p.finish id [] = p.modify id fun m => { m with faults := m.faults ++ [], status := .loaded } := by
  simp only [Program.finish, modify_modules, if_pos, found, Option.map_some, fine, List.append_nil, List.isEmpty_nil]

/-- A module that is finished in a program without faults has none, and its importers are left alone. -/
lemma Faultless.finish (h : (p.finish id faults).Faultless) (there : id < p.modules.size) :
    faults = [] ∧ p.Faultless ∧ p.deferring.finish id [] = (p.finish id []).deferring := by
  let marked (p : Program) (faults : List Fault) : Program :=
    p.modify id fun m => { m with faults := m.faults ++ faults, status := .loaded }
  have found : (marked p faults).modules[id]? = some { p.modules[id] with
      faults := p.modules[id].faults ++ faults, status := .loaded } := by
    simp only [marked, modify_modules, if_pos, Array.getElem?_eq_getElem there, Option.map_some]
  have fine : (marked p faults).Faultless := h.of_settles finish_keeps
  obtain ⟨own, rfl⟩ := List.append_eq_nil_iff.1 (fine _ (Array.mem_of_getElem? found))
  have fine' : p.Faultless := fine.of_modify fun m => m.faults.append_nil
  refine ⟨rfl, fine', ?_⟩
  have here : p.modules[id]? = some p.modules[id] := Array.getElem?_eq_getElem there
  have here' : p.deferring.modules[id]? = some p.modules[id] := here
  rw [finish_unmarked here own, finish_unmarked here' own]
  rfl

/-- A new module comes to the same when collisions are deferred, if nothing is wrong with it. -/
lemma tabled_lenient {load : Loader} (path : ModulePath) (source : String) (ast : Module) (h : load.Lenient load)
    (keeps : load.Keeps) :
    let finished (p : Program) : Program :=
      (p.tabled load path source ast).finish p.modules.size (p.resolution load path source ast).faults
    ((finished p).Faultless → p.Faultless) ∧ ((finished p).Faultless → finished p.deferring = (finished p).deferring) := by
  intro finished
  let start : Resolution := .start (p.starting path source ast) p.modules.size ast.span
  have lenient : Lenient (Resolve.module load ast) (Resolve.module load ast) := Resolve.module_lenient h ast
  have there : p.modules.size < (p.tabled load path source ast).modules.size := by
    obtain ⟨grown, -⟩ := (Resolve.module_changes load ast start).keeps keeps
    have more : start.program.modules.size ≤ (p.resolution load path source ast).program.modules.size := grown.size_le
    have one : start.program.modules.size = p.modules.size + 1 := starting_size
    simp only [tabled, Program.modify, Array.size_modify]
    omega
  have clean (fine : (finished p).Faultless) : (p.resolution load path source ast).Faultless := by
    obtain ⟨none, tabled, -⟩ := Faultless.finish fine there
    exact ⟨none, tabled.of_modify fun _ => rfl⟩
  refine ⟨fun fine => (lenient.before (clean fine)).others.of_starting, fun fine => ?_⟩
  obtain ⟨none, -, same⟩ := Faultless.finish fine there
  have again : p.deferring.resolution load path source ast = (p.resolution load path source ast).deferring :=
    congrArg Prod.snd (lenient.same (clean fine))
  have tabled : p.deferring.tabled load path source ast = (p.tabled load path source ast).deferring := by
    simp only [Program.tabled, again]
    rfl
  have none' : (p.deferring.resolution load path source ast).faults = [] := again ▸ none
  simp only [finished, none, none', tabled]
  exact same

/-- Loading under the policy that defers collisions goes as under any other that finds nothing wrong. -/
lemma loadPath_lenient (path : ModulePath) (h : ∀ inner < depth, (loader inner).Lenient (loader inner)) :
    ((p.loadPath depth path).2.Faultless → p.Faultless) ∧ ((p.loadPath depth path).2.Faultless →
      p.deferring.loadPath depth path = ((p.loadPath depth path).1, (p.loadPath depth path).2.deferring)) := by
  have asked : p.deferring.findPath? path = p.findPath? path := rfl
  have sources : p.deferring.sources.read path = p.sources.read path := rfl
  cases unknown : p.findPath? path with
  | some id =>
    rw [loadPath_found unknown, loadPath_found (asked.trans unknown)]
    exact ⟨fun fine => fine, fun _ => rfl⟩
  | none =>
    cases read : p.sources.read path with
    | error cause =>
      rw [loadPath_unreadable unknown read, loadPath_unreadable (asked.trans unknown) (sources.trans read)]
      exact ⟨fun fine => fine, fun _ => rfl⟩
    | ok source =>
      cases depth with
      | zero =>
        rw [loadPath_tooDeep unknown read, loadPath_tooDeep (asked.trans unknown) (sources.trans read)]
        exact ⟨fun fine => fine, fun _ => rfl⟩
      | succ inner =>
        cases parsed : Module.parse source with
        | error errors =>
          rw [loadPath_malformed unknown read parsed]
          have never (fine : ((p.enter path source).finish p.modules.size (errors.map .malformed)).Faultless) : False := by
            have there : p.modules.size < (p.enter path source).modules.size := by simp [enter]
            exact Module.parse_errors parsed (List.map_eq_nil_iff.1 (fine.finish there).1)
          exact ⟨fun fine => (never fine).elim, fun fine => (never fine).elim⟩
        | ok ast =>
          rw [loadPath_parsed unknown read parsed, loadPath_parsed (asked.trans unknown) (sources.trans read) parsed]
          obtain ⟨before, same⟩ := tabled_lenient (p := p) path source ast (h inner (Nat.lt_succ_self inner))
            (loader_keeps inner)
          exact ⟨before, fun fine => Prod.ext rfl (same fine)⟩

/-- Loaders are lenient at every depth. -/
theorem loader_lenient (depth : Nat) : (loader depth).Lenient (loader depth) := by
  induction depth using Nat.strongRecOn with
  | ind depth ih =>
    have loads (p : Program) (raw : String) : ((loader depth p raw).2.Faultless → p.Faultless) ∧
        ((loader depth p raw).2.Faultless → loader depth p.deferring raw =
          ((loader depth p raw).1, (loader depth p raw).2.deferring)) := by
      cases named : ModulePath.parse raw with
      | error cause =>
        have refused (q : Program) : loader depth q raw = (.error (.invalidPath raw cause), q) := by rw [loader, named]
        rw [refused, refused]
        exact ⟨fun fine => fine, fun _ => rfl⟩
      | ok path =>
        rw [loader_named named, loader_named named]
        exact loadPath_lenient path ih
    exact ⟨(loads _ _).1, (loads _ _).2⟩

/-! ### Evaluation -/

lemma pipeline_deferring {run : Task → Eval Value} {c : Context} {stages : List Stage} {incoming : Option Value} :
    Eval.pipeline p.deferring run c incoming stages = Eval.pipeline p run c incoming stages := by
  induction stages generalizing incoming with
  | nil => rfl
  | cons s stages ih =>
    simp only [Eval.pipeline, ih]
    rfl

/-- Evaluation does not depend on the policy. -/
lemma run_deferring (fuel : Nat) : Task.run p.deferring fuel = Task.run p fuel := by
  induction fuel with
  | zero => rfl
  | succ fuel ih =>
    funext task
    show Eval.step p.deferring (Task.run p.deferring fuel) task = Eval.step p (Task.run p fuel) task
    rw [ih]
    cases task with
    | pipeline c stages incoming => exact pipeline_deferring
    | _ => rfl

/-- What a program answers does not depend on the policy. -/
lemma answer_deferring (fuel : Nat) (r : Request) : r.answer p.deferring fuel = r.answer p fuel := by
  rw [Request.answer_eq, Request.answer_eq, run_deferring]
  cases r with
  | query q => cases q <;> rfl
  | entry id args e => rfl

/-- The policy that defers collisions is a conservative extension of the one that does not. If loading a module leaves no
module with faults when collisions are not deferred, then it has the same result when they are: the same modules under the
same numbers, with the same scopes, bindings, references, types and exports and without faults. So everything that the program is
asked for, on any machine, has the same answer. -/
theorem load_deferring (sources : Sources) (hosts : Hosts) (root : String)
    (fine : ((new sources .eager hosts).load root).2.Faultless) :
    let loaded := (new sources .eager hosts).load root
    let loaded' := (new sources .onUse hosts).load root
    loaded'.1 = loaded.1 ∧ loaded'.2.modules = loaded.2.modules ∧ loaded'.2.edges = loaded.2.edges ∧
      loaded'.2.Faultless ∧ ∀ (r : Request) fuel m, r.answer loaded'.2 fuel m = r.answer loaded.2 fuel m := by
  intro loaded loaded'
  have same : loaded' = (loaded.1, loaded.2.deferring) := (loader_lenient (sources.limit + 1)).same fine
  rw [same]
  exact ⟨rfl, rfl, rfl, fine, fun r fuel m => congrFun (answer_deferring fuel r) m⟩

/-- Modules in which a definition is passed on along two ways, and renamed on one of them. -/
def merging : Sources := .ofTexts (.ofList [
  ("main.kcl", "import * from \"left\"\nimport * from \"right\"\nexport x = [y, z, w]\n"),
  ("left.kcl", "export import z as y, * from \"base\"\n"),
  ("right.kcl", "export import * from \"base\"\n"),
  ("base.kcl", "export z = true\nexport w = \"text\"\n")])

/-- The definition that two globs bring to one module is bound twice there, which is no collision. -/
theorem load_deferring_merging :
    let p := ((new merging .eager .prelude).load "main").2
    let p' := ((new merging .onUse .prelude).load "main").2
    p.Faultless ∧ p'.modules = p.modules ∧ p'.Faultless ∧
      ∃ m t, p'.modules[0]? = some m ∧ m.resolved = some t ∧ (t.scopes.named Scopes.root "w").length = 2 := by
  intro p p'
  have computed : (p.modules.all fun m => m.faults.isEmpty) = true ∧
      (p.modules[0]?.any fun m => m.resolved.any fun t => (t.scopes.named Scopes.root "w").length == 2) = true := by
    decide +kernel
  have fine : p.Faultless := fun m member => by simpa using Array.all_eq_true'.1 computed.1 m member
  obtain ⟨-, modules, -, fine', -⟩ := load_deferring merging .prelude "main" fine
  obtain ⟨m, found, bound⟩ := (Option.any_eq_true _ _).1 computed.2
  obtain ⟨t, resolved, twice⟩ := (Option.any_eq_true _ _).1 bound
  exact ⟨fine, modules, fine', m, t, modules ▸ found, resolved, by simpa using twice⟩

end Program

end PipeLang
