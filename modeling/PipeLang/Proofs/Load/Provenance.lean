import PipeLang.Proofs.Load.Course
import PipeLang.Proofs.Load.Linked

/-!
# Where exports come from

What a module exports is shown by one of its statements at the top level: the statement declares it, or it imports a module that
exports it: `Program.loadAll_provenance`.
-/

namespace PipeLang

open Resolve (after answer)

/-- A statement at the top level shows what a module exports: it declares the name of the definition, or it imports a module
and forwards this module, or a definition that it exports. -/
inductive Statement.Shows (t : Resolved) (p : Program) (id : ModuleId) (e : Export) : Statement → Prop where
  | define {exported} {name : Ident} {value span item} {b : BindingId} :
    t.declarations.get? name.span = some b →
    t.scopes.target b = .item id item →
    e.target = .item id item →
    Shows t p id e (.define exported name value span)
  | importing {i : Import} {source : ModuleId} :
    t.imports.get? i.span = some source →
    e.reexport = true →
    (e.target = .module source ∨ ∃ e' ∈ (p.exportsOf source).entries, e.target = e'.target) →
    Shows t p id e (.importing i)

namespace Program

variable {p : Program} {raw : String} {depth : Nat} {a : Pending} {s : Statement} {rest : List Statement}

/-- A module is open before its first statement. -/
lemma Opens.rewind (h : p.Opens raw depth a) : p.Opens raw depth { a with done := [], rest := a.ast.statements } := by
  cases h with
  | mk named unknown read parsed => exact .mk named unknown read parsed (List.nil_append _).symm

/-- What is exported when some statements are done is exported when the module is done. -/
lemma Opens.retains (h : p.Opens raw depth a) : a.resolution.program.Retains a.finished.program := by
  rw [h.finished]
  exact ((Resolve.remaining_changes (loader depth) a.ast a.rest a.resolution).keeps (loader_keeps depth)).1.retains

/-- What a statement comes to export it shows. -/
lemma Opens.shows (h : p.Opens raw depth a) (canonical : p.Canonical) (fine : a.finished.faults = [])
    (next : a.rest = s :: rest) {e : Export} (member : e ∈ ((a.past s rest).resolution.program.exportsOf a.home).entries) :
    e ∈ (a.resolution.program.exportsOf a.home).entries ∨ s.Shows a.finished.resolved a.finished.program a.home e := by
  have past := h.past next
  obtain ⟨mark, -, later⟩ := past.later canonical.isOffers
  have keeps := loader_keeps depth
  have there : (a.resolution.home : Nat) < a.resolution.program.modules.size := (canonical.opens h).home
  have home : (a.past s rest).resolution.home = a.home := past.resolution_home
  have goes : (a.past s rest).resolution = after (Resolve.statement (loader depth) true none s) a.resolution := by
    rw [Pending.past_resolution, h.depth_eq]
  have exported : (a.past s rest).resolution.Exported (s.exports (loader depth) a.resolution
      (a.resolution.program.exportsOf a.resolution.home).entries) :=
    goes ▸ Resolve.statement_exports keeps ⟨there, rfl⟩
  rw [← home, exported.entries] at member
  rw [← h.resolution_home]
  cases s with
  | importing i =>
    simp only [Statement.exports] at member
    split at member
    · refine (Import.mem_exports (loader depth) member).imp_right ?_
      rintro ⟨target, m, item, answer, found, from_, rfl⟩
      obtain ⟨target', answer', recorded, -, behind, -⟩ := h.imports canonical fine next
      cases answer.symm.trans answer'
      refine .importing recorded rfl (from_.imp_right ?_)
      rintro ⟨e', member', -, same⟩
      refine ⟨e', past.retains.entries (behind.retains.entries ?_), same⟩
      rwa [Program.exportsOf, found]
    · exact Or.inl member
  | expr e' span => exact Or.inl member
  | define exports name value span =>
    cases exports with
    | false => exact Or.inl member
    | true =>
      simp only [Statement.exports] at member
      split at member
      · next free =>
        refine (Export.mem_onto member).imp_right fun same => ?_
        have valued : Changes (loader depth) value.mentions false a.resolution
            (after (Resolve.expr (loader depth) none value) a.resolution) :=
          (Expr.traced value (List.Subset.refl _) none).changes a.resolution
        have sameHome := (valued.keeps keeps).2
        simp only [Resolve.statement, Resolve.refuseNested, Bool.not_true, Bool.and_false, Bool.false_eq_true, if_false, pure_bind, Resolve.after_bind, Resolve.after_pure] at goes
        generalize answer (Resolve.expr (loader depth) none value) a.resolution = ty at *
        generalize after (Resolve.expr (loader depth) none value) a.resolution = r' at *
        obtain ⟨declared, bound⟩ := @Resolve.define_free r' value.isLambda name ty span (by simpa [Resolution.frees] using free)
        rw [← goes] at declared bound
        have bound' : a.finished.scopes.bindings[r'.scopes.nextBinding]? = some (name.definition r'.home r'.current ty span) :=
          later.scopes.bindings bound
        have target : a.finished.scopes.target r'.scopes.nextBinding = .item a.resolution.home name.name := by
          rw [Scopes.target, bound', ← sameHome]
          rfl
        exact .define (later.declarations declared) target (by rw [same, ← sameHome]; rfl)
      · exact Or.inl member

/-- What is exported when a module is done was exported when some statements were done, or a statement behind them shows it. -/
lemma Opens.shows_behind (h : p.Opens raw depth a) (canonical : p.Canonical) (fine : a.finished.faults = []) {e : Export}
    (member : e ∈ (a.finished.program.exportsOf a.home).entries) : e ∈ (a.resolution.program.exportsOf a.home).entries ∨
      ∃ s ∈ a.rest, s.Shows a.finished.resolved a.finished.program a.home e := by
  generalize behind : a.rest = rest
  induction rest generalizing a with
  | nil => exact Or.inl (h.entries behind ▸ member)
  | cons s rest ih =>
    rcases ih (h.past behind) fine member rfl with now | ⟨s', later, shows⟩
    · exact (h.shows canonical fine behind now).imp_right fun shows => ⟨s, List.mem_cons_self, shows⟩
    · exact Or.inr ⟨s', List.mem_cons_of_mem _ later, shows⟩

/-- Behind any loads, what a module exports that can be used one of its statements at the top level shows. -/
theorem loadAll_provenance {sources : Sources} {policy : GlobPolicy} {hosts : Hosts} {paths : List String} {id : ModuleId}
    {m : LoadedModule} {ast : Module} {t : Resolved}
    (found : ((new sources policy hosts).loadAll paths).modules[(id : Nat)]? = some m) (usable : m.isUsable = true)
    (parsed : m.ast = some ast) (resolved : m.resolved = some t) {e : Export} (member : e ∈ m.exports.entries) :
    ∃ s ∈ ast.statements, s.Shows t ((new sources policy hosts).loadAll paths) id e := by
  cases loadAll_opened found (by simp [resolved]) with
  | @mk q raw depth a settings canonical opens home ast' tables faults retains exports =>
    cases ast'.symm.trans parsed
    obtain rfl : a.finished.resolved = t := by simpa [resolved] using tables.symm
    have clean : a.finished.faults = [] := List.subset_nil.1 ((LoadedModule.isUsable_iff.1 usable).2 ▸ faults)
    have first := opens.rewind
    rw [exports, ← home] at member
    rcases first.shows_behind canonical clean member with none | ⟨s, among, shows⟩
    · -- nothing is exported before the first statement
      obtain ⟨path, source, -, start⟩ := opens.start
      replace none : e ∈ (a.start.program.exportsOf a.home).entries := none
      rw [start, opens.home] at none
      replace none : e ∈ ((q.starting path source a.ast).exportsOf q.modules.size).entries := none
      rw [Program.exportsOf, starting_modules, if_pos rfl] at none
      cases none
    · refine ⟨s, among, ?_⟩
      rw [← home]
      cases shows with
      | define declared target same => exact .define declared target same
      | importing recorded forwarded shown =>
        refine .importing recorded forwarded (shown.imp_right ?_)
        rintro ⟨e', member', same⟩
        exact ⟨e', retains.entries member', same⟩

end Program

end PipeLang
