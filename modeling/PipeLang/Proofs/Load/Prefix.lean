import PipeLang.Proofs.Load.Canonical
import PipeLang.Proofs.Load.Exported

/-!
# What modules show of themselves

A module that is being resolved shows to others what the statements before the one that it is at export, and nothing of
what it exports later; what others have bound of it does not change when it exports more: `Program.loading_shows`.
-/

namespace PipeLang

open Resolve (after Asks)

namespace Pending

/-- The program in which a module is done, before modules that import it fail. -/
def concluded (a : Pending) : Program :=
  a.finished.program.modify a.home fun m => m.done (some a.finished.resolved) a.finished.faults

/-- The names that the statements export that are done, in order. -/
def exports (a : Pending) : List Export :=
  Resolve.exports (Program.loader a.depth) a.start [] a.done

/-- A program shows of a module that is being resolved what the statements that are done export, and that it is not done
itself. -/
def ShownIn (a : Pending) (p : Program) : Prop :=
  ∃ m, p.modules[(a.home : Nat)]? = some m ∧ m.status = .loading ∧ m.ast = some a.ast ∧ m.resolved = none ∧
    m.exports.entries = a.exports

/-- The tables of a module have all that was bound when the statements were done, as it was, and they have more only of
the statements behind. -/
structure Bound (a : Pending) (t : Resolved) : Prop where
  kept : ∀ {id : Nat} {b}, a.resolution.scopes.bindings[id]? = some b → t.scopes.bindings[id]? = some b
  behind : ∀ {id : Nat} {b}, t.scopes.bindings[id]? = some b → a.resolution.scopes.bindings.size ≤ id →
    ∀ s ∈ a.done, s.span.stop < b.visibleFrom

lemma ShownIn.keeps {a : Pending} {p p' : Program} {growing : Nat → Prop} (h : a.ShownIn p) (keeps : p.Keeps growing p')
    (fixed : ¬ growing a.home) : a.ShownIn p' := by
  obtain ⟨m, found, status, ast, resolved, exports⟩ := h
  obtain ⟨m', found', kept⟩ := keeps.modules found
  exact ⟨m', found', kept.status.trans status, kept.ast.trans ast, kept.resolved.trans resolved,
    kept.same fixed ▸ exports⟩

end Pending

variable {load : Loader} {r : Resolution} {lo hi stop : Nat}

/-- Behind some statements a resolution is ready for the next ones. -/
lemma Resolve.topLevel_placed {done rest : List Statement} (keeps : load.KeepsOffers) (answers : load.Answers)
    (ordered : ∀ s ∈ done ++ rest, s.Ordered) (order : Span.InOrder lo stop ((done ++ rest).map Statement.span))
    (top : r.current = Scopes.root) (tidy : r.Tidy) (ready : r.Ready lo hi) (inside : stop ≤ hi) :
    ∃ mark, lo ≤ mark ∧ (∀ s ∈ done, s.span.stop < mark) ∧ Span.InOrder mark stop (rest.map Statement.span) ∧
      (after (topLevel load done) r).current = Scopes.root ∧ (after (topLevel load done) r).Tidy ∧
        (after (topLevel load done) r).Ready mark hi := by
  induction done generalizing r lo with
  | nil => exact ⟨lo, Nat.le_refl _, nofun, order, top, tidy, ready⟩
  | cons s done ih =>
    cases order with
    | cons le proper behind =>
      have walks := Statement.walks keeps answers s (ordered s List.mem_cons_self)
      have := behind.le
      have first := walks true none (fun _ => top) tidy (ready.narrow le (Nat.le_refl _)) (by omega)
      have proper' : s.span.start < s.span.stop := proper
      obtain ⟨mark, above, before, placed⟩ := ih (fun s member => ordered s (List.mem_cons_of_mem _ member)) behind
        (first.current.trans top) (first.tidy keeps tidy) (first.ready tidy ready (Nat.lt_succ_self _) (by omega))
      exact ⟨mark, by omega, List.forall_mem_cons.2 ⟨above, before⟩, placed⟩

namespace Program

variable {p : Program} {raw : String} {depth : Nat} {a : Pending}

lemma Opens.keeps (h : p.Opens raw depth a) : p.Keeps (· = p.modules.size) a.resolution.program := by
  obtain ⟨work, -⟩ := h.changes.keeps (loader_keeps depth)
  obtain ⟨path, source, -, start⟩ := h.start
  rw [start] at work
  exact starting_keeps.trans (work.mono fun _ => And.right)

/-- Behind some statements a program shows what they export. -/
lemma Opens.shown (h : p.Opens raw depth a) : a.ShownIn a.resolution.program := by
  obtain ⟨work, sameHome⟩ := h.changes.keeps (loader_keeps depth)
  obtain ⟨path, source, -, start⟩ := h.start
  have there := @starting_modules p path source a.ast p.modules.size
  rw [if_pos rfl] at there
  have home : a.start.home = p.modules.size := by rw [start]; rfl
  rw [← h.home] at there home
  have program : a.start.program = p.starting path source a.ast := by rw [start]; rfl
  rw [← program] at there
  obtain ⟨m, found, kept⟩ := work.modules there
  have started : a.start.Exported [] := by
    refine ⟨home ▸ (Array.getElem?_eq_some_iff.1 there).1, ?_⟩
    rw [home, exportsOf, there]
    rfl
  have exported : a.resolution.Exported a.exports := Resolve.topLevel_exports (loader_keeps a.depth) started
  refine ⟨m, found, kept.status, kept.ast, kept.resolved, ?_⟩
  rw [← exported.entries, sameHome, home, exportsOf, found]

/-- Nothing is shown of a statement while it asks for a module. -/
lemma asks_settles {s : Statement} {p' : Program} {raw' : String}
    (asks : Asks (fun load => Resolve.statement load true none s) (loader depth) a.resolution p' raw') :
    a.resolution.program.Settles p' := by
  obtain ⟨i, asking, -, -, rfl, changes⟩ := Statement.asks s asks
  exact (changes.keeps (loader_keeps depth)).1.mono fun _ grows => Bool.false_ne_true grows.1

/-- While a load is under way, the modules that are being resolved show what they have exported, and all others are
loaded. -/
lemma Loading.shows {p₀ : Program} {raw₀ : String} {pending : List Pending}
    (loaded : ∀ {i : Nat} {m}, p₀.modules[i]? = some m → m.status = .loaded) (loading : p₀.Loading raw₀ depth pending p raw) :
    (∀ a ∈ pending, a.ShownIn p) ∧
      ∀ {i : Nat} {m}, p.modules[i]? = some m → m.status = .loading → ∃ a ∈ pending, (a.home : Nat) = i := by
  induction loading with
  | request =>
    refine ⟨nofun, fun found status => ?_⟩
    rw [loaded found] at status
    cases status
  | @nested depth pending p raw a s rest p' raw' _ opens _ asks ih =>
    obtain ⟨shown, others⟩ := ih
    have settles := asks_settles asks
    have keeps : p.Keeps (· = p.modules.size) p' := opens.keeps.trans (settles.mono fun _ => False.elim)
    constructor
    · refine List.forall_mem_cons.2 ⟨opens.shown.keeps settles not_false, fun b member => ?_⟩
      have shownBefore := shown b member
      refine shownBefore.keeps keeps fun (same : (b.home : Nat) = p.modules.size) => ?_
      obtain ⟨m, found, -⟩ := shownBefore
      simp [same] at found
    · intro i m' found status
      rcases Nat.lt_or_ge i p.modules.size with old | new
      · obtain ⟨m, found', kept⟩ := keeps.module_of_lt old found
        obtain ⟨b, member, home⟩ := others found' (kept.status.symm.trans status)
        exact ⟨b, List.mem_cons_of_mem _ member, home⟩
      · rcases keeps.new new found with done | home
        · rw [done] at status
          cases status
        · exact ⟨a, List.mem_cons_self, opens.home.trans home.symm⟩

/-! ### Tables -/

/-- A module has its syntax, and no tables before it is done. -/
lemma Opens.unfinished (h : p.Opens raw depth a) : ∃ m, a.finished.program.modules[(a.home : Nat)]? = some m ∧
    m.ast = some a.ast ∧ m.resolved = none := by
  obtain ⟨path, source, -, start⟩ := h.start
  have there := @starting_modules p path source a.ast p.modules.size
  rw [if_pos rfl, ← h.home] at there
  obtain ⟨work, -⟩ := (Resolve.module_changes (loader a.depth) a.ast a.start).keeps (loader_keeps a.depth)
  rw [start] at work
  obtain ⟨m, found, kept⟩ := work.modules there
  rw [← start] at found
  exact ⟨m, found, kept.ast, kept.resolved⟩

/-- A module has no faults of its own before it is done. -/
lemma Opens.unfinished_own (h : p.Opens raw depth a) {m : LoadedModule}
    (found : a.finished.program.modules[(a.home : Nat)]? = some m) : Fault.own m.faults = [] := by
  obtain ⟨path, source, -, start⟩ := h.start
  have there := @starting_modules p path source a.ast p.modules.size
  rw [if_pos rfl, ← h.home] at there
  obtain ⟨work, -⟩ := (Resolve.module_changes (loader a.depth) a.ast a.start).keeps (loader_keeps a.depth)
  rw [start] at work
  obtain ⟨m', found', kept⟩ := work.modules there
  rw [← start] at found'
  cases found.symm.trans found'
  exact kept.own

/-- When a module is done, nothing more happens but that modules fail. -/
lemma Opens.settles (h : p.Opens raw depth a) : a.concluded.Settles (loader (depth + 1) p raw).2 := by
  let tabled := a.finished.program.modify a.home fun m => { m with resolved := some a.finished.resolved }
  let marked := tabled.modify a.home fun m => { m with faults := m.faults ++ a.finished.faults, status := .loaded }
  have finishes : marked.Settles (tabled.finish a.home a.finished.faults) := finish_keeps
  have same : marked = a.concluded := modify_modify
  rw [h.answered, ← h.home]
  exact same ▸ finishes

/-- When a module is done, it has what its resolution found out. -/
lemma Opens.done (h : p.Opens raw depth a) : ∃ m, (loader (depth + 1) p raw).2.modules[(a.home : Nat)]? = some m ∧
    m.ast = some a.ast ∧ m.resolved = some a.finished.resolved ∧ a.finished.faults ⊆ m.faults := by
  obtain ⟨m, found, ast, -⟩ := h.unfinished
  have there : a.concluded.modules[(a.home : Nat)]? = some (m.done (some a.finished.resolved) a.finished.faults) := by
    rw [Pending.concluded, modify_modules, if_pos rfl, found]
    rfl
  obtain ⟨m', found', kept⟩ := h.settles.modules there
  exact ⟨m', found', kept.ast.trans ast, kept.resolved, List.Subset.trans (List.subset_append_right _ _) kept.faults⟩

/-- When a module is done, its own faults are those of its resolution. -/
lemma Opens.done_own (h : p.Opens raw depth a) {m : LoadedModule}
    (found : (loader (depth + 1) p raw).2.modules[(a.home : Nat)]? = some m) : Fault.own m.faults = Fault.own a.finished.faults := by
  obtain ⟨m₀, known, -⟩ := h.unfinished
  have there : a.concluded.modules[(a.home : Nat)]? = some (m₀.done (some a.finished.resolved) a.finished.faults) := by
    rw [Pending.concluded, modify_modules, if_pos rfl, known]
    rfl
  obtain ⟨m', found', kept⟩ := h.settles.modules there
  cases found.symm.trans found'
  refine kept.own.trans (Fault.own_append.trans ?_)
  rw [h.unfinished_own known, List.nil_append]

/-- When a module is done, other modules that are done have what they had. -/
lemma Opens.lasts (h : p.Opens raw depth a) {i : Nat} {m : LoadedModule}
    (found : a.finished.program.modules[i]? = some m) (resolved : m.resolved.isSome) :
    ∃ m', (loader (depth + 1) p raw).2.modules[i]? = some m' ∧ m.Kept True m' := by
  obtain ⟨unfinished, found', -, untabled⟩ := h.unfinished
  have other : (a.home : Nat) ≠ i := by
    rintro rfl
    rw [found, Option.some.injEq] at found'
    subst found'
    simp [untabled] at resolved
  have there : a.concluded.modules[i]? = some m := by rw [Pending.concluded, modify_modules, if_neg other, found]
  obtain ⟨m', found', kept⟩ := h.settles.modules there
  exact ⟨m', found', kept.mono fun _ => trivial⟩

/-- Modules that are done when a request is answered keep what they have while the load goes on. -/
lemma Loading.lasts {p₀ : Program} {raw₀ : String} {pending : List Pending} (loading : p₀.Loading raw₀ depth pending p raw)
    {i : Nat} {m : LoadedModule} (found : (loader depth p raw).2.modules[i]? = some m) (resolved : m.resolved.isSome) :
    ∃ m', (p₀.load raw₀).2.modules[i]? = some m' ∧ m.Kept True m' := by
  induction loading generalizing m with
  | request => exact ⟨m, found, .refl⟩
  | @nested depth pending p raw a s rest p' raw' _ opens next asks ih =>
    have traced : Traced (loader depth) s.mentions true fun load => Resolve.statement load true none s :=
      Statement.top_traced s (List.Subset.refl _) none
    obtain ⟨-, asking, -, -, rfl, -, behind⟩ := traced.asks asks
    obtain ⟨m₁, found₁, kept₁⟩ := (behind.keeps (loader_keeps depth)).1.modules found
    have remaining := Resolve.remaining_changes (loader depth) a.ast rest
      (after (Resolve.statement (loader depth) true none s) a.resolution)
    have finished : a.finished = after (Resolve.remaining (loader depth) a.ast rest)
        (after (Resolve.statement (loader depth) true none s) a.resolution) := by
      rw [opens.finished, next]
      rfl
    obtain ⟨m₂, found₂, kept₂⟩ := (remaining.keeps (loader_keeps depth)).1.modules found₁
    rw [← finished] at found₂
    have resolved₂ : m₂.resolved.isSome := by rwa [kept₂.resolved, kept₁.resolved]
    obtain ⟨m₃, found₃, kept₃⟩ := opens.lasts found₂ resolved₂
    obtain ⟨m₄, found₄, kept₄⟩ := ih found₃ (by rwa [kept₃.resolved])
    have kept := (kept₁.mono fun _ => trivial).trans (kept₂.mono fun _ => trivial)
    exact ⟨m₄, found₄, (kept.trans kept₃).trans kept₄⟩

/-- Modules that have been opened have, when the load is over, what their resolution found out. -/
lemma Loading.opened {p₀ : Program} {raw₀ : String} {pending : List Pending}
    (loading : p₀.Loading raw₀ (depth + 1) pending p raw) (opens : p.Opens raw depth a) :
    ∃ m, (p₀.load raw₀).2.modules[(a.home : Nat)]? = some m ∧ m.ast = some a.ast ∧
      m.resolved = some a.finished.resolved ∧ a.finished.faults ⊆ m.faults := by
  obtain ⟨m, found, ast, resolved, faults⟩ := opens.done
  obtain ⟨m', found', kept⟩ := loading.lasts found (by simp [resolved])
  exact ⟨m', found', kept.ast.trans ast, kept.resolved.trans resolved, List.Subset.trans faults kept.faults⟩

/-- Tables that there are when a request is answered stay while the load goes on. -/
lemma Loading.remains {p₀ : Program} {raw₀ : String} {pending : List Pending} (loading : p₀.Loading raw₀ depth pending p raw)
    {i : ModuleId} {t : Resolved} (known : (loader depth p raw).2.resolvedOf i = some t) :
    (p₀.load raw₀).2.resolvedOf i = some t := by
  obtain ⟨m, found, resolved⟩ := Option.bind_eq_some_iff.1 known
  obtain ⟨m', found', kept⟩ := loading.lasts found (by simp [resolved])
  exact Option.bind_eq_some_iff.2 ⟨m', found', kept.resolved.trans resolved⟩

lemma loadAll_keeps (paths : List String) : p.Settles (p.loadAll paths) := by
  induction paths generalizing p with
  | nil => exact .refl
  | cons raw paths ih => exact (loader_keeps (p.sources.limit + 1) p raw).trans ih

/-- A module goes on behind the statements that are done. -/
lemma Opens.later (h : p.Opens raw depth a) (offers : p.Offers) :
    ∃ mark, (∀ s ∈ a.done, s.span.stop < mark) ∧ a.resolution.Later mark a.finished := by
  obtain ⟨path, source, parsed, start⟩ := h.start
  obtain ⟨⟨hi, order⟩, ordered⟩ := Module.parse_ordered parsed
  obtain ⟨keeps, answers⟩ := loader_keepsOffers a.depth
  have inside : p.modules.size < (p.starting path source a.ast).modules.size := by simp [starting_size]
  have tidy : a.start.Tidy := start ▸ Resolution.tidy_start (withSyntax_offers (enter_offers offers)) inside
  have ready : a.start.Ready 0 hi := start ▸ Resolution.start_ready
  rw [h.statements] at order ordered
  have top : a.start.current = Scopes.root := start ▸ rfl
  obtain ⟨mark, -, before, order, top, tidy, ready⟩ :=
    Resolve.topLevel_placed keeps answers ordered order top tidy ready (Nat.le_refl _)
  have walks := Statement.all_walk keeps answers a.rest fun s member => ordered s (List.mem_append_right _ member)
  have rest := Resolve.topLevel_walked keeps top walks order tidy ready (Nat.le_refl _)
  have concluded := rest.andQuiet (Resolve.conclude_quiet a.ast)
  rw [h.finished, ← h.depth_eq]
  exact ⟨mark, before, concluded.moves.spread.later⟩

/-- When a module is done, its tables have what was bound when some statements were done. -/
lemma Opens.bound (h : p.Opens raw depth a) (offers : p.Offers) : a.Bound a.finished.resolved := by
  obtain ⟨mark, before, later⟩ := h.later offers
  exact ⟨later.scopes.bindings, fun found new s member =>
    Nat.lt_of_lt_of_le (before s member) (later.scopes.newBinding found new)⟩

/-- The modules that are being resolved come to have tables with all that they have bound. -/
lemma Loading.bound {p₀ : Program} {raw₀ : String} {pending : List Pending} (canonical : p₀.Canonical)
    (loading : p₀.Loading raw₀ depth pending p raw) :
    ∀ a ∈ pending, ∃ t, (p₀.load raw₀).2.resolvedOf a.home = some t ∧ a.Bound t := by
  induction loading with
  | request => exact nofun
  | nested outer opens _ _ ih =>
    have offers := (canonical.loading outer).isOffers
    obtain ⟨m, found, -, resolved, -⟩ := outer.opened opens
    exact List.forall_mem_cons.2 ⟨⟨_, Option.bind_eq_some_iff.2 ⟨m, found, resolved⟩, opens.bound offers⟩, ih⟩

/-- Modules that import each other see of each other what stands before: whenever a load asks for a module, each module that
is still being resolved shows what its statements export that are done, in order, and no other is still being resolved.
What others have bound of it does not change when it exports more: the tables of a module that is done stay as they are,
and those of a module that is being resolved keep what is bound and get more only of the statements behind. -/
theorem loading_shows (sources : Sources) (policy : GlobPolicy) (hosts : Hosts) (paths : List String) {raw₀ : String}
    {pending : List Pending} (loading : ((new sources policy hosts).loadAll paths).Loading raw₀ depth pending p raw) :
    let final (more : List String) := (((new sources policy hosts).loadAll paths).load raw₀).2.loadAll more
    (∀ a ∈ pending, a.ShownIn p) ∧
      (∀ {i : Nat} {m}, p.modules[i]? = some m → m.status = .loading → ∃ a ∈ pending, (a.home : Nat) = i) ∧
      (∀ i t, p.resolvedOf i = some t → ∀ more, (final more).resolvedOf i = some t) ∧
      ∀ a ∈ pending, ∃ t, (∀ more, (final more).resolvedOf a.home = some t) ∧ a.Bound t := by
  intro final
  have rest : ((new sources policy hosts).loadAll paths).AtRest := (atRest_new.loadAll paths).1
  have canonical : ((new sources policy hosts).loadAll paths).Canonical := canonical_new.loadAll paths
  obtain ⟨shown, others⟩ := loading.shows rest.loaded
  have later {i : ModuleId} {t : Resolved} (more : List String)
      (known : (((new sources policy hosts).loadAll paths).load raw₀).2.resolvedOf i = some t) :
      (final more).resolvedOf i = some t := (loadAll_keeps more).resolvedOf known
  refine ⟨shown, others, fun i t known more => ?_, fun a member => ?_⟩
  · exact later more (loading.remains ((loader_keeps depth p raw).resolvedOf known))
  · obtain ⟨t, resolved, bound⟩ := loading.bound canonical a member
    exact ⟨t, fun more => later more resolved, bound⟩

/-- A program of which nothing is loaded, with two modules that import each other. -/
def exchanging : Program :=
  new (.ofTexts (.ofList [("main.kcl", "export t = true\nimport \"lib\"\nexport u = t\n"),
    ("lib.kcl", "export s = true\nimport * from \"main\"\n")])) .eager .prelude

/-- When the second module asks for the first, the first shows its first definition, and not yet the other. -/
theorem loading_shows_exchanging : ∃ a b p, exchanging.Loading "main" 1 [b, a] p "main" ∧
    a.exports.map Export.name = ["t"] ∧ a.ShownIn p ∧ b.exports.map Export.name = ["s"] ∧ b.ShownIn p ∧
    (∃ t, (exchanging.load "main").2.resolvedOf b.home = some t ∧ b.Bound t) ∧
    ((exchanging.load "main").2.exportsOf a.home).names = ["t", "u"] := by
  have computed : ((exchanging.open? "main" 2 1).any fun a =>
      decide (a.exports.map Export.name = ["t"]) &&
      decide (((exchanging.load "main").2.exportsOf a.home).names = ["t", "u"]) &&
      nextImports "lib" a.rest &&
      (a.resolution.program.open? "lib" 1 1).any fun b =>
        decide (b.exports.map Export.name = ["s"]) &&
        nextImports "main" b.rest) = true := by
    decide +kernel
  simp only [Option.any_eq_true, Bool.and_eq_true, decide_eq_true_eq] at computed
  obtain ⟨a, opened, ⟨⟨exports, later⟩, asks⟩, b, opened', exports', asks'⟩ := computed
  obtain ⟨i, _, rest, path⟩ := nextImports_iff.1 asks
  obtain ⟨i', _, rest', path'⟩ := nextImports_iff.1 asks'
  have first : exchanging.Loading "main" 3 [] exchanging "main" := .request
  have second : exchanging.Loading "main" 2 [a] a.resolution.program i.path :=
    .nested first (opens_of_open? opened) rest (i.asks _ _)
  rw [path] at second
  have third : exchanging.Loading "main" 1 [b, a] b.resolution.program i'.path :=
    .nested second (opens_of_open? opened') rest' (i'.asks _ _)
  rw [path'] at third
  obtain ⟨shown, -, -, bound⟩ := loading_shows _ _ _ [] third
  obtain ⟨t, resolved, binds⟩ := bound b List.mem_cons_self
  exact ⟨a, b, _, third, exports, shown a (List.mem_cons_of_mem _ List.mem_cons_self), exports',
    shown b List.mem_cons_self, ⟨t, resolved [], binds⟩, later⟩

end Program

end PipeLang
