import PipeLang.Proofs.Load.Moments
import PipeLang.Proofs.Load.Spans
import PipeLang.Proofs.Reader.Shaped
import PipeLang.Proofs.Resolve.LoopTags
import PipeLang.Proofs.Syntax.Spelled

/-!
# How names of frames are laid out

The names that are given values in frames have places of their own, and so do the bindings that they introduce:
`Program.loadAll_laid`.
-/

namespace PipeLang

open Resolve (after siteOf)

/-- The names in the frames of a module have places of their own. A name introduces a binding at its place, and a loop collects no
others than the tags in its body. -/
structure Module.Laid (m : Module) (t : Resolved) : Prop where
  shaped : Piece.AllShaped m.pieces
  distinct : ((m.names ++ Piece.allNames m.pieces).map Ident.span).Nodup
  declared : ∀ {site} {id : BindingId}, t.declarations.get? site = some id → siteOf t.scopes id = site
  gathered : ∀ {l}, .loop l ∈ m.pieces → (((t.loopTags.get? l.span).getD []).map (siteOf t.scopes)).Subperm
    ((Stage.allTags l.body.stages).map Ident.span)

/-- No two nodes of a text are at one place. -/
lemma Module.places_nodup {source : String} {m : Module} (parsed : Module.parse source = .ok m) (kind : Node.Kind)
    (other : kind ≠ .other) : (Node.places kind [m.node]).Nodup := by
  have distinct := (Module.parse_identified parsed).distinct kind other
  simpa [Node.spansOf, Node.places, Node.allOf] using distinct

namespace Program

/-- Behind any loads, the names of frames are laid out so in every module that has been resolved. -/
theorem loadAll_laid {sources : Sources} {policy : GlobPolicy} {hosts : Hosts} {paths : List String} {id : Nat}
    {l : LoadedModule} {m : Module} {t : Resolved} (found : ((new sources policy hosts).loadAll paths).modules[id]? = some l)
    (parsed : l.ast = some m) (resolved : l.resolved = some t) : m.Laid t := by
  cases loadAll_opened found (by simp [resolved]) with
  | @mk q raw depth a _ canonical opens _ ast tables _ _ _ =>
    obtain rfl : a.ast = m := Option.some.inj (ast.symm.trans parsed)
    obtain rfl : a.finished.resolved = t := Option.some.inj (tables.symm.trans resolved)
    obtain ⟨_, _, -, done⟩ := opens.isDone canonical.isOffers
    obtain ⟨path, source, parsed, start⟩ := opens.start
    have identifiers := Module.places_nodup parsed .identifier nofun
    have loops := Module.places_nodup parsed .loop nofun
    have spelled := a.ast.spelled
    refine ⟨Module.parse_shaped parsed, nodup_of_subperm spelled.names identifiers, fun {site id} declared => ?_,
      fun {l} member => ?_⟩
    · obtain ⟨b, there, rfl⟩ := done.tidy.declared declared
      simp [siteOf, Resolution.resolved, there]
    · have gathers := Module.loop_gathers (loader depth) (q.starting path source a.ast) q.modules.size
        (nodup_of_subperm spelled.loops loops) member
      rwa [← start, ← opens.depth_eq, ← Pending.finished] at gathers

/-- Behind any loads, a binding that the module keeps for itself is found in frames by itself. -/
theorem loadAll_inner {sources : Sources} {policy : GlobPolicy} {hosts : Hosts} {paths : List String} {id : Nat}
    {l : LoadedModule} {t : Resolved} (found : ((new sources policy hosts).loadAll paths).modules[id]? = some l)
    (resolved : l.resolved = some t) {i : Nat} {b : Binding} {k : BindingId} (there : t.scopes.bindings[i]? = some b)
    (target : b.target = .inner k) : k = i := by
  cases loadAll_opened found (by simp [resolved]) with
  | @mk q raw depth a _ canonical opens _ _ tables _ _ _ =>
    obtain rfl : a.finished.resolved = t := Option.some.inj (tables.symm.trans resolved)
    exact ((opens.done_accounted canonical.isOffers canonical.shown).inner there k target).1

/-- Behind any loads, a loop of a usable module collects every tag in its body. -/
theorem loadAll_collects {sources : Sources} {policy : GlobPolicy} {hosts : Hosts} {paths : List String} {id : Nat}
    {l : LoadedModule} {m : Module} {t : Resolved} (found : ((new sources policy hosts).loadAll paths).modules[id]? = some l)
    (parsed : l.ast = some m) (resolved : l.resolved = some t) (usable : l.isUsable = true) {loop : Loop}
    (member : .loop loop ∈ m.pieces) {tag : Ident} (inside : tag ∈ Stage.allTags loop.body.stages) :
    ∃ id ∈ (t.loopTags.get? loop.span).getD [], t.declarations.get? tag.span = some id := by
  cases loadAll_opened found (by simp [resolved]) with
  | @mk q raw depth a _ canonical opens _ ast tables faults _ _ =>
    obtain rfl : a.ast = m := Option.some.inj (ast.symm.trans parsed)
    obtain rfl : a.finished.resolved = t := Option.some.inj (tables.symm.trans resolved)
    have clean : a.finished.faults = [] := List.subset_nil.1 ((LoadedModule.isUsable_iff.1 usable).2 ▸ faults)
    have accounted := opens.done_accounted canonical.isOffers canonical.shown
    obtain ⟨path, source, parsed, start⟩ := opens.start
    have loops := Module.places_nodup parsed .loop nofun
    have gathers := Module.loop_gathers_all (loader depth) (q.starting path source a.ast) q.modules.size
      (nodup_of_subperm a.ast.spelled.loops loops) member
    have isTag {collected : List BindingId} : _ → ∀ id ∈ collected, _ :=
      @Module.loop_isTag a.ast (loader depth) (q.starting path source a.ast) q.modules.size loop.span collected
    rw [← start, ← opens.depth_eq, ← Pending.finished] at gathers isTag
    obtain ⟨id, collected, site⟩ := List.mem_map.1 ((gathers clean).mem_iff.2 (List.mem_map_of_mem inside))
    refine ⟨id, collected, ?_⟩
    cases known : a.finished.loopTags.get? loop.span with
    | none => simp [known] at collected
    | some ids =>
      obtain ⟨b, there, target, -⟩ := isTag known id (by simpa [known] using collected)
      have declared := (accounted.inner there id target).2
      rwa [← site, siteOf, there]

end Program

end PipeLang
