import PipeLang.Proofs.Load.Presented
import PipeLang.Proofs.Resolve.Decided

/-!
# Decided uses of loaded modules

Behind any loads, every use of a name or path in a module that parses is decided as its resolution has decided it: what
happens to other modules later adds no fault of a name. Main statement: `Program.uses_decided`.
-/

namespace PipeLang

namespace Fault

/-- A fault of a name does not pass on the failure of another module. -/
lemma not_passedOn {f : Fault} (about : f.isAboutName = true) : f.isPassedOn = false := by
  cases f with
  | dependencyFailed => cases about
  | _ => rfl

/-- All faults of names are a module's own. -/
lemma namesIn_own {faults : List Fault} {place : Span} : namesIn (own faults) place = namesIn faults place := by
  rw [namesIn, own, List.filter_filter, namesIn]
  refine List.filter_congr fun f _ => ?_
  cases about : f.isAboutName with
  | false => rfl
  | true => simp [not_passedOn about]

end Fault

/-- More faults that are not a module's own change nothing of what is decided. -/
lemma Resolved.Decided.later {t : Resolved} {faults faults' : List Fault} {ast : Module} (h : t.Decided faults ast)
    (same : Fault.own faults' = Fault.own faults) (sub : faults ⊆ faults') : t.Decided faults' ast := by
  have names (place : Span) : Fault.namesIn faults' place = Fault.namesIn faults place := by
    rw [← Fault.namesIn_own, same, Fault.namesIn_own]
  refine ⟨fun o member head known => ?_, fun f member ident missing => ?_⟩
  · cases h.uses o member head known with
    | recorded found none => exact .recorded found ((names _).trans none)
    | blamed missing one => exact .blamed missing ((names _).trans one)
    | kept missing none looked found invalid imported keeps fails =>
      exact .kept missing ((names _).trans none) looked found invalid imported keeps (fails.mono sub)
  · obtain ⟨about, -⟩ := Fault.about_unbound missing
    have own : f ∈ Fault.own faults' := List.mem_filter.2 ⟨member, by simp [Fault.not_passedOn about]⟩
    rw [same] at own
    exact h.unbound f (List.mem_filter.1 own).1 ident missing

namespace Program

variable {p : Program} {raw : String} {depth : Nat} {a : Pending}

/-- The uses in a module that has been opened are decided when it is done. -/
lemma Opens.decided (h : p.Opens raw depth a) (offers : p.Offers)
    (visible : a.finished.scopes.AllVisible Resolved.behindAll) :
    a.finished.resolved.Decided a.finished.faults a.ast := by
  obtain ⟨path, source, parsed, start⟩ := h.start
  obtain ⟨order, ordered⟩ := Module.parse_ordered parsed
  obtain ⟨keeps, answers⟩ := loader_keepsOffers depth
  have inside : p.modules.size < (p.starting path source a.ast).modules.size := by simp [starting_size]
  rw [Pending.finished, h.depth_eq, start] at visible ⊢
  exact Resolve.module_decided keeps answers (withSyntax_offers (enter_offers offers)) inside order ordered
    (Module.parse_placed parsed) @visible

/-- Behind any loads of texts, in every module that parses each use of a name or path is decided in one way: a reference is
recorded at its place, or exactly one fault of a name lies in it, or neither. In the last case its first name is found as a
binding that stands in for what an import statement did not bring, and that statement has been reported itself. A fault that says
of a name that it is not bound where it stands is what the finished table says of a name that is looked up there. -/
theorem uses_decided {sources : Sources} {policy : GlobPolicy} {hosts : Hosts} {paths : List String}
    (addressable : sources.Addressable) {id : Nat} {m : LoadedModule} {ast : Module}
    (found : ((new sources policy hosts).loadAll paths).modules[id]? = some m) (parsed : m.ast = some ast) :
    ∃ t, m.resolved = some t ∧ t.Decided m.faults ast := by
  have rest : ((new sources policy hosts).loadAll paths).AtRest := (atRest_new.loadAll paths).1
  have isSome := rest.sound.parsed found (rest.loaded found) (by simp [parsed])
  cases loadAll_opened found isSome with
  | @mk q raw depth a settings canonical opens home sameAst resolved faults retains exports own =>
    cases parsed.symm.trans sameAst
    refine ⟨_, resolved, (opens.decided canonical.isOffers ?_).later own faults⟩
    have linked := loadAll_linked found parsed resolved
    have same : q.sources = sources := sources_of_settings (settings.trans (loadAll_settings paths))
    have behind : a.ast.span.stop ≤ Resolved.behindAll := by
      cases opens with
      | mk named unknown read parses =>
        rw [Module.parse_stop parses]
        exact addressable _ _ (same ▸ read)
    intro id b bound
    exact (linked.visible bound).trans behind

/-- A module of which an import fails, and whose names come to different things. -/
def mixed : Program :=
  new (.ofTexts (.ofList [("main.kcl", "import \"missing\"\nf = missing\nc = d\nd = e\ng = c::x\nh = c\n")])) .eager .empty

/-- One name has a reference, a path is blamed, two names are not bound where they stand, of which one is declared later, and one
name is kept by the import. -/
theorem uses_decided_mixed : ∃ m ast t, (mixed.loadAll ["main"]).modules[0]? = some m ∧ m.ast = some ast ∧
    m.resolved = some t ∧ t.Decided m.faults ast ∧ (t.references.get? ⟨54, 55⟩).isSome ∧
    (Fault.namesIn m.faults ⟨45, 49⟩).length = 1 ∧
    (Fault.namesIn m.faults ⟨0, 56⟩).filterMap Fault.unbound? = [⟨"d", ⟨33, 34⟩⟩, ⟨"e", ⟨39, 40⟩⟩] ∧
    (t.scopes.firstAlong "d" (t.scopes.path (t.scopes.scopeAt 33))).isSome ∧
    t.scopes.firstAlong "e" (t.scopes.path (t.scopes.scopeAt 39)) = none ∧
    ∃ id i, t.lookupAt "missing" 21 = .found id ∧ .importing i ∈ ast.occurrences ∧ i.Fails m.faults := by
  have computed : ((mixed.open? "main" 1 0).any fun a =>
      decide (a.home = 0) &&
      decide ((some ⟨"missing", ⟨21, 28⟩⟩, ⟨21, 28⟩) ∈ a.ast.occurrences.map fun o => (o.head?, o.span)) &&
      (a.finished.resolved.references.get? ⟨54, 55⟩).isSome && (a.finished.resolved.references.get? ⟨21, 28⟩).isNone &&
      decide ((Fault.namesIn a.finished.faults ⟨45, 49⟩).length = 1) && (Fault.namesIn a.finished.faults ⟨21, 28⟩).isEmpty &&
      decide ((Fault.namesIn a.finished.faults ⟨0, 56⟩).filterMap Fault.unbound? = [⟨"d", ⟨33, 34⟩⟩, ⟨"e", ⟨39, 40⟩⟩]) &&
      (a.finished.scopes.firstAlong "d" (a.finished.scopes.path (a.finished.scopes.scopeAt 33))).isSome &&
      (a.finished.scopes.firstAlong "e" (a.finished.scopes.path (a.finished.scopes.scopeAt 39))).isNone) = true := by
    decide +kernel
  simp only [Option.any_eq_true, Bool.and_eq_true, decide_eq_true_eq, Option.isNone_iff_eq_none, List.isEmpty_iff,
    List.mem_map, Prod.mk.injEq] at computed
  obtain ⟨a, opened, ⟨⟨⟨⟨⟨⟨⟨home, o, member, head, place⟩, recorded⟩, unrecorded⟩, blamed⟩, none⟩, unbound⟩, later⟩,
    never⟩ := computed
  have opens : mixed.Opens "main" 1 a := opens_of_open? opened
  obtain ⟨m, found, ast, resolved, -⟩ := opens.done
  have namesIn (place : Span) : Fault.namesIn m.faults place = Fault.namesIn a.finished.faults place := by
    rw [← Fault.namesIn_own, opens.done_own found, Fault.namesIn_own]
  replace found : (mixed.loadAll ["main"]).modules[0]? = some m := home ▸ found
  have addressable : mixed.sources.Addressable := Sources.ofTexts_addressable (by decide +kernel)
  obtain ⟨t, tables, decided⟩ := uses_decided addressable found ast
  cases resolved.symm.trans tables
  refine ⟨m, a.ast, _, found, ast, resolved, decided, recorded, by rw [namesIn, blamed], by rw [namesIn, unbound], later,
    never, ?_⟩
  cases decided.uses o member ⟨"missing", ⟨21, 28⟩⟩ head with
  | recorded known => rw [place, unrecorded] at known; cases known
  | blamed _ one => rw [place, namesIn, none] at one; cases one
  | kept _ _ looked _ _ imported _ fails => exact ⟨_, _, looked, imported, fails⟩

end Program

end PipeLang
