import PipeLang.Proofs.Load.Linked
import PipeLang.Proofs.Load.Unique

/-!
# What the top level shows of exports

Seen from behind the text, a name that a module exports stands at the top level for what is exported under it, unless a
collision with a glob import has been deferred, so that the name is ambiguous there: `Program.loadAll_topLevel`.
-/

namespace PipeLang

namespace Scopes

variable {t : Scopes} {name : String} {offset : Nat}

/-- From the top level nothing is looked up further out. -/
lemma lookup_root (nested : t.Nested) : t.lookup root name offset =
    match (t.named root name).filter (t.isVisible offset) with
    | first :: others =>
      if others.all fun id => (t.target id).sameItem (t.target first) then .found first
      else .ambiguous (first :: others)
    | [] => t.lookupAlong name offset (t.named root name).head? [] := by
  rw [lookup, nested.root]
  rfl

/-- Where a binding at the top level is visible, its name is found and stands for the same, or it is ambiguous. -/
lemma lookup_visible (nested : t.Nested) {id : Nat} {b : Binding} (found : t.bindings[id]? = some b) (top : b.scope = root)
    (visible : b.visibleFrom ≤ offset) : (∃ (first : Nat) (b' : Binding), t.lookup root b.name offset = .found first ∧
      t.bindings[first]? = some b' ∧ (b' = b ∨ b.target.sameItem b'.target = true)) ∨
        ∃ ids, t.lookup root b.name offset = .ambiguous ids := by
  have among : id ∈ (t.named root b.name).filter (t.isVisible offset) := by
    refine List.mem_filter.2 ⟨mem_named.2 ⟨b, found, top, rfl⟩, ?_⟩
    simpa [isVisible, found] using visible
  rw [lookup_root nested]
  cases candidates : (t.named root b.name).filter (t.isVisible offset) with
  | nil =>
    rw [candidates] at among
    cases among
  | cons first others =>
    have named : first ∈ t.named root b.name := List.mem_of_mem_filter (candidates ▸ List.mem_cons_self)
    obtain ⟨b', found', -⟩ := mem_named.1 named
    rw [candidates] at among
    dsimp only
    split
    · next same =>
      refine Or.inl ⟨first, b', rfl, found', ?_⟩
      rcases List.mem_cons.1 among with rfl | behind
      · exact Or.inl (Option.some.inj (found'.symm.trans found))
      · have alike := List.all_eq_true.1 same id behind
        simp only [target, found, found'] at alike
        exact Or.inr alike
    · exact Or.inr ⟨_, rfl⟩

end Scopes

/-- Seen from behind the text, a name at the top level has several meanings. -/
def Resolved.Ambiguous (t : Resolved) (name : String) : Prop :=
  ∃ ids, t.scopes.lookup Scopes.root name Resolved.behindAll = .ambiguous ids

/-- Every text ends before the offset that is taken to lie behind it. -/
def Sources.Addressable (s : Sources) : Prop :=
  ∀ path source, s.read path = .ok source → source.utf8ByteSize ≤ Resolved.behindAll

/-- Texts in memory end before that offset if each of them does. -/
lemma Sources.ofTexts_addressable {t : Texts} (short : ∀ entry ∈ t.entries, entry.2.utf8ByteSize ≤ Resolved.behindAll) :
    (ofTexts t).Addressable := by
  intro path source read
  obtain ⟨external, file⟩ := path
  cases external with
  | some e => simp [Sources.read, ofTexts] at read
  | none =>
    cases found : t.get? ⟨none, file⟩ with
    | none => simp [Sources.read, ofTexts, found] at read
    | some text =>
      obtain rfl : text = source := by simpa [Sources.read, ofTexts, found] using read
      exact short _ (mem_of_lookup found)

lemma Module.parse_stop {source : String} {ast : Module} (parsed : Module.parse source = .ok ast) :
    ast.span.stop = source.utf8ByteSize := by
  simp only [Module.parse] at parsed
  cases scanned : Token.scan source with
  | error errors =>
    rw [scanned] at parsed
    cases parsed
  | ok tokens =>
    rw [scanned] at parsed
    change ofTokens source.utf8ByteSize tokens = .ok ast at parsed
    rw [ofTokens] at parsed
    split at parsed
    · cases parsed
      rfl
    · cases parsed

namespace Program

variable {sources : Sources} {policy : GlobPolicy} {hosts : Hosts} {paths : List String} {i : Nat} {m : LoadedModule}
  {ast : Module} {t : Resolved}

/-- In a module without faults every binding stands for something. -/
lemma loadAll_valid (found : ((new sources policy hosts).loadAll paths).modules[i]? = some m) (usable : m.isUsable = true)
    (resolved : m.resolved = some t) {id : Nat} {b : Binding} (bound : t.scopes.bindings[id]? = some b) :
    b.target ≠ .invalid := by
  cases loadAll_opened found (by simp [resolved]) with
  | mk settings canonical opens home ast' tables faults =>
    rw [resolved] at tables
    cases tables
    obtain ⟨path, source, -, done⟩ := opens.isDone canonical.isOffers
    intro invalid
    exact done.tidy.invalid bound invalid (List.subset_nil.1 ((LoadedModule.isUsable_iff.1 usable).2 ▸ faults))

/-- Behind any loads, a name that a usable module exports stands at its top level for what is exported under it, or it is
ambiguous there, and then the policy defers collisions. -/
theorem loadAll_topLevel (addressable : sources.Addressable)
    (found : ((new sources policy hosts).loadAll paths).modules[i]? = some m) (usable : m.isUsable = true)
    (resolved : m.resolved = some t) {e : Export} (member : e ∈ m.exports.entries) :
    (∃ b, t.topLevel? e.name = some b ∧ b.target = e.target) ∨ policy = .onUse ∧ t.Ambiguous e.name := by
  have valid {id : Nat} {b : Binding} : t.scopes.bindings[id]? = some b → b.target ≠ .invalid :=
    loadAll_valid found usable resolved
  cases loadAll_opened found (by simp [resolved]) with
  | @mk q raw depth a settings canonical opens home ast tables faults =>
    cases resolved.symm.trans tables
    have linked := loadAll_linked found ast resolved
    obtain ⟨path, source, -, done⟩ := opens.isDone canonical.isOffers
    have behind : a.ast.span.stop ≤ Resolved.behindAll := by
      have same : q.sources = sources := sources_of_settings (settings.trans (loadAll_settings paths))
      cases opens with
      | mk named unknown read parsed =>
        rw [Module.parse_stop parsed]
        exact addressable _ _ (same ▸ read)
    obtain ⟨id, b, bound, top, name, target⟩ := linked.presents e member
    have visible : b.visibleFrom ≤ Resolved.behindAll := (linked.visible bound).trans behind
    rcases Scopes.lookup_visible done.tidy.nested bound top visible with ⟨first, b', stands, bound', same⟩ | ambiguous
    · rw [name] at stands
      refine Or.inl ⟨b', ?_, ?_⟩
      · have meant : a.finished.resolved.scopes.lookup Scopes.root e.name Resolved.behindAll = .found first := stands
        rw [Resolved.topLevel?, meant]
        exact bound'
      · rw [← target]
        rcases same with rfl | same
        · rfl
        · by_contra apart
          rw [Target.sameItem_eq_false.2 ⟨valid bound, valid bound', Ne.symm apart⟩] at same
          cases same
    · refine Or.inr ⟨?_, name ▸ ambiguous⟩
      have same : q.policy = policy := congrArg (fun s => s.2.1) (settings.trans (loadAll_settings paths))
      have unique : a.finished.scopes.Unique q.policy := opens.unique canonical.isOffers
      obtain ⟨ids, ambiguous⟩ := ambiguous
      exact same ▸ (unique.ambiguous_glob ambiguous).1

end Program

end PipeLang
