import PipeLang.Proofs.Load.Opened

/-!
# Unique names

In one scope a name has one meaning, unless the policy defers collisions and one of the two meanings was brought by a
glob import. Every way by which a binding comes into a table keeps to that: `Move.unique`. A name that is found to be
ambiguous is therefore one that a glob import has brought: `Program.lookup_ambiguous`.
-/

namespace PipeLang

lemma Target.sameItem_eq_false {a b : Target} : a.sameItem b = false ↔ a ≠ .invalid ∧ b ≠ .invalid ∧ a ≠ b := by
  simp [sameItem, and_assoc]

/-- Two bindings of a name in a scope denote the same, or one of them has failed to be imported, or the policy defers
their collision because of a glob import. -/
def Scopes.Unique (policy : GlobPolicy) (t : Scopes) : Prop :=
  ∀ {i j : Nat} {b c}, t.bindings[i]? = some b → t.bindings[j]? = some c → b.name = c.name → b.scope = c.scope →
    b.target ≠ .invalid → c.target ≠ .invalid → b.target ≠ c.target →
    policy = .onUse ∧ (b.origin = .glob ∨ c.origin = .glob)

namespace Scopes

variable {t : Scopes} {policy : GlobPolicy}

lemma mem_named {scope : ScopeId} {name : String} {id : Nat} :
    id ∈ t.named scope name ↔ ∃ b, t.bindings[id]? = some b ∧ b.scope = scope ∧ b.name = name := by
  simp only [named, List.mem_filter, List.mem_range, Option.any_eq_true, Bool.and_eq_true, beq_iff_eq]
  constructor
  · exact And.right
  · rintro ⟨b, found, same⟩
    exact ⟨(Array.getElem?_eq_some_iff.1 found).1, b, found, same⟩

/-- A binding that nothing is in the way of shares its name with nothing else, or its collision is deferred. -/
lemma deferred_of_free {b c : Binding} {i : Nat} (free : Resolve.obstacle? policy t b = none)
    (found : t.bindings[i]? = some c) (name : c.name = b.name) (scope : c.scope = b.scope)
    (apart : c.target.sameItem b.target = false) : policy = .onUse ∧ (c.origin = .glob ∨ b.origin = .glob) := by
  simp only [Resolve.obstacle?, List.findSome?_eq_none_iff] at free
  have passed := free i (mem_named.2 ⟨c, found, scope, name⟩)
  simp only [found, apart, Bool.false_or] at passed
  split at passed
  · next deferred =>
    simp only [Bool.and_eq_true, Bool.or_eq_true, decide_eq_true_eq] at deferred
    exact deferred.symm
  · cases passed

/-- A name that has failed to be imported is in no one's way. -/
lemma Unique.keep {b : Binding} (h : t.Unique policy) (invalid : b.target = .invalid) : (t.insert b).Unique policy := by
  intro i j c d found found' name scope valid valid' apart
  rcases bindings_insert found with old | ⟨-, rfl⟩
  · rcases bindings_insert found' with old' | ⟨-, rfl⟩
    · exact h old old' name scope valid valid' apart
    · exact absurd invalid valid'
  · exact absurd invalid valid

/-- A binding that nothing is in the way of leaves names unique. -/
lemma Unique.bind {b : Binding} (h : t.Unique policy) (free : Resolve.obstacle? policy t b = none) :
    (t.insert b).Unique policy := by
  intro i j c d found found' name scope valid valid' apart
  rcases bindings_insert found with old | ⟨-, rfl⟩
  · rcases bindings_insert found' with old' | ⟨-, rfl⟩
    · exact h old old' name scope valid valid' apart
    · exact deferred_of_free free old name scope (Target.sameItem_eq_false.2 ⟨valid, valid', apart⟩)
  · rcases bindings_insert found' with old' | ⟨-, rfl⟩
    · have deferred := deferred_of_free free old' name.symm scope.symm
        (Target.sameItem_eq_false.2 ⟨valid', valid, apart.symm⟩)
      exact deferred.imp_right Or.symm
    · exact absurd rfl apart

/-- What is ambiguous on the way out of a scope is so in one of the scopes there: two bindings of the name in it denote
different things. -/
lemma lookupAlong_ambiguous {name : String} {offset : Nat} {later : Option BindingId} {scopes : List ScopeId}
    {ids : List BindingId} (h : t.lookupAlong name offset later scopes = .ambiguous ids) :
    ∃ scope, ∃ i ∈ ids, ∃ j ∈ ids, i ∈ t.named scope name ∧ j ∈ t.named scope name ∧
      (t.target i).sameItem (t.target j) = false := by
  induction scopes generalizing later with
  | nil => cases later <;> cases h
  | cons scope outer ih =>
    simp only [lookupAlong] at h
    split at h
    · next first others visible =>
      have among {id : BindingId} (member : id ∈ first :: others) : id ∈ t.named scope name :=
        List.mem_of_mem_filter (visible ▸ member)
      split at h
      · cases h
      · next differs =>
        cases h
        simp only [Bool.not_eq_true, List.all_eq_false] at differs
        obtain ⟨other, member, apart⟩ := differs
        exact ⟨scope, other, List.mem_cons_of_mem _ member, first, List.mem_cons_self,
          among (List.mem_cons_of_mem _ member), among List.mem_cons_self, by simpa using apart⟩
    · exact ih h

/-- Where names are unique, only a name that a glob import has brought can be ambiguous. -/
lemma Unique.ambiguous_glob (h : t.Unique policy) {scope : ScopeId} {name : String} {offset : Nat}
    {ids : List BindingId} (ambiguous : t.lookup scope name offset = .ambiguous ids) :
    policy = .onUse ∧ ∃ id ∈ ids, ∃ b, t.bindings[(id : Nat)]? = some b ∧ b.name = name ∧ b.origin = .glob := by
  obtain ⟨_, i, member, j, member', named, named', apart⟩ := lookupAlong_ambiguous ambiguous
  obtain ⟨b, found, scope, name⟩ := mem_named.1 named
  obtain ⟨c, found', scope', name'⟩ := mem_named.1 named'
  simp only [target, found, found'] at apart
  obtain ⟨valid, valid', differ⟩ := Target.sameItem_eq_false.1 apart
  obtain ⟨onUse, glob | glob⟩ := h found found' (name.trans name'.symm) (scope.trans scope'.symm) valid valid' differ
  · exact ⟨onUse, i, member, b, found, name, glob⟩
  · exact ⟨onUse, j, member', c, found', name', glob⟩

end Scopes

variable {load : Loader} {lo hi : Nat} {r r' : Resolution} {policy : GlobPolicy}

/-- A move leaves names unique and does not change the policy. -/
lemma Move.unique (kept : ∀ p raw, (load p raw).2.policy = p.policy) (move : Move load lo hi r r')
    (same : r.program.policy = policy) (h : r.scopes.Unique policy) :
    r'.program.policy = policy ∧ r'.scopes.Unique policy := by
  cases move with
  | bind free => exact ⟨same, h.bind (same ▸ free)⟩
  | declare declarable | define declarable | redefine declarable => exact ⟨same, h.bind (same ▸ declarable.free)⟩
  | keep => exact ⟨same, h.keep rfl⟩
  | load => exact ⟨(kept _ _).trans same, h⟩
  | _ => exact ⟨same, h⟩

/-- Moves leave names unique. -/
theorem Moves.unique (kept : ∀ p raw, (load p raw).2.policy = p.policy) (moves : Moves load lo hi r r')
    (same : r.program.policy = policy) (h : r.scopes.Unique policy) :
    r'.program.policy = policy ∧ r'.scopes.Unique policy := by
  induction moves with
  | refl => exact ⟨same, h⟩
  | tail _ move ih => exact move.unique kept ih.1 ih.2

namespace Program

/-- In a module that is opened names are unique, under the policy of the program. -/
lemma Opens.unique {p : Program} {raw : String} {depth : Nat} {a : Pending} (h : p.Opens raw depth a) (offers : p.Offers) :
    a.finished.scopes.Unique p.policy := by
  obtain ⟨path, source, -, done⟩ := h.isDone offers
  obtain ⟨hi, moves⟩ := done.moves
  have kept (q : Program) (raw : String) : (loader depth q raw).2.policy = q.policy :=
    congrArg (fun s => s.2.1) (loader_settings depth q raw)
  have same : (p.starting path source a.ast).policy = p.policy := rfl
  obtain ⟨-, unique⟩ := moves.unique kept same fun found => by simp [Resolution.start, Scopes.new] at found
  exact @unique

/-- In every module that is loaded a name has one meaning in one scope, unless the policy defers collisions and a
glob import has brought one of two meanings. No name is ambiguous, in whatever scope and at whatever offset, when the
policy does not defer collisions, and when it does then only a name that a glob import has brought. -/
theorem lookup_ambiguous (sources : Sources) (policy : GlobPolicy) (hosts : Hosts) (paths : List String) {i : Nat}
    {m : LoadedModule} {t : Resolved} (found : ((new sources policy hosts).loadAll paths).modules[i]? = some m)
    (resolved : m.resolved = some t) :
    t.scopes.Unique policy ∧
      (policy = .eager → ∀ scope name offset ids, t.scopes.lookup scope name offset ≠ .ambiguous ids) ∧
      ∀ scope name offset ids, t.scopes.lookup scope name offset = .ambiguous ids →
        policy = .onUse ∧ ∃ id ∈ ids, ∃ b, t.scopes.bindings[(id : Nat)]? = some b ∧ b.name = name ∧ b.origin = .glob := by
  cases loadAll_opened found (by simp [resolved]) with
  | @mk p raw depth a settings canonical opens home ast tables faults =>
    obtain rfl : a.finished.resolved = t := by simpa [resolved] using tables.symm
    have same : p.policy = policy := congrArg (fun s => s.2.1) (settings.trans (loadAll_settings paths))
    have unique : a.finished.scopes.Unique policy := same ▸ opens.unique canonical.isOffers
    refine ⟨unique, fun eager scope name offset ids ambiguous => ?_, fun scope name offset ids => unique.ambiguous_glob⟩
    obtain ⟨onUse, -⟩ := unique.ambiguous_glob ambiguous
    rw [eager] at onUse
    cases onUse

/-- A program whose policy defers collisions, with a module that imports everything from two others, which export
different things under one name. -/
def overlapping : Program :=
  (new (.ofTexts (.ofList [("a.kcl", "export t = true\n"), ("b.kcl", "export t = false\n"),
    ("main.kcl", "import * from \"a\"\nimport * from \"b\"\n")])) .onUse .empty).loadAll ["main"]

/-- The name is ambiguous, and both of its bindings come from the glob imports. -/
theorem lookup_ambiguous_overlapping : ∃ m t, overlapping.modules[0]? = some m ∧ m.resolved = some t ∧
    t.scopes.lookup Scopes.root "t" 100 = .ambiguous [0, 1] ∧ t.scopes.Unique .onUse ∧
    ∃ id ∈ [0, 1], ∃ b, t.scopes.bindings[(id : Nat)]? = some b ∧ b.name = "t" ∧ b.origin = .glob := by
  have computed : (overlapping.modules[0]?.any fun m => m.resolved.any fun t =>
      decide (t.scopes.lookup Scopes.root "t" 100 = .ambiguous [0, 1])) = true := by decide +kernel
  simp only [Option.any_eq_true, decide_eq_true_eq] at computed
  obtain ⟨m, found, t, resolved, ambiguous⟩ := computed
  obtain ⟨unique, -, globs⟩ := lookup_ambiguous _ _ _ _ found resolved
  exact ⟨m, t, found, resolved, ambiguous, unique, (globs _ _ _ _ ambiguous).2⟩

end Program

end PipeLang
