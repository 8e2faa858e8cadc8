import PipeLang.Proofs.Resolve.Occasions

/-!
# Decided uses

When a module has been resolved, each use of a name or path in it is decided in one way: it has a reference, or exactly one fault
of a name lies in it, or its name is found as a binding that an import statement keeps for what it does not bring. A name that
is not found is judged by the finished table. Main statement: `Resolve.module_decided`.
-/

namespace PipeLang

/-- The faults of names in a place. -/
def Fault.namesIn (faults : List Fault) (place : Span) : List Fault :=
  faults.filter fun f => f.isAboutName && place.holds f.site

namespace Fault

lemma namesIn_append {faults more : List Fault} {place : Span} :
    namesIn (faults ++ more) place = namesIn faults place ++ namesIn more place :=
  List.filter_append ..

/-- A fault that says of a name that it is not bound is one of that name, where it stands. -/
lemma about_unbound {f : Fault} {ident : Ident} (h : f.unbound? = some ident) : f.isAboutName = true ∧ f.site = ident.span := by
  cases f with
  | notYetDeclared | notInScope =>
    cases h
    exact ⟨rfl, rfl⟩
  | _ => cases h

end Fault

/-- The open names in a place. -/
def OpenName.allIn (names : List OpenName) (place : Span) : List OpenName :=
  names.filter fun n => place.holds n.site

/-- What a finished table and the faults around it say of a use of a name or path, which is looked up by its head: one of three
things, which exclude each other. -/
inductive Resolved.Decides (t : Resolved) (faults : List Fault) (occs : List Occurrence) (o : Occurrence) (head : Ident) :
    Prop where
  | recorded {reference} :
    t.references.get? o.span = some reference →
    Fault.namesIn faults o.span = [] →
    Decides t faults occs o head
  | blamed {fault} :
    t.references.get? o.span = none →
    Fault.namesIn faults o.span = [fault] →
    Decides t faults occs o head
  | kept {id : Nat} {b i} :
    t.references.get? o.span = none →
    Fault.namesIn faults o.span = [] →
    t.lookupAt head.name head.span.start = .found id →
    t.scopes.bindings[id]? = some b →
    b.target = .invalid →
    .importing i ∈ occs →
    i.Keeps b →
    i.Fails faults →
    Decides t faults occs o head

/-- What a resolution that has gone over a whole module says of a use, before the open names are reported. -/
inductive Resolution.Leaves (r : Resolution) (o : Occurrence) (head : Ident) : Prop where
  | recorded {reference} :
    r.references.get? o.span = some reference →
    Fault.namesIn r.faults o.span = [] →
    OpenName.allIn r.openNames o.span = [] →
    Leaves r o head
  | blamed {fault} :
    r.references.get? o.span = none →
    fault.unbound? = none →
    Fault.namesIn r.faults o.span = [fault] →
    OpenName.allIn r.openNames o.span = [] →
    Leaves r o head
  | left :
    r.references.get? o.span = none →
    Fault.namesIn r.faults o.span = [] →
    OpenName.allIn r.openNames o.span = [⟨head.name, head.span, r.scopes.scopeAt head.span.start⟩] →
    Leaves r o head
  | kept {id : Nat} {b} :
    r.references.get? o.span = none →
    Fault.namesIn r.faults o.span = [] →
    OpenName.allIn r.openNames o.span = [] →
    r.resolved.lookupAt head.name head.span.start = .found id →
    r.scopes.bindings[id]? = some b →
    b.target = .invalid →
    Leaves r o head

namespace Resolution

variable {r r' now next : Resolution} {occs : List Occurrence} {o : Occurrence} {head : Ident} {place : Span}

/-- What is noted outside of a place changes nothing in it. -/
lemma Notes.namesIn_eq (h : r.Notes (fun s => ¬ place.holds s = true) occs r') :
    Fault.namesIn r'.faults place = Fault.namesIn r.faults place := by
  obtain ⟨new, same, stands⟩ := h.faults
  have outside : Fault.namesIn new place = [] := List.filter_eq_nil_iff.2 fun f member held => by
    obtain ⟨about, inside⟩ := Bool.and_eq_true_iff.1 held
    exact (stands f member).place about inside
  rw [same, Fault.namesIn_append, outside, List.append_nil]

lemma Notes.allIn_eq (h : r.Notes (fun s => ¬ place.holds s = true) occs r') :
    OpenName.allIn r'.openNames place = OpenName.allIn r.openNames place := by
  obtain ⟨new, same, stands⟩ := h.openNames
  have outside : OpenName.allIn new place = [] := List.filter_eq_nil_iff.2 fun n member => (stands n member).place
  rw [same, OpenName.allIn, List.filter_append]
  exact (congrArg (_ ++ ·) outside).trans (List.append_nil _)

end Resolution

open Resolution

variable {r r' : Resolution} {occs : List Occurrence} {o : Occurrence} {head : Ident}

/-- The scopes stay as they are when a name or path is used. -/
lemma Occurrence.Outcome.scopes_eq (h : o.Outcome head r r') : r'.scopes = r.scopes := by
  cases h <;> rfl

/-- What comes of a use at its moment is still said of it when the resolution has gone over the whole module. -/
lemma Occurrence.Met.leaves (h : o.Met occs r r') (same : o.head? = some head) (faults : r.faults = [])
    (openNames : r.openNames = []) (nested : r'.scopes.Nested)
    (here : head.span.Between o.span.start o.span.stop) : r'.Leaves o head := by
  cases h with
  | @mk now next _ same' tidy ready before outcome behind onward =>
    cases same.symm.trans same'
    obtain ⟨starts, proper, stops⟩ := here
    have noFaults : Fault.namesIn now.faults o.span = [] := by
      rw [before.namesIn_eq, faults]
      rfl
    have noneOpen : OpenName.allIn now.openNames o.span = [] := by
      rw [before.allIn_eq, openNames]
      rfl
    have fresh : now.references.get? o.span = none := Resolve.references_fresh ready (Nat.le_refl _)
    have unrecorded (missing : next.references.get? o.span = none) : r'.references.get? o.span = none := by
      by_contra known
      obtain ⟨x, known⟩ := Option.ne_none_iff_exists'.1 known
      rcases onward.newReference known with old | behind
      · exact Option.some_ne_none _ (old.symm.trans missing)
      · exact Nat.lt_irrefl _ behind
    have grows : now.scopes.Grows o.span.stop r'.scopes := outcome.scopes_eq ▸ onward.scopes
    have scope : r'.scopes.scopeAt head.span.start = now.current :=
      ready.scopeAt tidy nested grows starts (by omega) (by omega)
    have held : o.span.holds head.span = true := Span.holds_iff.2 ⟨starts, stops⟩
    cases outcome with
    | recorded found =>
      exact .recorded (onward.references found) (behind.namesIn_eq.trans noFaults) (behind.allIn_eq.trans noneOpen)
    | @blamed references fault none about bound inside =>
      refine .blamed (unrecorded none) bound (behind.namesIn_eq.trans ?_) (behind.allIn_eq.trans noneOpen)
      have new : Fault.namesIn [fault] o.span = [fault] := by simp [Fault.namesIn, about, inside]
      exact Fault.namesIn_append.trans (congrArg₂ (· ++ ·) noFaults new)
    | left =>
      refine .left (unrecorded fresh) (behind.namesIn_eq.trans noFaults) (behind.allIn_eq.trans ?_)
      have new : OpenName.allIn [⟨head.name, head.span, now.current⟩] o.span = [⟨head.name, head.span, now.current⟩] := by
        simp [OpenName.allIn, held]
      rw [scope, OpenName.allIn, List.filter_append]
      exact (congrArg₂ (· ++ ·) noneOpen new)
    | kept found known invalid =>
      refine .kept (unrecorded fresh) (behind.namesIn_eq.trans noFaults) (behind.allIn_eq.trans noneOpen) ?_
        (grows.bindings known) invalid
      simp only [Resolved.lookupAt, Resolution.resolved, scope]
      exact grows.lookup_found tidy.current (by omega) found

namespace Resolution.Leaves

/-- While a module is gone over, no name is judged. -/
lemma bound (h : r.Leaves o head) {f : Fault} (held : f ∈ Fault.namesIn r.faults o.span) : f.unbound? = none := by
  cases h with
  | recorded _ none | left _ none | kept _ none =>
    rw [none] at held
    cases held
  | blamed _ bound one =>
    rw [one] at held
    exact List.mem_singleton.1 held ▸ bound

/-- A name is left open in the scope that is found where it stands. -/
lemma scope (h : r.Leaves o head) {n : OpenName} (held : n ∈ OpenName.allIn r.openNames o.span) :
    n.scope = r.scopes.scopeAt n.site.start := by
  cases h with
  | recorded _ _ closed | blamed _ _ _ closed | kept _ _ closed =>
    rw [closed] at held
    cases held
  | left _ _ open_ =>
    rw [open_] at held
    cases List.mem_singleton.1 held
    rfl

end Resolution.Leaves

/-- The uses of names and paths in a module are decided, and a name that is not bound where it stands is judged by the table. -/
structure Resolved.Decided (t : Resolved) (faults : List Fault) (ast : Module) : Prop where
  uses : ∀ o ∈ ast.occurrences, ∀ head, o.head? = some head → t.Decides faults ast.occurrences o head
  unbound : ∀ f ∈ faults, ∀ ident, f.unbound? = some ident →
    f = t.scopes.verdict ident ∧ ∃ o ∈ ast.occurrences, o.head? = some ident

namespace Resolve

variable {load : Loader}

lemma openNameFault_isAboutName {t : Scopes} {n : OpenName} : (openNameFault t n).isAboutName = true := by
  simp only [openNameFault]
  split <;> rfl

lemma openNameFault_site {t : Scopes} {n : OpenName} : (openNameFault t n).site = n.site := by
  simp only [openNameFault]
  split <;> rfl

lemma openNameFault_unbound {t : Scopes} {n : OpenName} : (openNameFault t n).unbound? = some ⟨n.name, n.site⟩ := by
  simp only [openNameFault]
  split <;> rfl

/-- The faults in a place that open names come to are those of the open names there. -/
lemma namesIn_map {t : Scopes} {names : List OpenName} {place : Span} :
    Fault.namesIn (names.map (openNameFault t)) place = (OpenName.allIn names place).map (openNameFault t) := by
  rw [Fault.namesIn, List.filter_map, OpenName.allIn]
  congr 2
  funext n
  simp only [Function.comp_apply, openNameFault_isAboutName, openNameFault_site, Bool.true_and]

/-- The end of a module reports the open names, and leaves the tables as they are. -/
lemma module_concluded {ast : Module} {r r₁ : Resolution} (done : r₁ = after (topLevel load ast.statements) r) :
    (after (module load ast) r).scopes = r₁.scopes ∧ (after (module load ast) r).references = r₁.references ∧
      (after (module load ast) r).faults = r₁.faults ++ r₁.openNames.map (openNameFault r₁.scopes) := by
  subst done
  simp only [module, after_bind, markAssembly]
  cases ast.assembly? <;> exact ⟨rfl, rfl, rfl⟩

/-- The uses in a module whose syntax is in order are decided by its resolution. -/
theorem module_decided {p : Program} {home : ModuleId} {ast : Module} (keeps : load.KeepsOffers) (answers : load.Answers)
    (offers : p.Offers) (inside : home < p.modules.size) (order : ∃ hi, Span.InOrder 0 hi (ast.statements.map Statement.span))
    (ordered : ∀ s ∈ ast.statements, s.Ordered) (placed : ∀ o ∈ ast.occurrences, o.Placed)
    (visible : (after (module load ast) (.start p home ast.span)).scopes.AllVisible Resolved.behindAll) :
    (after (module load ast) (.start p home ast.span)).resolved.Decided
      (after (module load ast) (.start p home ast.span)).faults ast := by
  obtain ⟨hi, order⟩ := order
  have tidy : (Resolution.start p home ast.span).Tidy := Resolution.tidy_start offers inside
  have met := topLevel_meets keeps answers rfl ordered placed order tidy Resolution.start_ready (Nat.le_refl _)
  have walked := topLevel_walked keeps rfl (Statement.all_walk keeps answers ast.statements ordered) order tidy
    Resolution.start_ready (Nat.le_refl _)
  have nested := (walked.tidy keeps tidy).nested
  obtain ⟨scopes, references, faults⟩ := @module_concluded load ast (.start p home ast.span) _ rfl
  generalize after (topLevel load ast.statements) (.start p home ast.span) = r₁ at met nested scopes references faults
  generalize after (module load ast) (.start p home ast.span) = f at visible scopes references faults ⊢
  have leaves (o : Occurrence) (member : o ∈ ast.occurrences) (head : Ident) (same : o.head? = some head) :
      r₁.Leaves o head ∧ o.span.holds head.span = true := by
    obtain ⟨between, moment⟩ := met.met o member (Option.isSome_of_eq_some same)
    have here := (placed o member).head between.2.1 same
    exact ⟨moment.leaves same rfl rfl nested here, here.holds⟩
  have namesIn (place : Span) : Fault.namesIn f.faults place =
      Fault.namesIn r₁.faults place ++ (OpenName.allIn r₁.openNames place).map (openNameFault r₁.scopes) := by
    rw [faults, Fault.namesIn_append, namesIn_map]
  replace references : f.resolved.references = r₁.references := references
  refine ⟨fun o member head same => ?_, fun fault member ident missing => ?_⟩
  · cases (leaves o member head same).1 with
    | recorded found none closed => exact .recorded (references ▸ found) (by rw [namesIn, none, closed]; rfl)
    | blamed unrecorded bound one closed => exact .blamed (references ▸ unrecorded) (by rw [namesIn, one, closed]; rfl)
    | left unrecorded none open_ => exact .blamed (references ▸ unrecorded) (by rw [namesIn, none, open_]; rfl)
    | kept unrecorded none closed looked known invalid =>
      rcases met.notes.invalid known invalid with old | ⟨i, imported, keeps, fails⟩
      · simp [Resolution.start, Scopes.new] at old
      · refine .kept (references ▸ unrecorded) (by rw [namesIn, none, closed]; rfl) ?_ (scopes ▸ known) invalid imported
          keeps (fails.mono (faults ▸ List.subset_append_left _ _))
        simpa only [Resolved.lookupAt, Resolution.resolved, scopes] using looked
  · obtain ⟨about, site⟩ := Fault.about_unbound missing
    rw [faults] at member
    rcases List.mem_append.1 member with told | judged
    · obtain ⟨new, all, stands⟩ := met.notes.faults
      obtain ⟨o, among, same⟩ := (stands fault (by rwa [all] at told)).head ident missing
      obtain ⟨left, inside⟩ := leaves o among ident same
      have held : fault ∈ Fault.namesIn r₁.faults o.span := List.mem_filter.2 ⟨told, by simp [about, site, inside]⟩
      exact absurd ((left.bound held).symm.trans missing) (by simp)
    · obtain ⟨n, open_, rfl⟩ := List.mem_map.1 judged
      cases openNameFault_unbound.symm.trans missing
      obtain ⟨new, all, stands⟩ := met.notes.openNames
      obtain ⟨o, among, same⟩ := (stands n (by rwa [all] at open_)).head
      obtain ⟨left, inside⟩ := leaves o among _ same
      have held : n ∈ OpenName.allIn r₁.openNames o.span := List.mem_filter.2 ⟨open_, inside⟩
      refine ⟨?_, o, among, same⟩
      exact (openNameFault_eq (scopes ▸ visible) (left.scope held)).trans (congrArg (Scopes.verdict · _) scopes.symm)

end Resolve

end PipeLang
