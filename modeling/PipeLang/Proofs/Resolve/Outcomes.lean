import PipeLang.Proofs.Resolve.Names
import PipeLang.Proofs.Resolve.Notes

/-!
# Outcomes of uses

What comes of a name or path when it is used, once every binding made so far can be seen: it is given a reference, or blamed at
once, or left open, or it is passed over because its binding stands in for what an import did not bring. A name that is left
open is decided by the finished table: `Resolve.openNameFault_eq`.
-/

namespace PipeLang

namespace Scopes

variable {t : Scopes} {offset : Nat}

/-- The first binding of a name in the innermost of some scopes that bind it. -/
def firstAlong (t : Scopes) (name : String) (path : List ScopeId) : Option BindingId :=
  path.findSome? fun scope => (t.named scope name).head?

/-- Every binding of the table can be seen at an offset. -/
def AllVisible (t : Scopes) (offset : Nat) : Prop :=
  ∀ {id : Nat} {b}, t.bindings[id]? = some b → b.visibleFrom ≤ offset

lemma AllVisible.filter_named {name : String} (h : t.AllVisible offset) (scope : ScopeId) :
    (t.named scope name).filter (t.isVisible offset) = t.named scope name := by
  refine List.filter_eq_self.2 fun id member => ?_
  have inside := List.mem_range.1 (List.mem_filter.1 member).1
  simpa [isVisible, Array.getElem?_eq_getElem inside] using h (Array.getElem?_eq_getElem inside)

/-- Where every binding can be seen, the innermost scope that binds a name decides it. -/
lemma AllVisible.lookupAlong (h : t.AllVisible offset) (name : String) (path : List ScopeId) :
    match t.firstAlong name path with
    | some id => t.lookupAlong name offset none path = .found id ∨
        ∃ others, t.lookupAlong name offset none path = .ambiguous (id :: others)
    | none => t.lookupAlong name offset none path = .notFound := by
  induction path with
  | nil => rfl
  | cons scope outer ih =>
    simp only [firstAlong, List.findSome?_cons, Scopes.lookupAlong, h.filter_named]
    cases t.named scope name with
    | nil => exact ih
    | cons first others =>
      simp only [List.head?_cons]
      split
      · exact Or.inl rfl
      · exact Or.inr ⟨others, rfl⟩

end Scopes

/-- The fault of a name that is not bound where it stands: it is declared later if a scope around it binds it, and the innermost
of these says where, with the first binding of the name. -/
def Scopes.verdict (t : Scopes) (ident : Ident) : Fault :=
  match t.firstAlong ident.name (t.path (t.scopeAt ident.span.start)) with
  | some id => .notYetDeclared ident.name ident.span (Resolve.siteOf t id)
  | none => .notInScope ident.name ident.span

/-- What comes of a name or path, which is looked up by its head, when it is used. -/
inductive Occurrence.Outcome (o : Occurrence) (head : Ident) (r : Resolution) : Resolution → Prop where
  | recorded {references reference} :
    references.get? o.span = some reference →
    Outcome o head r { r with references := references }
  | blamed {references fault} :
    references.get? o.span = none →
    fault.isAboutName = true →
    fault.unbound? = none →
    o.span.holds fault.site = true →
    Outcome o head r { r with references := references, faults := r.faults ++ [fault] }
  | left :
    Outcome o head r { r with openNames := r.openNames ++ [⟨head.name, head.span, r.current⟩] }
  | kept {id : Nat} {b} :
    r.scopes.lookup r.current head.name head.span.start = .found id →
    r.scopes.bindings[id]? = some b →
    b.target = .invalid →
    Outcome o head r r

namespace Resolve

variable {r r' : Resolution} {ident head : Ident}

lemma openNameFault_eq {t : Scopes} {n : OpenName} (visible : t.AllVisible Resolved.behindAll)
    (scope : n.scope = t.scopeAt n.site.start) : openNameFault t n = t.verdict ⟨n.name, n.site⟩ := by
  have decided := visible.lookupAlong n.name (t.path n.scope)
  simp only [openNameFault, Scopes.verdict, Scopes.lookup, ← scope]
  cases first : t.firstAlong n.name (t.path n.scope) with
  | none =>
    simp only [first] at decided ⊢
    rw [decided]
  | some id =>
    simp only [first] at decided ⊢
    rcases decided with found | ⟨others, ambiguous⟩
    · rw [found]
    · rw [ambiguous]
      rfl

/-- What comes of a name when it is looked up. -/
inductive Looked (r : Resolution) (ident : Ident) : Option (Target × Ty) → Resolution → Prop where
  | used {target ty} :
    Looked r ident (some (target, ty)) { r with references := r.references.insert ident.span ⟨target, ty⟩ }
  | ambiguous {first} :
    Looked r ident none { r with faults := r.faults ++ [.nameCollision ident.name ident.span first] }
  | left :
    r.scopes.lookup r.current ident.name ident.span.start = .notFound →
    Looked r ident none { r with openNames := r.openNames ++ [⟨ident.name, ident.span, r.current⟩] }
  | kept {id : Nat} {b} :
    r.scopes.lookup r.current ident.name ident.span.start = .found id →
    r.scopes.bindings[id]? = some b →
    b.target = .invalid →
    Looked r ident none r

lemma useName_looked (visible : r.scopes.AllVisible ident.span.start) :
    Looked r ident (answer (useName ident) r) (after (useName ident) r) := by
  simp only [useName, after_bind, answer_bind, answer_get, after_get]
  cases found : r.scopes.lookup r.current ident.name ident.span.start with
  | found id =>
    obtain ⟨b, known, -⟩ := Scopes.lookupAlong_found found
    have target : r.scopes.target id = b.target := by simp [Scopes.target, known]
    simp only [target]
    split
    · next invalid => exact .kept found known invalid
    · exact .used
  | ambiguous ids => exact .ambiguous
  | notYetDeclared id =>
    have decided := visible.lookupAlong ident.name (r.scopes.path r.current)
    rw [Scopes.lookup] at found
    split at decided <;> simp [found] at decided
  | notFound =>
    simp only [useHost, after_bind, answer_bind, answer_get, after_get]
    cases r.program.hosts.signature? ident.name with
    | none => exact .left found
    | some signature => exact .used

/-- A name by itself, of which nothing is recorded so far. -/
lemma useName_outcome (visible : r.scopes.AllVisible ident.span.start) (fresh : r.references.get? ident.span = none) :
    (Occurrence.name ident).Outcome ident r (after (useName ident) r) := by
  have looked := useName_looked visible
  generalize answer (useName ident) r = found at looked
  generalize after (useName ident) r = r' at looked ⊢
  have here : ident.span.holds ident.span = true := Span.holds_iff.2 ⟨Nat.le_refl _, Nat.le_refl _⟩
  cases looked with
  | used => exact .recorded (by rw [SpanTable.get?_insert]; exact if_pos rfl)
  | ambiguous => exact .blamed fresh rfl rfl here
  | left => exact .left
  | kept found known invalid => exact .kept found known invalid

/-- Following a path from something that a name can mean records where it leads, or blames one of its names. -/
lemma followPath_outcome {site : Span} {target : Target} {ty : Ty} {before : Ident} {rest : List Ident} (tidy : r.Tidy)
    (meant : r.Meant target) (here : ∀ ident ∈ before :: rest, site.holds ident.span = true) :
    (∃ reference, after (followPath site target ty before rest) r =
        { r with references := r.references.insert site reference }) ∨
      ∃ fault : Fault, fault.isAboutName = true ∧ fault.unbound? = none ∧ site.holds fault.site = true ∧
        after (followPath site target ty before rest) r = { r with faults := r.faults ++ [fault] } := by
  induction rest generalizing target ty before with
  | nil => exact Or.inl ⟨_, rfl⟩
  | cons segment rest ih =>
    obtain ⟨first, others⟩ := List.forall_mem_cons.1 here
    cases target with
    | module id =>
      obtain ⟨m, found⟩ := meant_module tidy meant
      simp only [followPath, after_bind, answer_get, after_get, found]
      cases exported : m.exports.get? segment.name with
      | none =>
        let fault : Fault := .unknownExport segment.name m.path.render (m.status = .loading) segment.span
        exact Or.inr ⟨fault, rfl, rfl, others segment List.mem_cons_self, rfl⟩
      | some e => exact ih (.through meant found (List.mem_of_find?_eq_some exported)) others
    | _ => exact Or.inr ⟨.notAModule before.name before.span, rfl, rfl, first, rfl⟩

/-- A path, of which nothing is recorded so far; its head is not the whole of it. -/
lemma usePath_outcome {load : Loader} {rest : List Ident} {site : Span} {lo hi : Nat} (keeps : load.KeepsOffers)
    (tidy : r.Tidy) (ready : r.Ready lo hi) (proper : head.span.Proper) (from_ : lo ≤ head.span.start)
    (upTo : head.span.stop ≤ hi) (fresh : r.references.get? site = none) (other : site ≠ head.span)
    (here : ∀ ident ∈ head :: rest, site.holds ident.span = true) :
    (Occurrence.path head rest site).Outcome head r (after (usePath head rest site) r) := by
  have visible : r.scopes.AllVisible head.span.start := fun known =>
    Nat.le_of_lt (Nat.lt_of_lt_of_le (ready.bindings known) from_)
  by_cases missing : r.scopes.lookup r.current head.name head.span.start = .notFound
  · rw [after, usePath_headless missing, ← after]
    simp only [useHost, after_bind, answer_bind, answer_get, after_get]
    cases r.program.hosts.signature? (pathName head rest) with
    | none => exact .left
    | some signature => exact .recorded (by rw [SpanTable.get?_insert]; exact if_pos rfl)
  · rw [after, usePath_headed missing, ← after]
    simp only [after_bind]
    have use : NameUse load r head (answer (useName head) r) (after (useName head) r) := useName_use head tidy
    have tidy₁ := (use.walked tidy ready proper from_ upTo).tidy keeps tidy
    have looked := useName_looked visible
    generalize answer (useName head) r = found at use looked ⊢
    generalize after (useName head) r = r₁ at use tidy₁ looked ⊢
    cases looked with
    | @used target ty =>
      have unrecorded : (r.references.insert head.span ⟨target, ty⟩).get? site = none := by
        rw [SpanTable.get?_insert, if_neg other, fresh]
      rcases @followPath_outcome _ site target ty head rest tidy₁ use.meant.1 here with
        ⟨reference, same⟩ | ⟨fault, about, bound, inside, same⟩
      · exact same ▸ .recorded (by rw [SpanTable.get?_insert]; exact if_pos rfl)
      · exact same ▸ .blamed unrecorded about bound inside
    | ambiguous => exact .blamed fresh rfl rfl (here head List.mem_cons_self)
    | left absent => exact absurd absent missing
    | kept found known invalid => exact .kept found known invalid

end Resolve

end PipeLang
