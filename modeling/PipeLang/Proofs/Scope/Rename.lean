import Mathlib.Logic.Function.Basic
import Mathlib.Tactic.Lemma
import PipeLang.Resolve.State

/-!
# Renaming modules

The number that a module has depends on the order of loading. Names are looked up alike whatever numbers the modules
have, as long as they have different ones: `Scopes.lookup_rename` and `obstacle?_rename`.
-/

namespace PipeLang

/-- A table in which other things are known of the same places. -/
def SpanTable.map {α β : Type} (f : α → β) (t : SpanTable α) : SpanTable β :=
  ⟨t.entries.map fun entry => (entry.1, f entry.2)⟩

section

variable {α β : Type} {f : α → β} {t : SpanTable α} {s : Span} {x : α}

@[simp] lemma SpanTable.map_empty : (SpanTable.empty : SpanTable α).map f = .empty := rfl

@[simp] lemma SpanTable.map_insert : (t.insert s x).map f = (t.map f).insert s (f x) := rfl

@[simp] lemma SpanTable.get?_map : (t.map f).get? s = (t.get? s).map f := by
  obtain ⟨entries⟩ := t
  simp only [get?, map]
  induction entries with
  | nil => rfl
  | cons entry entries ih =>
    rw [List.map_cons, List.lookup_cons, List.lookup_cons, ih]
    cases s == entry.1 <;> rfl

lemma SpanTable.map_map {γ : Type} {g : β → γ} : (t.map f).map g = t.map (g ∘ f) := by
  simp [map]

lemma SpanTable.map_id : t.map id = t := by
  obtain ⟨entries⟩ := t
  simp [map]

end

/-- The same target where the modules have other numbers. -/
def Target.rename (ren : ModuleId → ModuleId) : Target → Target
  | .module id => .module (ren id)
  | .item id name => .item (ren id) name
  | target => target

/-- The same binding where the modules have other numbers. -/
def Binding.rename (ren : ModuleId → ModuleId) (b : Binding) : Binding :=
  { b with target := b.target.rename ren }

/-- The same scopes where the modules have other numbers. -/
def Scopes.rename (ren : ModuleId → ModuleId) (t : Scopes) : Scopes :=
  { t with bindings := t.bindings.map (Binding.rename ren) }

/-- The same reference where the modules have other numbers. -/
def Reference.rename (ren : ModuleId → ModuleId) (ref : Reference) : Reference :=
  { ref with target := ref.target.rename ren }

/-- The same export where the modules have other numbers. -/
def Export.rename (ren : ModuleId → ModuleId) (e : Export) : Export :=
  { e with target := e.target.rename ren }

/-- The same exports where the modules have other numbers. -/
def Exports.rename (ren : ModuleId → ModuleId) (t : Exports) : Exports :=
  { t with entries := t.entries.map (Export.rename ren) }

/-- The same result of resolution where the modules have other numbers. -/
def Resolved.rename (ren : ModuleId → ModuleId) (t : Resolved) : Resolved where
  scopes := t.scopes.rename ren
  references := t.references.map (Reference.rename ren)
  declarations := t.declarations
  imports := t.imports.map ren
  loopTags := t.loopTags

/-- The same record of a module where the modules have other numbers. -/
def LoadedModule.rename (ren : ModuleId → ModuleId) (m : LoadedModule) : LoadedModule :=
  { m with exports := m.exports.rename ren, resolved := m.resolved.map (Resolved.rename ren) }

variable {ren ren' : ModuleId → ModuleId}

/-! ### Targets -/

section

variable {target other : Target}

lemma Target.rename_id : target.rename id = target := by
  cases target <;> rfl

lemma Target.rename_rename : (target.rename ren).rename ren' = target.rename (ren' ∘ ren) := by
  cases target <;> rfl

@[simp] lemma Target.rename_eq_invalid : target.rename ren = .invalid ↔ target = .invalid := by
  cases target <;> simp [rename]

lemma Target.rename_inj (inj : Function.Injective ren) : target.rename ren = other.rename ren ↔ target = other := by
  cases target <;> cases other <;> simp [rename, inj.eq_iff]

lemma Target.sameItem_rename (inj : Function.Injective ren) :
    (target.rename ren).sameItem (other.rename ren) = target.sameItem other := by
  simp only [sameItem, rename_eq_invalid, rename_inj inj]

end

/-! ### Scopes -/

namespace Scopes

variable {t : Scopes} {name : String} {offset : Nat}

lemma rename_id : t.rename id = t := by
  have same : Binding.rename id = id := by
    funext b
    simp [Binding.rename, Target.rename_id]
  simp [rename, same]

@[simp] lemma new_rename {range : Span} : (Scopes.new range).rename ren = .new range := by
  simp [rename, new]

@[simp] lemma push_rename {parent : Option ScopeId} {kind : ScopeKind} {range : Span} :
    (t.push parent kind range).rename ren = (t.rename ren).push parent kind range := rfl

@[simp] lemma insert_rename {b : Binding} : (t.insert b).rename ren = (t.rename ren).insert (b.rename ren) := by
  simp [rename, insert]

@[simp] lemma bindings_rename {id : Nat} : (t.rename ren).bindings[id]? = (t.bindings[id]?).map (Binding.rename ren) := by
  simp [rename]

@[simp] lemma nextBinding_rename : (t.rename ren).nextBinding = t.nextBinding := by
  simp [rename, nextBinding]

@[simp] lemma nextScope_rename : (t.rename ren).nextScope = t.nextScope := rfl

@[simp] lemma path_rename {scope : ScopeId} : (t.rename ren).path scope = t.path scope := rfl

@[simp] lemma tagHome_rename {scope : ScopeId} : (t.rename ren).tagHome scope = t.tagHome scope := rfl

@[simp] lemma named_rename {scope : ScopeId} : (t.rename ren).named scope name = t.named scope name := by
  have size : (t.rename ren).bindings.size = t.bindings.size := by simp [rename]
  simp only [named, size, bindings_rename, Option.any_map]
  rfl

@[simp] lemma isVisible_rename : (t.rename ren).isVisible offset = t.isVisible offset := by
  funext id
  simp only [isVisible, bindings_rename, Option.any_map]
  rfl

@[simp] lemma target_rename {id : BindingId} : (t.rename ren).target id = (t.target id).rename ren := by
  simp only [target, bindings_rename]
  cases t.bindings[id]? <;> rfl

@[simp] lemma typeAt_rename {id : BindingId} {scope : ScopeId} : (t.rename ren).typeAt id scope = t.typeAt id scope := by
  simp only [typeAt, bindings_rename]
  cases t.bindings[id]? <;> rfl

lemma lookupAlong_rename (inj : Function.Injective ren) (later : Option BindingId) (scopes : List ScopeId) :
    (t.rename ren).lookupAlong name offset later scopes = t.lookupAlong name offset later scopes := by
  induction scopes generalizing later with
  | nil => cases later <;> rfl
  | cons scope outer ih =>
    simp only [lookupAlong, named_rename, isVisible_rename, target_rename, Target.sameItem_rename inj]
    cases (t.named scope name).filter (t.isVisible offset) with
    | nil => exact ih _
    | cons first others => rfl

/-- A name means the same binding whatever numbers the modules have. -/
lemma lookup_rename (inj : Function.Injective ren) {scope : ScopeId} :
    (t.rename ren).lookup scope name offset = t.lookup scope name offset :=
  lookupAlong_rename inj none _

end Scopes

namespace Resolve

variable {t : Scopes}

@[simp] lemma siteOf_rename {id : BindingId} : siteOf (t.rename ren) id = siteOf t id := by
  simp only [siteOf, Scopes.bindings_rename]
  cases t.bindings[id]? <;> rfl

lemma openNameFault_rename (inj : Function.Injective ren) : openNameFault (t.rename ren) = openNameFault t := by
  funext n
  simp only [openNameFault, Scopes.lookup_rename inj, siteOf_rename]

/-- A binding is kept from being installed by the same one whatever numbers the modules have. -/
lemma obstacle?_rename (inj : Function.Injective ren) {policy : GlobPolicy} {b : Binding} :
    obstacle? policy (t.rename ren) (b.rename ren) = (obstacle? policy t b).map (Binding.rename ren) := by
  have named : (t.rename ren).named (b.rename ren).scope (b.rename ren).name = t.named b.scope b.name :=
    Scopes.named_rename
  have same (other : Binding) : (other.rename ren).target.sameItem (b.rename ren).target =
      other.target.sameItem b.target := Target.sameItem_rename inj
  have origin (other : Binding) : (other.rename ren).origin = other.origin := rfl
  simp only [obstacle?, named, Scopes.bindings_rename, List.map_findSome?]
  congr 1
  funext id
  rw [Function.comp_apply]
  cases t.bindings[id]? with
  | none => rfl
  | some other =>
    simp only [Option.map_some, same, origin]
    split <;> rfl

end Resolve

/-! ### Exports -/

namespace Exports

variable {t : Exports} {e : Export}

lemma rename_id : t.rename id = t := by
  have same : Export.rename id = id := by
    funext e
    simp [Export.rename, Target.rename_id]
  simp [rename, same]

lemma rename_rename : (t.rename ren).rename ren' = t.rename (ren' ∘ ren) := by
  have same : Export.rename ren' ∘ Export.rename ren = Export.rename (ren' ∘ ren) := by
    funext e
    simp [Export.rename, Target.rename_rename]
  simp [rename, same]

@[simp] lemma empty_rename : empty.rename ren = empty := rfl

@[simp] lemma get?_rename {name : String} : (t.rename ren).get? name = (t.get? name).map (Export.rename ren) := by
  simp only [get?, rename, List.find?_map]
  rfl

lemma insert_rename : (t.rename ren).insert (e.rename ren) =
    ((t.insert e).map (Exports.rename ren)).mapError (Export.rename ren) := by
  have name : (e.rename ren).name = e.name := rfl
  simp only [insert, get?_rename, name]
  cases t.get? e.name with
  | some first => rfl
  | none =>
    show Except.ok _ = Except.ok _
    simp [rename]

end Exports

lemma Resolved.rename_id {t : Resolved} : t.rename id = t := by
  have same : Reference.rename id = id := by
    funext ref
    simp [Reference.rename, Target.rename_id]
  simp [rename, Scopes.rename_id, same, SpanTable.map_id]

lemma Resolved.rename_rename {t : Resolved} : (t.rename ren).rename ren' = t.rename (ren' ∘ ren) := by
  have bindings : Binding.rename ren' ∘ Binding.rename ren = Binding.rename (ren' ∘ ren) := by
    funext b
    simp [Binding.rename, Target.rename_rename]
  have references : Reference.rename ren' ∘ Reference.rename ren = Reference.rename (ren' ∘ ren) := by
    funext ref
    simp [Reference.rename, Target.rename_rename]
  simp [rename, Scopes.rename, SpanTable.map_map, bindings, references]

namespace LoadedModule

variable {m : LoadedModule}

lemma rename_id : m.rename id = m := by
  have same : Resolved.rename id = id := by
    funext t
    exact Resolved.rename_id
  simp [rename, Exports.rename_id, same]

lemma rename_rename : (m.rename ren).rename ren' = m.rename (ren' ∘ ren) := by
  have same : Resolved.rename ren' ∘ Resolved.rename ren = Resolved.rename (ren' ∘ ren) := by
    funext t
    exact Resolved.rename_rename
  simp [rename, Exports.rename_rename, same]

end LoadedModule

end PipeLang
