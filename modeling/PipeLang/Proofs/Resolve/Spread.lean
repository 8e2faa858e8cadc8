import PipeLang.Proofs.Resolve.Move

/-!
# How a resolution spreads

Resolving syntax between two offsets loses nothing, and what it adds lies there: `Moves.spread`. A later
resolution still knows all that was known, and what it knows besides lies behind: `Spread.later`.
-/

namespace PipeLang

/-- A later table: nothing is lost, and what is new is the place of syntax between two offsets. -/
structure SpanTable.Grows {α : Type} (lo hi : Nat) (t t' : SpanTable α) : Prop where
  kept : ∀ {s x}, t.get? s = some x → t'.get? s = some x
  placed : ∀ {s x}, t'.get? s = some x → t.get? s = some x ∨ s.Within lo hi

namespace SpanTable.Grows

variable {α : Type} {t t' t'' : SpanTable α} {lo hi : Nat}

lemma refl : Grows lo hi t t where
  kept h := h
  placed h := Or.inl h

lemma trans (h : Grows lo hi t t') (h' : Grows lo hi t' t'') : Grows lo hi t t'' where
  kept found := h'.kept (h.kept found)
  placed found := (h'.placed found).elim h.placed Or.inr

/-- Recording something of a place of which nothing is known loses nothing. -/
lemma insert {s : Span} {x : α} (within : s.Within lo hi) (fresh : t.get? s = none) :
    Grows lo hi t (t.insert s x) where
  kept {s' y} found := by
    rw [get?_insert]
    split
    · next e =>
      subst e
      simp [fresh] at found
    · exact found
  placed {s' y} found := by
    rw [get?_insert] at found
    split at found
    · next e =>
      subst e
      exact Or.inr within
    · exact Or.inl found

end SpanTable.Grows

namespace Resolution

/-- A resolution that has gone on behind an offset. -/
structure Later (mark : Nat) (r r' : Resolution) : Prop where
  home : r'.home = r.home
  program : r.program.Retains r'.program
  scopes : r.scopes.Grows mark r'.scopes
  references : ∀ {s x}, r.references.get? s = some x → r'.references.get? s = some x
  newReference : ∀ {s x}, r'.references.get? s = some x → r.references.get? s = some x ∨ mark < s.stop
  declarations : ∀ {s x}, r.declarations.get? s = some x → r'.declarations.get? s = some x
  imports : ∀ {s x}, r.imports.get? s = some x → r'.imports.get? s = some x
  loopSites : ∀ {known}, known ∈ r.loopSites → known ∈ r'.loopSites
  clean : r'.Clean → r.Clean

/-- A resolution that has gone over syntax between two offsets. -/
structure Spread (lo hi : Nat) (r r' : Resolution) : Prop where
  home : r'.home = r.home
  program : r.program.Retains r'.program
  scopes : r.scopes.Grows lo r'.scopes
  newScope : ∀ {id : Nat} {s}, r'.scopes.scopes[id]? = some s → r.scopes.scopes.size ≤ id → s.range.stop ≤ hi
  newBinding : ∀ {id : Nat} {b}, r'.scopes.bindings[id]? = some b → r.scopes.bindings.size ≤ id → b.visibleFrom ≤ hi
  references : r.references.Grows lo hi r'.references
  declarations : r.declarations.Grows lo hi r'.declarations
  imports : r.imports.Grows lo hi r'.imports
  loopSites : ∀ {known}, known ∈ r.loopSites → known ∈ r'.loopSites
  newLoop : ∀ {known}, known ∈ r'.loopSites → known ∈ r.loopSites ∨ known.2.Within lo hi
  clean : r'.Clean → r.Clean

variable {r r' r'' : Resolution} {mark mark' lo hi : Nat}

namespace Later

lemma refl : Later mark r r where
  home := rfl
  program := .refl
  scopes := .refl
  references h := h
  newReference h := Or.inl h
  declarations h := h
  imports h := h
  loopSites h := h
  clean h := h

lemma trans (h : Later mark r r') (h' : Later mark r' r'') : Later mark r r'' where
  home := h'.home.trans h.home
  program := h.program.trans h'.program
  scopes := h.scopes.trans h'.scopes
  references found := h'.references (h.references found)
  newReference found := (h'.newReference found).elim h.newReference Or.inr
  declarations found := h'.declarations (h.declarations found)
  imports found := h'.imports (h.imports found)
  loopSites known := h'.loopSites (h.loopSites known)
  clean clean := h.clean (h'.clean clean)

/-- A resolution goes on when the program does. -/
lemma within {p : Program} (retains : r.program.Retains p) : Later mark r { r with program := p } :=
  { refl with program := retains }

lemma mono (h : Later mark r r') (le : mark' ≤ mark) : Later mark' r r' where
  home := h.home
  program := h.program
  scopes := h.scopes.mono le
  references := h.references
  newReference found := (h.newReference found).imp_right (Nat.lt_of_le_of_lt le)
  declarations := h.declarations
  imports := h.imports
  loopSites := h.loopSites
  clean := h.clean

end Later

namespace Spread

lemma refl : Spread lo hi r r where
  home := rfl
  program := .refl
  scopes := .refl
  newScope h le := by simp [Array.getElem?_eq_none le] at h
  newBinding h le := by simp [Array.getElem?_eq_none le] at h
  references := .refl
  declarations := .refl
  imports := .refl
  loopSites h := h
  newLoop h := Or.inl h
  clean h := h

lemma trans (h : Spread lo hi r r') (h' : Spread lo hi r' r'') : Spread lo hi r r'' where
  home := h'.home.trans h.home
  program := h.program.trans h'.program
  scopes := h.scopes.trans h'.scopes
  newScope {id s} found le := by
    by_cases old : id < r'.scopes.scopes.size
    · have := h'.scopes.scopes (Array.getElem?_eq_getElem old)
      rw [found, Option.some.injEq] at this
      exact h.newScope (this ▸ Array.getElem?_eq_getElem old) le
    · exact h'.newScope found (Nat.le_of_not_lt old)
  newBinding {id b} found le := by
    by_cases old : id < r'.scopes.bindings.size
    · have := h'.scopes.bindings (Array.getElem?_eq_getElem old)
      rw [found, Option.some.injEq] at this
      exact h.newBinding (this ▸ Array.getElem?_eq_getElem old) le
    · exact h'.newBinding found (Nat.le_of_not_lt old)
  references := h.references.trans h'.references
  declarations := h.declarations.trans h'.declarations
  imports := h.imports.trans h'.imports
  loopSites known := h'.loopSites (h.loopSites known)
  newLoop known := (h'.newLoop known).elim h.newLoop Or.inr
  clean clean := h.clean (h'.clean clean)

/-- What has gone over syntax has gone on behind its beginning. -/
lemma later (h : Spread lo hi r r') : Later lo r r' where
  home := h.home
  program := h.program
  scopes := h.scopes
  references := h.references.kept
  newReference found := (h.references.placed found).imp_right fun within => within.2.1
  declarations := h.declarations.kept
  imports := h.imports.kept
  loopSites := h.loopSites
  clean := h.clean

/-- A change that leaves the tables as they are. -/
lemma of_same (home : r'.home = r.home) (program : r.program.Retains r'.program) (scopes : r'.scopes = r.scopes)
    (references : r'.references = r.references) (declarations : r'.declarations = r.declarations)
    (imports : r'.imports = r.imports) (loopSites : r'.loopSites = r.loopSites) (clean : r'.Clean → r.Clean) : Spread lo hi r r' where
  home := home
  program := program
  scopes := by rw [scopes]; exact .refl
  newScope h le := by rw [scopes, Array.getElem?_eq_none le] at h; cases h
  newBinding h le := by rw [scopes, Array.getElem?_eq_none le] at h; cases h
  references := by rw [references]; exact .refl
  declarations := by rw [declarations]; exact .refl
  imports := by rw [imports]; exact .refl
  loopSites h := by rwa [loopSites]
  newLoop h := by rw [loopSites] at h; exact Or.inl h
  clean := clean

end Spread

end Resolution

/-- Adding a binding that is visible only from an offset on. -/
lemma Scopes.Grows.insert {t : Scopes} {b : Binding} {mark : Nat} (visible : mark ≤ b.visibleFrom) :
    t.Grows mark (t.insert b) where
  scopes h := h
  bindings {id b'} h := by
    have := (Array.getElem?_eq_some_iff.1 h).1
    simp only [Scopes.insert, Array.getElem?_push_lt this]
    rw [← h, Array.getElem?_eq_getElem this]
  newScope h le := by simp [Scopes.insert, Array.getElem?_eq_none le] at h
  newBinding {id b'} h le := by
    simp only [Scopes.insert, Array.getElem?_push] at h
    split at h
    · cases h
      exact visible
    · simp [Array.getElem?_eq_none le] at h

/-- Opening a scope that begins behind an offset. -/
lemma Scopes.Grows.push {t : Scopes} {parent : Option ScopeId} {kind : ScopeKind} {range : Span} {mark : Nat}
    (start : mark ≤ range.start) : t.Grows mark (t.push parent kind range) where
  scopes {id s} h := by
    have := (Array.getElem?_eq_some_iff.1 h).1
    simp only [Scopes.push, Array.getElem?_push_lt this]
    rw [← h, Array.getElem?_eq_getElem this]
  bindings h := h
  newScope {id s} h le := by
    simp only [Scopes.push, Array.getElem?_push] at h
    split at h
    · cases h
      exact start
    · simp [Array.getElem?_eq_none le] at h
  newBinding h le := by simp [Scopes.push, Array.getElem?_eq_none le] at h

variable {load : Loader} {lo hi : Nat} {r r' : Resolution}

/-- One more binding that becomes visible between two offsets. -/
lemma Resolution.Spread.insert {b : Binding} (from_ : lo ≤ b.visibleFrom) (upTo : b.visibleFrom ≤ hi) :
    r.Spread lo hi { r with scopes := r.scopes.insert b } := by
  refine { Resolution.Spread.refl with
    scopes := .insert from_
    newScope := fun {id s} found le => ?_
    newBinding := fun {id b'} found le => ?_ }
  · simp [Scopes.insert, Array.getElem?_eq_none le] at found
  · simp only [Scopes.insert, Array.getElem?_push] at found
    split at found
    · cases found
      exact upTo
    · simp [Array.getElem?_eq_none le] at found

/-- A declaration between two offsets. -/
lemma Resolution.Declarable.spread {b : Binding} (h : r.Declarable lo hi b) : r.Spread lo hi (r.declaring b) :=
  { Resolution.Spread.insert h.from_ h.upTo with declarations := .insert h.within h.fresh }

/-- A move stays between its offsets. -/
lemma Move.spread (h : Move load lo hi r r') : r.Spread lo hi r' := by
  cases h with
  | report own =>
    refine .of_same rfl .refl rfl rfl rfl rfl rfl fun ⟨faults, openNames⟩ => ⟨?_, openNames⟩
    exact (List.append_eq_nil_iff.1 faults).1
  | record within fresh meant seen => exact { Resolution.Spread.refl with references := .insert within fresh }
  | enter start stop =>
    refine { Resolution.Spread.refl with
      scopes := .push start
      newScope := fun {id s} found le => ?_ }
    simp only [Scopes.push, Array.getElem?_push] at found
    split at found
    · cases found
      exact stop
    · simp [Array.getElem?_eq_none le] at found
  | leave outer => exact .of_same rfl .refl rfl rfl rfl rfl rfl id
  | bind free scope crosses from_ upTo sources => exact .insert from_ upTo
  | keep faulty from_ upTo => exact .insert from_ upTo
  | declare declarable target => exact declarable.spread
  | define declarable target top name target' site own inserted => exact { declarable.spread with program := Program.offer_retains inserted }
  | redefine declarable target own =>
    refine { declarable.spread with clean := fun ⟨faults, openNames⟩ => ⟨?_, openNames⟩ }
    exact (List.append_eq_nil_iff.1 faults).1
  | collect found member site => exact .of_same rfl .refl rfl rfl rfl rfl rfl id
  | loop within fresh =>
    refine { Resolution.Spread.refl with
      loopSites := List.mem_cons_of_mem _
      newLoop := fun {known} member => ?_ }
    rcases List.mem_cons.1 member with rfl | member
    · exact Or.inr within
    · exact Or.inl member
  | leaveOpen =>
    refine .of_same rfl .refl rfl rfl rfl rfl rfl fun ⟨faults, openNames⟩ => ⟨faults, ?_⟩
    exact (List.append_eq_nil_iff.1 openNames).1
  | forward inserted brings forwarded presents => exact .of_same rfl (Program.offer_retains inserted) rfl rfl rfl rfl rfl id
  | load retains => exact .of_same rfl retains rfl rfl rfl rfl rfl id
  | accept within fresh last found usable =>
    exact { Resolution.Spread.refl with
      program := .of_modules rfl rfl
      imports := .insert within fresh }
  | refuse within fresh last found faulty =>
    refine { Resolution.Spread.refl with
      imports := .insert within fresh
      clean := fun ⟨faults, openNames⟩ => ⟨?_, openNames⟩ }
    exact (List.append_eq_nil_iff.1 faults).1
  | assembly => exact .of_same rfl (Program.modify_retains fun _ => rfl) rfl rfl rfl rfl rfl id
  | settle =>
    refine .of_same rfl .refl rfl rfl rfl rfl rfl fun ⟨faults, _⟩ => ?_
    obtain ⟨faults, openNames⟩ := List.append_eq_nil_iff.1 faults
    exact ⟨faults, List.map_eq_nil_iff.1 openNames⟩

/-- Moves stay between their offsets. -/
theorem Moves.spread (h : Moves load lo hi r r') : r.Spread lo hi r' := by
  induction h with
  | refl => exact .refl
  | tail _ move ih => exact ih.trans move.spread

end PipeLang
