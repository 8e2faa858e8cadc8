import PipeLang.Proofs.Resolve.Tidy
import PipeLang.Proofs.Syntax.Ordered

/-!
# Walks over syntax

A walk makes moves between the offsets of a piece of syntax, ends in the scope where it began, and tells something
that stays true of every later resolution. Walks over pieces that stand one behind the other make up a walk over the
whole: `Walked.seq`.
-/

namespace PipeLang

/-- What is the place of syntax before an offset ends before it. -/
lemma SpanTable.Grows.stop_lt {α : Type} {t t' : SpanTable α} {a m lo lo' : Nat} (h : t.Grows a m t')
    (before : ∀ {s x}, t.get? s = some x → s.stop < lo) (next : m < lo') (le : lo ≤ lo') :
    ∀ {s x}, t'.get? s = some x → s.stop < lo' := by
  intro s x found
  rcases h.placed found with old | ⟨-, -, stop⟩
  · exact Nat.lt_of_lt_of_le (before old) le
  · omega

/-- What is the place of syntax before an offset begins before it. -/
lemma SpanTable.Grows.start_lt {α : Type} {t t' : SpanTable α} {a m lo lo' : Nat} (h : t.Grows a m t')
    (before : ∀ {s x}, t.get? s = some x → s.start < lo) (next : m < lo') (le : lo ≤ lo') :
    ∀ {s x}, t'.get? s = some x → s.start < lo' := by
  intro s x found
  rcases h.placed found with old | ⟨proper, -, stop⟩
  · exact Nat.lt_of_lt_of_le (before old) le
  · omega

namespace Resolution

/-- A resolution that has come to an offset: what it knows lies before, and the scopes that are open reach on to
another offset. -/
structure Ready (lo hi : Nat) (r : Resolution) : Prop where
  closed : ∀ {id : Nat} {s}, r.scopes.scopes[id]? = some s → id ∉ r.scopes.path r.current → s.range.stop < lo
  opened : ∀ {id : Nat} {s}, r.scopes.scopes[id]? = some s → id ∈ r.scopes.path r.current →
    id = Scopes.root ∨ s.range.start < lo ∧ hi ≤ s.range.stop
  bindings : ∀ {id : Nat} {b}, r.scopes.bindings[id]? = some b → b.visibleFrom < lo
  references : ∀ {s x}, r.references.get? s = some x → s.start < lo
  declarations : ∀ {s x}, r.declarations.get? s = some x → s.start < lo
  imports : ∀ {s x}, r.imports.get? s = some x → s.stop < lo
  loopSites : ∀ {known}, known ∈ r.loopSites → known.2.start < lo

variable {r r' : Resolution} {lo lo' hi hi' mark : Nat}

lemma Ready.narrow (h : r.Ready lo hi) (before : lo ≤ lo') (behind : hi' ≤ hi) : r.Ready lo' hi' where
  closed found outside := Nat.lt_of_lt_of_le (h.closed found outside) before
  opened found inside := (h.opened found inside).imp_right fun ⟨start, stop⟩ =>
    ⟨Nat.lt_of_lt_of_le start before, Nat.le_trans behind stop⟩
  bindings found := Nat.lt_of_lt_of_le (h.bindings found) before
  references found := Nat.lt_of_lt_of_le (h.references found) before
  declarations found := Nat.lt_of_lt_of_le (h.declarations found) before
  imports found := Nat.lt_of_lt_of_le (h.imports found) before
  loopSites known := Nat.lt_of_lt_of_le (h.loopSites known) before

/-- Behind a piece of syntax a resolution is ready for the next one. -/
lemma Ready.next (h : r.Ready lo hi) (tidy : r.Tidy) {a m : Nat} (spread : r.Spread a m r')
    (current : r'.current = r.current) (next : m < lo') (le : lo ≤ lo') : r'.Ready lo' hi := by
  have path : r'.scopes.path r'.current = r.scopes.path r.current := by
    rw [current, spread.scopes.path_eq tidy.current]
  constructor
  · intro id s found outside
    rw [path] at outside
    by_cases old : id < r.scopes.scopes.size
    · have := spread.scopes.scopes (Array.getElem?_eq_getElem old)
      rw [found, Option.some.injEq] at this
      exact Nat.lt_of_lt_of_le (h.closed (this ▸ Array.getElem?_eq_getElem old) outside) le
    · exact Nat.lt_of_le_of_lt (spread.newScope found (Nat.le_of_not_lt old)) next
  · intro id s found inside
    rw [path] at inside
    have old : id < r.scopes.scopes.size :=
      Nat.lt_of_le_of_lt (tidy.nested.mem_path inside).1 tidy.current
    have := spread.scopes.scopes (Array.getElem?_eq_getElem old)
    rw [found, Option.some.injEq] at this
    exact (h.opened (this ▸ Array.getElem?_eq_getElem old) inside).imp_right fun ⟨start, stop⟩ =>
      ⟨Nat.lt_of_lt_of_le start le, stop⟩
  · intro id b found
    by_cases old : id < r.scopes.bindings.size
    · have := spread.scopes.bindings (Array.getElem?_eq_getElem old)
      rw [found, Option.some.injEq] at this
      exact Nat.lt_of_lt_of_le (h.bindings (this ▸ Array.getElem?_eq_getElem old)) le
    · exact Nat.lt_of_le_of_lt (spread.newBinding found (Nat.le_of_not_lt old)) next
  · exact spread.references.start_lt h.references next le
  · exact spread.declarations.start_lt h.declarations next le
  · exact spread.imports.stop_lt h.imports next le
  · intro known member
    rcases spread.newLoop member with old | ⟨proper, -, stop⟩
    · exact Nat.lt_of_lt_of_le (h.loopSites old) le
    · omega

/-- The scopes of a later table that touch a piece of syntax begin before it or lie around it. -/
lemma Ready.around (h : r.Ready lo hi) {t : Scopes} (grows : r.scopes.Grows mark t) {id : Nat} {s : Scope}
    (found : t.scopes[id]? = some s) (before : s.range.start < mark) (behind : lo ≤ s.range.stop) :
    id ∈ r.scopes.path r.current := by
  by_cases old : id < r.scopes.scopes.size
  · have := grows.scopes (Array.getElem?_eq_getElem old)
    rw [found, Option.some.injEq] at this
    by_contra outside
    have := h.closed (this ▸ Array.getElem?_eq_getElem old) outside
    omega
  · have := grows.newScope found (Nat.le_of_not_lt old)
    omega

/-- In a later table the current scope is found at every offset of the syntax that is resolved. -/
lemma Ready.scopeAt (h : r.Ready lo hi) (tidy : r.Tidy) {t : Scopes} (nested : t.Nested)
    (grows : r.scopes.Grows mark t) {offset : Nat} (from_ : lo ≤ offset) (upTo : offset ≤ hi)
    (before : offset < mark) : t.scopeAt offset = r.current := by
  have inside := tidy.current
  apply nested.deepest_eq
  · have found := Array.getElem?_eq_getElem inside
    refine (h.opened found (tidy.nested.mem_self inside)).symm.imp_left fun ⟨start, stop⟩ => ?_
    refine List.mem_filter.2 ⟨List.mem_range.2 (Nat.lt_of_lt_of_le inside grows.scopes_size_le), ?_⟩
    simp only [grows.scopes found, Option.any_some, Span.contains_iff]
    omega
  · intro id member
    obtain ⟨-, contains⟩ := List.mem_filter.1 member
    obtain ⟨s, found, contains⟩ := (Option.any_eq_true _ _).1 contains
    have := Span.contains_iff.1 contains
    rw [grows.path_eq inside]
    exact h.around grows found (by omega) (by omega)

/-- In a later table a piece of syntax stands in the scope that was current when it was resolved. -/
lemma Ready.enclosing (h : r.Ready lo hi) (tidy : r.Tidy) {t : Scopes} (nested : t.Nested) {place : Span}
    (grows : r.scopes.Grows place.start t) (proper : place.Proper) (from_ : lo ≤ place.start)
    (upTo : place.stop ≤ hi) : t.enclosing place = r.current := by
  have inside := tidy.current
  have : place.start < place.stop := proper
  apply nested.deepest_eq
  · have found := Array.getElem?_eq_getElem inside
    refine (h.opened found (tidy.nested.mem_self inside)).symm.imp_left fun ⟨start, stop⟩ => ?_
    refine List.mem_filter.2 ⟨List.mem_range.2 (Nat.lt_of_lt_of_le inside grows.scopes_size_le), ?_⟩
    simp only [grows.scopes found, Option.any_some, Bool.and_eq_true, decide_eq_true_eq]
    omega
  · intro id member
    obtain ⟨-, around⟩ := List.mem_filter.1 member
    obtain ⟨s, found, around⟩ := (Option.any_eq_true _ _).1 around
    simp only [Bool.and_eq_true, decide_eq_true_eq] at around
    rw [grows.path_eq inside]
    exact h.around grows found (by omega) (by omega)

end Resolution

/-- A walk over a piece of syntax between two offsets, and what it tells of every later resolution. -/
structure Walked (load : Loader) (lo hi : Nat) (r r' : Resolution) (tells : Resolution → Prop) : Prop where
  moves : Moves load lo hi r r'
  current : r'.current = r.current
  tells : ∀ {f : Resolution}, f.Tidy → r'.Later hi f → tells f

/-- A step that leaves the tables as they are. -/
structure Quiet (load : Loader) (r r' : Resolution) (tells : Resolution → Prop) : Prop where
  moves : ∀ lo hi, Moves load lo hi r r'
  scopes : r'.scopes = r.scopes
  current : r'.current = r.current
  references : r'.references = r.references
  declarations : r'.declarations = r.declarations
  imports : r'.imports = r.imports
  loopSites : r'.loopSites = r.loopSites
  tells : ∀ {f : Resolution}, r'.Later 0 f → tells f

variable {load : Loader} {r r' r'' : Resolution} {tells tells' : Resolution → Prop} {a b m m' lo lo' hi : Nat}

namespace Walked

lemma skip : Walked load lo hi r r fun _ => True :=
  ⟨.refl, rfl, fun _ _ => trivial⟩

lemma tidy (h : Walked load a b r r' tells) (keeps : load.KeepsOffers) (tidy : r.Tidy) : r'.Tidy :=
  h.moves.tidy keeps tidy

/-- Behind a walk a resolution is ready for the next piece. -/
lemma ready (h : Walked load a b r r' tells) (tidy : r.Tidy) (ready : r.Ready lo hi) (next : b < lo')
    (le : lo ≤ lo') : r'.Ready lo' hi :=
  ready.next tidy h.moves.spread h.current next le

lemma imp (h : Walked load a b r r' tells) (weaker : ∀ f, tells f → tells' f) : Walked load a b r r' tells' :=
  ⟨h.moves, h.current, fun tidy later => weaker _ (h.tells tidy later)⟩

lemma widen (h : Walked load m m' r r' tells) (before : a ≤ m) (behind : m' ≤ b) : Walked load a b r r' tells :=
  ⟨h.moves.widen before behind, h.current, fun tidy later => h.tells tidy (later.mono behind)⟩

/-- Two walks, where the second changes nothing that the first has told. -/
lemma seqLater (h : Walked load a m r r' tells) (h' : Walked load m' b r' r'' tells') (later : r'.Later m r'')
    (first : a ≤ m') (last : m ≤ b) : Walked load a b r r'' fun f => tells f ∧ tells' f where
  moves := (h.moves.widen (Nat.le_refl _) last).trans (h'.moves.widen first (Nat.le_refl _))
  current := h'.current.trans h.current
  tells tidy behind := ⟨h.tells tidy (later.trans (behind.mono last)), h'.tells tidy behind⟩

/-- Two walks, the second behind the first. -/
lemma seq (h : Walked load a m r r' tells) (h' : Walked load m' b r' r'' tells') (gap : m ≤ m') (first : a ≤ m')
    (last : m ≤ b) : Walked load a b r r'' fun f => tells f ∧ tells' f :=
  h.seqLater h' (h'.moves.spread.later.mono gap) first last

/-- Two walks over the same piece that tell nothing. -/
lemma join (h : Walked load a b r r' fun _ => True) (h' : Walked load a b r' r'' fun _ => True) :
    Walked load a b r r'' fun _ => True :=
  ⟨h.moves.trans h'.moves, h'.current.trans h.current, fun _ _ => trivial⟩

end Walked

namespace Quiet

lemma tidy (h : Quiet load r r' tells) (keeps : load.KeepsOffers) (tidy : r.Tidy) : r'.Tidy :=
  (h.moves 0 0).tidy keeps tidy

lemma ready (h : Quiet load r r' tells) (ready : r.Ready lo hi) : r'.Ready lo hi := by
  obtain ⟨closed, opened, bindings, references, declarations, imports, loopSites⟩ := ready
  rw [← h.scopes, ← h.current] at closed opened
  rw [← h.scopes] at bindings
  rw [← h.references] at references
  rw [← h.declarations] at declarations
  rw [← h.imports] at imports
  rw [← h.loopSites] at loopSites
  exact ⟨closed, opened, bindings, references, declarations, imports, loopSites⟩

lemma imp (h : Quiet load r r' tells) (weaker : ∀ f, tells f → tells' f) : Quiet load r r' tells' :=
  { h with tells := fun later => weaker _ (h.tells later) }

/-- A quiet step by itself is a walk over anything. -/
lemma walked (h : Quiet load r r' tells) : Walked load a b r r' tells :=
  ⟨h.moves a b, h.current, fun _ later => h.tells (later.mono (Nat.zero_le _))⟩

/-- A quiet step before a walk. -/
lemma andThen (h : Quiet load r r' tells) (h' : Walked load a b r' r'' tells') :
    Walked load a b r r'' fun f => tells f ∧ tells' f where
  moves := (h.moves a b).trans h'.moves
  current := h'.current.trans h.current
  tells tidy later :=
    ⟨h.tells ((h'.moves.spread.later.mono (Nat.zero_le _)).trans (later.mono (Nat.zero_le _))), h'.tells tidy later⟩

lemma trans (h : Quiet load r r' tells) (h' : Quiet load r' r'' tells') :
    Quiet load r r'' fun f => tells f ∧ tells' f where
  moves lo hi := (h.moves lo hi).trans (h'.moves lo hi)
  scopes := h'.scopes.trans h.scopes
  current := h'.current.trans h.current
  references := h'.references.trans h.references
  declarations := h'.declarations.trans h.declarations
  imports := h'.imports.trans h.imports
  loopSites := h'.loopSites.trans h.loopSites
  tells later := ⟨h.tells ((h'.moves 0 0).spread.later.trans later), h'.tells later⟩

lemma skip : Quiet load r r fun _ => True :=
  ⟨fun _ _ => .refl, rfl, rfl, rfl, rfl, rfl, rfl, fun _ => trivial⟩

end Quiet

/-- A quiet step behind a walk. -/
lemma Walked.andQuiet (h : Walked load a b r r' tells) (h' : Quiet load r' r'' tells') :
    Walked load a b r r'' fun f => tells f ∧ tells' f where
  moves := h.moves.trans (h'.moves a b)
  current := h'.current.trans h.current
  tells tidy later :=
    ⟨h.tells tidy ((h'.moves b b).spread.later.trans later), h'.tells (later.mono (Nat.zero_le _))⟩

end PipeLang
