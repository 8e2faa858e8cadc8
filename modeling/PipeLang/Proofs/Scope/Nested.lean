import Mathlib.Tactic.ByContra
import Mathlib.Tactic.Lemma
import PipeLang.Scope

/-!
# Nested scopes

The scopes of a module form a tree, and a scope's path is its way up to the root. A table that has grown agrees
with what it was about everything that stands before the growth: `scopeAt_eq` and `lookup_found` say so of the
innermost scope and of names.
-/

namespace PipeLang.Scopes

variable {t t' : Scopes}

/-- The scopes form a tree: every scope but the module's was opened inside an earlier one. -/
structure Nested (t : Scopes) : Prop where
  root : t.path root = [root]
  inner : ∀ {id : Nat}, id < t.scopes.size → id ≠ Scopes.root →
    ∃ parent < id, t.path id = id :: t.path parent
  notLoop : t.isLoopBody Scopes.root = false

/-- A place that is no scope has no path. -/
lemma path_of_size_le {id : ScopeId} (h : t.scopes.size ≤ id) : t.path id = [] := by
  simp [path, Array.getElem?_eq_none h]

/-- What has a path is a scope. -/
lemma lt_of_mem_path {x id : ScopeId} (h : x ∈ t.path id) : id < t.scopes.size := by
  by_contra outside
  simp [path_of_size_le (Nat.le_of_not_lt outside)] at h

namespace Nested

/-- There is the scope of the module. -/
lemma root_lt (h : t.Nested) : Scopes.root < t.scopes.size :=
  lt_of_mem_path (x := Scopes.root) (by simp [h.root])

/-- A path begins with its scope. -/
lemma path_head (h : t.Nested) {id : ScopeId} (inside : id < t.scopes.size) :
    ∃ outer, t.path id = id :: outer := by
  by_cases top : id = Scopes.root
  · exact ⟨[], by rw [top, h.root]⟩
  · obtain ⟨parent, -, e⟩ := h.inner inside top
    exact ⟨_, e⟩

/-- A scope lies on its own path. -/
lemma mem_self (h : t.Nested) {id : ScopeId} (inside : id < t.scopes.size) : id ∈ t.path id := by
  obtain ⟨outer, e⟩ := h.path_head inside
  simp [e]

/-- The scopes on a path are no later than its scope, and their paths are its ends. -/
lemma mem_path (h : t.Nested) {x id : ScopeId} (member : x ∈ t.path id) :
    x ≤ id ∧ t.path x <:+ t.path id := by
  induction id using Nat.strongRecOn with
  | ind id ih =>
    by_cases top : id = Scopes.root
    · rw [top, h.root, List.mem_singleton] at member
      rw [member, top]
      exact ⟨Nat.le_refl _, List.suffix_rfl⟩
    · obtain ⟨parent, before, e⟩ := h.inner (lt_of_mem_path member) top
      rw [e] at member ⊢
      rcases List.mem_cons.1 member with rfl | member
      · exact ⟨Nat.le_refl _, e ▸ List.suffix_rfl⟩
      · obtain ⟨le, suffix⟩ := ih parent before member
        exact ⟨Nat.le_trans le (Nat.le_of_lt before), suffix.trans (List.suffix_cons _ _)⟩

/-- Every path ends at the root. -/
lemma path_last (h : t.Nested) {id : ScopeId} (inside : id < t.scopes.size) :
    (t.path id).getLast? = some Scopes.root := by
  induction id using Nat.strongRecOn with
  | ind id ih =>
    by_cases top : id = Scopes.root
    · rw [top, h.root]
      rfl
    · obtain ⟨parent, before, e⟩ := h.inner inside top
      rw [e, List.getLast?_cons, ih parent before (Nat.lt_trans before inside), Option.getD_some]

lemma root_mem (h : t.Nested) {id : ScopeId} (inside : id < t.scopes.size) : Scopes.root ∈ t.path id :=
  List.mem_of_getLast? (h.path_last inside)

/-- From any of its scopes on, a path is the path of that scope. -/
lemma path_split (h : t.Nested) {x id : ScopeId} {before behind : List ScopeId}
    (split : t.path id = before ++ x :: behind) : t.path x = x :: behind := by
  induction before generalizing id with
  | nil =>
    have member : x ∈ t.path id := by simp [split]
    obtain ⟨outer, e⟩ := h.path_head (lt_of_mem_path member)
    rw [split, List.nil_append, List.cons.injEq] at e
    rw [e.1, split, List.nil_append, e.1]
  | cons first before ih =>
    have member : x ∈ t.path id := by simp [split]
    have inside := lt_of_mem_path member
    by_cases top : id = Scopes.root
    · rw [top, h.root] at split
      simp at split
    · obtain ⟨parent, -, e⟩ := h.inner inside top
      rw [e, List.cons_append, List.cons.injEq] at split
      exact ih split.2

/-- The scopes around a scope have shorter paths. -/
lemma length_lt (h : t.Nested) {x id : ScopeId} (member : x ∈ t.path id) (other : x ≠ id) :
    (t.path x).length < (t.path id).length := by
  have inside := lt_of_mem_path member
  by_cases top : id = Scopes.root
  · rw [top, h.root, List.mem_singleton] at member
    exact absurd (member.trans top.symm) other
  · obtain ⟨parent, -, e⟩ := h.inner inside top
    rw [e] at member ⊢
    have outer := (List.mem_cons.1 member).resolve_left other
    have := (h.mem_path outer).2.length_le
    simp only [List.length_cons]
    omega

/-- Of scopes around one of them, that one is the deepest. -/
lemma foldl_deeper (h : t.Nested) {s first : ScopeId} {rest : List ScopeId} (among : s ∈ first :: rest)
    (around : ∀ id ∈ first :: rest, id ∈ t.path s) : rest.foldl t.deeper first = s := by
  induction rest generalizing first with
  | nil =>
    rw [List.mem_singleton] at among
    exact among.symm
  | cons next rest ih =>
    rw [List.foldl_cons]
    have picked : t.deeper first next = first ∨ t.deeper first next = next := by
      simp only [deeper]
      split <;> simp
    -- the one that is passed over is not the scope itself, unless both are
    have keeps : s = first ∨ s = next → s = t.deeper first next := by
      have firstPath := around first (by simp)
      have nextPath := around next (by simp)
      simp only [deeper]
      rintro (rfl | rfl)
      · split
        · next le =>
          by_contra other
          have := h.length_lt nextPath (Ne.symm other)
          omega
        · rfl
      · split
        · rfl
        · next lt =>
          by_contra other
          have := h.length_lt firstPath (Ne.symm other)
          omega
    apply ih
    · rw [List.mem_cons, List.mem_cons, ← or_assoc] at among
      exact List.mem_cons.2 (among.imp_left keeps)
    · intro id member
      rcases List.mem_cons.1 member with rfl | member
      · rcases picked with e | e <;> rw [e] <;> exact around _ (by simp)
      · exact around id (by simp [member])

/-- The deepest of scopes that all lie around one of them, or around the root. -/
lemma deepest_eq (h : t.Nested) {s : ScopeId} {ids : List ScopeId} (among : s ∈ ids ∨ s = Scopes.root)
    (around : ∀ id ∈ ids, id ∈ t.path s) : t.deepest ids = s := by
  cases ids with
  | nil =>
    simp only [List.not_mem_nil, false_or] at among
    exact among.symm
  | cons first rest =>
    apply h.foldl_deeper _ around
    rcases among with among | rfl
    · exact among
    · have := around first List.mem_cons_self
      rw [h.root, List.mem_singleton] at this
      simp [this]

end Nested

/-- The innermost scope that properly begins before a place and covers it: where the piece of syntax of that
place stands, which is outside of the scope that it may open itself. -/
def enclosing (t : Scopes) (place : Span) : ScopeId :=
  t.deepest <| (List.range t.scopes.size).filter fun id =>
    t.scopes[id]?.any fun s => s.range.start < place.start && place.stop ≤ s.range.stop

/-- A later table: nothing is lost, and what is new begins or is visible only from an offset on. -/
structure Grows (mark : Nat) (t t' : Scopes) : Prop where
  scopes : ∀ {id : Nat} {s}, t.scopes[id]? = some s → t'.scopes[id]? = some s
  bindings : ∀ {id : Nat} {b}, t.bindings[id]? = some b → t'.bindings[id]? = some b
  newScope : ∀ {id : Nat} {s}, t'.scopes[id]? = some s → t.scopes.size ≤ id → mark ≤ s.range.start
  newBinding : ∀ {id : Nat} {b}, t'.bindings[id]? = some b → t.bindings.size ≤ id → mark ≤ b.visibleFrom

/-- An array that has kept its elements has not become smaller. -/
lemma size_le_of_kept {α : Type} {xs ys : Array α} (kept : ∀ {i : Nat} {x}, xs[i]? = some x → ys[i]? = some x) :
    xs.size ≤ ys.size := by
  by_contra shorter
  have inside : ys.size < xs.size := Nat.lt_of_not_le shorter
  have := kept (Array.getElem?_eq_getElem inside)
  simp at this

namespace Grows

variable {mark : Nat}

lemma refl : Grows mark t t where
  scopes h := h
  bindings h := h
  newScope h le := by simp [Array.getElem?_eq_none le] at h
  newBinding h le := by simp [Array.getElem?_eq_none le] at h

lemma scopes_size_le (h : Grows mark t t') : t.scopes.size ≤ t'.scopes.size :=
  size_le_of_kept h.scopes

lemma bindings_size_le (h : Grows mark t t') : t.bindings.size ≤ t'.bindings.size :=
  size_le_of_kept h.bindings

lemma trans {t'' : Scopes} (h : Grows mark t t') (h' : Grows mark t' t'') : Grows mark t t'' where
  scopes s := h'.scopes (h.scopes s)
  bindings b := h'.bindings (h.bindings b)
  newScope {id s} found le := by
    by_cases old : id < t'.scopes.size
    · have := h'.scopes (Array.getElem?_eq_getElem old)
      rw [found, Option.some.injEq] at this
      exact h.newScope (this ▸ Array.getElem?_eq_getElem old) le
    · exact h'.newScope found (Nat.le_of_not_lt old)
  newBinding {id b} found le := by
    by_cases old : id < t'.bindings.size
    · have := h'.bindings (Array.getElem?_eq_getElem old)
      rw [found, Option.some.injEq] at this
      exact h.newBinding (this ▸ Array.getElem?_eq_getElem old) le
    · exact h'.newBinding found (Nat.le_of_not_lt old)

lemma mono {mark' : Nat} (h : Grows mark t t') (le : mark' ≤ mark) : Grows mark' t t' where
  scopes := h.scopes
  bindings := h.bindings
  newScope found size := Nat.le_trans le (h.newScope found size)
  newBinding found size := Nat.le_trans le (h.newBinding found size)

/-- Scopes keep their paths. -/
lemma path_eq (h : Grows mark t t') {id : ScopeId} (inside : id < t.scopes.size) : t'.path id = t.path id := by
  simp only [path, Array.getElem?_eq_getElem inside, h.scopes (Array.getElem?_eq_getElem inside)]

/-- Bindings keep what they denote. -/
lemma target_eq (h : Grows mark t t') {id : BindingId} (inside : id < t.bindings.size) :
    t'.target id = t.target id := by
  simp only [target, Array.getElem?_eq_getElem inside, h.bindings (Array.getElem?_eq_getElem inside)]

/-- Bindings keep their types. -/
lemma typeAt_eq (h : Grows mark t t') {id : BindingId} {scope : ScopeId} (inside : id < t.bindings.size)
    (scopeInside : scope < t.scopes.size) : t'.typeAt id scope = t.typeAt id scope := by
  simp only [typeAt, Array.getElem?_eq_getElem inside, h.bindings (Array.getElem?_eq_getElem inside), isWithin,
    h.path_eq scopeInside]

/-- The same bindings of a name are visible before the growth. -/
lemma visible_eq (h : Grows mark t t') {offset : Nat} (before : offset < mark) (scope : ScopeId)
    (name : String) :
    (t'.named scope name).filter (t'.isVisible offset) = (t.named scope name).filter (t.isVisible offset) := by
  obtain ⟨more, e⟩ := Nat.exists_eq_add_of_le h.bindings_size_le
  simp only [named, e, List.range_add, List.filter_append, List.filter_filter]
  have none_new : ((List.range more).map fun i => t.bindings.size + i).filter (fun id =>
      t'.isVisible offset id && t'.bindings[id]?.any fun b => b.scope == scope && b.name == name) = [] := by
    rw [List.filter_eq_nil_iff]
    intro id member
    obtain ⟨i, -, rfl⟩ := List.mem_map.1 member
    cases found : t'.bindings[t.bindings.size + i]? with
    | none => simp
    | some b =>
      have := h.newBinding found (Nat.le_add_right _ _)
      simp only [isVisible, found, Option.any_some, Bool.and_eq_true, decide_eq_true_eq]
      omega
  rw [none_new, List.append_nil]
  apply List.filter_congr
  intro id member
  have inside := List.mem_range.1 member
  simp only [isVisible, Array.getElem?_eq_getElem inside, h.bindings (Array.getElem?_eq_getElem inside)]

/-- Along a path, what was found stays found, and what was not found is at most declared later. -/
lemma lookupAlong (h : Grows mark t t') {offset : Nat} (before : offset < mark) (name : String)
    (later later' : Option BindingId) (path : List ScopeId) :
    (∀ id, t.lookupAlong name offset later path = .found id →
      t'.lookupAlong name offset later' path = .found id) ∧
    (t.lookupAlong name offset later path = .notFound →
      t'.lookupAlong name offset later' path = .notFound ∨
        ∃ id, t'.lookupAlong name offset later' path = .notYetDeclared id) := by
  induction path generalizing later later' with
  | nil =>
    cases later <;> cases later' <;> simp [Scopes.lookupAlong]
  | cons scope outer ih =>
    have visible := h.visible_eq before scope name
    cases found : (t.named scope name).filter (t.isVisible offset) with
    | nil =>
      rw [found] at visible
      simp only [Scopes.lookupAlong, found, visible]
      exact ih _ _
    | cons first others =>
      rw [found] at visible
      have inside : ∀ id ∈ first :: others, id < t.bindings.size := by
        intro id member
        rw [← found] at member
        have := (List.mem_filter.1 member).1
        exact List.mem_range.1 (List.mem_filter.1 this).1
      have same : (others.all fun id => (t'.target id).sameItem (t'.target first)) =
          others.all fun id => (t.target id).sameItem (t.target first) := by
        rw [h.target_eq (inside first List.mem_cons_self)]
        rw [Bool.eq_iff_iff, List.all_eq_true, List.all_eq_true]
        refine forall₂_congr fun id member => ?_
        rw [h.target_eq (inside id (List.mem_cons_of_mem _ member))]
      simp only [Scopes.lookupAlong, found, visible, same]
      split <;> simp

/-- What was found before the growth stays found. -/
lemma lookup_found (h : Grows mark t t') {scope : ScopeId} {offset : Nat} {name : String} {id : BindingId}
    (inside : scope < t.scopes.size) (before : offset < mark) (found : t.lookup scope name offset = .found id) :
    t'.lookup scope name offset = .found id := by
  rw [lookup, h.path_eq inside]
  exact (h.lookupAlong before name none none _).1 id found

/-- What was not found before the growth is at most declared later. -/
lemma lookup_notFound (h : Grows mark t t') {scope : ScopeId} {offset : Nat} {name : String}
    (inside : scope < t.scopes.size) (before : offset < mark) (missing : t.lookup scope name offset = .notFound) :
    t'.lookup scope name offset = .notFound ∨ ∃ id, t'.lookup scope name offset = .notYetDeclared id := by
  rw [lookup, h.path_eq inside]
  exact (h.lookupAlong before name none none _).2 missing

end Grows

end PipeLang.Scopes
