import PipeLang.Proofs.Eval.Rehearsal

/-!
# Beside a rehearsal

A machine on which modules have been run in some order, or not yet, goes beside one on which all of them have been run beforehand.
Of each module either nothing is known on the first machine, or what is known is the same on both: `Ahead.Beside`.
-/

namespace PipeLang

open Eval

namespace Machine

/-- Nothing is known of a module, or it has come to the same end as in a rehearsal, with values that are alike. -/
inductive Mirrors (M : Matching) (code : Code) (id : ModuleId) (x z : Machine) : Prop where
  | blank :
    SameAt id .new x →
    Mirrors M code id x z
  | failed {e} :
    x.states.lookup id = some (.failed e) →
    z.states.lookup id = some (.failed e) →
    Mirrors M code id x z
  | done :
    x.states.lookup id = some .done →
    z.states.lookup id = some .done →
    AlikeAt M code id x z →
    Mirrors M code id x z

variable {M M' : Matching} {code code' : Code} {id other : ModuleId} {x y z m m' : Machine} {name : String} {v : Value}

lemma Mirrors.mono (h : Mirrors M code id x z) (within : M.Within M') (more : ∀ id f, code id f → code' id f) :
    Mirrors M' code' id x z := by
  cases h with
  | blank blank => exact .blank blank
  | failed known known' => exact .failed known known'
  | done known known' alike => exact .done known known' (alike.mono within more)

lemma Mirrors.same (h : Mirrors M code id x z) {n n' : Machine} (left : SameAt id x n) (right : SameAt id z n') :
    Mirrors M code id n n' := by
  cases h with
  | blank blank => exact .blank (blank.trans left)
  | failed known known' => exact .failed (left.state.trans known) (right.state.trans known')
  | done known known' alike => exact .done (left.state.trans known) (right.state.trans known') (alike.same left right)

/-- A definition of another module is given its value. -/
lemma SameAt.setItem (apart : id ≠ other) : SameAt id m { m with items := ((other, name), v) :: m.items } where
  state := rfl
  items key := by
    have differs : ((id, key) == (other, name)) = false := beq_false_of_ne fun same => apart (Prod.mk.inj same).1
    rw [List.lookup_cons, differs]
  assembly := rfl
  root := rfl

end Machine

/-- An evaluation that is under way beside a rehearsal, possibly on behalf of a module that is running. -/
structure Ahead where
  rehearsal : Rehearsal
  /-- How many modules have been run beforehand. -/
  count : Nat
  owner : Option ModuleId
  slack : Slack
  /-- The machines on which the evaluations have begun, and what has corresponded there. -/
  left : Machine
  right : Machine
  base : Matching
  keeps : (rehearsal.stage count).Keeps right
  owned : ∀ id, owner = some id → rehearsal.order[count]? = some id

namespace Ahead

/-- The machine behind the modules that have been run beforehand. -/
noncomputable def stage (T : Ahead) : Machine :=
  T.rehearsal.stage T.count

/-- The modules whose functions may be called. -/
noncomputable def region (T : Ahead) : Region :=
  T.stage.region T.rehearsal.program T.owner

/-- A machine is beside a rehearsal. -/
structure Beside (T : Ahead) (M : Matching) (x y : Machine) : Prop extends M.Carries T.region.code x.heap y.heap where
  left : T.left.Keeps x
  right : T.right.Keeps y
  identities : ∀ {i j}, M.identities i j → i < x.fresh ∧ j < y.fresh
  mirrors : ∀ {id}, T.rehearsal.Early T.count id → x.Mirrors M T.region.code id T.stage
  known : ∀ {id}, T.owner ≠ some id → Machine.SameAt id T.stage y
  beyond : ∀ {id}, ¬ T.rehearsal.Early T.count id → T.owner ≠ some id → Machine.SameAt id T.left x
  kept : ∀ {id s}, T.owner ≠ some id → T.left.states.lookup id = some s → x.states.lookup id = some s
  running : ∀ {id}, T.owner = some id → x.states.lookup id = some .running ∧ y.states.lookup id = some .running ∧
    x.AlikeAt M T.region.code id y
  /-- What corresponds to what a module has made beforehand has been made by that module, which has run. -/
  seenFrame : ∀ {f g id}, M.frames f g → T.rehearsal.FrameOf T.count g id → x.states.lookup id = some .done
  seenIdentity : ∀ {i j id}, M.identities i j → T.rehearsal.IdentityOf T.count j id → x.states.lookup id = some .done
  /-- What has come to correspond since was not there when the evaluations began. -/
  newFrame : ∀ {f g}, M.frames f g → T.base.frames f g ∨
    T.left.heap.size ≤ f ∧ ∀ id, T.rehearsal.FrameOf T.count g id → T.left.states.lookup id = none
  newIdentity : ∀ {i j}, M.identities i j → T.base.identities i j ∨
    T.left.fresh ≤ i ∧ ∀ id, T.rehearsal.IdentityOf T.count j id → T.left.states.lookup id = none
  covered : ∀ {g : Nat}, T.right.heap.size ≤ g → g < y.heap.size → ∃ f, M.frames f g
  imports : ∀ {id target}, x.states.lookup id = some .done → T.rehearsal.program.ImportsAtTop id target →
    x.states.lookup target ≠ none

variable {T : Ahead} {M M' : Matching} {x y x' y' : Machine} {f g : FrameId} {id : ModuleId} {v w : Value}

/-- The module that is running has not been run beforehand. -/
lemma late (T : Ahead) (id : ModuleId) (owned : T.owner = some id) : ¬ T.rehearsal.Early T.count id :=
  Rehearsal.not_early (T.owned id owned)

lemma size_le (T : Ahead) : T.stage.heap.size ≤ T.right.heap.size :=
  T.keeps.size

lemma fresh_le (T : Ahead) : T.stage.fresh ≤ T.right.fresh :=
  T.keeps.fresh

namespace Beside

/-- Frames and identities are taken; what is known of modules stays. -/
lemma grow (h : T.Beside M x y) (within : M.Within M') (carries : M'.Carries T.region.code x'.heap y'.heap) (left : x.Keeps x')
    (right : y.Keeps y') (identities : ∀ {i j}, M'.identities i j → i < x'.fresh ∧ j < y'.fresh)
    (frames : ∀ {f g}, M'.frames f g → M.frames f g ∨ x.heap.size ≤ f ∧ y.heap.size ≤ g)
    (issued : ∀ {i j}, M'.identities i j → M.identities i j ∨ x.fresh ≤ i ∧ y.fresh ≤ j)
    (all : ∀ {g : Nat}, y.heap.size ≤ g → g < y'.heap.size → ∃ f, M'.frames f g)
    (same : ∀ id, Machine.SameAt id x x') (same' : ∀ id, Machine.SameAt id y y') : T.Beside M' x' y' where
  toCarries := carries
  left := h.left.trans left
  right := h.right.trans right
  identities := identities
  mirrors early := ((h.mirrors early).mono within fun _ _ allowed => allowed).same (same _) .refl
  known owned := (h.known owned).trans (same' _)
  beyond late owned := (h.beyond late owned).trans (same _)
  kept owned known := (same _).state.trans (h.kept owned known)
  running owned := by
    obtain ⟨state, state', alike⟩ := h.running owned
    exact ⟨(same _).state.trans state, (same' _).state.trans state', (alike.mono within fun _ _ allowed => allowed).same (same _) (same' _)⟩
  seenFrame pair of := by
    rcases frames pair with old | ⟨-, above⟩
    · exact (same _).state.trans (h.seenFrame old of)
    · have inside := Nat.lt_of_lt_of_le of.lt (Nat.le_trans T.size_le h.right.size)
      exact absurd above (Nat.not_le_of_lt inside)
  seenIdentity pair of := by
    rcases issued pair with old | ⟨-, above⟩
    · exact (same _).state.trans (h.seenIdentity old of)
    · have inside := Nat.lt_of_lt_of_le of.lt (Nat.le_trans T.fresh_le h.right.fresh)
      exact absurd above (Nat.not_le_of_lt inside)
  newFrame pair := by
    rcases frames pair with old | ⟨above, above'⟩
    · exact h.newFrame old
    · refine Or.inr ⟨Nat.le_trans h.left.size above, fun id of => ?_⟩
      have inside := Nat.lt_of_lt_of_le of.lt (Nat.le_trans T.size_le h.right.size)
      exact absurd above' (Nat.not_le_of_lt inside)
  newIdentity pair := by
    rcases issued pair with old | ⟨above, above'⟩
    · exact h.newIdentity old
    · refine Or.inr ⟨Nat.le_trans h.left.fresh above, fun id of => ?_⟩
      have inside := Nat.lt_of_lt_of_le of.lt (Nat.le_trans T.fresh_le h.right.fresh)
      exact absurd above' (Nat.not_le_of_lt inside)
  covered {g} above inside := by
    by_cases old : g < y.heap.size
    · obtain ⟨f, pair⟩ := h.covered above old
      exact ⟨f, within.frames pair⟩
    · exact all (Nat.le_of_not_lt old) inside
  imports done imports := (same _).state.symm ▸ h.imports ((same _).state ▸ done) imports

/-- Two frames are opened, inside of frames that correspond. -/
lemma push (h : T.Beside M x y) (pair : M.frames f g) :
    T.Beside (M.withFrame x.heap.size y.heap.size) { x with heap := x.heap.push (some f) } { y with heap := y.heap.push (some g) } := by
  refine h.grow Matching.within_withFrame (h.toCarries.push pair) (.push .refl) (.push .refl) h.identities ?_ Or.inl ?_
    (fun _ => .of_eq rfl rfl rfl rfl) fun _ => .of_eq rfl rfl rfl rfl
  · rintro f' g' (old | ⟨rfl, rfl⟩)
    · exact Or.inl old
    · exact Or.inr ⟨Nat.le_refl _, Nat.le_refl _⟩
  · intro g' above inside
    have size : (y.heap.push (some g)).size = y.heap.size + 1 := Heap.size_push
    replace inside : g' < (y.heap.push (some g)).size := inside
    obtain rfl : g' = y.heap.size := by omega
    exact ⟨_, Or.inr ⟨rfl, rfl⟩⟩

/-- Frames that have been opened since are given values that are alike. -/
lemma define (h : T.Beside M x y) (pair : M.frames f g) (left : T.left.heap.size ≤ f) (right : T.right.heap.size ≤ g) (id : BindingId)
    (alike : T.region.Alike M v w) :
    T.Beside M { x with heap := x.heap.define f id v } { y with heap := y.heap.define g id w } :=
  { h with
    toCarries := h.toCarries.define pair id alike
    left := h.left.define left
    right := h.right.define right
    covered := fun above inside => h.covered above (by simpa [Heap.define] using inside)
    mirrors := fun early => (h.mirrors early).same (.of_eq rfl rfl rfl rfl) .refl
    known := fun owned => (h.known owned).trans (.of_eq rfl rfl rfl rfl)
    beyond := fun late owned => (h.beyond late owned).trans (.of_eq rfl rfl rfl rfl)
    running := fun owned => by
      obtain ⟨state, state', alike⟩ := h.running owned
      exact ⟨state, state', alike.same (.of_eq rfl rfl rfl rfl) (.of_eq rfl rfl rfl rfl)⟩ }

/-- Two identities are given away. -/
lemma issue (h : T.Beside M x y) :
    T.Beside (M.withIdentity x.fresh y.fresh) { x with fresh := x.fresh + 1 } { y with fresh := y.fresh + 1 } := by
  refine h.grow Matching.within_withIdentity (h.toCarries.issue fun pair => (h.identities pair).imp Nat.ne_of_lt Nat.ne_of_lt)
    (.issue .refl) (.issue .refl) ?_ Or.inl ?_ (fun above inside => absurd inside (Nat.not_lt_of_le above))
    (fun _ => .of_eq rfl rfl rfl rfl) fun _ => .of_eq rfl rfl rfl rfl
  · rintro i j (old | ⟨rfl, rfl⟩)
    · exact (h.identities old).imp Nat.lt_succ_of_lt Nat.lt_succ_of_lt
    · exact ⟨Nat.lt_succ_self _, Nat.lt_succ_self _⟩
  · rintro i j (old | ⟨rfl, rfl⟩)
    · exact Or.inl old
    · exact Or.inr ⟨Nat.le_refl _, Nat.le_refl _⟩

/-- A definition of the module that is running is given its value. -/
lemma setItem {name : String} (h : T.Beside M x y) (owned : T.owner = some id) (alike : T.region.Alike M v w) :
    T.Beside M { x with items := ((id, name), v) :: x.items } { y with items := ((id, name), w) :: y.items } :=
  { h with
    left := h.left.trans (.of_eq rfl rfl)
    right := h.right.trans (.of_eq rfl rfl)
    mirrors := fun early => (h.mirrors early).same (.setItem fun same => T.late id owned (same ▸ early)) .refl
    known := fun other => (h.known other).trans (.setItem fun same => other (same ▸ owned))
    beyond := fun late other => (h.beyond late other).trans (.setItem fun same => other (same ▸ owned))
    running := fun owned' => by
      obtain rfl := Option.some.inj (owned.symm.trans owned')
      obtain ⟨state, state', known⟩ := h.running owned
      refine ⟨state, state', ⟨fun item => ?_, known.assembly, known.root⟩⟩
      simp only [List.lookup_cons]
      split
      · exact .some alike
      · exact known.items item }

end Beside

/-- Evaluations beside a rehearsal are in lockstep. -/
noncomputable def lockstep (T : Ahead) : Lockstep where
  toRegion := T.region
  slack := T.slack
  exports id := T.owner = some id
  left := T.left.heap.size
  right := T.right.heap.size
  Beside := T.Beside
  carries h := h.toCarries
  size h := ⟨h.left.size, h.right.size⟩
  push h pair := h.push pair
  define h pair left right alike := h.define pair left right _ alike
  issue h := h.issue
  setItem h owned alike := h.setItem owned alike

end Ahead

end PipeLang
