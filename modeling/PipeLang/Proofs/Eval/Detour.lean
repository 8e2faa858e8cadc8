import PipeLang.Proofs.Eval.Ahead

/-!
# Modules that are run on the way

When an evaluation beside a rehearsal comes to a module that has not been run, the module is run there as it was run in the rehearsal:
the machine is beside the stage at which the module was about to run, `Ahead.Beside.restrict`, and when it has run, it is beside what
it was beside before, `Ahead.Beside.join`.
-/

namespace PipeLang

open Eval

lemma Matching.OneOne.of_within {M M' : Matching} (h : M'.OneOne) (within : M.Within M') : M.OneOne where
  frames := ⟨fun _ _ _ pair pair' => h.frames.1 (within.frames pair) (within.frames pair'),
    fun _ _ _ pair pair' => h.frames.2 (within.frames pair) (within.frames pair')⟩
  identities := ⟨fun _ _ _ pair pair' => h.identities.1 (within.identities pair) (within.identities pair'),
    fun _ _ _ pair pair' => h.identities.2 (within.identities pair) (within.identities pair')⟩

/-- Two frames are opened that are inside of no others. -/
lemma Matching.Carries.pushRoot {M : Matching} {code : Code} {h h' : Heap} (carries : M.Carries code h h') :
    (M.withFrame h.size h'.size).Carries code (h.push none) (h'.push none) where
  unique := carries.unique.withFrame fun pair => (carries.frame_lt pair).imp Nat.ne_of_lt Nat.ne_of_lt
  frames {f' g'} pair' := by
    rcases pair' with old | ⟨rfl, rfl⟩
    · obtain ⟨frame, frame', found, found', alike⟩ := carries.frames old
      obtain ⟨inside, inside'⟩ := carries.frame_lt old
      exact ⟨frame, frame', (Heap.push_old inside).trans found, (Heap.push_old inside').trans found', alike.mono within_withFrame⟩
    · exact ⟨_, _, Array.getElem?_push_size, Array.getElem?_push_size, .nil, .nil⟩

/-- More literals are meant. -/
lemma Matching.Carries.recode {M : Matching} {code code' : Code} {h h' : Heap} (carries : M.Carries code h h')
    (more : ∀ id f, code id f → code' id f) : M.Carries code' h h' where
  unique := carries.unique
  frames pair := by
    obtain ⟨frame, frame', found, found', alike⟩ := carries.frames pair
    exact ⟨frame, frame', found, found', alike.recode more⟩

/-- What corresponds, and what has come to correspond since on another machine. -/
def Matching.join (M M' : Matching) (x : Machine) : Matching where
  frames f g := M.frames f g ∨ M'.frames f g ∧ x.heap.size ≤ (f : Nat)
  identities i j := M.identities i j ∨ M'.identities i j ∧ x.fresh ≤ i

/-- Values of a list that are alike are so for what leads to frames and identities of a machine, if the values hold only these. -/
lemma Option.Rel.into {M : Matching} {code code' : Code} {m : Machine} {o o' : Option Value} (h : Option.Rel (Value.Alike M code) o o')
    (self : Option.Rel (Value.Alike m.below code') o' o') : Option.Rel (Value.Alike (M.into m) code') o o' := by
  cases h with
  | none => exact .none
  | some alike =>
    cases self with
    | some self => exact .some (alike.into _ self)

lemma Option.Rel.self {α : Type} {R R' : α → α → Prop} {o o' : Option α} (h : Option.Rel R o o') (right : ∀ a b, R a b → R' b b) :
    Option.Rel R' o' o' := by
  cases h with
  | none => exact .none
  | some h => exact .some (right _ _ h)

namespace Machine

variable {M : Matching} {code code' : Code} {id : ModuleId} {x z : Machine}

/-- Another module begins to run. -/
lemma SameAt.begun {other : ModuleId} (apart : id ≠ other) : SameAt id x (Eval.begun other x) where
  state := by simp [Eval.begun, List.lookup_cons, beq_false_of_ne apart]
  items _ := rfl
  assembly := rfl
  root := by simp [Eval.begun, List.lookup_cons, beq_false_of_ne apart]

/-- A module has run to its end, with the value of its last statement. -/
def finished (id : ModuleId) (loaded : LoadedModule) (v : Value) (m : Machine) : Machine :=
  { m with
    states := (id, .done) :: m.states
    assemblies := if loaded.isAssembly then (id, v) :: m.assemblies else m.assemblies }

/-- A module has failed. -/
def aborted (id : ModuleId) (e : RuntimeError) (m : Machine) : Machine :=
  { m with states := (id, .failed e) :: m.states }

lemma SameAt.finished {other : ModuleId} {loaded : LoadedModule} {v : Value} (apart : id ≠ other) :
    SameAt id x (x.finished other loaded v) where
  state := by simp [Machine.finished, List.lookup_cons, beq_false_of_ne apart]
  items _ := rfl
  assembly := by
    unfold Machine.finished
    split
    · simp [List.lookup_cons, beq_false_of_ne apart]
    · rfl
  root := rfl

lemma SameAt.aborted {other : ModuleId} {e : RuntimeError} (apart : id ≠ other) : SameAt id x (x.aborted other e) where
  state := by simp [Machine.aborted, List.lookup_cons, beq_false_of_ne apart]
  items _ := rfl
  assembly := rfl
  root := rfl

lemma finished_state {loaded : LoadedModule} {v : Value} : (x.finished id loaded v).states.lookup id = some .done := by
  simp [finished]

lemma aborted_state {e : RuntimeError} : (x.aborted id e).states.lookup id = some (.failed e) := by
  simp [aborted]

/-- What is known of a module that has run to its end is alike if what was known before is, and the values. -/
lemma AlikeAt.finished {loaded : LoadedModule} {v w : Value} (h : AlikeAt M code id x z) (alike : v.Alike M code w) :
    AlikeAt M code id (x.finished id loaded v) (z.finished id loaded w) where
  items := h.items
  assembly := by
    unfold Machine.finished
    cases loaded.isAssembly with
    | false => exact h.assembly
    | true => simpa using alike
  root := h.root

lemma AlikeAt.into (h : AlikeAt M code id x z) (self : AlikeAt z.below code' id z z) : AlikeAt (M.into z) code' id x z where
  items name := Option.Rel.into (h.items name) (self.items name)
  assembly := Option.Rel.into h.assembly self.assembly
  root := by
    have pair := h.root
    have inside := self.root
    generalize x.roots.lookup id = f at pair ⊢
    generalize z.roots.lookup id = g at pair inside ⊢
    cases pair with
    | none => exact .none
    | some pair =>
      cases inside with
      | some inside => exact .some ⟨pair, inside.2⟩

lemma AlikeAt.self (h : AlikeAt M code id x z) (frames : ∀ {f g}, M.frames f g → (g : Nat) < z.heap.size)
    (identities : ∀ {i j}, M.identities i j → j < z.fresh) : AlikeAt z.below code id z z where
  items name := Option.Rel.self (h.items name) fun _ _ alike => Value.Alike.self frames identities _ alike
  assembly := Option.Rel.self h.assembly fun _ _ alike => Value.Alike.self frames identities _ alike
  root := Option.Rel.self h.root fun _ _ pair => ⟨rfl, frames pair⟩

end Machine

namespace Ahead

/-- Beside the first modules of a rehearsal. -/
noncomputable def behind (R : Rehearsal) (k : Nat) (slack : Slack) (x : Machine) (base : Matching) : Ahead :=
  ⟨R, k, none, slack, x, R.stage k, base, .refl, fun _ owned => nomatch owned⟩

/-- Beside the first modules of a rehearsal, on behalf of a module that is running. -/
noncomputable def onBehalf (R : Rehearsal) (k : Nat) (slack : Slack) (x : Machine) (base : Matching) (id : ModuleId)
    (here : R.order[k]? = some id) : Ahead :=
  ⟨R, k, some id, slack, x, R.stage k, base, .refl, fun _ owned => Option.some.inj owned ▸ here⟩

variable {T : Ahead} {M M' N : Matching} {x y x' z : Machine} {f g : FrameId} {id : ModuleId} {v w : Value} {R : Rehearsal}
  {i k : Nat} {slack : Slack}

lemma behind_unowned {base : Matching} : (behind R k slack x base).owner ≠ some id :=
  nofun

namespace Beside

/-- Frames that were there at an earlier stage are there. -/
lemma stage_frame (h : T.Beside M x y) (le : i ≤ T.count) {g : Nat} (inside : g < (T.rehearsal.stage i).heap.size) :
    y.heap[g]? = (T.rehearsal.stage i).heap[g]? := by
  have kept : (T.rehearsal.stage i).Keeps T.right := (Rehearsal.stage_keeps le).trans T.keeps
  exact (kept.trans h.right).heap inside

/-- A module that has run has run in the rehearsal. -/
lemma stage_done (h : T.Beside M x y) (early : T.rehearsal.Early T.count id) (done : x.states.lookup id = some .done) :
    T.stage.states.lookup id = some .done ∧ x.AlikeAt M T.region.code id T.stage := by
  cases h.mirrors early with
  | blank blank => cases blank.state.symm.trans done
  | failed known => cases known.symm.trans done
  | done _ known alike => exact ⟨known, alike⟩

/-- What a machine is beside it was beside at every stage, as far as that has got. -/
lemma restrict (h : T.Beside M x y) (le : i ≤ T.count) :
    (behind T.rehearsal i T.slack x (M.into (T.rehearsal.stage i))).Beside (M.into (T.rehearsal.stage i)) x (T.rehearsal.stage i) where
  unique := h.unique.of_within Matching.into_within
  frames {f g} pair := by
    obtain ⟨id, of⟩ := Rehearsal.frameOf_of_lt pair.2
    obtain ⟨frame, frame', found, found', alike⟩ := h.frames pair.1
    have later := of.later le
    have early : T.rehearsal.Early i id := by
      obtain ⟨j, before, here, -⟩ := of
      exact ⟨j, before, here⟩
    obtain ⟨j, before, here⟩ := early
    obtain ⟨done, -⟩ := h.stage_done ⟨j, Nat.lt_of_lt_of_le before le, here⟩ (h.seenFrame pair.1 later)
    have done' : (T.rehearsal.stage i).states.lookup id = some .done :=
      (Rehearsal.stage_later ⟨j, before, here⟩ le).state.symm.trans done
    have there : (T.rehearsal.stage i).heap[(g : Nat)]? = some frame' := (h.stage_frame le pair.2).symm.trans found'
    exact ⟨frame, frame', found, there, alike.into (Rehearsal.stage_frames of done' there)⟩
  left := .refl
  right := .refl
  identities pair := ⟨(h.identities pair.1).1, pair.2⟩
  mirrors {id} early := by
    obtain ⟨j, before, here⟩ := early
    have later : Machine.SameAt id (T.rehearsal.stage i) T.stage := Rehearsal.stage_later ⟨j, before, here⟩ le
    cases (h.mirrors ⟨j, Nat.lt_of_lt_of_le before le, here⟩).same .refl later.symm with
    | blank blank => exact .blank blank
    | failed known known' => exact .failed known known'
    | done known known' alike => exact .done known known' (alike.into (Rehearsal.stage_records known'))
  known _ := .refl
  beyond _ _ := .refl
  kept _ known := known
  running owned := nomatch owned
  seenFrame pair of := h.seenFrame pair.1 (Rehearsal.FrameOf.later of le)
  seenIdentity pair of := h.seenIdentity pair.1 (Rehearsal.IdentityOf.later of le)
  newFrame pair := Or.inl pair
  newIdentity pair := Or.inl pair
  covered above inside := absurd inside (Nat.not_lt_of_le above)
  imports := h.imports

/-- A module begins to run of which nothing is known, on both machines. -/
lemma begin (h : (behind R k slack x N).Beside M x' z) (here : R.order[k]? = some id) (blank : Machine.SameAt id .new x')
    (blank' : Machine.SameAt id .new z) :
    (onBehalf R k slack x N id here).Beside (M.withFrame x'.heap.size z.heap.size) (begun id x') (begun id z) := by
  have more (other : ModuleId) (f : Lambda) (allowed : (behind R k slack x N).region.code other f) :
      (onBehalf R k slack x N id here).region.code other f :=
    Rehearsal.region_mono (fun done => done) (fun _ owned => by cases owned) other f allowed
  have pushed (m : Machine) : m.Keeps (begun id m) := by
    have opened : m.Keeps { m with heap := m.heap.push none } := .push .refl
    exact opened.trans (.of_eq rfl rfl)
  have size : (z.heap.push none).size = z.heap.size + 1 := Heap.size_push
  have unowned {other : ModuleId} (owned : some id ≠ some other) : other ≠ id := by
    rintro rfl
    exact owned rfl
  have apart {other : ModuleId} {s : RunState} (known : x'.states.lookup other = some s) : other ≠ id := by
    rintro rfl
    cases blank.state.symm.trans known
  constructor
  case toCarries => exact h.toCarries.pushRoot.recode more
  case left => exact h.left.trans (pushed x')
  case right => exact h.right.trans (pushed z)
  case identities => exact h.identities
  case mirrors =>
    intro other early
    have apart : other ≠ id := fun same => Rehearsal.not_early here (same ▸ early)
    exact ((h.mirrors early).mono Matching.within_withFrame more).same (.begun apart) .refl
  case known => exact fun owned => (h.known behind_unowned).trans (.begun (unowned owned))
  case beyond => exact fun late' owned => (h.beyond late' behind_unowned).trans (.begun (unowned owned))
  case kept => exact fun owned known => (Machine.SameAt.begun (unowned owned)).state.trans (h.kept behind_unowned known)
  case running =>
    intro other owned
    obtain rfl : id = other := Option.some.inj owned
    refine ⟨by simp [begun], by simp [begun], fun name => ?_, ?_, ?_⟩
    · show Option.Rel _ (x'.items.lookup (id, name)) (z.items.lookup (id, name))
      rw [blank.items, blank'.items]
      exact .none
    · show Option.Rel _ (x'.assemblies.lookup id) (z.assemblies.lookup id)
      rw [blank.assembly, blank'.assembly]
      exact .none
    · simp only [begun, List.lookup_cons, beq_self_eq_true]
      exact .some (Or.inr ⟨rfl, rfl⟩)
  case seenFrame =>
    rintro f g other (old | ⟨rfl, rfl⟩) of
    · have done := h.seenFrame old of
      exact (Machine.SameAt.begun (apart done)).state.trans done
    · exact absurd (Nat.lt_of_lt_of_le (Rehearsal.FrameOf.lt of) h.right.size) (Nat.lt_irrefl _)
  case seenIdentity =>
    intro i j other pair of
    have done := h.seenIdentity pair of
    exact (Machine.SameAt.begun (apart done)).state.trans done
  case newFrame =>
    rintro f g (old | ⟨rfl, rfl⟩)
    · exact h.newFrame old
    · refine Or.inr ⟨h.left.size, fun other of => ?_⟩
      exact absurd (Nat.lt_of_lt_of_le (Rehearsal.FrameOf.lt of) h.right.size) (Nat.lt_irrefl _)
  case newIdentity => exact h.newIdentity
  case covered =>
    intro g above inside
    by_cases old : g < z.heap.size
    · obtain ⟨f, pair⟩ := h.covered above old
      exact ⟨f, Or.inl pair⟩
    · replace inside : g < (z.heap.push none).size := inside
      obtain rfl : g = z.heap.size := by omega
      exact ⟨_, Or.inr ⟨rfl, rfl⟩⟩
  case imports =>
    intro other target done imports
    have apart' : other ≠ id := fun same => by simp [begun, same] at done
    have started := h.imports ((Machine.SameAt.begun apart').state.symm.trans done) imports
    by_cases same : target = id
    · simp [begun, same]
    · exact (Machine.SameAt.begun same).state.symm ▸ started

/-- What a module has made that has run to its end is taken into the rehearsal. -/
lemma adopts_finished {here : R.order[k]? = some id} (h : (onBehalf R k slack x N id here).Beside M x' z) (loaded : LoadedModule)
    (alike : (onBehalf R k slack x N id here).region.Alike M v w)
    (passed : ∀ target, R.program.ImportsAtTop id target → (R.stage k).states.lookup target = some .done) :
    (R.stage k).Adopts R.program id (z.finished id loaded w) := by
  have others (other : ModuleId) (apart : other ≠ id) : Machine.SameAt other (R.stage k) (z.finished id loaded w) :=
    (h.known fun same => apart (Option.some.inj same).symm).trans (.finished apart)
  have done {other : ModuleId} (known : (R.stage k).states.lookup other = some .done) :
      (z.finished id loaded w).states.lookup other = some .done := by
    by_cases same : other = id
    · exact same ▸ Machine.finished_state
    · exact (others other same).state.trans known
  have more (other : ModuleId) (f : Lambda) (allowed : (onBehalf R k slack x N id here).region.code other f) :
      ((z.finished id loaded w).region R.program none).code other f := by
    refine Rehearsal.region_mono done (fun other owned => ?_) other f allowed
    obtain rfl : id = other := Option.some.inj owned
    exact Or.inl Machine.finished_state
  have frames {f g : FrameId} (pair : M.frames f g) : (g : Nat) < (z.finished id loaded w).heap.size := (h.frame_lt pair).2
  have identities {i j : Nat} (pair : M.identities i j) : j < (z.finished id loaded w).fresh := (h.identities pair).2
  constructor
  case toKeeps => exact h.right.trans (.of_eq rfl rfl)
  case others => exact others
  case ended => exact Or.inl Machine.finished_state
  case frames =>
    intro _ g frame above found
    obtain ⟨f, pair⟩ := h.covered above (Array.getElem?_eq_some_iff.1 found).1
    obtain ⟨_, frame', -, found', same⟩ := h.frames pair
    obtain rfl : frame' = frame := Option.some.inj (found'.symm.trans found)
    exact (same.self frames identities).recode more
  case records =>
    intro _
    obtain ⟨-, -, known⟩ := h.running rfl
    exact ((known.finished alike).self frames identities).mono .refl more
  case imports => exact fun _ target imports => done (passed target imports)

/-- So is what a module has made that has failed. -/
lemma adopts_aborted {here : R.order[k]? = some id} {e : RuntimeError} (h : (onBehalf R k slack x N id here).Beside M x' z) :
    (R.stage k).Adopts R.program id (z.aborted id e) := by
  have failed : (z.aborted id e).states.lookup id ≠ some .done := by simp [Machine.aborted_state]
  exact {
    toKeeps := h.right.trans (.of_eq rfl rfl)
    others := fun other apart => (h.known fun same => apart (Option.some.inj same).symm).trans (.aborted apart)
    ended := Or.inr ⟨e, Machine.aborted_state⟩
    frames := fun done => absurd done failed
    records := fun done => absurd done failed
    imports := fun done => absurd done failed }

lemma early_succ {other : ModuleId} (here : R.order[k]? = some id) (early : R.Early (k + 1) other) :
    R.Early k other ∨ other = id := by
  obtain ⟨j, before, there⟩ := early
  rcases Nat.lt_succ_iff_lt_or_eq.1 before with less | rfl
  · exact Or.inl ⟨j, less, there⟩
  · exact Or.inr (Option.some.inj (there.symm.trans here))

/-- A frame of one more module. -/
lemma frameOf_succ {other : ModuleId} {g : FrameId} (here : R.order[k]? = some id) (of : R.FrameOf (k + 1) g other) :
    R.FrameOf k g other ∨ other = id := by
  obtain ⟨j, before, there, inside⟩ := of
  rcases Nat.lt_succ_iff_lt_or_eq.1 before with less | rfl
  · exact Or.inl ⟨j, less, there, inside⟩
  · exact Or.inr (Option.some.inj (there.symm.trans here))

lemma identityOf_succ {other : ModuleId} {j : Nat} (here : R.order[k]? = some id) (of : R.IdentityOf (k + 1) j other) :
    R.IdentityOf k j other ∨ other = id := by
  obtain ⟨l, before, there, inside⟩ := of
  rcases Nat.lt_succ_iff_lt_or_eq.1 before with less | rfl
  · exact Or.inl ⟨l, less, there, inside⟩
  · exact Or.inr (Option.some.inj (there.symm.trans here))

/-! ### When the module has ended

Only what is known of the module itself changes then, so of any other module the machine says what it said while the module was
running. -/

section Ended

variable {m : Machine} {other target : ModuleId} {here : R.order[k]? = some id}

lemma ended_beyond (h : (onBehalf R k slack x N id here).Beside M x' z) (others : ∀ other, other ≠ id → Machine.SameAt other x' m)
    (late : ¬ R.Early (k + 1) other) : Machine.SameAt other x m := by
  have apart : other ≠ id := fun same => late (same ▸ ⟨k, Nat.lt_succ_self k, here⟩)
  have late' : ¬ R.Early k other := fun ⟨j, before, there⟩ => late ⟨j, Nat.lt_succ_of_lt before, there⟩
  exact (h.beyond late' fun owned => apart (Option.some.inj owned).symm).trans (others other apart)

lemma ended_kept (h : (onBehalf R k slack x N id here).Beside M x' z) (others : ∀ other, other ≠ id → Machine.SameAt other x' m)
    (blank : x.states.lookup id = none) {s : RunState} (known : x.states.lookup other = some s) :
    m.states.lookup other = some s := by
  have apart : other ≠ id := by
    rintro rfl
    cases blank.symm.trans known
  exact (others other apart).state.trans (h.kept (fun owned => apart (Option.some.inj owned).symm) known)

lemma ended_frame (h : (onBehalf R k slack x N id here).Beside M x' z) (others : ∀ other, other ≠ id → Machine.SameAt other x' m)
    (pair : M.frames f g) (of : R.FrameOf k g other) : m.states.lookup other = some .done := by
  obtain ⟨j, before, there, inside⟩ := of
  have apart : other ≠ id := fun same => Rehearsal.not_early here (same ▸ ⟨j, before, there⟩)
  exact (others other apart).state.trans (h.seenFrame pair ⟨j, before, there, inside⟩)

lemma ended_identity (h : (onBehalf R k slack x N id here).Beside M x' z) (others : ∀ other, other ≠ id → Machine.SameAt other x' m)
    {a b : Nat} (pair : M.identities a b) (of : R.IdentityOf k b other) : m.states.lookup other = some .done := by
  obtain ⟨j, before, there, inside⟩ := of
  have apart : other ≠ id := fun same => Rehearsal.not_early here (same ▸ ⟨j, before, there⟩)
  exact (others other apart).state.trans (h.seenIdentity pair ⟨j, before, there, inside⟩)

lemma ended_imports (h : (onBehalf R k slack x N id here).Beside M x' z) (others : ∀ other, other ≠ id → Machine.SameAt other x' m)
    (ended : m.states.lookup id ≠ none) (done : m.states.lookup other = some .done) (imports : R.program.ImportsAtTop other target)
    (imported : other = id → x'.states.lookup target ≠ none) : m.states.lookup target ≠ none := by
  have started : x'.states.lookup target ≠ none := by
    by_cases same : other = id
    · exact imported same
    · exact h.imports ((others other same).state.symm.trans done) imports
  by_cases same : target = id
  · exact same ▸ ended
  · exact (others target same).state.symm ▸ started

end Ended

/-- A module has run to its end as it did in the rehearsal. -/
lemma finish {here : R.order[k]? = some id} (h : (onBehalf R k slack x N id here).Beside M x' z) (loaded : LoadedModule)
    (blank : x.states.lookup id = none)
    (alike : (onBehalf R k slack x N id here).region.Alike M v w) (next : R.stage (k + 1) = z.finished id loaded w)
    (imported : ∀ target, R.program.ImportsAtTop id target → x'.states.lookup target ≠ none) :
    (behind R (k + 1) slack x N).Beside M (x'.finished id loaded v) (R.stage (k + 1)) := by
  have done : (R.stage (k + 1)).states.lookup id = some .done := next ▸ Machine.finished_state
  have more (other : ModuleId) (f : Lambda) (allowed : (onBehalf R k slack x N id here).region.code other f) :
      (behind R (k + 1) slack x N).region.code other f := by
    refine Rehearsal.region_mono (Rehearsal.stage_done (Nat.le_succ k)) (fun other owned => ?_) other f allowed
    obtain rfl : id = other := Option.some.inj owned
    exact Or.inl done
  have apart {other : ModuleId} (early : R.Early k other) : other ≠ id := fun same => Rehearsal.not_early here (same ▸ early)
  have others (other : ModuleId) (apart : other ≠ id) : Machine.SameAt other x' (x'.finished id loaded v) := .finished apart
  constructor
  case toCarries => exact next ▸ h.toCarries.recode more
  case left => exact h.left.trans (.of_eq rfl rfl)
  case right => exact .refl
  case identities => exact fun pair => next ▸ h.identities pair
  case mirrors =>
    intro other early
    rcases early_succ here early with early | rfl
    · exact ((h.mirrors early).mono .refl more).same (.finished (apart early)) (Rehearsal.stage_later early (Nat.le_succ k))
    · obtain ⟨-, -, known⟩ := h.running rfl
      have stage : (behind R (k + 1) slack x N).stage = z.finished other loaded w := next
      exact .done Machine.finished_state done (stage ▸ (known.finished alike).mono .refl more)
  case known => exact fun _ => .refl
  case beyond => exact fun late _ => h.ended_beyond others late
  case kept => exact fun _ known => h.ended_kept others blank known
  case running => exact fun owned => absurd owned behind_unowned
  case seenFrame =>
    intro f g other pair of
    rcases frameOf_succ here of with old | rfl
    · exact h.ended_frame others pair old
    · exact Machine.finished_state
  case seenIdentity =>
    intro i j other pair of
    rcases identityOf_succ here of with old | rfl
    · exact h.ended_identity others pair old
    · exact Machine.finished_state
  case newFrame =>
    refine fun pair => (h.newFrame pair).imp_right fun ⟨above, unseen⟩ => ⟨above, fun other of => ?_⟩
    rcases frameOf_succ here of with old | rfl
    · exact unseen other old
    · exact blank
  case newIdentity =>
    refine fun pair => (h.newIdentity pair).imp_right fun ⟨above, unseen⟩ => ⟨above, fun other of => ?_⟩
    rcases identityOf_succ here of with old | rfl
    · exact unseen other old
    · exact blank
  case covered => exact fun above inside => absurd inside (Nat.not_lt_of_le above)
  case imports =>
    intro other target done imports
    exact h.ended_imports others (by simp [Machine.finished_state]) done imports fun same => imported target (same ▸ imports)

/-- A module has failed as it did in the rehearsal. What it has made is left behind. -/
lemma abort {here : R.order[k]? = some id} {e : RuntimeError} (h : (onBehalf R k slack x N id here).Beside M x' z)
    (blank : x.states.lookup id = none) (next : R.stage (k + 1) = z.aborted id e) :
    (behind R (k + 1) slack x N).Beside (M.into (R.stage k)) (x'.aborted id e) (R.stage (k + 1)) := by
  have before := h.restrict (Nat.le_refl k)
  have more := Rehearsal.stage_region (R := R) (Nat.le_succ k)
  have keeps : (R.stage k).Keeps (R.stage (k + 1)) := Rehearsal.stage_keeps (Nat.le_succ k)
  have apart {other : ModuleId} (early : R.Early k other) : other ≠ id := fun same => Rehearsal.not_early here (same ▸ early)
  have others (other : ModuleId) (apart : other ≠ id) : Machine.SameAt other x' (x'.aborted id e) := .aborted apart
  constructor
  case toCarries =>
    refine ⟨before.unique, fun {f g} pair => ?_⟩
    obtain ⟨frame, frame', found, found', alike⟩ := before.frames pair
    exact ⟨frame, frame', found, (keeps.heap pair.2).trans found', alike.recode more⟩
  case left => exact h.left.trans (.of_eq rfl rfl)
  case right => exact .refl
  case identities => exact fun pair => ⟨(h.identities pair.1).1, Nat.lt_of_lt_of_le pair.2 keeps.fresh⟩
  case mirrors =>
    intro other early
    rcases early_succ here early with early | rfl
    · exact ((before.mirrors early).mono .refl more).same (.aborted (apart early)) (Rehearsal.stage_later early (Nat.le_succ k))
    · have stage : (behind R (k + 1) slack x N).stage = z.aborted other e := next
      exact .failed Machine.aborted_state (stage ▸ Machine.aborted_state)
  case known => exact fun _ => .refl
  case beyond => exact fun late _ => h.ended_beyond others late
  case kept => exact fun _ known => h.ended_kept others blank known
  case running => exact fun owned => absurd owned behind_unowned
  case seenFrame => exact fun pair of => h.ended_frame others pair.1 (Rehearsal.FrameOf.earlier of pair.2)
  case seenIdentity => exact fun pair of => h.ended_identity others pair.1 (Rehearsal.IdentityOf.earlier of pair.2)
  case newFrame =>
    exact fun pair => (h.newFrame pair.1).imp_right fun ⟨above, unseen⟩ =>
      ⟨above, fun other of => unseen other (Rehearsal.FrameOf.earlier of pair.2)⟩
  case newIdentity =>
    exact fun pair => (h.newIdentity pair.1).imp_right fun ⟨above, unseen⟩ =>
      ⟨above, fun other of => unseen other (Rehearsal.IdentityOf.earlier of pair.2)⟩
  case covered => exact fun above inside => absurd inside (Nat.not_lt_of_le above)
  case imports =>
    intro other target done imports
    refine h.ended_imports others (by simp [Machine.aborted_state]) done imports fun same => ?_
    cases Machine.aborted_state.symm.trans (same ▸ done)

end Beside

namespace Beside

variable {x'' : Machine}

/-- What has come to correspond while a module was run corresponds when it has run. -/
lemma within_join (inner : (behind R k slack x (M.into z)).Beside M' x'' y) : M'.Within (M.join M' x) where
  frames pair := (inner.newFrame pair).elim (fun old => Or.inl old.1) fun new => Or.inr ⟨pair, new.1⟩
  identities pair := (inner.newIdentity pair).elim (fun old => Or.inl old.1) fun new => Or.inr ⟨pair, new.1⟩

/-- When a module has been run on the way, the machine is beside what it was beside before. -/
lemma join (h : T.Beside M x y) (before : i < T.count)
    (inner : (behind T.rehearsal (i + 1) T.slack x (M.into (T.rehearsal.stage i))).Beside M' x'' (T.rehearsal.stage (i + 1))) :
    T.Beside (M.join M' x) x'' y := by
  have within : M.Within (M.join M' x) := ⟨Or.inl, Or.inl⟩
  have more (id : ModuleId) (f : Lambda)
      (allowed : (behind T.rehearsal (i + 1) T.slack x (M.into (T.rehearsal.stage i))).region.code id f) : T.region.code id f :=
    Rehearsal.region_mono (Rehearsal.stage_done before) (fun _ owned => by cases owned) id f allowed
  have later {id : ModuleId} (early : T.rehearsal.Early (i + 1) id) : T.rehearsal.Early T.count id := by
    obtain ⟨j, less, there⟩ := early
    exact ⟨j, Nat.lt_of_lt_of_le less before, there⟩
  -- what is new on one of the machines is new on the other
  have newFrame {f g : FrameId} (pair : M'.frames f g) (above : x.heap.size ≤ (f : Nat)) {id : ModuleId}
      (of : T.rehearsal.FrameOf (i + 1) g id) : x.states.lookup id = none := by
    rcases inner.newFrame pair with old | ⟨-, unseen⟩
    · exact absurd (h.frame_lt old.1).1 (Nat.not_lt_of_le above)
    · exact unseen id of
  have newIdentity {a b : Nat} (pair : M'.identities a b) (above : x.fresh ≤ a) {id : ModuleId}
      (of : T.rehearsal.IdentityOf (i + 1) b id) : x.states.lookup id = none := by
    rcases inner.newIdentity pair with old | ⟨-, unseen⟩
    · exact absurd (h.identities old.1).1 (Nat.not_lt_of_le above)
    · exact unseen id of
  have unstarted {id : ModuleId} (early : T.rehearsal.Early T.count id) (fresh : x.states.lookup id = none) :
      T.left.states.lookup id = none := by
    by_contra known
    obtain ⟨s, known⟩ := Option.ne_none_iff_exists'.1 known
    cases fresh.symm.trans (h.kept (fun owned => T.late id owned early) known)
  constructor
  case toCarries =>
    -- an old pair belongs to a module that had run before, a new one to a module that had not
    refine ⟨⟨Relator.BiUnique.or h.unique.frames ?_ ?_, Relator.BiUnique.or h.unique.identities ?_ ?_⟩, ?_⟩
    · exact ⟨fun _ _ _ pair pair' => inner.unique.frames.1 pair.1 pair'.1, fun _ _ _ pair pair' => inner.unique.frames.2 pair.1 pair'.1⟩
    · rintro f g f' g' old ⟨pair, above⟩
      refine ⟨Nat.ne_of_lt (Nat.lt_of_lt_of_le (h.frame_lt old).1 above), ?_⟩
      rintro rfl
      obtain ⟨id, of⟩ := Rehearsal.frameOf_of_lt (inner.frame_lt pair).2
      cases (newFrame pair above of).symm.trans (h.seenFrame old (of.later before))
    · exact ⟨fun _ _ _ pair pair' => inner.unique.identities.1 pair.1 pair'.1,
        fun _ _ _ pair pair' => inner.unique.identities.2 pair.1 pair'.1⟩
    · rintro a b a' b' old ⟨pair, above⟩
      refine ⟨Nat.ne_of_lt (Nat.lt_of_lt_of_le (h.identities old).1 above), ?_⟩
      rintro rfl
      obtain ⟨id, of⟩ := Rehearsal.identityOf_of_lt (inner.identities pair).2
      cases (newIdentity pair above of).symm.trans (h.seenIdentity old (of.later before))
    · rintro f g (old | ⟨pair, -⟩)
      · obtain ⟨frame, frame', found, found', alike⟩ := h.frames old
        exact ⟨frame, frame', (inner.left.heap (h.frame_lt old).1).trans found, found', alike.mono within⟩
      · obtain ⟨frame, frame', found, found', alike⟩ := inner.frames pair
        have there := (h.stage_frame before (inner.frame_lt pair).2).trans found'
        exact ⟨frame, frame', found, there, (alike.mono inner.within_join).recode more⟩
  case left => exact h.left.trans inner.left
  case right => exact h.right
  case identities =>
    rintro a b (old | ⟨pair, -⟩)
    · exact (h.identities old).imp_left fun below => Nat.lt_of_lt_of_le below inner.left.fresh
    · have kept : (T.rehearsal.stage (i + 1)).Keeps T.right := (Rehearsal.stage_keeps before).trans T.keeps
      exact (inner.identities pair).imp_right fun below => Nat.lt_of_lt_of_le below (kept.trans h.right).fresh
  case mirrors =>
    intro id early
    by_cases run : T.rehearsal.Early (i + 1) id
    · exact ((inner.mirrors run).mono inner.within_join more).same .refl (Rehearsal.stage_later run before)
    · exact ((h.mirrors early).mono within fun _ _ allowed => allowed).same (inner.beyond run behind_unowned) .refl
  case known => exact h.known
  case beyond => exact fun late owned => (h.beyond late owned).trans (inner.beyond (fun early => late (later early)) behind_unowned)
  case kept => exact fun owned known => inner.kept behind_unowned (h.kept owned known)
  case running =>
    intro id owned
    obtain ⟨state, state', alike⟩ := h.running owned
    have same : Machine.SameAt id x x'' := inner.beyond (fun early => T.late id owned (later early)) behind_unowned
    exact ⟨same.state.trans state, state', (alike.mono within fun _ _ allowed => allowed).same same .refl⟩
  case seenFrame =>
    rintro f g id (old | ⟨pair, -⟩) of
    · exact inner.kept behind_unowned (h.seenFrame old of)
    · exact inner.seenFrame pair (of.earlier (inner.frame_lt pair).2)
  case seenIdentity =>
    rintro a b id (old | ⟨pair, -⟩) of
    · exact inner.kept behind_unowned (h.seenIdentity old of)
    · exact inner.seenIdentity pair (of.earlier (inner.identities pair).2)
  case newFrame =>
    rintro f g (old | ⟨pair, above⟩)
    · exact h.newFrame old
    · refine Or.inr ⟨Nat.le_trans h.left.size above, fun id of => ?_⟩
      have of' := of.earlier (inner.frame_lt pair).2
      obtain ⟨j, less, there, -⟩ := of
      exact unstarted ⟨j, less, there⟩ (newFrame pair above of')
  case newIdentity =>
    rintro a b (old | ⟨pair, above⟩)
    · exact h.newIdentity old
    · refine Or.inr ⟨Nat.le_trans h.left.fresh above, fun id of => ?_⟩
      have of' := of.earlier (inner.identities pair).2
      obtain ⟨j, less, there, -⟩ := of
      exact unstarted ⟨j, less, there⟩ (newIdentity pair above of')
  case covered =>
    intro g above inside
    obtain ⟨f, pair⟩ := h.covered above inside
    exact ⟨f, Or.inl pair⟩
  case imports => exact inner.imports

end Beside

end Ahead

end PipeLang
