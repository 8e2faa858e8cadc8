import PipeLang.Proofs.Eval.Alike
import PipeLang.Proofs.Eval.Frames

/-!
# Heaps that correspond

Frames of one heap correspond to frames of another if they have values that are alike, inside of frames that correspond:
`Matching.Carries`. What evaluation does to a frame, done to both, leaves them so, and so does a frame that is opened, or an identity that
is given away, when the new ones come to correspond. What evaluation does to frames of its own keeps the others: `Machine.Keeps`.
-/

namespace PipeLang

lemma Relator.BiUnique.or {α β : Type} {R R' : α → β → Prop} (h : Relator.BiUnique R) (h' : Relator.BiUnique R')
    (apart : ∀ {a b a' b'}, R a b → R' a' b' → a ≠ a' ∧ b ≠ b') : Relator.BiUnique fun a b => R a b ∨ R' a b := by
  constructor
  · rintro a a' b (r | r) (r' | r')
    · exact h.1 r r'
    · exact absurd rfl (apart r r').2
    · exact absurd rfl (apart r' r).2
    · exact h'.1 r r'
  · rintro a b b' (r | r) (r' | r')
    · exact h.2 r r'
    · exact absurd rfl (apart r r').1
    · exact absurd rfl (apart r' r).1
    · exact h'.2 r r'

/-- Two things correspond to each other, and nothing else does. -/
lemma Relator.biUnique_single {α β : Type} (a : α) (b : β) : Relator.BiUnique fun a' b' => a' = a ∧ b' = b := by
  constructor
  · rintro _ _ _ ⟨rfl, -⟩ ⟨rfl, -⟩
    rfl
  · rintro _ _ _ ⟨-, rfl⟩ ⟨-, rfl⟩
    rfl

namespace Matching

/-- Two more frames correspond. -/
def withFrame (M : Matching) (f g : FrameId) : Matching :=
  { M with frames := fun f' g' => M.frames f' g' ∨ f' = f ∧ g' = g }

/-- Two more identities correspond. -/
def withIdentity (M : Matching) (i j : Nat) : Matching :=
  { M with identities := fun i' j' => M.identities i' j' ∨ i' = i ∧ j' = j }

variable {M M' M'' : Matching} {f g : FrameId} {i j : Nat}

lemma Within.refl : M.Within M :=
  ⟨id, id⟩

lemma Within.trans (h : M.Within M') (h' : M'.Within M'') : M.Within M'' :=
  ⟨fun f => h'.frames (h.frames f), fun i => h'.identities (h.identities i)⟩

lemma within_withFrame : M.Within (M.withFrame f g) :=
  ⟨Or.inl, id⟩

lemma within_withIdentity : M.Within (M.withIdentity i j) :=
  ⟨id, Or.inl⟩

lemma OneOne.withFrame (h : M.OneOne) (new : ∀ {f' g'}, M.frames f' g' → f' ≠ f ∧ g' ≠ g) : (M.withFrame f g).OneOne where
  frames := Relator.BiUnique.or h.frames (Relator.biUnique_single f g) <| by
    rintro f' g' _ _ pair ⟨rfl, rfl⟩
    exact new pair
  identities := h.identities

lemma OneOne.withIdentity (h : M.OneOne) (new : ∀ {i' j'}, M.identities i' j' → i' ≠ i ∧ j' ≠ j) :
    (M.withIdentity i j).OneOne where
  frames := h.frames
  identities := Relator.BiUnique.or h.identities (Relator.biUnique_single i j) <| by
    rintro i' j' _ _ pair ⟨rfl, rfl⟩
    exact new pair

end Matching

/-- Frames inside of frames that correspond, with values that are alike. -/
structure Frame.Alike (M : Matching) (code : Code) (a b : Frame) : Prop where
  outer : List.Forall₂ M.frames a.outer b.outer
  values : List.Forall₂ (sameKey (Value.Alike M code)) a.values b.values

lemma Frame.Alike.mono {M M' : Matching} {code : Code} {a b : Frame} (h : a.Alike M code b) (within : M.Within M') :
    a.Alike M' code b where
  outer := h.outer.imp fun _ _ => within.frames
  values := h.values.imp fun _ _ ⟨key, alike⟩ => ⟨key, alike.mono within fun _ _ => id⟩

/-- Frames of two heaps that correspond have values that are alike, and stand inside of frames that correspond. -/
structure Matching.Carries (M : Matching) (code : Code) (h h' : Heap) : Prop where
  unique : M.OneOne
  frames : ∀ {f g}, M.frames f g → ∃ frame frame', h[(f : Nat)]? = some frame ∧ h'[(g : Nat)]? = some frame' ∧
    frame.Alike M code frame'

namespace Matching.Carries

variable {M M' : Matching} {code : Code} {h h' : Heap} {f g : FrameId} {v w : Value}

lemma frame_lt (carries : M.Carries code h h') (pair : M.frames f g) : f < h.size ∧ g < h'.size := by
  obtain ⟨_, _, found, found', -⟩ := carries.frames pair
  exact ⟨(Array.getElem?_eq_some_iff.1 found).1, (Array.getElem?_eq_some_iff.1 found').1⟩

/-- The frames of a context correspond one by one. -/
lemma chain (carries : M.Carries code h h') (pair : M.frames f g) : List.Forall₂ M.frames (h.chain f) (h'.chain g) := by
  obtain ⟨frame, frame', found, found', alike⟩ := carries.frames pair
  simp only [Heap.chain, found, found']
  exact .cons pair alike.outer

lemma getLocal (carries : M.Carries code h h') (pair : M.frames f g) (id : BindingId) :
    Option.Rel (Value.Alike M code) (h.getLocal? f id) (h'.getLocal? g id) := by
  obtain ⟨frame, frame', found, found', alike⟩ := carries.frames pair
  simp only [Heap.getLocal?, found, found']
  exact lookup_rel alike.values id

/-- A binding has values that are alike in contexts that correspond. -/
lemma get (carries : M.Carries code h h') (pair : M.frames f g) (id : BindingId) :
    Option.Rel (Value.Alike M code) (h.get? f id) (h'.get? g id) := by
  unfold Heap.get?
  have chains := carries.chain pair
  generalize h.chain f = fs at chains ⊢
  generalize h'.chain g = gs at chains ⊢
  induction chains with
  | nil => exact .none
  | cons first _ ih =>
    have here := carries.getLocal first id
    simp only [List.findSome?_cons]
    generalize h.getLocal? _ id = v at here ⊢
    generalize h'.getLocal? _ id = w at here ⊢
    cases here with
    | some alike => exact .some alike
    | none => exact ih

/-- Two frames are opened, inside of frames that correspond. -/
lemma push (carries : M.Carries code h h') (pair : M.frames f g) :
    (M.withFrame h.size h'.size).Carries code (h.push (some f)) (h'.push (some g)) where
  unique := carries.unique.withFrame fun pair => (carries.frame_lt pair).imp Nat.ne_of_lt Nat.ne_of_lt
  frames {f' g'} pair' := by
    rcases pair' with old | ⟨rfl, rfl⟩
    · obtain ⟨frame, frame', found, found', alike⟩ := carries.frames old
      obtain ⟨inside, inside'⟩ := carries.frame_lt old
      exact ⟨frame, frame', (Heap.push_old inside).trans found, (Heap.push_old inside').trans found', alike.mono within_withFrame⟩
    · refine ⟨_, _, Array.getElem?_push_size, Array.getElem?_push_size, ?_, .nil⟩
      have chain := carries.chain pair
      obtain ⟨frame, frame', found, found', -⟩ := carries.frames pair
      simp only [Heap.chain, found, found'] at chain
      simp only [found, found', Option.map_some, Option.getD_some]
      exact chain.imp fun _ _ => Or.inl

/-- Frames that correspond are given values that are alike. -/
lemma define (carries : M.Carries code h h') (pair : M.frames f g) (id : BindingId) (alike : Value.Alike M code v w) :
    M.Carries code (h.define f id v) (h'.define g id w) where
  unique := carries.unique
  frames {f' g'} pair' := by
    obtain ⟨frame, frame', found, found', same⟩ := carries.frames pair'
    simp only [Heap.getElem?_define, found, found', Option.map_some]
    by_cases here : f = f'
    · obtain rfl : g = g' := carries.unique.frames.2 pair (here ▸ pair')
      rw [if_pos here, if_pos rfl]
      exact ⟨_, _, rfl, rfl, same.outer, .cons ⟨rfl, alike⟩ same.values⟩
    · have there : g ≠ g' := fun e => here (carries.unique.frames.1 pair (e ▸ pair'))
      rw [if_neg here, if_neg there]
      exact ⟨frame, frame', rfl, rfl, same⟩

/-- Two identities correspond that stood for nothing. -/
lemma issue {i j : Nat} (carries : M.Carries code h h') (new : ∀ {i' j'}, M.identities i' j' → i' ≠ i ∧ j' ≠ j) :
    (M.withIdentity i j).Carries code h h' where
  unique := carries.unique.withIdentity new
  frames pair := by
    obtain ⟨frame, frame', found, found', alike⟩ := carries.frames pair
    exact ⟨frame, frame', found, found', alike.mono within_withIdentity⟩

end Matching.Carries

/-! ### What is kept -/

/-- A machine has the frames of another as they were, and has given away its identities. -/
structure Machine.Keeps (m m' : Machine) : Prop where
  heap : ∀ {f : Nat}, f < m.heap.size → m'.heap[f]? = m.heap[f]?
  size : m.heap.size ≤ m'.heap.size
  fresh : m.fresh ≤ m'.fresh

namespace Machine.Keeps

variable {m m' m'' : Machine}

lemma refl : m.Keeps m :=
  ⟨fun _ => rfl, Nat.le_refl _, Nat.le_refl _⟩

lemma trans (h : m.Keeps m') (h' : m'.Keeps m'') : m.Keeps m'' :=
  ⟨fun inside => (h'.heap (Nat.lt_of_lt_of_le inside h.size)).trans (h.heap inside), Nat.le_trans h.size h'.size,
    Nat.le_trans h.fresh h'.fresh⟩

lemma of_eq (heap : m'.heap = m.heap) (fresh : m'.fresh = m.fresh) : m.Keeps m' :=
  ⟨fun _ => heap ▸ rfl, heap ▸ Nat.le_refl _, fresh ▸ Nat.le_refl _⟩

lemma push (h : m.Keeps m') {parent : Option FrameId} : m.Keeps { m' with heap := m'.heap.push parent } where
  heap inside := (Heap.push_old (Nat.lt_of_lt_of_le inside h.size)).trans (h.heap inside)
  size := Nat.le_trans h.size (by simp [Heap.size_push])
  fresh := h.fresh

lemma define {f : FrameId} {id : BindingId} {v : Value} (h : m.Keeps m') (above : m.heap.size ≤ f) :
    m.Keeps { m' with heap := m'.heap.define f id v } where
  heap inside := by
    rw [Heap.getElem?_define, if_neg (Nat.ne_of_gt (Nat.lt_of_lt_of_le inside above)), h.heap inside]
  size := by simpa [Heap.define] using h.size
  fresh := h.fresh

lemma issue (h : m.Keeps m') : m.Keeps { m' with fresh := m'.fresh + 1 } :=
  { h with fresh := Nat.le_succ_of_le h.fresh }

end Machine.Keeps

end PipeLang
