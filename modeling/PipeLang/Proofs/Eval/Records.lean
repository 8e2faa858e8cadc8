import PipeLang.Proofs.Eval.Script

/-!
# What becomes of modules

A machine records of every module that it has been begun and how it came to its end, and takes nothing back. A module is begun
at most once, and when a task has been evaluated, all modules that were begun on the way have come to their ends:
`Task.run_advances`. That is so for any program and any machine, however modules ask for each other.
-/

namespace PipeLang

open Eval

namespace Machine

/-- What has become of a module, the latest first. -/
def past (m : Machine) (id : ModuleId) : List RunState :=
  (m.states.filter fun entry => entry.1 == id).map Prod.snd

/-- A machine has all that another has recorded of modules. -/
def Remembers (m' m : Machine) : Prop :=
  m.states <:+ m'.states

/-- A machine has what another has entered under some keys, which belong to modules, and perhaps more: new keys, of modules that
have been begun since. -/
def Enters {κ : Type} (m m' : Machine) (owner : κ → ModuleId) (before behind : List (κ × Value)) : Prop :=
  ∃ added, behind = added ++ before ∧ (added.map Prod.fst).Nodup ∧
    ∀ entry ∈ added, m.past (owner entry.1) = [] ∧ m'.past (owner entry.1) ≠ []

/-- What becomes of modules: nothing, or those that can be used and had not been begun have been begun and have come to their
ends, unless a machine is met on the way there. No value of an exported definition is lost. -/
structure Proceeds (p : Program) (midway : Prop) (m m' : Machine) : Prop where
  states : m'.Remembers m
  modules : ∀ id, m'.past id = m.past id ∨ m.past id = [] ∧ p.Usable id ∧
    (midway ∧ m'.past id = [.running] ∨ ∃ s, s ≠ .running ∧ m'.past id = [s, .running])
  assemblies : m.Enters m' id m.assemblies m'.assemblies
  values : m.items <:+ m'.items

variable {p : Program} {m m' m'' : Machine} {id id' : ModuleId} {midway : Prop}

lemma past_cons {s : RunState} {states : List (ModuleId × RunState)} (same : m'.states = (id, s) :: states)
    (same' : m.states = states) : m'.past id' = if id = id' then s :: m.past id' else m.past id' := by
  unfold past
  rw [same, same', List.filter_cons]
  by_cases here : id = id' <;> simp [here]

lemma past_of_states (same : m'.states = m.states) : m'.past = m.past := by
  funext id
  rw [past, past, same]

lemma lookup_states : m.states.lookup id = (m.past id).head? := by
  unfold past
  induction m.states with
  | nil => rfl
  | cons entry states ih =>
    obtain ⟨i, s⟩ := entry
    rw [List.lookup_cons, List.filter_cons]
    by_cases here : id = i
    · simp [here]
    · have other : (id == i) = false := beq_false_of_ne here
      have other' : (i == id) = false := beq_false_of_ne (Ne.symm here)
      simp [other, other', ih]

lemma begun_past (fresh : m.past id = []) : (Eval.begun id m).past id = [.running] := by
  rw [past_cons rfl rfl, if_pos rfl, fresh]

namespace Remembers

lemma refl : m.Remembers m :=
  List.suffix_rfl

lemma trans (h : m''.Remembers m') (h' : m'.Remembers m) : m''.Remembers m :=
  List.IsSuffix.trans h' h

lemma of_eq (same : m'.states = m.states) : m'.Remembers m :=
  ⟨[], same.symm⟩

lemma cons {s : RunState} (same : m'.states = (id, s) :: m.states) : m'.Remembers m :=
  ⟨[(id, s)], same.symm⟩

lemma past (h : m'.Remembers m) (id : ModuleId) : m.past id <:+ m'.past id :=
  (List.IsSuffix.filter _ h).map _

/-- What has become of a module is not forgotten. -/
lemma begun (h : m'.Remembers m) (begun : m.past id ≠ []) : m'.past id ≠ [] :=
  fun none => begun (List.eq_nil_of_suffix_nil (none ▸ h.past id))

lemma fresh (h : m'.Remembers m) (fresh : m'.past id = []) : m.past id = [] :=
  List.eq_nil_of_suffix_nil (fresh ▸ h.past id)

end Remembers

namespace Enters

variable {κ : Type} {owner : κ → ModuleId} {before behind last : List (κ × Value)}

lemma refl : m.Enters m' owner before before :=
  ⟨[], rfl, List.nodup_nil, nofun⟩

/-- New keys on new keys belong to other modules. -/
lemma trans (h : m.Enters m' owner before behind) (h' : m'.Enters m'' owner behind last) (since : m'.Remembers m)
    (since' : m''.Remembers m') : m.Enters m'' owner before last := by
  obtain ⟨added, rfl, distinct, new⟩ := h
  obtain ⟨added', rfl, distinct', new'⟩ := h'
  refine ⟨added' ++ added, (List.append_assoc ..).symm, ?_, ?_⟩
  · rw [List.map_append, List.nodup_append]
    refine ⟨distinct', distinct, fun key member key' member' same => ?_⟩
    obtain ⟨entry, among, rfl⟩ := List.mem_map.1 member
    obtain ⟨entry', among', rfl⟩ := List.mem_map.1 member'
    exact (new entry' among').2 (same ▸ (new' entry among).1)
  · intro entry member
    rcases List.mem_append.1 member with late | early
    · exact ⟨since.fresh (new' entry late).1, (new' entry late).2⟩
    · exact ⟨(new entry early).1, since'.begun (new entry early).2⟩

/-- The keys that have been entered are different if those before were. -/
lemma nodup (h : m.Enters m' owner before behind) (distinct : (before.map Prod.fst).Nodup)
    (begun : ∀ entry ∈ before, m.past (owner entry.1) ≠ []) : (behind.map Prod.fst).Nodup := by
  obtain ⟨added, rfl, distinct', new⟩ := h
  rw [List.map_append, List.nodup_append]
  refine ⟨distinct', distinct, fun key member key' member' same => ?_⟩
  obtain ⟨entry, among, rfl⟩ := List.mem_map.1 member
  obtain ⟨entry', among', rfl⟩ := List.mem_map.1 member'
  exact begun entry' among' (same ▸ (new entry among).1)

/-- The modules of all keys have been begun if those before had been. -/
lemma begun (h : m.Enters m' owner before behind) (since : m'.Remembers m)
    (begun : ∀ entry ∈ before, m.past (owner entry.1) ≠ []) : ∀ entry ∈ behind, m'.past (owner entry.1) ≠ [] := by
  obtain ⟨added, rfl, -, new⟩ := h
  intro entry member
  rcases List.mem_append.1 member with late | early
  · exact (new entry late).2
  · exact since.begun (begun entry early)

/-- Nothing that has been entered is lost. -/
lemma suffix (h : m.Enters m' owner before behind) : before <:+ behind := by
  obtain ⟨added, rfl, -, -⟩ := h
  exact List.suffix_append added before

end Enters

namespace Proceeds

lemma of_idle (h : m.Idle m') : m.Proceeds p midway m' where
  states := .of_eq h.states
  modules id := Or.inl (congrFun (past_of_states h.states) id)
  assemblies := h.assemblies ▸ .refl
  values := h.values

lemma refl : m.Proceeds p midway m :=
  of_idle ⟨rfl, rfl, .refl, List.suffix_rfl⟩

lemma mono {midway' : Prop} (h : m.Proceeds p midway m') (weaker : midway → midway') : m.Proceeds p midway' m' :=
  { h with
    modules := fun id => (h.modules id).imp_right fun ⟨fresh, usable, come⟩ =>
      ⟨fresh, usable, come.imp_left fun ⟨here, running⟩ => ⟨weaker here, running⟩⟩ }

lemma trans (h : m.Proceeds p midway m') (h' : m'.Proceeds p midway m'') : m.Proceeds p midway m'' where
  states := h'.states.trans h.states
  modules id := by
    rcases h'.modules id with same | ⟨fresh, usable, come⟩
    · rw [same]
      exact h.modules id
    · exact Or.inr ⟨h.states.fresh fresh, usable, come⟩
  assemblies := h.assemblies.trans h'.assemblies h.states h'.states
  values := h.values.trans h'.values

/-- A module is begun. -/
lemma opened (fresh : m.past id = []) (usable : p.Usable id) : m.Proceeds p True (Eval.begun id m) where
  states := .cons rfl
  modules id' := by
    rw [past_cons rfl rfl]
    split
    · next here =>
      subst here
      exact Or.inr ⟨fresh, usable, Or.inl ⟨trivial, by rw [fresh]⟩⟩
    · exact Or.inl rfl
  assemblies := .refl
  values := List.suffix_rfl

/-- A module that has been begun stays as it is. -/
lemma same (h : m.Proceeds p midway m') (begun : m.past id ≠ []) : m'.past id = m.past id :=
  (h.modules id).resolve_right fun ⟨fresh, _⟩ => begun fresh

/-- A module that has been begun comes to its end, perhaps with the value that it stands for. -/
lemma closed (s : RunState) (fresh : m.past id = []) (usable : p.Usable id) (h : (Eval.begun id m).Proceeds p midway m')
    (final : s ≠ .running) (states : m''.states = (id, s) :: m'.states)
    (assemblies : m''.assemblies = m'.assemblies ∨ ∃ v, m''.assemblies = (id, v) :: m'.assemblies)
    (items : m''.items = m'.items) : m.Proceeds p midway m'' := by
  have opened : m.Proceeds p True (Eval.begun id m) := opened fresh usable
  have own : (Eval.begun id m).past id = [.running] := begun_past fresh
  have running : m'.past id = [.running] := (h.same (by simp [own])).trans own
  have ended : m''.past id = [s, .running] := by
    rw [past_cons states rfl, if_pos rfl, running]
  refine ⟨(Remembers.cons states).trans (h.states.trans opened.states), fun id' => ?_, ?_, items ▸ h.values⟩
  · by_cases here : id = id'
    · subst here
      exact Or.inr ⟨fresh, usable, Or.inr ⟨s, final, ended⟩⟩
    · have before : (Eval.begun id m).past id' = m.past id' := by rw [past_cons rfl rfl, if_neg here]
      have behind : m''.past id' = m'.past id' := by rw [past_cons states rfl, if_neg here]
      rw [behind, ← before]
      exact h.modules id'
  · obtain ⟨added, entered, distinct, new⟩ := h.assemblies
    have new' : ∀ entry ∈ added, m.past entry.1 = [] ∧ m''.past entry.1 ≠ [] := fun entry member =>
      ⟨opened.states.fresh (new entry member).1, (Remembers.cons states).begun (new entry member).2⟩
    obtain same | ⟨v, more⟩ := assemblies
    · exact ⟨added, same.trans entered, distinct, new'⟩
    · refine ⟨(id, v) :: added, more.trans (congrArg _ entered), ?_, ?_⟩
      · refine List.nodup_cons.2 ⟨fun among => ?_, distinct⟩
        obtain ⟨entry, member, same⟩ := List.mem_map.1 among
        have unknown : (Eval.begun id m).past entry.1 = [] := (new entry member).1
        rw [same, own] at unknown
        cases unknown
      · exact List.forall_mem_cons.2 ⟨⟨fresh, by simp [ended]⟩, new'⟩

end Proceeds

end Machine

variable {p : Program} {m m' : Machine} {α β : Type}

namespace Eval

/-- Whether a computation has stopped for want of depth. -/
def Midway : EStateM.Result Stop Machine α → Prop
  | .error .outOfFuel _ => True
  | _ => False

/-- What a computation has made of modules. -/
def Advances (p : Program) (m : Machine) (result : EStateM.Result Stop Machine α) : Prop :=
  m.Proceeds p (Midway result) (left result)

/-- A step records what its tasks record. -/
lemma Script.advances {own : Machine → Machine → Prop} {asks : Task → Prop} {x : (Task → Eval Value) → Eval α}
    {run : Task → Eval Value} (h : Script own asks x) (idle : ∀ m m', own m m' → m.Idle m')
    (advances : ∀ task, asks task → ∀ m, Advances p m (run task m)) (m : Machine) : Advances p m (x run m) := by
  induction h generalizing m with
  | own here => exact .of_idle (idle m _ (here m))
  | ask member => exact advances _ member m
  | @bind α β x f _ _ ih ih' =>
    have first := ih m
    show Advances p m ((x run >>= f run) m)
    cases ran : x run m with
    | ok a m₁ =>
      rw [bind_eq ran]
      rw [ran] at first
      exact (first.mono False.elim).trans (ih' a m₁)
    | error stop m₁ =>
      rw [bind_stop ran]
      rw [ran] at first
      cases stop <;> exact first

/-- What becomes of a module whose statements have been run. -/
def closing (id : ModuleId) (loaded : LoadedModule) : EStateM.Result Stop Machine Value → EStateM.Result Stop Machine Value
  | .ok v m => .ok .unit { m with
      states := (id, .done) :: m.states
      assemblies := if loaded.isAssembly then (id, v) :: m.assemblies else m.assemblies }
  | .error (.error e) m => .error (.error e) { m with states := (id, .failed e) :: m.states }
  | .error .outOfFuel m => .error .outOfFuel m

/-- The end of a module takes nothing back. -/
lemma closing_remembers (id : ModuleId) (loaded : LoadedModule) (result : EStateM.Result Stop Machine Value) :
    (left (closing id loaded result)).Remembers (left result) := by
  cases result with
  | ok v m => exact .cons rfl
  | error stop m =>
    cases stop with
    | error e => exact .cons rfl
    | outOfFuel => exact .refl

/-- The end of a module leaves all frames alone. -/
lemma closing_heap (id : ModuleId) (loaded : LoadedModule) (result : EStateM.Result Stop Machine Value) :
    (left (closing id loaded result)).heap = (left result).heap := by
  cases result with
  | ok v m => rfl
  | error stop m => cases stop <;> rfl

lemma runBegun_closing {run : Task → Eval Value} {id : ModuleId} {loaded : LoadedModule} {ast : Module} {frame : FrameId} :
    EStateM.bind (runBegun run id loaded ast frame) (fun _ => pure .unit) m =
      closing id loaded (moduleStatements run ⟨id, frame⟩ .unit ast.statements m) := by
  unfold runBegun
  change EStateM.bind (EStateM.bind (guarded id _) _) _ m = _
  unfold EStateM.bind
  rw [guarded_eq]
  cases moduleStatements run ⟨id, frame⟩ .unit ast.statements m with
  | ok v m₁ =>
    unfold closing afterStatements
    cases loaded.isAssembly <;> rfl
  | error stop m₁ => cases stop <;> rfl

section

variable {run : Task → Eval Value} {id : ModuleId}

lemma step_module_eq : step p run (.module id) m = ((match m.states.lookup id with
    | some .done | some .running => pure ()
    | some (.failed e) => fail e
    | none => do
      let l ← module p id
      match l.ast with
      | some ast => if l.isUsable then runModule run id l ast else fail (.moduleHasErrors l.path.render)
      | none => fail (.moduleHasErrors l.path.render) : Eval Unit) >>= fun _ => pure .unit) m :=
  rfl

/-- A module that has been begun is not run again. If it has failed, it fails with the same error. -/
lemma step_module_begun {s : RunState} {before : List RunState} (past : m.past id = s :: before) :
    step p run (.module id) m = (match s with
      | .running | .done => .ok .unit m
      | .failed e => .error (.error e) m) := by
  have known : m.states.lookup id = some s := by rw [Machine.lookup_states, past, List.head?_cons]
  rw [step_module_eq, known]
  cases s <;> rfl

/-- A module that has not been begun and can be used runs its statements. -/
lemma step_module_runs {loaded : LoadedModule} {ast : Module} (fresh : m.past id = [])
    (found : p.modules[(id : Nat)]? = some loaded) (usable : loaded.isUsable = true) (parsed : loaded.ast = some ast) :
    step p run (.module id) m =
      closing id loaded (moduleStatements run ⟨id, m.heap.size⟩ .unit ast.statements (begun id m)) := by
  have known : m.states.lookup id = none := by rw [Machine.lookup_states, fresh, List.head?_nil]
  rw [step_module_eq, known]
  simp only [module_eq found, parsed, usable, pure_bind, if_true]
  exact runBegun_closing

end

/-- A module that has been begun, or cannot be used, is left alone. Any other runs its statements. -/
lemma step_module (p : Program) (id : ModuleId) (m : Machine) :
    (∃ result, left result = m ∧ (m.past id = [] → ∃ e, result = .error (.error e) m) ∧
      ∀ run, step p run (.module id) m = result) ∨
    m.past id = [] ∧ ∃ loaded ast, p.modules[(id : Nat)]? = some loaded ∧ loaded.isUsable = true ∧ loaded.ast = some ast ∧
      ∀ run, step p run (.module id) m =
        closing id loaded (moduleStatements run ⟨id, m.heap.size⟩ .unit ast.statements (begun id m)) := by
  cases past : m.past id with
  | cons s before =>
    refine Or.inl ⟨_, ?_, nofun, fun run => step_module_begun past⟩
    cases s <;> rfl
  | nil =>
    have known : m.states.lookup id = none := by rw [Machine.lookup_states, past, List.head?_nil]
    simp only [step_module_eq, known, module]
    cases found : p.modules[(id : Nat)]? with
    | none => exact Or.inl ⟨.error (.error _) m, rfl, fun _ => ⟨_, rfl⟩, fun _ => rfl⟩
    | some l =>
      simp only [pure_bind]
      cases parsed : l.ast with
      | none => exact Or.inl ⟨.error (.error _) m, rfl, fun _ => ⟨_, rfl⟩, fun _ => rfl⟩
      | some ast =>
        cases usable : l.isUsable with
        | false => exact Or.inl ⟨.error (.error _) m, rfl, fun _ => ⟨_, rfl⟩, fun _ => rfl⟩
        | true => exact Or.inr ⟨trivial, l, ast, rfl, usable, parsed, fun run => runBegun_closing⟩

/-- The statements of a module are asked for one after another. -/
lemma moduleStatements_script {c : Context} {last : Value} {ss : List Statement} :
    Script Machine.Still (fun task => ∃ s ∈ ss, task = .statement c s) fun run => moduleStatements run c last ss := by
  induction ss generalizing last with
  | nil => exact .apart (.pure last)
  | cons s ss ih =>
    refine .bind (.ask ⟨s, List.mem_cons_self, rfl⟩) fun v => ih.mono (fun _ _ h => h) fun task ⟨s', member, same⟩ => ?_
    exact ⟨s', List.mem_cons_of_mem _ member, same⟩

/-- A step of a module begins it at most once, and brings it to its end. -/
lemma step_module_advances {run : Task → Eval Value} (advances : ∀ task m, Advances p m (run task m)) (id : ModuleId) (m : Machine) :
    Advances p m (step p run (.module id) m) := by
  obtain ⟨result, same, -, stays⟩ | ⟨fresh, loaded, ast, found, usable, -, runs⟩ := step_module p id m
  · rw [stays, Advances, same]
    exact .refl
  · replace usable : p.Usable id := ⟨loaded, found, usable⟩
    have loop : Advances p (begun id m) (moduleStatements run ⟨id, m.heap.size⟩ .unit ast.statements (begun id m)) :=
      moduleStatements_script.advances (fun _ _ h => h.toIdle) (fun task _ m => advances task m) _
    rw [runs, Advances]
    cases ran : moduleStatements run ⟨id, m.heap.size⟩ .unit ast.statements (begun id m) with
    | ok v m₁ =>
      rw [ran] at loop
      refine loop.closed .done fresh usable nofun rfl ?_ rfl
      cases assembly : loaded.isAssembly with
      | false => exact Or.inl (by simp [closing, left, assembly])
      | true => exact Or.inr ⟨v, by simp [closing, left, assembly]⟩
    | error stop m₁ =>
      rw [ran] at loop
      cases stop with
      | error e => exact loop.closed (.failed e) fresh usable nofun rfl (Or.inl rfl) rfl
      | outOfFuel => exact (Machine.Proceeds.opened fresh usable).trans loop

lemma step_advances {run : Task → Eval Value} (advances : ∀ task m, Advances p m (run task m)) (task : Task) (m : Machine) :
    Advances p m (step p run task m) := by
  by_cases nested : ∃ id, task = .module id
  · obtain ⟨id, rfl⟩ := nested
    exact step_module_advances advances id m
  · exact (step_idle fun id same => nested ⟨id, same⟩).advances (fun _ _ h => h) (fun task _ => advances task) m

/-- In a step frames only grow if they do in what it asks for. -/
lemma step_grows {run : Task → Eval Value} (grows : ∀ task (m : Machine), m.heap.Grows (left (run task m)).heap) (task : Task)
    (m : Machine) : m.heap.Grows (left (step p run task m)).heap := by
  by_cases nested : ∃ id, task = .module id
  · obtain ⟨id, rfl⟩ := nested
    obtain ⟨result, same, -, stays⟩ | ⟨-, loaded, ast, -, -, -, runs⟩ := step_module p id m
    · rw [stays, same]
      exact .refl
    · have statements : (begun id m).heap.Grows
          (left (moduleStatements run ⟨id, m.heap.size⟩ .unit ast.statements (begun id m))).heap :=
        moduleStatements_script.leads (fun grows grows' => grows.trans grows') (fun _ _ still => still.heap)
          (fun task _ m => grows task m) _
      rw [runs, closing_heap]
      exact Heap.Grows.push.trans statements
  · exact (step_idle fun id same => nested ⟨id, same⟩).leads (fun grows grows' => grows.trans grows') (fun _ _ idle => idle.heap)
      (fun task _ m => grows task m) m

end Eval

/-- Evaluation takes no frame away, and nothing that a frame has been given. -/
theorem Task.run_grows (fuel : Nat) (task : Task) (m : Machine) : m.heap.Grows (left (Task.run p fuel task m)).heap := by
  induction fuel generalizing task m with
  | zero => exact .refl
  | succ fuel ih => exact step_grows ih task m

/-- So does a computation that asks for nothing else. -/
lemma Eval.Script.grows {asks : Task → Prop} {x : (Task → Eval Value) → Eval α} {a : α} {fuel : Nat}
    (script : Script Machine.Still asks x) (ran : x (Task.run p fuel) m = .ok a m') : m.heap.Grows m'.heap := by
  have grows : m.heap.Grows (left (x (Task.run p fuel) m)).heap :=
    script.leads (fun grows grows' => grows.trans grows') (fun _ _ still => still.heap) (fun task _ m => Task.run_grows fuel task m) m
  rwa [ran] at grows

lemma Task.run_growing (fuel : Nat) : Growing (Task.run p fuel) := fun task m v m' ran => by
  have grows := Task.run_grows (p := p) fuel task m
  rwa [ran] at grows

/-- Every evaluation begins a module at most once, and brings to their ends all modules that it has begun. -/
theorem Task.run_advances (fuel : Nat) (task : Task) (m : Machine) : Advances p m (Task.run p fuel task m) := by
  induction fuel generalizing task m with
  | zero => exact Machine.Proceeds.refl
  | succ fuel ih => exact step_advances ih task m

end PipeLang
