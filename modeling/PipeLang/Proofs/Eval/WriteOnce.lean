import PipeLang.Proofs.Eval.Writers

/-!
# Every binding is given its value once

What is evaluated gives no binding of a frame a value twice, at every depth of nested evaluation: `Task.run_writes`. So the values
in frames stay, whatever is asked of a program: `Program.frames_write_once`.
-/

namespace PipeLang

open Eval

variable {p : Program} {regions regions' : Regions} {asks : Task → Prop} {m m' : Machine}

lemma Task.Written.machine {task : Task} (written : task.Written p regions m) : m.Written p regions := by
  cases task with
  | expr => exact written.2.1.written
  | statement => exact written.2.written
  | block => exact written.2.1
  | branch => exact written.2.1.written
  | pipeline => exact written.2.1.written
  | loop => exact written.2.1.written
  | call => exact written.1
  | module => exact written

section

variable (rest : p.AtRest) (honest : p.hosts.Honest) (laid : p.Laid)
include rest honest laid

/-- Tasks write so at every depth of nested evaluation. -/
theorem Task.run_writes (fuel : Nat) : Writing p (fun _ => True) (Task.run p fuel) := by
  intro regions task m _ written
  induction fuel generalizing regions task m with
  | zero => exact ⟨regions, List.prefix_rfl, written.machine, .refl⟩
  | succ fuel ih =>
    have setting : Setting p (fun _ => True) (Task.run p fuel) :=
      ⟨rest, honest, laid, fun regions task m _ written => ih regions task m written, fun _ => trivial⟩
    exact (step_writes setting written fun _ _ _ _ _ => trivial).written

/-- So they do whatever is asked for, as long as that may be everything with an incoming value where it needs one. -/
lemma Task.run_setting (fuel : Nat) (free : ∀ {task : Task}, task.Supplied → asks task) : Setting p asks (Task.run p fuel) :=
  ⟨rest, honest, laid, fun regions task m _ written => Task.run_writes rest honest laid fuel regions task m trivial written, free⟩

/-- What the evaluation of a task comes to may be evaluated there, and frames only grow till then and from then to the end. -/
theorem Task.Reaches.written {fuel : Nat} {task goal : Task} (reaches : Task.Reaches p fuel task m goal m')
    (written : task.Written p regions m) : (∃ regions', goal.Written p regions' m') ∧ m.Writes Machine.anywhere m' ∧
      m'.Writes Machine.anywhere (left (Task.run p fuel task m)) := by
  induction reaches generalizing regions with
  | @here fuel task m =>
    exact ⟨⟨regions, written⟩, .refl, (Task.run_writes rest honest laid fuel regions task m trivial written).writes⟩
  | @inside fuel task m next between goal m' asked _ ih =>
    have setting : Setting p (fun _ => True) (Task.run p fuel) := Task.run_setting rest honest laid fuel fun _ => trivial
    obtain ⟨-, ⟨regions', written'⟩, before, behind⟩ := (step_writes setting written fun _ _ _ _ _ => trivial).asked asked
    obtain ⟨there, further, ends⟩ := ih written'
    exact ⟨there, before.trans further, ends.trans behind⟩

/-- After any requests frames have regions, and what has been answered comes from them. -/
theorem Dialogue.LeadsKnowing.written {d : Dialogue} (leads : LeadsKnowing p .start d) :
    ∃ regions, d.machine.Written p regions ∧ ∀ v ∈ d.known, v.Written p regions := by
  induction leads with
  | refl =>
    have linked : Heap.Linked #[] := by
      intro f before g after chain
      simp [Heap.chain] at chain
    refine ⟨[], ⟨rfl, linked, ?_, ?_, ?_, ?_, ?_, ?_⟩, List.forall_mem_nil _⟩ <;> simp [start, Machine.new]
  | @tail d₁ d₂ _ asks ih =>
    obtain ⟨r, fuel, knows, asks⟩ := asks
    obtain ⟨regions, written, values⟩ := ih
    have setting : Setting p (fun _ => True) (Task.run p fuel) := Task.run_setting rest honest laid fuel fun _ => trivial
    have answers := (answerOver_writes setting knows written values).written
    rw [← Request.answer_eq] at answers
    cases asks with
    | answered ok =>
      rw [ok] at answers
      obtain ⟨regions', grows, written', -, values'⟩ := answers
      exact ⟨regions', written', List.forall_mem_append.2 ⟨values', Value.Written.all_later values grows⟩⟩
    | failed failed =>
      rw [failed] at answers
      obtain ⟨regions', grows, written', -⟩ := answers
      exact ⟨regions', written', Value.Written.all_later values grows⟩

/-- What a request comes to may be evaluated there, and frames only grow till then and from then to the end. -/
theorem Request.Reaches.written {d : Dialogue} {r : Request} {fuel : Nat} {goal : Task} (leads : Dialogue.LeadsKnowing p .start d)
    (knows : r.Knows p d.known) (reaches : r.Reaches p fuel d.machine goal m') : (∃ regions', goal.Written p regions' m') ∧
      d.machine.Writes Machine.anywhere m' ∧ m'.Writes Machine.anywhere (left (r.answer p fuel d.machine)) := by
  obtain ⟨regions, written, values⟩ := leads.written rest honest laid
  obtain ⟨task, between, consults, reaches⟩ := reaches
  have setting : Setting p (fun _ => True) (Task.run p fuel) := Task.run_setting rest honest laid fuel fun _ => trivial
  obtain ⟨-, ⟨regions', written'⟩, before, behind⟩ := (answerOver_writes setting knows written values).asked consults
  obtain ⟨there, further, ends⟩ := reaches.written rest honest laid written'
  rw [Request.answer_eq]
  exact ⟨there, before.trans further, ends.trans behind⟩

end

/-- No frame has been given two values for a binding. A frame keeps all that it has been given, so that both would be there. -/
def Machine.WriteOnce (m : Machine) : Prop :=
  ∀ (f : FrameId) (frame : Frame), m.heap[(f : Nat)]? = some frame → (frame.values.map Prod.fst).Nodup

/-- Every value of a frame is its value later, and what is seen from a frame is seen from it later. -/
structure Machine.Freezes (m m' : Machine) : Prop where
  own : ∀ (f : FrameId) (id : BindingId) (v : Value), m.heap.getLocal? f id = some v → m'.heap.getLocal? f id = some v
  seen : ∀ (f : FrameId) (id : BindingId) (v : Value), m.heap.get? f id = some v → m'.heap.get? f id = some v

lemma Machine.Written.writeOnce (written : m.Written p regions) : m.WriteOnce :=
  fun _ _ found => written.once found

lemma Machine.Writes.freezes {bound : FrameId → BindingId → Prop} (writes : m.Writes bound m') (written : m.Written p regions)
    (written' : m'.Written p regions') : m.Freezes m' where
  own _ _ _ found := writes.getLocal written' found
  seen _ _ _ found := writes.get written.linked written' found

namespace Program

/-- Frames are written once. Behind any loads and any requests that come to their ends, whatever is asked next gives no binding of a
frame a value twice, on no machine that it comes to. So the values in frames stay as they are while it is evaluated, and what a
function sees from the frame that it comes from stays as it is.

Requests are made with values that come from answers, and host functions hand on no functions but those that they are given and
those that are registered. -/
theorem frames_write_once (sources : Sources) (policy : GlobPolicy) (hosts : Hosts) (paths : List String)
    (honest : hosts.Honest) {d : Dialogue} (leads : Dialogue.LeadsKnowing ((new sources policy hosts).loadAll paths) .start d)
    {r : Request} (knows : r.Knows ((new sources policy hosts).loadAll paths) d.known) (fuel : Nat) :
    let p := (new sources policy hosts).loadAll paths
    let last := Eval.left (r.answer p fuel d.machine)
    last.WriteOnce ∧ d.machine.Freezes last ∧ ∀ goal m, r.Reaches p fuel d.machine goal m →
      m.WriteOnce ∧ d.machine.Freezes m ∧ m.Freezes last := by
  intro p last
  obtain ⟨rest, same⟩ : p.AtRest ∧ p.hosts = hosts := atRest_new.loadAll paths
  have honest' : p.hosts.Honest := same ▸ honest
  have laid : p.Laid := fun _ _ _ _ found parsed resolved => loadAll_laid found parsed resolved
  obtain ⟨regions, written, values⟩ := leads.written rest honest' laid
  have setting : Setting p (fun _ => True) (Task.run p fuel) := Task.run_setting rest honest' laid fuel fun _ => trivial
  have answers := (answerOver_writes setting knows written values).written
  rw [← Request.answer_eq] at answers
  obtain ⟨regions', ends, writes⟩ := answers.left
  refine ⟨ends.writeOnce, writes.freezes written ends, fun goal m reaches => ?_⟩
  obtain ⟨⟨regions'', there⟩, before, behind⟩ := reaches.written rest honest' laid leads knows
  exact ⟨there.machine.writeOnce, before.freezes written there.machine, behind.freezes there.machine ends⟩

/-- A loop has run, with a function call and a tag in its body. The frame of the module has three values, each once, and they stay when
something else is asked. -/
theorem frames_write_once_piped : ∃ v m, (Request.query (.value 0 "s")).answer piped 30 .new = .ok [v] m ∧
    (m.heap.any fun frame => decide (frame.values.length = 3)) = true ∧ m.WriteOnce ∧
    m.Freezes (Eval.left ((Request.query (.value 1 "f")).answer piped 30 m)) := by
  have computed : Eval.gives (fun _ m => m.heap.any fun frame => decide (frame.values.length = 3))
      ((Query.value 0 "s").answer piped 30 .new) = true := by decide +kernel
  obtain ⟨v, m, answer, written⟩ := Eval.gives_iff.1 computed
  have answer := Request.answer_query answer
  have knows : (Request.query (.value 0 "s")).Knows piped [] := trivial
  have knows' : (Request.query (.value 1 "f")).Knows piped [v] := trivial
  have leads : Dialogue.LeadsKnowing piped .start ⟨m, [v]⟩ := .single ⟨_, 30, knows, .answered answer⟩
  have once : (Eval.left ((Request.query (.value 0 "s")).answer piped 30 .new)).WriteOnce :=
    (frames_write_once _ _ _ _ Hosts.prelude_honest .refl knows 30).1
  rw [answer] at once
  exact ⟨v, m, answer, written, once, (frames_write_once _ _ _ _ Hosts.prelude_honest leads knows' 30).2.1⟩

/-- A text with a loop whose tag is collected. -/
def collectingText : String :=
  "results = for [true] as x |> x as y |> != false\n"

/-- A program with that loop. -/
def collecting : Program :=
  (ofText collectingText .prelude).loadAll ["main"]

/-- A function of another program, whose body is a loop at the same place, with a tag at the same place in front of its body. -/
def tagging : Value :=
  ((ofText "f = () => for (         [true] as y) as x |> []\n" .prelude).loadAll ["main"]).kept "f"

/-- A frame is given two values for a binding when a function is called that does not come from an answer: the tag in front of the
loop has one, and what is collected for it behind the loop is the other. It is given two as well when all that is called comes from
answers, but a host function hands on that function. -/
theorem not_frames_write_once_tagging :
    (collecting.Usable 0 ∧ ∃ d d', Dialogue.Asks collecting (.query (.module 0)) 12 .start d ∧
      Dialogue.Asks collecting (.query (.call tagging [] [])) 12 d d' ∧ d.machine.WriteOnce ∧ ¬ d'.machine.WriteOnce) ∧
    (passingOn collectingText tagging).Usable 0 ∧ ∃ d d', Dialogue.LeadsKnowing (passingOn collectingText tagging) .start d ∧
      Dialogue.LeadsKnowing (passingOn collectingText tagging) d d' ∧ d.machine.WriteOnce ∧ ¬ d'.machine.WriteOnce := by
  have computed : ((collecting.modules[0]?.any fun loaded => loaded.isUsable) = true ∧
      gives (fun _ m => (m.heap.all fun frame => decide (frame.values.map Prod.fst).Nodup) &&
          gives (fun _ m' => m'.heap.any fun frame => decide ¬ (frame.values.map Prod.fst).Nodup)
            ((Query.call tagging [] []).answer collecting 12 m))
        ((Query.module 0).answer collecting 12 .new) = true) ∧
      ((passingOn collectingText tagging).modules[0]?.any fun loaded => loaded.isUsable) = true ∧
      gives (fun g m => (m.heap.all fun frame => decide (frame.values.map Prod.fst).Nodup) &&
          gives (fun _ m' => m'.heap.any fun frame => decide ¬ (frame.values.map Prod.fst).Nodup)
            ((Query.call g [] []).answer (passingOn collectingText tagging) 12 m))
        ((Query.value 0 "g").answer (passingOn collectingText tagging) 12 .new) = true := by
    decide +kernel
  obtain ⟨⟨usable, asked⟩, usable', asked'⟩ := computed
  obtain ⟨loaded, found, fine⟩ := Option.any_eq_true _ _ |>.1 usable
  obtain ⟨loaded', found', fine'⟩ := Option.any_eq_true _ _ |>.1 usable'
  have writesOnce {m : Machine} (once : ∀ i (inside : i < m.heap.size), (m.heap[i].values.map Prod.fst).Nodup) : m.WriteOnce :=
    fun f frame found => by
      obtain ⟨inside, rfl⟩ := Array.getElem?_eq_some_iff.1 found
      exact once f inside
  simp only [gives_iff, Bool.and_eq_true, Array.all_eq_true, Array.any_eq_true, decide_eq_true_eq] at asked asked'
  obtain ⟨u, m, ran, once, v, m', called, f, inside, twice⟩ := asked
  obtain ⟨g, n, got, once', w, n', called', f', inside', twice'⟩ := asked'
  have first : Dialogue.LeadsKnowing (passingOn collectingText tagging) .start ⟨n, [g]⟩ :=
    .single ⟨.query (.value 0 "g"), 12, trivial, .answered (Request.answer_query got)⟩
  have next : Dialogue.LeadsKnowing (passingOn collectingText tagging) ⟨n, [g]⟩ ⟨n', [w, g]⟩ :=
    .single ⟨.query (.call g [] []), 12, ⟨madeFrom_of_mem List.mem_cons_self, List.forall_mem_nil _, List.forall_mem_nil _⟩,
      .answered (Request.answer_query called')⟩
  exact ⟨⟨⟨loaded, found, fine⟩, ⟨m, [u]⟩, ⟨m', [v, u]⟩, .answered (Request.answer_query ran), .answered (Request.answer_query called),
      writesOnce once, fun all => twice (all f _ (Array.getElem?_eq_getElem inside))⟩,
    ⟨loaded', found', fine'⟩, ⟨n, [g]⟩, ⟨n', [w, g]⟩, first, next, writesOnce once',
      fun all => twice' (all f' _ (Array.getElem?_eq_getElem inside'))⟩

end Program

end PipeLang
