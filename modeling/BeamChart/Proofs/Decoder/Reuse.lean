import BeamChart.Decoder
import BeamChart.Proofs.Chart.Run
import Mathlib.Logic.Function.Basic

/-!
# Charts used again

A chart that has been operated on in any way still has the grammar and the
settings that it was made with. Decoding resets everything else, so it answers
there as in an empty chart (`decodeOn_operated`).

Workers that share the inputs of a batch keep one chart each. `Crew` is the
state of all of them, and a job is a worker with the place of the input that it
takes next. Jobs come in any order, for any number of workers; `Crew.Serves.take`
is the step of one job, `Crew.Serves.run` the run over all.
-/

namespace BeamChart

theorem Chart.Operated.same
    {g : Grammar}
    {s : Settings}
    {c : Chart}
    (h : Operated g s c) :
    c.grammar = g ∧ c.settings = s :=
  ⟨h.kept.grammar, h.kept.settings⟩

namespace Decoder

open Chart

variable
  {d : Decoder}
  {g : Grammar}
  {s : Settings}
  {c : Chart}
  {inputs : List (List Token)}

section Charts

/-- What every token keeps is kept by all of them. -/
theorem feedAll_induction
    {P : Chart → Prop}
    (hfeed : ∀ c t, P c → P (c.feed t).2)
    (tokens : List Token)
    (h : P c) :
    P (feedAll c tokens) := by
  induction tokens generalizing c with
  | nil => exact h
  | cons t rest ih =>
    have hfirst : P (c.feed t).2 := hfeed c t h
    unfold feedAll
    generalize c.feed t = result at hfirst ⊢
    obtain ⟨outcome, c₁⟩ := result
    cases outcome with
    | ok u => exact ih hfirst
    | error e =>
      cases e with
      | exhausted reserve => exact hfirst
      | outsideWindow stop window => exact ih hfirst

/-- Feeding an input is a sequence of operations. -/
theorem operated_feedAll
    (h : Operated g s c)
    (tokens : List Token) :
    Operated g s (feedAll c tokens) :=
  feedAll_induction (fun _ t h => .operation h (.input (.feed t)) trivial) tokens h

/-- So is decoding as a whole. -/
theorem operated_decodeOn
    (h : Operated g s c)
    (tokens : List Token) :
    Operated g s (decodeOn c tokens).2 :=
  .operation (operated_feedAll (.operation h (.input .reset) trivial) tokens)
    (.input .select) trivial

/-- An operated chart decodes an input as an empty one does, and is left in the same state. -/
theorem decodeOn_operated
    (h : Operated d.grammar d.settings c)
    (tokens : List Token) :
    decodeOn c tokens = decodeOn d.emptyChart tokens := by
  obtain ⟨hgrammar, hsettings⟩ := h.same
  have hreset : c.reset = d.emptyChart.reset := by
    rw [reset_eq_new, reset_eq_new, hgrammar, hsettings]
    rfl
  rw [decodeOn, decodeOn, hreset]

theorem decodeEach_operated
    (h : Operated d.grammar d.settings c)
    (inputs : List (List Token)) :
    decodeEach c inputs = inputs.map d.decode := by
  induction inputs generalizing c with
  | nil => rfl
  | cons input rest ih =>
    have hanswer : (decodeOn c input).1 = d.decode input := by
      rw [decodeOn_operated h]
      rfl
    rw [List.map_cons, ← hanswer, ← ih (operated_decodeOn h input)]
    rfl

end Charts

/-- Workers with a chart each, and the answers given so far by the places of their inputs. -/
structure Crew where
  chart : Nat → Chart
  answer : Nat → Option Decoded

namespace Crew

variable {crew : Crew} {jobs : List (Nat × Nat)}

/-- Workers before any job. -/
def ready (charts : Nat → Chart) : Crew :=
  { chart := charts, answer := fun _ => none }

/-- A worker decodes the input at a place in its chart. -/
def take (inputs : List (List Token)) (crew : Crew) (job : Nat × Nat) : Crew :=
  match inputs[job.2]? with
  | none => crew
  | some input =>
    let result := decodeOn (crew.chart job.1) input
    { chart := Function.update crew.chart job.1 result.2
      answer := Function.update crew.answer job.2 (some result.1) }

theorem take_of_none
    {job : Nat × Nat}
    (h : inputs[job.2]? = none) :
    crew.take inputs job = crew := by
  simp [take, h]

/-- Only the chart of the worker changes. -/
theorem chart_take
    {job : Nat × Nat}
    {input : List Token}
    (h : inputs[job.2]? = some input)
    (i : Nat) :
    (crew.take inputs job).chart i =
      if i = job.1 then (decodeOn (crew.chart job.1) input).2 else crew.chart i := by
  simp [take, h, Function.update_apply]

/-- Only the answer at the place changes. -/
theorem answer_take
    {job : Nat × Nat}
    {input : List Token}
    (h : inputs[job.2]? = some input)
    (place : Nat) :
    (crew.take inputs job).answer place =
      if place = job.2 then some (decodeOn (crew.chart job.1) input).1 else crew.answer place := by
  simp [take, h, Function.update_apply]

/-- The workers after some jobs. -/
def run (inputs : List (List Token)) (crew : Crew) (jobs : List (Nat × Nat)) : Crew :=
  jobs.foldl (take inputs) crew

/-- The answers in the order of the inputs. -/
def answers (inputs : List (List Token)) (crew : Crew) : List (Option Decoded) :=
  (List.range inputs.length).map crew.answer

/-- All charts are those of the decoder, and its answers stand at the places done. -/
structure Serves
    (d : Decoder)
    (inputs : List (List Token))
    (done : List Nat)
    (crew : Crew) : Prop where
  operated : ∀ i, Operated d.grammar d.settings (crew.chart i)
  answer : ∀ place,
    crew.answer place = if place ∈ done then (inputs[place]?).map d.decode else none

theorem serves_ready
    {charts : Nat → Chart}
    (h : ∀ i, Operated d.grammar d.settings (charts i))
    (inputs : List (List Token)) :
    Serves d inputs [] (ready charts) :=
  ⟨h, by simp [ready]⟩

/-- The step of one job: one more place is done, whatever its worker has done before. -/
theorem Serves.take
    {done : List Nat}
    (h : Serves d inputs done crew)
    (job : Nat × Nat) :
    Serves d inputs (done ++ [job.2]) (crew.take inputs job) := by
  cases hinput : inputs[job.2]? with
  | none =>
    rw [take_of_none hinput]
    refine ⟨h.operated, fun place => ?_⟩
    by_cases heq : place = job.2
    · simp [h.answer, heq, hinput]
    · simp [h.answer, heq]
  | some input =>
    constructor
    · intro i
      rw [chart_take hinput]
      split
      · exact operated_decodeOn (h.operated job.1) input
      · exact h.operated i
    · intro place
      rw [answer_take hinput, decodeOn_operated (h.operated job.1)]
      by_cases heq : place = job.2
      · simp [heq, hinput, decode]
      · simp [heq, h.answer]

/-- The run over several jobs. -/
theorem Serves.run
    {done : List Nat}
    (h : Serves d inputs done crew)
    (jobs : List (Nat × Nat)) :
    Serves d inputs (done ++ jobs.map Prod.snd) (crew.run inputs jobs) := by
  induction jobs generalizing crew done with
  | nil => simpa [Crew.run] using h
  | cons job rest ih => simpa [Crew.run] using ih (h.take job)

/-- Once all places are done, the answers are those of the decoder. -/
theorem Serves.answers_eq
    {done : List Nat}
    (h : Serves d inputs done crew)
    (hdone : ∀ place < inputs.length, place ∈ done) :
    crew.answers inputs = inputs.map fun input => some (d.decode input) := by
  apply List.ext_getElem
  · simp [answers]
  · intro place hleft hright
    have hplace : place < inputs.length := by simpa using hright
    simp [answers, h.answer, hdone place hplace, hplace]

end Crew

/--
A chart that has been used in any way answers as an empty one does. So the
inputs of a batch are answered one by one as they would be alone, in whichever
order and by however many workers they are decoded.
-/
theorem decode_reused
    {charts : Nat → Chart}
    (hcharts : ∀ i, Operated d.grammar d.settings (charts i))
    (inputs : List (List Token)) :
    (∀ i input, (decodeOn (charts i) input).1 = d.decode input) ∧
      (∀ i, decodeEach (charts i) inputs = inputs.map d.decode) ∧
      d.decodeAll inputs = inputs.map d.decode ∧
      ∀ jobs : List (Nat × Nat), (∀ place < inputs.length, place ∈ jobs.map Prod.snd) →
        ((Crew.ready charts).run inputs jobs).answers inputs =
          inputs.map fun input => some (d.decode input) := by
  refine ⟨?_, fun i => decodeEach_operated (hcharts i) inputs, decodeEach_operated .new inputs, ?_⟩
  · intro i input
    rw [decodeOn_operated (hcharts i)]
    rfl
  · intro jobs hjobs
    have hserves := (Crew.serves_ready hcharts inputs).run jobs
    exact hserves.answers_eq (by simpa using hjobs)

/-- Two inputs for a decoder of the sample grammar. -/
def sampleInputs : List (List Token) :=
  [[{ concept := 1, position := 0, extent := 1 }, { concept := 2, position := 1, extent := 1 }],
    [{ concept := 1, position := 0, extent := 2 }]]

/-- Two workers take the inputs in charts that have been fed, the second input first. -/
theorem decode_reused_sample :
    Operated sampleGrammar {} sampleChart ∧
      decodeEach sampleChart sampleInputs = sampleInputs.map (decode { grammar := sampleGrammar }) ∧
      ((Crew.ready fun _ => sampleChart).run sampleInputs [(0, 1), (1, 0)]).answers sampleInputs =
        sampleInputs.map fun input => some (decode { grammar := sampleGrammar } input) := by
  have hchart : Operated sampleGrammar {} sampleChart := driven_sampleChart.operated
  obtain ⟨-, heach, -, hjobs⟩ :=
    decode_reused (d := { grammar := sampleGrammar }) (fun _ => hchart) sampleInputs
  exact ⟨hchart, heach 0, hjobs [(0, 1), (1, 0)] (by decide)⟩

end Decoder

end BeamChart
