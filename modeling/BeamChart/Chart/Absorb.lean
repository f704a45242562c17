import BeamChart.Chart.Feed
import BeamChart.Chart.Select

/-!
# Absorbing a subordinate chart

The registered items of one chart are the input of the next. A renaming
grammar makes one item for each, under the first meaning of its concept and
connected with nothing. Every other grammar feeds one token for each meaning
of a recognized item.
-/

namespace BeamChart

namespace Chart

/-- How far the input got: to its end, or until something ran out. -/
inductive Progress where
  | done
  | stopped
deriving DecidableEq

/--
Runs a step on every element until something runs out, which is not an error
of the whole.
-/
def feedEach {α β : Type}
    (step : Chart → α → Except ChartError β × Chart) :
    Chart → List α → Except ChartError Progress × Chart
  | c, [] => (.ok .done, c)
  | c, a :: rest =>
    match step c a with
    | (.ok _, c) => feedEach step c rest
    | (.error (.exhausted _), c) => (.ok .stopped, c)
    | (.error e, c) => (.error e, c)

/-- A renamed item, neither connected nor with a tower. -/
def rename (c : Chart) (u : Item) : Except ChartError Progress × Chart :=
  match c.allocateItem with
  | (.error (.exhausted _), c) => (.ok .stopped, c)
  | (.error e, c) => (.error e, c)
  | (.ok v, c) =>
    match c.instantiate v (c.grammar.meaningsOf u.concept).head? u.toToken with
    | (.error e, c) => (.error e, c)
    | (.ok _, c) => (.ok .done, (c.markPresent v).register v)

/-- Takes over one item of a subordinate chart. -/
def absorbItem (c : Chart) (u : Item) : Except ChartError Progress × Chart :=
  match c.grammar.kind with
  | .renaming => c.rename u
  | .operational | .positional =>
    if u.concept = unrecognized then (.ok .done, c)
    else
      feedEach (fun c s => c.feedAs (some s) u.toToken) c (c.grammar.meaningsOf u.concept)

/-- Takes over items one by one, until something runs out. -/
def absorbItems : Chart → List Item → Except ChartError Progress × Chart
  | c, [] => (.ok .done, c)
  | c, u :: rest =>
    match c.absorbItem u with
    | (.ok .done, c) => absorbItems c rest
    | outcome => outcome

/-- The present items of a chart that are posted by position, in that order. -/
def outward (c : Chart) : List Item :=
  (c.byPosition.items.map c.item).filter fun u => u.present && !u.isAggregate

/--
Takes over the items of a subordinate chart and selects the best candidate.
If something runs out on the way, what was selected before stands.
-/
def absorb (c : Chart) (sub : Chart) : Except ChartError Unit × Chart :=
  match c.absorbItems sub.outward with
  | (.ok .done, c) => (.ok (), c.select.2)
  | (.ok .stopped, c) => (.ok (), c)
  | (.error e, c) => (.error e, c)

end Chart

end BeamChart
