import BeamChart.Chart.Absorb
import BeamChart.Chart.Lemmas
import BeamChart.Decoder
import BeamChart.Grammar.Declaration
import BeamChart.Proofs.Chart.Step
import BeamChart.Proofs.Coverage.Union
import BeamChart.Proofs.Chart.Frame
import BeamChart.Proofs.Chart.Made
import BeamChart.Proofs.Chart.Sound
import BeamChart.Proofs.Chart.Beam
import BeamChart.Proofs.Chart.Attach
import BeamChart.Proofs.Chart.Offer
import BeamChart.Proofs.Chart.Connect
import BeamChart.Proofs.Chart.Feed
import BeamChart.Proofs.Chart.Input
import BeamChart.Proofs.Chart.Run
import BeamChart.Proofs.Scoring.Clamping
import BeamChart.Proofs.Candidate.Balance
import BeamChart.Proofs.Chart.Balance
import BeamChart.Proofs.Chart.Pools
import BeamChart.Proofs.Chart.Licence
import BeamChart.Proofs.Chart.Cover
import BeamChart.Proofs.Chart.Wrapping
import BeamChart.Proofs.Chart.Towers
import BeamChart.Proofs.Chart.Posted
import BeamChart.Proofs.Chart.Growth
import BeamChart.Proofs.Chart.Raising
import BeamChart.Proofs.Chart.Seeking
import BeamChart.Proofs.Chart.Selected
import BeamChart.Proofs.Chart.Contained
import BeamChart.Proofs.Chart.Returns
import BeamChart.Proofs.Chart.InputReturns
import BeamChart.Proofs.Chart.Arena
import BeamChart.Proofs.Chart.Act
import BeamChart.Proofs.Chart.Making
import BeamChart.Proofs.Chart.Composition
import BeamChart.Proofs.Chart.Ledger
import BeamChart.Proofs.Chart.Listing
import BeamChart.Proofs.Chart.Cascade
import BeamChart.Proofs.Chart.Calls
import BeamChart.Proofs.Chart.Unwinding
import BeamChart.Proofs.Chart.Termination
import BeamChart.Proofs.Chart.Readings
import BeamChart.Proofs.Chart.Refused
import BeamChart.Proofs.Chart.Stopping
import BeamChart.Proofs.Chart.Outward
import BeamChart.Proofs.Chart.Merging
import BeamChart.Proofs.Chart.Best
import BeamChart.Proofs.Sequence.Count
import BeamChart.Proofs.Sequence.Chain
import BeamChart.Proofs.Sequence.Aside
import BeamChart.Proofs.Sequence.Offer
import BeamChart.Proofs.Sequence.Gather
import BeamChart.Proofs.Sequence.Digits
import BeamChart.Proofs.Sequence.Line
import BeamChart.Proofs.Sequence.Tail
import BeamChart.Proofs.Sequence.Arrival
import BeamChart.Proofs.Sequence.Solve
import BeamChart.Proofs.PhraseTable.Address
import BeamChart.Proofs.PhraseTable.Record
import BeamChart.Proofs.Chart.Sight
import BeamChart.Proofs.Chart.Standing
import BeamChart.Proofs.Decoder.Covering
import BeamChart.Proofs.Decoder.Reuse
import BeamChart.Proofs.Decoder.Whole
import BeamChart.Proofs.Sequence.Knot
import BeamChart.Proofs.Sequence.Strung
import BeamChart.Proofs.Sequence.Peers
import BeamChart.Proofs.Relocation.Basic
import BeamChart.Proofs.Relocation.Chart
import BeamChart.Proofs.Relocation.Attach
import BeamChart.Proofs.Relocation.Offer
import BeamChart.Proofs.Relocation.Connect
import BeamChart.Proofs.Relocation.Feed
import BeamChart.Proofs.Relocation.Read
import BeamChart.Proofs.Relocation.Skip
import BeamChart.Proofs.Decoder.Translation
import BeamChart.Proofs.Decoder.Gaps
import BeamChart.Proofs.PhraseTable.Padding
import BeamChart.Proofs.Chart.Joining
import BeamChart.Proofs.Chart.Undoing
import BeamChart.Proofs.Chart.Following
import BeamChart.Proofs.Coverage.Map
import BeamChart.Proofs.Pool.Ranking
import BeamChart.Proofs.Chart.Retaking
import BeamChart.Proofs.Chart.Gathering
import BeamChart.Proofs.Chart.Portions
import BeamChart.Proofs.Grammar.Inheritance
import BeamChart.Proofs.Chart.Sought
import BeamChart.Proofs.Grammar.References
import BeamChart.Proofs.Chart.Choice
import BeamChart.Proofs.PhraseTable.Matrix
