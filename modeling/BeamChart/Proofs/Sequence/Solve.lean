import BeamChart.Proofs.Chart.Selected
import BeamChart.Proofs.Sequence.Line
import BeamChart.Proofs.Sequence.Tail
import Mathlib

/-!
# Decoding a run of digits

A positional grammar reads adjacent digits as one chain. An operational grammar does
so exactly if the beam of the last digit has room for all that it is offered before
its direct predecessor (`Sequence.Reaches`): only the candidate that holds nothing
can take the predecessor, and it is the first to be dropped when the beam is full
(`Sequence.digits_decoded`).
-/

namespace BeamChart

/-- The tree covers an extent, and has a number of nodes that weigh one each. -/
structure Parse.Runs (t : Parse) (start stop len : Nat) : Prop where
  start : t.top.start = start
  stop : t.top.stop = stop
  weight : t.top.weight = .ofInt len
  size : t.size = len

namespace Chart

open Sequence

variable {c : Chart} {s : Settings} {place : Nat → ItemId} {n k len start : Nat} {x : CandidateId}

theorem top_parseWithin (c : Chart) (room : Nat) (via : Option Relation) (x : CandidateId) :
    (c.parseWithin room via x).top = c.nodeOf via x := by
  cases room <;> rfl

/-- A chain reads out as a run of its tokens. -/
theorem Chain.runs
    (h : c.Chain place k x len start) :
    (c.parse x).Runs start (k + 1) len := by
  have hspan : (c.candidate x).span? = some (start, k + 1) := h.spans.span?
  refine ⟨?_, ?_, ?_, h.size_parseWithin x.index (Nat.le_refl _) none⟩ <;>
    rw [parse, top_parseWithin, nodeOf]
  · dsimp only
    rw [hspan]
    rfl
  · dsimp only
    rw [hspan]
    rfl
  · exact h.weight

theorem eq_of_whole
    {stop : Nat}
    (hlen : n ≤ len)
    (hbounds : start + len ≤ stop)
    (hstop : stop ≤ n) :
    start = 0 ∧ stop = n ∧ len = n := by
  omega

/-- Where all contenders are chains, one that no other is longer than is read out. -/
theorem exists_longest
    {holds : Nat → Nat → Prop}
    (hn : n ≤ Weight.highest)
    (hchains : ∀ e ∈ c.contenders, ∃ k len start, k < n ∧ c.Chain place k e.2 len start ∧
      holds k len)
    {q : SymbolId}
    (hx : (q, x) ∈ c.contenders)
    (hchain : c.Chain place k x len start)
    (hk : k < n) :
    ∃ t k' len' start', c.select.2.bestParse? = some t ∧ t.Runs start' (k' + 1) len' ∧
      k' < n ∧ start' + len' ≤ k' + 1 ∧ holds k' len' ∧ len ≤ len' := by
  obtain ⟨e, he, hselect, hle⟩ := exists_selected hx
  obtain ⟨k', len', start', hk', hbest, hholds⟩ := hchains e he
  have hm := hchain.bounds
  have hm' := hbest.bounds
  refine ⟨c.select.2.parse e.2, k', len', start', ?_, ?_, hk', hm'.2, hholds, ?_⟩
  · change c.select.1.map c.select.2.parse = _
    rw [hselect]
    rfl
  · exact (hbest.extend (Step.select : Step True c c.select.2).grows).runs
  · have hweight := hle _ hx
    rw [weightOf, weightOf, hchain.weight, hbest.weight,
      Weight.ofInt_le_ofInt (by omega) (by omega)] at hweight
    exact hweight

/-- What is selected from a chart of chained digits is the chain of all of them. -/
theorem Tailed.runs
    (h : Tailed s n c)
    (hpos : 1 ≤ n)
    (hn : n ≤ Weight.highest) :
    ∃ t, c.select.2.bestParse? = some t ∧ t.Runs 0 n n := by
  have hchains : ∀ e ∈ c.contenders, ∃ k len start, k < n ∧ c.Chain ItemId.mk k e.2 len start ∧
      True := by
    rintro ⟨q, y⟩ he
    obtain ⟨u, hpresent, -, hy, -⟩ := mem_contenders.1 he
    have hlt : u.index < n := by
      have hsize := lt_size_of_present hpresent
      rwa [h.size] at hsize
    obtain ⟨z, hpool, hchain⟩ := h.pool u.index hlt
    have hyz : y = z := List.mem_singleton.1 (hpool ▸ hy)
    exact ⟨u.index, u.index + 1, 0, hlt, hyz ▸ hchain, trivial⟩
  obtain ⟨x, hpool, hchain⟩ := h.pool (n - 1) (by omega)
  have hlast := h.digit (n - 1) (by omega)
  have hx : (1, x) ∈ c.contenders := mem_contenders.2 ⟨⟨n - 1⟩, hlast.present, hlast.symbol,
    by rw [hpool]; exact List.mem_singleton_self x, hchain.isEmpty⟩
  obtain ⟨t, k, len, start, ht, hruns, hk, hbounds, -, hle⟩ :=
    exists_longest hn hchains hx hchain (by omega)
  obtain ⟨hstart, hstop, hlen⟩ := eq_of_whole (n := n) (by omega) hbounds hk
  rw [hstart, hstop, hlen] at hruns
  exact ⟨t, ht, hruns⟩

/-- What may be selected from a line of digits is a chain. -/
theorem Line.contenders
    (h : Line s n c)
    {e : SymbolId × CandidateId}
    (he : e ∈ c.contenders) :
    ∃ k len start, k < n ∧ c.Chain Chart.place k e.2 len start ∧
      (¬ Reaches s.maxGap s.beamWidth k → len ≤ k) := by
  obtain ⟨u, hpresent, -, hx, -⟩ := mem_contenders.1 he
  have hlt := lt_size_of_present hpresent
  rw [h.size] at hlt
  obtain ⟨k, hk, rfl | rfl⟩ := eq_place_or_missing hlt
  · obtain ⟨len, start, hchain, hlow⟩ := (h.filled k hk).chain e.2 hx
    rw [h.settings] at hlow
    exact ⟨k, len, start, hk, hchain, hlow⟩
  · rw [(h.awaited k hk).absent] at hpresent
    cases hpresent

/-- What is selected from a line of digits is the chain of all, or lighter. -/
theorem Line.runs
    (h : Line s n c)
    (hwidth : 1 ≤ s.beamWidth)
    (hpos : 1 ≤ n)
    (hn : n ≤ Weight.highest) :
    ∃ t, c.select.2.bestParse? = some t ∧
      if Reaches s.maxGap s.beamWidth (n - 1) then t.Runs 0 n n else t.top.weight < .ofInt n := by
  have hlast : n - 1 < n := by omega
  have hdigit := h.digit (n - 1) hlast
  have hfilled := h.filled (n - 1) hlast
  have hcontender : ∀ {x}, x ∈ (c.item (Chart.place (n - 1))).pool → (1, x) ∈ c.contenders := by
    intro x hx
    obtain ⟨len, start, hchain, -⟩ := hfilled.chain x hx
    exact mem_contenders.2 ⟨_, hdigit.present, hdigit.symbol, hx, hchain.isEmpty⟩
  split
  · rename_i hreaches
    obtain ⟨x, hx, start, hchain⟩ := hfilled.full (by rw [h.settings]; exact hreaches)
    obtain ⟨t, k, len, start', ht, hruns, hk, hbounds, -, hle⟩ :=
      exists_longest hn (fun _ => h.contenders) (hcontender hx) hchain hlast
    obtain ⟨hstart, hstop, hlen⟩ := eq_of_whole (n := n) (by omega) hbounds hk
    rw [hstart, hstop, hlen] at hruns
    exact ⟨t, ht, hruns⟩
  · rename_i hmissed
    rw [← h.settings] at hwidth
    obtain ⟨x, hx⟩ := List.exists_mem_of_ne_nil _ (hfilled.ne_nil hwidth)
    obtain ⟨len, start, hchain, -⟩ := hfilled.chain x hx
    obtain ⟨t, k, len', start', ht, hruns, hk, hbounds, hlow, -⟩ :=
      exists_longest hn (fun _ => h.contenders) (hcontender hx) hchain hlast
    have hshort : len' < n := by
      rcases Nat.lt_or_ge k (n - 1) with hearly | hlate
      · omega
      · have hk' : k = n - 1 := by omega
        have hle := hlow (hk' ▸ hmissed)
        omega
    refine ⟨t, ht, ?_⟩
    rw [hruns.weight]
    refine Int.not_le.1 fun hle => ?_
    have hback := (Weight.ofInt_le_ofInt (m := n) (n := len') hn (by omega)).1 hle
    omega

end Chart

namespace Sequence

open Chart

variable {s : Settings} {tokens : List Token}

/-- A decoder for digits. -/
def decoder (kind : GrammarKind) (s : Settings) : Decoder :=
  { grammar := (digits kind).built, settings := s }

theorem line_decoded
    (hs : Ample s tokens.length)
    (hhigh : tokens.length ≤ Weight.highest)
    (hadjacent : AdjacentFrom 0 tokens)
    (hrefusals : ((decoder .operational s).decode tokens).tally.refusals = 0) :
    Line s tokens.length (Decoder.feedAll (new (digits .operational).built s) tokens) := by
  have hline := feedAll_digits (fun _ _ h => h.plain.sound)
    (fun p c t h hp ht hzero => Line.feed h hs hhigh hp ht hzero) (line_new s) tokens hadjacent
    (Nat.le_of_eq (Nat.zero_add _)) hrefusals
  rwa [Nat.zero_add] at hline

theorem tailed_decoded
    (hs : Ample s tokens.length)
    (hadjacent : AdjacentFrom 0 tokens)
    (hrefusals : ((decoder .positional s).decode tokens).tally.refusals = 0) :
    Tailed s tokens.length (Decoder.feedAll (new (digits .positional).built s) tokens) := by
  have htailed := feedAll_digits (fun _ _ h => h.sound)
    (fun p c t h hp ht hzero => Tailed.feed h hs hp ht hzero) (tailed_new s) tokens hadjacent
    (Nat.le_of_eq (Nat.zero_add _)) hrefusals
  rwa [Nat.zero_add] at htailed

/--
Adjacent digits are read as one run of all of them by a positional grammar. An
operational one reads the same, if the beam of the last digit has room for what it is
offered before its direct predecessor, and else something lighter.
-/
theorem digits_decoded
    (hs : Ample s tokens.length)
    (hsome : 1 ≤ tokens.length)
    (hhigh : tokens.length ≤ Weight.highest)
    (hadjacent : AdjacentFrom 0 tokens)
    (hpositional : ((decoder .positional s).decode tokens).tally.refusals = 0)
    (hoperational : ((decoder .operational s).decode tokens).tally.refusals = 0) :
    ∃ t u, ((decoder .positional s).decode tokens).solution = some t ∧
      ((decoder .operational s).decode tokens).solution = some u ∧
        t.Runs 0 tokens.length tokens.length ∧
          if Reaches s.maxGap s.beamWidth (tokens.length - 1) then
            u.Runs 0 tokens.length tokens.length
          else u.top.weight < .ofInt tokens.length := by
  obtain ⟨t, ht, hruns⟩ := (tailed_decoded hs hadjacent hpositional).runs hsome hhigh
  obtain ⟨u, hu, hread⟩ :=
    (line_decoded hs hhigh hadjacent hoperational).runs hs.width hsome hhigh
  exact ⟨t, u, ht, hu, hruns, hread⟩

/-- A number of digits side by side. -/
def adjacentDigits (n : Nat) : List Token :=
  (List.range n).map fun k => { concept := 1, position := k, extent := 1 }

/-- The grammars are well formed, and a beam of four has room for the first three of four digits. -/
theorem digits_decoded_sample :
    (∀ kind, (digits kind).resolve = .ok (digits kind).built) ∧ Reaches 4 4 3 ∧ ∃ t u,
      ((decoder .positional {}).decode (adjacentDigits 4)).solution = some t ∧
        ((decoder .operational {}).decode (adjacentDigits 4)).solution = some u ∧
          t.Runs 0 4 4 ∧ if Reaches 4 4 3 then u.Runs 0 4 4 else u.top.weight < .ofInt 4 :=
  ⟨resolve_digits, by decide, digits_decoded (s := {})
    ⟨by decide, by decide, by decide, rfl⟩ (by decide) (by decide) (by decide)
    (by cbv) (by cbv)⟩

/-- A beam of two has no room for them, and three of the four digits are read. -/
theorem digits_cut_short :
    AdjacentFrom 0 (adjacentDigits 4) ∧
      ((decoder .operational { beamWidth := 2 }).decode (adjacentDigits 4)).tally.refusals = 0 ∧
        (((decoder .operational { beamWidth := 2 }).decode (adjacentDigits 4)).solution.map
          fun t => (t.top.start, t.top.stop, t.top.weight, t.size)) =
            some (0, 3, .ofInt 3, 3) := by
  refine ⟨by decide, ?_, ?_⟩ <;> cbv

end Sequence

end BeamChart
