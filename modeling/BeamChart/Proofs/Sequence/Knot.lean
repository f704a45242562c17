import BeamChart.Proofs.Chart.Frame
import BeamChart.Proofs.Sequence.Arrival

/-!
# Chains of peers

The peers of an input are the tokens that name an ordinary symbol. In a positional
chart each of them takes the chain of all peers before it (`Leaf.tie`), which leaves
a chain that covers what they cover, and weighs what they weigh (`Knot`).
-/

namespace BeamChart

/-- The tokens that do not reach beyond the window. -/
def Settings.heard (s : Settings) (tokens : List Token) : List Token :=
  tokens.filter fun t => t.stop ≤ s.window

/-- The nonempty spans of some tokens. -/
def spansOf (row : List (ItemId × Token)) : List (Nat × Nat) :=
  (row.filter fun e => 0 < e.2.extent).map fun e => (e.2.position, e.2.stop)

namespace Grammar

/-- The peers among some tokens, each of which makes one item. -/
def peers (g : Grammar) (heard : List Token) : List (ItemId × Token) :=
  (heard.zipIdx.filter fun e => g.isPeer e.1).map fun e => (⟨e.2⟩, e.1)

/-- The sum of the weights of some tokens, from the first on. -/
def total (g : Grammar) (s : Scoring) (row : List (ItemId × Token)) : Weight :=
  (row.map fun e => g.weigh s e.2).foldl (· + ·) 0

/-- The candidates that are stored for some tokens: their leaves, and a link between peers. -/
def stored (g : Grammar) (heard : List Token) : Nat :=
  heard.countP (fun t => (g.named? t).isSome) + ((g.peers heard).length - 1)

variable {g : Grammar} {heard more : List Token} {t : Token} {u : ItemId}

theorem named_of_isPeer
    (h : g.isPeer t = true) :
    (g.named? t).isSome = true := by
  obtain ⟨entry, hentry, -⟩ := (Option.any_eq_true _ _).1 h
  rw [hentry]
  rfl

theorem peers_concat (g : Grammar) (heard : List Token) (t : Token) :
    g.peers (heard ++ [t]) =
      if g.isPeer t then g.peers heard ++ [(⟨heard.length⟩, t)] else g.peers heard := by
  unfold peers
  rw [List.zipIdx_append, List.filter_append, List.map_append]
  by_cases ht : g.isPeer t = true <;> simp [ht]

theorem mem_peers :
    (u, t) ∈ g.peers heard ↔ heard[u.index]? = some t ∧ g.isPeer t = true := by
  simp only [peers, List.mem_map, List.mem_filter, Prod.mk.injEq]
  constructor
  · rintro ⟨⟨t', k⟩, ⟨hmem, hpeer⟩, rfl, rfl⟩
    exact ⟨List.mem_zipIdx_iff_getElem?.1 hmem, hpeer⟩
  · rintro ⟨hfound, hpeer⟩
    exact ⟨(t, u.index), ⟨List.mem_zipIdx_iff_getElem?.2 hfound, hpeer⟩, rfl, rfl⟩

theorem peers_prefix (g : Grammar) (heard more : List Token) :
    g.peers heard <+: g.peers (heard ++ more) := by
  unfold peers
  rw [List.zipIdx_append, List.filter_append, List.map_append]
  exact List.prefix_append _ _

theorem stored_le_append (g : Grammar) (heard more : List Token) :
    g.stored heard ≤ g.stored (heard ++ more) := by
  have hlength := (g.peers_prefix heard more).length_le
  rw [stored, stored, List.countP_append]
  omega

theorem stored_concat (g : Grammar) (heard : List Token) (t : Token) :
    g.stored (heard ++ [t]) =
      g.stored heard + (if (g.named? t).isSome then 1 else 0) +
        (if g.isPeer t ∧ g.peers heard ≠ [] then 1 else 0) := by
  have hlength : 0 < (g.peers heard).length ↔ g.peers heard ≠ [] := List.length_pos_iff
  rw [stored, stored, List.countP_append, g.peers_concat]
  by_cases ht : g.isPeer t = true
  · by_cases hnil : g.peers heard = []
    · simp [ht, hnil]
    · have hpos := hlength.2 hnil
      simp only [ht, hnil, if_true, List.countP_singleton, List.length_append,
        List.length_singleton, ne_eq, not_false_eq_true, and_self]
      omega
  · simp only [ht, Bool.false_eq_true, if_false, List.countP_singleton, false_and]
    omega

end Grammar

namespace Chart

variable {c c' : Chart} {t : Token} {u : ItemId} {x y : CandidateId}
  {row : List (ItemId × Token)}

section Chains

/-- A stored candidate of the item of a token. -/
structure Over (c : Chart) (x : CandidateId) (u : ItemId) (t : Token) : Prop where
  has : c.Has x
  root : (c.candidate x).root = u
  present : (c.item u).present = true
  token : (c.item u).token = some t

/-- A candidate over the first of some tokens that holds one over the rest, and nothing else. -/
inductive Strand (c : Chart) : CandidateId → List (ItemId × Token) → Prop
  | last
      {x : CandidateId}
      {u : ItemId}
      {t : Token}
      (hover : c.Over x u t)
      (hslots : (c.candidate x).slots = .empty) :
      Strand c x [(u, t)]
  | before
      {x y : CandidateId}
      {u : ItemId}
      {t : Token}
      {row : List (ItemId × Token)}
      (hover : c.Over x u t)
      (hslots : (c.candidate x).slots = Slots.empty.set .next (some ⟨y, 0⟩))
      (hrest : Strand c y row) :
      Strand c x ((u, t) :: row)

/-- A candidate is the chain of some tokens, covers what they cover and weighs what they weigh. -/
structure Knot (c : Chart) (x : CandidateId) (row : List (ItemId × Token)) : Prop where
  strand : c.Strand x row.reverse
  spans : (c.candidate x).coverage.runs.map (fun a => (a.start, a.stop)) = spansOf row
  weight : (c.candidate x).weight = c.grammar.total c.settings.scoring row

theorem Over.extend
    (h : c.Over x u t)
    (hext : Extends c c') :
    c'.Over x u t where
  has := hext.has h.has
  root := (hext.root h.has).trans h.root
  present := hext.present u h.present
  token := by
    rw [← h.token]
    exact congrArg (fun e => e.2.2.2.2) (hext.place u (Or.inr h.present))

theorem Strand.has
    (h : c.Strand x row) :
    c.Has x := by
  cases h with
  | last hover => exact hover.has
  | before hover => exact hover.has

theorem Strand.covers
    (h : c.Strand x ((u, t) :: row)) :
    c.Over x u t := by
  cases h <;> assumption

theorem Strand.extend
    (h : c.Strand x row)
    (hext : Extends c c') :
    c'.Strand x row := by
  induction h with
  | last hover hslots =>
    exact .last (hover.extend hext) ((hext.congruent hover.has).2.2.2.1.trans hslots)
  | before hover hslots _ ih =>
    exact .before (hover.extend hext) ((hext.congruent hover.has).2.2.2.1.trans hslots) ih

theorem Knot.extend
    (h : c.Knot x row)
    (hext : Extends c c') :
    c'.Knot x row where
  strand := h.strand.extend hext
  spans := by
    rw [hext.coverage h.strand.has]
    exact h.spans
  weight := by
    rw [hext.grammar, hext.settings, ← h.weight]
    exact (hext.congruent h.strand.has).2.1

theorem Knot.covers_last
    (h : c.Knot x (row ++ [(u, t)])) :
    c.Over x u t := by
  have hstrand := h.strand
  rw [List.reverse_append] at hstrand
  exact hstrand.covers

/-- A chain covers something if one of its tokens does. -/
theorem Knot.not_isEmpty
    (h : c.Knot x row)
    (hcovers : ∃ e ∈ row, 0 < e.2.extent) :
    (c.candidate x).isEmpty = false := by
  rw [Candidate.isEmpty, Coverage.isEmpty, List.isEmpty_eq_false_iff]
  intro hnil
  obtain ⟨e, he, hextent⟩ := hcovers
  have hspan : (e.2.position, e.2.stop) ∈ spansOf row :=
    List.mem_map_of_mem (List.mem_filter.2 ⟨he, decide_eq_true hextent⟩)
  rw [← h.spans, hnil] at hspan
  cases hspan

/-- A leaf over one token. -/
structure Leaf (c : Chart) (x : CandidateId) (u : ItemId) (t : Token) : Prop where
  covers : c.Over x u t
  slots : (c.candidate x).slots = .empty
  coverage : ∃ owner, (c.candidate x).coverage = .single t.position t.stop owner
  weight : (c.candidate x).weight = c.grammar.weigh c.settings.scoring t

theorem Leaf.extend
    (h : c.Leaf x u t)
    (hext : Extends c c') :
    c'.Leaf x u t where
  covers := h.covers.extend hext
  slots := (hext.congruent h.covers.has).2.2.2.1.trans h.slots
  coverage := by
    rw [hext.coverage h.covers.has]
    exact h.coverage
  weight := by
    rw [hext.grammar, hext.settings, ← h.weight]
    exact (hext.congruent h.covers.has).2.1

theorem spans_single_token (owner : CandidateId) (u : ItemId) (t : Token) :
    (Coverage.single t.position t.stop owner).runs.map (fun a => (a.start, a.stop)) =
      spansOf [(u, t)] := by
  by_cases h : 0 < t.extent
  · have hlt : t.position < t.stop := Nat.lt_add_of_pos_right h
    simp [Coverage.single, spansOf, h, hlt]
  · have hle : ¬ t.position < t.stop := by
      rw [Token.stop]
      omega
    simp [Coverage.single, spansOf, h, hle, Coverage.empty]

/-- A leaf is the chain of its token. -/
theorem Leaf.knot
    (h : c.Leaf x u t) :
    c.Knot x [(u, t)] where
  strand := .last h.covers h.slots
  spans := by
    obtain ⟨owner, hcoverage⟩ := h.coverage
    rw [hcoverage]
    exact spans_single_token owner u t
  weight := by
    rw [h.weight, Grammar.total, List.map_singleton, List.foldl_cons, List.foldl_nil,
      Weight.zero_add]

/-- The tokens of a chain have stopped where a later one starts. -/
theorem Knot.stop_le
    (h : c.Knot x row)
    (horder : ∀ e ∈ row, e.2.stop ≤ t.position) :
    ∀ a ∈ (c.candidate x).coverage.runs, a.stop ≤ t.position := by
  intro a ha
  have hmem : (a.start, a.stop) ∈ spansOf row := by
    rw [← h.spans]
    exact List.mem_map_of_mem ha
  obtain ⟨e, he, heq⟩ := List.mem_map.1 hmem
  rw [← show e.2.stop = a.stop from congrArg Prod.snd heq]
  exact horder e (List.mem_filter.1 he).1

/-- A leaf that has taken the chain of all earlier tokens is the chain of all tokens. -/
theorem Leaf.tie
    {id : CandidateId}
    (h : c.Leaf x u t)
    (hy : c.Knot y row)
    (horder : ∀ e ∈ row, e.2.stop ≤ t.position)
    (hext : Extends c c')
    (hid : c'.Has id)
    (hmade : c'.candidate id = (c.candidate x).attach .next ⟨y, 0⟩ (c.candidate y)) :
    c'.Knot id (row ++ [(u, t)]) where
  strand := by
    rw [List.reverse_append]
    refine .before ⟨hid, ?_, (h.covers.extend hext).present, (h.covers.extend hext).token⟩ ?_
      (hy.strand.extend hext)
    · rw [hmade]
      exact h.covers.root
    · rw [hmade, Candidate.attach, h.slots]
  spans := by
    obtain ⟨owner, hcoverage⟩ := h.coverage
    rw [hmade]
    change ((c.candidate x).coverage.union (c.candidate y).coverage).runs.map _ = _
    rw [hcoverage, Coverage.runs_union_behind (hy.stop_le horder), List.map_append, hy.spans,
      spans_single_token owner u t]
    simp only [spansOf, List.filter_append, List.map_append]
  weight := by
    rw [hmade, hext.grammar, hext.settings]
    change (c.candidate x).weight + (c.candidate y).weight + 0 = _
    rw [Weight.add_zero, Weight.add_comm, h.weight, hy.weight]
    simp only [Grammar.total, List.map_append, List.map_singleton, List.foldl_append,
      List.foldl_cons, List.foldl_nil]

end Chains

end Chart

end BeamChart
