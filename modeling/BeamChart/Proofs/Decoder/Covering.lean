import BeamChart.Decoder
import BeamChart.Proofs.Candidate.Slots
import BeamChart.Proofs.Chart.Standing

/-!
# What covers an extent

In a chart in which tokens have been sighted, the entries of `covering` are
the leaves of ordinary tokens over the extent (`of_mem_covering`), and each
such token has one (`exists_mem_covering`). One is preferred to all others
(`preferred_cases`), and its tree is a single node (`parse_leaf`).
-/

namespace BeamChart

namespace Decoder

variable
  {c : Chart}
  {tokens : List Token}
  {t : Token}
  {s : Symbol}
  {u : ItemId}
  {x : CandidateId}
  {start stop : Nat}

section Preference

/-- The second entry is heavier, or as heavy and of no higher symbol. -/
def YieldsTo (c : Chart) (a b : SymbolId × CandidateId) : Prop :=
  c.weightOf a.2 < c.weightOf b.2 ∨ (c.weightOf a.2 = c.weightOf b.2 ∧ b.1 ≤ a.1)

theorem yieldsTo_refl (c : Chart) (a : SymbolId × CandidateId) :
    YieldsTo c a a :=
  Or.inr ⟨rfl, Nat.le_refl _⟩

theorem YieldsTo.trans
    {a b e : SymbolId × CandidateId}
    (h : YieldsTo c a b)
    (h' : YieldsTo c b e) :
    YieldsTo c a e := by
  rcases h with hlt | ⟨heq, hle⟩
  · left
    rcases h' with hlt' | ⟨heq', -⟩
    · exact Int.lt_trans hlt hlt'
    · exact heq' ▸ hlt
  · rcases h' with hlt' | ⟨heq', hle'⟩
    · exact Or.inl (heq ▸ hlt')
    · exact Or.inr ⟨heq.trans heq', Nat.le_trans hle' hle⟩

/-- Of two entries one is preferred, and both yield to it. -/
theorem preferLater_some (c : Chart) (b e : SymbolId × CandidateId) :
    ∃ r, preferLater c (some b) e = some r ∧ (r = b ∨ r = e) ∧
      YieldsTo c b r ∧ YieldsTo c e r := by
  unfold preferLater
  dsimp only
  split
  · rename_i hkeep
    refine ⟨b, rfl, Or.inl rfl, yieldsTo_refl c b, ?_⟩
    exact hkeep.imp id fun ⟨heq, hlt⟩ => ⟨heq, Nat.le_of_lt hlt⟩
  · rename_i htake
    refine ⟨e, rfl, Or.inr rfl, ?_, yieldsTo_refl c e⟩
    rcases Int.lt_trichotomy (c.weightOf b.2).toInt (c.weightOf e.2).toInt with hlt | heq | hgt
    · exact Or.inl hlt
    · have hsame := Weight.ext heq
      exact Or.inr ⟨hsame, Nat.not_lt.1 fun hlt => htake (Or.inr ⟨hsame.symm, hlt⟩)⟩
    · exact absurd (Or.inl hgt) htake

theorem foldl_preferLater
    (entries : List (SymbolId × CandidateId))
    (b : SymbolId × CandidateId) :
    ∃ r, entries.foldl (preferLater c) (some b) = some r ∧ r ∈ b :: entries ∧
      ∀ a ∈ b :: entries, YieldsTo c a r := by
  induction entries generalizing b with
  | nil => exact ⟨b, rfl, by simp, by simpa using yieldsTo_refl c b⟩
  | cons e rest ih =>
    obtain ⟨d, hd, hone, hb, he⟩ := preferLater_some c b e
    obtain ⟨r, hr, hmem, hyield⟩ := ih d
    refine ⟨r, by rw [List.foldl_cons, hd, hr], ?_, ?_⟩
    · rcases List.mem_cons.1 hmem with rfl | hrest
      · rcases hone with rfl | rfl <;> simp
      · simp [hrest]
    · have hdr := hyield d (by simp)
      intro a ha
      rcases List.mem_cons.1 ha with rfl | ha
      · exact hb.trans hdr
      rcases List.mem_cons.1 ha with rfl | ha
      · exact he.trans hdr
      · exact hyield a (by simp [ha])

/-- Among some entries one is found that all others yield to, and among none nothing. -/
theorem preferred_cases (c : Chart) (entries : List (SymbolId × CandidateId)) :
    (entries = [] ∧ entries.foldl (preferLater c) none = none) ∨
      ∃ r ∈ entries, entries.foldl (preferLater c) none = some r ∧
        ∀ a ∈ entries, YieldsTo c a r := by
  cases entries with
  | nil => exact Or.inl ⟨rfl, rfl⟩
  | cons e rest =>
    obtain ⟨r, hr, hmem, hyield⟩ := foldl_preferLater (c := c) rest e
    exact Or.inr ⟨r, hmem, hr, hyield⟩

end Preference

section Covering

/-- The symbol of a token is defined, and not by a separator or marker. -/
structure Ordinary (g : Grammar) (t : Token) (id : SymbolId) (s : Symbol) : Prop where
  recognized : t.symbol? = some id
  defined : g.symbol? id = some s
  ordinary : s.kind = .ordinary

theorem Ordinary.standsByPosition
    {id : SymbolId}
    (h : Ordinary c.grammar t id s) :
    c.standsByPosition t = true := by
  simp [Chart.standsByPosition, h.recognized, Chart.kindOf, h.defined, h.ordinary]

/-- What is found to cover an extent is the leaf of an ordinary token over it. -/
theorem of_mem_covering
    (h : Chart.Standing tokens c)
    {e : SymbolId × CandidateId}
    (he : e ∈ covering c start stop) :
    ∃ t ∈ tokens, ∃ s u, t.position = start ∧ t.stop = stop ∧ Ordinary c.grammar t e.1 s ∧
      c.Displays u t ∧ c.LeafOver e.2 u s t := by
  obtain ⟨i, hi, hsome⟩ := List.mem_filterMap.1 he
  obtain ⟨u, hu, rfl⟩ := List.mem_map.1 hi
  obtain ⟨t, ht, hposition, hstands, hdisplays⟩ := h.token start u hu
  rw [hdisplays.symbol, hdisplays.stop] at hsome
  split at hsome
  · rename_i hcovers
    split at hsome
    · rename_i id x hid hx
      cases hsome
      have hend : t.stop = stop := by
        simp only [Bool.and_eq_true, beq_iff_eq] at hcovers
        exact hcovers.2
      cases hdefined : c.grammar.symbol? id with
      | none =>
        have hbare := hdisplays.bare (by rw [hid, Option.bind_some, hdefined])
        simp [hbare] at hx
      | some s =>
        obtain ⟨y, hpool, hleaf⟩ := hdisplays.held s (by rw [hid, Option.bind_some, hdefined])
        obtain rfl : y = x := by simpa [hpool] using hx
        have hkind : s.kind = .ordinary := by
          simpa [Chart.standsByPosition, hid, Chart.kindOf, hdefined] using hstands
        exact ⟨t, ht, s, u, hposition, hend, ⟨hid, hdefined, hkind⟩, hdisplays, hleaf⟩
    · cases hsome
  · cases hsome

/-- The leaf of an ordinary token is found to cover its extent. -/
theorem exists_mem_covering
    (h : Chart.Standing tokens c)
    {id : SymbolId}
    (ht : t ∈ tokens)
    (hordinary : Ordinary c.grammar t id s) :
    ∃ x, (id, x) ∈ covering c t.position t.stop := by
  obtain ⟨u, hu, hdisplays⟩ := h.item t ht hordinary.standsByPosition
  obtain ⟨x, hpool, -⟩ := hdisplays.held s (by
    rw [hordinary.recognized, Option.bind_some, hordinary.defined])
  have hknown := Token.ne_unrecognized hordinary.recognized
  refine ⟨x, List.mem_filterMap.2 ⟨c.item u, List.mem_map_of_mem hu, ?_⟩⟩
  simp [Item.isRecognized, hdisplays.symbol, hordinary.recognized, hdisplays.stop, hpool, hknown]

end Covering

section Leaves

/-- The node of a leaf that covers an extent. -/
def leafNode (s : Settings) (id : SymbolId) (x : Symbol) (start stop : Nat) : Node :=
  { via := none
    symbol := id
    name := x.name
    weight := s.scoring.tokenWeight (stop - start) false x.verification
    start
    stop
    readings := x.senses.take s.readingCapacity
    marker := none }

/-- Without filled slots a tree is one node. -/
theorem parse_of_no_slots
    (h : (c.candidate x).slots = .empty) :
    c.parse x = .node (c.nodeOf none x) [] := by
  unfold Chart.parse
  cases x.index with
  | zero => rfl
  | succ room => rw [Chart.parseWithin, h, Slots.filled_empty, List.map_nil]

theorem span?_single
    (h : start < stop)
    (owner : CandidateId) :
    (Coverage.single start stop owner).span? = some (start, stop) := by
  simp [Coverage.single, h, Coverage.span?, Coverage.start?, Coverage.stop?]

theorem weightOf_leaf
    (hleaf : c.LeafOver x u s t)
    (hdense : t.sparse = false) :
    c.weightOf x = c.settings.scoring.tokenWeight t.extent false s.verification := by
  rw [Chart.weightOf, hleaf.leaf, ← hdense]
  rfl

/-- The tree of a leaf over an ordinary token. -/
theorem parse_leaf
    {id : SymbolId}
    (hleaf : c.LeafOver x u s t)
    (hdisplays : c.Displays u t)
    (hordinary : Ordinary c.grammar t id s)
    (hdense : t.sparse = false)
    (hextent : 0 < t.extent) :
    c.parse x = .node (leafNode c.settings id s t.position t.stop) [] := by
  have hstop : t.position < t.stop := by
    unfold Token.stop
    omega
  have hsize : t.stop - t.position = t.extent := by
    unfold Token.stop
    omega
  have hsymbol := hdisplays.symbol.trans hordinary.recognized
  have hname : c.grammar.nameOf id = s.name := by
    rw [Grammar.nameOf, hordinary.defined]
  rw [parse_of_no_slots (by rw [hleaf.leaf]; rfl)]
  congr 1
  simp [Chart.nodeOf, leafNode, hleaf.leaf, Candidate.leaf, Candidate.span?, span?_single hstop,
    hsymbol, hname, hsize, hdense, Chart.senseReadings, List.map_map, Function.comp_def]

end Leaves

end Decoder

end BeamChart
