import BeamChart.Proofs.Chart.Run

/-!
# What the readings of a candidate stand for

A candidate has readings of two origins: the senses of its own symbol, and the
bindings that the symbols of its children have for it. Every change of a candidate
copies readings while children come and go, and a copied reading might outlive the
child that it came from. None does: in a chart that is driven by input each reading
is warranted by the slots as they are (`readings_are_warranted`), and there are
never more readings than the capacity.

The induction is on how a candidate has been made. A child is given up together
with its readings, and a child that is exchanged keeps them because the new one is
rooted at the same item.
-/

namespace BeamChart

namespace Chart

variable {strict : Prop} {c c' : Chart} {u : ItemId} {x y : Candidate} {m : Reading}

/-- The definition of the symbol of an item. -/
def definitionAt (c : Chart) (u : ItemId) : Option Symbol :=
  (c.item u).symbol.bind c.grammar.symbol?

/-- What a reading of a candidate goes back to. -/
inductive Warranted (c : Chart) (x : Candidate) (m : Reading) : Prop
  /-- A sense of the symbol of its own item. -/
  | sense
      {s : SymbolId}
      {own : Symbol}
      (hvia : m.via = none)
      (hroot : (c.item x.root).symbol = some s)
      (hown : c.grammar.symbol? s = some own)
      (hsense : m.concept ∈ own.senses)
      (hsymbol : m.symbol = some s)
  /-- A binding of the child in a slot to a parent like its own item. -/
  | bound
      {r : Relation}
      {slot : Slot}
      {parent child : Symbol}
      {b : Binding SymbolId}
      (hvia : m.via = some r)
      (hslot : x.slot r = some slot)
      (hparent : c.definitionAt x.root = some parent)
      (hchild : c.definitionAt (c.candidate slot.child).root = some child)
      (hbinding : b ∈ child.bindingsAt r)
      (hname : b.parentName = parent.name)
      (hconcept : m.concept = b.concept)
      (hsymbol : m.symbol = b.symbol)

/-- The readings of a candidate are warranted, and within the capacity. -/
structure WellRead (c : Chart) (x : Candidate) : Prop where
  length_le : x.readings.length ≤ c.settings.readingCapacity
  warranted : ∀ m ∈ x.readings, c.Warranted x m

section Copying

/-- A reading stays warranted while the slot it came through holds the same item. -/
theorem Warranted.copy
    (h : c.Warranted x m)
    (hroot : y.root = x.root)
    (hslot : ∀ r s, m.via = some r → x.slot r = some s →
      ∃ t, y.slot r = some t ∧ (c.candidate t.child).root = (c.candidate s.child).root) :
    c.Warranted y m := by
  cases h with
  | sense hvia hitem hown hsense hsymbol =>
    exact .sense hvia (hroot ▸ hitem) hown hsense hsymbol
  | @bound r s parent child b hvia hs hparent hchild hbinding hname hconcept hsymbol =>
    obtain ⟨t, ht, hsame⟩ := hslot r s hvia hs
    exact .bound hvia ht (hroot ▸ hparent) (hsame ▸ hchild) hbinding hname hconcept hsymbol

/-- Readings that are copied while all slots stay filled are still warranted. -/
theorem WellRead.copy
    (h : c.WellRead x)
    (hreadings : y.readings = x.readings)
    (hroot : y.root = x.root)
    (hslot : ∀ r s, x.slot r = some s →
      ∃ t, y.slot r = some t ∧ (c.candidate t.child).root = (c.candidate s.child).root) :
    c.WellRead y where
  length_le := by
    rw [hreadings]
    exact h.length_le
  warranted n hn := by
    rw [hreadings] at hn
    exact (h.warranted n hn).copy hroot fun r s _ hs => hslot r s hs

theorem wellRead_of_readings_eq_nil
    (h : x.readings = []) :
    c.WellRead x where
  length_le := by
    rw [h]
    exact Nat.zero_le _
  warranted n hn := by
    rw [h] at hn
    cases hn

theorem Extends.definitionAt
    (h : Extends c c')
    {d : Symbol}
    (hd : c.definitionAt u = some d) :
    c'.definitionAt u = some d := by
  obtain ⟨s, hs, hdefined⟩ := Option.bind_eq_some_iff.1 hd
  rw [Chart.definitionAt, h.symbol hs, h.grammar]
  exact hdefined

theorem Warranted.extend
    (h : c.Warranted x m)
    (hext : Extends c c')
    (hchild : ∀ r s, x.slot r = some s → c.Has s.child) :
    c'.Warranted x m := by
  cases h with
  | sense hvia hroot hown hsense hsymbol =>
    exact .sense hvia (hext.symbol hroot) (hext.grammar ▸ hown) hsense hsymbol
  | @bound r s parent child b hvia hs hparent hbound hbinding hname hconcept hsymbol =>
    refine .bound hvia hs (hext.definitionAt hparent) (hext.definitionAt ?_) hbinding hname
      hconcept hsymbol
    rw [hext.root (hchild r s hs)]
    exact hbound

theorem WellRead.extend
    (h : c.WellRead x)
    (hext : Extends c c')
    (hchild : ∀ r s, x.slot r = some s → c.Has s.child) :
    c'.WellRead x where
  length_le := by
    rw [hext.settings]
    exact h.length_le
  warranted n hn := (h.warranted n hn).extend hext hchild

end Copying

section Making

theorem wellRead_leafOf
    {s : Symbol}
    {id : SymbolId}
    (t : Token)
    (hsymbol : (c.item u).symbol = some id)
    (hdefined : c.grammar.symbol? id = some s) :
    c.WellRead (c.leafOf u s id t) where
  length_le := by
    simp only [leafOf, senseReadings, List.length_map]
    exact List.length_take_le _ _
  warranted n hn := by
    simp only [leafOf, senseReadings, List.mem_map] at hn
    obtain ⟨concept, hconcept, rfl⟩ := hn
    exact .sense rfl hsymbol hdefined (List.mem_of_mem_take hconcept) rfl

theorem readings_joined
    (c : Chart)
    (id : CandidateId)
    (r : Relation)
    (p d : Candidate) :
    (c.joined id r p d).readings =
      if r.isSequencing then p.readings
      else p.readings ++ (c.boundReadings p d r).take
        (c.settings.readingCapacity - p.readings.length) := by
  by_cases hr : r.isSequencing = true
  · simp only [joined, if_pos hr]
    split
    · split <;> rfl
    · rfl
  · simp only [joined, if_neg hr]
    rfl

theorem mem_boundReadings
    {p d : Candidate}
    {r : Relation}
    (hm : m ∈ c.boundReadings p d r) :
    ∃ parent child b, c.definitionAt p.root = some parent ∧
      c.definitionAt d.root = some child ∧ b ∈ child.bindingsAt r ∧
        b.parentName = parent.name ∧
          m = { concept := b.concept, symbol := b.symbol, via := some r } := by
  unfold boundReadings at hm
  split at hm
  · rename_i parent child hparent hchild
    obtain ⟨b, hb, rfl⟩ := List.mem_map.1 hm
    obtain ⟨hbinding, hname⟩ := List.mem_filter.1 hb
    exact ⟨parent, child, b, hparent, hchild, hbinding, of_decide_eq_true hname, rfl⟩
  · cases hm

/-- A child that is taken brings the bindings that its symbol has for the parent. -/
theorem wellRead_joined
    {p d : CandidateId}
    {r : Relation}
    (hfree : (c.candidate p).slot r = none)
    (hp : c.WellRead (c.candidate p)) :
    c.WellRead (c.joined d r (c.candidate p) (c.candidate d)) := by
  have hold : ∀ n ∈ (c.candidate p).readings,
      c.Warranted (c.joined d r (c.candidate p) (c.candidate d)) n := fun n hn =>
    (hp.warranted n hn).copy (root_joined ..) fun q s _ hs =>
      ⟨s, slot_joined_of_slot hfree hs, rfl⟩
  constructor
  · have hle := hp.length_le
    rw [readings_joined]
    split
    · exact hle
    · rw [List.length_append, List.length_take]
      omega
  · intro n hn
    rw [readings_joined] at hn
    split at hn
    · exact hold n hn
    · rcases List.mem_append.1 hn with hn | hn
      · exact hold n hn
      · obtain ⟨parent, child, b, hparent, hchild, hbinding, hname, rfl⟩ :=
          mem_boundReadings (List.mem_of_mem_take hn)
        obtain ⟨s, hs, hd⟩ := c.slot_joined_self d r (c.candidate p) (c.candidate d)
        rw [← root_joined c d r (c.candidate p) (c.candidate d)] at hparent
        exact .bound rfl hs hparent (hd ▸ hchild) hbinding hname rfl rfl

/-- A child is given up together with the readings that came through its slot. -/
theorem wellRead_detach
    (r : Relation)
    (child : Candidate)
    (h : c.WellRead x) :
    c.WellRead (x.detach r child) := by
  cases hs : x.slot r with
  | none =>
    have hsame : x.detach r child = x := by
      unfold Candidate.detach
      rw [hs]
    rw [hsame]
    exact h
  | some s =>
    have hreadings : (x.detach r child).readings = x.readings.filter fun n => n.via != some r := by
      unfold Candidate.detach
      rw [hs]
    constructor
    · rw [hreadings]
      exact Nat.le_trans (List.length_filter_le _ _) h.length_le
    · intro n hn
      rw [hreadings, List.mem_filter] at hn
      refine (h.warranted n hn.1).copy (Candidate.root_detach x r child) fun q t hvia ht => ?_
      have hq : q ≠ r := by
        rintro rfl
        simp [hvia] at hn
      exact ⟨t, (Candidate.slot_detach_of_ne x child hq).trans ht, rfl⟩

/-- Whatever is made of candidates that are read well is read well. -/
theorem Made.wellRead
    (h : Made strict c x)
    (hold : ∀ y, c.Has y → c.WellRead (c.candidate y)) :
    c.WellRead x := by
  cases h with
  | leaf hitem habsent hsymbol hdefined => exact wellRead_leafOf _ hsymbol hdefined
  | seed => exact wellRead_of_readings_eq_nil rfl
  | joined hfits => exact wellRead_joined hfits.slot (hold _ hfits.parent)
  | @chained p d hfits =>
    refine (hold p hfits.parent).copy rfl rfl fun r s hs => ⟨s, ?_, rfl⟩
    have hr : r ≠ .next := by
      rintro rfl
      rw [hfits.slot] at hs
      cases hs
    exact (Candidate.slot_attach_of_ne _ _ _ hr).trans hs
  | lifted => exact wellRead_of_readings_eq_nil rfl
  | @reduced p v hp =>
    exact withoutItem_induction v (hold p hp) fun z r s hz _ => wellRead_detach r _ hz
  | @repointed p d r s hp hd hslot hroot =>
    -- The readings are those of the old child: the new one is rooted at the same item.
    have hrest : ∀ child, ((c.candidate p).detach r child).root = (c.candidate p).root :=
      Candidate.root_detach _ r
    refine (hold p hp).copy rfl (hrest (c.candidate s.child)) fun q t ht => ?_
    change ∃ t', (((c.candidate p).detach r (c.candidate s.child)).attach r ⟨d, s.bonus⟩
      (c.candidate d)).slot q = some t' ∧ _
    by_cases hq : q = r
    · subst hq
      rw [hslot] at ht
      cases ht
      exact ⟨⟨d, s.bonus⟩, Candidate.slot_attach_self .., hroot⟩
    · rw [Candidate.slot_attach_of_ne _ _ _ hq, Candidate.slot_detach_of_ne _ _ hq]
      exact ⟨t, ht, rfl⟩

end Making

section Running

theorem Move.wellRead
    (h : Move True c c')
    (hc : Closed c)
    (hold : ∀ x, c.Has x → c.WellRead (c.candidate x)) :
    ∀ x, c'.Has x → c'.WellRead (c'.candidate x) := by
  have hkept : ∀ x, Extends c c' → c.Has x → c'.WellRead (c'.candidate x) := by
    intro x hext hx
    refine ((hold x hx).extend hext fun r s hs => hc.has_child hx hs).copy ?_ (hext.root hx)
      fun r s hs => ⟨s, (hext.slot hx r).trans hs, rfl⟩
    exact (congrArg Candidate.readings (hext.body x hx) :)
  cases h with
  | step h =>
    intro x hx
    rcases h.candidate_cases hx with hx | ⟨rfl, hmade, -⟩
    · exact hkept x h.grows hx
    · refine (hmade.wellRead hold).extend h.grows fun r s hs => ?_
      exact (hmade.origin hs).has_child hc
  | fix hnone => exact fun x hx => hkept x (.fix hnone) hx
  | refill f hfree => exact absurd trivial hfree

/--
In a chart that is driven by input a candidate has at most as many readings as the
capacity says. A reading of no slot is a sense of the candidate's own symbol; one of a
slot comes through a child that is there, and is a binding of that child's symbol.
-/
theorem readings_are_warranted
    {g : Grammar}
    {s : Settings}
    (h : Driven g s c)
    {x : CandidateId}
    (hx : c.Has x) :
    (c.candidate x).readings.length ≤ s.readingCapacity ∧
      ∀ m ∈ (c.candidate x).readings, c.Warranted (c.candidate x) m := by
  have hkept := h.invariant (P := fun c => ∀ x, c.Has x → c.WellRead (c.candidate x))
    (fun x hx => absurd hx (Nat.not_lt_zero _))
    fun c c' _ _ hc hold hmove => hmove.wellRead hc.closed hold
  obtain ⟨hlength, hwarranted⟩ := hkept.holds x hx
  rw [hkept.settings] at hlength
  exact ⟨hlength, hwarranted⟩

/-- A head with a sense of its own, which a mark means something to as its property. -/
def readDeclaration : Declaration :=
  { symbols :=
      [{ name := "head", senses := ["own"],
          rules := [{ relation := .property, target := "mark" }] },
        { name := "mark",
          bindings := [{ relation := .property, parentName := "head", concept := "bound" }] }] }

/-- The head has taken the mark behind it. -/
def readChart : Chart :=
  (new readDeclaration.built {}).feeds
    [{ concept := 1, position := 0, extent := 1 }, { concept := 2, position := 1, extent := 1 }]

theorem readings_are_warranted_sample :
    (readChart.candidate ⟨2⟩).readings =
        [{ concept := "own", symbol := some 1, via := none },
          { concept := "bound", symbol := none, via := some .property }] ∧
      (readChart.candidate ⟨2⟩).readings.length ≤ 4 ∧
        ∀ m ∈ (readChart.candidate ⟨2⟩).readings,
          readChart.Warranted (readChart.candidate ⟨2⟩) m := by
  have hx : readChart.Has ⟨2⟩ := by decide +kernel
  exact ⟨by decide +kernel, readings_are_warranted (driven_feeds .new _) hx⟩

end Running

end Chart

end BeamChart
