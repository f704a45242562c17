import BeamChart.Proofs.Chart.Run
import BeamChart.Proofs.Grammar.Built

/-!
# The edges of a driven chart

Every edge between a candidate of a present item and its child is there for a
reason: the item is the aggregate made for the child, or the fixed parent of the
child's item, or the grammar gives a rule for it (`edges_are_licensed`). The
child has been seen itself, so below a present item nothing is a mere
prediction.

Placeholders may hold any child that was offered while they were awaited. They
become present only while they hold nothing, and that is why the invariant
(`Justified`) survives the steps that make an item present.
-/

namespace BeamChart

namespace Chart

variable {strict : Prop} {c c' : Chart} {u : ItemId} {r : Relation} {y : CandidateId}

/-- A present child, with the reason that an item has for holding it. -/
structure Edge (c : Chart) (u : ItemId) (r : Relation) (y : CandidateId) : Prop where
  present : (c.item (c.candidate y).root).present = true
  reason :
    ((c.item u).isAggregate = true ∧ r = .aggregate ∧ (c.candidate y).wrapper = some u) ∨
      (c.item (c.candidate y).root).fixedParent = some (u, r) ∨
      c.Grounds u (c.candidate y).root r

/-- The children of present items are held for a reason. -/
def Justified (c : Chart) : Prop :=
  ∀ x r s, c.Has x → (c.item (c.candidate x).root).present = true →
    (c.candidate x).slot r = some s → c.Edge (c.candidate x).root r s.child

theorem Edge.extend
    (he : c.Edge u r y)
    (h : Extends c c')
    (hu : u.index < c.items.size)
    (hy : c.Has y) :
    c'.Edge u r y where
  present := by
    rw [h.root hy]
    exact h.present _ he.present
  reason := by
    rw [h.root hy]
    rcases he.reason with ⟨haggregate, hr, hwrapper⟩ | hfixed | hgrounds
    · left
      rw [h.isAggregate u hu]
      exact ⟨haggregate, hr, h.wrapper y u hwrapper⟩
    · exact Or.inr (Or.inl (h.fixedParent _ _ hfixed))
    · exact Or.inr (Or.inr (h.grounds hgrounds))

/-- What a candidate of a present item is made of is held for a reason. -/
theorem Origin.edge
    (h : Origin True c u r y)
    (hkind : c.grammar.kind ≠ .positional)
    (hl : Lawful c)
    (hj : c.Justified)
    (hu : (c.item u).present = true) :
    c.Edge u r y := by
  cases h with
  | @kept x s hx hroot hslot hchild =>
    rw [← hchild, ← hroot]
    refine hj x r s hx ?_ hslot
    rw [hroot]
    exact hu
  | taken _ hstrict =>
    have hlicensed := hstrict trivial
    exact ⟨hlicensed.child, Or.inr (Or.inr hlicensed.grounds)⟩
  | chained _ hpositional => exact absurd hpositional hkind
  | lifted _ hstrict =>
    obtain ⟨hpresent, habsent | hfixed⟩ := hstrict trivial
    · rw [hu] at habsent
      cases habsent
    · exact ⟨hpresent, Or.inr (Or.inl hfixed)⟩
  | @repointed x s _ hx hslot hroot hfixed =>
    refine ⟨?_, Or.inr (Or.inl hfixed)⟩
    rw [hroot]
    exact hl.child x r s hx hslot

/-- An aggregate holds the candidate that it was made for. -/
theorem Step.Wraps.edge
    {x w : CandidateId}
    (h : Step.Wraps c u x w)
    (hl : Lawful c)
    {s : Slot}
    (hs : (c.candidate w).slot r = some s)
    (hext : Extends c c')
    (hu : u.index < c.items.size)
    (hwrapper : (c'.candidate x).wrapper = some u) :
    c'.Edge u r s.child := by
  obtain ⟨haggregate, hx, hw, hlifted, -⟩ := h
  have hseen := hl.child w r s hw hs
  have hslot : r = .aggregate ∧ s.child = x := by
    rw [hlifted] at hs
    by_cases hr : r = .aggregate
    · subst hr
      rw [Candidate.slot_attach_self] at hs
      cases hs
      exact ⟨rfl, rfl⟩
    · rw [Candidate.slot_attach_of_ne _ _ _ hr, Candidate.slot_seed] at hs
      cases hs
  obtain ⟨rfl, hchild⟩ := hslot
  rw [hchild] at hseen ⊢
  refine ⟨?_, Or.inl ⟨?_, rfl, hwrapper⟩⟩
  · rw [hext.root hx]
    exact hext.present _ hseen
  · rw [hext.isAggregate u hu]
    exact haggregate

theorem Step.justified
    (h : Step True c c')
    (hkind : c.grammar.kind ≠ .positional)
    (hc : Sound True c)
    (hj : c.Justified) :
    c'.Justified := by
  have hext : Extends c c' := h.grows
  have hl : Lawful c := hc.lawful trivial
  intro x r s hx hpresent hs
  rcases h.candidate_cases hx with hold | ⟨-, hmade, hitems⟩
  · have hroot := hc.closed.root x hold
    rw [hext.root hold] at hpresent ⊢
    rw [hext.slot hold] at hs
    rcases h.present_cases hpresent with hseen | ⟨-, -, hbare, -⟩ | ⟨z, w, hwraps, hwrapper, -⟩
    · exact (hj x r s hold hseen hs).extend hext hroot (hc.closed.has_child hold hs)
    · rw [Candidate.slot, hbare x hold rfl, Slots.get_empty] at hs
      cases hs
    · have hxw : x = w := hwraps.2.2.2.2 x hold rfl
      rw [hxw] at hs hroot hwraps hwrapper ⊢
      exact hwraps.edge hl hs hext hroot hwrapper
  · have hroot := hmade.root_lt hc.closed.root
    have horigin := hmade.origin hs
    have hseen : (c.item (c'.candidate x).root).present = true := by
      rw [← hpresent, item, item, hitems]
    exact (horigin.edge hkind hl hj hseen).extend hext hroot (horigin.has_child hc.closed)

theorem Move.justified
    (h : Move True c c')
    (hkind : c.grammar.kind ≠ .positional)
    (hc : Sound True c)
    (hj : c.Justified) :
    c'.Justified := by
  cases h with
  | step h => exact h.justified hkind hc hj
  | @fix below v q hnone =>
    intro x r s hx hpresent hs
    rw [field_modifyItem Item.present rfl] at hpresent
    exact (hj x r s hx hpresent hs).extend (Extends.fix hnone) (hc.closed.root x hx)
      (hc.closed.has_child hx hs)
  | refill f hfree => exact absurd trivial hfree

section Grammars

variable {g : Grammar}

theorem Level.mem_ancestry
    (hg : g.Coherent)
    {s level : SymbolId}
    {entry : Symbol}
    (hentry : g.symbol? level = some entry)
    (h : g.Level s level) :
    level ∈ g.ancestry s := by
  rcases h with rfl | ⟨own, hown, hmem⟩
  · exact Grammar.mem_ancestry_self hentry
  · rwa [hg.numbered s own hown] at hmem

/-- Some symbol above the parent's takes what the child's symbol inherits from. -/
def Takes (c : Chart) (u v : ItemId) (r : Relation) : Prop :=
  ∃ s d level entry rule,
    (c.item u).symbol = some s ∧ (c.item v).symbol = some d ∧
      level ∈ c.grammar.ancestry s ∧ c.grammar.symbol? level = some entry ∧
      rule ∈ entry.rulesAt r ∧ c.grammar.inherits d rule.target = true ∧
      (c.placed u v rule = true ∨ rule.implied = true)

theorem Grounds.takes
    (hg : c.grammar.Coherent)
    {v : ItemId}
    (h : c.Grounds u v r) :
    c.Takes u v r := by
  cases h with
  | @placed s d level rule hparent hchild hlevel hrule hplaced =>
    obtain ⟨entry, hentry, hmem, hinherits⟩ := Grammar.mem_of_ruleFor? hrule
    exact ⟨s, d, level, entry, rule, hparent, hchild, Level.mem_ancestry hg hentry hlevel,
      hentry, hmem, hinherits, Or.inl hplaced⟩
  | @implied s d level parentRule rule hparent hchild hlevel hmem htarget hrel hrule himplied =>
    obtain ⟨entry, hentry, hat, -⟩ := Grammar.mem_of_ruleFor? hrule
    obtain ⟨child, hchildEntry, hparents⟩ : ∃ child, c.grammar.symbol? level = some child ∧
        parentRule ∈ child.parents := by
      unfold parentRules at hmem
      split at hmem
      · cases hmem
      · rename_i child hfound
        obtain ⟨q, -, hq⟩ := List.mem_flatMap.1 hmem
        exact ⟨child, hfound, (List.mem_filter.1 hq).1⟩
    have hexact : rule.target = level := by
      refine hg.target_of_ruleFor? hchildEntry hparents ?_
      rw [htarget, hrel]
      exact hrule
    have hinherits : c.grammar.inherits d rule.target = true := by
      have habove := Level.mem_ancestry hg hchildEntry hlevel
      rw [hexact]
      simp [Grammar.inherits, habove]
    exact ⟨s, d, s, entry, rule, hparent, hchild, Grammar.mem_ancestry_self hentry, hentry,
      hat, hinherits, Or.inr himplied⟩

end Grammars

/-- A child of a stored candidate. -/
def Child (c : Chart) (x y : CandidateId) : Prop :=
  ∃ r s, (c.candidate x).slot r = some s ∧ s.child = y

/--
In a chart that connects by a built grammar, present items hold present children
only, each for a reason. So nothing below a candidate of a present item is a
placeholder, and what is selected is such a candidate.
-/
theorem edges_are_licensed
    {d : Declaration}
    {g : Grammar}
    {s : Settings}
    (hg : d.resolve = .ok g)
    (hkind : g.kind ≠ .positional)
    (hrun : Driven g s c) :
    (∀ x r slot, c.Has x → (c.item (c.candidate x).root).present = true →
      (c.candidate x).slot r = some slot →
      (c.item (c.candidate slot.child).root).present = true ∧
        (((c.item (c.candidate x).root).isAggregate = true ∧ r = .aggregate ∧
            (c.candidate slot.child).wrapper = some (c.candidate x).root) ∨
          (c.item (c.candidate slot.child).root).fixedParent =
            some ((c.candidate x).root, r) ∨
          c.Takes (c.candidate x).root (c.candidate slot.child).root r)) ∧
      (∀ x y, c.Has x → (c.item (c.candidate x).root).present = true →
        Relation.ReflTransGen c.Child x y →
        c.Has y ∧ (c.item (c.candidate y).root).present = true) ∧
      ∀ x, c.best = some x → c.Has x ∧ (c.item (c.candidate x).root).present = true := by
  have hnew : (Chart.new g s).Justified := fun x _ _ hx => absurd hx (Nat.not_lt_zero _)
  have hkept := hrun.invariant hnew fun c c' hgrammar _ hsound hj h =>
    h.justified (by rw [hgrammar]; exact hkind) hsound hj
  have hcoherent : c.grammar.Coherent := by
    rw [hkept.grammar]
    exact Declaration.coherent_of_resolve hg
  refine ⟨?_, ?_, hkept.sound.closed.best⟩
  · intro x r slot hx hpresent hslot
    obtain ⟨hseen, hreason⟩ := hkept.holds x r slot hx hpresent hslot
    exact ⟨hseen, hreason.imp_right fun h => h.imp_right fun hgrounds => hgrounds.takes hcoherent⟩
  · intro x y hx hpresent hbelow
    induction hbelow with
    | refl => exact ⟨hx, hpresent⟩
    | tail _ hchild ih =>
      obtain ⟨r, slot, hslot, rfl⟩ := hchild
      exact ⟨hkept.sound.closed.has_child ih.1 hslot,
        (hkept.holds _ r slot ih.1 ih.2 hslot).present⟩

theorem edges_are_licensed_sample :
    (sampleChart.candidate ⟨2⟩).slot .property = some ⟨⟨1⟩, .ofInt 5⟩ ∧
      (sampleChart.item (sampleChart.candidate ⟨1⟩).root).present = true := by
  have hkind : sampleGrammar.kind ≠ .positional := by decide +kernel
  have hstored : sampleChart.Has ⟨2⟩ := by decide +kernel
  have hpresent : (sampleChart.item (sampleChart.candidate ⟨2⟩).root).present = true := by
    decide +kernel
  have hslot : (sampleChart.candidate ⟨2⟩).slot .property = some ⟨⟨1⟩, .ofInt 5⟩ := by
    decide +kernel
  exact ⟨hslot, ((edges_are_licensed resolve_sampleDeclaration hkind driven_sampleChart).1
    ⟨2⟩ .property _ hstored hpresent hslot).1⟩

end Chart

end BeamChart
