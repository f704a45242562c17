import BeamChart.Proofs.Chart.Beam
import BeamChart.Proofs.Chart.Outcomes

/-!
# Attaching and detaching in steps

Taking and giving up children stores a candidate that has been made from stored
ones, and counts. `stage_spec` and `detachAll_spec` say so for whole pools, with
what is known of the candidates that come back: they stem from the pool that was
there, so nothing is lost but children that the item may take at any time.
-/

namespace BeamChart

namespace Chart

variable {strict : Prop} {c c' : Chart} {u v : ItemId}

theorem Licensed.extend
    {r : Relation}
    (hl : c.Licensed u v r)
    (h : Extends c c') :
    c'.Licensed u v r where
  kind := by
    rw [h.grammar]
    exact hl.kind
  parent := h.present u hl.parent
  child := h.present v hl.child
  grounds := h.grounds hl.grounds

theorem evolves_count
    (c : Chart)
    (f : Tally → Tally)
    (hitems : (f c.tally).items = c.tally.items)
    (haggregates : (f c.tally).aggregates = c.tally.aggregates)
    (hcandidates : (f c.tally).candidates = c.tally.candidates)
    (hrefusals : c.tally.refusals ≤ (f c.tally).refusals) :
    Evolves strict c (c.count f) :=
  .single (.note (f c.tally) c.depth hitems haggregates hcandidates hrefusals)

theorem evolves_refused (c : Chart) :
    Evolves strict c c.refused :=
  evolves_count c _ rfl rfl rfl (Nat.le_succ _)

/-- The pool of an item may begin with the candidate that was stored last. -/
theorem evolves_setPool_nextCandidate
    {x : Candidate}
    (hroot : x.root = u)
    (habsent : strict → (c.item u).present = false) :
    Evolves strict (c.pushCandidate x)
      ((c.pushCandidate x).setPool u [c.nextCandidate]) := by
  refine .single (.pool ?_ (fun _ => ranks_singleton _ _) (fun hs hpresent => ?_)
    fun _ _ h => by cases h)
  · intro y hy
    rw [List.mem_singleton.1 hy, candidate_nextCandidate]
    exact ⟨has_nextCandidate c x, hroot⟩
  · rw [item_pushCandidate, habsent hs] at hpresent
    cases hpresent

/-- An item that was bare so far has the new candidate only. -/
theorem slots_pushCandidate_of_bare
    {x : Candidate}
    (hbare : ∀ y, c.Has y → (c.candidate y).root ≠ u)
    (hslots : x.slots = .empty)
    {y : CandidateId}
    (hy : (c.pushCandidate x).Has y)
    (hroot : ((c.pushCandidate x).candidate y).root = u) :
    ((c.pushCandidate x).candidate y).slots = .empty := by
  by_cases hold : c.Has y
  · rw [candidate_pushCandidate, if_neg (ne_nextCandidate hold)] at hroot
    exact absurd hroot (hbare y hold)
  · rw [eq_nextCandidate hold hy, candidate_nextCandidate]
    exact hslots

section Items

theorem item_of_items_eq
    (h : c'.items = c.items)
    (u : ItemId) :
    c'.item u = c.item u := by
  rw [item, item, h]

@[simp] theorem items_store (c : Chart) (x : Candidate) :
    (c.store x).2.items = c.items := by
  rcases store_cases c x with ⟨-, heq⟩ | heq <;> rw [heq] <;> rfl

@[simp] theorem items_tryAttach
    (c : Chart)
    (p d : CandidateId)
    (r : Relation)
    (make : Candidate → Candidate → Candidate) :
    (c.tryAttach p d r make).2.items = c.items := by
  cases trial c p d r make with
  | slotTaken _ heq | conflict _ _ heq | exhausted _ _ _ heq | attached _ _ _ heq =>
    rw [heq]
    rfl

@[simp] theorem items_detach (c : Chart) (x : CandidateId) (v : ItemId) :
    (c.detach x v).2.items = c.items := by
  cases detachment c x v with
  | kept _ heq => rw [heq]
  | exhausted _ _ heq | replaced _ _ heq =>
    rw [heq]
    rfl

@[simp] theorem items_detachAll (c : Chart) (v : ItemId) (pool : List CandidateId) :
    (c.detachAll v pool).2.items = c.items := by
  induction pool generalizing c with
  | nil => rfl
  | cons x rest ih =>
    have hfirst := items_detach c x v
    unfold detachAll
    generalize c.detach x v = result at hfirst ⊢
    obtain ⟨outcome, c₁⟩ := result
    cases outcome with
    | error e => exact hfirst
    | ok replaced =>
      have hrest := (ih c₁).trans hfirst
      dsimp only
      generalize c₁.detachAll v rest = result at hrest ⊢
      obtain ⟨outcome, c₂⟩ := result
      cases outcome <;> exact hrest

@[simp] theorem items_repoint
    (c : Chart)
    (x : CandidateId)
    (r : Relation)
    (newer : CandidateId) :
    (c.repoint x r newer).2.items = c.items := by
  cases exchange c x r newer with
  | vacant _ heq => rw [heq]
  | conflict _ _ heq | exhausted _ _ _ heq | replaced _ _ _ heq =>
    rw [heq]
    rfl

/-- An aggregate is made behind the items that are there. -/
theorem item_wrap
    (x : CandidateId)
    (hu : u.index < c.items.size) :
    (c.wrap x).item u = c.item u := by
  have hpush : c.pushAggregate.item u = c.item u := by
    rw [item_pushAggregate, if_neg]
    rintro rfl
    exact Nat.lt_irrefl _ hu
  have hne : c.nextItem ≠ u := by
    rintro rfl
    exact Nat.lt_irrefl _ hu
  cases enclosure c x with
  | refused _ heq =>
    rw [heq]
    rfl
  | spanless _ _ heq | exhausted _ _ _ heq =>
    rw [heq]
    exact hpush
  | enclosed _ _ _ _ heq =>
    rw [heq, item_modifyCandidate, item_modifyItem_of_ne _ hne]
    exact hpush

theorem size_items_le_wrap (c : Chart) (x : CandidateId) :
    c.items.size ≤ (c.wrap x).items.size := by
  have hpush : c.items.size ≤ c.pushAggregate.items.size := by
    simp [pushAggregate, pushItem, count]
  cases enclosure c x with
  | refused _ heq =>
    rw [heq]
    exact Nat.le_refl _
  | spanless _ _ heq | exhausted _ _ _ heq =>
    rw [heq]
    exact hpush
  | enclosed _ _ _ _ heq =>
    rw [heq]
    dsimp only [modifyCandidate]
    rw [size_items_modifyItem]
    exact hpush

theorem item_attach
    (p d : CandidateId)
    (rule : Rule SymbolId)
    (hu : u.index < c.items.size) :
    (c.attach p d rule).2.item u = c.item u := by
  have hitems := items_tryAttach c p d rule.relation (c.joined d rule.relation)
  rcases attach_cases c p d rule with heq | ⟨-, c₁, htry, heq⟩
  · rw [heq]
    exact item_of_items_eq hitems u
  · rw [htry] at hitems
    rw [heq]
    exact (item_wrap _ (by rw [hitems]; exact hu)).trans (item_of_items_eq hitems u)

theorem size_items_le_attach
    (c : Chart)
    (p d : CandidateId)
    (rule : Rule SymbolId) :
    c.items.size ≤ (c.attach p d rule).2.items.size := by
  have hitems := items_tryAttach c p d rule.relation (c.joined d rule.relation)
  rcases attach_cases c p d rule with heq | ⟨-, c₁, htry, heq⟩
  · exact Nat.le_of_eq (by rw [heq, hitems])
  · rw [htry] at hitems
    rw [heq, ← hitems]
    exact size_items_le_wrap c₁ _

/-- Staging leaves the items alone that are there. -/
theorem item_stage
    (rule : Rule SymbolId)
    (staged : List CandidateId)
    (pairs : List (CandidateId × CandidateId))
    (hu : u.index < c.items.size) :
    (c.stage rule staged pairs).2.item u = c.item u := by
  induction pairs generalizing c staged with
  | nil => rfl
  | cons e rest ih =>
    obtain ⟨p, d⟩ := e
    have hsame := item_attach p d rule hu
    have hle := size_items_le_attach c p d rule
    unfold stage
    split
    · rfl
    · split
      · exact ih staged hu
      · generalize c.attach p d rule = result at hsame hle ⊢
        obtain ⟨outcome, c₁⟩ := result
        have hu₁ : u.index < c₁.items.size := Nat.lt_of_lt_of_le hu hle
        cases outcome with
        | attached id => exact (ih _ hu₁).trans hsame
        | slotTaken => exact (ih _ hu₁).trans hsame
        | conflict => exact (ih _ hu₁).trans hsame
        | exhausted => exact hsame

end Items

section Keeping

variable {r : Relation} {x y z : CandidateId} {old pool : List CandidateId}

/-- What a stored candidate holds does not change. -/
theorem holds_iff_of_extends
    (hc : Closed c)
    (hx : c.Has x)
    (h : Extends c c') :
    c'.Holds x r v ↔ c.Holds x r v := by
  unfold Holds
  rw [h.slot hx r]
  refine exists_congr fun s => and_congr_right fun hs => ?_
  rw [h.root (hc.has_child hx hs)]

theorem keeps_of_slot
    (h : ∀ r s, (c.candidate x).slot r = some s → (c.candidate y).slot r = some s) :
    c.Keeps u x y := by
  rintro r v ⟨s, hs, hroot⟩
  exact Or.inl ⟨s, h r s hs, hroot⟩

theorem Keeps.refl (c : Chart) (u : ItemId) (x : CandidateId) :
    c.Keeps u x x :=
  keeps_of_slot fun _ _ h => h

theorem Keeps.trans
    (h : c.Keeps u x y)
    (k : c.Keeps u y z) :
    c.Keeps u x z := by
  intro r v hv
  rcases h r v hv with hy | hfree
  · exact k r v hy
  · exact Or.inr hfree

theorem Keeps.extend
    (hk : c.Keeps u x y)
    (hc : Closed c)
    (hx : c.Has x)
    (hy : c.Has y)
    (h : Extends c c') :
    c'.Keeps u x y := by
  intro r v hv
  rw [holds_iff_of_extends hc hx h] at hv
  rcases hk r v hv with hkept | ⟨q, hq⟩
  · exact Or.inl ((holds_iff_of_extends hc hy h).2 hkept)
  · exact Or.inr ⟨q, hq.extend h⟩

theorem Stems.refl (c : Chart) (u : ItemId) (pool : List CandidateId) :
    c.Stems u pool pool :=
  fun y hy => ⟨y, hy, .refl c u y⟩

theorem Stems.extend
    (hk : c.Stems u old pool)
    (hc : Closed c)
    (hold : ∀ x ∈ old, c.Has x)
    (hpool : ∀ y ∈ pool, c.Has y)
    (h : Extends c c') :
    c'.Stems u old pool := by
  intro y hy
  obtain ⟨x, hx, hkeeps⟩ := hk y hy
  exact ⟨x, hx, hkeeps.extend hc (hold x hx) (hpool y hy) h⟩

theorem Stems.append
    {more : List CandidateId}
    (h : c.Stems u old pool)
    (k : c.Stems u old more) :
    c.Stems u old (pool ++ more) := by
  intro y hy
  rcases List.mem_append.1 hy with hpool | hmore
  · exact h y hpool
  · exact k y hmore

theorem Stems.mono
    {part : List CandidateId}
    (h : c.Stems u old pool)
    (hpart : ∀ y ∈ part, y ∈ pool) :
    c.Stems u old part :=
  fun y hy => h y (hpart y hy)

/-- A child of another item than the one given up stays. -/
theorem slot_withoutItem_of_root_ne
    {a : Candidate}
    {s : Slot}
    (hslot : a.slot r = some s)
    (hroot : (c.candidate s.child).root ≠ v) :
    (c.withoutItem a v).slot r = some s := by
  unfold withoutItem
  generalize Relation.all = relations
  induction relations generalizing a with
  | nil => exact hslot
  | cons q rest ih =>
    rw [List.foldl_cons]
    apply ih
    split
    · rename_i t ht
      split
      · rename_i hholds
        have hq : r ≠ q := by
          rintro rfl
          rw [hslot] at ht
          cases ht
          exact hroot (of_decide_eq_true hholds)
        rw [Candidate.slot_detach_of_ne _ _ hq]
        exact hslot
      · exact hslot
    · exact hslot

end Keeping

section Attaching

variable {p d : CandidateId} {r : Relation}

theorem tryAttach_spec
    (strict : Prop)
    (make : Candidate → Candidate → Candidate)
    (hp : c.Has p)
    (hd : c.Has d)
    (hmade : c.Fits p d r → Made strict c (make (c.candidate p) (c.candidate d))) :
    Evolves strict c (c.tryAttach p d r make).2 ∧
      ∀ id, (c.tryAttach p d r make).1 = .attached id →
        (c.tryAttach p d r make).2.Has id ∧ (c.candidate p).slot r = none ∧
          (c.tryAttach p d r make).2.candidate id = make (c.candidate p) (c.candidate d) := by
  have hattempt : Evolves strict c
      (c.count fun t => { t with attempts := t.attempts + 1 }) :=
    evolves_count c _ rfl rfl rfl (Nat.le_refl _)
  cases trial c p d r make with
  | slotTaken _ heq =>
    rw [heq]
    exact ⟨hattempt, fun id hid => by cases hid⟩
  | conflict _ _ heq =>
    rw [heq]
    dsimp only
    exact ⟨evolves_count c _ rfl rfl rfl (Nat.le_refl _), fun id hid => by cases hid⟩
  | exhausted _ _ _ heq =>
    rw [heq]
    exact ⟨hattempt.trans (evolves_refused _), fun id hid => by cases hid⟩
  | attached hslot happart hroom heq =>
    have hstore : Evolves strict c (c.pushCandidate (make (c.candidate p) (c.candidate d))) :=
      .single (.store hroom (hmade ⟨hp, hd, hslot, happart⟩))
    rw [heq]
    dsimp only
    refine ⟨hstore.trans (evolves_count _ _ rfl rfl rfl (Nat.le_refl _)), fun id hid => ?_⟩
    cases hid
    exact ⟨has_nextCandidate c _, hslot, candidate_nextCandidate c _⟩

theorem tryAttach_attached
    {make : Candidate → Candidate → Candidate}
    {id : CandidateId}
    (h : (c.tryAttach p d r make).1 = .attached id) :
    id = c.nextCandidate ∧ (c.tryAttach p d r make).2.Has id ∧
      (c.tryAttach p d r make).2.candidate id = make (c.candidate p) (c.candidate d) := by
  cases trial c p d r make with
  | slotTaken _ heq | conflict _ _ heq | exhausted _ _ _ heq =>
    rw [heq] at h
    cases h
  | attached _ _ _ heq =>
    rw [heq] at h ⊢
    cases h
    exact ⟨rfl, has_nextCandidate c _, candidate_nextCandidate c _⟩

theorem wrap_evolves
    {x : CandidateId}
    (hc : Sound strict c)
    (hx : c.Has x)
    (hfree : (c.candidate x).wrapper = none)
    (hpresent : strict → (c.item (c.candidate x).root).present = true) :
    Evolves strict c (c.wrap x) := by
  have hpush : c.aggregateCount < c.settings.aggregateCapacity →
      Evolves strict c c.pushAggregate := fun hroom => .single (.allocateAggregate hroom)
  cases enclosure c x with
  | refused _ heq =>
    rw [heq]
    exact evolves_refused c
  | spanless hroom _ heq =>
    rw [heq]
    exact hpush hroom
  | exhausted hroom _ _ heq =>
    rw [heq]
    exact (hpush hroom).trans (evolves_refused _)
  | enclosed _ hroom hspan hopen _ hstored =>
    rw [hstored hx]
    have hitem : c.nextItem.index < c.pushAggregate.items.size := by
      simp [nextItem, pushAggregate, pushItem, count]
    have hroot : (c.candidate x).root ≠ c.nextItem := hc.closed.root_ne_nextItem hx
    have hmade : Made strict c.pushAggregate
        ((Candidate.seed c.nextItem).attach .aggregate ⟨x, 0⟩ (c.candidate x)) := by
      refine Made.lifted hitem hx fun hs => ⟨?_, Or.inl ?_⟩
      · rw [candidate_pushAggregate, item_pushAggregate, if_neg hroot]
        exact hpresent hs
      · rw [item_pushAggregate, if_pos rfl]
    have hkept : (c.pushAggregate.pushCandidate
        ((Candidate.seed c.nextItem).attach .aggregate ⟨x, 0⟩ (c.candidate x))).candidate x =
          c.candidate x := by
      have hne : x ≠ c.pushAggregate.nextCandidate := ne_nextCandidate (c := c) hx
      rw [candidate_pushCandidate, if_neg hne, candidate_pushAggregate]
    refine ((hpush hroom).trans (.single (.store hopen hmade))).trans
      (.single (.wrap hitem ?_ ((Extends.pushCandidate _ _).has hx)
        (has_nextCandidate _ _) ?_ ?_ ?_ ?_))
    · rw [item_pushCandidate, item_pushAggregate, if_pos rfl]
    · rw [hkept]
      exact hfree
    · rw [hkept]
      exact hspan
    · rw [hkept]
      exact candidate_nextCandidate c.pushAggregate _
    · intro y hy hyroot
      by_cases hold : c.Has y
      · have hne : y ≠ c.pushAggregate.nextCandidate := ne_nextCandidate (c := c) hold
        rw [candidate_pushCandidate, if_neg hne] at hyroot
        exact absurd hyroot (hc.closed.root_ne_nextItem hold)
      · exact eq_nextCandidate hold hy

/-- A new candidate of an item holds what an older one holds, and one item more. -/
structure Grown
    (c c' : Chart)
    (u v : ItemId)
    (r : Relation)
    (x y : CandidateId) : Prop where
  has : c'.Has y
  new : ¬ c.Has y
  root : (c'.candidate y).root = u
  holds : ∀ q w, c'.Holds y q w ↔ q = r ∧ w = v ∨ c.Holds x q w

theorem Grown.extend
    {c'' : Chart}
    {x y : CandidateId}
    (hg : Grown c c' u v r x y)
    (hc : Closed c')
    (h : Extends c' c'') :
    Grown c c'' u v r x y where
  has := h.has hg.has
  new := hg.new
  root := (h.root hg.has).trans hg.root
  holds q w := (holds_iff_of_extends hc hg.has h).trans (hg.holds q w)

theorem Grown.weaken
    {c'' : Chart}
    {x y : CandidateId}
    (hg : Grown c' c'' u v r x y)
    (hc : Closed c)
    (hx : c.Has x)
    (h : Extends c c') :
    Grown c c'' u v r x y where
  has := hg.has
  new hy := hg.new (h.has hy)
  root := hg.root
  holds q w := by rw [hg.holds q w, holds_iff_of_extends hc hx h]

theorem Grown.keeps
    {x y : CandidateId}
    (hg : Grown c c' u v r x y)
    (hc : Closed c)
    (hx : c.Has x)
    (h : Extends c c') :
    c'.Keeps u x y := fun q w hw =>
  Or.inl ((hg.holds q w).2 (Or.inr ((holds_iff_of_extends hc hx h).1 hw)))

theorem grown_of_joined
    {id : CandidateId}
    (hc : Closed c)
    (hp : c.Has p)
    (hd : c.Has d)
    (hroot : (c.candidate p).root = u)
    (hchild : (c.candidate d).root = v)
    (hfree : (c.candidate p).slot r = none)
    (hext : Extends c c')
    (hid : c'.Has id)
    (hnew : ¬ c.Has id)
    (hmade : c'.candidate id = c.joined d r (c.candidate p) (c.candidate d)) :
    Grown c c' u v r p id where
  has := hid
  new := hnew
  root := by
    rw [hmade, root_joined]
    exact hroot
  holds q w := by
    constructor
    · rintro ⟨s, hs, hw⟩
      rw [hmade] at hs
      rcases slot_of_slot_joined hs with ⟨rfl, hsd⟩ | hold
      · rw [hsd, hext.root hd, hchild] at hw
        exact Or.inl ⟨rfl, hw.symm⟩
      · rw [hext.root (hc.has_child hp hold)] at hw
        exact Or.inr ⟨s, hold, hw⟩
    · rintro (⟨rfl, rfl⟩ | ⟨s, hs, hw⟩)
      · obtain ⟨s, hs, hsd⟩ := slot_joined_self c d q (c.candidate p) (c.candidate d)
        refine ⟨s, by rw [hmade]; exact hs, ?_⟩
        rw [hsd, hext.root hd, hchild]
      · refine ⟨s, by rw [hmade]; exact slot_joined_of_slot hfree hs, ?_⟩
        rw [hext.root (hc.has_child hp hs)]
        exact hw

theorem attach_spec
    (rule : Rule SymbolId)
    (hc : Sound strict c)
    (hp : c.Has p ∧ (c.candidate p).root = u)
    (hd : c.Has d ∧ (c.candidate d).root = v)
    (hstrict : strict → c.Licensed u v rule.relation)
    (hwidth : strict → 0 < c.settings.beamWidth) :
    Evolves strict c (c.attach p d rule).2 ∧
      ∀ id, (c.attach p d rule).1 = .attached id →
        Grown c (c.attach p d rule).2 u v rule.relation p id := by
  obtain ⟨hsteps, hstored⟩ := tryAttach_spec strict (c.joined d rule.relation)
    (c := c) (r := rule.relation) hp.1 hd.1
    (fun hfits => .joined hfits (by rw [hp.2, hd.2]; exact hstrict) hwidth)
  have hgrown : ∀ id, (c.tryAttach p d rule.relation (c.joined d rule.relation)).1 = .attached id →
      Grown c (c.tryAttach p d rule.relation (c.joined d rule.relation)).2 u v rule.relation p
        id := by
    intro id hid
    obtain ⟨hhas, hslot, hmade⟩ := hstored id hid
    have hnew : ¬ c.Has id := by
      rw [(tryAttach_attached hid).1]
      exact Nat.lt_irrefl _
    exact grown_of_joined hc.closed hp.1 hd.1 hp.2 hd.2 hslot hsteps.grows hhas hnew hmade
  rcases attach_cases c p d rule with heq | ⟨-, c₁, htry, heq⟩
  · rw [heq]
    exact ⟨hsteps, hgrown⟩
  · rw [htry] at hsteps hstored hgrown
    obtain ⟨hhas, -, hmade⟩ := hstored _ rfl
    have hnew : Grown c c₁ u v rule.relation p c.nextCandidate := hgrown _ rfl
    have hwrap : Evolves strict c₁ (c₁.wrap c.nextCandidate) := by
      refine wrap_evolves (hsteps.sound hc) hhas ?_ fun hs => ?_
      · rw [hmade]
        exact wrapper_joined c d rule.relation _ _
      · rw [hnew.root]
        exact hsteps.grows.present _ (hstrict hs).parent
    rw [heq]
    refine ⟨hsteps.trans hwrap, fun id hid => ?_⟩
    cases hid
    exact hnew.extend (hsteps.sound hc).closed hwrap.grows

end Attaching

/-- What is staged has grown from a parent's candidate by the child. -/
theorem stage_spec
    {rule : Rule SymbolId}
    (staged : List CandidateId)
    (pairs : List (CandidateId × CandidateId))
    (hc : Sound strict c)
    (hpairs : ∀ e ∈ pairs, (c.Has e.1 ∧ (c.candidate e.1).root = u) ∧
      c.Has e.2 ∧ (c.candidate e.2).root = v)
    (hstrict : strict → c.Licensed u v rule.relation) :
    Evolves strict c (c.stage rule staged pairs).2 ∧
      ∀ y ∈ (c.stage rule staged pairs).1, y ∈ staged ∨
        ∃ e ∈ pairs, Grown c (c.stage rule staged pairs).2 u v rule.relation e.1 y := by
  induction pairs generalizing c staged with
  | nil => exact ⟨.refl c, fun y hy => Or.inl hy⟩
  | cons e rest ih =>
    obtain ⟨p, d⟩ := e
    obtain ⟨hp, hd⟩ := hpairs (p, d) List.mem_cons_self
    have hrest : ∀ e ∈ rest, (c.Has e.1 ∧ (c.candidate e.1).root = u) ∧
        c.Has e.2 ∧ (c.candidate e.2).root = v :=
      fun e he => hpairs e (List.mem_cons_of_mem _ he)
    unfold stage
    split
    · exact ⟨.refl c, fun y hy => Or.inl hy⟩
    · rename_i hopen
      split
      · obtain ⟨hsteps, hall⟩ := ih staged hc hrest hstrict
        exact ⟨hsteps, fun y hy => (hall y hy).imp_right fun ⟨e, he, hg⟩ =>
          ⟨e, List.mem_cons_of_mem _ he, hg⟩⟩
      · have hwidth : 0 < c.settings.beamWidth := by
          simp only [Bool.or_eq_true, decide_eq_true_eq, not_or, Nat.not_le] at hopen
          exact Nat.lt_of_le_of_lt (Nat.zero_le _) hopen.1
        obtain ⟨hsteps, hnew⟩ := attach_spec rule hc hp hd hstrict fun _ => hwidth
        generalize c.attach p d rule = result at hsteps hnew ⊢
        obtain ⟨outcome, c₁⟩ := result
        have hext : Extends c c₁ := hsteps.grows
        have hrest₁ : ∀ e ∈ rest, (c₁.Has e.1 ∧ (c₁.candidate e.1).root = u) ∧
            c₁.Has e.2 ∧ (c₁.candidate e.2).root = v := by
          intro e he
          obtain ⟨⟨h₁, h₂⟩, h₃, h₄⟩ := hrest e he
          exact ⟨⟨hext.has h₁, (hext.root h₁).trans h₂⟩, hext.has h₃, (hext.root h₃).trans h₄⟩
        have hmore : ∀ staged, Evolves strict c (c₁.stage rule staged rest).2 ∧
            ∀ y ∈ (c₁.stage rule staged rest).1, y ∈ staged ∨ ∃ e ∈ (p, d) :: rest,
              Grown c (c₁.stage rule staged rest).2 u v rule.relation e.1 y := by
          intro staged
          obtain ⟨htail, hall⟩ := ih staged (hsteps.sound hc) hrest₁
            fun hs => (hstrict hs).extend hext
          refine ⟨hsteps.trans htail, fun y hy => (hall y hy).imp_right fun ⟨e, he, hg⟩ => ?_⟩
          exact ⟨e, List.mem_cons_of_mem _ he, hg.weaken hc.closed (hrest e he).1.1 hext⟩
        cases outcome with
        | attached id =>
          obtain ⟨hall, hstaged⟩ := hmore (staged ++ [id])
          obtain ⟨htail, -⟩ := ih (staged ++ [id]) (hsteps.sound hc) hrest₁
            fun hs => (hstrict hs).extend hext
          refine ⟨hall, fun y hy => ?_⟩
          rcases hstaged y hy with hmem | hgrown
          · rcases List.mem_append.1 hmem with hearlier | hlast
            · exact Or.inl hearlier
            · rw [List.mem_singleton.1 hlast]
              exact Or.inr ⟨(p, d), List.mem_cons_self,
                (hnew id rfl).extend (hsteps.sound hc).closed htail.grows⟩
          · exact Or.inr hgrown
        | exhausted => exact ⟨hsteps, fun y hy => Or.inl hy⟩
        | slotTaken => exact hmore staged
        | conflict => exact hmore staged

/-- Where beams have no width, nothing is staged. -/
theorem stage_of_no_width
    (rule : Rule SymbolId)
    (staged : List CandidateId)
    (pairs : List (CandidateId × CandidateId))
    (hwidth : c.settings.beamWidth = 0) :
    c.stage rule staged pairs = (staged, c) := by
  cases pairs with
  | nil => rfl
  | cons e rest => simp [stage, hwidth]

section Replacing

variable {x : CandidateId}

theorem detach_spec
    (hx : c.Has x)
    (hstrict : strict → ∃ q, c.Licensed (c.candidate x).root v q) :
    Evolves strict c (c.detach x v).2 ∧
      ∀ id, (c.detach x v).1 = .ok (some id) →
        (c.detach x v).2.Has id ∧
          (c.detach x v).2.candidate id = c.withoutItem (c.candidate x) v := by
  cases detachment c x v with
  | kept _ heq =>
    rw [heq]
    exact ⟨.refl c, fun id hid => by cases hid⟩
  | exhausted _ _ heq =>
    rw [heq]
    exact ⟨evolves_refused c, fun id hid => by cases hid⟩
  | replaced hholds hroom heq =>
    rw [heq]
    refine ⟨.single (.store hroom (.reduced hx ⟨_, hholds⟩ hstrict)), fun id hid => ?_⟩
    cases hid
    exact ⟨has_nextCandidate c _, candidate_nextCandidate c _⟩

theorem keeps_of_reduced
    {id : CandidateId}
    (hc : Closed c)
    (hx : c.Has x)
    (hsteps : Extends c c')
    (hmade : c'.candidate id = c.withoutItem (c.candidate x) v)
    (hlicensed : ∃ q, c.Licensed u v q) :
    c'.Keeps u x id := by
  intro r w hw
  rw [holds_iff_of_extends hc hx hsteps] at hw
  obtain ⟨s, hs, hroot⟩ := hw
  by_cases hv : w = v
  · obtain ⟨q, hq⟩ := hlicensed
    rw [hv]
    exact Or.inr ⟨q, hq.extend hsteps⟩
  · left
    refine ⟨s, ?_, ?_⟩
    · rw [hmade]
      exact slot_withoutItem_of_root_ne hs (by rwa [hroot])
    · rw [hsteps.root (hc.has_child hx hs)]
      exact hroot

theorem detachAll_spec
    (pool : List CandidateId)
    (hc : Sound strict c)
    (hpool : c.RootedAt u pool)
    (hstrict : strict → ∃ q, c.Licensed u v q) :
    Evolves strict c (c.detachAll v pool).2 ∧
      ∀ kept changed, (c.detachAll v pool).1 = .ok (kept, changed) →
        (c.detachAll v pool).2.RootedAt u kept ∧
          (strict → (c.detachAll v pool).2.Stems u pool kept) := by
  induction pool generalizing c with
  | nil =>
    refine ⟨.refl c, fun kept changed h => ?_⟩
    cases h
    exact ⟨hpool, fun _ => .refl c u []⟩
  | cons x rest ih =>
    obtain ⟨hx, hroot⟩ := hpool x List.mem_cons_self
    obtain ⟨hsteps, hnew⟩ := detach_spec (v := v) hx (by rw [hroot]; exact hstrict)
    unfold detachAll
    generalize c.detach x v = result at hsteps hnew ⊢
    obtain ⟨outcome, c₁⟩ := result
    cases outcome with
    | error e => exact ⟨hsteps, fun kept changed h => by cases h⟩
    | ok replaced =>
      have hrest : c₁.RootedAt u rest :=
        hsteps.grows.rootedAt fun y hy => hpool y (List.mem_cons_of_mem x hy)
      have hc₁ : Sound strict c₁ := hsteps.sound hc
      have hfirst : (c₁.Has (replaced.getD x) ∧ (c₁.candidate (replaced.getD x)).root = u) ∧
          (strict → c₁.Keeps u x (replaced.getD x)) := by
        cases replaced with
        | none =>
          exact ⟨⟨hsteps.grows.has hx, (hsteps.grows.root hx).trans hroot⟩,
            fun _ => .refl c₁ u x⟩
        | some id =>
          obtain ⟨hid, hmade⟩ := hnew id rfl
          refine ⟨⟨hid, ?_⟩, fun hs =>
            keeps_of_reduced hc.closed hx hsteps.grows hmade (hstrict hs)⟩
          exact (congrArg Candidate.root hmade).trans ((root_withoutItem c _ v).trans hroot)
      obtain ⟨htail, hkept⟩ := ih hc₁ hrest fun hs =>
        (hstrict hs).imp fun q hq => hq.extend hsteps.grows
      dsimp only
      generalize c₁.detachAll v rest = result at htail hkept ⊢
      obtain ⟨outcome, c₂⟩ := result
      cases outcome with
      | error e => exact ⟨hsteps.trans htail, fun kept changed h => by cases h⟩
      | ok pair =>
        obtain ⟨kept, changed⟩ := pair
        obtain ⟨hrooted, hstems⟩ := hkept kept changed rfl
        refine ⟨hsteps.trans htail, fun all flag h => ?_⟩
        cases h
        refine ⟨fun y hy => ?_, fun hs y hy => ?_⟩
        · rcases List.mem_cons.1 hy with rfl | hmem
          · exact ⟨htail.grows.has hfirst.1.1, (htail.grows.root hfirst.1.1).trans hfirst.1.2⟩
          · exact hrooted y hmem
        · rcases List.mem_cons.1 hy with rfl | hmem
          · exact ⟨x, List.mem_cons_self, (hfirst.2 hs).extend hc₁.closed
              (hsteps.grows.has hx) hfirst.1.1 htail.grows⟩
          · obtain ⟨z, hz, hkeeps⟩ := hstems hs y hmem
            exact ⟨z, List.mem_cons_of_mem x hz, hkeeps⟩

/-- There is a replacement for each candidate; one that differs has held the item. -/
theorem detachAll_cases
    (pool : List CandidateId)
    (hc : Closed c)
    (hpool : ∀ x ∈ pool, c.Has x)
    {kept : List CandidateId}
    {changed : Bool}
    (h : (c.detachAll v pool).1 = .ok (kept, changed)) :
    kept.length = pool.length ∧ (changed = true → ∃ x ∈ pool, ∃ r, c.Holds x r v) := by
  induction pool generalizing c kept changed with
  | nil =>
    cases h
    exact ⟨rfl, fun h => by cases h⟩
  | cons x rest ih =>
    have hrest : ∀ y ∈ rest, c.Has y := fun y hy => hpool y (List.mem_cons_of_mem x hy)
    have hsteps : Evolves False c (c.detach x v).2 :=
      (detach_spec (hpool x List.mem_cons_self) False.elim).1
    have hclosed : Closed (c.detach x v).2 := (hsteps.sound ⟨hc, False.elim⟩).closed
    have hholds : ∀ {id}, (c.detach x v).1 = .ok (some id) → ∃ r, c.Holds x r v := by
      intro id hid
      cases detachment c x v with
      | kept _ heq | exhausted _ _ heq =>
        rw [heq] at hid
        cases hid
      | replaced hholds => exact ⟨_, hholds⟩
    unfold detachAll at h
    generalize c.detach x v = result at hsteps hclosed hholds h
    obtain ⟨outcome, c₁⟩ := result
    cases outcome with
    | error e => cases h
    | ok replaced =>
      dsimp only at h
      have hlater : ∀ more flag, (c₁.detachAll v rest).1 = .ok (more, flag) →
          more.length = rest.length ∧ (flag = true → ∃ y ∈ rest, ∃ r, c₁.Holds y r v) :=
        fun _ _ hmore => ih hclosed (fun y hy => hsteps.grows.has (hrest y hy)) hmore
      generalize c₁.detachAll v rest = result at hlater h
      obtain ⟨outcome, c₂⟩ := result
      cases outcome with
      | error e => cases h
      | ok pair =>
        obtain ⟨more, flag⟩ := pair
        obtain ⟨hlength, hheld⟩ := hlater more flag rfl
        cases h
        refine ⟨by rw [List.length_cons, List.length_cons, hlength], fun hchanged => ?_⟩
        cases replaced with
        | some id => exact ⟨x, List.mem_cons_self, hholds rfl⟩
        | none =>
          obtain ⟨y, hy, r, hyr⟩ := hheld hchanged
          exact ⟨y, List.mem_cons_of_mem x hy, r,
            (holds_iff_of_extends hc (hrest y hy) hsteps.grows).1 hyr⟩

theorem repoint_spec
    (strict : Prop)
    {r : Relation}
    {newer : CandidateId}
    (hc : Closed c)
    (hx : c.Has x)
    (hnewer : c.Has newer)
    (holder : c.holdsOlder x r (c.candidate newer).root newer = true)
    (hfixed : (c.item (c.candidate newer).root).fixedParent = some ((c.candidate x).root, r)) :
    Evolves strict c (c.repoint x r newer).2 ∧
      ∀ id, (c.repoint x r newer).1 = .ok (some id) →
        (c.repoint x r newer).2.Has id ∧
          ((c.repoint x r newer).2.candidate id).root = (c.candidate x).root ∧
            (c.repoint x r newer).2.Keeps u x id := by
  cases exchange c x r newer with
  | vacant _ heq =>
    rw [heq]
    exact ⟨.refl c, fun id hid => by cases hid⟩
  | conflict _ _ heq =>
    rw [heq]
    dsimp only
    exact ⟨evolves_count c _ rfl rfl rfl (Nat.le_refl _), fun id hid => by cases hid⟩
  | exhausted _ _ _ heq =>
    rw [heq]
    exact ⟨evolves_refused c, fun id hid => by cases hid⟩
  | @replaced s hslot happart hroom heq =>
    have hroot : (c.candidate newer).root = (c.candidate s.child).root := by
      simp only [holdsOlder, hslot, Option.any_some, Bool.and_eq_true, holdsItem,
        decide_eq_true_eq] at holder
      exact holder.2.symm
    have hsteps : Evolves strict c (c.pushCandidate (c.repointed x r s newer)) :=
      .single (.store hroom (.repointed hx hnewer hslot hroot hfixed happart))
    have hhas := has_nextCandidate c (c.repointed x r s newer)
    have hmade := candidate_nextCandidate c (c.repointed x r s newer)
    rw [heq]
    refine ⟨hsteps, fun id hid => ?_⟩
    cases hid
    dsimp only
    generalize c.pushCandidate (c.repointed x r s newer) = c₁ at hsteps hhas hmade ⊢
    have hslots : (c₁.candidate c.nextCandidate).slots =
        ((c.candidate x).detach r (c.candidate s.child)).slots.set r
          (some ⟨newer, s.bonus⟩) := congrArg Candidate.slots hmade
    have hsame : (c.repointed x r s newer).root = (c.candidate x).root :=
      Candidate.root_detach _ _ _
    refine ⟨hhas, (congrArg Candidate.root hmade).trans hsame, fun q w hw => Or.inl ?_⟩
    rw [holds_iff_of_extends hc hx hsteps.grows] at hw
    obtain ⟨t, ht, htroot⟩ := hw
    by_cases hq : q = r
    · rw [hq, hslot] at ht
      cases ht
      refine ⟨⟨newer, s.bonus⟩, ?_, ?_⟩
      · rw [Candidate.slot, hslots, hq, Slots.get_set_self]
      · rw [hsteps.grows.root hnewer, hroot, htroot]
    · refine ⟨t, ?_, ?_⟩
      · rw [Candidate.slot, hslots, Slots.get_set_of_ne _ _ hq]
        exact (Candidate.slot_detach_of_ne _ _ hq).trans ht
      · rw [hsteps.grows.root (hc.has_child hx ht)]
        exact htroot

end Replacing

end Chart

end BeamChart
