import BeamChart.Proofs.Chart.Run

/-!
# Aggregates and what they wrap

An aggregate is made for one candidate and carries its mark: no other candidate
is marked with it (`Marked`). Everything that is rooted at the aggregate later
has been made from its first candidate, so it holds the wrapped candidate as
well. There is one way to lose it: the aggregate gives up the children of an item
before it is offered that item again, and the item may be the very one that the
wrapped candidate is rooted at. This takes a rule under which the aggregate may
take it (`aggregate_keeps_content`).
-/

namespace BeamChart

namespace Candidate

/-- What has given up a child has no mark, and nothing to pass on. -/
theorem unmarked_detach
    {x : Candidate}
    {r : Relation}
    {s : Slot}
    (h : x.slot r = some s)
    (child : Candidate) :
    (x.detach r child).wrapper = none ∧ (x.detach r child).pending = false := by
  simp [detach, h]

end Candidate

namespace Chart

variable {strict : Prop} {c c' : Chart} {a : ItemId} {x y : CandidateId}

section Marks

theorem has_of_wrapper
    (h : (c.candidate x).wrapper = some a) :
    c.Has x := by
  refine Nat.lt_of_not_le fun hle => ?_
  rw [candidate_of_size_le hle] at h
  cases h

/-- The candidate gives up its child under a relation, if that belongs to an item. -/
def giveUp (c : Chart) (u : ItemId) (z : Candidate) (r : Relation) : Candidate :=
  match z.slot r with
  | some s => if c.holdsItem u s then z.detach r (c.candidate s.child) else z
  | none => z

theorem withoutItem_eq_foldl (c : Chart) (z : Candidate) (u : ItemId) :
    c.withoutItem z u = Relation.all.foldl (c.giveUp u) z :=
  rfl

/-- A candidate that holds an item gives up some child last. -/
theorem withoutItem_eq_detach
    {z : Candidate}
    {u : ItemId}
    {r : Relation}
    {s : Slot}
    (hslot : z.slot r = some s)
    (hroot : (c.candidate s.child).root = u) :
    ∃ (y : Candidate) (q : Relation) (t : Slot),
      y.slot q = some t ∧ c.withoutItem z u = y.detach q (c.candidate t.child) := by
  have hfold : ∀ (relations : List Relation) (z : Candidate),
      (∃ (y : Candidate) (q : Relation) (t : Slot),
          y.slot q = some t ∧ z = y.detach q (c.candidate t.child)) ∨
        r ∈ relations ∧ z.slot r = some s →
      ∃ (y : Candidate) (q : Relation) (t : Slot), y.slot q = some t ∧
        relations.foldl (c.giveUp u) z = y.detach q (c.candidate t.child) := by
    intro relations
    induction relations with
    | nil =>
      rintro z (hgiven | ⟨hmem, -⟩)
      · exact hgiven
      · cases hmem
    | cons q rest ih =>
      intro z hz
      rw [List.foldl_cons]
      apply ih
      rw [giveUp]
      cases hq : z.slot q with
      | none =>
        refine hz.imp_right fun ⟨hmem, hkept⟩ => ⟨?_, hkept⟩
        rcases List.mem_cons.1 hmem with rfl | hrest
        · rw [hq] at hkept
          cases hkept
        · exact hrest
      | some t =>
        dsimp only
        by_cases hholds : c.holdsItem u t = true
        · rw [if_pos hholds]
          exact Or.inl ⟨z, q, t, hq, rfl⟩
        · rw [if_neg hholds]
          refine hz.imp_right fun ⟨hmem, hkept⟩ => ⟨?_, hkept⟩
          rcases List.mem_cons.1 hmem with rfl | hrest
          · rw [hq] at hkept
            cases hkept
            exact absurd (decide_eq_true hroot) hholds
          · exact hrest
  rw [withoutItem_eq_foldl]
  exact hfold Relation.all z (Or.inr ⟨Relation.mem_all r, hslot⟩)

theorem unmarked_withoutItem
    {z : Candidate}
    {u : ItemId}
    {r : Relation}
    {s : Slot}
    (hslot : z.slot r = some s)
    (hroot : (c.candidate s.child).root = u) :
    (c.withoutItem z u).wrapper = none ∧ (c.withoutItem z u).pending = false := by
  obtain ⟨y, q, t, hy, heq⟩ := withoutItem_eq_detach hslot hroot
  rw [heq]
  exact Candidate.unmarked_detach hy _

theorem wrapper_withoutItem
    {z : Candidate}
    {u : ItemId}
    {r : Relation}
    {s : Slot}
    (hslot : z.slot r = some s)
    (hroot : (c.candidate s.child).root = u) :
    (c.withoutItem z u).wrapper = none :=
  (unmarked_withoutItem hslot hroot).1

/-- No candidate is marked before it is stored. -/
theorem Made.wrapper
    {z : Candidate}
    (h : Made strict c z) :
    z.wrapper = none := by
  cases h with
  | leaf => rfl
  | seed => rfl
  | joined => exact wrapper_joined _ _ _ _ _
  | chained => rfl
  | lifted => rfl
  | reduced hx hholds =>
    obtain ⟨r, s, hslot, hroot⟩ := hholds
    exact wrapper_withoutItem hslot hroot
  | repointed => rfl

/-- A mark stands for a present aggregate, and for one candidate. -/
structure Marked (c : Chart) : Prop where
  present : ∀ x a, (c.candidate x).wrapper = some a → (c.item a).present = true
  aggregate : ∀ x a, (c.candidate x).wrapper = some a → (c.item a).isAggregate = true
  unique : ∀ x y a, (c.candidate x).wrapper = some a → (c.candidate y).wrapper = some a → x = y

theorem marked_new (g : Grammar) (s : Settings) :
    Marked (new g s) where
  present x a h := by
    rw [candidate_of_size_le (Nat.zero_le _)] at h
    cases h
  aggregate x a h := by
    rw [candidate_of_size_le (Nat.zero_le _)] at h
    cases h
  unique x y a h := by
    rw [candidate_of_size_le (Nat.zero_le _)] at h
    cases h

/-- Marks are kept where no candidate is marked anew. -/
theorem Marked.extend
    (hm : Marked c)
    (h : Extends c c')
    (hold : ∀ x a, (c'.candidate x).wrapper = some a → (c.candidate x).wrapper = some a) :
    Marked c' where
  present x a ha := h.present a (hm.present x a (hold x a ha))
  aggregate x a ha := by
    rw [h.isAggregate a (lt_size_of_present (hm.present x a (hold x a ha)))]
    exact hm.aggregate x a (hold x a ha)
  unique x y a hx hy := hm.unique x y a (hold x a hx) (hold y a hy)

/-- A step leaves the marks, or makes an aggregate for one candidate. -/
theorem Step.mark_cases
    (h : Step strict c c') :
    (∀ x a, (c'.candidate x).wrapper = some a → (c.candidate x).wrapper = some a) ∨
      ∃ a x w start stop, a.index < c.items.size ∧ c.item a = { isAggregate := true } ∧
        c.Has x ∧ c.Has w ∧ (c.candidate x).span? = some (start, stop) ∧
        c.candidate w = (Candidate.seed a).attach .aggregate ⟨x, 0⟩ (c.candidate x) ∧
        c' = c.enclose a x w start stop := by
  cases h with
  | @store z hroom hmade =>
    left
    intro x a ha
    rw [candidate_pushCandidate] at ha
    split at ha
    · rw [hmade.wrapper] at ha
      cases ha
    · exact ha
  | @wrap a x w start stop hitem hblank hx hw hfree hspan hlifted honly =>
    exact Or.inr ⟨a, x, w, start, stop, hitem, hblank, hx, hw, hspan, hlifted, rfl⟩
  | @settle z =>
    left
    intro x a ha
    rw [Chart.settle, candidate_modifyCandidate] at ha
    split at ha
    · rename_i hx
      rw [hx.1]
      exact ha
    · exact ha
  | @register u =>
    left
    intro x a ha
    rcases register_cases c u with ⟨heq, -⟩ | ⟨b, p, d, m, f, t, -, heq⟩ <;> rw [heq] at ha <;>
      exact ha
  | _ => exact Or.inl fun x a ha => ha

/-- Only the candidate that is enclosed gets a mark. -/
theorem wrapper_enclose
    {w : CandidateId}
    {start stop : Nat}
    {b : ItemId}
    (h : ((c.enclose a x w start stop).candidate y).wrapper = some b) :
    (c.candidate y).wrapper = some b ∨ y = x ∧ b = a := by
  rw [enclose, candidate_modifyCandidate] at h
  split at h
  · rename_i hy
    cases h
    exact Or.inr ⟨hy.1, rfl⟩
  · exact Or.inl h

/-- A mark is new only if an item has just become an aggregate of one candidate. -/
theorem Step.wrapper_cases
    (h : Step strict c c') :
    (∀ x a, (c'.candidate x).wrapper = some a → (c.candidate x).wrapper = some a) ∨
      ∃ a x, (c.item a).present = false ∧ (c'.item a).present = true ∧
        (c'.item a).isAggregate = true ∧ ∀ y b, (c'.candidate y).wrapper = some b →
          (c.candidate y).wrapper = some b ∨ y = x ∧ b = a := by
  refine h.mark_cases.imp_right ?_
  rintro ⟨a, x, w, start, stop, hitem, hblank, -, -, -, -, rfl⟩
  refine ⟨a, x, ?_, ?_, ?_, fun y b hb => wrapper_enclose hb⟩
  · rw [hblank]
  · rw [enclose, item_modifyCandidate, item_modifyItem_self _ hitem]
  · rw [enclose, item_modifyCandidate, item_modifyItem_self _ hitem, hblank]

theorem Step.marked
    (h : Step strict c c')
    (hm : Marked c) :
    Marked c' := by
  rcases h.wrapper_cases with hold | ⟨a, x, habsent, hpresent, haggregate, hnew⟩
  · exact hm.extend h.grows hold
  · have hfree : ∀ z, (c.candidate z).wrapper ≠ some a := by
      intro z hz
      rw [hm.present z a hz] at habsent
      cases habsent
    refine ⟨fun y b hb => ?_, fun y b hb => ?_, fun y z b hy hz => ?_⟩
    · rcases hnew y b hb with hold | ⟨-, rfl⟩
      · exact h.grows.present b (hm.present y b hold)
      · exact hpresent
    · rcases hnew y b hb with hold | ⟨-, rfl⟩
      · rw [h.grows.isAggregate b (lt_size_of_present (hm.present y b hold))]
        exact hm.aggregate y b hold
      · exact haggregate
    · rcases hnew y b hy with hy' | ⟨rfl, rfl⟩ <;> rcases hnew z b hz with hz' | ⟨rfl, hb⟩
      · exact hm.unique y z b hy' hz'
      · rw [hb] at hy'
        exact absurd hy' (hfree y)
      · exact absurd hz' (hfree z)
      · rfl

theorem Evolves.marked
    (h : Evolves strict c c')
    (hm : Marked c) :
    Marked c' := by
  induction h with
  | refl => exact hm
  | tail _ hstep ih => exact hstep.marked ih

end Marks

section Contents

/-- An aggregate is marked on a candidate, which all that is rooted at it holds or may take. -/
structure Encloses (c : Chart) (a : ItemId) (x : CandidateId) : Prop where
  has : c.Has x
  wrapper : (c.candidate x).wrapper = some a
  held : ∀ y, c.Has y → (c.candidate y).root = a →
    (c.candidate y).slot .aggregate = some ⟨x, 0⟩ ∨ ∃ r, c.Licensed a (c.candidate x).root r

/-- Aggregates enclose what they were made for, and stand in no tower. -/
structure Wrapped (c : Chart) : Prop where
  marked : Marked c
  plain : ∀ v p r, (c.item v).fixedParent = some (p, r) →
    p.index < c.items.size ∧ (c.item p).isAggregate = false
  enclosed : ∀ a, (c.item a).isAggregate = true → (c.item a).present = true →
    ∃ x, c.Encloses a x

theorem wrapped_new (g : Grammar) (s : Settings) :
    Wrapped (new g s) where
  marked := marked_new g s
  plain v p r h := by
    rw [item_of_size_le (Nat.zero_le _)] at h
    cases h
  enclosed a h := by
    rw [item_of_size_le (Nat.zero_le _)] at h
    cases h

/-- What is made for an aggregate holds what the aggregate encloses, or may take it. -/
theorem Encloses.made
    {z : Candidate}
    (he : c.Encloses a x)
    (hw : Wrapped c)
    (haggregate : (c.item a).isAggregate = true)
    (hpresent : (c.item a).present = true)
    (hmade : Made True c z)
    (hroot : z.root = a) :
    z.slot .aggregate = some ⟨x, 0⟩ ∨ ∃ r, c.Licensed a (c.candidate x).root r := by
  have hfixed : ∀ v r, (c.item v).fixedParent ≠ some (a, r) := by
    intro v r h
    rw [(hw.plain v a r h).2] at haggregate
    cases haggregate
  cases hmade with
  | @leaf u s id t hitem habsent =>
    obtain rfl : u = a := hroot
    rw [habsent trivial] at hpresent
    cases hpresent
  | @seed u hitem habsent =>
    obtain rfl : u = a := hroot
    rw [habsent trivial] at hpresent
    cases hpresent
  | joined hfits =>
    rw [root_joined] at hroot
    exact (he.held _ hfits.parent hroot).imp_left fun hs => slot_joined_of_slot hfits.slot hs
  | chained hfits =>
    refine (he.held _ hfits.parent hroot).imp_left fun hs => ?_
    rw [Candidate.slot_attach_of_ne _ _ _ (by decide)]
    exact hs
  | @lifted u y r hitem hchild hstrict =>
    obtain rfl : u = a := hroot
    rcases (hstrict trivial).2 with habsent | h
    · rw [habsent] at hpresent
      cases hpresent
    · exact absurd h (hfixed _ _)
  | @reduced p u hp hholds hlicensed =>
    rw [root_withoutItem] at hroot
    rcases he.held p hp hroot with hs | hfree
    · by_cases hu : (c.candidate x).root = u
      · rw [hu]
        rw [hroot] at hlicensed
        exact Or.inr (hlicensed trivial)
      · exact Or.inl (slot_withoutItem_of_root_ne hs hu)
    · exact Or.inr hfree
  | @repointed p d r t hp hd hslot hsame h =>
    have hbase : (c.candidate p).root = a := by
      rw [← hroot]
      exact (Candidate.root_detach (c.candidate p) r (c.candidate t.child)).symm
    rw [hbase] at h
    exact absurd h (hfixed _ _)

theorem Encloses.step
    (he : c.Encloses a x)
    (h : Step True c c')
    (hw : Wrapped c)
    (haggregate : (c.item a).isAggregate = true)
    (hpresent : (c.item a).present = true) :
    c'.Encloses a x where
  has := h.grows.has he.has
  wrapper := h.grows.wrapper x a he.wrapper
  held y hy hroot := by
    rw [h.grows.root he.has]
    have hextend : (∃ r, c.Licensed a (c.candidate x).root r) →
        ∃ r, c'.Licensed a (c.candidate x).root r :=
      fun hfree => hfree.imp fun r hr => hr.extend h.grows
    rcases h.candidate_cases hy with hold | ⟨-, hmade, -⟩
    · rw [h.grows.root hold] at hroot
      rw [h.grows.slot hold]
      exact (he.held y hold hroot).imp_right hextend
    · exact (he.made hw haggregate hpresent hmade hroot).imp_right hextend

/-- A new aggregate encloses what it was made for. -/
theorem Step.Wraps.encloses
    {w : CandidateId}
    (hwraps : Step.Wraps c a x w)
    (h : Step True c c')
    (hitems : c'.items ≠ c.items)
    (hwrapper : (c'.candidate x).wrapper = some a) :
    c'.Encloses a x where
  has := h.grows.has hwraps.2.1
  wrapper := hwrapper
  held y hy hroot := by
    obtain ⟨-, hx, hw, hlifted, honly⟩ := hwraps
    rcases h.candidate_cases hy with hold | ⟨-, -, hsame⟩
    · rw [h.grows.root hold] at hroot
      rw [honly y hold hroot, h.grows.slot hw, hlifted]
      exact Or.inl (Candidate.slot_attach_self _ _ _ _)
    · exact absurd hsame hitems

theorem Step.wrapped
    (h : Step True c c')
    (hw : Wrapped c) :
    Wrapped c' where
  marked := h.marked hw.marked
  plain v p r hfixed := by
    rw [h.fixedParent] at hfixed
    obtain ⟨hlt, hplain⟩ := hw.plain v p r hfixed
    exact ⟨Nat.lt_of_lt_of_le hlt h.grows.items_le, (h.grows.isAggregate p hlt).trans hplain⟩
  enclosed a haggregate hpresent := by
    by_cases hseen : (c.item a).present = true
    · have hold : (c.item a).isAggregate = true :=
        (h.grows.isAggregate a (lt_size_of_present hseen)).symm.trans haggregate
      obtain ⟨x, he⟩ := hw.enclosed a hold hseen
      exact ⟨x, he.step h hw hold hseen⟩
    · have hchanged : c'.items ≠ c.items := by
        intro hitems
        rw [item_of_items_eq hitems] at hpresent
        exact hseen hpresent
      rcases h.present_cases hpresent with hold | ⟨hlt, hplain, -⟩ | ⟨x, w, hwraps, hwrapper, -⟩
      · exact absurd hold hseen
      · rw [h.grows.isAggregate a hlt, hplain] at haggregate
        cases haggregate
      · exact ⟨x, hwraps.encloses h hchanged hwrapper⟩

theorem Move.wrapped
    (h : Move True c c')
    (hw : Wrapped c) :
    Wrapped c' := by
  cases h with
  | step h => exact h.wrapped hw
  | @fix below u q hnone hitem hplain =>
    have hext : Extends c (c.modifyItem below fun i => { i with fixedParent := some (u, q) }) :=
      Extends.fix hnone
    refine ⟨hw.marked.extend hext fun x a ha => ha, ?_, ?_⟩
    · intro v p r h
      rw [size_items_modifyItem, field_modifyItem Item.isAggregate rfl]
      rw [item_modifyItem] at h
      split at h
      · cases h
        exact ⟨hitem, hplain⟩
      · exact hw.plain v p r h
    · intro a haggregate hpresent
      rw [field_modifyItem Item.isAggregate rfl] at haggregate
      rw [field_modifyItem Item.present rfl] at hpresent
      obtain ⟨x, he⟩ := hw.enclosed a haggregate hpresent
      exact ⟨x, he.has, he.wrapper, fun y hy hroot =>
        (he.held y hy hroot).imp_right fun hfree => hfree.imp fun r hr => hr.extend hext⟩
  | refill f hfree => exact absurd trivial hfree

end Contents

/--
All that an aggregate keeps in its pool holds the one candidate that is marked
with it, for no bonus, unless the aggregate may take the item of that candidate
as its child.
-/
theorem aggregate_keeps_content
    {g : Grammar}
    {s : Settings}
    (hrun : Driven g s c)
    (haggregate : (c.item a).isAggregate = true)
    (hpresent : (c.item a).present = true) :
    ∃ x, (∀ z, (c.candidate z).wrapper = some a ↔ z = x) ∧
      ∀ y ∈ (c.item a).pool, (c.candidate y).slot .aggregate = some ⟨x, 0⟩ ∨
        ∃ r, c.Licensed a (c.candidate x).root r := by
  have hkept := hrun.invariant (wrapped_new g s) fun _ _ _ _ _ hw h => h.wrapped hw
  have hw := hkept.holds
  obtain ⟨x, he⟩ := hw.enclosed a haggregate hpresent
  refine ⟨x, fun z => ⟨fun hz => hw.marked.unique z x a hz he.wrapper, ?_⟩, fun y hy => ?_⟩
  · rintro rfl
    exact he.wrapper
  · exact he.held y (hkept.sound.closed.has_of_mem hy) (hkept.sound.closed.root_of_mem hy)

/-- A head that is wrapped with its mark, and may have more rules. -/
def stackingDeclaration (more : List (Rule String)) : Declaration :=
  { symbols :=
      [{ name := "head",
         rules := { relation := .property, target := "mark", placement := .after,
                    stackable := true } :: more },
        { name := "mark" }] }

/-- A head that has been wrapped with its mark. -/
def stackingChart (more : List (Rule String)) : Chart :=
  (new (stackingDeclaration more).built {}).feeds
    [{ concept := 1, position := 0, extent := 1 }, { concept := 2, position := 1, extent := 1 }]

theorem aggregate_keeps_content_sample :
    ((stackingChart []).item ⟨2⟩).isAggregate = true ∧
      ((stackingChart []).item ⟨2⟩).present = true ∧
      ∃ x, (∀ z, ((stackingChart []).candidate z).wrapper = some ⟨2⟩ ↔ z = x) ∧
        ∀ y ∈ ((stackingChart []).item ⟨2⟩).pool,
          ((stackingChart []).candidate y).slot .aggregate = some ⟨x, 0⟩ ∨
            ∃ r, (stackingChart []).Licensed ⟨2⟩ ((stackingChart []).candidate x).root r := by
  have haggregate : ((stackingChart []).item ⟨2⟩).isAggregate = true := by decide +kernel
  have hpresent : ((stackingChart []).item ⟨2⟩).present = true := by decide +kernel
  exact ⟨haggregate, hpresent,
    aggregate_keeps_content (driven_feeds .new _) haggregate hpresent⟩

/--
A head that may take a head as its argument is offered to the aggregate that
wraps it, and then the aggregate holds it there, for another bonus.
-/
theorem aggregate_gives_up_content :
    ((stackingChart [{ relation := .argument, target := "head" }]).item ⟨3⟩).isAggregate = true ∧
      ((stackingChart [{ relation := .argument, target := "head" }]).item ⟨3⟩).pool =
        [⟨6⟩, ⟨7⟩] ∧
      ∀ y ∈ [⟨6⟩, ⟨7⟩],
        ((stackingChart [{ relation := .argument, target := "head" }]).candidate y).slot
          .aggregate = none ∧
        ((stackingChart [{ relation := .argument, target := "head" }]).candidate y).slots.get
          .argument ≠ none := by
  decide +kernel

end Chart

end BeamChart
