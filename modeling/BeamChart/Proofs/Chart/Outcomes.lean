import BeamChart.Chart.Absorb
import BeamChart.Proofs.Chart.Frame

/-!
# What an operation can come to

Taking a child, wrapping a candidate, giving children up, exchanging one, making an item from
a token: each of these makes its checks in a fixed order and stores one candidate at most.
Taking a token makes such items one after the other, and ends at the first that is refused.
For each operation a case lemma says what has been found, and what chart is left. What the
operation keeps is proved from its cases, so that a change of the order of the checks is met
here once.
-/

namespace BeamChart

/-- An item with its place from a token, and nothing in its pool. -/
def Item.filledAs (i : Item) (symbol : Option SymbolId) (t : Token) : Item :=
  { i with
    concept := symbol.getD unrecognized
    symbol
    position := t.position
    extent := t.extent
    token := some t
    pool := [] }

namespace Chart

variable {c : Chart}

section Candidates

/-- The checks of an attempt to take a child, and what each of them leaves. -/
inductive Trial
    (c : Chart)
    (p d : CandidateId)
    (r : Relation)
    (make : Candidate → Candidate → Candidate) : Prop
  | slotTaken
      (hslot : ((c.candidate p).slot r).isSome)
      (heq : c.tryAttach p d r make =
        (.slotTaken, c.count fun t => { t with attempts := t.attempts + 1 }))
  | conflict
      (hslot : (c.candidate p).slot r = none)
      (hmeet : (c.candidate p).coverage.intersects (c.candidate d).coverage = true)
      (heq : c.tryAttach p d r make = (.conflict, c.count fun t =>
        { t with attempts := t.attempts + 1, conflicts := t.conflicts + 1 }))
  | exhausted
      (hslot : (c.candidate p).slot r = none)
      (happart : (c.candidate p).coverage.intersects (c.candidate d).coverage = false)
      (hfull : c.candidatesFull = true)
      (heq : c.tryAttach p d r make =
        (.exhausted, (c.count fun t => { t with attempts := t.attempts + 1 }).refused))
  | attached
      (hslot : (c.candidate p).slot r = none)
      (happart : (c.candidate p).coverage.intersects (c.candidate d).coverage = false)
      (hroom : c.candidatesFull = false)
      (heq : c.tryAttach p d r make = (.attached c.nextCandidate,
        (c.pushCandidate (make (c.candidate p) (c.candidate d))).count fun t =>
          { t with attempts := t.attempts + 1, attachments := t.attachments + 1 }))

theorem trial
    (c : Chart)
    (p d : CandidateId)
    (r : Relation)
    (make : Candidate → Candidate → Candidate) :
    Trial c p d r make := by
  by_cases hslot : ((c.candidate p).slot r).isSome
  · exact .slotTaken hslot (by simp only [tryAttach, hslot, if_true])
  · have hfree : (c.candidate p).slot r = none := Option.not_isSome_iff_eq_none.1 hslot
    cases hmeet : (c.candidate p).coverage.intersects (c.candidate d).coverage with
    | true =>
      refine .conflict hfree hmeet ?_
      simp only [tryAttach, hslot, hmeet, if_true, if_false, Bool.false_eq_true]
      rfl
    | false =>
      cases hfull : c.candidatesFull with
      | true =>
        have hstore := store_of_full
          (c := c.count fun t => { t with attempts := t.attempts + 1 }) hfull
        refine .exhausted hfree hmeet hfull ?_
        simp only [tryAttach, hslot, hmeet, hstore, if_false, Bool.false_eq_true]
      | false =>
        have hstore := store_of_room
          (c := c.count fun t => { t with attempts := t.attempts + 1 }) hfull
        refine .attached hfree hmeet hfull ?_
        simp only [tryAttach, hslot, hmeet, hstore, if_false, Bool.false_eq_true]
        rfl

theorem tryAttach_of_free
    {p d : CandidateId}
    {r : Relation}
    (make : Candidate → Candidate → Candidate)
    (hslot : (c.candidate p).slot r = none)
    (happart : (c.candidate p).coverage.intersects (c.candidate d).coverage = false)
    (hroom : c.candidatesFull = false) :
    c.tryAttach p d r make = (.attached c.nextCandidate,
      (c.pushCandidate (make (c.candidate p) (c.candidate d))).count fun t =>
        { t with attempts := t.attempts + 1, attachments := t.attachments + 1 }) := by
  cases trial c p d r make with
  | slotTaken htaken => simp [hslot] at htaken
  | conflict _ hmeet => simp [happart] at hmeet
  | exhausted _ _ hfull => simp [hroom] at hfull
  | attached _ _ _ heq => exact heq

/-- An aggregate is made, and filled if the candidate covers something and there is room. -/
inductive Enclosure (c : Chart) (x : CandidateId) : Prop
  | refused
      (hfull : c.allocateAggregate = (.error (.exhausted .aggregates), c.refused))
      (heq : c.wrap x = c.refused)
  | spanless
      (hroom : c.aggregateCount < c.settings.aggregateCapacity)
      (hspan : (c.candidate x).span? = none)
      (heq : c.wrap x = c.pushAggregate)
  | exhausted
      (hroom : c.aggregateCount < c.settings.aggregateCapacity)
      (hspan : (c.candidate x).span?.isSome)
      (hfull : c.pushAggregate.candidatesFull = true)
      (heq : c.wrap x = c.pushAggregate.refused)
  | enclosed
      {start stop : Nat}
      (symbol : Option SymbolId)
      (hroom : c.aggregateCount < c.settings.aggregateCapacity)
      (hspan : (c.candidate x).span? = some (start, stop))
      (hopen : c.pushAggregate.candidatesFull = false)
      (heq : c.wrap x =
        ((c.pushAggregate.pushCandidate
          ((Candidate.seed c.nextItem).attach .aggregate ⟨x, 0⟩ (c.candidate x))).modifyItem
            c.nextItem fun i =>
              { i with
                symbol
                concept := symbol.getD unrecognized
                position := start
                extent := stop - start
                present := true
                pool := i.pool ++ [c.nextCandidate] }).modifyCandidate x fun y =>
                  { y with wrapper := some c.nextItem })
      (hstored : c.Has x → c.wrap x =
        (c.pushAggregate.pushCandidate
          ((Candidate.seed c.nextItem).attach .aggregate ⟨x, 0⟩ (c.candidate x))).enclose
            c.nextItem x c.nextCandidate start stop)

theorem enclosure (c : Chart) (x : CandidateId) :
    Enclosure c x := by
  rcases allocateAggregate_cases c with ⟨hroom, hallocate⟩ | hallocate
  · cases hspan : (c.candidate x).span? with
    | none =>
      refine .spanless hroom hspan ?_
      simp only [wrap, hallocate, candidate_pushAggregate, hspan]
    | some span =>
      obtain ⟨start, stop⟩ := span
      cases hfull : c.pushAggregate.candidatesFull with
      | true =>
        refine .exhausted hroom (by rw [hspan]; rfl) hfull ?_
        simp only [wrap, hallocate, candidate_pushAggregate, hspan, store_of_full hfull]
      | false =>
        refine .enclosed (c.pushAggregate.item (c.candidate x).root).symbol hroom hspan hfull ?_
          fun hx => ?_ <;>
          simp only [wrap, hallocate, candidate_pushAggregate, hspan, store_of_room hfull]
        · rfl
        · have hne : x ≠ c.pushAggregate.nextCandidate := ne_nextCandidate (c := c) hx
          simp only [enclose, item_pushCandidate, candidate_pushCandidate, if_neg hne,
            candidate_pushAggregate]
          rfl
  · refine .refused hallocate ?_
    simp only [wrap, hallocate]

/-- An attempt is made, and under a stackable rule the new candidate is wrapped. -/
theorem attach_cases
    (c : Chart)
    (p d : CandidateId)
    (rule : Rule SymbolId) :
    c.attach p d rule = c.tryAttach p d rule.relation (c.joined d rule.relation) ∨
      rule.stackable = true ∧ ∃ c₁,
        c.tryAttach p d rule.relation (c.joined d rule.relation) =
          (.attached c.nextCandidate, c₁) ∧
        c.attach p d rule = (.attached c.nextCandidate, c₁.wrap c.nextCandidate) := by
  cases trial c p d rule.relation (c.joined d rule.relation) with
  | slotTaken _ heq | conflict _ _ heq | exhausted _ _ _ heq =>
    left
    simp [attach, heq]
  | attached _ _ _ heq =>
    cases hstackable : rule.stackable with
    | false =>
      left
      simp [attach, heq, hstackable]
    | true =>
      right
      simp [attach, heq, hstackable]

theorem attach_of_refused
    {p d : CandidateId}
    {rule : Rule SymbolId}
    (h : ∀ id, (c.tryAttach p d rule.relation (c.joined d rule.relation)).1 ≠ .attached id) :
    c.attach p d rule = c.tryAttach p d rule.relation (c.joined d rule.relation) := by
  rcases attach_cases c p d rule with heq | ⟨-, c₁, hattached, -⟩
  · exact heq
  · exact absurd (congrArg Prod.fst hattached) (h c.nextCandidate)

/-- The children of an item are given up, if there are any, as long as there is room. -/
inductive Detachment (c : Chart) (x : CandidateId) (v : ItemId) : Prop
  | kept
      (hnone : ∀ r, ¬ c.Holds x r v)
      (heq : c.detach x v = (.ok none, c))
  | exhausted
      {r : Relation}
      (hholds : c.Holds x r v)
      (hfull : c.candidatesFull = true)
      (heq : c.detach x v = (.error (.exhausted .candidates), c.refused))
  | replaced
      {r : Relation}
      (hholds : c.Holds x r v)
      (hroom : c.candidatesFull = false)
      (heq : c.detach x v =
        (.ok (some c.nextCandidate), c.pushCandidate (c.withoutItem (c.candidate x) v)))

theorem detachment (c : Chart) (x : CandidateId) (v : ItemId) :
    Detachment c x v := by
  by_cases hany : ((c.candidate x).slots.filled.any fun e => c.holdsItem v e.2) = true
  · obtain ⟨⟨r, t⟩, hmem, hroot⟩ := List.any_eq_true.1 hany
    have hholds : c.Holds x r v :=
      ⟨t, (Slots.mem_filled _ r t).1 hmem, of_decide_eq_true hroot⟩
    cases hfull : c.candidatesFull with
    | true =>
      refine .exhausted hholds hfull ?_
      simp only [detach, hany, store_of_full hfull, if_true]
    | false =>
      refine .replaced hholds hfull ?_
      simp only [detach, hany, store_of_room hfull, if_true]
  · refine .kept (fun r hholds => hany ?_) (if_neg hany)
    obtain ⟨t, ht, hroot⟩ := hholds
    exact List.any_eq_true.2 ⟨(r, t), (Slots.mem_filled _ r t).2 ht, decide_eq_true hroot⟩

/-- A candidate with another child in a slot, for the same bonus. -/
def repointed
    (c : Chart)
    (x : CandidateId)
    (r : Relation)
    (t : Slot)
    (newer : CandidateId) : Candidate :=
  { ((c.candidate x).detach r (c.candidate t.child)).attach r ⟨newer, t.bonus⟩
      (c.candidate newer) with
    readings := (c.candidate x).readings
    marker := (c.candidate x).marker
    pending := true }

/-- A child is exchanged, unless the other one meets the rest of the candidate. -/
inductive Exchange (c : Chart) (x : CandidateId) (r : Relation) (newer : CandidateId) : Prop
  | vacant
      (hslot : (c.candidate x).slot r = none)
      (heq : c.repoint x r newer = (.ok none, c))
  | conflict
      {t : Slot}
      (hslot : (c.candidate x).slot r = some t)
      (hmeet : ((c.candidate x).detach r (c.candidate t.child)).coverage.intersects
        (c.candidate newer).coverage = true)
      (heq : c.repoint x r newer =
        (.ok none, c.count fun t => { t with conflicts := t.conflicts + 1 }))
  | exhausted
      {t : Slot}
      (hslot : (c.candidate x).slot r = some t)
      (happart : ((c.candidate x).detach r (c.candidate t.child)).coverage.intersects
        (c.candidate newer).coverage = false)
      (hfull : c.candidatesFull = true)
      (heq : c.repoint x r newer = (.error (.exhausted .candidates), c.refused))
  | replaced
      {t : Slot}
      (hslot : (c.candidate x).slot r = some t)
      (happart : ((c.candidate x).detach r (c.candidate t.child)).coverage.intersects
        (c.candidate newer).coverage = false)
      (hroom : c.candidatesFull = false)
      (heq : c.repoint x r newer =
        (.ok (some c.nextCandidate), c.pushCandidate (c.repointed x r t newer)))

theorem exchange
    (c : Chart)
    (x : CandidateId)
    (r : Relation)
    (newer : CandidateId) :
    Exchange c x r newer := by
  cases hslot : (c.candidate x).slot r with
  | none =>
    refine .vacant hslot ?_
    simp only [repoint, hslot]
  | some t =>
    cases hmeet : ((c.candidate x).detach r (c.candidate t.child)).coverage.intersects
      (c.candidate newer).coverage with
    | true =>
      refine .conflict hslot hmeet ?_
      simp only [repoint, hslot, hmeet, if_true]
    | false =>
      cases hfull : c.candidatesFull with
      | true =>
        refine .exhausted hslot hmeet hfull ?_
        simp only [repoint, hslot, hmeet, store_of_full hfull, if_false, Bool.false_eq_true]
      | false =>
        refine .replaced hslot hmeet hfull ?_
        simp only [repoint, hslot, hmeet, store_of_room hfull, if_false, Bool.false_eq_true]
        rfl

/-- The first candidate of an item takes that of the tail, if it is free to do so. -/
inductive Chaining (c : Chart) (u : ItemId) : Prop
  | idle
      (heq : c.chain u = c)
  | refused
      {v : ItemId}
      {former own : CandidateId}
      {more rest : List CandidateId}
      (htail : c.tail = some v)
      (hformer : (c.item v).pool = former :: more)
      (hown : (c.item u).pool = own :: rest)
      (heq : c.chain u = (c.tryAttach own former .next (·.attach .next ⟨former, 0⟩ ·)).2)
  | chained
      {v : ItemId}
      {former own : CandidateId}
      {more rest : List CandidateId}
      {c₁ : Chart}
      (htail : c.tail = some v)
      (hformer : (c.item v).pool = former :: more)
      (hown : (c.item u).pool = own :: rest)
      (htry : c.tryAttach own former .next (·.attach .next ⟨former, 0⟩ ·) =
        (.attached c.nextCandidate, c₁))
      (heq : c.chain u = c₁.setPool u (c.nextCandidate :: rest))

theorem chaining (c : Chart) (u : ItemId) :
    Chaining c u := by
  cases hbehind : c.tail.filter fun t => t ≠ u with
  | none => exact .idle (by simp only [chain, hbehind])
  | some v =>
    have htail : c.tail = some v := (Option.filter_eq_some_iff.1 hbehind).1
    by_cases horder : (c.item u).position < (c.item v).stop
    · exact .idle (by simp only [chain, hbehind, horder, if_true])
    cases hformer : (c.item v).pool with
    | nil => exact .idle (by simp only [chain, hbehind, horder, hformer, if_false])
    | cons former more =>
      cases hown : (c.item u).pool with
      | nil => exact .idle (by simp only [chain, hbehind, horder, hformer, hown, if_false])
      | cons own rest =>
        cases trial c own former .next (·.attach .next ⟨former, 0⟩ ·) with
        | slotTaken _ htry | conflict _ _ htry | exhausted _ _ _ htry =>
          refine .refused htail hformer hown ?_
          simp only [chain, hbehind, horder, hformer, hown, htry, if_false]
        | attached _ _ _ htry =>
          refine .chained htail hformer hown htry ?_
          simp only [chain, hbehind, horder, hformer, hown, htry, if_false]

/-- A refitted pool takes the place of the old one, if a candidate has been replaced. -/
theorem refit_cases
    (c : Chart)
    (above : ItemId)
    (r : Relation)
    (child : ItemId)
    (newer : CandidateId) :
    c.refit above r child newer =
        (false, (refitPool r child newer c [] false (c.item above).pool).2) ∨
      ∃ kept,
        (refitPool r child newer c [] false (c.item above).pool).1 = .ok (kept, true) ∧
        c.refit above r child newer = (true,
          (refitPool r child newer c [] false (c.item above).pool).2.setPool above kept) := by
  unfold refit
  rcases refitPool r child newer c [] false (c.item above).pool with ⟨e | ⟨kept, _ | _⟩, c₁⟩
  · exact .inl rfl
  · exact .inl rfl
  · exact .inr ⟨kept, rfl, rfl⟩

end Candidates

section Items

/-- The chart with an item that has its place from a token, and no leaf. -/
def fillItem (c : Chart) (u : ItemId) (symbol : Option SymbolId) (t : Token) : Chart :=
  c.modifyItem u fun i => i.filledAs (symbol.filter fun s => s ≠ unrecognized) t

/-- An item gets its place, and a leaf if its symbol is defined, as long as there is room. -/
inductive Filling (c : Chart) (u : ItemId) (symbol : Option SymbolId) (t : Token) : Prop
  | placed
      (hundefined : ∀ id, (symbol.filter fun s => s ≠ unrecognized) = some id →
        c.grammar.symbol? id = none)
      (heq : c.instantiate u symbol t = (.ok (), c.fillItem u symbol t))
  | exhausted
      {id : SymbolId}
      {s : Symbol}
      (hsymbol : (symbol.filter fun s => s ≠ unrecognized) = some id)
      (hdefined : c.grammar.symbol? id = some s)
      (hfull : c.candidatesFull = true)
      (heq : c.instantiate u symbol t =
        (.error (.exhausted .candidates), (c.fillItem u symbol t).refused))
  | filled
      {id : SymbolId}
      {s : Symbol}
      (hsymbol : (symbol.filter fun s => s ≠ unrecognized) = some id)
      (hdefined : c.grammar.symbol? id = some s)
      (hroom : c.candidatesFull = false)
      (heq : c.instantiate u symbol t = (.ok (),
        ((c.fillItem u symbol t).pushCandidate ((c.fillItem u symbol t).leafOf u s id t)).setPool
          u [c.nextCandidate]))

theorem filling
    (c : Chart)
    (u : ItemId)
    (symbol : Option SymbolId)
    (t : Token) :
    Filling c u symbol t := by
  cases hsymbol : symbol.filter fun s => s ≠ unrecognized with
  | none =>
    refine .placed (fun id hid => ?_) (by simp only [instantiate, fillItem, Item.filledAs, hsymbol])
    rw [hsymbol] at hid
    cases hid
  | some id =>
    cases hdefined : (c.fillItem u symbol t).grammar.symbol? id with
    | none =>
      refine .placed (fun q hq => ?_) ?_
      · rw [hsymbol] at hq
        cases hq
        exact hdefined
      simp only [fillItem, Item.filledAs, hsymbol] at hdefined ⊢
      simp only [instantiate, hsymbol, hdefined]
    | some s =>
      cases hfull : (c.fillItem u symbol t).candidatesFull with
      | true =>
        have hstore := store_of_full hfull ((c.fillItem u symbol t).leafOf u s id t)
        refine .exhausted hsymbol hdefined hfull ?_
        simp only [fillItem, Item.filledAs, hsymbol] at hdefined hstore ⊢
        simp only [instantiate, hsymbol, hdefined, hstore]
      | false =>
        have hstore := store_of_room hfull ((c.fillItem u symbol t).leafOf u s id t)
        refine .filled hsymbol hdefined hfull ?_
        simp only [fillItem, Item.filledAs, hsymbol] at hdefined hstore ⊢
        simp only [instantiate, hsymbol, hdefined, hstore]
        rfl

/-- A new item is filled and then seen, as far as there is room. -/
inductive Making (c : Chart) (symbol : Option SymbolId) (t : Token) : Prop
  | refused
      (hfull : c.allocateItem = (.error (.exhausted .items), c.refused))
      (heq : c.makeItem symbol t = (.error (.exhausted .items), c.refused))
  | unfilled
      {e : ChartError}
      {c₁ : Chart}
      (hroom : c.plainItems < c.settings.itemCapacity)
      (hfill : (c.pushItem {}).instantiate c.nextItem symbol t = (.error e, c₁))
      (heq : c.makeItem symbol t = (.error e, c₁))
  | made
      {c₁ : Chart}
      (hroom : c.plainItems < c.settings.itemCapacity)
      (hfill : (c.pushItem {}).instantiate c.nextItem symbol t = (.ok (), c₁))
      (heq : c.makeItem symbol t = (.ok c.nextItem, c₁.markPresent c.nextItem))

theorem making
    (c : Chart)
    (symbol : Option SymbolId)
    (t : Token) :
    Making c symbol t := by
  rcases allocateItem_cases c with ⟨hroom, hallocate⟩ | hallocate
  · rcases hfill : (c.pushItem {}).instantiate c.nextItem symbol t with ⟨e | ⟨⟩, c₁⟩
    · exact .unfilled hroom hfill (by simp only [makeItem, hallocate, hfill])
    · exact .made hroom hfill (by simp only [makeItem, hallocate, hfill])
  · exact .refused hallocate (by simp only [makeItem, hallocate])

/-- An item is renamed by making one under the first meaning of its concept, and posting it. -/
theorem rename_cases (c : Chart) (i : Item) :
    (∃ e, (c.makeItem (c.grammar.meaningsOf i.concept).head? i.toToken).1 = .error e) ∧
        (c.rename i).2 = (c.makeItem (c.grammar.meaningsOf i.concept).head? i.toToken).2 ∨
      ∃ c₁, c.makeItem (c.grammar.meaningsOf i.concept).head? i.toToken = (.ok c.nextItem, c₁) ∧
        c.rename i = (.ok .done, c₁.register c.nextItem) := by
  have hgrammar : (c.pushItem {}).grammar = c.grammar := rfl
  rcases allocateItem_cases c with ⟨hroom, hallocate⟩ | hallocate
  · rcases hfill : (c.pushItem {}).instantiate c.nextItem
      (c.grammar.meaningsOf i.concept).head? i.toToken with ⟨e | ⟨⟩, c₁⟩
    · left
      simp [rename, makeItem, hallocate, hgrammar, hfill]
    · right
      simp [rename, makeItem, hallocate, hgrammar, hfill]
  · left
    simp [rename, makeItem, hallocate]

end Items

section Tokens

/-- The first candidate of a pool is lifted, and then the others. -/
theorem liftAll_cons
    (c : Chart)
    (u : ItemId)
    (r : Relation)
    (x : CandidateId)
    (rest : List CandidateId) :
    c.candidatesFull = true ∧
        liftAll u r c (x :: rest) = (.error (.exhausted .candidates), c.refused) ∨
      ∃ c₁, c.candidatesFull = false ∧
        c₁ = c.pushCandidate ((Candidate.seed u).attach r ⟨x, 0⟩ (c.candidate x)) ∧
        liftAll u r c (x :: rest) =
          ((liftAll u r c₁ rest).1.map (c.nextCandidate :: ·), (liftAll u r c₁ rest).2) := by
  cases hfull : c.candidatesFull with
  | true => exact .inl ⟨rfl, by simp only [liftAll, store_of_full hfull]⟩
  | false =>
    refine .inr ⟨_, rfl, rfl, ?_⟩
    simp only [liftAll, store_of_room hfull]
    rcases liftAll u r _ rest with ⟨e | ids, c₁⟩ <;> rfl

/-- The item below gets its fixed parent before its candidates are lifted. -/
inductive Placing (c : Chart) (u below : ItemId) (r : Relation) : Prop
  | refused
      {e : ChartError}
      {c₁ c₂ : Chart}
      (hfix : c₁ = c.modifyItem below fun i => { i with fixedParent := some (u, r) })
      (hlift : liftAll u r c₁ (c₁.item below).pool = (.error e, c₂))
      (heq : c.placeOver u below r = (.error e, c₂))
  | placed
      {pool : List CandidateId}
      {c₁ c₂ : Chart}
      (hfix : c₁ = c.modifyItem below fun i => { i with fixedParent := some (u, r) })
      (hlift : liftAll u r c₁ (c₁.item below).pool = (.ok pool, c₂))
      (heq : c.placeOver u below r = (.ok (), c₂.setPool u pool))

theorem placing
    (c : Chart)
    (u below : ItemId)
    (r : Relation) :
    Placing c u below r := by
  rcases hlift : liftAll u r (c.modifyItem below fun i => { i with fixedParent := some (u, r) })
    ((c.modifyItem below fun i => { i with fixedParent := some (u, r) }).item below).pool with
    ⟨e | pool, c₂⟩
  · exact .refused rfl hlift (by simp only [placeOver, hlift])
  · exact .placed rfl hlift (by simp only [placeOver, hlift])

/-- An item is made, and then connected and posted. -/
inductive Admission
    (c : Chart)
    (symbol : Option SymbolId)
    (t : Token)
    (outcome : Except ChartError ItemId × Chart) : Prop
  | refused
      {e : ChartError}
      {c₁ : Chart}
      (hmake : c.makeItem symbol t = (.error e, c₁))
      (heq : outcome = (.error e, c₁))
  | admitted
      {u : ItemId}
      {c₁ : Chart}
      (hmake : c.makeItem symbol t = (.ok u, c₁))
      (heq : outcome = (.ok u, (c₁.connectInBudget u).register u))

/-- The innermost level of a tower is admitted like any item. -/
theorem admission_single
    (t : Token)
    (s : SymbolId)
    (c : Chart) :
    Admission c (some s) t (feedComposition t (.single s) c) := by
  rcases hmake : c.makeItem (some s) t with ⟨e | u, c₁⟩
  · exact .refused hmake (by simp only [feedComposition, hmake])
  · exact .admitted hmake (by simp only [feedComposition, hmake])

/-- A further level is made over those that a token has completed. -/
inductive Stacking
    (t : Token)
    (s : SymbolId)
    (r : Relation)
    (inner : Composition SymbolId)
    (c : Chart) : Prop
  | incomplete
      {e : ChartError}
      {c₁ : Chart}
      (hinner : feedComposition t inner c = (.error e, c₁))
      (heq : feedComposition t (.holding s r inner) c = (.error e, c₁))
  | unmade
      {below : ItemId}
      {e : ChartError}
      {c₁ c₂ : Chart}
      (hinner : feedComposition t inner c = (.ok below, c₁))
      (hmake : c₁.makeItem (some s) t = (.error e, c₂))
      (heq : feedComposition t (.holding s r inner) c = (.error e, c₂))
  | unplaced
      {below u : ItemId}
      {e : ChartError}
      {c₁ c₂ c₃ : Chart}
      (hinner : feedComposition t inner c = (.ok below, c₁))
      (hmake : c₁.makeItem (some s) t = (.ok u, c₂))
      (hplace : c₂.placeOver u below r = (.error e, c₃))
      (heq : feedComposition t (.holding s r inner) c = (.error e, c₃))
  | stacked
      {below u : ItemId}
      {c₁ c₂ c₃ : Chart}
      (hinner : feedComposition t inner c = (.ok below, c₁))
      (hmake : c₁.makeItem (some s) t = (.ok u, c₂))
      (hplace : c₂.placeOver u below r = (.ok (), c₃))
      (heq : feedComposition t (.holding s r inner) c =
        (.ok u, (c₃.connectInBudget u).register u))

theorem stacking
    (t : Token)
    (s : SymbolId)
    (r : Relation)
    (inner : Composition SymbolId)
    (c : Chart) :
    Stacking t s r inner c := by
  rcases hinner : feedComposition t inner c with ⟨e | below, c₁⟩
  · exact .incomplete hinner (by simp only [feedComposition, hinner])
  rcases hmake : c₁.makeItem (some s) t with ⟨e | u, c₂⟩
  · exact .unmade hinner hmake (by simp only [feedComposition, hinner, hmake])
  rcases hplace : c₂.placeOver u below r with ⟨e | ⟨⟩, c₃⟩
  · exact .unplaced hinner hmake hplace (by simp only [feedComposition, hinner, hmake, hplace])
  · exact .stacked hinner hmake hplace (by simp only [feedComposition, hinner, hmake, hplace])

/-- A token lies beyond the window, or is built as a tower, or gives one item. -/
inductive Taking (c : Chart) (symbol : Option SymbolId) (t : Token) : Prop
  | beyond
      (hwindow : c.settings.window < t.stop)
      (heq : c.feedAs symbol t = (.error (.outsideWindow t.stop c.settings.window), c))
  | tower
      {levels : Composition SymbolId}
      (hwindow : t.stop ≤ c.settings.window)
      (hlevels : ((symbol.bind c.grammar.symbol?).bind fun s => s.composition) = some levels)
      (heq : c.feedAs symbol t = feedComposition t levels c)
  | single
      (hwindow : t.stop ≤ c.settings.window)
      (hplain : ((symbol.bind c.grammar.symbol?).bind fun s => s.composition) = none)
      (hadmission : Admission c symbol t (c.feedAs symbol t))

theorem taking
    (c : Chart)
    (symbol : Option SymbolId)
    (t : Token) :
    Taking c symbol t := by
  by_cases hwindow : c.settings.window < t.stop
  · exact .beyond hwindow (by simp only [feedAs, hwindow, if_true])
  have hinside : t.stop ≤ c.settings.window := Nat.le_of_not_lt hwindow
  cases hlevels : (symbol.bind c.grammar.symbol?).bind fun s => s.composition with
  | some levels =>
    exact .tower hinside hlevels (by simp only [feedAs, hwindow, if_false, hlevels])
  | none =>
    refine .single hinside hlevels ?_
    rcases hmake : c.makeItem symbol t with ⟨e | u, c₁⟩
    · exact .refused hmake (by simp only [feedAs, hwindow, if_false, hlevels, hmake])
    · exact .admitted hmake (by simp only [feedAs, hwindow, if_false, hlevels, hmake])

end Tokens

end Chart

end BeamChart
