import BeamChart.Proofs.Chart.Composition

/-!
# Capacities and counts

Items and aggregates share an arena and have a capacity each: an item may be
appended while the items that are not aggregates, taken as a difference, leave room
for it. The difference is right because the aggregates are counted where they are
made, also when the candidate of one is refused afterwards (`Accounted`). So no
reserve outgrows its capacity, the tally agrees with the arenas, and what is counted
as refused is exactly a refused allocation, which adds nothing
(`capacities_respected`).

An operation asks for room in a few places only (`Request`). What has to be free there can
be told before: one refusal is counted where room is asked for that is not there, and none
otherwise (`Request.charges`).
-/

namespace BeamChart

namespace Chart

/-- Number of stored items that are flagged as aggregates. -/
def aggregates (c : Chart) : Nat :=
  c.items.countP Item.isAggregate

/-- Number of stored items that are not. -/
def plains (c : Chart) : Nat :=
  c.items.countP fun i => !i.isAggregate

variable {strict whole : Prop} {g : Grammar} {s : Settings} {c c' : Chart} {u : ItemId}

section Counts

theorem size_eq_plains_add (c : Chart) :
    c.items.size = c.plains + c.aggregates := by
  have hsplit := @Array.size_eq_countP_add_countP _ Item.isAggregate c.items
  simp only [Bool.not_eq_true, Bool.decide_eq_false] at hsplit
  simp only [plains, aggregates]
  omega

/-- The count depends on the flags only. -/
theorem aggregates_congr
    (h : c'.items.map Item.isAggregate = c.items.map Item.isAggregate) :
    c'.aggregates = c.aggregates := by
  have hflags : ∀ c : Chart, c.aggregates = (c.items.map Item.isAggregate).countP id :=
    fun c => by simp [aggregates, Array.countP_map]
  rw [hflags, hflags, h]

theorem aggregates_modifyItem
    {f : Item → Item}
    (h : (f (c.item u)).isAggregate = (c.item u).isAggregate) :
    (c.modifyItem u f).aggregates = c.aggregates := by
  apply aggregates_congr
  apply Array.ext
  · simp [modifyItem]
  · intro k hk hk'
    have hlt : k < c.items.size := by simpa using hk'
    simp only [modifyItem, Array.getElem_map, Array.getElem_modify]
    split
    · rename_i he
      have hitem : c.item u = c.items[k] := by
        simp [item, he, Array.getElem?_eq_getElem hlt]
      rw [← hitem, h]
    · rfl

end Counts

/-- The arenas keep to their capacities, and the tally agrees with them. -/
structure Accounted (c : Chart) : Prop where
  plain_le : c.items.size ≤ c.settings.itemCapacity + c.aggregates
  aggregates_le : c.aggregates ≤ c.settings.aggregateCapacity
  candidates_le : c.candidates.size ≤ c.settings.candidateCapacity
  counted : c.aggregateCount = c.aggregates
  items : c.tally.items = c.items.size
  candidates : c.tally.candidates = c.candidates.size
  aggregates : c.tally.aggregates = c.aggregates
  attachments_le : c.tally.attachments ≤ c.tally.attempts
  predictions_le : c.tally.predictions + c.aggregates ≤ c.items.size

theorem accounted_new (g : Grammar) (s : Settings) :
    Accounted (new g s) := by
  constructor <;> simp [new, aggregates]

/-- The account is kept where only flags, sizes and counts are read. -/
theorem Accounted.of_eq
    (h : Accounted c)
    (hsettings : c'.settings = c.settings)
    (hsize : c'.items.size = c.items.size)
    (haggregates : c'.aggregates = c.aggregates)
    (hcount : c'.aggregateCount = c.aggregateCount)
    (hcandidates : c'.candidates.size = c.candidates.size)
    (htally : c'.tally = c.tally) :
    Accounted c' := by
  obtain ⟨hplain, hagg, hcand, hcounted, hi, hx, ha, hat, hp⟩ := h
  constructor <;> simp only [hsettings, hsize, haggregates, hcount, hcandidates, htally] <;>
    assumption

/-- Room for an item means that one more keeps to the capacity. -/
theorem Accounted.room
    (h : Accounted c)
    (hroom : c.plainItems < c.settings.itemCapacity) :
    c.items.size + 1 ≤ c.settings.itemCapacity + c.aggregates := by
  have hcounted := h.counted
  have hsize := size_eq_plains_add c
  simp only [plainItems] at hroom
  omega

theorem Act.accounted
    (h : Act strict whole c c')
    (hc : Accounted c) :
    Accounted c' := by
  obtain ⟨hplain, hagg, hcand, hcounted, hi, hx, ha, hat, hp⟩ := id hc
  cases h with
  | note t depth hitems haggregates hcandidates hpredictions hattachments _ hattempts =>
    constructor <;>
      simp only [hitems, haggregates, hcandidates, hpredictions, hattachments] <;>
      first | assumption | exact Nat.le_trans hat hattempts
  | refuse => exact ⟨hplain, hagg, hcand, hcounted, hi, hx, ha, hat, hp⟩
  | allocateItem hroom =>
    have hnew := hc.room hroom
    constructor <;> simp [pushItem, aggregates] at * <;> omega
  | predict hroom =>
    have hnew := hc.room hroom
    constructor <;> simp [pushPredicted, pushItem, count, aggregates] at * <;> omega
  | allocateAggregate hroom =>
    constructor <;> simp [pushAggregate, pushItem, count, aggregates] at * <;> omega
  | store hroom =>
    simp only [candidatesFull, decide_eq_false_iff_not, Nat.not_le] at hroom
    constructor <;> simp [pushCandidate, aggregates] at * <;> omega
  | join hroom =>
    simp only [candidatesFull, decide_eq_false_iff_not, Nat.not_le] at hroom
    constructor <;> simp [pushAttached, pushCandidate, count, aggregates] at * <;> omega
  | fill f _ haggregate =>
    exact hc.of_eq rfl (size_items_modifyItem c _ f) (aggregates_modifyItem haggregate) rfl rfl rfl
  | pool => exact hc.of_eq rfl (size_items_modifyItem c _ _) (aggregates_modifyItem rfl) rfl rfl rfl
  | fix => exact hc.of_eq rfl (size_items_modifyItem c _ _) (aggregates_modifyItem rfl) rfl rfl rfl
  | enclose =>
    exact hc.of_eq rfl (size_items_modifyItem c _ _) (aggregates_modifyItem rfl) rfl
      (size_candidates_modifyCandidate _ _ _) rfl
  | settle => exact hc.of_eq rfl rfl rfl rfl (size_candidates_modifyCandidate _ _ _) rfl
  | @register u =>
    rcases register_cases c u with ⟨heq, -⟩ | ⟨b, p, d, m, f, t, -, heq⟩ <;> rw [heq]
    · exact hc
    · exact hc.of_eq rfl (size_items_modifyItem c _ _) (aggregates_modifyItem rfl) rfl rfl rfl
  | select => exact hc.of_eq rfl rfl rfl rfl rfl rfl

theorem Acts.accounted
    (h : Acts strict whole c c')
    (hc : Accounted c) :
    Accounted c' := by
  induction h with
  | refl => exact hc
  | tail _ hact ih => exact hact.accounted ih

/-- An operation that is not a reset is made of acts. -/
theorem Operation.apply_acts
    (op : Operation)
    (hnames : op.Names c)
    (hop : op ≠ .input .reset) :
    Acts False True c (op.apply c) :=
  (compositional_acts False).operation c op hnames hop

theorem Operated.accounted
    (h : Operated g s c) :
    c.settings = s ∧ Accounted c := by
  induction h with
  | new => exact ⟨rfl, accounted_new g s⟩
  | @operation c _ op hnames ih =>
    by_cases hop : op = .input .reset
    · rw [hop]
      exact ⟨ih.1, accounted_new c.grammar c.settings⟩
    · have hacts := Operation.apply_acts op hnames hop
      exact ⟨hacts.grammar.2.trans ih.1, hacts.accounted ih.2⟩

/-- A refused allocation is counted, and changes nothing else. -/
theorem Refuses.eq_refused
    (h : c.Refuses c') :
    c' = c.refused := by
  cases h with
  | item h =>
    rcases allocateItem_cases c with ⟨-, heq⟩ | heq <;> rw [heq] at h <;> cases h
    rfl
  | aggregate h =>
    rcases allocateAggregate_cases c with ⟨-, heq⟩ | heq <;> rw [heq] at h <;> cases h
    rfl
  | @candidate x _ h =>
    rcases store_cases c x with ⟨-, heq⟩ | heq <;> rw [heq] at h <;> cases h
    rfl

/-- An allocation is granted: there is room for one entry, and it is appended. -/
inductive Grants (c c' : Chart) : Prop
  | item
      (hroom : c.plainItems < c.settings.itemCapacity)
      (hitems : c'.items = c.items.push {})
      (hcandidates : c'.candidates = c.candidates)
  | aggregate
      (hroom : c.aggregateCount < c.settings.aggregateCapacity)
      (hitems : c'.items = c.items.push { isAggregate := true })
      (hcandidates : c'.candidates = c.candidates)
  | candidate
      (x : Candidate)
      (hroom : c.candidates.size < c.settings.candidateCapacity)
      (hitems : c'.items = c.items)
      (hcandidates : c'.candidates = c.candidates.push x)

/-- An act is a refused allocation, or counts none; and it appends what has been granted only. -/
theorem Act.grants_cases
    (h : Act strict whole c c') :
    c.Refuses c' ∨ c'.tally.refusals = c.tally.refusals ∧
      (c.Grants c' ∨ c'.items.size = c.items.size ∧ c'.candidates.size = c.candidates.size) := by
  rcases h.refusals_cases with hrefuses | hsame
  · exact Or.inl hrefuses
  refine Or.inr ⟨hsame, ?_⟩
  cases h with
  | allocateItem hroom => exact Or.inl (.item hroom rfl rfl)
  | predict hroom => exact Or.inl (.item hroom rfl rfl)
  | allocateAggregate hroom => exact Or.inl (.aggregate hroom rfl rfl)
  | @store x hroom =>
    simp only [candidatesFull, decide_eq_false_iff_not, Nat.not_le] at hroom
    exact Or.inl (.candidate x hroom rfl rfl)
  | @join x hroom =>
    simp only [candidatesFull, decide_eq_false_iff_not, Nat.not_le] at hroom
    exact Or.inl (.candidate x hroom rfl rfl)
  | fill => exact Or.inr ⟨size_items_modifyItem c _ _, rfl⟩
  | pool => exact Or.inr ⟨size_items_modifyItem c _ _, rfl⟩
  | fix => exact Or.inr ⟨size_items_modifyItem c _ _, rfl⟩
  | enclose =>
    exact Or.inr ⟨size_items_modifyItem c _ _, size_candidates_modifyCandidate _ _ _⟩
  | settle => exact Or.inr ⟨rfl, size_candidates_modifyCandidate _ _ _⟩
  | register => exact Or.inr ⟨size_items_register c _, size_candidates_register c _⟩
  | _ => exact Or.inr ⟨rfl, rfl⟩

section Requests

/-- What the parts of an operation ask room for. -/
inductive Request where
  /-- An item, for a token or a prediction. -/
  | item
  | aggregate
  | candidate (x : Candidate)
  /-- The leaf of an item that gets its place from a token. -/
  | leaf (u : ItemId) (symbol : Option SymbolId) (t : Token)
  /-- A parent with a child. -/
  | joined
      (parent child : CandidateId)
      (r : Relation)
      (make : Candidate → Candidate → Candidate)
  /-- An aggregate, and the candidate of it. -/
  | wrapper (x : CandidateId)
  /-- A candidate without the children of an item. -/
  | reduced (x : CandidateId) (u : ItemId)
  | repointed (x : CandidateId) (r : Relation) (newer : CandidateId)
  /-- What stands over the candidates of the level below. -/
  | lifted (u : ItemId) (r : Relation) (below : ItemId)
  /-- What a placeholder holds. -/
  | foreseen (u : ItemId) (r : Relation) (child : ItemId)

namespace Request

/-- What is left of the chart by the part of the operation that asks. -/
def serve (c : Chart) : Request → Chart
  | item => c.allocateItem.2
  | aggregate => c.allocateAggregate.2
  | candidate x => (c.store x).2
  | leaf u symbol t => (c.instantiate u symbol t).2
  | joined parent child r make => (c.tryAttach parent child r make).2
  | wrapper x => c.wrap x
  | reduced x u => (c.detach x u).2
  | repointed x r newer => (c.repoint x r newer).2
  | lifted u r below => (liftAll u r c (c.item below).pool).2
  | foreseen u r child =>
    (liftPool u r c ((c.item child).pool.take c.settings.beamWidth)).2

/-- Room is asked for, and there is not enough of it. -/
def LacksRoom (c : Chart) : Request → Prop
  | item => c.settings.itemCapacity ≤ c.plainItems
  | aggregate => c.settings.aggregateCapacity ≤ c.aggregateCount
  | candidate _ => c.candidatesFull = true
  | leaf _ symbol _ =>
    (∃ id s, (symbol.filter fun s => s ≠ unrecognized) = some id ∧
      c.grammar.symbol? id = some s) ∧ c.candidatesFull = true
  | joined parent child r _ =>
    (c.candidate parent).slot r = none ∧
      (c.candidate parent).coverage.intersects (c.candidate child).coverage = false ∧
      c.candidatesFull = true
  | wrapper x =>
    c.settings.aggregateCapacity ≤ c.aggregateCount ∨
      (c.candidate x).span?.isSome ∧ c.candidatesFull = true
  | reduced x u => (∃ r, c.Holds x r u) ∧ c.candidatesFull = true
  | repointed x r newer =>
    (∃ t, (c.candidate x).slot r = some t ∧
      ((c.candidate x).detach r (c.candidate t.child)).coverage.intersects
        (c.candidate newer).coverage = false) ∧ c.candidatesFull = true
  | lifted _ _ below =>
    c.settings.candidateCapacity < c.candidates.size + (c.item below).pool.length
  | foreseen _ _ child =>
    c.settings.candidateCapacity < c.candidates.size +
      ((c.item child).pool.take c.settings.beamWidth).countP fun x =>
        !(c.candidate x).isEmpty

end Request

/-- One refusal is counted if room is lacking, and none otherwise. -/
def Charges (c : Chart) (lacking : Prop) (c' : Chart) : Prop :=
  lacking ∧ c'.tally.refusals = c.tally.refusals + 1 ∨
    ¬ lacking ∧ c'.tally.refusals = c.tally.refusals

theorem liftAll_charges
    {r : Relation}
    (hsize : c.candidates.size ≤ c.settings.candidateCapacity)
    (pool : List CandidateId) :
    c.Charges (c.settings.candidateCapacity < c.candidates.size + pool.length)
      (liftAll u r c pool).2 := by
  induction pool generalizing c with
  | nil => exact Or.inr ⟨by simpa using hsize, rfl⟩
  | cons x rest ih =>
    rcases liftAll_cons c u r x rest with ⟨hfull, heq⟩ | ⟨c₁, hroom, rfl, heq⟩
    · left
      simp only [candidatesFull, decide_eq_true_eq] at hfull
      rw [heq, List.length_cons]
      exact ⟨by omega, rfl⟩
    · simp only [candidatesFull, decide_eq_false_iff_not, Nat.not_le] at hroom
      have hrest := ih
        (c := c.pushCandidate ((Candidate.seed u).attach r ⟨x, 0⟩ (c.candidate x)))
        (by rw [size_candidates_pushCandidate]; exact hroom)
      rw [heq, List.length_cons]
      rw [size_candidates_pushCandidate, Nat.add_assoc, Nat.add_comm 1] at hrest
      exact hrest

theorem liftPool_charges
    {r : Relation}
    (hsize : c.candidates.size ≤ c.settings.candidateCapacity)
    {pool : List CandidateId}
    (hpool : ∀ x ∈ pool, c.Has x) :
    c.Charges (c.settings.candidateCapacity <
        c.candidates.size + pool.countP fun x => !(c.candidate x).isEmpty)
      (liftPool u r c pool).2 := by
  induction pool generalizing c with
  | nil => exact Or.inr ⟨by simpa using hsize, rfl⟩
  | cons x rest ih =>
    have hrest := fun y hy => hpool y (List.mem_cons_of_mem x hy)
    unfold liftPool
    cases hempty : (c.candidate x).isEmpty with
    | true =>
      rw [List.countP_cons_of_neg (by simp [hempty])]
      simpa only [hempty, if_true] using ih hsize hrest
    | false =>
      rw [List.countP_cons_of_pos (by simp [hempty])]
      cases hfull : c.candidatesFull with
      | true =>
        simp only [hempty, store_of_full hfull, if_false, Bool.false_eq_true]
        simp only [candidatesFull, decide_eq_true_eq] at hfull
        exact Or.inl ⟨by omega, rfl⟩
      | false =>
        simp only [hempty, store_of_room hfull, if_false, Bool.false_eq_true]
        simp only [candidatesFull, decide_eq_false_iff_not, Nat.not_le] at hfull
        have hkept : ∀ w, rest.countP (fun y => !((c.pushCandidate w).candidate y).isEmpty) =
            rest.countP fun y => !(c.candidate y).isEmpty := fun w =>
          List.countP_congr fun y hy => by
            rw [candidate_pushCandidate, if_neg (ne_nextCandidate (hrest y hy))]
        have hlater := ih
          (c := c.pushCandidate ((Candidate.seed u).attach r ⟨x, 0⟩ (c.candidate x)))
          (by rw [size_candidates_pushCandidate]; exact hfull)
          fun y hy => by
            rw [Has, size_candidates_pushCandidate]
            exact Nat.lt_succ_of_lt (hrest y hy)
        rw [hkept, size_candidates_pushCandidate, Nat.add_assoc, Nat.add_comm 1] at hlater
        exact hlater

theorem allocateItem_charges (c : Chart) :
    c.Charges (Request.item.LacksRoom c) c.allocateItem.2 := by
  by_cases hfull : c.settings.itemCapacity ≤ c.plainItems
  · rw [allocateItem_of_full hfull]
    exact Or.inl ⟨hfull, rfl⟩
  · rw [allocateItem, if_neg hfull]
    exact Or.inr ⟨hfull, rfl⟩

theorem allocateAggregate_charges (c : Chart) :
    c.Charges (Request.aggregate.LacksRoom c) c.allocateAggregate.2 := by
  by_cases hfull : c.settings.aggregateCapacity ≤ c.aggregateCount
  · rw [allocateAggregate_of_full hfull]
    exact Or.inl ⟨hfull, rfl⟩
  · rw [allocateAggregate, if_neg hfull]
    exact Or.inr ⟨hfull, rfl⟩

theorem store_charges (c : Chart) (x : Candidate) :
    c.Charges ((Request.candidate x).LacksRoom c) (c.store x).2 := by
  cases hfull : c.candidatesFull with
  | true =>
    rw [store_of_full hfull]
    exact Or.inl ⟨hfull, rfl⟩
  | false =>
    rw [store_of_room hfull]
    exact Or.inr ⟨ne_true_of_eq_false hfull, rfl⟩

theorem instantiate_charges
    (c : Chart)
    (u : ItemId)
    (symbol : Option SymbolId)
    (t : Token) :
    c.Charges ((Request.leaf u symbol t).LacksRoom c) (c.instantiate u symbol t).2 := by
  cases filling c u symbol t with
  | placed hundefined heq =>
    rw [heq]
    refine Or.inr ⟨?_, rfl⟩
    rintro ⟨⟨id, s, hsymbol, hdefined⟩, -⟩
    rw [hundefined id hsymbol] at hdefined
    cases hdefined
  | exhausted hsymbol hdefined hfull heq =>
    rw [heq]
    exact Or.inl ⟨⟨⟨_, _, hsymbol, hdefined⟩, hfull⟩, rfl⟩
  | filled _ _ hroom heq =>
    rw [heq]
    exact Or.inr ⟨fun h => ne_true_of_eq_false hroom h.2, rfl⟩

theorem tryAttach_charges
    (c : Chart)
    (p d : CandidateId)
    (r : Relation)
    (make : Candidate → Candidate → Candidate) :
    c.Charges ((Request.joined p d r make).LacksRoom c) (c.tryAttach p d r make).2 := by
  cases trial c p d r make with
  | slotTaken hslot heq =>
    rw [heq]
    refine Or.inr ⟨?_, rfl⟩
    rintro ⟨hfree, -⟩
    rw [hfree] at hslot
    cases hslot
  | conflict _ hmeet heq =>
    rw [heq]
    refine Or.inr ⟨?_, rfl⟩
    rintro ⟨-, happart, -⟩
    rw [happart] at hmeet
    cases hmeet
  | exhausted hslot happart hfull heq =>
    rw [heq]
    exact Or.inl ⟨⟨hslot, happart, hfull⟩, rfl⟩
  | attached _ _ hroom heq =>
    rw [heq]
    exact Or.inr ⟨fun h => ne_true_of_eq_false hroom h.2.2, rfl⟩

/-- An aggregate may be granted, and the candidate of it refused, but not both refused. -/
theorem wrap_charges (c : Chart) (x : CandidateId) :
    c.Charges ((Request.wrapper x).LacksRoom c) (c.wrap x) := by
  cases enclosure c x with
  | refused hfull heq =>
    have hspent : c.settings.aggregateCapacity ≤ c.aggregateCount := by
      by_contra hroom
      rw [allocateAggregate, if_neg hroom] at hfull
      cases hfull
    rw [heq]
    exact Or.inl ⟨Or.inl hspent, rfl⟩
  | spanless hroom hspan heq =>
    rw [heq]
    refine Or.inr ⟨?_, rfl⟩
    rintro (hspent | ⟨hsome, -⟩)
    · exact Nat.not_lt.2 hspent hroom
    · rw [hspan] at hsome
      cases hsome
  | exhausted _ hspan hfull heq =>
    rw [heq]
    exact Or.inl ⟨Or.inr ⟨hspan, hfull⟩, rfl⟩
  | enclosed _ hroom _ hspare heq =>
    rw [heq]
    refine Or.inr ⟨?_, rfl⟩
    rintro (hspent | ⟨-, hfull⟩)
    · exact Nat.not_lt.2 hspent hroom
    · exact ne_true_of_eq_false hspare hfull

theorem detach_charges (c : Chart) (x : CandidateId) (u : ItemId) :
    c.Charges ((Request.reduced x u).LacksRoom c) (c.detach x u).2 := by
  cases detachment c x u with
  | kept hnone heq =>
    rw [heq]
    exact Or.inr ⟨fun h => h.1.elim hnone, rfl⟩
  | exhausted hholds hfull heq =>
    rw [heq]
    exact Or.inl ⟨⟨⟨_, hholds⟩, hfull⟩, rfl⟩
  | replaced _ hroom heq =>
    rw [heq]
    exact Or.inr ⟨fun h => ne_true_of_eq_false hroom h.2, rfl⟩

theorem repoint_charges
    (c : Chart)
    (x : CandidateId)
    (r : Relation)
    (newer : CandidateId) :
    c.Charges ((Request.repointed x r newer).LacksRoom c) (c.repoint x r newer).2 := by
  cases exchange c x r newer with
  | vacant hslot heq =>
    rw [heq]
    refine Or.inr ⟨?_, rfl⟩
    rintro ⟨⟨t, ht, -⟩, -⟩
    rw [hslot] at ht
    cases ht
  | conflict hslot hmeet heq =>
    rw [heq]
    refine Or.inr ⟨?_, rfl⟩
    rintro ⟨⟨t, ht, happart⟩, -⟩
    rw [hslot] at ht
    cases ht
    rw [happart] at hmeet
    cases hmeet
  | exhausted hslot happart hfull heq =>
    rw [heq]
    exact Or.inl ⟨⟨⟨_, hslot, happart⟩, hfull⟩, rfl⟩
  | replaced _ _ hroom heq =>
    rw [heq]
    exact Or.inr ⟨fun h => ne_true_of_eq_false hroom h.2, rfl⟩

/-- Each request counts one refusal where it lacks room, and none elsewhere. -/
theorem Request.charges
    (hsize : c.candidates.size ≤ c.settings.candidateCapacity)
    (hpools : ∀ v, ∀ x ∈ (c.item v).pool, c.Has x)
    (q : Request) :
    c.Charges (q.LacksRoom c) (q.serve c) := by
  cases q with
  | item => exact allocateItem_charges c
  | aggregate => exact allocateAggregate_charges c
  | candidate x => exact store_charges c x
  | leaf u symbol t => exact instantiate_charges c u symbol t
  | joined parent child r make => exact tryAttach_charges c parent child r make
  | wrapper x => exact wrap_charges c x
  | reduced x u => exact detach_charges c x u
  | repointed x r newer => exact repoint_charges c x r newer
  | lifted u r below => exact liftAll_charges hsize _
  | foreseen u r child =>
    exact liftPool_charges hsize fun x hx => hpools child x (List.mem_of_mem_take hx)

end Requests

/--
After any operations no reserve has outgrown its capacity and the tally agrees with
the arenas. A refused allocation counts as one refusal and adds nothing to any arena.
Where an operation asks for room, it counts one refusal if there is not enough of it, and
none if there is. Of the acts that an operation consists of, no other one counts as a
refusal, and none appends what has not been granted.
-/
theorem capacities_respected
    (h : Operated g s c) :
    (c.plains ≤ s.itemCapacity ∧ c.aggregates ≤ s.aggregateCapacity ∧
      c.candidates.size ≤ s.candidateCapacity) ∧
    (c.tally.items = c.items.size ∧ c.tally.candidates = c.candidates.size ∧
      c.tally.aggregates = c.aggregates ∧ c.plainItems = c.plains) ∧
    (c.tally.attachments ≤ c.tally.attempts ∧ c.tally.predictions ≤ c.plains) ∧
    (∀ c', c.Refuses c' → c'.tally.refusals = c.tally.refusals + 1 ∧
      c'.items = c.items ∧ c'.candidates = c.candidates ∧
      c'.aggregateCount = c.aggregateCount) ∧
    ((∀ q : Request, c.Charges (q.LacksRoom c) (q.serve c)) ∧
      ∀ connect u v id rule,
        (Request.item.LacksRoom c → predictWith connect c v id rule = c.refused) ∧
        ((Request.candidate (.seed u)).LacksRoom c → implyWith connect c u v rule = c.refused)) ∧
    ∀ op : Operation, op.Names c → op ≠ .input .reset →
      Relation.ReflTransGen (fun c c' => Act False True c c' ∧
        (c.Refuses c' ∨ c'.tally.refusals = c.tally.refusals ∧
          (c.Grants c' ∨ c'.items.size = c.items.size ∧
            c'.candidates.size = c.candidates.size))) c (op.apply c) := by
  obtain ⟨hsettings, hc⟩ := h.accounted
  have hsize := size_eq_plains_add c
  have hplain := hc.plain_le
  have hpredictions := hc.predictions_le
  refine ⟨⟨?_, ?_, ?_⟩, ⟨hc.items, hc.candidates, hc.aggregates, ?_⟩,
    ⟨hc.attachments_le, by omega⟩, fun c' hc' => ?_, ⟨?_, fun connect u v id rule => ⟨?_, ?_⟩⟩,
    fun op hnames hop => ?_⟩
  · rw [← hsettings]
    omega
  · rw [← hsettings]
    exact hc.aggregates_le
  · rw [← hsettings]
    exact hc.candidates_le
  · rw [plainItems, hc.counted]
    omega
  · rw [hc'.eq_refused]
    exact ⟨rfl, rfl, rfl, rfl⟩
  · exact Request.charges hc.candidates_le fun v x hx =>
      h.kept.sound.closed.has_of_mem hx
  · intro hfull
    rw [predictWith, allocateItem_of_full hfull]
  · intro hfull
    rw [implyWith, store_of_full hfull]
  · exact Relation.ReflTransGen.mono (fun _ _ hact => ⟨hact, Act.grants_cases hact⟩) _ _
      (Operation.apply_acts op hnames hop)

/-- Two tokens, where there is room for one item. -/
theorem capacities_respected_sample :
    Operated sampleGrammar { itemCapacity := 1 }
        ((new sampleGrammar { itemCapacity := 1 }).feeds
          [{ concept := 1, position := 0, extent := 1 },
            { concept := 2, position := 1, extent := 1 }]) ∧
      ((new sampleGrammar { itemCapacity := 1 }).feeds
          [{ concept := 1, position := 0, extent := 1 },
            { concept := 2, position := 1, extent := 1 }]).plains ≤ 1 ∧
      ((new sampleGrammar { itemCapacity := 1 }).feeds
          [{ concept := 1, position := 0, extent := 1 },
            { concept := 2, position := 1, extent := 1 }]).tally.refusals = 1 := by
  have hrun : Operated sampleGrammar { itemCapacity := 1 }
      ((new sampleGrammar { itemCapacity := 1 }).feeds
        [{ concept := 1, position := 0, extent := 1 },
          { concept := 2, position := 1, extent := 1 }]) :=
    (driven_feeds .new _).operated
  exact ⟨hrun, (capacities_respected hrun).1.1, by decide +kernel⟩

end Chart

end BeamChart
