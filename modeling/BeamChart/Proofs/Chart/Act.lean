import BeamChart.Chart.Absorb
import BeamChart.Proofs.Chart.Wrapping

/-!
# Acts

What an operation writes into a chart, told one entry at a time. An act needs no
invariant: it says no more than what the operation has just checked, or done, at
that place. It says more than a step about what is counted and what is registered:
only allocations change the counts of the arenas, a prediction is counted with its
item and an attachment with its attempt, and an item gets its place before it is
registered.

The parameters tell apart where an act may be made. A `strict` act belongs to an
input of symbols that the grammar has. A `whole` operation may also pass on what a pool
gained, which is not `Idle`, and let a tower grow; the parts of an operation up to
there do neither.

**Results.**
* `Act.refusals_cases`: what is counted as a refusal is one.
* `Act.idle`, `Act.registered`, `Act.pending`, `Act.wrapper`: what acts keep.
* `stage_acts`, `detachAll_acts` and their like: operations up to the point where
  something is passed on are made of acts.
-/

namespace BeamChart

namespace Chart

/-- The candidate is stored, has nothing to pass on and has no mark. -/
structure Idle (c : Chart) (x : CandidateId) : Prop where
  has : c.Has x
  pending : (c.candidate x).pending = false
  wrapper : (c.candidate x).wrapper = none

/-- The candidate is stored, and has still to be passed on. -/
structure Awaits (c : Chart) (x : CandidateId) : Prop where
  has : c.Has x
  pending : (c.candidate x).pending = true

/-- The candidates were there before, or are idle. -/
def Calm (c : Chart) (old pool : List CandidateId) : Prop :=
  ∀ x ∈ pool, x ∈ old ∨ c.Idle x

/-- The item is stored, or is the aggregate of some candidate. -/
def Nameable (c : Chart) (u : ItemId) : Prop :=
  u.index < c.items.size ∨ ∃ x, (c.candidate x).wrapper = some u

/-- Every tower rises to later items. -/
def Rising (c : Chart) : Prop :=
  ∀ u above r, (c.item u).fixedParent = some (above, r) →
    u.index < above.index ∧ above.index < c.items.size

/-- An allocation is refused. -/
inductive Refuses (c c' : Chart) : Prop
  | item
      {e : ChartError}
      (h : c.allocateItem = (.error e, c'))
  | aggregate
      {e : ChartError}
      (h : c.allocateAggregate = (.error e, c'))
  | candidate
      {x : Candidate}
      {e : ChartError}
      (h : c.store x = (.error e, c'))

theorem Refuses.of_full
    {c : Chart}
    (h : c.candidatesFull = true) :
    c.Refuses c.refused :=
  .candidate (store_of_full h (.seed c.nextItem))

/-- Appends what an attempt to attach has made. -/
def pushAttached (c : Chart) (x : Candidate) : Chart :=
  (c.pushCandidate x).count fun t =>
    { t with attempts := t.attempts + 1, attachments := t.attachments + 1 }

/-- Appends an item for a parent that is predicted. -/
def pushPredicted (c : Chart) : Chart :=
  (c.pushItem {}).count fun t => { t with predictions := t.predictions + 1 }

/-- One entry of a chart. -/
inductive Act (strict whole : Prop) : Chart → Chart → Prop
  /-- Something is counted that no other act counts, or the depth changes. -/
  | note
      {c : Chart}
      (t : Tally)
      (depth : Nat)
      (hitems : t.items = c.tally.items)
      (haggregates : t.aggregates = c.tally.aggregates)
      (hcandidates : t.candidates = c.tally.candidates)
      (hpredictions : t.predictions = c.tally.predictions)
      (hattachments : t.attachments = c.tally.attachments)
      (hrefusals : t.refusals = c.tally.refusals)
      (hattempts : c.tally.attempts ≤ t.attempts) :
      Act strict whole c { c with tally := t, depth }
  | refuse
      {c : Chart}
      (h : c.Refuses c.refused) :
      Act strict whole c c.refused
  | allocateItem
      {c : Chart}
      (hroom : c.plainItems < c.settings.itemCapacity) :
      Act strict whole c (c.pushItem {})
  | predict
      {c : Chart}
      (hroom : c.plainItems < c.settings.itemCapacity) :
      Act strict whole c c.pushPredicted
  | allocateAggregate
      {c : Chart}
      (hroom : c.aggregateCount < c.settings.aggregateCapacity) :
      Act strict whole c c.pushAggregate
  | store
      {c : Chart}
      {x : Candidate}
      (hroom : c.candidatesFull = false)
      (hfree : x.wrapper = none) :
      Act strict whole c (c.pushCandidate x)
  | join
      {c : Chart}
      {x : Candidate}
      (hroom : c.candidatesFull = false)
      (hfree : x.wrapper = none) :
      Act strict whole c (c.pushAttached x)
  /-- An item gets its place, or is seen. -/
  | fill
      {c : Chart}
      {u : ItemId}
      (f : Item → Item)
      (hitem : u.index < c.items.size)
      (haggregate : (f (c.item u)).isAggregate = (c.item u).isAggregate)
      (hregistered : (f (c.item u)).registered = (c.item u).registered)
      (hfixed : (f (c.item u)).fixedParent = (c.item u).fixedParent)
      (hpool : c.Calm (c.item u).pool (f (c.item u)).pool)
      (hstrict : strict → (c.item u).registered = false ∧
        ∀ s ∈ (f (c.item u)).symbol, s ∈ (c.item u).symbol ∨ s < c.grammar.size) :
      Act strict whole c (c.modifyItem u f)
  | pool
      {c : Chart}
      {u : ItemId}
      {pool : List CandidateId}
      (hpool : whole ∨ c.Calm (c.item u).pool pool) :
      Act strict whole c (c.setPool u pool)
  /-- A tower grows by a later item. -/
  | fix
      {c : Chart}
      {below u : ItemId}
      {r : Relation}
      (hwhole : whole)
      (hlater : below.index < u.index)
      (hitem : u.index < c.items.size) :
      Act strict whole c (c.modifyItem below fun i => { i with fixedParent := some (u, r) })
  | enclose
      {c : Chart}
      {a : ItemId}
      {x w : CandidateId}
      {start stop : Nat}
      (hitem : a.index < c.items.size)
      (hblank : c.item a = { isAggregate := true })
      (hx : (c.candidate x).pending = true)
      (hw : c.Idle w) :
      Act strict whole c (c.enclose a x w start stop)
  | settle
      {c : Chart}
      {x : CandidateId}
      (hwhole : whole) :
      Act strict whole c (c.settle x)
  | register
      {c : Chart}
      {u : ItemId}
      (hstrict : strict → c.Nameable u) :
      Act strict whole c (c.register u)
  | select
      {c : Chart} :
      Act strict whole c c.select.2

/-- Any number of acts. -/
def Acts (strict whole : Prop) : Chart → Chart → Prop :=
  Relation.ReflTransGen (Act strict whole)

variable {strict whole : Prop} {c c' c'' : Chart} {u : ItemId} {x : CandidateId}

/-- What is read of the candidates after an item has been registered. -/
@[simp] theorem candidate_register (c : Chart) (u : ItemId) (x : CandidateId) :
    (c.register u).candidate x = c.candidate x := by
  rcases register_cases c u with ⟨heq, -⟩ | ⟨b, p, d, m, f, t, -, heq⟩ <;> rw [heq]
  rfl

@[simp] theorem size_candidates_register (c : Chart) (u : ItemId) :
    (c.register u).candidates.size = c.candidates.size := by
  rcases register_cases c u with ⟨heq, -⟩ | ⟨b, p, d, m, f, t, -, heq⟩ <;> rw [heq]
  rfl

/-- What is read of an item after one has been registered, up to that mark. -/
theorem field_register
    {α : Type}
    (field : Item → α)
    (h : ∀ i : Item, field { i with registered := true } = field i)
    (u v : ItemId) :
    field ((c.register u).item v) = field (c.item v) := by
  rcases register_cases c u with ⟨heq, -⟩ | ⟨b, p, d, m, f, t, -, heq⟩ <;> rw [heq]
  exact field_modifyItem field (h _) v

@[simp] theorem size_items_register (c : Chart) (u : ItemId) :
    (c.register u).items.size = c.items.size := by
  rcases register_cases c u with ⟨heq, -⟩ | ⟨b, p, d, m, f, t, -, heq⟩ <;> rw [heq]
  exact size_items_modifyItem c u _

namespace Act

/-- What is counted as a refusal is one. -/
theorem refusals_cases
    (h : Act strict whole c c') :
    c.Refuses c' ∨ c'.tally.refusals = c.tally.refusals := by
  cases h with
  | note t depth _ _ _ _ _ hrefusals => exact Or.inr hrefusals
  | refuse hrefuses => exact Or.inl hrefuses
  | @register u =>
    right
    rcases register_cases c u with ⟨heq, -⟩ | ⟨b, p, d, m, f, t, -, heq⟩ <;> rw [heq]
    rfl
  | _ => exact Or.inr rfl

theorem grammar
    (h : Act strict whole c c') :
    c'.grammar = c.grammar ∧ c'.settings = c.settings := by
  cases h with
  | @register u =>
    rcases register_cases c u with ⟨heq, -⟩ | ⟨b, p, d, m, f, t, -, heq⟩ <;> rw [heq]
    · exact ⟨rfl, rfl⟩
    · exact ⟨rfl, rfl⟩
  | _ => exact ⟨rfl, rfl⟩

theorem items_le
    (h : Act strict whole c c') :
    c.items.size ≤ c'.items.size := by
  cases h with
  | allocateItem => simp [pushItem]
  | predict => simp [pushPredicted, pushItem, count]
  | allocateAggregate => simp [pushAggregate, pushItem, count]
  | fill => simp
  | pool => simp [setPool]
  | fix => simp
  | enclose => simp [Chart.enclose, modifyCandidate]
  | register => simp
  | _ => exact Nat.le_refl _

theorem candidates_le
    (h : Act strict whole c c') :
    c.candidates.size ≤ c'.candidates.size := by
  cases h with
  | store => simp
  | join => simp [pushAttached, count]
  | enclose => simp [Chart.enclose, modifyItem]
  | settle => simp [Chart.settle]
  | register => simp
  | _ => exact Nat.le_refl _

theorem has
    (h : Act strict whole c c')
    (hx : c.Has x) :
    c'.Has x :=
  Nat.lt_of_lt_of_le hx h.candidates_le

/-- A stored candidate is passed on at most once, and only by a whole operation. -/
theorem pending
    (h : Act strict whole c c')
    (hx : c.Has x) :
    (c'.candidate x).pending = (c.candidate x).pending ∨
      whole ∧ (c'.candidate x).pending = false := by
  cases h with
  | store =>
    left
    rw [candidate_pushCandidate, if_neg (ne_nextCandidate hx)]
  | join =>
    left
    rw [pushAttached, candidate_count, candidate_pushCandidate, if_neg (ne_nextCandidate hx)]
  | enclose =>
    left
    rw [Chart.enclose, candidate_modifyCandidate]
    split
    · rename_i hy
      rw [hy.1]
      rfl
    · rfl
  | settle hwhole =>
    rw [Chart.settle, candidate_modifyCandidate]
    split
    · exact Or.inr ⟨hwhole, rfl⟩
    · exact Or.inl rfl
  | register => exact Or.inl (by rw [candidate_register])
  | _ => exact Or.inl rfl

/-- A stored candidate gets no mark but that of an aggregate made for it while it is pending. -/
theorem wrapper
    (h : Act strict whole c c')
    (hx : c.Has x) :
    (c'.candidate x).wrapper = (c.candidate x).wrapper ∨ (c.candidate x).pending = true := by
  cases h with
  | store =>
    left
    rw [candidate_pushCandidate, if_neg (ne_nextCandidate hx)]
  | join =>
    left
    rw [pushAttached, candidate_count, candidate_pushCandidate, if_neg (ne_nextCandidate hx)]
  | enclose _ _ hpending =>
    rw [Chart.enclose, candidate_modifyCandidate]
    split
    · rename_i hy
      rw [hy.1]
      exact Or.inr hpending
    · exact Or.inl rfl
  | settle =>
    left
    rw [Chart.settle, candidate_modifyCandidate]
    split
    · rename_i hy
      rw [hy.1]
    · rfl
  | register => exact Or.inl (by rw [candidate_register])
  | _ => exact Or.inl rfl

/-- A mark is an old one, or that of an aggregate that is stored. -/
theorem wrapper_cases
    (h : Act strict whole c c')
    {a : ItemId}
    (ha : (c'.candidate x).wrapper = some a) :
    (c.candidate x).wrapper = some a ∨ a.index < c.items.size := by
  cases h with
  | store _ hfree =>
    rw [candidate_pushCandidate] at ha
    split at ha
    · rw [hfree] at ha
      cases ha
    · exact Or.inl ha
  | join _ hfree =>
    rw [pushAttached, candidate_count, candidate_pushCandidate] at ha
    split at ha
    · rw [hfree] at ha
      cases ha
    · exact Or.inl ha
  | enclose hitem =>
    rw [Chart.enclose, candidate_modifyCandidate] at ha
    split at ha
    · cases ha
      exact Or.inr hitem
    · exact Or.inl ha
  | settle =>
    rw [Chart.settle, candidate_modifyCandidate] at ha
    split at ha
    · rename_i hx
      rw [hx.1]
      exact Or.inl ha
    · exact Or.inl ha
  | register =>
    rw [candidate_register] at ha
    exact Or.inl ha
  | _ => exact Or.inl ha

theorem idle
    (h : Act strict whole c c')
    (hx : c.Idle x) :
    c'.Idle x where
  has := h.has hx.has
  pending := by
    rcases h.pending hx.has with heq | ⟨-, hfalse⟩
    · exact heq.trans hx.pending
    · exact hfalse
  wrapper := by
    rcases h.wrapper hx.has with heq | hpending
    · exact heq.trans hx.wrapper
    · rw [hx.pending] at hpending
      cases hpending

/-- What has been registered stays so. -/
theorem registered
    (h : Act strict whole c c')
    (hu : (c.item u).registered = true) :
    (c'.item u).registered = true := by
  have hpush : ∀ i : Item, i.registered = false → ((c.pushItem i).item u).registered = true :=
    fun i hi => (field_pushItem Item.registered i hi u).trans hu
  cases h with
  | allocateItem => exact hpush {} rfl
  | predict => exact hpush {} rfl
  | allocateAggregate => exact hpush { isAggregate := true } rfl
  | fill f _ _ hregistered => rwa [field_modifyItem Item.registered hregistered]
  | pool => rwa [setPool, field_modifyItem Item.registered rfl]
  | fix => rwa [field_modifyItem Item.registered rfl]
  | enclose => rwa [Chart.enclose, item_modifyCandidate, field_modifyItem Item.registered rfl]
  | @register v =>
    rcases register_cases c v with ⟨heq, -⟩ | ⟨b, p, d, m, f, t, -, heq⟩ <;> rw [heq]
    · exact hu
    · refine (congrArg Item.registered (item_modifyItem c v _ u)).trans ?_
      split
      · rfl
      · exact hu
  | _ => exact hu

/-- What is new in a pool is idle, unless something is passed on. -/
theorem pool_cases
    (h : Act strict False c c')
    (hx : x ∈ (c'.item u).pool) :
    x ∈ (c.item u).pool ∨ c'.Idle x := by
  have hidle : c.Idle x → c'.Idle x := h.idle
  have hpush : ∀ i : Item, i.pool = [] → x ∈ ((c.pushItem i).item u).pool →
      x ∈ (c.item u).pool := by
    intro i hi hmem
    rwa [field_pushItem Item.pool i hi] at hmem
  cases h with
  | allocateItem => exact Or.inl (hpush {} rfl hx)
  | predict => exact Or.inl (hpush {} rfl hx)
  | allocateAggregate => exact Or.inl (hpush { isAggregate := true } rfl hx)
  | fill f _ _ _ _ hpool =>
    rw [item_modifyItem] at hx
    split at hx
    · rename_i hu
      rw [hu.1]
      exact (hpool x hx).imp_right hidle
    · exact Or.inl hx
  | pool hpool =>
    rw [setPool, item_modifyItem] at hx
    split at hx
    · rename_i hu
      rw [hu.1]
      exact (hpool.resolve_left id x hx).imp_right hidle
    · exact Or.inl hx
  | fix hwhole => exact hwhole.elim
  | enclose _ _ _ hw =>
    rw [Chart.enclose, item_modifyCandidate, item_modifyItem] at hx
    split at hx
    · rename_i hu
      rw [hu.1]
      rcases List.mem_append.1 hx with hold | hnew
      · exact Or.inl hold
      · rw [List.mem_singleton.1 hnew] at hidle ⊢
        exact Or.inr (hidle hw)
    · exact Or.inl hx
  | register =>
    rw [field_register Item.pool fun _ => rfl] at hx
    exact Or.inl hx
  | settle hwhole => exact hwhole.elim
  | _ => exact Or.inl hx

/-- Only a whole operation changes a fixed parent, to a later item. -/
theorem fixedParent_cases
    (h : Act strict whole c c')
    (u : ItemId) :
    (c'.item u).fixedParent = (c.item u).fixedParent ∨
      whole ∧ ∃ above r, (c'.item u).fixedParent = some (above, r) ∧
        u.index < above.index ∧ above.index < c.items.size := by
  cases h with
  | allocateItem => exact Or.inl (field_pushItem Item.fixedParent {} rfl u)
  | predict => exact Or.inl (field_pushItem Item.fixedParent {} rfl u)
  | allocateAggregate =>
    exact Or.inl (field_pushItem (c := c) Item.fixedParent { isAggregate := true } rfl u)
  | fill f _ _ _ hfixed => exact Or.inl (field_modifyItem Item.fixedParent hfixed u)
  | pool => exact Or.inl (field_modifyItem Item.fixedParent rfl u)
  | @fix below above r hwhole hlater hitem =>
    rw [item_modifyItem]
    split
    · rename_i heq
      rw [heq.1]
      exact Or.inr ⟨hwhole, above, r, rfl, hlater, hitem⟩
    · exact Or.inl rfl
  | enclose => exact Or.inl (field_modifyItem Item.fixedParent rfl u)
  | register => exact Or.inl (field_register Item.fixedParent (fun _ => rfl) _ u)
  | _ => exact Or.inl rfl

theorem rising
    (h : Act strict whole c c')
    (hc : Rising c) :
    Rising c' := by
  intro u above r hu
  have hrises : u.index < above.index ∧ above.index < c.items.size := by
    rcases h.fixedParent_cases u with heq | ⟨-, p, q, hnew, hrises⟩
    · exact hc u above r (heq.symm.trans hu)
    · rw [hu] at hnew
      cases hnew
      exact hrises
  exact ⟨hrises.1, Nat.lt_of_lt_of_le hrises.2 h.items_le⟩

theorem weaken
    (h : Act strict False c c') :
    Act strict whole c c' := by
  cases h with
  | note t depth hitems haggregates hcandidates hpredictions hattachments hrefusals hattempts =>
    exact .note t depth hitems haggregates hcandidates hpredictions hattachments hrefusals
      hattempts
  | refuse hrefuses => exact .refuse hrefuses
  | allocateItem hroom => exact .allocateItem hroom
  | predict hroom => exact .predict hroom
  | allocateAggregate hroom => exact .allocateAggregate hroom
  | store hroom hfree => exact .store hroom hfree
  | join hroom hfree => exact .join hroom hfree
  | fill f hitem haggregate hregistered hfixed hpool hstrict =>
    exact .fill f hitem haggregate hregistered hfixed hpool hstrict
  | pool hpool => exact .pool (Or.inr (hpool.resolve_left id))
  | fix hwhole => exact hwhole.elim
  | enclose hitem hblank hx hw => exact .enclose hitem hblank hx hw
  | settle hwhole => exact hwhole.elim
  | register hstrict => exact .register hstrict
  | select => exact .select

end Act

namespace Acts

theorem refl (c : Chart) :
    Acts strict whole c c :=
  Relation.ReflTransGen.refl

theorem single
    (h : Act strict whole c c') :
    Acts strict whole c c' :=
  Relation.ReflTransGen.single h

theorem trans
    (h : Acts strict whole c c')
    (k : Acts strict whole c' c'') :
    Acts strict whole c c'' :=
  Relation.ReflTransGen.trans h k

theorem grammar
    (h : Acts strict whole c c') :
    c'.grammar = c.grammar ∧ c'.settings = c.settings := by
  induction h with
  | refl => exact ⟨rfl, rfl⟩
  | tail _ hact ih => exact ⟨hact.grammar.1.trans ih.1, hact.grammar.2.trans ih.2⟩

theorem items_le
    (h : Acts strict whole c c') :
    c.items.size ≤ c'.items.size := by
  induction h with
  | refl => exact Nat.le_refl _
  | tail _ hact ih => exact Nat.le_trans ih hact.items_le

theorem has
    (h : Acts strict whole c c')
    (hx : c.Has x) :
    c'.Has x := by
  induction h with
  | refl => exact hx
  | tail _ hact ih => exact hact.has ih

theorem idle
    (h : Acts strict whole c c')
    (hx : c.Idle x) :
    c'.Idle x := by
  induction h with
  | refl => exact hx
  | tail _ hact ih => exact hact.idle ih

/-- Passing on is the only thing that a candidate can wait for. -/
theorem pending
    (h : Acts strict whole c c')
    (hx : c.Has x)
    (hpending : (c'.candidate x).pending = true) :
    (c.candidate x).pending = true := by
  induction h with
  | refl => exact hpending
  | tail hacts hact ih =>
    rcases hact.pending (Acts.has hacts hx) with heq | ⟨-, hfalse⟩
    · exact ih (heq.symm.trans hpending)
    · rw [hfalse] at hpending
      cases hpending

theorem weaken
    (h : Acts strict False c c') :
    Acts strict whole c c' := by
  induction h with
  | refl => exact refl c
  | tail _ hact ih => exact ih.trans (single hact.weaken)

theorem registered
    (h : Acts strict whole c c')
    (hu : (c.item u).registered = true) :
    (c'.item u).registered = true := by
  induction h with
  | refl => exact hu
  | tail _ hact ih => exact hact.registered ih

theorem rising
    (h : Acts strict whole c c')
    (hc : Rising c) :
    Rising c' := by
  induction h with
  | refl => exact hc
  | tail _ hact ih => exact hact.rising ih

theorem pool_cases
    (h : Acts strict False c c')
    (hx : x ∈ (c'.item u).pool) :
    x ∈ (c.item u).pool ∨ c'.Idle x := by
  induction h with
  | refl => exact Or.inl hx
  | tail _ hact ih =>
    rcases hact.pool_cases hx with hold | hidle
    · exact (ih hold).imp_right hact.idle
    · exact Or.inr hidle

/-- Once it has been passed on, a candidate keeps its mark. -/
theorem wrapper_eq
    (h : Acts strict whole c c')
    (hx : c.Has x)
    (hsettled : (c.candidate x).pending = false) :
    (c'.candidate x).wrapper = (c.candidate x).wrapper := by
  induction h with
  | refl => rfl
  | tail hacts hact ih =>
    rcases hact.wrapper (Acts.has hacts hx) with heq | hpending
    · exact heq.trans ih
    · rw [Acts.pending hacts hx hpending] at hsettled
      cases hsettled

/-- Where no tower grows, fixed parents are those of before. -/
theorem fixedParent
    (h : Acts strict False c c')
    (u : ItemId) :
    (c'.item u).fixedParent = (c.item u).fixedParent := by
  induction h with
  | refl => rfl
  | tail _ hact ih => exact ((hact.fixedParent_cases u).resolve_right And.left).trans ih

/-- Where nothing is passed on, what is pending stays so. -/
theorem pending_eq
    (h : Acts strict False c c')
    (hx : c.Has x) :
    (c'.candidate x).pending = (c.candidate x).pending := by
  induction h with
  | refl => rfl
  | tail hacts hact ih =>
    exact ((hact.pending (Acts.has hacts hx)).resolve_right fun h => h.1).trans ih

theorem awaits
    (h : Acts strict False c c')
    (hx : c.Awaits x) :
    c'.Awaits x :=
  ⟨h.has hx.has, (h.pending_eq hx.has).trans hx.pending⟩

theorem count
    (c : Chart)
    (f : Tally → Tally)
    (hitems : (f c.tally).items = c.tally.items)
    (haggregates : (f c.tally).aggregates = c.tally.aggregates)
    (hcandidates : (f c.tally).candidates = c.tally.candidates)
    (hpredictions : (f c.tally).predictions = c.tally.predictions)
    (hattachments : (f c.tally).attachments = c.tally.attachments)
    (hrefusals : (f c.tally).refusals = c.tally.refusals)
    (hattempts : c.tally.attempts ≤ (f c.tally).attempts) :
    Acts strict whole c (c.count f) :=
  single (.note _ c.depth hitems haggregates hcandidates hpredictions hattachments hrefusals
    hattempts)

theorem refused
    (h : c.Refuses c.refused) :
    Acts strict whole c c.refused :=
  single (.refuse h)

/-- What is stored without a mark and with nothing to pass on is idle. -/
theorem store
    (strict : Prop)
    (c : Chart)
    {z : Candidate}
    (hfree : z.wrapper = none) :
    Acts strict False c (c.store z).2 ∧
      (z.pending = false → ∀ id, (c.store z).1 = .ok id → (c.store z).2.Idle id) := by
  rcases store_cases c z with ⟨hroom, heq⟩ | heq <;> rw [heq]
  · refine ⟨single (.store hroom hfree), fun hpending id hid => ?_⟩
    cases hid
    refine ⟨has_nextCandidate c z, ?_, ?_⟩ <;> rw [candidate_nextCandidate]
    · exact hpending
    · exact hfree
  · exact ⟨refused (.candidate heq), fun _ id hid => by cases hid⟩

end Acts

section Attaching

variable {p d : CandidateId} {r : Relation}

theorem tryAttach_acts
    {make : Candidate → Candidate → Candidate}
    (hmake : (make (c.candidate p) (c.candidate d)).wrapper = none) :
    Acts strict False c (c.tryAttach p d r make).2 := by
  cases trial c p d r make with
  | slotTaken _ heq =>
    simp only [heq]
    exact .count c _ rfl rfl rfl rfl rfl rfl (Nat.le_succ _)
  | conflict _ _ heq =>
    simp only [heq]
    exact .count c _ rfl rfl rfl rfl rfl rfl (Nat.le_succ _)
  | exhausted _ _ hfull heq =>
    simp only [heq]
    exact (Acts.count c _ rfl rfl rfl rfl rfl rfl (Nat.le_succ _)).trans (.refused (.of_full hfull))
  | attached _ _ hroom heq =>
    simp only [heq]
    exact .single (.join hroom hmake)

/-- The aggregate gets its place and its candidate before it is registered. -/
theorem wrap_acts
    (hx : c.Has x)
    (hpending : (c.candidate x).pending = true) :
    Acts strict False c (c.wrap x) := by
  have hpush : c.aggregateCount < c.settings.aggregateCapacity →
      Acts strict False c c.pushAggregate := fun hroom => .single (.allocateAggregate hroom)
  cases enclosure c x with
  | refused hfull heq =>
    rw [heq]
    exact .refused (.aggregate hfull)
  | spanless hroom _ heq =>
    rw [heq]
    exact hpush hroom
  | exhausted hroom _ hfull heq =>
    rw [heq]
    exact (hpush hroom).trans (.refused (.of_full hfull))
  | enclosed _ hroom _ hopen _ hstored =>
    rw [hstored hx]
    have hne : x ≠ c.pushAggregate.nextCandidate := ne_nextCandidate (c := c) hx
    refine ((hpush hroom).trans (.single (.store hopen rfl))).trans (.single (.enclose ?_ ?_ ?_ ?_))
    · simp [nextItem, pushAggregate, pushItem, pushCandidate, count]
    · rw [item_pushCandidate, item_pushAggregate, if_pos rfl]
    · rw [candidate_pushCandidate, if_neg hne, candidate_pushAggregate]
      exact hpending
    · refine ⟨has_nextCandidate c.pushAggregate _, ?_, ?_⟩ <;>
        exact congrArg _ (candidate_nextCandidate c.pushAggregate _)

/-- What has been attached is stored and has still to be passed on. -/
theorem attach_acts
    (strict : Prop)
    (c : Chart)
    (p d : CandidateId)
    (rule : Rule SymbolId) :
    Acts strict False c (c.attach p d rule).2 ∧
      ∀ id, (c.attach p d rule).1 = .attached id → (c.attach p d rule).2.Awaits id := by
  have htry : Acts strict False c
      (c.tryAttach p d rule.relation (c.joined d rule.relation)).2 :=
    tryAttach_acts (wrapper_joined _ _ _ _ _)
  have hmade : ∀ id, (c.tryAttach p d rule.relation (c.joined d rule.relation)).1 = .attached id →
      (c.tryAttach p d rule.relation (c.joined d rule.relation)).2.Awaits id := by
    intro id hid
    obtain ⟨-, hhas, heq⟩ := tryAttach_attached hid
    exact ⟨hhas, by rw [heq]; rfl⟩
  rcases attach_cases c p d rule with heq | ⟨-, c₁, hattached, heq⟩ <;> rw [heq]
  · exact ⟨htry, hmade⟩
  · rw [hattached] at htry hmade
    have hid : c₁.Awaits c.nextCandidate := hmade _ rfl
    have hwrap : Acts strict False c₁ (c₁.wrap c.nextCandidate) := wrap_acts hid.has hid.pending
    refine ⟨htry.trans hwrap, fun y hy => ?_⟩
    cases hy
    exact hwrap.awaits hid

theorem stage_acts
    (strict : Prop)
    (rule : Rule SymbolId)
    (staged : List CandidateId)
    (pairs : List (CandidateId × CandidateId))
    (hstaged : ∀ x ∈ staged, c.Awaits x) :
    Acts strict False c (c.stage rule staged pairs).2 ∧
      ∀ x ∈ (c.stage rule staged pairs).1, (c.stage rule staged pairs).2.Awaits x := by
  induction pairs generalizing c staged with
  | nil => exact ⟨.refl c, hstaged⟩
  | cons e rest ih =>
    obtain ⟨hattach, hmade⟩ := attach_acts strict c e.1 e.2 rule
    unfold stage
    split
    · exact ⟨.refl c, hstaged⟩
    · split
      · exact ih staged hstaged
      · generalize c.attach e.1 e.2 rule = result at hattach hmade ⊢
        obtain ⟨outcome, c₁⟩ := result
        have hkept : ∀ x ∈ staged, c₁.Awaits x := fun x hx => hattach.awaits (hstaged x hx)
        cases outcome with
        | attached id =>
          obtain ⟨hrest, hall⟩ := ih (c := c₁) (staged ++ [id]) fun x hx => by
            rcases List.mem_append.1 hx with hold | hnew
            · exact hkept x hold
            · rw [List.mem_singleton.1 hnew]
              exact hmade id rfl
          exact ⟨hattach.trans hrest, hall⟩
        | exhausted => exact ⟨hattach, hkept⟩
        | slotTaken =>
          obtain ⟨hrest, hall⟩ := ih (c := c₁) staged hkept
          exact ⟨hattach.trans hrest, hall⟩
        | conflict =>
          obtain ⟨hrest, hall⟩ := ih (c := c₁) staged hkept
          exact ⟨hattach.trans hrest, hall⟩

/-- A replacement has nothing to pass on. -/
theorem detach_acts
    (strict : Prop)
    (c : Chart)
    (x : CandidateId)
    (u : ItemId) :
    Acts strict False c (c.detach x u).2 ∧
      ∀ id, (c.detach x u).1 = .ok (some id) → (c.detach x u).2.Idle id := by
  cases detachment c x u with
  | kept _ heq =>
    rw [heq]
    exact ⟨.refl c, fun id hid => by cases hid⟩
  | exhausted _ hfull heq =>
    rw [heq]
    exact ⟨.refused (.of_full hfull), fun id hid => by cases hid⟩
  | replaced hholds hroom heq =>
    obtain ⟨s, hslot, hroot⟩ := hholds
    obtain ⟨hfree, hpending⟩ := unmarked_withoutItem hslot hroot
    rw [heq]
    refine ⟨.single (.store hroom hfree), fun id hid => ?_⟩
    cases hid
    refine ⟨has_nextCandidate c _, ?_, ?_⟩ <;> dsimp only <;> rw [candidate_nextCandidate]
    · exact hpending
    · exact hfree

theorem detachAll_acts
    (strict : Prop)
    (u : ItemId)
    (pool : List CandidateId) :
    Acts strict False c (c.detachAll u pool).2 ∧
      ∀ kept changed, (c.detachAll u pool).1 = .ok (kept, changed) →
        (c.detachAll u pool).2.Calm pool kept := by
  induction pool generalizing c with
  | nil =>
    refine ⟨.refl c, fun kept changed h y hy => ?_⟩
    cases h
    cases hy
  | cons x rest ih =>
    obtain ⟨hfirst, hnew⟩ := detach_acts strict c x u
    unfold detachAll
    generalize c.detach x u = result at hfirst hnew ⊢
    obtain ⟨outcome, c₁⟩ := result
    cases outcome with
    | error e => exact ⟨hfirst, fun kept changed h => by cases h⟩
    | ok replaced =>
      obtain ⟨hrest, hkept⟩ := ih (c := c₁)
      dsimp only
      generalize c₁.detachAll u rest = result at hrest hkept ⊢
      obtain ⟨outcome, c₂⟩ := result
      cases outcome with
      | error e => exact ⟨hfirst.trans hrest, fun kept changed h => by cases h⟩
      | ok pair =>
        refine ⟨hfirst.trans hrest, fun kept changed h y hy => ?_⟩
        cases h
        rcases List.mem_cons.1 hy with rfl | hmem
        · cases replaced with
          | none => exact Or.inl List.mem_cons_self
          | some id => exact Or.inr (hrest.idle (hnew id rfl))
        · exact (hkept _ _ rfl y hmem).imp_left (List.mem_cons_of_mem x)

/-- What is put in the place of a candidate has still to be passed on. -/
theorem repoint_acts
    (strict : Prop)
    (c : Chart)
    (x : CandidateId)
    (r : Relation)
    (newer : CandidateId) :
    Acts strict False c (c.repoint x r newer).2 ∧
      ∀ id, (c.repoint x r newer).1 = .ok (some id) → (c.repoint x r newer).2.Awaits id := by
  cases exchange c x r newer with
  | vacant _ heq =>
    rw [heq]
    exact ⟨.refl c, fun id hid => by cases hid⟩
  | conflict _ _ heq =>
    simp only [heq]
    exact ⟨.count c _ rfl rfl rfl rfl rfl rfl (Nat.le_refl _), fun id hid => by cases hid⟩
  | exhausted _ _ hfull heq =>
    rw [heq]
    exact ⟨.refused (.of_full hfull), fun id hid => by cases hid⟩
  | replaced _ _ hroom heq =>
    rw [heq]
    refine ⟨.single (.store hroom rfl), fun id hid => ?_⟩
    cases hid
    exact ⟨has_nextCandidate c _, congrArg Candidate.pending (candidate_nextCandidate c _)⟩

/-- A refitted pool consists of old candidates and of some that have to be passed on. -/
theorem refitPool_acts
    {old : List CandidateId}
    (r : Relation)
    (child : ItemId)
    (newer : CandidateId)
    (kept : List CandidateId)
    (changed : Bool)
    (pool : List CandidateId)
    (hkept : ∀ x ∈ kept, x ∈ old ∨ c.Awaits x)
    (hpool : ∀ x ∈ pool, x ∈ old) :
    Acts strict False c (refitPool r child newer c kept changed pool).2 ∧
      ∀ all flag, (refitPool r child newer c kept changed pool).1 = .ok (all, flag) →
        ∀ x ∈ all, x ∈ old ∨ (refitPool r child newer c kept changed pool).2.Awaits x := by
  have hinsert : ∀ (c : Chart) (kept : List CandidateId) (y : CandidateId),
      (∀ x ∈ kept, x ∈ old ∨ c.Awaits x) → y ∈ old ∨ c.Awaits y →
      ∀ x ∈ Pool.insert c.candidate c.settings.beamWidth kept y, x ∈ old ∨ c.Awaits x := by
    intro c kept y hkept hy x hx
    rcases Pool.mem_insert hx with hmem | rfl
    · exact hkept x hmem
    · exact hy
  induction pool generalizing c kept changed with
  | nil =>
    refine ⟨.refl c, fun all flag h => ?_⟩
    cases h
    exact hkept
  | cons x rest ih =>
    have hx : x ∈ old := hpool x List.mem_cons_self
    have hrest : ∀ y ∈ rest, y ∈ old := fun y hy => hpool y (List.mem_cons_of_mem x hy)
    unfold refitPool
    split
    · obtain ⟨hfirst, hnew⟩ := repoint_acts strict c x r newer
      generalize c.repoint x r newer = result at hfirst hnew ⊢
      obtain ⟨outcome, c₁⟩ := result
      cases outcome with
      | error e => exact ⟨hfirst, fun all flag h => by cases h⟩
      | ok replaced =>
        have hreplaced : replaced.getD x ∈ old ∨ c₁.Awaits (replaced.getD x) := by
          cases replaced with
          | none => exact Or.inl hx
          | some id => exact Or.inr (hnew id rfl)
        have hkept₁ : ∀ y ∈ kept, y ∈ old ∨ c₁.Awaits y :=
          fun y hy => (hkept y hy).imp_right hfirst.awaits
        obtain ⟨htail, hall⟩ := ih (c := c₁) _ (changed || replaced.isSome)
          (hinsert c₁ kept _ hkept₁ hreplaced) hrest
        exact ⟨hfirst.trans htail, hall⟩
    · exact ih _ changed (hinsert c kept x hkept (Or.inl hx)) hrest

end Attaching

end Chart

end BeamChart
