import BeamChart.Proofs.Chart.Best
import BeamChart.Proofs.Chart.Cascade
import BeamChart.Proofs.Chart.Refitting
import BeamChart.Proofs.Chart.Termination

/-!
# Following an inner level

When an inner level of a tower has taken a child, the level above follows it: it
exchanges what it has of the level for the heaviest candidate that holds the child
(`Gains`). Candidates without the child are not pending, and so are not passed upwards
(`Enriched`). What the level above has had is therefore matched by something as heavy,
or the newer child is lighter than the older one (`tower_follows_level`).

That case is not excluded. A stem that has taken a large mark may be offered a small
one, and the word over it follows. An aggregate that is made for the stem is besides
offered to the word, once for each way to take a stem, and the word may end with less
than it had although the stem has become heavier (`level_lowers_tower`).
-/

namespace BeamChart

namespace Weight

/-- An exchange for something that is as heavy takes nothing away. -/
theorem le_exchange
    {a b c d : Weight}
    (hb : 0 ≤ b.toInt)
    (hc : 0 ≤ c.toInt)
    (h : b ≤ d) :
    a ≤ a - b - c + d + c := by
  have ha := a.lowest_le
  have ha' := a.le_highest
  have hc' := c.le_highest
  have hd' := d.le_highest
  rw [le_iff] at h ⊢
  simp only [toInt_sub, toInt_add, clamp, lowest, highest] at *
  omega

end Weight

namespace Chart

variable {g : Grammar} {s : Settings} {c c' : Chart} {u v p : ItemId} {r q : Relation}
variable {x n : CandidateId}

section Released

theorem slot_giveUp
    {z : Candidate}
    {q : Relation}
    {t : Slot}
    (h : (c.giveUp v z q).slot r = some t) :
    z.slot r = some t := by
  unfold giveUp at h
  split at h
  · split at h
    · exact Candidate.slot_of_slot_detach h
    · exact h
  · exact h

theorem slot_foldl_giveUp
    (relations : List Relation)
    {z : Candidate}
    {t : Slot}
    (h : (relations.foldl (c.giveUp v) z).slot r = some t) :
    z.slot r = some t := by
  induction relations generalizing z with
  | nil => exact h
  | cons q rest ih => exact slot_giveUp (ih h)

theorem giveUp_released
    {z : Candidate}
    {t : Slot}
    (h : (c.giveUp v z r).slot r = some t) :
    (c.candidate t.child).root ≠ v := by
  have hold := slot_giveUp h
  unfold giveUp at h
  rw [hold] at h
  dsimp only at h
  split at h
  · rw [Candidate.slot_detach_self] at h
    cases h
  · rename_i hother
    simpa [holdsItem] using hother

/-- What has been given up is not in any slot. -/
theorem foldl_giveUp_released
    (relations : List Relation)
    (z : Candidate)
    {t : Slot}
    (hmem : r ∈ relations)
    (h : (relations.foldl (c.giveUp v) z).slot r = some t) :
    (c.candidate t.child).root ≠ v := by
  induction relations generalizing z with
  | nil => cases hmem
  | cons q rest ih =>
    rcases List.mem_cons.1 hmem with rfl | hrest
    · exact giveUp_released (slot_foldl_giveUp rest h)
    · exact ih _ hrest h

theorem detach_released
    (hc : Closed c)
    (hx : c.Has x)
    (outcome : Option CandidateId)
    (h : (c.detach x v).1 = .ok outcome)
    (q : Relation) :
    ¬ (c.detach x v).2.Holds (outcome.getD x) q v := by
  by_cases hany : ∃ r, c.Holds x r v
  · obtain ⟨r, hr⟩ := hany
    have heq := detach_of_holds hr
    cases hfull : c.candidatesFull with
    | true =>
      rw [heq, hfull] at h
      cases h
    | false =>
      rw [heq, hfull] at h ⊢
      cases h
      rintro ⟨t, ht, hroot⟩
      have ht' : (c.withoutItem (c.candidate x) v).slot q = some t := by
        rw [← candidate_nextCandidate c (c.withoutItem (c.candidate x) v)]
        exact ht
      have hold : (c.candidate x).slot q = some t := slot_of_slot_withoutItem ht'
      refine foldl_giveUp_released Relation.all (c.candidate x) (Relation.mem_all q) ht' ?_
      rw [← hroot]
      exact ((Extends.pushCandidate c _).root (hc.has_child hx hold)).symm
  · have hnone : ∀ r, ¬ c.Holds x r v := fun r hr => hany ⟨r, hr⟩
    rw [detach_of_not_holds hnone] at h ⊢
    cases h
    exact hnone q

/-- None of the candidates that come back holds the child. -/
theorem detachAll_released
    (pool : List CandidateId)
    (hc : Sound False c)
    (hpool : c.RootedAt u pool) :
    ∀ kept changed, (c.detachAll v pool).1 = .ok (kept, changed) →
      ∀ y ∈ kept, ∀ q, ¬ (c.detachAll v pool).2.Holds y q v := by
  induction pool generalizing c with
  | nil =>
    intro kept changed h y hy
    cases h
    cases hy
  | cons x rest ih =>
    obtain ⟨hx, hroot⟩ := hpool x List.mem_cons_self
    have hdetach : Evolves False c (c.detach x v).2 ∧ _ := detach_spec hx fun h => h.elim
    obtain ⟨hsteps, hnew⟩ := hdetach
    have hfirst := detach_released (v := v) hc.closed hx
    unfold detachAll
    generalize c.detach x v = result at hsteps hnew hfirst ⊢
    obtain ⟨outcome, c₁⟩ := result
    cases outcome with
    | error e => exact fun kept changed h => by cases h
    | ok replaced =>
      have hc₁ : Sound False c₁ := hsteps.sound hc
      have hrest : c₁.RootedAt u rest :=
        hsteps.grows.rootedAt fun y hy => hpool y (List.mem_cons_of_mem x hy)
      have hhas : c₁.Has (replaced.getD x) := by
        cases replaced with
        | none => exact hsteps.grows.has hx
        | some id => exact (hnew id rfl).1
      have htail := (detachAll_spec (v := v) rest hc₁ hrest fun h => h.elim).1
      have hkept := ih hc₁ hrest
      dsimp only
      generalize c₁.detachAll v rest = result at htail hkept ⊢
      obtain ⟨outcome, c₂⟩ := result
      cases outcome with
      | error e => exact fun kept changed h => by cases h
      | ok pair =>
        obtain ⟨kept, changed⟩ := pair
        intro all flag h y hy q hholds
        cases h
        rcases List.mem_cons.1 hy with rfl | hmem
        · exact hfirst replaced rfl q ((holds_iff_of_extends hc₁.closed hhas htail.grows).1 hholds)
        · exact hkept kept changed rfl y hmem q hholds

end Released

section Offering

theorem items_stage_of_plain
    (c : Chart)
    {rule : Rule SymbolId}
    (hplain : rule.stackable = false)
    (staged : List CandidateId)
    (pairs : List (CandidateId × CandidateId)) :
    (c.stage rule staged pairs).2.items = c.items := by
  induction pairs generalizing c staged with
  | nil => rfl
  | cons e rest ih =>
    obtain ⟨p, d⟩ := e
    have hattach : (c.attach p d rule).2.items = c.items := by
      rcases attach_cases c p d rule with heq | ⟨hstackable, -⟩
      · rw [heq, items_tryAttach]
      · rw [hplain] at hstackable
        cases hstackable
    unfold stage
    split
    · rfl
    · split
      · exact ih c staged
      · generalize c.attach p d rule = result at hattach ⊢
        obtain ⟨outcome, c₁⟩ := result
        cases outcome with
        | attached id => exact (ih c₁ _).trans hattach
        | slotTaken => exact (ih c₁ _).trans hattach
        | conflict => exact (ih c₁ _).trans hattach
        | exhausted => exact hattach

/-- Up to where something is passed on, other pools are as they were. -/
theorem pool_offerHead
    (c : Chart)
    (v : ItemId)
    (rule : Rule SymbolId)
    {w : ItemId}
    (hne : w ≠ u)
    (hw : w.index < c.items.size) :
    ((c.offerHead u v rule).2.item w).pool = (c.item w).pool := by
  have hdetach := (adds_detachAll c v (c.item u).pool).1
  unfold offerHead
  generalize c.detachAll v (c.item u).pool = result at hdetach ⊢
  obtain ⟨outcome, c₁⟩ := result
  cases outcome with
  | error e => exact hdetach.pool w hw
  | ok pair =>
    obtain ⟨existing, changed⟩ := pair
    have hstage := adds_stage c₁ rule [] (existing.flatMap fun x => (c₁.item v).pool.map (x, ·))
    dsimp only
    generalize c₁.stage rule [] _ = result at hstage ⊢
    obtain ⟨staged, c₂⟩ := result
    have hpool : (c₂.item w).pool = (c.item w).pool := (hdetach.trans hstage).pool w hw
    have hset : ((c₂.setPool u (c₂.beam (staged ++ existing))).item w).pool = (c.item w).pool := by
      rw [setPool, item_modifyItem_of_ne _ (Ne.symm hne), hpool]
    dsimp only
    split
    · dsimp only
      split
      · exact hset
      · exact hpool
    · exact hset

/-- What an offer leaves to be passed on, if no aggregate has been made for it. -/
structure Enriched
    (c c' : Chart)
    (u v : ItemId)
    (r : Relation) : Prop where
  steps : Evolves False c c'
  unwrapped : Unwrapped c.candidates.size c'
  beam : Pool.IsBeam c'.candidate c'.settings.beamWidth (c'.item u).pool
  pending : ∀ x ∈ (c'.item u).pool, (c'.candidate x).pending = true ↔ c'.Holds x r v

theorem Adds.pool_eq
    (h : Adds c c')
    (hsize : c'.items.size = c.items.size)
    (w : ItemId) :
    (c'.item w).pool = (c.item w).pool := by
  by_cases hw : w.index < c.items.size
  · exact h.pool w hw
  · rw [item_of_size_le (by omega), item_of_size_le (by omega)]

/-- Without new items there are no new marks. -/
theorem Adds.unwrapped
    (h : Adds c c')
    (hsize : c'.items.size = c.items.size)
    (hanchored : Anchored c')
    (hsent : ∀ x, ¬ c.Unsent x) :
    Unwrapped c.candidates.size c' where
  candidates_le := h.candidates_le
  wrapper x hx := by
    rw [Option.eq_none_iff_forall_ne_some]
    intro a ha
    have hlow := h.wrapper x a (Nat.not_lt_of_le hx) ha
    have hhigh := hanchored.wrapper x a ha
    omega
  settled w x hx hlt := by
    rw [h.pool_eq hsize] at hx
    rw [h.candidate x hlt]
    exact eq_false_of_ne_true fun hpending => hsent x ⟨⟨w, hx⟩, hpending⟩

/-- An offer that has something to pass on has given up, attached and set the pool. -/
theorem offerHead_eq_true
    {rule : Rule SymbolId}
    {c₃ : Chart}
    (h : c.offerHead u v rule = (true, c₃)) :
    ∃ existing changed c₁ staged c₂,
      c.detachAll v (c.item u).pool = (.ok (existing, changed), c₁) ∧
        c₁.stage rule [] (existing.flatMap fun x => (c₁.item v).pool.map (x, ·)) = (staged, c₂) ∧
        c₂.setPool u (c₂.beam (staged ++ existing)) = c₃ := by
  unfold offerHead at h
  rcases hdetach : c.detachAll v (c.item u).pool with ⟨e | ⟨existing, changed⟩, c₁⟩
  · rw [hdetach] at h
    cases h
  rw [hdetach] at h
  dsimp only at h
  rcases hstage : c₁.stage rule [] (existing.flatMap fun x => (c₁.item v).pool.map (x, ·))
    with ⟨staged, c₂⟩
  rw [hstage] at h
  dsimp only at h
  split at h
  · cases h
  · exact ⟨existing, changed, c₁, staged, c₂, rfl, hstage, congrArg Prod.snd h⟩

section Staged

variable {rule : Rule SymbolId} {existing staged : List CandidateId} {changed : Bool}
variable {c₁ c₂ : Chart}

theorem size_items_staged
    (hdetach : c.detachAll v (c.item u).pool = (.ok (existing, changed), c₁))
    (hstage : c₁.stage rule [] (existing.flatMap fun x => (c₁.item v).pool.map (x, ·)) =
      (staged, c₂))
    (hplain : rule.stackable = false) :
    c₂.items.size = c.items.size := by
  have hdetachItems := items_detachAll c v (c.item u).pool
  have hstageItems := c₁.items_stage_of_plain hplain []
    (existing.flatMap fun x => (c₁.item v).pool.map (x, ·))
  rw [hdetach] at hdetachItems
  rw [hstage] at hstageItems
  rw [hstageItems, hdetachItems]

/-- Without new items, what has been kept is not passed on. -/
theorem unwrapped_staged
    (hanchored : Anchored c)
    (hsent : ∀ x, ¬ c.Unsent x)
    (hclosed : Closed c)
    (hdetach : c.detachAll v (c.item u).pool = (.ok (existing, changed), c₁))
    (hstage : c₁.stage rule [] (existing.flatMap fun x => (c₁.item v).pool.map (x, ·)) =
      (staged, c₂))
    (hsize : c₂.items.size = c.items.size) :
    Adds c c₂ ∧ Unwrapped c.candidates.size c₂ ∧
      (∀ x ∈ existing, (c₂.candidate x).pending = false) ∧
      ∀ x ∈ staged, (c₂.candidate x).pending = true := by
  obtain ⟨hdetachActs, hcalm⟩ := detachAll_acts False v (c.item u).pool (c := c)
  have hdetachAdds := (adds_detachAll c v (c.item u).pool).1
  rw [hdetach] at hdetachActs hcalm hdetachAdds
  obtain ⟨hstageActs, hawaits⟩ := stage_acts False rule [] (c := c₁)
    (existing.flatMap fun x => (c₁.item v).pool.map (x, ·)) fun _ h => by cases h
  have hstageAdds := adds_stage c₁ rule [] (existing.flatMap fun x => (c₁.item v).pool.map (x, ·))
  rw [hstage] at hstageActs hawaits hstageAdds
  have hadds : Adds c c₂ := hdetachAdds.trans hstageAdds
  have hunwrapped : Unwrapped c.candidates.size c₂ :=
    hadds.unwrapped hsize ((hdetachActs.trans hstageActs).serves hanchored).anchored hsent
  refine ⟨hadds, hunwrapped, fun x hx => ?_, fun x hx => (hawaits x hx).pending⟩
  rcases hcalm existing changed rfl x hx with hold | hidle
  · exact hunwrapped.settled u x (by rw [hadds.pool_eq hsize]; exact hold)
      (hclosed.has_of_mem hold)
  · exact (hstageActs.idle hidle).pending

end Staged

/-- An offer for which no aggregate is made leaves pending what holds the child. -/
theorem offerHead_enriched
    {rule : Rule SymbolId}
    {c₃ : Chart}
    (hc : Sound False c)
    (hanchored : Anchored c)
    (hsent : ∀ x, ¬ c.Unsent x)
    (hhead : c.offerHead u v rule = (true, c₃))
    (hsize : rule.stackable = true → c₃.items.size = c.items.size) :
    Enriched c c₃ u v rule.relation := by
  obtain ⟨existing, changed, c₁, staged, c₂, hdetach, hstage, rfl⟩ := offerHead_eq_true hhead
  have hsize₂ : c₂.items.size = c.items.size := by
    cases hplain : rule.stackable with
    | true => rw [← hsize hplain, setPool, size_items_modifyItem]
    | false => exact size_items_staged hdetach hstage hplain
  have hoffered := offered hc (fun h => h.elim) hdetach hstage
  obtain ⟨hadds, hunwrapped, hidle, hawaits⟩ :=
    unwrapped_staged hanchored hsent hc.closed hdetach hstage hsize₂
  have hreleased := detachAll_released (v := v) (c.item u).pool hc (hc.closed.pool u)
  have hstageAdds := adds_stage c₁ rule [] (existing.flatMap fun x => (c₁.item v).pool.map (x, ·))
  rw [hdetach] at hreleased
  rw [hstage] at hstageAdds
  have hmember := hoffered.mem_or_new hc.closed hstageAdds hdetach
  refine ⟨(hoffered.detached.trans hoffered.attached).trans (hoffered.pooled False.elim),
    hunwrapped.setPool fun x hx hlt => ?_, ?_, fun x hx => ?_⟩
  · rcases (hmember x (mem_of_mem_beam hx)).2 with hold | ⟨hnew, -⟩
    · exact hunwrapped.settled u x (by rw [hadds.pool_eq hsize₂]; exact hold) hlt
    · exact absurd hlt hnew
  · by_cases hu : u.index < c₂.items.size
    · rw [setPool, item_modifyItem_self _ hu]
      exact .ofList _ _ _
    · rw [item_of_size_le (by rw [setPool, size_items_modifyItem]; omega)]
      exact .nil _ _
  · change (c₂.candidate x).pending = true ↔ c₂.Holds x rule.relation v
    rcases List.mem_append.1 (mem_of_mem_beam (mem_of_mem_setPool hx)) with hnew | hold
    · obtain ⟨_, -, hgrown⟩ := hoffered.grown x hnew
      exact ⟨fun _ => (hgrown.holds _ _).2 (.inl ⟨rfl, rfl⟩), fun _ => hawaits x hnew⟩
    · refine ⟨fun hpending => ?_, fun hholds => ?_⟩
      · rw [hidle x hold] at hpending
        cases hpending
      · have hc₁ := hoffered.detached.sound hc
        refine absurd ?_ (hreleased existing changed rfl x hold rule.relation)
        exact (holds_iff_of_extends hc₁.closed (hoffered.rooted x hold).1
          hoffered.attached.grows).1 hholds

end Offering

theorem Rising.lt_of_mem_tower
    (hc : Rising c)
    (room : Nat)
    {e : ItemId × Relation}
    (he : e ∈ c.tower room u) :
    u.index < e.1.index := by
  induction room generalizing u with
  | zero => cases he
  | succ room ih =>
    unfold tower at he
    split at he
    · cases he
    · rename_i above r hfixed
      have hlater := (hc u above r hfixed).1
      rcases List.mem_cons.1 he with rfl | hmem
      · exact hlater
      · exact Nat.lt_trans hlater (ih hmem)

/-- The tower over an inner level starts with the level above, and goes on beyond it. -/
theorem Rising.tower_of_fixed
    (hc : Rising c)
    (hfixed : (c.item u).fixedParent = some (p, r)) :
    ∃ higher, c.tower c.items.size u = (p, r) :: higher ∧ c.Rises u ((p, r) :: higher) ∧
      ∀ w, w.index ≤ p.index → w ∉ higher.map Prod.fst := by
  obtain ⟨-, hlt⟩ := hc u p r hfixed
  obtain ⟨room, hroom⟩ : ∃ room, c.items.size = room + 1 := ⟨c.items.size - 1, by omega⟩
  refine ⟨c.tower room p, by rw [hroom, tower, hfixed], ⟨hfixed, rises_tower c room p⟩,
    fun w hw hmem => ?_⟩
  obtain ⟨e, he, rfl⟩ := List.mem_map.1 hmem
  exact Nat.not_lt_of_le hw (hc.lt_of_mem_tower room he)

/-- The heaviest of the candidates in a pool that hold the child. -/
structure Gains (c : Chart) (u v : ItemId) (r : Relation) (n : CandidateId) : Prop where
  mem : n ∈ (c.item u).pool
  holds : c.Holds n r v
  heaviest : ∀ y ∈ (c.item u).pool, c.Holds y r v → c.weightOf y ≤ c.weightOf n

/-- The level above is left alone, or follows the heaviest candidate that holds the child. -/
theorem Enriched.cascade
    (h : Enriched c c' u v q)
    (hsound : Sound False c)
    (hrising : Rising c')
    (hfixed : (c'.item u).fixedParent = some (p, r))
    (connect : Connector) :
    ((cascadeWith connect c' u).item p).pool = (c'.item p).pool ∨
      ∃ n, ¬ c.Has n ∧ (cascadeWith connect c' u).Gains u v q n ∧
        ∀ x ∈ (c'.item p).pool, ∃ y ∈ ((cascadeWith connect c' u).item p).pool,
          Succeeds c' (cascadeWith connect c' u) r u ((cascadeWith connect c' u).weightOf n) x y := by
  have hsound' := h.steps.sound hsound
  obtain ⟨hlater, -⟩ := hrising u p r hfixed
  obtain ⟨higher, htower, hrises, hbeyond⟩ := hrising.tower_of_fixed hfixed
  have hstays := climbWith_stays connect ((p, r) :: higher) h.unwrapped hsound' hrises
  have hsucceeds := climbWith_succeeds connect h.unwrapped hsound' hrises
    (hbeyond p (Nat.le_refl _)) h.beam.length_le
  unfold cascadeWith
  rw [htower]
  generalize climbWith connect ((p, r) :: higher) c' u = c'' at hstays hsucceeds ⊢
  refine hsucceeds.imp_right ?_
  rintro ⟨front, n, back, hpool, hfront, hn, hall⟩
  have hext := hstays.steps.grows
  have hu : (c''.item u).pool = (c'.item u).pool := by
    refine hstays.pool u fun hmem => ?_
    rcases List.mem_cons.1 hmem with rfl | hmem
    · exact Nat.lt_irrefl _ hlater
    · exact hbeyond u (Nat.le_of_lt hlater) hmem
  have hmem : n ∈ (c'.item u).pool := by
    rw [hpool]
    exact List.mem_append_right _ List.mem_cons_self
  have hhas := fun y hy => hsound'.closed.has_of_mem (u := u) (x := y) hy
  refine ⟨n, fun hold => ?_, ⟨?_, ?_, fun y hy hholds => ?_⟩, ?_⟩
  · rw [h.unwrapped.settled u n hmem hold] at hn
    cases hn
  · rw [hu]
    exact hmem
  · exact (holds_iff_of_extends hsound'.closed (hhas n hmem) hext).2 ((h.pending n hmem).1 hn)
  · -- what holds the child is pending, so it is not in front of the first pending one
    rw [hu] at hy
    have hpending := (h.pending y hy).2
      ((holds_iff_of_extends hsound'.closed (hhas y hy) hext).1 hholds)
    rw [hext.weightOf (hhas y hy), hext.weightOf (hhas n hmem)]
    have hfalling := h.beam.falling
    rw [hpool, List.pairwise_append, List.pairwise_cons] at hfalling
    rw [hpool] at hy
    rcases List.mem_append.1 hy with hearly | hlate
    · rw [hfront y hearly] at hpending
      cases hpending
    · rcases List.mem_cons.1 hlate with rfl | hback
      · exact Weight.le_refl _
      · exact hfalling.2.1.1 y hback
  · rw [hext.weightOf (hhas n hmem)]
    exact hall

/-- An offer leaves the level above alone, or it follows the heaviest that holds the child. -/
theorem offer_follows
    (hsound : Sound False c)
    (hanchored : Anchored c)
    (hsent : ∀ x, ¬ c.Unsent x)
    (hrising : Rising c)
    (rule : Rule SymbolId)
    (hplain : rule.stackable = true → (c.offer u v rule).2.items.size = c.items.size)
    (hfixed : (c.item u).fixedParent = some (p, r)) :
    ((c.offer u v rule).2.item p).pool = (c.item p).pool ∨
      ∃ n, ¬ c.Has n ∧ (c.offer u v rule).2.Gains u v rule.relation n ∧
        ∀ x ∈ (c.item p).pool, ∃ y ∈ ((c.offer u v rule).2.item p).pool,
          Succeeds c (c.offer u v rule).2 r u ((c.offer u v rule).2.weightOf n) x y := by
  obtain ⟨hlater, hlt⟩ := hrising u p r hfixed
  have hne : p ≠ u := by
    rintro rfl
    exact Nat.lt_irrefl _ hlater
  have hpool := c.pool_offerHead v rule hne hlt
  have hmaintains := (c.offerHead_maintains u v rule).1
  unfold offer at hplain ⊢
  rw [offerWith_eq] at hplain ⊢
  rcases hhead : c.offerHead u v rule with ⟨_ | _, c₃⟩
  · rw [hhead] at hpool
    exact .inl hpool
  rw [hhead] at hplain hpool hmaintains
  dsimp only at hplain hpool hmaintains ⊢
  have hsize : rule.stackable = true → c₃.items.size = c.items.size := by
    intro hstackable
    have hclimb : Acts False True c₃ (cascadeWith connect c₃ u) :=
      climbWith_acts (compositional_acts False).connect _ c₃ u
    exact Nat.le_antisymm (Nat.le_trans hclimb.items_le (Nat.le_of_eq (hplain hstackable)))
      hmaintains.items_le
  have henriched := offerHead_enriched hsound hanchored hsent hhead hsize
  rcases henriched.cascade hsound (hmaintains.rising hrising)
    ((hmaintains.fixedParent u).trans hfixed) connect with heq | ⟨n, hnew, hgains, hall⟩
  · exact .inl (heq.trans hpool)
  · refine .inr ⟨n, hnew, hgains, fun x hx => ?_⟩
    obtain ⟨y, hy, hsucceeds⟩ := hall x (by rw [hpool]; exact hx)
    exact ⟨y, hy, hsucceeds.of_extends henriched.steps.grows hsound.closed
      (hsound.closed.has_of_mem hx)⟩

/--
An inner level of a tower is offered a child, and no aggregate is made for it. Then every
candidate of the level above is matched by one that is as heavy, or else it held an older
candidate of the inner level, which has been exchanged for the heaviest one that has taken
the child. That one is lighter then, as long as what the older one brought was not
negative; and unless sums have been clamped, nothing is.
-/
theorem tower_follows_level
    (hrun : Driven g s c)
    (hscoring : s.scoring.Rewarding)
    (rule : Rule SymbolId)
    (hplain : rule.stackable = true → (c.offer u v rule).2.items.size = c.items.size)
    (hfixed : (c.item u).fixedParent = some (p, r))
    (hx : x ∈ (c.item p).pool) :
    (∃ y ∈ ((c.offer u v rule).2.item p).pool, c.weightOf x ≤ (c.offer u v rule).2.weightOf y) ∨
      ∃ t n, (c.candidate x).slot r = some t ∧ (c.candidate t.child).root = u ∧
        ¬ c.Has n ∧ (c.offer u v rule).2.Gains u v rule.relation n ∧
        (∃ y ∈ ((c.offer u v rule).2.item p).pool,
          c.weightWith x t ((c.offer u v rule).2.weightOf n) ≤
            (c.offer u v rule).2.weightOf y) ∧
        (0 ≤ (c.weightOf t.child).toInt → 0 ≤ t.bonus.toInt →
          ¬ c.weightOf t.child ≤ (c.offer u v rule).2.weightOf n) ∧
        (c.Unclamped → 0 ≤ (c.weightOf t.child).toInt ∧ 0 ≤ t.bonus.toInt) := by
  have hsound := hrun.operated.kept.sound
  obtain ⟨hanchored, hsent, -⟩ := hrun.served
  obtain ⟨hrising, -, -⟩ := hrun.settled
  have hhas := hsound.closed.has_of_mem hx
  have hext : Extends c (c.offer u v rule).2 :=
    (offerWith_evolves connect_evolves hsound fun h => h.elim).grows
  rcases offer_follows hsound hanchored hsent hrising rule hplain hfixed with
    heq | ⟨n, hfresh, hgains, hall⟩
  · refine .inl ⟨x, by rw [heq]; exact hx, ?_⟩
    rw [hext.weightOf hhas]
    exact Weight.le_refl _
  · obtain ⟨y, hy, hle | ⟨t, ht, hroot, hle⟩⟩ := hall x hx
    · exact .inl ⟨y, hy, hle⟩
    · by_cases hexchange : 0 ≤ (c.weightOf t.child).toInt ∧ 0 ≤ t.bonus.toInt ∧
        c.weightOf t.child ≤ (c.offer u v rule).2.weightOf n
      · obtain ⟨hchild, hbonus, hheavy⟩ := hexchange
        exact .inl ⟨y, hy, Weight.le_trans (Weight.le_exchange hchild hbonus hheavy) hle⟩
      · exact .inr ⟨t, n, ht, hroot, hfresh, hgains, ⟨y, hy, hle⟩,
          fun hchild hbonus hheavy => hexchange ⟨hchild, hbonus, hheavy⟩,
          fun hunclamped => (hrun.operated.balanced hscoring hunclamped x hhas).gaining r t ht⟩

section Sample

theorem rewarding_default : ({} : Scoring).Rewarding :=
  ⟨by decide, by decide, by decide⟩

/-- A word whose stem may still take the first mark. -/
def stemChart : Chart :=
  (new toweringDeclaration.built {}).feeds
    [{ concept := 1, position := 0, extent := 1 }, { concept := 3, position := 1, extent := 1 }]

def markRule : Rule SymbolId :=
  { relation := .property, target := 1 }

/-- The stem is heavier with the mark, and so is the word. -/
theorem tower_follows_level_sample :
    Driven toweringDeclaration.built {} stemChart ∧ ({} : Scoring).Rewarding ∧
      (stemChart.item ⟨2⟩).fixedParent = some (⟨3⟩, .run) ∧ ⟨4⟩ ∈ (stemChart.item ⟨3⟩).pool ∧
      ∃ y ∈ ((stemChart.offer ⟨2⟩ ⟨0⟩ markRule).2.item ⟨3⟩).pool,
        stemChart.weightOf ⟨4⟩ ≤ (stemChart.offer ⟨2⟩ ⟨0⟩ markRule).2.weightOf y := by
  have hrun : Driven toweringDeclaration.built {} stemChart := driven_feeds .new _
  have hfixed : (stemChart.item ⟨2⟩).fixedParent = some (⟨3⟩, .run) := by decide +kernel
  have hx : ⟨4⟩ ∈ (stemChart.item ⟨3⟩).pool := by decide +kernel
  have hslot : (stemChart.candidate ⟨4⟩).slot .run = some ⟨⟨2⟩, 0⟩ := by decide +kernel
  have hchild : stemChart.weightOf ⟨2⟩ = .ofInt 1 := by decide +kernel
  have hweights : ((stemChart.offer ⟨2⟩ ⟨0⟩ markRule).2.item ⟨2⟩).pool.map
      (stemChart.offer ⟨2⟩ ⟨0⟩ markRule).2.weightOf = [.ofInt 7, .ofInt 1] := by cbv
  have hheavy : ∀ n ∈ ((stemChart.offer ⟨2⟩ ⟨0⟩ markRule).2.item ⟨2⟩).pool,
      stemChart.weightOf ⟨2⟩ ≤ (stemChart.offer ⟨2⟩ ⟨0⟩ markRule).2.weightOf n := by
    intro n hn
    have hmem := List.mem_map_of_mem (f := (stemChart.offer ⟨2⟩ ⟨0⟩ markRule).2.weightOf) hn
    rw [hweights] at hmem
    rw [hchild]
    generalize (stemChart.offer ⟨2⟩ ⟨0⟩ markRule).2.weightOf n = weight at hmem ⊢
    have hall : ∀ w ∈ [Weight.ofInt 7, .ofInt 1], Weight.ofInt 1 ≤ w := by decide
    exact hall weight hmem
  refine ⟨hrun, rewarding_default, hfixed, hx, ?_⟩
  rcases tower_follows_level hrun rewarding_default markRule (fun h => by cases h) hfixed hx with
    hmatched | ⟨t, n, ht, -, -, hgains, -, hlight, -⟩
  · exact hmatched
  · rw [hslot] at ht
    cases ht
    exact absurd (hheavy n hgains.mem) (hlight (by decide +kernel) (by decide))

/-- A word over a stem that has taken a larger mark behind it. -/
def markedChart : Chart :=
  (new toweringDeclaration.built {}).feeds
    [{ concept := 1, position := 0, extent := 1 }, { concept := 3, position := 1, extent := 1 },
      { concept := 1, position := 2, extent := 2 }]

/-- A word that takes a stem in two ways, and other things in the same slots. -/
def stemsDeclaration : Declaration :=
  { symbols :=
      [{ name := "dot" },
        { name := "stem", rules := [{ relation := .run, target := "dot", placement := .after }] },
        { name := "word",
          rules := [{ relation := .property, target := "stem" },
            { relation := .argument, target := "stem" },
            { relation := .property, target := "short" },
            { relation := .argument, target := "wide" }],
          composition := some (.holding "word" .run (.single "stem")) },
        { name := "short" }, { name := "wide" }, { name := "mark" }] }

/-- A word that has taken a wide and a short thing, over an empty stem. -/
def stemsChart : Chart :=
  (new stemsDeclaration.built { beamWidth := 2 }).feeds
    [{ concept := 1, position := 3, extent := 1 }, { concept := 3, position := 5, extent := 0 },
      { concept := 5, position := 6, extent := 1 }, { concept := 4, position := 7, extent := 2 },
      { concept := 6, position := 0, extent := 3 }]

/--
A word follows its stem to the smaller mark that the stem has been offered last. Where an
aggregate is made for the stem, the word takes that as a property, and there is no room
left for what it had. It is then to take the aggregate as an argument: it gives up what
it has just taken, and the other slot is filled.
-/
theorem level_lowers_tower :
    (Driven toweringDeclaration.built {} markedChart ∧
      (markedChart.item ⟨2⟩).fixedParent = some (⟨3⟩, .run) ∧
      (markedChart.item ⟨3⟩).pool.map markedChart.weightOf = [.ofInt 14] ∧
      ((markedChart.offer ⟨2⟩ ⟨0⟩ markRule).2.item ⟨3⟩).pool.map
        (markedChart.offer ⟨2⟩ ⟨0⟩ markRule).2.weightOf = [.ofInt 7]) ∧
    (Driven stemsDeclaration.built { beamWidth := 2 } stemsChart ∧
      (stemsChart.item ⟨2⟩).fixedParent = some (⟨5⟩, .run) ∧
      (stemsChart.item ⟨5⟩).pool.map stemsChart.weightOf = [.ofInt 19, .ofInt 6] ∧
      ((stemsChart.offer ⟨2⟩ ⟨8⟩ { markRule with target := 6, stackable := true }).2.item
          ⟨5⟩).pool.map
        (stemsChart.offer ⟨2⟩ ⟨8⟩ { markRule with target := 6, stackable := true }).2.weightOf =
          [.ofInt 6]) :=
  ⟨⟨driven_feeds .new _, by cbv, by cbv, by cbv⟩, ⟨driven_feeds .new _, by cbv, by cbv, by cbv⟩⟩

end Sample

end Chart

end BeamChart
