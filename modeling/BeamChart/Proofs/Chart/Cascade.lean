import BeamChart.Proofs.Chart.Composition
import BeamChart.Proofs.Chart.Cover
import BeamChart.Proofs.Chart.Posted
import BeamChart.Proofs.Chart.Raising

/-!
# No gain is lost

What an item has gained is passed on from a copy of its pool, while the operations
that this sets off may replace the pool, pass on some of its candidates themselves,
and drop others. Two accounts are kept of the candidates in the pools: those that have
still to be passed on, and those that have been, but whose aggregate has not been
registered (`Stray`). No operation leaves more on either account than it found
(`Lossless`): what a pool is given is idle, or is passed on before the operation
returns (`climbWith_serves`). So between inputs both accounts are empty, and an
aggregate that a pool refers to can be found (`gains_are_passed_on`).
-/

namespace BeamChart

/-- A map that owns something does not stop before it starts. -/
theorem Coverage.WellFormed.span?_le
    {m : Coverage}
    (h : m.WellFormed)
    {a b : Nat}
    (hspan : m.span? = some (a, b)) :
    a ≤ b := by
  obtain ⟨r, hr⟩ : ∃ r, r ∈ m.runs := by
    refine List.exists_mem_of_ne_nil _ fun hnil => ?_
    rw [Coverage.span?, Coverage.start?, hnil] at hspan
    cases hspan
  have hwithin := h.within_span hspan hr
  have hrun := r.start_lt_stop
  omega

namespace Chart

variable {strict : Prop} {g : Grammar} {s : Settings}
variable {c c' c'' : Chart} {u a : ItemId} {x y : CandidateId}

/-- Pools consist of stored candidates, and marks stand for stored items. -/
structure Anchored (c : Chart) : Prop where
  pool : ∀ u, ∀ x ∈ (c.item u).pool, c.Has x
  wrapper : ∀ x a, (c.candidate x).wrapper = some a → a.index < c.items.size

/-- Some pool refers to the candidate. -/
def Pooled (c : Chart) (x : CandidateId) : Prop :=
  ∃ u, x ∈ (c.item u).pool

/-- Some pool refers to the candidate, and it has still to be passed on. -/
structure Unsent (c : Chart) (x : CandidateId) : Prop where
  pooled : c.Pooled x
  pending : (c.candidate x).pending = true

/-- The candidate has been passed on, but its aggregate has not been registered. -/
def Adrift (c : Chart) (x : CandidateId) : Prop :=
  (c.candidate x).pending = false ∧
    ∃ a, (c.candidate x).wrapper = some a ∧ (c.item a).registered = false

/-- Some pool refers to the candidate, which is adrift. -/
structure Stray (c : Chart) (x : CandidateId) : Prop where
  pooled : c.Pooled x
  adrift : c.Adrift x

/--
No pool refers to more that has to be passed on than before, apart from what has
been opened; of that, nothing is left that has been served.
-/
structure Serves (opened served : List CandidateId) (c c' : Chart) : Prop where
  anchored : Anchored c'
  unsent : ∀ x, c'.Unsent x → (c.Unsent x ∨ x ∈ opened) ∧ x ∉ served
  stray : ∀ x, c'.Stray x → c.Stray x

/-- An operation that leaves nothing to be passed on. -/
structure Lossless (c c' : Chart) : Prop where
  acts : Acts False True c c'
  serves : Anchored c → Serves [] [] c c'

namespace Serves

theorem refl
    (hc : Anchored c) :
    Serves [] [] c c :=
  ⟨hc, fun _ h => ⟨Or.inl h, List.not_mem_nil⟩, fun _ h => h⟩

/-- What is served stays served. -/
theorem trans
    {first second : List CandidateId}
    (h : Serves [] first c c')
    (k : Serves [] second c' c'') :
    Serves [] (first ++ second) c c'' where
  anchored := k.anchored
  unsent x hx := by
    obtain ⟨hmiddle, hsecond⟩ := k.unsent x hx
    obtain ⟨hold, hfirst⟩ := h.unsent x (hmiddle.resolve_right List.not_mem_nil)
    exact ⟨hold, fun hmem => (List.mem_append.1 hmem).elim hfirst hsecond⟩
  stray x hx := h.stray x (k.stray x hx)

/-- What has been opened is done with once it is served. -/
theorem close
    {opened : List CandidateId}
    (h : Serves opened [] c c')
    (k : Serves [] opened c' c'') :
    Serves [] [] c c'' where
  anchored := k.anchored
  unsent x hx := by
    obtain ⟨hmiddle, hserved⟩ := k.unsent x hx
    obtain ⟨hold, -⟩ := h.unsent x (hmiddle.resolve_right List.not_mem_nil)
    exact ⟨Or.inl (hold.resolve_right hserved), List.not_mem_nil⟩
  stray x hx := h.stray x (k.stray x hx)

/-- What has been passed on needs no serving. -/
theorem settled
    (hc : Anchored c)
    (hx : (c.candidate x).pending = false) :
    Serves [] [x] c c where
  anchored := hc
  unsent y hy := by
    refine ⟨Or.inl hy, fun hmem => ?_⟩
    have hpending := hy.pending
    rw [List.mem_singleton.1 hmem, hx] at hpending
    cases hpending
  stray _ hy := hy

end Serves

section Acting

theorem Acts.anchored
    (h : Acts strict False c c')
    (hc : Anchored c) :
    Anchored c' := by
  induction h with
  | refl => exact hc
  | tail _ hact ih =>
    refine ⟨fun u x hx => ?_, fun x a ha => Nat.lt_of_lt_of_le ?_ hact.items_le⟩
    · rcases hact.pool_cases hx with hold | hidle
      · exact hact.has (ih.pool u x hold)
      · exact hidle.has
    · exact (hact.wrapper_cases ha).elim (ih.wrapper x a) id

theorem Acts.pooled
    (h : Acts strict False c c')
    (hx : c'.Pooled x) :
    c.Pooled x ∨ c'.Idle x := by
  obtain ⟨u, hu⟩ := hx
  exact (h.pool_cases hu).imp_left fun hold => ⟨u, hold⟩

theorem Idle.not_adrift
    (h : c.Idle x) :
    ¬ c.Adrift x := by
  rintro ⟨-, a, ha, -⟩
  rw [h.wrapper] at ha
  cases ha

/-- Where nothing is passed on, no stored candidate comes adrift. -/
theorem Acts.adrift
    (h : Acts strict False c c')
    (hx : c.Has x)
    (hadrift : c'.Adrift x) :
    c.Adrift x := by
  obtain ⟨hpending, a, ha, hregistered⟩ := hadrift
  have hsettled : (c.candidate x).pending = false := (h.pending_eq hx).symm.trans hpending
  refine ⟨hsettled, a, (h.wrapper_eq hx hsettled).symm.trans ha, ?_⟩
  exact eq_false_of_ne_true fun hreg => by rw [h.registered hreg] at hregistered; cases hregistered

theorem Acts.serves
    (h : Acts strict False c c')
    (hc : Anchored c) :
    Serves [] [] c c' where
  anchored := h.anchored hc
  unsent x hx := by
    refine ⟨Or.inl ?_, List.not_mem_nil⟩
    rcases h.pooled hx.pooled with hold | hidle
    · obtain ⟨u, hu⟩ := hold
      exact ⟨⟨u, hu⟩, (h.pending_eq (hc.pool u x hu)).symm.trans hx.pending⟩
    · have hpending := hx.pending
      rw [hidle.pending] at hpending
      cases hpending
  stray x hx := by
    rcases h.pooled hx.pooled with hold | hidle
    · obtain ⟨u, hu⟩ := hold
      exact ⟨⟨u, hu⟩, h.adrift (hc.pool u x hu) hx.adrift⟩
    · exact absurd hx.adrift hidle.not_adrift

/-- A pool that is replaced opens what it consists of, up to old and idle candidates. -/
theorem serves_setPool
    {pool opened : List CandidateId}
    (h : Acts False False c c')
    (hc : Anchored c)
    (hpool : ∀ x ∈ ((c'.setPool u pool).item u).pool,
      c.Pooled x ∨ c'.Idle x ∨ c'.Awaits x ∧ x ∈ opened) :
    Serves opened [] c (c'.setPool u pool) := by
  have hserves := h.serves hc
  have hother : ∀ w, w ≠ u → ((c'.setPool u pool).item w).pool = (c'.item w).pool :=
    fun w hw => by rw [setPool, item_modifyItem_of_ne _ (Ne.symm hw)]
  have hregistered : ∀ a, ((c'.setPool u pool).item a).registered = (c'.item a).registered :=
    field_modifyItem Item.registered rfl
  have hadrift : ∀ x, (c'.setPool u pool).Adrift x → c'.Adrift x := by
    rintro x ⟨hpending, a, ha, hreg⟩
    exact ⟨hpending, a, ha, (hregistered a).symm.trans hreg⟩
  refine ⟨⟨fun w x hx => ?_, fun x a ha => ?_⟩, fun x hx => ?_, fun x hx => ?_⟩
  · by_cases hw : w = u
    · rw [hw] at hx
      rcases hpool x hx with ⟨v, hv⟩ | hidle | ⟨hawaits, -⟩
      · exact h.has (hc.pool v x hv)
      · exact hidle.has
      · exact hawaits.has
    · rw [hother w hw] at hx
      exact hserves.anchored.pool w x hx
  · rw [setPool, size_items_modifyItem]
    exact hserves.anchored.wrapper x a ha
  · refine ⟨?_, List.not_mem_nil⟩
    obtain ⟨⟨w, hw⟩, hpending⟩ := hx
    replace hpending : (c'.candidate x).pending = true := hpending
    by_cases hwu : w = u
    · rw [hwu] at hw
      rcases hpool x hw with ⟨v, hv⟩ | hidle | ⟨-, hopened⟩
      · exact Or.inl ⟨⟨v, hv⟩, (h.pending_eq (hc.pool v x hv)).symm.trans hpending⟩
      · rw [hidle.pending] at hpending
        cases hpending
      · exact Or.inr hopened
    · rw [hother w hwu] at hw
      exact Or.inl ((hserves.unsent x ⟨⟨w, hw⟩, hpending⟩).1.resolve_right List.not_mem_nil)
  · obtain ⟨⟨w, hw⟩, hx⟩ := hx
    by_cases hwu : w = u
    · rw [hwu] at hw
      rcases hpool x hw with ⟨v, hv⟩ | hidle | ⟨hawaits, -⟩
      · exact ⟨⟨v, hv⟩, h.adrift (hc.pool v x hv) (hadrift x hx)⟩
      · exact absurd (hadrift x hx) hidle.not_adrift
      · have hpending := (hadrift x hx).1
        rw [hawaits.pending] at hpending
        cases hpending
    · rw [hother w hwu] at hw
      exact hserves.stray x ⟨⟨w, hw⟩, hadrift x hx⟩

theorem mem_of_mem_setPool
    {pool : List CandidateId}
    (hx : x ∈ ((c.setPool u pool).item u).pool) :
    x ∈ pool :=
  pools_setPool (P := fun w x => w = u → x ∈ pool) (fun _ h _ => h)
    (fun _ hw _ _ hwu => absurd hwu hw) u x hx rfl

end Acting

section Passing

variable {connect : Connector}

theorem has_of_pending
    (h : (c.candidate x).pending = true) :
    c.Has x := by
  refine Nat.lt_of_not_le fun hle => ?_
  rw [candidate_of_size_le hle] at h
  cases h

/-- A candidate that is settled may come adrift, and no other one. -/
theorem settle_cases
    (hc : Anchored c)
    (hx : (c.candidate x).pending = true) :
    Anchored (c.settle x) ∧ (∀ y, (c.settle x).Unsent y → c.Unsent y ∧ y ≠ x) ∧
      ∀ y, (c.settle x).Stray y → c.Stray y ∨ y = x := by
  have hread : ∀ y, (c.settle x).candidate y =
      if y = x then { c.candidate x with pending := false } else c.candidate y := by
    intro y
    rw [settle, candidate_modifyCandidate]
    simp only [show x.index < c.candidates.size from has_of_pending hx, and_true]
  refine ⟨⟨fun u y hy => ?_, fun y a ha => ?_⟩, fun y hy => ?_, fun y hy => ?_⟩
  · rw [settle, Has, size_candidates_modifyCandidate]
    exact hc.pool u y hy
  · rw [hread] at ha
    split at ha
    · exact hc.wrapper x a ha
    · exact hc.wrapper y a ha
  · obtain ⟨hpooled, hpending⟩ := hy
    rw [hread] at hpending
    split at hpending
    · cases hpending
    · rename_i hne
      exact ⟨⟨hpooled, hpending⟩, hne⟩
  · by_cases hyx : y = x
    · exact Or.inr hyx
    · obtain ⟨hpooled, hpending, a, ha, hregistered⟩ := hy
      rw [hread, if_neg hyx] at hpending ha
      exact Or.inl ⟨hpooled, hpending, a, ha, hregistered⟩

/-- A candidate without aggregate is served when it is settled. -/
theorem settle_serves
    (hc : Anchored c)
    (hx : (c.candidate x).pending = true)
    (hfree : (c.candidate x).wrapper = none) :
    Serves [] [x] c (c.settle x) := by
  obtain ⟨hanchored, hunsent, hstray⟩ := settle_cases hc hx
  refine ⟨hanchored, fun y hy => ?_, fun y hy => (hstray y hy).resolve_right ?_⟩
  · obtain ⟨hold, hne⟩ := hunsent y hy
    exact ⟨Or.inl hold, fun hmem => hne (List.mem_singleton.1 hmem)⟩
  · rintro rfl
    obtain ⟨-, a, ha, -⟩ := hy.adrift
    rw [settle, candidate_modifyCandidate_self _ (has_of_pending hx), hfree] at ha
    cases ha

/-- A candidate with an aggregate is served when the aggregate is admitted. -/
theorem admit_serves
    (hconnect : ∀ c u, Lossless c (connect c u))
    (hc : Anchored c)
    (hx : (c.candidate x).pending = true)
    (hmark : (c.candidate x).wrapper = some a) :
    Serves [] [x] c (admitWith connect (c.settle x) a) := by
  obtain ⟨hanchored, hunsent, hstray⟩ := settle_cases hc hx
  have hhas : (c.settle x).Has x := by
    rw [settle, Has, size_candidates_modifyCandidate]
    exact has_of_pending hx
  have hsettled : (c.settle x).candidate x = { c.candidate x with pending := false } :=
    candidate_modifyCandidate_self _ (has_of_pending hx)
  -- What is left to show is that the aggregate is registered when the candidate is.
  have hserved : ∀ c', Serves [] [] (c.settle x) c' →
      (c'.candidate x).wrapper = some a → (c'.item a).registered = true →
      Serves [] [x] c c' := by
    intro c' h hwrapper hregistered
    refine ⟨h.anchored, fun y hy => ?_, fun y hy => ?_⟩
    · obtain ⟨hold, hne⟩ := hunsent y ((h.unsent y hy).1.resolve_right List.not_mem_nil)
      exact ⟨Or.inl hold, fun hmem => hne (List.mem_singleton.1 hmem)⟩
    · refine (hstray y (h.stray y hy)).resolve_right ?_
      rintro rfl
      obtain ⟨-, b, hb, hreg⟩ := hy.adrift
      rw [hwrapper] at hb
      cases hb
      rw [hregistered] at hreg
      cases hreg
  unfold admitWith
  split
  · rename_i hregistered
    exact hserved _ (.refl hanchored) (by rw [hsettled]; exact hmark) hregistered
  · obtain ⟨hacts, hserves⟩ := hconnect (c.settle x) a
    replace hserves := hserves hanchored
    have hwrapper : ((connect (c.settle x) a).candidate x).wrapper = some a := by
      rw [hacts.wrapper_eq hhas (by rw [hsettled]), hsettled]
      exact hmark
    have hpost : Acts False False (connect (c.settle x) a) ((connect (c.settle x) a).register a) :=
      .single (.register fun h => h.elim)
    refine hserved _ (hserves.trans (hpost.serves hserves.anchored)) ?_ ?_
    · rw [candidate_register]
      exact hwrapper
    · exact registered_register (hserves.anchored.wrapper x a hwrapper)

/-- Passing on serves a pool, whatever becomes of the pool meanwhile. -/
theorem passOnWith_serves
    (hconnect : ∀ c u, Lossless c (connect c u))
    (patch : Option (Chart → CandidateId → Chart))
    (pool : List CandidateId)
    (hc : Anchored c)
    (hpatch : ∀ f, patch = some f → ∀ c x, Anchored c → Serves [] [] c (f c x)) :
    Serves [] pool c (passOnWith connect patch c pool) := by
  induction pool generalizing c patch with
  | nil => exact .refl hc
  | cons x rest ih =>
    have hnone : ∀ f, none = some f → ∀ c x, Anchored c →
        Serves [] [] c ((f : Chart → CandidateId → Chart) c x) := fun _ h => by cases h
    unfold passOnWith
    split
    · rename_i hx
      split
      · rename_i a hmark
        have hadmit := admit_serves hconnect hc hx hmark
        exact hadmit.trans (ih _ hadmit.anchored hpatch)
      · rename_i f hfree
        have hsettle := settle_serves hc hx hfree
        have hf : Serves [] [x] c (f (c.settle x) x) :=
          hsettle.trans (hpatch f rfl _ x hsettle.anchored)
        exact hf.trans (ih none hf.anchored hnone)
      · rename_i hfree
        have hsettle := settle_serves hc hx hfree
        exact hsettle.trans (ih none hsettle.anchored hnone)
    · rename_i hx
      exact (Serves.settled hc (eq_false_of_ne_true hx)).trans (ih patch hc hpatch)

/-- What a refitted pool has gained is opened. -/
theorem refit_serves
    (hc : Anchored c)
    (above : ItemId)
    (r : Relation)
    (child : ItemId)
    (newer : CandidateId) :
    Serves (if (c.refit above r child newer).1 then
        ((c.refit above r child newer).2.item above).pool else []) []
      c (c.refit above r child newer).2 := by
  have hrefit : Acts False False c (refitPool r child newer c [] false (c.item above).pool).2 ∧ _ :=
    refitPool_acts r child newer [] false (c.item above).pool (fun _ h => by cases h) fun _ h => h
  obtain ⟨hacts, hall⟩ := hrefit
  rcases refit_cases c above r child newer with heq | ⟨kept, hkept, heq⟩ <;> rw [heq]
  · exact hacts.serves hc
  · refine serves_setPool hacts hc fun x hx => ?_
    rcases hall kept true hkept x (mem_of_mem_setPool hx) with hold | hawaits
    · exact Or.inl ⟨above, hold⟩
    · exact Or.inr (Or.inr ⟨hawaits, hx⟩)

/-- A climb serves the pool that it starts from, and all that it opens on its way. -/
theorem climbWith_serves
    (hconnect : ∀ c u, Lossless c (connect c u))
    (higher : List (ItemId × Relation))
    (hc : Anchored c)
    (u : ItemId) :
    Serves [] (c.item u).pool c (climbWith connect higher c u) := by
  induction higher generalizing c u with
  | nil => exact passOnWith_serves hconnect none _ hc fun _ h => by cases h
  | cons e higher ih =>
    obtain ⟨above, r⟩ := e
    refine passOnWith_serves hconnect _ _ hc ?_
    intro f hf c₁ x hc₁
    cases hf
    have hrefit := refit_serves hc₁ above r u x
    dsimp only
    generalize c₁.refit above r u x = result at hrefit ⊢
    obtain ⟨changed, c₂⟩ := result
    cases changed with
    | false => exact hrefit
    | true => exact hrefit.close (ih hrefit.anchored above)

theorem offerWith_serves
    (hconnect : ∀ c u, Lossless c (connect c u))
    (hc : Anchored c)
    (parent child : ItemId)
    (rule : Rule SymbolId) :
    Serves [] [] c (offerWith connect c parent child rule).2 := by
  obtain ⟨hdetach, hexisting⟩ := detachAll_acts False child (c.item parent).pool (c := c)
  unfold offerWith
  generalize c.detachAll child _ = result at hdetach hexisting ⊢
  obtain ⟨outcome, c₁⟩ := result
  cases outcome with
  | error e => exact hdetach.serves hc
  | ok pair =>
    obtain ⟨existing, changed⟩ := pair
    obtain ⟨hstage, hstaged⟩ := stage_acts False rule [] (c := c₁)
      (existing.flatMap fun x => (c₁.item child).pool.map (x, ·)) fun _ h => by cases h
    dsimp only
    generalize c₁.stage rule [] _ = result at hstage hstaged ⊢
    obtain ⟨staged, c₂⟩ := result
    have hboth : Acts False False c c₂ := hdetach.trans hstage
    have hold : ∀ x ∈ existing, c.Pooled x ∨ c₂.Idle x := fun x hx =>
      (hexisting existing changed rfl x hx).imp (fun hmem => ⟨parent, hmem⟩) hstage.idle
    have hkept : ∀ x ∈ ((c₂.setPool parent (c₂.beam (staged ++ existing))).item parent).pool,
        x ∈ staged ∨ x ∈ existing := fun x hx =>
      List.mem_append.1 (mem_of_mem_beam (mem_of_mem_setPool hx))
    dsimp only
    split
    · rename_i hnone
      dsimp only
      split
      · refine serves_setPool hboth hc fun x hx => ?_
        rcases hkept x hx with hnew | hmem
        · rw [List.isEmpty_iff.1 hnone] at hnew
          cases hnew
        · exact (hold x hmem).imp_right Or.inl
      · exact hboth.serves hc
    · have hopened : Serves ((c₂.setPool parent (c₂.beam (staged ++ existing))).item parent).pool
          [] c (c₂.setPool parent (c₂.beam (staged ++ existing))) := by
        refine serves_setPool hboth hc fun x hx => ?_
        rcases hkept x hx with hnew | hmem
        · exact Or.inr (Or.inr ⟨hstaged x hnew, hx⟩)
        · exact (hold x hmem).imp_right Or.inl
      exact hopened.close (climbWith_serves hconnect _ hopened.anchored parent)

/-- A fixed parent is on neither account. -/
theorem fix_serves
    (hc : Anchored c)
    (above : ItemId × Relation) :
    Serves [] [] c (c.modifyItem u fun i => { i with fixedParent := some above }) := by
  have hpool : ∀ v, ((c.modifyItem u fun i => { i with fixedParent := some above }).item v).pool =
      (c.item v).pool := field_modifyItem Item.pool rfl
  have hregistered : ∀ v, ((c.modifyItem u fun i =>
      { i with fixedParent := some above }).item v).registered = (c.item v).registered :=
    field_modifyItem Item.registered rfl
  refine ⟨⟨fun v x hx => ?_, fun x a ha => ?_⟩, fun x hx => ?_, fun x hx => ?_⟩
  · rw [hpool] at hx
    exact hc.pool v x hx
  · rw [size_items_modifyItem]
    exact hc.wrapper x a ha
  · obtain ⟨⟨v, hv⟩, hpending⟩ := hx
    rw [hpool] at hv
    exact ⟨Or.inl ⟨⟨v, hv⟩, hpending⟩, List.not_mem_nil⟩
  · obtain ⟨⟨v, hv⟩, hpending, a, ha, hreg⟩ := hx
    rw [hpool] at hv
    rw [hregistered] at hreg
    exact ⟨⟨v, hv⟩, hpending, a, ha, hreg⟩

theorem compositional_lossless :
    Compositional False Lossless where
  acts h := ⟨h.weaken, h.serves⟩
  fix hlater hitem := ⟨.single (.fix trivial hlater hitem), fun hc => fix_serves hc _⟩
  trans h k := ⟨h.acts.trans k.acts, fun hc =>
    (h.serves hc).trans (k.serves (h.serves hc).anchored)⟩
  items_le h := h.acts.items_le
  grammar h := h.acts.grammar.1
  offer hconnect c parent child rule :=
    ⟨offerWith_acts (fun c u => (hconnect c u).acts) c parent child rule,
      fun hc => offerWith_serves hconnect hc parent child rule⟩

end Passing

section Labels

/-- The aggregate has the symbol of the item that the candidate is rooted at, and its span. -/
structure Labels (c : Chart) (x : CandidateId) (a : ItemId) : Prop where
  root : (c.item (c.candidate x).root).present = true
  present : (c.item a).present = true
  symbol : (c.item a).symbol = (c.item (c.candidate x).root).symbol
  span : (c.candidate x).span? = some ((c.item a).position, (c.item a).stop)

theorem Labels.extend
    (h : c.Labels x a)
    (hx : c.Has x)
    (hext : Extends c c') :
    c'.Labels x a := by
  have hplace : (c'.item a).place = (c.item a).place := hext.place a (Or.inr h.present)
  simp only [Item.place, Prod.mk.injEq] at hplace
  obtain ⟨-, hsymbol, hposition, hextent, -⟩ := hplace
  refine ⟨?_, hext.present a h.present, ?_, ?_⟩ <;> try rw [hext.root hx]
  · exact hext.present _ h.root
  · rw [hsymbol, hext.symbol_eq h.root, h.symbol]
  · rw [Candidate.span?, hext.coverage hx, Item.stop, hposition, hextent]
    exact h.span

/-- Marks are those of aggregates for what they enclose. -/
structure Labelled (c : Chart) : Prop where
  tiled : ∀ x, c.Has x → c.Tiled (c.candidate x)
  labels : ∀ x a, (c.candidate x).wrapper = some a → c.Labels x a

theorem labelled_new (g : Grammar) (s : Settings) :
    Labelled (new g s) where
  tiled _ hx := absurd hx (Nat.not_lt_zero _)
  labels _ _ ha := absurd (has_of_wrapper ha) (Nat.not_lt_zero _)

/-- An aggregate gets the symbol and the span of what it encloses. -/
theorem Step.labels
    (h : Step True c c')
    (hsound : Sound True c)
    (hc : Labelled c)
    (ha : (c'.candidate x).wrapper = some a) :
    c'.Labels x a := by
  have hold : ∀ y b, (c.candidate y).wrapper = some b → c'.Labels y b :=
    fun y b hb => (hc.labels y b hb).extend (has_of_wrapper hb) h.grows
  rcases h.mark_cases with
    hkept | ⟨b, z, w, start, stop, hitem, hblank, hz, hw, hspan, hlifted, rfl⟩
  · exact hold x a (hkept x a ha)
  · rcases wrapper_enclose ha with hmark | ⟨rfl, rfl⟩
    · exact hold x a hmark
    · have hle : start ≤ stop := (hc.tiled x hz).wellFormed.span?_le hspan
      have hroot : (c.item (c.candidate x).root).present = true := by
        refine (hsound.lawful trivial).child w .aggregate ⟨x, 0⟩ hw ?_
        rw [hlifted]
        exact Candidate.slot_attach_self _ _ _ _
      have hbase : ((c.enclose a x w start stop).candidate x).root = (c.candidate x).root :=
        h.grows.root hz
      have hfilled : (c.enclose a x w start stop).item a =
          { c.item a with
            symbol := (c.item (c.candidate x).root).symbol
            concept := (c.item (c.candidate x).root).symbol.getD unrecognized
            position := start
            extent := stop - start
            present := true
            pool := (c.item a).pool ++ [w] } := by
        rw [enclose, item_modifyCandidate, item_modifyItem_self _ hitem]
      refine ⟨?_, ?_, ?_, ?_⟩
      · rw [hbase]
        exact h.grows.present _ hroot
      · rw [hfilled]
      · rw [hfilled, hbase, h.grows.symbol_eq hroot]
      · rw [Candidate.span?, h.grows.coverage hz, hfilled]
        refine hspan.trans ?_
        simp only [Item.stop, Option.some.injEq, Prod.mk.injEq, true_and]
        omega

theorem Move.labelled
    (h : Move True c c')
    (hsound : Sound True c)
    (hc : Labelled c) :
    Labelled c' where
  tiled := h.tiled hsound.closed hc.tiled
  labels x a ha := by
    cases h with
    | step h => exact h.labels hsound hc ha
    | fix hnone => exact (hc.labels x a ha).extend (has_of_wrapper ha) (Extends.fix hnone)
    | refill f hfree => exact absurd trivial hfree

end Labels

/-- Between inputs, no pool refers to what has to be passed on, or is adrift. -/
theorem Driven.served
    (h : Driven g s c) :
    Anchored c ∧ (∀ x, ¬ c.Unsent x) ∧ ∀ x, ¬ c.Stray x := by
  have hempty : ∀ g s, Anchored (Chart.new g s) ∧ (∀ x, ¬ (Chart.new g s).Unsent x) ∧
      ∀ x, ¬ (Chart.new g s).Stray x := by
    intro g s
    have hpool : ∀ u x, x ∉ ((Chart.new g s).item u).pool := by
      intro u x hx
      rw [item_of_size_le (Nat.zero_le _)] at hx
      cases hx
    exact ⟨⟨fun u x hx => absurd hx (hpool u x), fun x a ha =>
        absurd (has_of_wrapper ha) (Nat.not_lt_zero _)⟩,
      fun x hx => hx.pooled.elim fun u hu => hpool u x hu,
      fun x hx => hx.pooled.elim fun u hu => hpool u x hu⟩
  induction h with
  | new => exact hempty g s
  | @input c _ i ih =>
    by_cases hreset : i = .reset
    · rw [hreset]
      exact hempty c.grammar c.settings
    · obtain ⟨hanchored, hunsent, hstray⟩ := ih
      have hserves := (compositional_lossless.input c i hreset fun h => h.elim).serves hanchored
      refine ⟨hserves.anchored, fun x hx => ?_, fun x hx => hstray x (hserves.stray x hx)⟩
      exact ((hserves.unsent x hx).1.elim (hunsent x) List.not_mem_nil)

/--
Between inputs, every candidate of a pool has been passed on, and its aggregate, if
there is one, is present and registered, and has the symbol of the item that the
candidate is rooted at, and just the span of the candidate.
-/
theorem gains_are_passed_on
    (hrun : Driven g s c)
    (hx : x ∈ (c.item u).pool) :
    (c.candidate x).pending = false ∧
      ∀ a, (c.candidate x).wrapper = some a →
        (c.item a).present = true ∧ (c.item a).registered = true ∧
        (c.item a).symbol = (c.item (c.candidate x).root).symbol ∧
        (c.candidate x).span? = some ((c.item a).position, (c.item a).stop) := by
  obtain ⟨-, hunsent, hstray⟩ := hrun.served
  have hlabels := (hrun.invariant (labelled_new g s)
    fun _ _ _ _ hsound hc h => h.labelled hsound hc).holds.labels x
  have hsettled : (c.candidate x).pending = false :=
    eq_false_of_ne_true fun h => hunsent x ⟨⟨u, hx⟩, h⟩
  refine ⟨hsettled, fun a ha => ⟨(hlabels a ha).present, ?_, (hlabels a ha).symbol,
    (hlabels a ha).span⟩⟩
  by_contra hregistered
  exact hstray x ⟨⟨u, hx⟩, hsettled, a, ha, eq_false_of_ne_true hregistered⟩

/-- The head that has been wrapped with its mark leads to the aggregate. -/
theorem gains_are_passed_on_sample :
    ∃ x ∈ ((stackingChart []).item ⟨0⟩).pool,
      ((stackingChart []).candidate x).wrapper = some ⟨2⟩ ∧
        ((stackingChart []).item ⟨2⟩).registered = true := by
  have hpool : (⟨2⟩ : CandidateId) ∈ ((stackingChart []).item ⟨0⟩).pool := by decide +kernel
  have hmark : ((stackingChart []).candidate ⟨2⟩).wrapper = some ⟨2⟩ := by decide +kernel
  exact ⟨⟨2⟩, hpool, hmark, ((gains_are_passed_on (driven_feeds .new _) hpool).2 _ hmark).2.1⟩

end Chart

end BeamChart
