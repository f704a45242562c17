import BeamChart.Proofs.Chart.Connect

/-!
# Input in moves

Input also builds rigid towers: an item becomes the fixed parent of the one
below it. This is no step, since steps rely on towers staying as they are. A
`Move` is a step, or a change between two connections: a fixed parent, or the
new content of an item that is filled by hand.
-/

namespace BeamChart

namespace Chart

variable {strict : Prop} {c c' c'' : Chart} {u v : ItemId} {r : Relation}

inductive Move (strict : Prop) : Chart → Chart → Prop
  | step
      {c c' : Chart}
      (h : Step strict c c') :
      Move strict c c'
  /-- A tower grows by one level. -/
  | fix
      {c : Chart}
      {below u : ItemId}
      {r : Relation}
      (hnone : (c.item below).fixedParent = none)
      (hitem : u.index < c.items.size)
      (hplain : (c.item u).isAggregate = false) :
      Move strict c (c.modifyItem below fun i => { i with fixedParent := some (u, r) })
  /-- An item is filled anew, and loses its pool. -/
  | refill
      {c : Chart}
      {u : ItemId}
      (f : Item → Item)
      (hfree : ¬ strict)
      (hpool : (f (c.item u)).pool = [])
      (hpresent : (f (c.item u)).present = (c.item u).present)
      (hfixed : (f (c.item u)).fixedParent = (c.item u).fixedParent) :
      Move strict c (c.modifyItem u f)

theorem Extends.fix
    (hnone : (c.item v).fixedParent = none) :
    Extends c (c.modifyItem v fun i => { i with fixedParent := some (u, r) }) := by
  refine Extends.modifyItem c v _ (fun _ => rfl) rfl (fun h => h) (fun h => h) fun p hp => ?_
  rw [hnone] at hp
  cases hp

namespace Move

theorem closed
    (h : Move strict c c')
    (hc : Closed c) :
    Closed c' := by
  have hmodify : ∀ (w : ItemId) (f : Item → Item),
      (∀ x ∈ (f (c.item w)).pool, x ∈ (c.item w).pool) →
      (f (c.item w)).present = (c.item w).present → Closed (c.modifyItem w f) := by
    intro w f hpool hpresent
    have hseen : ∀ v, ((c.modifyItem w f).item v).present = (c.item v).present :=
      field_modifyItem Item.present hpresent
    refine ⟨?_, hc.child, ?_, ?_, ?_⟩
    · intro x hx
      rw [size_items_modifyItem]
      exact hc.root x hx
    · intro v x hx
      rw [item_modifyItem] at hx
      split at hx
      · rename_i hv
        rw [hv.1]
        exact hc.pool w x (hpool x hx)
      · exact hc.pool v x hx
    · intro v hv
      rw [hseen]
      exact hc.tail v hv
    · intro x hx
      rw [hseen]
      exact hc.best x hx
  cases h with
  | step h => exact h.closed hc
  | @fix below u r => exact hmodify below _ (fun x hx => hx) rfl
  | @refill u f hfree hpool hpresent =>
    refine hmodify u f (fun x hx => ?_) hpresent
    rw [hpool] at hx
    cases hx

theorem lawful
    (h : Move strict c c')
    (hs : strict)
    (hc : Closed c)
    (hl : Lawful c) :
    Lawful c' := by
  cases h with
  | step h => exact h.lawful hs hc hl
  | @fix below u r hnone =>
    refine ⟨fun x q s hx hslot => ?_, fun v => ?_⟩
    · exact (Extends.fix hnone).present _ (hl.child x q s hx hslot)
    · rw [field_modifyItem Item.pool rfl v]
      exact (Extends.fix hnone).ranks (fun x hx => hc.has_of_mem hx) (hl.ranks v)
  | refill f hfree => exact absurd hs hfree

theorem sound
    (h : Move strict c c')
    (hc : Sound strict c) :
    Sound strict c' where
  closed := h.closed hc.closed
  lawful hs := h.lawful hs hc.closed (hc.lawful hs)

end Move

/-- Any number of moves. -/
def Moves (strict : Prop) : Chart → Chart → Prop :=
  Relation.ReflTransGen (Move strict)

namespace Moves

theorem refl (c : Chart) :
    Moves strict c c :=
  Relation.ReflTransGen.refl

theorem single
    (h : Move strict c c') :
    Moves strict c c' :=
  Relation.ReflTransGen.single h

theorem trans
    (h : Moves strict c c')
    (k : Moves strict c' c'') :
    Moves strict c c'' :=
  Relation.ReflTransGen.trans h k

theorem sound
    (h : Moves strict c c')
    (hc : Sound strict c) :
    Sound strict c' := by
  induction h with
  | refl => exact hc
  | tail _ hmove ih => exact hmove.sound ih

end Moves

theorem Evolves.moves
    (h : Evolves strict c c') :
    Moves strict c c' := by
  induction h with
  | refl => exact .refl c
  | tail _ hstep ih => exact ih.trans (.single (.step hstep))

/-- A move that fills no item by hand. -/
inductive Advance (strict : Prop) : Chart → Chart → Prop
  | step
      {c c' : Chart}
      (h : Step strict c c') :
      Advance strict c c'
  | fix
      {c : Chart}
      {below u : ItemId}
      {r : Relation}
      (hnone : (c.item below).fixedParent = none)
      (hitem : u.index < c.items.size)
      (hplain : (c.item u).isAggregate = false) :
      Advance strict c (c.modifyItem below fun i => { i with fixedParent := some (u, r) })

theorem Advance.move
    (h : Advance strict c c') :
    Move strict c c' := by
  cases h with
  | step h => exact .step h
  | fix hnone hitem hplain => exact .fix hnone hitem hplain

/-- Any number of moves that fill no item by hand. -/
def Advances (strict : Prop) : Chart → Chart → Prop :=
  Relation.ReflTransGen (Advance strict)

namespace Advances

theorem refl (c : Chart) :
    Advances strict c c :=
  Relation.ReflTransGen.refl

theorem single
    (h : Advance strict c c') :
    Advances strict c c' :=
  Relation.ReflTransGen.single h

theorem trans
    (h : Advances strict c c')
    (k : Advances strict c' c'') :
    Advances strict c c'' :=
  Relation.ReflTransGen.trans h k

theorem moves
    (h : Advances strict c c') :
    Moves strict c c' := by
  induction h with
  | refl => exact .refl c
  | tail _ hadvance ih => exact ih.trans (.single hadvance.move)

theorem sound
    (h : Advances strict c c')
    (hc : Sound strict c) :
    Sound strict c' :=
  h.moves.sound hc

end Advances

theorem Evolves.advances
    (h : Evolves strict c c') :
    Advances strict c c' := by
  induction h with
  | refl => exact .refl c
  | tail _ hstep ih => exact ih.trans (.single (.step hstep))

section Filling

/-- A leaf over a token of some extent covers it. -/
theorem isEmpty_leafOf
    {s : Symbol}
    {id : SymbolId}
    {t : Token}
    (h : 0 < t.extent) :
    (c.leafOf u s id t).isEmpty = false := by
  have hlt : t.position < t.stop := Nat.lt_add_of_pos_right h
  have hcoverage : (c.leafOf u s id t).coverage =
      .single t.position t.stop c.nextCandidate := rfl
  rw [Candidate.isEmpty, hcoverage, Coverage.single, dif_pos hlt]
  rfl

/-- The leaf of an item is all that a blank item gets. -/
theorem instantiate_spec
    (strict : Prop)
    (hvacant : c.Vacant u)
    (symbol : Option SymbolId)
    (t : Token) :
    Evolves strict c (c.instantiate u symbol t).2 ∧
      (∀ x, (c.instantiate u symbol t).2.Has x →
        ((c.instantiate u symbol t).2.candidate x).root = u →
          ((c.instantiate u symbol t).2.candidate x).slots = .empty) ∧
      ∀ done, (c.instantiate u symbol t).1 = .ok done → (c.instantiate u symbol t).2.Sown u →
        ((c.instantiate u symbol t).2.item u).pool ≠ [] ∧
          ∀ x, (c.instantiate u symbol t).2.Has x →
            ((c.instantiate u symbol t).2.candidate x).root = u →
              ((c.instantiate u symbol t).2.candidate x).isEmpty = false := by
  have hfilled : Evolves strict c (c.fillItem u symbol t) ∧ (c.fillItem u symbol t).item u =
      Item.filledAs {} (symbol.filter fun s => s ≠ unrecognized) t :=
    hvacant.fill strict ⟨rfl, rfl, rfl, rfl, rfl⟩ rfl
  obtain ⟨hfill, hplaced⟩ := hfilled
  have hlt : u.index < (c.fillItem u symbol t).items.size := by
    rw [fillItem, size_items_modifyItem]
    exact hvacant.lt
  have habsent : ((c.fillItem u symbol t).item u).present = false := by
    rw [hplaced]
    rfl
  have hnone : ∀ x, (c.fillItem u symbol t).Has x →
      ((c.fillItem u symbol t).candidate x).root = u →
        ((c.fillItem u symbol t).candidate x).slots = .empty :=
    fun x hx hroot => absurd hroot (hvacant.bare x hx)
  cases filling c u symbol t with
  | placed hundefined heq =>
    rw [heq]
    refine ⟨hfill, hnone, fun done _ hsown => ?_⟩
    obtain ⟨id, s, hsymbol, hdefined⟩ := hsown.defined
    rw [hplaced] at hsymbol
    have hgrammar : c.grammar.symbol? id = some s := hdefined
    rw [hundefined id hsymbol] at hgrammar
    cases hgrammar
  | exhausted _ _ _ heq =>
    rw [heq]
    exact ⟨hfill.trans (evolves_refused _), hnone, fun done h => by cases h⟩
  | @filled id s hsymbol hdefined hroom heq =>
    rw [heq]
    have hstore : Evolves strict (c.fillItem u symbol t)
        ((c.fillItem u symbol t).pushCandidate ((c.fillItem u symbol t).leafOf u s id t)) :=
      .single (.store hroom
        (.leaf hlt (fun _ => habsent) (by rw [hplaced]; exact hsymbol) hdefined))
    refine ⟨hfill.trans (hstore.trans (evolves_setPool_nextCandidate rfl fun _ => habsent)),
      fun x hx hroot => slots_pushCandidate_of_bare hvacant.bare rfl hx hroot,
      fun done _ hsown => ⟨?_, fun x hx hroot => ?_⟩⟩
    · rw [setPool, item_modifyItem_self _ (by exact hlt)]
      exact List.cons_ne_nil _ _
    · have hextent : 0 < t.extent := by
        have hpos := hsown.extent
        rwa [setPool, field_modifyItem Item.extent rfl, item_pushCandidate, hplaced] at hpos
      dsimp only [setPool] at hx hroot ⊢
      rw [candidate_modifyItem] at hroot ⊢
      by_cases hold : (c.fillItem u symbol t).Has x
      · rw [candidate_pushCandidate, if_neg (ne_nextCandidate hold)] at hroot
        exact absurd hroot (hvacant.bare x hold)
      · rw [eq_nextCandidate hold hx, candidate_nextCandidate]
        exact isEmpty_leafOf hextent

/-- An item that has been filled stands where its token stands. -/
theorem place_instantiate
    (hlt : u.index < c.items.size)
    (symbol : Option SymbolId)
    (t : Token) :
    ((c.instantiate u symbol t).2.item u).place =
      (Item.filledAs {} (symbol.filter fun s => s ≠ unrecognized) t).place := by
  have hplace : ((c.fillItem u symbol t).item u).place =
      (Item.filledAs {} (symbol.filter fun s => s ≠ unrecognized) t).place := by
    rw [fillItem, item_modifyItem_self _ hlt]
    rfl
  cases filling c u symbol t with
  | placed _ heq | exhausted _ _ _ heq =>
    rw [heq]
    exact hplace
  | filled _ _ _ heq =>
    rw [heq]
    exact (field_modifyItem Item.place rfl u).trans hplace

theorem place_makeItem
    (symbol : Option SymbolId)
    (t : Token)
    (hu : (c.makeItem symbol t).1 = .ok u) :
    ((c.makeItem symbol t).2.item u).place =
      (Item.filledAs {} (symbol.filter fun s => s ≠ unrecognized) t).place := by
  have hfilled := place_instantiate (c := c.pushItem {}) (u := c.nextItem)
    (by simp [nextItem, pushItem]) symbol t
  cases making c symbol t with
  | refused _ heq | unfilled _ _ heq =>
    rw [heq] at hu
    cases hu
  | made _ hfill heq =>
    rw [hfill] at hfilled
    rw [heq] at hu ⊢
    cases hu
    exact (field_modifyItem Item.place rfl _).trans hfilled

/-- Filled by hand, an item may have been in use. -/
theorem instantiate_moves
    (hfree : ¬ strict)
    (hlt : u.index < c.items.size)
    (symbol : Option SymbolId)
    (t : Token) :
    Moves strict c (c.instantiate u symbol t).2 := by
  have hfill : Moves strict c (c.fillItem u symbol t) := .single (.refill _ hfree rfl rfl rfl)
  cases filling c u symbol t with
  | placed _ heq =>
    rw [heq]
    exact hfill
  | exhausted _ _ _ heq =>
    rw [heq]
    exact hfill.trans (evolves_refused _).moves
  | @filled id s hsymbol hdefined hroom heq =>
    rw [heq]
    have hlt₁ : u.index < (c.fillItem u symbol t).items.size := by
      rw [fillItem, size_items_modifyItem]
      exact hlt
    have hsymbol₁ : ((c.fillItem u symbol t).item u).symbol = some id := by
      rw [fillItem, item_modifyItem_self _ hlt]
      exact hsymbol
    have hstore : Evolves strict (c.fillItem u symbol t)
        ((c.fillItem u symbol t).pushCandidate ((c.fillItem u symbol t).leafOf u s id t)) :=
      .single (.store hroom (.leaf hlt₁ (fun hs => absurd hs hfree) hsymbol₁ hdefined))
    exact hfill.trans (hstore.trans
      (evolves_setPool_nextCandidate rfl fun hs => absurd hs hfree)).moves

/-- An item that was seen and stands in no tower yet. -/
structure Loose (c : Chart) (u : ItemId) : Prop where
  present : (c.item u).present = true
  fixedParent : (c.item u).fixedParent = none
  plain : (c.item u).isAggregate = false

theorem Loose.extend
    (h : c.Loose u)
    (hsteps : Evolves strict c c') :
    c'.Loose u where
  present := hsteps.grows.present u h.present
  fixedParent := (hsteps.fixedParent u).trans h.fixedParent
  plain := (hsteps.grows.isAggregate u (lt_size_of_present h.present)).trans h.plain

theorem makeItem_spec
    (hc : Sound strict c)
    (symbol : Option SymbolId)
    (t : Token) :
    Evolves strict c (c.makeItem symbol t).2 ∧
      ∀ u, (c.makeItem symbol t).1 = .ok u →
        u = c.nextItem ∧ (c.makeItem symbol t).2.Loose u := by
  have hvacant := vacant_pushItem hc.closed
  obtain ⟨hfill, hbare, hsown⟩ := instantiate_spec strict hvacant symbol t
  cases making c symbol t with
  | refused _ heq =>
    rw [heq]
    exact ⟨evolves_refused c, fun u hu => by cases hu⟩
  | unfilled hroom hfilled heq =>
    rw [hfilled] at hfill
    rw [heq]
    exact ⟨(Evolves.single (.allocateItem hroom)).trans hfill, fun u hu => by cases hu⟩
  | @made c₁ hroom hfilled heq =>
    rw [hfilled] at hfill hbare hsown
    rw [heq]
    have hready : Evolves strict c c₁ := (Evolves.single (.allocateItem hroom)).trans hfill
    have hlt : c.nextItem.index < c₁.items.size :=
      Nat.lt_of_lt_of_le hvacant.lt hfill.grows.items_le
    have hplain : (c₁.item c.nextItem).isAggregate = false := by
      rw [hfill.grows.isAggregate _ hvacant.lt, item_pushItem_nextItem]
    have happear : Evolves strict c₁ (c₁.markPresent c.nextItem) :=
      .single (.appear hlt hplain hbare (hsown () rfl))
    refine ⟨hready.trans happear, fun u hu => ?_⟩
    cases hu
    have hblank : c.item c.nextItem = {} := item_of_size_le (Nat.le_refl _)
    refine ⟨rfl, ?_, ?_, ?_⟩
    · dsimp only
      rw [markPresent, item_modifyItem_self _ hlt]
    · refine ((hready.trans happear).fixedParent c.nextItem).trans ?_
      rw [hblank]
    · exact (happear.grows.isAggregate _ hlt).trans hplain

end Filling

section Towers

theorem items_liftAll
    (c : Chart)
    (u : ItemId)
    (r : Relation)
    (pool : List CandidateId) :
    (liftAll u r c pool).2.items = c.items := by
  induction pool generalizing c with
  | nil => rfl
  | cons x rest ih =>
    rcases liftAll_cons c u r x rest with ⟨-, heq⟩ | ⟨c₁, -, rfl, heq⟩ <;> rw [heq]
    · rfl
    · exact ih _

theorem liftAll_spec
    (strict : Prop)
    (pool : List CandidateId)
    (hitem : u.index < c.items.size)
    (hpool : c.RootedAt v pool)
    (hpresent : (c.item v).present = true)
    (hfixed : (c.item v).fixedParent = some (u, r)) :
    Evolves strict c (liftAll u r c pool).2 ∧
      ∀ ids, (liftAll u r c pool).1 = .ok ids →
        List.Forall₂ ((liftAll u r c pool).2.Lifts u r) ids pool := by
  induction pool generalizing c with
  | nil =>
    refine ⟨.refl c, fun ids h => ?_⟩
    cases h
    exact List.Forall₂.nil
  | cons x rest ih =>
    obtain ⟨hx, hroot⟩ := hpool x List.mem_cons_self
    have hrest : c.RootedAt v rest := fun y hy => hpool y (List.mem_cons_of_mem x hy)
    rcases liftAll_cons c u r x rest with ⟨-, heq⟩ | ⟨c₁, hroom, rfl, heq⟩ <;> rw [heq]
    · exact ⟨evolves_refused c, fun ids h => by cases h⟩
    · have hmade : Made strict c ((Candidate.seed u).attach r ⟨x, 0⟩ (c.candidate x)) :=
        .lifted hitem hx (by rw [hroot]; exact fun _ => ⟨hpresent, Or.inr hfixed⟩)
      have hstore : Evolves strict c (c.pushCandidate _) := .single (.store hroom hmade)
      obtain ⟨hsteps, hlifts⟩ := ih
        (c := c.pushCandidate ((Candidate.seed u).attach r ⟨x, 0⟩ (c.candidate x)))
        hitem (hstore.grows.rootedAt hrest) hpresent hfixed
      generalize liftAll u r (c.pushCandidate _) rest = result at hsteps hlifts ⊢
      obtain ⟨outcome, c₁⟩ := result
      refine ⟨hstore.trans hsteps, fun all h => ?_⟩
      cases outcome with
      | error e => cases h
      | ok ids =>
        cases h
        exact .cons ((lifts_pushCandidate hx).extend hsteps.grows) (hlifts ids rfl)

/-- Above its fixed child an item gets the candidates that are lifted from there. -/
theorem placeOver_evolves
    (hc : Sound strict c)
    (hitem : u.index < c.items.size)
    (hbelow : c.Loose v)
    (hplain : (c.item u).isAggregate = false) :
    Evolves strict (c.modifyItem v fun i => { i with fixedParent := some (u, r) })
        (c.placeOver u v r).2 ∧
      ∀ done, (c.placeOver u v r).1 = .ok done →
        ∀ y ∈ ((c.placeOver u v r).2.item u).pool, (c.placeOver u v r).2.Holds y r v := by
  have hfix : Advance strict c (c.modifyItem v fun i => { i with fixedParent := some (u, r) }) :=
    .fix hbelow.fixedParent hitem hplain
  have hlt : u.index < (c.modifyItem v fun i =>
      { i with fixedParent := some (u, r) }).items.size := by
    rw [size_items_modifyItem]
    exact hitem
  have hv₁ : ((c.modifyItem v fun i =>
      { i with fixedParent := some (u, r) }).item v).fixedParent = some (u, r) := by
    rw [item_modifyItem_self _ (lt_size_of_present hbelow.present)]
  have hpresent : ((c.modifyItem v fun i =>
      { i with fixedParent := some (u, r) }).item v).present = true := by
    rw [field_modifyItem Item.present rfl]
    exact hbelow.present
  have hc₁ := hfix.move.sound hc
  obtain ⟨hsteps, hlifts⟩ := liftAll_spec strict _ hlt (hc₁.closed.pool v) hpresent hv₁
  cases placing c u v r with
  | refused hfixed hlift heq =>
    rw [← hfixed] at hsteps ⊢
    rw [hlift] at hsteps
    rw [heq]
    exact ⟨hsteps, fun done h => by cases h⟩
  | @placed pool c₁ c₂ hfixed hlift heq =>
    rw [← hfixed] at hlt hv₁ hpresent hc₁ hsteps hlifts ⊢
    rw [hlift] at hsteps hlifts
    rw [heq]
    have hall := hlifts pool rfl
    have hholds : ∀ y ∈ pool, c₂.Holds y r v := by
      intro y hy
      obtain ⟨x, hx, hlift⟩ := exists_of_mem_forall₂ hall hy
      refine ⟨⟨x, 0⟩, hlift.slot, ?_⟩
      rw [hsteps.grows.root (hc₁.closed.has_of_mem hx)]
      exact hc₁.closed.root_of_mem hx
    have hpool : Evolves strict c₂ (c₂.setPool u pool) := by
      refine .single (.pool (rootedAt_of_lifts hall) (fun hs => ?_)
        (fun _ _ => Or.inr ⟨v, r, (hsteps.fixedParent v).trans hv₁, hholds⟩) fun _ _ hnil => ?_)
      · have hranks : c₂.Ranks (c₁.item v).pool :=
          hsteps.grows.ranks (fun x hx => hc₁.closed.has_of_mem hx) ((hc₁.lawful hs).ranks v)
        refine ⟨isBeam_of_lifts hall hranks.beam, fun hkind => ?_⟩
        rw [hall.length_eq]
        exact hranks.single hkind
      · have hitems := items_liftAll c₁ u r (c₁.item v).pool
        rw [hlift] at hitems
        rw [hnil] at hall
        refine .below (v := v) ((hsteps.fixedParent v).trans hv₁)
          (hsteps.grows.present v hpresent) ?_
        rw [item_of_items_eq hitems]
        exact List.forall₂_nil_left_iff.1 hall
    refine ⟨hsteps.trans hpool, fun done _ y hy => ?_⟩
    have hu : u.index < c₂.items.size := Nat.lt_of_lt_of_le hlt hsteps.grows.items_le
    dsimp only at hy
    rw [setPool, item_modifyItem_self _ hu] at hy
    exact hholds y hy

theorem placeOver_advances
    (hc : Sound strict c)
    (hitem : u.index < c.items.size)
    (hbelow : c.Loose v)
    (hplain : (c.item u).isAggregate = false) :
    Advances strict c (c.placeOver u v r).2 :=
  (Advances.single (.fix hbelow.fixedParent hitem hplain)).trans
    (placeOver_evolves hc hitem hbelow hplain).1.advances

theorem placeOver_spec
    (hc : Sound strict c)
    (hitem : u.index < c.items.size)
    (hbelow : c.Loose v)
    (hne : u ≠ v)
    (hu : c.Loose u) :
    Advances strict c (c.placeOver u v r).2 ∧ (c.placeOver u v r).2.Loose u := by
  obtain ⟨hsteps, -⟩ := placeOver_evolves (r := r) hc hitem hbelow hu.plain
  have hu₁ : (c.modifyItem v fun i => { i with fixedParent := some (u, r) }).Loose u := by
    constructor <;> rw [item_modifyItem, if_neg (fun h => hne h.1)]
    · exact hu.present
    · exact hu.fixedParent
    · exact hu.plain
  exact ⟨placeOver_advances hc hitem hbelow hu.plain, hu₁.extend hsteps⟩

theorem connectInBudget_evolves
    (hc : Sound strict c)
    (u : ItemId) :
    Evolves strict c (c.connectInBudget u) := by
  unfold connectInBudget
  split
  · exact connect_evolves c u hc
  · exact evolves_count c _ rfl rfl rfl (Nat.le_refl _)

/-- An item that is connected and posted. -/
theorem admit_evolves
    (hc : Sound strict c)
    (u : ItemId) :
    Evolves strict c ((c.connectInBudget u).register u) :=
  (connectInBudget_evolves hc u).trans (.single .register)

theorem Admission.advances
    {symbol : Option SymbolId}
    {t : Token}
    {outcome : Except ChartError ItemId × Chart}
    (h : Admission c symbol t outcome)
    (hc : Sound strict c) :
    Advances strict c outcome.2 ∧ ∀ u, outcome.1 = .ok u → outcome.2.Loose u := by
  obtain ⟨hmake, hitem⟩ := makeItem_spec hc symbol t
  cases h with
  | refused hmade heq =>
    rw [hmade] at hmake
    rw [heq]
    exact ⟨hmake.advances, fun u hu => by cases hu⟩
  | @admitted v _ hmade heq =>
    rw [hmade] at hmake hitem
    rw [heq]
    have hposted := admit_evolves (hmake.sound hc) v
    refine ⟨(hmake.trans hposted).advances, fun u hu => ?_⟩
    cases hu
    exact (hitem v rfl).2.extend hposted

theorem feedComposition_spec
    (t : Token)
    (tower : Composition SymbolId)
    (hc : Sound strict c) :
    Advances strict c (feedComposition t tower c).2 ∧
      ∀ u, (feedComposition t tower c).1 = .ok u → (feedComposition t tower c).2.Loose u := by
  induction tower generalizing c with
  | single s => exact (admission_single t s c).advances hc
  | holding s r inner ih =>
    obtain ⟨hinner, hbelow⟩ := ih hc
    -- What is known of a level that has been made, whether or not it is placed.
    have hlevel : ∀ {below v c₁ c₂}, feedComposition t inner c = (.ok below, c₁) →
        c₁.makeItem (some s) t = (.ok v, c₂) →
          Advances strict c (c₂.placeOver v below r).2 ∧ (c₂.placeOver v below r).2.Loose v := by
      intro below v c₁ c₂ hfed hmade
      rw [hfed] at hinner hbelow
      have hc₁ : Sound strict c₁ := hinner.sound hc
      obtain ⟨hmake, hitem⟩ := makeItem_spec hc₁ (some s) t
      rw [hmade] at hmake hitem
      have hloose : c₁.Loose below := hbelow below rfl
      obtain ⟨hv, hvloose⟩ := hitem v rfl
      have hne : v ≠ below := by
        rintro rfl
        have hlt := lt_size_of_present hloose.present
        rw [hv] at hlt
        exact Nat.lt_irrefl _ hlt
      obtain ⟨hplace, hplaced⟩ := placeOver_spec (r := r) (hmake.sound hc₁)
        (lt_size_of_present hvloose.present) (hloose.extend hmake) hne hvloose
      exact ⟨hinner.trans (hmake.advances.trans hplace), hplaced⟩
    cases stacking t s r inner c with
    | incomplete hfed heq =>
      rw [hfed] at hinner
      rw [heq]
      exact ⟨hinner, fun u hu => by cases hu⟩
    | unmade hfed hmade heq =>
      rw [hfed] at hinner
      have hmake := (makeItem_spec (hinner.sound hc) (some s) t).1
      rw [hmade] at hmake
      rw [heq]
      exact ⟨hinner.trans hmake.advances, fun u hu => by cases hu⟩
    | unplaced hfed hmade hplace heq =>
      obtain ⟨hadvances, -⟩ := hlevel hfed hmade
      rw [hplace] at hadvances
      rw [heq]
      exact ⟨hadvances, fun u hu => by cases hu⟩
    | @stacked _ v _ _ _ hfed hmade hplace heq =>
      obtain ⟨hadvances, hplaced⟩ := hlevel hfed hmade
      rw [hplace] at hadvances hplaced
      rw [heq]
      have hposted := admit_evolves (hadvances.sound hc) v
      refine ⟨hadvances.trans hposted.advances, fun u hu => ?_⟩
      cases hu
      exact hplaced.extend hposted

end Towers

end Chart

end BeamChart
