import BeamChart.Proofs.Chart.Selected
import BeamChart.Proofs.Chart.Sight
import BeamChart.Proofs.Chart.Towers

/-!
# What a refused token leaves behind

Nothing is undone when a token is refused. What the failing attempt has made stays in
the arenas, but it is not posted anywhere (`Appends`), and the item that was to be
made is not seen. So the chart is found as it was after the levels of the token's
tower that had been completed until then (`completed`), and as it was before the token
if there are none (`refused_feed_keeps`). Levels that are complete do stay: they are
posted, connected and selected from (`refused_feed_leaves_level`).

A level that was refused while it was placed over the one below has been seen already
and is its fixed parent. It is not posted, but its own leaf may be selected
(`Leaves.select`). No other item changes.
-/

namespace BeamChart

namespace Chart

variable {strict : Prop} {c c' c'' c₁ : Chart} {u v : ItemId} {r : Relation} {t : Token}

/-- What a chart is searched by: the postings, how far they reach, and the end of the chain. -/
def listing (c : Chart) :
    Postings × Postings × Postings × Postings × Nat × Option ItemId :=
  (c.bySymbol, c.byPosition, c.delimiters, c.markers, c.filled, c.tail)

/-- Items and candidates have been appended, and none of them posted. -/
structure Appends (c c' : Chart) : Prop where
  items_le : c.items.size ≤ c'.items.size
  candidates_le : c.candidates.size ≤ c'.candidates.size
  item : ∀ u, u.index < c.items.size → c'.item u = c.item u
  candidate : ∀ x, c.Has x → c'.candidate x = c.candidate x
  listing : c'.listing = c.listing

namespace Appends

theorem refl (c : Chart) :
    Appends c c :=
  ⟨Nat.le_refl _, Nat.le_refl _, fun _ _ => rfl, fun _ _ => rfl, rfl⟩

theorem trans
    (h : Appends c c')
    (k : Appends c' c'') :
    Appends c c'' where
  items_le := Nat.le_trans h.items_le k.items_le
  candidates_le := Nat.le_trans h.candidates_le k.candidates_le
  item u hu := (k.item u (Nat.lt_of_lt_of_le hu h.items_le)).trans (h.item u hu)
  candidate x hx := (k.candidate x (Nat.lt_of_lt_of_le hx h.candidates_le)).trans (h.candidate x hx)
  listing := k.listing.trans h.listing

theorem refused (c : Chart) :
    Appends c c.refused :=
  ⟨Nat.le_refl _, Nat.le_refl _, fun _ _ => rfl, fun _ _ => rfl, rfl⟩

theorem pushItem (c : Chart) (i : Item) :
    Appends c (c.pushItem i) :=
  ⟨by simp [Chart.pushItem], Nat.le_refl _, fun _ hu => item_pushItem_of_lt i hu,
    fun _ _ => rfl, rfl⟩

theorem pushCandidate (c : Chart) (x : Candidate) :
    Appends c (c.pushCandidate x) :=
  ⟨Nat.le_refl _, by simp, fun _ _ => rfl,
    fun _ hy => by rw [candidate_pushCandidate, if_neg (ne_nextCandidate hy)], rfl⟩

/-- What has been appended may change further. -/
theorem modifyItem
    (h : Appends c c')
    (hu : c.items.size ≤ u.index)
    (f : Item → Item) :
    Appends c (c'.modifyItem u f) where
  items_le := by
    rw [size_items_modifyItem]
    exact h.items_le
  candidates_le := h.candidates_le
  item v hv := by
    rw [item_modifyItem_of_ne f (by rintro rfl; exact Nat.not_lt_of_le hu hv)]
    exact h.item v hv
  candidate := h.candidate
  listing := h.listing

end Appends

section Making

theorem Cut.appends (h : c.Cut c') :
    Appends c c' := by
  cases h with
  | item => exact .refused c
  | leaf i => exact (Appends.pushItem c i).trans (.refused _)

/-- An item that was refused was not seen. -/
theorem Cut.absent
    (h : c.Cut c')
    (hu : c.items.size ≤ u.index) :
    (c'.item u).present = false := by
  cases h with
  | item =>
    rw [Chart.refused, item_count, item_of_size_le hu]
  | leaf i hhidden =>
    rw [Chart.refused, item_count, item_pushItem]
    split
    · exact hhidden
    · rw [item_of_size_le hu]

/-- An item that has been made is not posted yet. -/
theorem appends_makeItem
    (c : Chart)
    (symbol : Option SymbolId)
    (t : Token) :
    Appends c (c.makeItem symbol t).2 := by
  rcases c.makeItem_outcome symbol t with heq | ⟨reserve, c', heq, hcut⟩ <;> rw [heq]
  · unfold unpostedAs
    dsimp only
    split
    · exact .pushItem c _
    · exact (Appends.pushItem c _).trans (.pushCandidate _ _)
  · exact hcut.appends

theorem makeItem_absent
    (symbol : Option SymbolId)
    {e : ChartError}
    (he : (c.makeItem symbol t).1 = .error e)
    (hu : c.items.size ≤ u.index) :
    ((c.makeItem symbol t).2.item u).present = false := by
  rcases c.makeItem_outcome symbol t with heq | ⟨reserve, c', heq, hcut⟩ <;> rw [heq] at he ⊢
  · cases he
  · exact hcut.absent hu

theorem appends_liftAll
    (c : Chart)
    (u : ItemId)
    (r : Relation)
    (pool : List CandidateId) :
    Appends c (liftAll u r c pool).2 := by
  induction pool generalizing c with
  | nil => exact .refl c
  | cons x rest ih =>
    rcases liftAll_cons c u r x rest with ⟨-, heq⟩ | ⟨c₁, -, rfl, heq⟩ <;> rw [heq]
    · exact .refused c
    · exact (Appends.pushCandidate c _).trans (ih _)

/-- A level that could not be placed over the one below has become its fixed parent. -/
theorem appends_placeOver
    {e : ChartError}
    (he : (c.placeOver u v r).1 = .error e) :
    Appends (c.modifyItem v fun i => { i with fixedParent := some (u, r) })
        (c.placeOver u v r).2 ∧
      (c.placeOver u v r).2.items.size = c.items.size := by
  have hsize := size_items_modifyItem c v fun i => { i with fixedParent := some (u, r) }
  cases placing c u v r with
  | @refused _ c₁ _ hfixed hlifted heq =>
    have hlift := appends_liftAll c₁ u r (c₁.item v).pool
    have hitems := items_liftAll c₁ u r (c₁.item v).pool
    rw [← hfixed] at hsize ⊢
    rw [hlifted] at hlift hitems
    rw [heq]
    exact ⟨hlift, (congrArg Array.size hitems).trans hsize⟩
  | placed _ _ heq =>
    rw [heq] at he
    cases he

/-- What the last item has got from a token: its own leaf, and nothing else. -/
def LeafOnly (c c' : Chart) (t : Token) (x : CandidateId) : Prop :=
  (c'.item c.nextItem).pool = [x] ∧ x = c.nextCandidate ∧
    ∃ s id, c'.candidate x = c.leafOf c.nextItem s id t

/-- An item that has been made has one candidate at most, its leaf. -/
theorem makeItem_leafOnly
    (symbol : Option SymbolId)
    (hok : (c.makeItem symbol t).1 = .ok u)
    {x : CandidateId}
    (hx : x ∈ ((c.makeItem symbol t).2.item c.nextItem).pool) :
    c.LeafOnly (c.makeItem symbol t).2 t x ∧ (c.makeItem symbol t).2.Has x := by
  rcases c.makeItem_outcome symbol t with heq | ⟨reserve, c', heq, hcut⟩ <;> rw [heq] at hok hx ⊢
  · unfold unpostedAs at hx ⊢
    cases hleaf : c.leafAs? (symbol.filter fun s => s ≠ unrecognized) t with
    | none =>
      simp only [hleaf, item_pushItem_nextItem] at hx
      cases hx
    | some leaf =>
      simp only [hleaf, item_pushCandidate, item_pushItem_nextItem] at hx ⊢
      obtain rfl := List.mem_singleton.1 hx
      obtain ⟨id, -, hdefined⟩ := Option.bind_eq_some_iff.1 hleaf
      obtain ⟨s, -, hs⟩ := Option.map_eq_some_iff.1 hdefined
      refine ⟨⟨?_, rfl, s, id, ?_⟩, has_nextCandidate (c.pushItem _) leaf⟩
      · rw [item_pushCandidate, item_pushItem_nextItem]
        rfl
      · rw [hs]
        exact candidate_nextCandidate (c.pushItem _) leaf
  · cases hok

/-- An item that has been made stands last. -/
theorem makeItem_last
    (symbol : Option SymbolId)
    (hok : (c.makeItem symbol t).1 = .ok u) :
    u = c.nextItem ∧ (c.makeItem symbol t).2.items.size = c.items.size + 1 := by
  rcases c.makeItem_outcome symbol t with heq | ⟨reserve, c', heq, hcut⟩ <;> rw [heq] at hok ⊢
  · cases hok
    refine ⟨rfl, ?_⟩
    unfold unpostedAs
    dsimp only
    split <;> exact Array.size_push _
  · cases hok

end Making

section Levels

/--
The chart after as many inner levels of a tower as can be completed, if not all of
them can, with the item of the uppermost of these levels.
-/
def completed (t : Token) : Composition SymbolId → Chart → Option ItemId × Chart
  | .single _, c => (none, c)
  | .holding _ _ inner, c =>
    match feedComposition t inner c with
    | (.ok u, c) => (some u, c)
    | (.error _, _) => completed t inner c

/-- The inner levels that a token completes before it is refused. -/
def completedBefore (c : Chart) (t : Token) : Option ItemId × Chart :=
  if c.settings.window < t.stop then (none, c)
  else
    match ((c.symbolOf? t).bind c.grammar.symbol?).bind fun s => s.composition with
    | some tower => completed t tower c
    | none => (none, c)

/-- What stands over the completed levels when the next one has been refused. -/
inductive Leaves (t : Token) (top : Option ItemId) (c c' : Chart) : Prop
  /-- The item of the next level was not made. -/
  | unmade
      (happends : Appends c c')
      (habsent : ∀ u, c.items.size ≤ u.index → (c'.item u).present = false)
  /-- It was made, but not placed over the uppermost level. -/
  | unplaced
      {c₁ : Chart}
      {below : ItemId}
      {r : Relation}
      (htop : top = some below)
      (hbelow : below.index < c.items.size)
      (hmade : Appends c c₁)
      (hnext : c₁.items.size = c.items.size + 1)
      (hleaf : ∀ x ∈ (c₁.item c.nextItem).pool, c.LeafOnly c₁ t x ∧ c₁.Has x)
      (happends : Appends
        (c₁.modifyItem below fun i => { i with fixedParent := some (c.nextItem, r) }) c')
      (hlast : c'.items.size = c₁.items.size)

theorem Leaves.listing
    {top : Option ItemId}
    (h : Leaves t top c c') :
    c'.listing = c.listing := by
  cases h with
  | unmade happends => exact happends.listing
  | unplaced _ _ hmade _ _ happends => exact happends.listing.trans hmade.listing

theorem Leaves.candidate
    {top : Option ItemId}
    (h : Leaves t top c c')
    {x : CandidateId}
    (hx : c.Has x) :
    c'.candidate x = c.candidate x := by
  cases h with
  | unmade happends => exact happends.candidate x hx
  | unplaced _ _ hmade _ _ happends =>
    exact (happends.candidate x (Nat.lt_of_lt_of_le hx hmade.candidates_le)).trans
      (hmade.candidate x hx)

theorem Leaves.items_le
    {top : Option ItemId}
    (h : Leaves t top c c') :
    c.items.size ≤ c'.items.size := by
  cases h with
  | unmade happends => exact happends.items_le
  | unplaced _ _ hmade _ _ _ hlast => exact hlast ▸ hmade.items_le

/-- Of the items that were there, only the uppermost level may have got a fixed parent. -/
theorem Leaves.item
    {top : Option ItemId}
    (h : Leaves t top c c')
    (hu : u.index < c.items.size) :
    ∃ p, c'.item u = { c.item u with fixedParent := p } ∧
      (top ≠ some u → p = (c.item u).fixedParent) := by
  cases h with
  | unmade happends => exact ⟨_, happends.item u hu, fun _ => rfl⟩
  | @unplaced c₁ below r htop hbelow hmade _ _ happends =>
    have hlt : u.index < (c₁.modifyItem below fun i =>
        { i with fixedParent := some (c.nextItem, r) }).items.size := by
      rw [size_items_modifyItem]
      exact Nat.lt_of_lt_of_le hu hmade.items_le
    rw [happends.item u hlt]
    by_cases hne : u = below
    · subst hne
      rw [item_modifyItem_self _ (Nat.lt_of_lt_of_le hu hmade.items_le), hmade.item u hu]
      exact ⟨_, rfl, fun h => absurd htop h⟩
    · rw [item_modifyItem_of_ne _ (Ne.symm hne), hmade.item u hu]
      exact ⟨_, rfl, fun _ => rfl⟩

/--
What is selected is the same, unless it is the leaf of the level that has become the
fixed parent of the uppermost one.
-/
theorem Leaves.select
    {top : Option ItemId}
    (h : Leaves t top c c')
    (hc : Closed c) :
    c'.select.1 = c.select.1 ∨
      ∃ below r x, top = some below ∧ (c'.item below).fixedParent = some (c.nextItem, r) ∧
        c.LeafOnly c' t x ∧ c'.select.1 = some x := by
  have hold : ∀ u, u.index < c.items.size → c'.contendersAt u = c.contendersAt u := by
    intro u hu
    obtain ⟨p, hitem, -⟩ := h.item hu
    exact contendersAt_congr (by rw [hitem]) (by rw [hitem]) (by rw [hitem])
      fun x hx => h.candidate (hc.has_of_mem hx)
  have hweight : ∀ e ∈ c.contenders, c'.weightOf e.2 = c.weightOf e.2 := by
    intro e he
    obtain ⟨w, -, -, hpool, -⟩ := mem_contenders.1 he
    exact congrArg Candidate.weight (h.candidate (hc.has_of_mem hpool))
  refine (select_appended h.items_le hold hweight).imp_right fun ⟨w, e, hw, he, hselect⟩ => ?_
  obtain ⟨hpresent, hpool⟩ := mem_contendersAt he
  -- A further contender belongs to an item that was seen, which only a made level was.
  cases h with
  | unmade happends habsent =>
    rw [habsent w hw] at hpresent
    cases hpresent
  | @unplaced c₁ below r htop hbelow hmade hnext hleaf happends hlast =>
    have hlt := lt_size_of_present hpresent
    obtain rfl : w = c.nextItem := by
      cases w
      simp only [nextItem, ItemId.mk.injEq]
      simp only at hw hlt
      omega
    have hlt₁ : below.index < c₁.items.size := Nat.lt_of_lt_of_le hbelow hmade.items_le
    have hne : below ≠ c.nextItem := by
      rintro rfl
      exact Nat.lt_irrefl _ hbelow
    have hlevel : c'.item c.nextItem = c₁.item c.nextItem := by
      rw [happends.item c.nextItem (by rwa [size_items_modifyItem, ← hlast]),
        item_modifyItem_of_ne _ hne]
    rw [hlevel] at hpool
    obtain ⟨⟨hone, hplace, s, id, hcandidate⟩, hhas⟩ := hleaf e.2 hpool
    refine ⟨below, r, e.2, htop, ?_, ⟨by rw [hlevel]; exact hone, hplace, s, id, ?_⟩, hselect⟩
    · rw [happends.item below (by rwa [size_items_modifyItem]), item_modifyItem_self _ hlt₁]
    · exact (happends.candidate e.2 hhas).trans hcandidate

theorem completed_of_ok
    {s : SymbolId}
    {inner : Composition SymbolId}
    (h : feedComposition t inner c = (.ok u, c')) :
    completed t (.holding s r inner) c = (some u, c') := by
  simp only [completed, h]

theorem completed_of_error
    {s : SymbolId}
    {inner : Composition SymbolId}
    {e : ChartError}
    (h : feedComposition t inner c = (.error e, c')) :
    completed t (.holding s r inner) c = completed t inner c := by
  simp only [completed, h]

/-- An item that is refused leaves nothing over what was there. -/
theorem Admission.leaves
    {symbol : Option SymbolId}
    {outcome : Except ChartError ItemId × Chart}
    (h : Admission c symbol t outcome)
    {e : ChartError}
    (he : outcome.1 = .error e) :
    Leaves t none c outcome.2 := by
  have happends := appends_makeItem c symbol t
  cases h with
  | refused hmade heq =>
    have habsent := fun u => makeItem_absent (u := u) symbol (congrArg Prod.fst hmade)
    rw [hmade] at happends habsent
    rw [heq]
    exact .unmade happends habsent
  | admitted _ heq =>
    rw [heq] at he
    cases he

theorem feedComposition_refused
    (t : Token)
    (tower : Composition SymbolId)
    (hc : Sound strict c)
    {e : ChartError}
    (he : (feedComposition t tower c).1 = .error e) :
    Sound strict (completed t tower c).2 ∧
      Leaves t (completed t tower c).1 (completed t tower c).2 (feedComposition t tower c).2 := by
  induction tower generalizing e with
  | single s => exact ⟨hc, (admission_single t s c).leaves he⟩
  | holding s r inner ih =>
    obtain ⟨hinner, hbelow⟩ := feedComposition_spec t inner hc
    cases stacking t s r inner c with
    | incomplete hfed heq =>
      have hleaves := ih (congrArg Prod.fst hfed)
      rw [heq, completed_of_error hfed]
      rw [hfed] at hleaves
      exact hleaves
    | @unmade _ _ c₁ _ hfed hmade heq =>
      have happends := appends_makeItem c₁ (some s) t
      have habsent := fun u => makeItem_absent (u := u) (some s) (congrArg Prod.fst hmade)
      rw [hfed] at hinner
      rw [hmade] at happends habsent
      rw [heq, completed_of_ok hfed]
      exact ⟨hinner.sound hc, .unmade happends habsent⟩
    | @unplaced below u _ c₁ c₂ _ hfed hmade hplaced heq =>
      have happends := appends_makeItem c₁ (some s) t
      obtain ⟨rfl, hsize⟩ := makeItem_last (some s) (congrArg Prod.fst hmade)
      have hleaf := fun x => makeItem_leafOnly (x := x) (some s) (congrArg Prod.fst hmade)
      obtain ⟨hplace, hkept⟩ := appends_placeOver (congrArg Prod.fst hplaced)
      rw [hfed] at hinner hbelow
      rw [hmade] at happends hsize hleaf
      rw [hplaced] at hplace hkept
      rw [heq, completed_of_ok hfed]
      exact ⟨hinner.sound hc, .unplaced rfl (lt_size_of_present (hbelow below rfl).present)
        happends hsize (fun x hx => hleaf x hx) hplace hkept⟩
    | stacked _ _ _ heq =>
      rw [heq] at he
      cases he

end Levels

section Towers

/-- A tower is built of new items: nothing that was there gets a fixed parent. -/
structure Apart (c : Chart) (top : Option ItemId) (c' : Chart) : Prop where
  items_le : c.items.size ≤ c'.items.size
  fixedParent : ∀ u, u.index < c.items.size → (c'.item u).fixedParent = (c.item u).fixedParent
  top : ∀ u, top = some u → c.items.size ≤ u.index

namespace Apart

theorem refl (c : Chart) :
    Apart c none c :=
  ⟨Nat.le_refl _, fun _ _ => rfl, fun _ h => by cases h⟩

/-- Steps do not touch towers. -/
theorem evolve
    {top top' : Option ItemId}
    (h : Apart c top c')
    (hsteps : Evolves strict c' c'')
    (htop : ∀ u, top' = some u → c.items.size ≤ u.index) :
    Apart c top' c'' where
  items_le := Nat.le_trans h.items_le hsteps.grows.items_le
  fixedParent u hu := (hsteps.fixedParent u).trans (h.fixedParent u hu)
  top := htop

theorem fix
    {top : Option ItemId}
    (h : Apart c top c')
    (htop : top = some v) :
    Apart c top (c'.modifyItem v fun i => { i with fixedParent := some (u, r) }) where
  items_le := by
    rw [size_items_modifyItem]
    exact h.items_le
  fixedParent w hw := by
    have hne : v ≠ w := by
      rintro rfl
      exact Nat.not_lt_of_le (h.top v htop) hw
    rw [item_modifyItem_of_ne _ hne]
    exact h.fixedParent w hw
  top := h.top

end Apart

theorem feedComposition_apart
    (t : Token)
    (tower : Composition SymbolId)
    (hc : Sound strict c) :
    Apart c (feedComposition t tower c).1.toOption (feedComposition t tower c).2 := by
  induction tower with
  | single s =>
    obtain ⟨hmake, hitem⟩ := makeItem_spec hc (some s) t
    cases admission_single t s c with
    | refused hmade heq =>
      rw [hmade] at hmake
      rw [heq]
      exact (Apart.refl c).evolve hmake fun u h => by cases h
    | @admitted v _ hmade heq =>
      rw [hmade] at hmake hitem
      rw [heq]
      refine (Apart.refl c).evolve (hmake.trans (admit_evolves (hmake.sound hc) v)) fun u h => ?_
      cases h
      rw [(hitem v rfl).1]
      exact Nat.le_refl _
  | holding s r inner ih =>
    obtain ⟨hinner, hbelow⟩ := feedComposition_spec t inner hc
    have hplaces : ∀ {below v c₁ c₂}, feedComposition t inner c = (.ok below, c₁) →
        c₁.makeItem (some s) t = (.ok v, c₂) → c.items.size ≤ v.index ∧
          Sound strict (c₂.placeOver v below r).2 ∧
            Apart c (some below) (c₂.placeOver v below r).2 := by
      intro below v c₁ c₂ hfed hmade
      rw [hfed] at ih hinner hbelow
      have hc₁ : Sound strict c₁ := hinner.sound hc
      obtain ⟨hmake, hitem⟩ := makeItem_spec hc₁ (some s) t
      rw [hmade] at hmake hitem
      obtain ⟨hv, hloose⟩ := hitem v rfl
      have hmade : Apart c (some below) c₂ := ih.evolve hmake ih.top
      have hc₂ : Sound strict c₂ := hmake.sound hc₁
      have hlt : v.index < c₂.items.size := lt_size_of_present hloose.present
      obtain ⟨hsteps, -⟩ := placeOver_evolves (r := r) hc₂ hlt
        ((hbelow below rfl).extend hmake) hloose.plain
      have hadvances := placeOver_advances (r := r) hc₂ hlt
        ((hbelow below rfl).extend hmake) hloose.plain
      have hfix := hmade.fix (u := v) (r := r) rfl
      refine ⟨?_, hadvances.sound hc₂, hfix.evolve hsteps hfix.top⟩
      rw [hv]
      exact ih.items_le
    cases stacking t s r inner c with
    | incomplete hfed heq =>
      rw [hfed] at ih
      rw [heq]
      exact ih
    | @unmade _ _ c₁ _ hfed hmade heq =>
      rw [hfed] at ih hinner
      obtain ⟨hmake, -⟩ := makeItem_spec (hinner.sound hc) (some s) t
      rw [hmade] at hmake
      rw [heq]
      exact ih.evolve hmake fun u h => by cases h
    | unplaced hfed hmade hplaced heq =>
      obtain ⟨-, -, hall⟩ := hplaces hfed hmade
      rw [hplaced] at hall
      rw [heq]
      exact ⟨hall.items_le, hall.fixedParent, fun u h => by cases h⟩
    | @stacked _ v _ _ _ hfed hmade hplaced heq =>
      obtain ⟨hlater, hc₃, hall⟩ := hplaces hfed hmade
      rw [hplaced] at hc₃ hall
      rw [heq]
      refine hall.evolve (admit_evolves hc₃ v) fun u h => ?_
      cases h
      exact hlater

theorem completed_apart
    (t : Token)
    (tower : Composition SymbolId)
    (hc : Sound strict c) :
    Apart c (completed t tower c).1 (completed t tower c).2 := by
  induction tower with
  | single s => exact .refl c
  | holding s r inner ih =>
    have hinner := feedComposition_apart t inner hc
    rcases hfed : feedComposition t inner c with ⟨e | u, c₁⟩
    · rw [completed_of_error hfed]
      exact ih
    · rw [hfed] at hinner
      rw [completed_of_ok hfed]
      exact hinner

theorem completed_none
    (t : Token)
    (tower : Composition SymbolId)
    (h : (completed t tower c).1 = none) :
    (completed t tower c).2 = c := by
  induction tower with
  | single s => rfl
  | holding s r inner ih =>
    rcases hfed : feedComposition t inner c with ⟨e | u, c₁⟩
    · rw [completed_of_error hfed] at h ⊢
      exact ih h
    · rw [completed_of_ok hfed] at h
      cases h

end Towers

/-- A refused token has completed some levels, and left nothing over them that is found. -/
theorem feed_refused
    (hc : Sound strict c)
    {e : ChartError}
    (he : (c.feed t).1 = .error e) :
    Sound strict (c.completedBefore t).2 ∧
      Apart c (c.completedBefore t).1 (c.completedBefore t).2 ∧
        Leaves t (c.completedBefore t).1 (c.completedBefore t).2 (c.feed t).2 ∧
          ((c.completedBefore t).1 = none → (c.completedBefore t).2 = c) := by
  unfold feed at he ⊢
  cases taking c (c.symbolOf? t) t with
  | beyond hwindow heq =>
    rw [heq, completedBefore, if_pos hwindow]
    refine ⟨hc, .refl c, .unmade (.refl c) fun u hu => ?_, fun _ => rfl⟩
    rw [item_of_size_le hu]
  | @tower levels hwindow hlevels heq =>
    have hcompleted : c.completedBefore t = completed t levels c := by
      simp only [completedBefore, if_neg (Nat.not_lt_of_le hwindow), hlevels]
    rw [heq] at he ⊢
    rw [hcompleted]
    obtain ⟨hsound, hleaves⟩ := feedComposition_refused t levels hc he
    exact ⟨hsound, completed_apart t levels hc, hleaves, completed_none t levels⟩
  | single hwindow hplain hadmission =>
    have hcompleted : c.completedBefore t = (none, c) := by
      simp only [completedBefore, if_neg (Nat.not_lt_of_le hwindow), hplain]
    rw [hcompleted]
    exact ⟨hc, .refl c, hadmission.leaves he, fun _ => rfl⟩

/--
After a refused token a chart is as it was after the levels that the token had
completed: the postings and the candidates are the same, and so are the items, but for the
fixed parent of the uppermost of these levels. No item that was there before the token has
got a fixed parent. The same candidate is selected, unless it is the leaf of the level that was
refused after it had become that fixed parent. Where no level had been completed this is the
chart before the token.
-/
theorem refused_feed_keeps
    {g : Grammar}
    {s : Settings}
    (h : Operated g s c)
    {e : ChartError}
    (he : (c.feed t).1 = .error e) :
    (c.feed t).2.listing = (c.completedBefore t).2.listing ∧
      (∀ x, (c.completedBefore t).2.Has x →
        (c.feed t).2.candidate x = (c.completedBefore t).2.candidate x) ∧
      (∀ u, u.index < (c.completedBefore t).2.items.size → ∃ p,
        (c.feed t).2.item u = { (c.completedBefore t).2.item u with fixedParent := p } ∧
          ((c.completedBefore t).1 ≠ some u →
            p = ((c.completedBefore t).2.item u).fixedParent)) ∧
      (∀ u, u.index < c.items.size →
        ((c.feed t).2.item u).fixedParent = (c.item u).fixedParent) ∧
      ((c.feed t).2.select.1 = (c.completedBefore t).2.select.1 ∨
        ∃ top r x, (c.completedBefore t).1 = some top ∧
          ((c.feed t).2.item top).fixedParent =
            some ((c.completedBefore t).2.nextItem, r) ∧
          (c.completedBefore t).2.LeafOnly (c.feed t).2 t x ∧
          (c.feed t).2.select.1 = some x) ∧
      ((c.completedBefore t).1 = none → (c.completedBefore t).2 = c) := by
  have hc : Sound False c := h.kept.sound
  obtain ⟨hsound, hapart, hleaves, hnone⟩ := feed_refused hc he
  refine ⟨hleaves.listing, fun x hx => hleaves.candidate hx, fun u hu => hleaves.item hu,
    fun u hu => ?_, hleaves.select hsound.closed, hnone⟩
  have hne : (c.completedBefore t).1 ≠ some u := fun htop =>
    Nat.not_lt_of_le (hapart.top u htop) hu
  obtain ⟨p, hitem, hp⟩ := hleaves.item (Nat.lt_of_lt_of_le hu hapart.items_le)
  rw [hitem]
  exact (hp hne).trans (hapart.fixedParent u hu)

/-- A word over its stem, and a phrase over both of them. -/
def phraseDeclaration : Declaration :=
  { symbols :=
      [{ name := "stem" },
        { name := "word", composition := some (.holding "word" .run (.single "stem")) },
        { name := "phrase",
          composition := some (.holding "phrase" .run
            (.holding "word" .run (.single "stem"))) }] }

/-- A phrase is fed to a chart that has room for its leaf, and not for what is lifted to it. -/
def crampedChart : Chart :=
  new phraseDeclaration.built { candidateCapacity := 4 }

def phraseToken : Token :=
  { concept := 3, position := 0, extent := 1 }

/-- The phrase cannot be placed over its word; the stem below them stays as it was. -/
theorem refused_feed_keeps_sample :
    (crampedChart.feed phraseToken).1 = .error (.exhausted .candidates) ∧
      (crampedChart.completedBefore phraseToken).1 = some ⟨1⟩ ∧
      ((crampedChart.feed phraseToken).2.item ⟨1⟩).fixedParent = some (⟨2⟩, .run) ∧
      (crampedChart.feed phraseToken).2.listing =
        (crampedChart.completedBefore phraseToken).2.listing ∧
      (crampedChart.feed phraseToken).2.item ⟨0⟩ =
        (crampedChart.completedBefore phraseToken).2.item ⟨0⟩ := by
  have he : (crampedChart.feed phraseToken).1 = .error (.exhausted .candidates) := by
    decide +kernel
  have htop : (crampedChart.completedBefore phraseToken).1 = some ⟨1⟩ := by decide +kernel
  have hlt : 0 < (crampedChart.completedBefore phraseToken).2.items.size := by decide +kernel
  obtain ⟨hlisting, -, hitem, -⟩ := refused_feed_keeps (c := crampedChart) .new he
  obtain ⟨p, hstem, hp⟩ := hitem ⟨0⟩ hlt
  refine ⟨he, htop, by decide +kernel, hlisting, ?_⟩
  rw [hstem, hp (by rw [htop]; decide)]

/-- A chart with room for one item only. -/
def singleChart : Chart :=
  new (towerDeclaration []).built { itemCapacity := 1 }

/-- A word, which is built over its stem. -/
def wordToken : Token :=
  { concept := 2, position := 0, extent := 1 }

/-- A word that is refused leaves its stem: it is posted, and selected. -/
theorem refused_feed_leaves_level :
    Operated (towerDeclaration []).built { itemCapacity := 1 } singleChart ∧
      (singleChart.feed wordToken).1 = .error (.exhausted .items) ∧
      singleChart.byPosition.under 0 = [] ∧
      (singleChart.feed wordToken).2.byPosition.under 0 = [⟨0⟩] ∧
      singleChart.select.1 = none ∧
      (singleChart.feed wordToken).2.select.1 = some ⟨0⟩ :=
  ⟨.new, by decide +kernel⟩

end Chart

end BeamChart
