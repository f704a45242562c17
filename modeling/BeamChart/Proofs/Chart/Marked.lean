import BeamChart.Proofs.Chart.Run

/-!
# Markers stand where they were registered

A marker is posted once, when it is registered, under the position that it has
then, and behind the markers that are there (`markers_register`). So the marker
that decides between two peers is found under the leftmost position of the gap
that has one stopping in time, and is the one that was registered there first
(`markerBetween?_eq_some_iff`).

Filling an item by hand does not move its posting. Where no registered item is
filled (`Kempt`), the markers under a position are exactly the registered markers
that start there (`Kempt.markersListed`).
-/

namespace BeamChart

namespace Postings

variable {p : Postings} {lower upper key : Nat} {accept : ItemId → Bool} {u v : ItemId}

theorem mem_under :
    u ∈ p.under key ↔ (key, u) ∈ p.entries := by
  simp [under]

/-- What is found first stands in front of all that would be accepted. -/
theorem firstBetween?_spec
    (h : p.Ordered)
    (hfirst : p.firstBetween? lower upper accept = some u) :
    ∃ key, lower ≤ key ∧ key < upper ∧ (p.under key).find? accept = some u ∧
      ∀ k, lower ≤ k → k < key → ∀ v ∈ p.under k, accept v = false := by
  rw [firstBetween?, Option.map_eq_some_iff] at hfirst
  obtain ⟨⟨key, v⟩, hfind, rfl⟩ := hfirst
  rw [List.find?_eq_some_iff_append] at hfind
  obtain ⟨htest, front, back, hsplit, hfront⟩ := hfind
  simp only [Bool.and_eq_true, decide_eq_true_eq] at htest
  obtain ⟨⟨hlower, hupper⟩, haccept⟩ := htest
  have hrefused : ∀ e ∈ front, lower ≤ e.1 → e.1 < upper → accept e.2 = false := by
    intro e he hle hlt
    simpa [hle, hlt] using hfront e he
  refine ⟨key, hlower, hupper, ?_, ?_⟩
  · rw [under, hsplit, List.filter_append, List.map_append, List.find?_append,
      List.find?_eq_none.2, Option.none_or]
    · simp [haccept]
    · intro w hw
      obtain ⟨e, he, rfl⟩ := List.mem_map.1 hw
      obtain ⟨hmem, hkey⟩ := List.mem_filter.1 he
      have hsame : e.1 = key := of_decide_eq_true hkey
      simp [hrefused e hmem (by omega) (by omega)]
  · intro k hk hlt w hw
    rw [mem_under, hsplit] at hw
    rcases List.mem_append.1 hw with hbefore | hbehind
    · exact hrefused _ hbefore hk (Nat.lt_trans hlt hupper)
    · -- behind the first one the keys are not smaller
      have hordered := h
      rw [Ordered, hsplit, List.pairwise_append, List.pairwise_cons] at hordered
      rcases List.mem_cons.1 hbehind with heq | hback
      · cases heq
        exact absurd hlt (Nat.lt_irrefl _)
      · have := hordered.2.1.1 _ hback
        omega

/-- The first accepted item is that of the leftmost key that has one. -/
theorem firstBetween?_eq_some_iff
    (h : p.Ordered) :
    p.firstBetween? lower upper accept = some u ↔
      ∃ key, lower ≤ key ∧ key < upper ∧ (p.under key).find? accept = some u ∧
        ∀ k, lower ≤ k → k < key → ∀ v ∈ p.under k, accept v = false := by
  refine ⟨firstBetween?_spec h, ?_⟩
  rintro ⟨key, hlower, hupper, hfind, hleft⟩
  have haccept : accept u = true := List.find?_some hfind
  have hmem : u ∈ p.under key := List.mem_of_find?_eq_some hfind
  have hsome : (p.firstBetween? lower upper accept).isSome := by
    rw [firstBetween?, Option.isSome_map, List.find?_isSome]
    exact ⟨(key, u), mem_under.1 hmem, by simp [hlower, hupper, haccept]⟩
  obtain ⟨v, hv⟩ := Option.isSome_iff_exists.1 hsome
  obtain ⟨other, hlower', hupper', hfind', hleft'⟩ := firstBetween?_spec h hv
  -- each of the two keys would have been passed over for the other
  have hkey : key = other := by
    rcases Nat.lt_trichotomy key other with hlt | heq | hlt
    · have := hleft' key hlower hlt u hmem
      rw [haccept] at this
      cases this
    · exact heq
    · have := hleft other hlower' hlt v (List.mem_of_find?_eq_some hfind')
      rw [List.find?_some hfind'] at this
      cases this
  rw [hkey, hfind'] at hfind
  rw [hv, hfind]

end Postings

namespace Item

/-- What an item is listed by among the markers. -/
def mark (i : Item) : Option SymbolId × Nat × Bool :=
  (i.symbol, i.position, i.registered)

end Item

namespace Chart

variable {strict : Prop} {g : Grammar} {s : Settings} {c c' : Chart} {u v : ItemId}

/-- The symbol of the item is recognized, and is a group marker or an alternation marker. -/
def IsMarker (c : Chart) (u : ItemId) : Prop :=
  ∃ s, c.recognized? u = some s ∧ (c.kindOf s = .groupMarker ∨ c.kindOf s = .alternationMarker)

section Posting

theorem isMarker_congr
    (hgrammar : c'.grammar = c.grammar)
    (hsymbol : (c'.item u).symbol = (c.item u).symbol) :
    c'.IsMarker u ↔ c.IsMarker u := by
  simp only [IsMarker, recognized?, kindOf, hgrammar, hsymbol]

theorem IsMarker.lt_size
    (h : c.IsMarker u) :
    u.index < c.items.size := by
  obtain ⟨s, hs, -⟩ := h
  by_contra hlt
  rw [recognized?, item_of_size_le (Nat.le_of_not_lt hlt)] at hs
  cases hs

/-- Registering posts a marker behind the others of its position, and nothing else among them. -/
theorem markers_register
    (hfresh : (c.item u).registered = false) :
    c.IsMarker u ∧ (c.register u).markers = c.markers.add (c.item u).position u ∨
      ¬ c.IsMarker u ∧ (c.register u).markers = c.markers := by
  have hother : ∀ {s}, c.recognized? u = some s → c.kindOf s ≠ .groupMarker →
      c.kindOf s ≠ .alternationMarker → ¬ c.IsMarker u := by
    rintro s hs hgroup halternation ⟨s', hs', h⟩
    rw [hs] at hs'
    cases hs'
    exact h.elim hgroup halternation
  cases posting c u with
  | repeated hregistered =>
    rw [hfresh] at hregistered
    cases hregistered
  | unrecognized _ hnone heq =>
    rw [heq]
    refine Or.inr ⟨?_, rfl⟩
    rintro ⟨s, hs, -⟩
    rw [hnone] at hs
    cases hs
  | separator _ hsymbol hkind heq =>
    rw [heq]
    exact Or.inr ⟨hother hsymbol (by rw [hkind]; decide) (by rw [hkind]; decide), rfl⟩
  | @marker s _ hsymbol hkind heq =>
    rw [heq]
    exact Or.inl ⟨⟨s, hsymbol, hkind⟩, rfl⟩
  | ordinary _ hsymbol hkind heq =>
    rw [heq]
    exact Or.inr ⟨hother hsymbol (by rw [hkind]; decide) (by rw [hkind]; decide), rfl⟩

/-- A move leaves the markers as they are posted, or posts one more. -/
theorem Move.markers
    (h : Move strict c c') :
    c'.markers = c.markers ∨ ∃ key u, c'.markers = c.markers.add key u := by
  cases h with
  | step h =>
    cases h with
    | @register u =>
      by_cases hreg : (c.item u).registered = true
      · rw [register_of_registered hreg]
        exact Or.inl rfl
      · rcases markers_register (eq_false_of_ne_true hreg) with ⟨-, heq⟩ | ⟨-, heq⟩
        · exact Or.inr ⟨_, _, heq⟩
        · exact Or.inl heq
    | _ => exact Or.inl rfl
  | fix => exact Or.inl rfl
  | refill => exact Or.inl rfl

/-- Markers stay in the order in which they have been registered. -/
theorem Move.markers_ordered
    (h : Move strict c c')
    (hordered : c.markers.Ordered) :
    c'.markers.Ordered ∧ ∀ key, c.markers.under key <+: c'.markers.under key := by
  rcases h.markers with heq | ⟨key, u, heq⟩
  · rw [heq]
    exact ⟨hordered, fun _ => List.prefix_rfl⟩
  · rw [heq]
    refine ⟨Postings.ordered_add hordered key u, fun k => ?_⟩
    rw [Postings.under_add hordered]
    split
    · exact List.prefix_append _ _
    · exact List.prefix_rfl

theorem Moves.markers_ordered
    (h : Moves strict c c')
    (hordered : c.markers.Ordered) :
    c'.markers.Ordered ∧ ∀ key, c.markers.under key <+: c'.markers.under key := by
  induction h with
  | refl => exact ⟨hordered, fun _ => List.prefix_rfl⟩
  | tail _ hmove ih =>
    obtain ⟨hnext, hlonger⟩ := hmove.markers_ordered ih.1
    exact ⟨hnext, fun key => (ih.2 key).trans (hlonger key)⟩

theorem Operated.markers_ordered
    (h : Operated g s c) :
    c.markers.Ordered :=
  (h.invariant (P := fun c => c.markers.Ordered) Postings.ordered_empty
    fun _ _ _ _ _ hordered hmove => (hmove.markers_ordered hordered).1).holds

/-- Until the next reset, operations post markers behind those that are there. -/
theorem Operated.under_prefix
    (h : Operated g s c)
    (op : Operation)
    (hnames : op.Names c)
    (hop : op ≠ .input .reset)
    (key : Nat) :
    c.markers.under key <+: (op.apply c).markers.under key := by
  have hmoves := Operation.apply_moves h.kept.sound op hnames hop
  exact (hmoves.markers_ordered h.markers_ordered).2 key

end Posting

section Keeping

/-- The markers under a position are the registered ones that start there. -/
structure MarkersListed (c : Chart) : Prop where
  ordered : c.markers.Ordered
  mem : ∀ u key, u ∈ c.markers.under key ↔
    (c.item u).registered = true ∧ c.IsMarker u ∧ (c.item u).position = key

theorem markersListed_new (g : Grammar) (s : Settings) :
    MarkersListed (new g s) where
  ordered := Postings.ordered_empty
  mem u key := by
    rw [item_of_size_le (Nat.zero_le _)]
    simp [new]

/-- Only items that are not registered may get another symbol or position. -/
theorem MarkersListed.frame
    (h : MarkersListed c)
    (hgrammar : c'.grammar = c.grammar)
    (hmarkers : c'.markers = c.markers)
    (hmark : ∀ v, (c'.item v).mark = (c.item v).mark ∨
      (c.item v).registered = false ∧ (c'.item v).registered = false) :
    MarkersListed c' where
  ordered := hmarkers ▸ h.ordered
  mem u key := by
    rw [hmarkers, h.mem]
    rcases hmark u with hsame | ⟨hold, hnew⟩
    · simp only [Item.mark, Prod.mk.injEq] at hsame
      rw [isMarker_congr hgrammar hsame.1, hsame.2.1, hsame.2.2]
    · simp [hold, hnew]

theorem MarkersListed.keep
    (h : MarkersListed c)
    (hgrammar : c'.grammar = c.grammar)
    (hmarkers : c'.markers = c.markers)
    (hmark : ∀ v, (c'.item v).mark = (c.item v).mark) :
    MarkersListed c' :=
  h.frame hgrammar hmarkers fun v => Or.inl (hmark v)

theorem MarkersListed.register
    (h : MarkersListed c)
    (u : ItemId) :
    MarkersListed (c.register u) := by
  by_cases hreg : (c.item u).registered = true
  · rw [register_of_registered hreg]
    exact h
  · have hfresh : (c.item u).registered = false := eq_false_of_ne_true hreg
    obtain ⟨b, p, d, m, f, t, -, heq⟩ :=
      (register_cases c u).resolve_left fun h => hreg h.2
    have hitem : ∀ v, (c.register u).item v =
        if v = u ∧ u.index < c.items.size then { c.item u with registered := true }
        else c.item v := by
      intro v
      rw [heq]
      exact item_modifyItem c u _ v
    have hgrammar : (c.register u).grammar = c.grammar := by rw [heq]; rfl
    have hsymbol : ∀ v, ((c.register u).item v).symbol = (c.item v).symbol := by
      intro v
      rw [hitem]
      split
      · rename_i hv
        rw [hv.1]
      · rfl
    have hposition : ∀ v, ((c.register u).item v).position = (c.item v).position := by
      intro v
      rw [hitem]
      split
      · rename_i hv
        rw [hv.1]
      · rfl
    have hother : ∀ v, v ≠ u → ((c.register u).item v).registered = (c.item v).registered := by
      intro v hv
      rw [hitem, if_neg fun h => hv h.1]
    have hkept : ∀ v, (c.register u).IsMarker v ↔ c.IsMarker v := fun v =>
      isMarker_congr hgrammar (hsymbol v)
    rcases markers_register hfresh with ⟨hmarker, hposted⟩ | ⟨hplain, hsame⟩
    · have hself : ((c.register u).item u).registered = true := by
        rw [hitem, if_pos ⟨rfl, hmarker.lt_size⟩]
      refine ⟨hposted ▸ Postings.ordered_add h.ordered _ u, fun v key => ?_⟩
      rw [hposted, Postings.under_add h.ordered, hkept, hposition]
      by_cases hv : v = u
      · rw [hv, hself]
        split
        · rename_i hkey
          simp [hmarker, hkey]
        · rename_i hkey
          simp [h.mem, hfresh, Ne.symm hkey]
      · rw [hother v hv, ← h.mem]
        split <;> simp [hv]
    · refine ⟨hsame ▸ h.ordered, fun v key => ?_⟩
      rw [hsame, h.mem, hkept, hposition]
      by_cases hv : v = u
      · simp [hv, hplain]
      · rw [hother v hv]

theorem Step.markersListed
    (h : Step strict c c')
    (hc : MarkersListed c) :
    MarkersListed c' := by
  cases h with
  | note => exact hc.keep rfl rfl fun _ => rfl
  | allocateItem => exact hc.keep rfl rfl (field_pushItem Item.mark {} rfl)
  | allocateAggregate =>
    exact hc.keep rfl rfl (field_pushItem (c := c) Item.mark { isAggregate := true } rfl)
  | store => exact hc.keep rfl rfl fun _ => rfl
  | @fill u f _ hblank hfresh =>
    refine hc.frame rfl rfl fun v => ?_
    rw [item_modifyItem]
    split
    · rename_i hv
      rw [hv.1, hblank]
      exact Or.inr ⟨rfl, hfresh.2.2.2.1⟩
    · exact Or.inl rfl
  | pool => exact hc.keep rfl rfl (field_modifyItem Item.mark rfl)
  | appear => exact hc.keep rfl rfl (field_modifyItem Item.mark rfl)
  | @wrap a x w start stop _ hblank =>
    refine hc.frame rfl rfl fun v => ?_
    rw [Chart.enclose, item_modifyCandidate, item_modifyItem]
    split
    · rename_i hv
      rw [hv.1, hblank]
      exact Or.inr ⟨rfl, rfl⟩
    · exact Or.inl rfl
  | settle => exact hc.keep rfl rfl fun _ => rfl
  | @register u => exact hc.register u
  | select => exact hc.keep rfl rfl fun _ => rfl

theorem Advance.markersListed
    (h : Advance strict c c')
    (hc : MarkersListed c) :
    MarkersListed c' := by
  cases h with
  | step h => exact h.markersListed hc
  | fix => exact hc.keep rfl rfl (field_modifyItem Item.mark rfl)

theorem Advances.markersListed
    (h : Advances strict c c')
    (hc : MarkersListed c) :
    MarkersListed c' := by
  induction h with
  | refl => exact hc
  | tail _ hadvance ih => exact hadvance.markersListed ih

/-- An item that is not registered may be filled. -/
theorem MarkersListed.instantiate
    (h : MarkersListed c)
    (hfresh : (c.item u).registered = false)
    (symbol : Option SymbolId)
    (t : Token) :
    MarkersListed (c.instantiate u symbol t).2 := by
  have hfill : ∀ f : Item → Item, (f (c.item u)).registered = (c.item u).registered →
      MarkersListed (c.modifyItem u f) := by
    intro f hf
    refine h.frame rfl rfl fun v => ?_
    rw [item_modifyItem]
    split
    · rename_i hv
      rw [hv.1]
      exact Or.inr ⟨hfresh, hf.trans hfresh⟩
    · exact Or.inl rfl
  have hfilled : MarkersListed (c.fillItem u symbol t) := hfill _ rfl
  cases filling c u symbol t with
  | placed _ heq =>
    rw [heq]
    exact hfilled
  | exhausted _ _ _ heq =>
    rw [heq]
    exact hfilled.keep rfl rfl fun _ => rfl
  | filled _ _ _ heq =>
    rw [heq]
    exact hfilled.keep rfl rfl (field_modifyItem Item.mark rfl)

end Keeping

end Chart

/-- The operation fills no item that is registered. -/
def Operation.FillsFresh (c : Chart) : Operation → Prop
  | instantiate u _ _ => (c.item u).registered = false
  | _ => True

instance (c : Chart) (op : Operation) : Decidable (op.FillsFresh c) :=
  match op with
  | .instantiate u _ _ => instDecidableEqBool (c.item u).registered false
  | .input _ | .allocate | .register _ | .connect _ | .fulfil _ _ | .takeOver _ _ _
  | .seekParents _ _ | .seekParent _ _ _ | .offer _ _ _ | .attach _ _ _ | .detach _ _ =>
    instDecidableTrue

namespace Chart

variable {g : Grammar} {s : Settings} {c : Chart}

/-- The charts that operations lead to, where no registered item is filled by hand. -/
inductive Kempt (g : Grammar) (s : Settings) : Chart → Prop
  | new : Kempt g s (new g s)
  | operation
      {c : Chart}
      (h : Kempt g s c)
      (op : Operation)
      (hnames : op.Names c)
      (hfresh : op.FillsFresh c) :
      Kempt g s (op.apply c)

theorem Kempt.operated
    (h : Kempt g s c) :
    Operated g s c := by
  induction h with
  | new => exact .new
  | operation _ op hnames _ ih => exact .operation ih op hnames

theorem Kempt.operate
    (h : Kempt g s c)
    {ops : List Operation}
    (hops : c.Throughout (fun op c => op.Names c ∧ op.FillsFresh c) ops) :
    Kempt g s (c.operate ops) := by
  induction ops generalizing c with
  | nil => exact h
  | cons op rest ih => exact ih (.operation h op hops.1.1 hops.1.2) hops.2

theorem Kempt.markersListed
    (h : Kempt g s c) :
    MarkersListed c := by
  induction h with
  | new => exact markersListed_new g s
  | @operation c hkempt op hnames hfresh ih =>
    have hsound : Sound False c := hkempt.operated.kept.sound
    by_cases hreset : op = .input .reset
    · rw [hreset]
      exact markersListed_new c.grammar c.settings
    · by_cases hhand : ∃ u symbol t, op = .instantiate u symbol t
      · obtain ⟨u, symbol, t, rfl⟩ := hhand
        exact ih.instantiate hfresh symbol t
      · exact (Operation.apply_advances hsound op hnames hreset
          fun u symbol t h => hhand ⟨u, symbol, t, h⟩).markersListed ih

end Chart

end BeamChart
