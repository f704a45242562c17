import BeamChart.Proofs.Chart.Step

/-!
# What a step keeps and what it brings

Charts only grow. `Chart.Extends` says what a later chart has kept of an
earlier one; every step extends the chart (`Step.grows`). What a step brings
is told by three case lemmas, one for each kind of thing that a chart holds, so
that an invariant need not go through the steps one by one. In which index an item
is posted, and what else that changes, is told by the cases of `posting`.
-/

namespace BeamChart

/-- The marks do not count for the structure. -/
theorem Candidate.congruent_of_body_eq
    {x y : Candidate}
    (h : x.body = y.body) :
    x.Congruent y :=
  ⟨(congrArg Candidate.root h :), (congrArg Candidate.weight h :),
    (congrArg Candidate.ownWeight h :), (congrArg Candidate.slots h :),
    (congrArg Candidate.coverage h :)⟩

namespace Chart

variable {strict : Prop} {c c' c'' : Chart}

theorem has_nextCandidate (c : Chart) (x : Candidate) :
    (c.pushCandidate x).Has c.nextCandidate := by
  unfold Has
  rw [size_candidates_pushCandidate]
  exact Nat.lt_succ_self _

theorem candidate_nextCandidate (c : Chart) (x : Candidate) :
    (c.pushCandidate x).candidate c.nextCandidate = x := by
  rw [candidate_pushCandidate, if_pos rfl]

theorem ne_nextCandidate
    {x : CandidateId}
    (hx : c.Has x) :
    x ≠ c.nextCandidate := by
  rintro rfl
  exact Nat.lt_irrefl _ hx

/-- The only place that a new candidate brings is its own. -/
theorem eq_nextCandidate
    {x : CandidateId}
    {y : Candidate}
    (hx : ¬ c.Has x)
    (hnew : (c.pushCandidate y).Has x) :
    x = c.nextCandidate := by
  unfold Has at hx hnew
  rw [size_candidates_pushCandidate] at hnew
  cases x
  simp only [nextCandidate, CandidateId.mk.injEq]
  simp only at hx hnew
  omega

theorem field_modifyItem
    {α : Type}
    (field : Item → α)
    {u : ItemId}
    {f : Item → Item}
    (h : field (f (c.item u)) = field (c.item u))
    (v : ItemId) :
    field ((c.modifyItem u f).item v) = field (c.item v) := by
  rw [item_modifyItem]
  split
  · rename_i hv
    rw [hv.1]
    exact h
  · rfl

theorem field_pushItem
    {α : Type}
    (field : Item → α)
    (i : Item)
    (h : field i = field {})
    (v : ItemId) :
    field ((c.pushItem i).item v) = field (c.item v) := by
  rw [item_pushItem]
  split
  · rename_i hv
    have hblank : c.item c.nextItem = {} := item_of_size_le (Nat.le_refl _)
    rw [hv, hblank]
    exact h
  · rfl

/-- The chart in which an item has been marked as registered, and covered if it was seen. -/
def enrolled (c : Chart) (u : ItemId) : Chart :=
  { c.modifyItem u fun i => { i with registered := true } with
    filled := if (c.item u).present then max c.filled (c.item u).stop else c.filled }

section Posting

variable {u : ItemId} {s : SymbolId}

theorem field_enrolled
    {α : Type}
    (field : Item → α)
    (h : ∀ i : Item, field { i with registered := true } = field i)
    (v : ItemId) :
    field ((c.enrolled u).item v) = field (c.item v) :=
  field_modifyItem field (h _) v

theorem recognized?_enrolled (c : Chart) (u v : ItemId) :
    (c.enrolled u).recognized? v = c.recognized? v := by
  rw [recognized?, field_enrolled Item.symbol (fun _ => rfl), recognized?]

theorem enrolled_eq (c : Chart) (u : ItemId) :
    (if (c.item u).present then
      { c.modifyItem u (fun i => { i with registered := true }) with
        filled := max (c.modifyItem u fun i => { i with registered := true }).filled
          (c.item u).stop }
      else c.modifyItem u fun i => { i with registered := true }) = c.enrolled u := by
  unfold enrolled
  split <;> rfl

/-- An item is posted once, in the indexes of the kind of its symbol. -/
inductive Posting (c : Chart) (u : ItemId) : Prop
  | repeated
      (hregistered : (c.item u).registered = true)
      (heq : c.register u = c)
  | unrecognized
      (hfresh : (c.item u).registered = false)
      (hnone : c.recognized? u = none)
      (heq : c.register u =
        { c.enrolled u with byPosition := c.byPosition.add (c.item u).position u })
  | separator
      {s : SymbolId}
      (hfresh : (c.item u).registered = false)
      (hsymbol : c.recognized? u = some s)
      (hkind : c.kindOf s = .separator)
      (heq : c.register u =
        { c.enrolled u with delimiters := c.delimiters.add (c.item u).position u })
  | marker
      {s : SymbolId}
      (hfresh : (c.item u).registered = false)
      (hsymbol : c.recognized? u = some s)
      (hkind : c.kindOf s = .groupMarker ∨ c.kindOf s = .alternationMarker)
      (heq : c.register u =
        { c.enrolled u with markers := c.markers.add (c.item u).position u })
  | ordinary
      {s : SymbolId}
      (hfresh : (c.item u).registered = false)
      (hsymbol : c.recognized? u = some s)
      (hkind : c.kindOf s = .ordinary)
      (heq : c.register u =
        { c.enrolled u with
          bySymbol :=
            if c.grammar.bucketOf s < c.grammar.size then c.bySymbol.add (c.grammar.bucketOf s) u
            else c.bySymbol
          byPosition :=
            if (c.item u).present then c.byPosition.add (c.item u).position u else c.byPosition
          tail :=
            if (c.item u).present ∧ c.grammar.kind = .positional then some u else c.tail })

theorem posting (c : Chart) (u : ItemId) :
    Posting c u := by
  cases hfresh : (c.item u).registered with
  | true => exact .repeated hfresh (register_of_registered hfresh)
  | false =>
    have hkinds : ∀ s, (c.enrolled u).kindOf s = c.kindOf s := fun _ => rfl
    have hsame := recognized?_enrolled c u u
    cases hsymbol : c.recognized? u with
    | none =>
      refine .unrecognized hfresh hsymbol ?_
      simp only [register, hfresh, enrolled_eq, hsame, hsymbol, if_false, Bool.false_eq_true]
      rfl
    | some s =>
      cases hkind : c.kindOf s with
      | separator =>
        refine .separator hfresh hsymbol hkind ?_
        simp only [register, hfresh, enrolled_eq, hsame, hsymbol, hkinds, hkind, if_false,
          Bool.false_eq_true]
        rfl
      | groupMarker =>
        refine .marker hfresh hsymbol (Or.inl hkind) ?_
        simp only [register, hfresh, enrolled_eq, hsame, hsymbol, hkinds, hkind, if_false,
          Bool.false_eq_true]
        rfl
      | alternationMarker =>
        refine .marker hfresh hsymbol (Or.inr hkind) ?_
        simp only [register, hfresh, enrolled_eq, hsame, hsymbol, hkinds, hkind, if_false,
          Bool.false_eq_true]
        rfl
      | ordinary =>
        refine .ordinary hfresh hsymbol hkind ?_
        have hpresent := field_enrolled (c := c) (u := u) Item.present (fun _ => rfl) u
        have hposition := field_enrolled (c := c) (u := u) Item.position (fun _ => rfl) u
        simp only [register, hfresh, enrolled_eq, hsame, hsymbol, hkinds, hkind, if_false,
          Bool.false_eq_true, postOrdinary, hpresent, hposition]
        by_cases hseen : (c.item u).present = true <;>
          by_cases hbucket : c.grammar.bucketOf s < c.grammar.size <;>
          simp [hseen, hbucket, enrolled, modifyItem]

end Posting

/-- Registering marks an item and writes postings; the tail becomes an item that was seen. -/
theorem register_cases (c : Chart) (u : ItemId) :
    c.register u = c ∧ (c.item u).registered = true ∨
      ∃ bySymbol byPosition delimiters markers filled tail,
        (tail = c.tail ∨ tail = some u ∧ (c.item u).present = true) ∧
        c.register u =
          { c.modifyItem u fun i => { i with registered := true } with
            bySymbol, byPosition, delimiters, markers, filled, tail } := by
  cases posting c u with
  | repeated hregistered heq => exact Or.inl ⟨heq, hregistered⟩
  | unrecognized _ _ heq | separator _ _ _ heq | marker _ _ _ heq =>
    exact Or.inr ⟨_, _, _, _, _, _, Or.inl rfl, heq⟩
  | ordinary _ _ _ heq =>
    refine Or.inr ⟨_, _, _, _, _, _, ?_, heq⟩
    split
    · rename_i h
      exact Or.inr ⟨rfl, h.1⟩
    · exact Or.inl rfl

theorem mem_contenders
    {s : SymbolId}
    {x : CandidateId} :
    (s, x) ∈ c.contenders ↔ ∃ u, (c.item u).present = true ∧ (c.item u).symbol = some s ∧
      x ∈ (c.item u).pool ∧ (c.candidate x).isEmpty = false := by
  rw [contenders, List.mem_flatMap]
  constructor
  · rintro ⟨i, hi, hx⟩
    obtain ⟨k, hk, rfl⟩ := List.getElem_of_mem hi
    have hitem : c.item ⟨k⟩ = c.items.toList[k] := by
      rw [Array.length_toList] at hk
      simp [item, Array.getElem?_eq_getElem hk]
    split at hx
    · rename_i hpresent hsymbol
      obtain ⟨y, hy, heq⟩ := List.mem_map.1 hx
      obtain ⟨rfl, rfl⟩ := Prod.mk.inj heq
      refine ⟨⟨k⟩, ?_, ?_, ?_, by simpa using (List.mem_filter.1 hy).2⟩ <;> rw [hitem]
      · exact hpresent
      · exact hsymbol
      · exact (List.mem_filter.1 hy).1
    · cases hx
  · rintro ⟨u, hpresent, hsymbol, hx, hfull⟩
    have hlt : u.index < c.items.size := lt_size_of_present hpresent
    have hitem : c.item u = c.items[u.index] := by
      rw [item, Array.getElem?_eq_getElem hlt, Option.getD_some]
    refine ⟨c.items[u.index], Array.getElem_mem_toList hlt, ?_⟩
    rw [← hitem]
    simp only [hpresent, hsymbol]
    exact List.mem_map.2 ⟨x, List.mem_filter.2 ⟨hx, by rw [hfull]; rfl⟩, rfl⟩

theorem foldl_prefer_mem
    (entries : List (SymbolId × CandidateId))
    (best : Option (SymbolId × CandidateId))
    {e : SymbolId × CandidateId}
    (h : entries.foldl c.prefer best = some e) :
    e ∈ entries ∨ best = some e := by
  induction entries generalizing best with
  | nil => exact Or.inr h
  | cons a rest ih =>
    rcases ih (c.prefer best a) h with hrest | hbest
    · exact Or.inl (List.mem_cons_of_mem a hrest)
    · unfold prefer at hbest
      split at hbest
      · cases hbest
        exact Or.inl List.mem_cons_self
      · split at hbest
        · cases hbest
          exact Or.inl List.mem_cons_self
        · exact Or.inr hbest

/-- What is selected stands in the pool of an item that was seen. -/
theorem select_mem
    {x : CandidateId}
    (h : c.select.1 = some x) :
    ∃ u, (c.item u).present = true ∧ x ∈ (c.item u).pool := by
  rw [select, Option.map_eq_some_iff] at h
  obtain ⟨⟨s, y⟩, he, rfl⟩ := h
  rcases foldl_prefer_mem c.contenders none he with hmem | hnone
  · obtain ⟨u, hpresent, -, hx, -⟩ := mem_contenders.1 hmem
    exact ⟨u, hpresent, hx⟩
  · cases hnone

/-- What a later chart has kept of an earlier one. -/
structure Extends (c c' : Chart) : Prop where
  grammar : c'.grammar = c.grammar
  settings : c'.settings = c.settings
  items_le : c.items.size ≤ c'.items.size
  candidates_le : c.candidates.size ≤ c'.candidates.size
  body : ∀ x, c.Has x → (c'.candidate x).body = (c.candidate x).body
  wrapper : ∀ x a, (c.candidate x).wrapper = some a → (c'.candidate x).wrapper = some a
  place : ∀ u, (c.item u).Settled → (c'.item u).place = (c.item u).place
  isAggregate : ∀ u, u.index < c.items.size →
    (c'.item u).isAggregate = (c.item u).isAggregate
  present : ∀ u, (c.item u).present = true → (c'.item u).present = true
  registered : ∀ u, (c.item u).registered = true → (c'.item u).registered = true
  fixedParent : ∀ u p, (c.item u).fixedParent = some p → (c'.item u).fixedParent = some p

namespace Extends

/-- Charts with the same arenas extend each other. -/
theorem of_arenas
    (hgrammar : c'.grammar = c.grammar)
    (hsettings : c'.settings = c.settings)
    (hitems : c'.items = c.items)
    (hcandidates : c'.candidates = c.candidates) :
    Extends c c' := by
  have hitem : ∀ u, c'.item u = c.item u := fun u => by rw [item, item, hitems]
  have hcandidate : ∀ x, c'.candidate x = c.candidate x := fun x => by
    rw [candidate, candidate, hcandidates]
  constructor <;> simp_all

theorem refl (c : Chart) :
    Extends c c :=
  of_arenas rfl rfl rfl rfl

theorem has
    (h : Extends c c')
    {x : CandidateId}
    (hx : c.Has x) :
    c'.Has x :=
  Nat.lt_of_lt_of_le hx h.candidates_le

theorem settled
    (h : Extends c c')
    {u : ItemId}
    (hu : (c.item u).Settled) :
    (c'.item u).Settled := by
  have hplace := h.place u hu
  rcases hu with hsymbol | hpresent
  · left
    have hs : (c'.item u).symbol = (c.item u).symbol :=
      congrArg (fun e => e.2.1) hplace
    rw [hs]
    exact hsymbol
  · exact Or.inr (h.present u hpresent)

theorem trans
    (h : Extends c c')
    (k : Extends c' c'') :
    Extends c c'' where
  grammar := k.grammar.trans h.grammar
  settings := k.settings.trans h.settings
  items_le := Nat.le_trans h.items_le k.items_le
  candidates_le := Nat.le_trans h.candidates_le k.candidates_le
  body x hx := (k.body x (h.has hx)).trans (h.body x hx)
  wrapper x a ha := k.wrapper x a (h.wrapper x a ha)
  place u hu := (k.place u (h.settled hu)).trans (h.place u hu)
  isAggregate u hu :=
    (k.isAggregate u (Nat.lt_of_lt_of_le hu h.items_le)).trans (h.isAggregate u hu)
  present u hu := k.present u (h.present u hu)
  registered u hu := k.registered u (h.registered u hu)
  fixedParent u p hp := k.fixedParent u p (h.fixedParent u p hp)

theorem congruent
    (h : Extends c c')
    {x : CandidateId}
    (hx : c.Has x) :
    (c'.candidate x).Congruent (c.candidate x) :=
  Candidate.congruent_of_body_eq (h.body x hx)

theorem symbol
    (h : Extends c c')
    {u : ItemId}
    {s : SymbolId}
    (hs : (c.item u).symbol = some s) :
    (c'.item u).symbol = some s := by
  have hplace := h.place u (Or.inl (by rw [hs]; rfl))
  rw [← hs]
  exact congrArg (fun e => e.2.1) hplace

theorem symbol_eq
    (h : Extends c c')
    {u : ItemId}
    (hu : (c.item u).present = true) :
    (c'.item u).symbol = (c.item u).symbol :=
  congrArg (fun e => e.2.1) (h.place u (Or.inr hu))

/-- Settled items keep their positions. -/
theorem placed
    (h : Extends c c')
    {u v : ItemId}
    (hu : (c.item u).Settled)
    (hv : (c.item v).Settled)
    (rule : Rule SymbolId) :
    c'.placed u v rule = c.placed u v rule := by
  have hplace := h.place u hu
  have hplace' := h.place v hv
  have hposition : (c'.item u).position = (c.item u).position :=
    congrArg (fun e => e.2.2.1) hplace
  have hextent : (c'.item u).extent = (c.item u).extent :=
    congrArg (fun e => e.2.2.2.1) hplace
  have hposition' : (c'.item v).position = (c.item v).position :=
    congrArg (fun e => e.2.2.1) hplace'
  have hextent' : (c'.item v).extent = (c.item v).extent :=
    congrArg (fun e => e.2.2.2.1) hplace'
  simp only [Chart.placed, Item.stop, hposition, hextent, hposition', hextent', h.settings]
  rfl

/-- Grounds for taking a child do not go away. -/
theorem grounds
    (h : Extends c c')
    {u v : ItemId}
    {r : Relation}
    (hg : c.Grounds u v r) :
    c'.Grounds u v r := by
  cases hg with
  | @placed s d level rule hparent hchild hlevel hrule hplaced =>
    have hu : (c.item u).Settled := Or.inl (by rw [hparent]; rfl)
    have hv : (c.item v).Settled := Or.inl (by rw [hchild]; rfl)
    refine .placed (h.symbol hparent) (h.symbol hchild) (h.grammar ▸ hlevel)
      (h.grammar ▸ hrule) ?_
    rw [h.placed hu hv]
    exact hplaced
  | @implied s d level parentRule rule hparent hchild hlevel hmem htarget hrel hrule himplied =>
    refine .implied (h.symbol hparent) (h.symbol hchild) (h.grammar ▸ hlevel) ?_ htarget hrel
      (h.grammar ▸ hrule) himplied
    rw [parentRules, h.grammar]
    exact hmem

theorem modifyItem
    (c : Chart)
    (u : ItemId)
    (f : Item → Item)
    (hplace : (c.item u).Settled → (f (c.item u)).place = (c.item u).place)
    (hkept : (f (c.item u)).isAggregate = (c.item u).isAggregate)
    (hpresent : (c.item u).present = true → (f (c.item u)).present = true)
    (hregistered : (c.item u).registered = true → (f (c.item u)).registered = true)
    (hfixed : ∀ p, (c.item u).fixedParent = some p → (f (c.item u)).fixedParent = some p) :
    Extends c (c.modifyItem u f) where
  grammar := rfl
  settings := rfl
  items_le := by simp
  candidates_le := Nat.le_refl _
  body _ _ := rfl
  wrapper _ _ h := h
  place v hv := by
    rw [item_modifyItem]
    split
    · rename_i h
      rw [h.1] at hv ⊢
      exact hplace hv
    · rfl
  isAggregate v _ := by
    rw [item_modifyItem]
    split
    · rename_i h
      rw [h.1]
      exact hkept
    · rfl
  present v hv := by
    rw [item_modifyItem]
    split
    · rename_i h
      rw [h.1] at hv
      exact hpresent hv
    · exact hv
  registered v hv := by
    rw [item_modifyItem]
    split
    · rename_i h
      rw [h.1] at hv
      exact hregistered hv
    · exact hv
  fixedParent v p hv := by
    rw [item_modifyItem]
    split
    · rename_i h
      rw [h.1] at hv
      exact hfixed p hv
    · exact hv

theorem modifyCandidate
    (c : Chart)
    (x : CandidateId)
    (f : Candidate → Candidate)
    (hbody : (f (c.candidate x)).body = (c.candidate x).body)
    (hwrapper : ∀ a, (c.candidate x).wrapper = some a →
      (f (c.candidate x)).wrapper = some a) :
    Extends c (c.modifyCandidate x f) where
  grammar := rfl
  settings := rfl
  items_le := Nat.le_refl _
  candidates_le := by simp
  body y _ := by
    rw [candidate_modifyCandidate]
    split
    · rename_i h
      rw [h.1]
      exact hbody
    · rfl
  wrapper y a ha := by
    rw [candidate_modifyCandidate]
    split
    · rename_i h
      rw [h.1] at ha
      exact hwrapper a ha
    · exact ha
  place _ _ := rfl
  isAggregate _ _ := rfl
  present _ h := h
  registered _ h := h
  fixedParent _ _ h := h

/-- A new item takes a place that has read as blank so far. -/
theorem pushItem (c : Chart) (i : Item) :
    Extends c (c.pushItem i) := by
  have hblank : c.item c.nextItem = {} := item_of_size_le (Nat.le_refl _)
  have hold : ∀ u, u ≠ c.nextItem → (c.pushItem i).item u = c.item u := fun u hu => by
    rw [item_pushItem, if_neg hu]
  have hnew : ∀ u, u.index < c.items.size → u ≠ c.nextItem := by
    rintro u hu rfl
    exact Nat.lt_irrefl _ hu
  refine ⟨rfl, rfl, ?_, Nat.le_refl _, fun _ _ => rfl, fun _ _ h => h, ?_, ?_, ?_, ?_, ?_⟩
  · simp [Chart.pushItem]
  · intro u hu
    by_cases hnext : u = c.nextItem
    · rw [hnext, hblank] at hu
      rcases hu with hu | hu <;> cases hu
    · rw [hold u hnext]
  · intro u hu
    rw [hold u (hnew u hu)]
  · intro u hu
    rw [hold u (hnew u (lt_size_of_present hu))]
    exact hu
  · intro u hu
    by_cases hnext : u = c.nextItem
    · rw [hnext, hblank] at hu
      cases hu
    · rw [hold u hnext]
      exact hu
  · intro u p hp
    by_cases hnext : u = c.nextItem
    · rw [hnext, hblank] at hp
      cases hp
    · rw [hold u hnext]
      exact hp

theorem pushCandidate (c : Chart) (x : Candidate) :
    Extends c (c.pushCandidate x) := by
  have hold : ∀ y, c.Has y → (c.pushCandidate x).candidate y = c.candidate y := fun y hy => by
    rw [candidate_pushCandidate, if_neg (ne_nextCandidate hy)]
  refine ⟨rfl, rfl, Nat.le_refl _, by simp, fun y hy => by rw [hold y hy], ?_,
    fun _ _ => rfl, fun _ _ => rfl, fun _ h => h, fun _ h => h, fun _ _ h => h⟩
  intro y a ha
  by_cases hy : c.Has y
  · rw [hold y hy]
    exact ha
  · rw [candidate_of_size_le (Nat.le_of_not_lt hy)] at ha
    cases ha

theorem register (c : Chart) (u : ItemId) :
    Extends c (c.register u) := by
  rcases register_cases c u with ⟨heq, -⟩ | ⟨b, p, d, m, f, t, -, heq⟩
  · rw [heq]
    exact refl c
  · rw [heq]
    exact (modifyItem c u (fun i => { i with registered := true }) (fun _ => rfl) rfl
      (fun h => h) (fun _ => rfl) (fun _ h => h)).trans (of_arenas rfl rfl rfl rfl)

end Extends

namespace Step

/-- A step changes no more of what is stored than marks on it. -/
theorem grows (h : Step strict c c') :
    Extends c c' := by
  cases h with
  | note => exact Extends.of_arenas rfl rfl rfl rfl
  | allocateItem => exact Extends.pushItem c _
  | allocateAggregate =>
    exact (Extends.pushItem c _).trans (Extends.of_arenas rfl rfl rfl rfl)
  | store => exact Extends.pushCandidate c _
  | @fill u f hitem hblank hfresh =>
    refine Extends.modifyItem c u f ?_ ?_ ?_ ?_ ?_
    · rw [hblank]
      rintro (h | h) <;> cases h
    · rw [hblank]
      exact hfresh.2.2.1
    all_goals
      rw [hblank]
      intros
      contradiction
  | @pool u pool hrooted =>
    exact Extends.modifyItem c u _ (fun _ => rfl) rfl (fun h => h) (fun h => h) (fun _ h => h)
  | @appear u hitem =>
    exact Extends.modifyItem c u _ (fun _ => rfl) rfl (fun _ => rfl) (fun h => h) (fun _ h => h)
  | @wrap a x w start stop hitem hblank hx hw hfree =>
    refine (Extends.modifyItem c a _ ?_ rfl (fun _ => rfl) ?_ ?_).trans
      (Extends.modifyCandidate _ x (fun y => { y with wrapper := some a }) rfl ?_)
    · rw [hblank]
      rintro (h | h) <;> cases h
    · exact fun h => h
    · exact fun _ h => h
    · intro b hb
      rw [candidate_modifyItem, hfree] at hb
      cases hb
  | @settle x => exact Extends.modifyCandidate c x _ rfl (fun _ h => h)
  | @register u => exact Extends.register c u
  | select => exact Extends.of_arenas rfl rfl rfl rfl

/-- A candidate is new only if it has just been made. -/
theorem candidate_cases
    (h : Step strict c c')
    {x : CandidateId}
    (hx : c'.Has x) :
    c.Has x ∨
      x = c.nextCandidate ∧ Made strict c (c'.candidate x) ∧ c'.items = c.items := by
  cases h with
  | @store y hroom hmade =>
    by_cases hold : c.Has x
    · exact Or.inl hold
    · right
      have hnext : x = c.nextCandidate := eq_nextCandidate hold hx
      refine ⟨hnext, ?_, rfl⟩
      rw [candidate_pushCandidate, if_pos hnext]
      exact hmade
  | wrap => exact Or.inl (by simpa [Has, enclose, Chart.modifyItem] using hx)
  | settle => exact Or.inl (by simpa [Has, Chart.settle] using hx)
  | @register u =>
    left
    rcases register_cases c u with ⟨heq, -⟩ | ⟨b, p, d, m, f, t, -, heq⟩
    · rwa [heq] at hx
    · rw [heq] at hx
      exact hx
  | _ => exact Or.inl hx

/-- The tower of an item is not the concern of a step. -/
theorem fixedParent
    (h : Step strict c c')
    (u : ItemId) :
    (c'.item u).fixedParent = (c.item u).fixedParent := by
  cases h with
  | allocateItem => exact field_pushItem Item.fixedParent {} rfl u
  | allocateAggregate => exact field_pushItem Item.fixedParent { isAggregate := true } rfl u
  | @fill v f hitem hblank hfresh =>
    refine field_modifyItem Item.fixedParent ?_ u
    rw [hblank]
    exact hfresh.2.2.2.2
  | pool => exact field_modifyItem Item.fixedParent rfl u
  | appear => exact field_modifyItem Item.fixedParent rfl u
  | wrap => exact field_modifyItem Item.fixedParent rfl u
  | @register v =>
    rcases register_cases c v with ⟨heq, -⟩ | ⟨b, p, d, m, f, t, -, heq⟩
    · rw [heq]
    · rw [heq]
      exact field_modifyItem Item.fixedParent rfl u
  | _ => rfl

/-- A pool is new only if it consists of stored candidates of its item. -/
theorem pool_cases
    (h : Step strict c c')
    (u : ItemId) :
    (c'.item u).pool = (c.item u).pool ∨
      c.RootedAt u (c'.item u).pool ∧ (strict → c.Ranks (c'.item u).pool) ∧
        (strict → (c.item u).present = true →
          c.Stems u (c.item u).pool (c'.item u).pool ∨
            ∃ v r, (c.item v).fixedParent = some (u, r) ∧
              ∀ y ∈ (c'.item u).pool, c.Holds y r v) ∧
        (strict → (c.item u).present = true → (c'.item u).pool = [] → c.Drained u) := by
  cases h with
  | allocateItem => exact Or.inl (field_pushItem Item.pool {} rfl u)
  | allocateAggregate => exact Or.inl (field_pushItem Item.pool { isAggregate := true } rfl u)
  | @fill v f hitem hblank hfresh =>
    left
    refine field_modifyItem Item.pool ?_ u
    rw [hblank]
    exact hfresh.1
  | @pool v pool hrooted hstrict hstems hdrained =>
    rw [Chart.setPool, item_modifyItem]
    split
    · rename_i hv
      rw [hv.1]
      exact Or.inr ⟨hrooted, hstrict, hstems, hdrained⟩
    · exact Or.inl rfl
  | appear => exact Or.inl (field_modifyItem Item.pool rfl u)
  | @wrap a x w start stop hitem hblank hx hw hfree hspan hlifted honly =>
    rw [enclose, item_modifyCandidate, item_modifyItem]
    split
    · rename_i hv
      right
      rw [hv.1, hblank]
      refine ⟨?_, fun _ => ⟨⟨?_, List.pairwise_singleton _ _⟩, fun _ => Nat.le_refl _⟩,
        (fun _ h => by cases h), fun _ h => by cases h⟩
      · intro y hy
        rw [List.nil_append, List.mem_singleton] at hy
        rw [hy, hlifted]
        exact ⟨hw, rfl⟩
      · exact Nat.le_max_left 1 _
    · exact Or.inl rfl
  | @register v =>
    left
    rcases register_cases c v with ⟨heq, -⟩ | ⟨b, p, d, m, f, t, -, heq⟩
    · rw [heq]
    · rw [heq]
      exact field_modifyItem Item.pool rfl u
  | _ => exact Or.inl rfl

/-- An item that was seen has a reason for being left without a candidate. -/
theorem drained
    (h : Step strict c c')
    (hs : strict)
    {u : ItemId}
    (hu : (c.item u).present = true)
    (hnone : (c'.item u).pool = []) :
    c.Drained u := by
  rcases h.pool_cases u with hkept | ⟨-, -, -, hdrained⟩
  · exact .already (hkept.symm.trans hnone)
  · exact hdrained hs hu hnone

/-- An aggregate has been made for a candidate, and nothing else is rooted there. -/
def Wraps (c : Chart) (a : ItemId) (x w : CandidateId) : Prop :=
  (c.item a).isAggregate = true ∧ c.Has x ∧ c.Has w ∧
    c.candidate w = (Candidate.seed a).attach .aggregate ⟨x, 0⟩ (c.candidate x) ∧
    ∀ y, c.Has y → (c.candidate y).root = a → y = w

/-- An item is seen before it has children, or as an aggregate. -/
theorem present_cases
    (h : Step strict c c')
    {u : ItemId}
    (hu : (c'.item u).present = true) :
    (c.item u).present = true ∨
      (u.index < c.items.size ∧ (c.item u).isAggregate = false ∧
        (∀ x, c.Has x → (c.candidate x).root = u → (c.candidate x).slots = .empty) ∧
        (c.Sown u → (c.item u).pool ≠ [] ∧
          ∀ x, c.Has x → (c.candidate x).root = u → (c.candidate x).isEmpty = false) ∧
        c' = c.markPresent u) ∨
      ∃ x w, Wraps c u x w ∧ (c'.candidate x).wrapper = some u ∧ (c'.item u).token = none := by
  cases h with
  | allocateItem =>
    rw [field_pushItem Item.present {} rfl u] at hu
    exact Or.inl hu
  | allocateAggregate =>
    rw [pushAggregate, item_count, field_pushItem Item.present { isAggregate := true } rfl u] at hu
    exact Or.inl hu
  | @fill v f hitem hblank hfresh =>
    rw [field_modifyItem Item.present (by rw [hblank]; exact hfresh.2.1) u] at hu
    exact Or.inl hu
  | pool =>
    rw [Chart.setPool, field_modifyItem Item.present rfl u] at hu
    exact Or.inl hu
  | @appear v hitem hplain hbare hsown =>
    by_cases hv : u = v
    · rw [hv]
      exact Or.inr (Or.inl ⟨hitem, hplain, hbare, hsown, rfl⟩)
    · left
      rw [markPresent, item_modifyItem, if_neg (fun h => hv h.1)] at hu
      exact hu
  | @wrap a x w start stop hitem hblank hx hw hfree hspan hlifted honly =>
    by_cases hv : u = a
    · right
      right
      rw [hv]
      refine ⟨x, w, ⟨?_, hx, hw, hlifted, honly⟩, ?_, ?_⟩
      · rw [hblank]
      · rw [enclose, candidate_modifyCandidate, if_pos ⟨rfl, hx⟩]
      · rw [enclose, item_modifyCandidate, field_modifyItem Item.token rfl, hblank]
    · left
      rw [enclose, item_modifyCandidate, item_modifyItem, if_neg (fun h => hv h.1)] at hu
      exact hu
  | @register v =>
    left
    rcases register_cases c v with ⟨heq, -⟩ | ⟨b, p, d, m, f, t, -, heq⟩
    · rwa [heq] at hu
    · rw [heq] at hu
      rw [← hu]
      exact (field_modifyItem (c := c) (u := v) Item.present rfl u).symm
  | _ => exact Or.inl hu

/-- The chain ends at an item that was seen. -/
theorem tail_cases
    (h : Step strict c c') :
    c'.tail = c.tail ∨ ∃ u, c'.tail = some u ∧ (c.item u).present = true := by
  cases h with
  | @register v =>
    rcases register_cases c v with ⟨heq, -⟩ | ⟨b, p, d, m, f, t, htail, heq⟩
    · rw [heq]
      exact Or.inl rfl
    · rw [heq]
      exact htail.imp_right fun h => ⟨v, h⟩
  | _ => exact Or.inl rfl

theorem best_cases
    (h : Step strict c c') :
    c'.best = c.best ∨
      ∀ x, c'.best = some x → ∃ u, (c.item u).present = true ∧ x ∈ (c.item u).pool := by
  cases h with
  | @register v =>
    left
    rcases register_cases c v with ⟨heq, -⟩ | ⟨b, p, d, m, f, t, -, heq⟩
    · rw [heq]
    · rw [heq]
      rfl
  | select => exact Or.inr fun x hx => select_mem hx
  | _ => exact Or.inl rfl

end Step

end Chart

end BeamChart
