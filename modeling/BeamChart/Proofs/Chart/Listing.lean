import BeamChart.Proofs.Chart.Composition
import BeamChart.Proofs.Chart.Contained
import BeamChart.Proofs.Chart.Posted

/-!
# The indices are exact

A registered item stands once in each index that its symbol, the kind of that
symbol and its presence call for, under the key that they call for, and an item
that is not registered stands in none. Items are registered at different times: after
they have been connected, predicted or made an aggregate, and from within a connection.
What makes the indices exact all the same is that nothing that a key depends on
changes once an item is registered (`Act.listed`).

The furthest stop of a registered present item is kept along with them
(`postings_exact`).
-/

namespace BeamChart

namespace Postings

/-- The keys that an item stands under, in their order. -/
def keysOf (p : Postings) (u : ItemId) : List Nat :=
  (p.entries.filter fun e => e.2 = u).map Prod.fst

variable {p : Postings} {u v : ItemId}

/-- The keys up to a bound come before those beyond it. -/
theorem keysOf_split (p : Postings) (key : Nat) (u : ItemId) :
    p.keysOf u =
      (⟨p.entries.takeWhile fun e => e.1 ≤ key⟩ : Postings).keysOf u ++
        (⟨p.entries.dropWhile fun e => e.1 ≤ key⟩ : Postings).keysOf u := by
  simp only [keysOf]
  rw [← List.map_append, ← List.filter_append, List.takeWhile_append_dropWhile]

theorem keysOf_add_of_ne
    (h : v ≠ u)
    (key : Nat) :
    (p.add key u).keysOf v = p.keysOf v := by
  rw [keysOf_split p key]
  simp [keysOf, add, h.symm]

theorem keysOf_add_self
    (h : p.keysOf u = [])
    (key : Nat) :
    (p.add key u).keysOf u = [key] := by
  rw [keysOf_split p key, List.append_eq_nil_iff] at h
  have hadd : (p.add key u).keysOf u =
      (⟨p.entries.takeWhile fun e => e.1 ≤ key⟩ : Postings).keysOf u ++
        key :: (⟨p.entries.dropWhile fun e => e.1 ≤ key⟩ : Postings).keysOf u := by
    simp [keysOf, add]
  rw [hadd, h.1, h.2]
  rfl

end Postings

/-- The indices of a chart. -/
inductive Index where
  | symbols
  | positions
  | delimiters
  | markers
deriving DecidableEq

namespace Item

/-- What the keys of an item depend on, and whether it has them. -/
def entry (i : Item) : Option SymbolId × Nat × Nat × Bool × Bool :=
  (i.symbol, i.position, i.extent, i.present, i.registered)

end Item

namespace Chart

/-- What is posted in an index. -/
def postings (c : Chart) : Index → Postings
  | .symbols => c.bySymbol
  | .positions => c.byPosition
  | .delimiters => c.delimiters
  | .markers => c.markers

/--
The keys that an item calls for: the position of an item without symbol, of a
separator or of a marker, each in its own index; the bucket of any other symbol, and
the position of an item of it that is present.
-/
def keysFor (c : Chart) (u : ItemId) (k : Index) : List Nat :=
  match c.recognized? u with
  | none => if k = .positions then [(c.item u).position] else []
  | some s =>
    match c.kindOf s, k with
    | .separator, .delimiters => [(c.item u).position]
    | .groupMarker, .markers => [(c.item u).position]
    | .alternationMarker, .markers => [(c.item u).position]
    | .ordinary, .symbols => [c.grammar.bucketOf s]
    | .ordinary, .positions => if (c.item u).present then [(c.item u).position] else []
    | _, _ => []

variable {strict whole : Prop} {g : Grammar} {s : Settings} {c c' : Chart} {u v : ItemId}

section Keys

/-- An item calls for at most one key in each index. -/
theorem keysFor_cases (c : Chart) (u : ItemId) (k : Index) :
    c.keysFor u k = [] ∨ ∃ key, c.keysFor u k = [key] := by
  unfold keysFor
  split
  · split <;> simp
  · split
    · exact Or.inr ⟨_, rfl⟩
    · exact Or.inr ⟨_, rfl⟩
    · exact Or.inr ⟨_, rfl⟩
    · exact Or.inr ⟨_, rfl⟩
    · cases (c.item u).present <;> simp
    · exact Or.inl rfl

theorem keysFor_congr
    (hgrammar : c'.grammar = c.grammar)
    (hsymbol : (c'.item u).symbol = (c.item u).symbol)
    (hposition : (c'.item u).position = (c.item u).position)
    (hpresent : (c'.item u).present = (c.item u).present)
    (k : Index) :
    c'.keysFor u k = c.keysFor u k := by
  simp only [keysFor, recognized?, kindOf, hgrammar, hsymbol, hposition, hpresent]

/-- An item that is registered is posted under the keys that it calls for. -/
theorem postings_register
    (hfresh : (c.item u).registered = false)
    (hbucket : ∀ s, c.recognized? u = some s → c.grammar.bucketOf s < c.grammar.size)
    (k : Index) :
    (c.register u).postings k =
      (c.keysFor u k).foldl (fun p key => p.add key u) (c.postings k) := by
  unfold keysFor
  cases posting c u with
  | repeated hregistered =>
    rw [hfresh] at hregistered
    cases hregistered
  | unrecognized _ hnone heq =>
    rw [heq, hnone]
    cases k <;> simp [postings, enrolled, modifyItem]
  | separator _ hsymbol hkind heq =>
    rw [heq, hsymbol]
    cases k <;> simp [postings, enrolled, modifyItem, hkind]
  | marker _ hsymbol hkind heq =>
    rw [heq, hsymbol]
    rcases hkind with hkind | hkind <;> cases k <;> simp [postings, enrolled, modifyItem, hkind]
  | @ordinary s _ hsymbol hkind heq =>
    have hroom := hbucket s hsymbol
    rw [heq, hsymbol]
    cases hseen : (c.item u).present <;> cases k <;>
      simp [postings, enrolled, modifyItem, hkind, hroom, hseen]

theorem filled_register
    (hfresh : (c.item u).registered = false) :
    (c.register u).filled =
      if (c.item u).present then max c.filled (c.item u).stop else c.filled := by
  cases posting c u with
  | repeated hregistered =>
    rw [hfresh] at hregistered
    cases hregistered
  | unrecognized _ _ heq | separator _ _ _ heq | marker _ _ _ heq | ordinary _ _ _ heq =>
    rw [heq]
    rfl

/-- Posting an item leaves the keys of the others, and gives it those that it calls for. -/
theorem keysOf_register
    (hfresh : (c.item u).registered = false)
    (hbucket : ∀ s, c.recognized? u = some s → c.grammar.bucketOf s < c.grammar.size)
    (hnone : ∀ k, (c.postings k).keysOf u = [])
    (k : Index) :
    ((c.register u).postings k).keysOf v =
      if v = u then c.keysFor u k else (c.postings k).keysOf v := by
  rw [postings_register hfresh hbucket k]
  rcases keysFor_cases c u k with hkeys | ⟨key, hkeys⟩ <;> rw [hkeys]
  · split
    · rename_i hv
      rw [hv, List.foldl_nil, hnone k]
    · rfl
  · rw [List.foldl_cons, List.foldl_nil]
    split
    · rename_i hv
      rw [hv, Postings.keysOf_add_self (hnone k)]
    · rename_i hv
      exact Postings.keysOf_add_of_ne hv key

end Keys

/-- Registered items stand where they are called for, and no others stand anywhere. -/
structure Listed (c : Chart) : Prop where
  total : c.grammar.Total
  symbol : ∀ u s, (c.item u).symbol = some s → s < c.grammar.size
  wrapper : ∀ x a, (c.candidate x).wrapper = some a → a.index < c.items.size
  keys : ∀ u k, (c.postings k).keysOf u =
    if (c.item u).registered then c.keysFor u k else []
  filled_ge : ∀ u, (c.item u).registered = true → (c.item u).present = true →
    (c.item u).stop ≤ c.filled
  filled_of : c.filled = 0 ∨ ∃ u, (c.item u).registered = true ∧ (c.item u).present = true ∧
    (c.item u).stop = c.filled

theorem listed_new
    (htotal : g.Total)
    (s : Settings) :
    Listed (new g s) where
  total := htotal
  symbol u k h := by
    rw [item_of_size_le (Nat.zero_le _)] at h
    cases h
  wrapper x a h := by
    rw [candidate_of_size_le (Nat.zero_le _)] at h
    cases h
  keys u k := by
    rw [item_of_size_le (Nat.zero_le _)]
    cases k <;> rfl
  filled_ge u h := by
    rw [item_of_size_le (Nat.zero_le _)] at h
    cases h
  filled_of := Or.inl rfl

/-- Only items that are not registered may change what their keys depend on. -/
theorem Listed.frame
    (h : Listed c)
    (hact : Act strict whole c c')
    (hpostings : c'.postings = c.postings)
    (hfilled : c'.filled = c.filled)
    (hentry : ∀ v, (c'.item v).entry = (c.item v).entry ∨
      (c.item v).registered = false ∧ (c'.item v).registered = false)
    (hsymbol : ∀ v s, (c'.item v).symbol = some s → s < c.grammar.size) :
    Listed c' := by
  have hgrammar : c'.grammar = c.grammar := hact.grammar.1
  have hread : ∀ v, (c'.item v).entry = (c.item v).entry →
      (c'.item v).registered = (c.item v).registered ∧
        (c'.item v).present = (c.item v).present ∧ (c'.item v).stop = (c.item v).stop := by
    intro v hv
    simp only [Item.entry, Prod.mk.injEq] at hv
    exact ⟨hv.2.2.2.2, hv.2.2.2.1, by rw [Item.stop, Item.stop, hv.2.1, hv.2.2.1]⟩
  constructor
  · rw [hgrammar]
    exact h.total
  · intro v k hk
    rw [hgrammar]
    exact hsymbol v k hk
  · intro x a ha
    refine Nat.lt_of_lt_of_le ?_ hact.items_le
    exact (hact.wrapper_cases ha).elim (h.wrapper x a) id
  · intro v k
    rw [hpostings, h.keys]
    rcases hentry v with hsame | ⟨hold, hnew⟩
    · rw [(hread v hsame).1]
      simp only [Item.entry, Prod.mk.injEq] at hsame
      rw [keysFor_congr hgrammar hsame.1 hsame.2.1 hsame.2.2.2.1]
    · rw [hold, hnew]
      rfl
  · intro v hregistered hpresent
    rcases hentry v with hsame | ⟨-, hnew⟩
    · obtain ⟨hr, hp, hs⟩ := hread v hsame
      rw [hs, hfilled]
      exact h.filled_ge v (hr ▸ hregistered) (hp ▸ hpresent)
    · rw [hnew] at hregistered
      cases hregistered
  · refine h.filled_of.imp (fun hzero => hfilled.trans hzero) ?_
    rintro ⟨v, hregistered, hpresent, hstop⟩
    rcases hentry v with hsame | ⟨hold, -⟩
    · obtain ⟨hr, hp, hs⟩ := hread v hsame
      exact ⟨v, hr.trans hregistered, hp.trans hpresent, by rw [hs, hstop, hfilled]⟩
    · rw [hold] at hregistered
      cases hregistered

theorem item_register_of_ne
    (h : v ≠ u) :
    (c.register u).item v = c.item v := by
  rcases register_cases c u with ⟨heq, -⟩ | ⟨b, p, d, m, f, t, -, heq⟩ <;> rw [heq]
  exact item_modifyItem_of_ne _ h.symm

theorem Listed.register
    (h : Listed c)
    (hu : u.index < c.items.size) :
    Listed (c.register u) := by
  by_cases hfresh : (c.item u).registered = true
  · rw [register_of_registered hfresh]
    exact h
  · replace hfresh : (c.item u).registered = false := eq_false_of_ne_true hfresh
    have hact : Act False False c (c.register u) := .register fun hs => hs.elim
    have hgrammar : (c.register u).grammar = c.grammar := hact.grammar.1
    have hsymbol : ∀ v, ((c.register u).item v).symbol = (c.item v).symbol :=
      field_register Item.symbol (fun _ => rfl) u
    have hpresent : ∀ v, ((c.register u).item v).present = (c.item v).present :=
      field_register Item.present (fun _ => rfl) u
    have hposition : ∀ v, ((c.register u).item v).position = (c.item v).position :=
      field_register Item.position (fun _ => rfl) u
    have hstop : ∀ v, ((c.register u).item v).stop = (c.item v).stop :=
      field_register Item.stop (fun _ => rfl) u
    have hnone : ∀ k, (c.postings k).keysOf u = [] := by
      intro k
      rw [h.keys, hfresh]
      rfl
    have hbucket : ∀ k, c.recognized? u = some k → c.grammar.bucketOf k < c.grammar.size :=
      fun k hk => h.total.bucket k (h.symbol u k (Option.filter_eq_some_iff.1 hk).1)
    have hregistered : ((c.register u).item u).registered = true := registered_register hu
    constructor
    · rw [hgrammar]
      exact h.total
    · intro v k hk
      rw [hgrammar]
      exact h.symbol v k (by rw [← hsymbol, hk])
    · intro x a ha
      rw [size_items_register]
      exact h.wrapper x a (by rw [← candidate_register c u, ha])
    · intro v k
      rw [keysOf_register hfresh hbucket hnone,
        keysFor_congr hgrammar (hsymbol v) (hposition v) (hpresent v)]
      by_cases hv : v = u
      · rw [if_pos hv, hv, hregistered]
        rfl
      · rw [if_neg hv, item_register_of_ne hv, h.keys]
    · intro v hv hseen
      rw [hpresent] at hseen
      rw [hstop, filled_register hfresh]
      by_cases hvu : v = u
      · rw [← hvu, if_pos hseen]
        exact Nat.le_max_right _ _
      · rw [item_register_of_ne hvu] at hv
        have hle := h.filled_ge v hv hseen
        split <;> omega
    · rw [filled_register hfresh]
      have hold : c.filled = 0 ∨ ∃ v, ((c.register u).item v).registered = true ∧
          ((c.register u).item v).present = true ∧ ((c.register u).item v).stop = c.filled := by
        refine h.filled_of.imp_right ?_
        rintro ⟨v, hv, hseen, hlast⟩
        have hvu : v ≠ u := by
          rintro rfl
          rw [hfresh] at hv
          cases hv
        exact ⟨v, by rw [item_register_of_ne hvu, hv], by rw [hpresent, hseen],
          by rw [hstop, hlast]⟩
      split
      · rename_i hseen
        rcases Nat.le_total (c.item u).stop c.filled with hle | hle
        · rw [Nat.max_eq_left hle]
          exact hold
        · rw [Nat.max_eq_right hle]
          exact Or.inr ⟨u, hregistered, by rw [hpresent, hseen], hstop u⟩
      · exact hold

/-- Where no item changes what its keys depend on, all stand as before. -/
theorem Listed.keep
    (h : Listed c)
    (hact : Act strict whole c c')
    (hpostings : c'.postings = c.postings)
    (hfilled : c'.filled = c.filled)
    (hentry : ∀ v, (c'.item v).entry = (c.item v).entry) :
    Listed c' :=
  h.frame hact hpostings hfilled (fun v => Or.inl (hentry v)) fun v k hk =>
    h.symbol v k ((congrArg Prod.fst (hentry v)).symm.trans hk)

/-- No act changes what a registered item is listed by. -/
theorem Act.listed
    (h : Act True whole c c')
    (hc : Listed c) :
    Listed c' := by
  have hact := h
  cases h with
  | note => exact hc.keep hact rfl rfl fun _ => rfl
  | refuse => exact hc.keep hact rfl rfl fun _ => rfl
  | allocateItem => exact hc.keep hact rfl rfl (field_pushItem Item.entry {} rfl)
  | predict => exact hc.keep hact rfl rfl (field_pushItem Item.entry {} rfl)
  | allocateAggregate =>
    exact hc.keep hact rfl rfl (field_pushItem (c := c) Item.entry { isAggregate := true } rfl)
  | store => exact hc.keep hact rfl rfl fun _ => rfl
  | join => exact hc.keep hact rfl rfl fun _ => rfl
  | @fill u f _ _ hregistered _ _ hstrict =>
    obtain ⟨hfresh, hdefined⟩ := hstrict trivial
    refine hc.frame hact rfl rfl (fun v => ?_) (fun v k hk => ?_)
    · rw [item_modifyItem]
      split
      · rename_i hv
        rw [hv.1]
        exact Or.inr ⟨hfresh, hregistered.trans hfresh⟩
      · exact Or.inl rfl
    · rw [item_modifyItem] at hk
      split at hk
      · exact (hdefined k hk).elim (hc.symbol u k) id
      · exact hc.symbol v k hk
  | pool => exact hc.keep hact rfl rfl (field_modifyItem Item.entry rfl)
  | fix => exact hc.keep hact rfl rfl (field_modifyItem Item.entry rfl)
  | @enclose a x w start stop hitem hblank =>
    -- The aggregate is blank until now, so it is not registered.
    refine hc.frame hact rfl rfl (fun v => ?_) (fun v k hk => ?_)
    · rw [Chart.enclose, item_modifyCandidate, item_modifyItem]
      split
      · rename_i hv
        rw [hv.1, hblank]
        exact Or.inr ⟨rfl, rfl⟩
      · exact Or.inl rfl
    · rw [Chart.enclose, item_modifyCandidate, item_modifyItem] at hk
      split at hk
      · exact hc.symbol _ k hk
      · exact hc.symbol v k hk
  | settle => exact hc.keep hact rfl rfl fun _ => rfl
  | @register u hstrict =>
    refine hc.register ?_
    rcases hstrict trivial with hlt | ⟨x, hx⟩
    · exact hlt
    · exact hc.wrapper x u hx
  | select => exact hc.keep hact rfl rfl fun _ => rfl

theorem Acts.listed
    (h : Acts True whole c c')
    (hc : Listed c) :
    Listed c' := by
  induction h with
  | refl => exact hc
  | tail _ hact ih => exact hact.listed ih

/-- The charts that input leads to without looking up phrases. -/
inductive Streamed (g : Grammar) (s : Settings) : Chart → Prop
  | new : Streamed g s (new g s)
  | input
      {c : Chart}
      (h : Streamed g s c)
      (i : Input)
      (hi : i.isLookup = false) :
      Streamed g s (i.apply c)

theorem Streamed.listed
    (htotal : g.Total)
    (h : Streamed g s c) :
    c.grammar = g ∧ Listed c := by
  induction h with
  | new => exact ⟨rfl, listed_new htotal s⟩
  | @input c _ i hi ih =>
    by_cases hreset : i = .reset
    · rw [hreset]
      exact ⟨ih.1, listed_new ih.2.total c.settings⟩
    · have hacts : Acts True True c (i.apply c) :=
        (compositional_acts True).input c i hreset fun _ => ⟨ih.2.total, hi⟩
      exact ⟨hacts.grammar.1.trans ih.1, hacts.listed ih.2⟩

/--
Each item stands in each index under just the key that its symbol, the kind of the
symbol and its presence call for if it is registered, and nowhere otherwise; and no
registered present item stops behind the furthest stop, which is that of one of them
unless it is zero.
-/
theorem postings_exact
    {d : Declaration}
    (hresolve : d.resolve = .ok g)
    (hrun : Streamed g s c) :
    (∀ u k, (c.postings k).keysOf u =
      if (c.item u).registered then c.keysFor u k else []) ∧
    (∀ u, (c.item u).registered = true → (c.item u).present = true →
      (c.item u).stop ≤ c.filled) ∧
    (c.filled = 0 ∨ ∃ u, (c.item u).registered = true ∧ (c.item u).present = true ∧
      (c.item u).stop = c.filled) := by
  obtain ⟨-, hlisted⟩ := hrun.listed (Declaration.total_of_resolve hresolve)
  exact ⟨hlisted.keys, hlisted.filled_ge, hlisted.filled_of⟩

/-- The second token of the sample stands in a bucket and at its position. -/
theorem postings_exact_sample :
    sampleDeclaration.resolve = .ok sampleGrammar ∧ Streamed sampleGrammar {} sampleChart ∧
      (sampleChart.postings .symbols).keysOf ⟨1⟩ = [2] ∧
      (sampleChart.postings .positions).keysOf ⟨1⟩ = [1] ∧ sampleChart.filled = 2 := by
  have hrun : Streamed sampleGrammar {} sampleChart :=
    .input (.input .new (.feed _) rfl) (.feed _) rfl
  have hkeys := (postings_exact resolve_sampleDeclaration hrun).1 ⟨1⟩
  refine ⟨resolve_sampleDeclaration, hrun, ?_, ?_, by decide +kernel⟩ <;> rw [hkeys] <;>
    decide +kernel

end Chart

end BeamChart
