import BeamChart.Proofs.Chart.Sound

/-!
# What stands in a bucket

Items are posted once, when they are registered, and stay where they are. So a
bucket lists each of its items once, and lists no item of a symbol that belongs
in another bucket (`Evolves.posted`).
-/

namespace BeamChart

namespace Chart

variable {strict : Prop} {c c' : Chart} {u : ItemId}

theorem Extends.recognized
    (h : Extends c c')
    {s : SymbolId}
    (hs : c.recognized? u = some s) :
    c'.recognized? u = some s := by
  rw [recognized?, Option.filter_eq_some_iff] at hs ⊢
  exact ⟨h.symbol hs.1, hs.2⟩

/-- Registering posts an item in the bucket of its symbol, or in no bucket. -/
theorem bySymbol_register (c : Chart) (u : ItemId) :
    (c.register u).bySymbol = c.bySymbol ∨
      (c.item u).registered = false ∧ ∃ s, c.recognized? u = some s ∧
        (c.register u).bySymbol = c.bySymbol.add (c.grammar.bucketOf s) u := by
  cases posting c u with
  | repeated _ heq =>
    rw [heq]
    exact Or.inl rfl
  | unrecognized _ _ heq | separator _ _ _ heq | marker _ _ _ heq =>
    rw [heq]
    exact Or.inl rfl
  | @ordinary s hfresh hsymbol _ heq =>
    rw [heq]
    dsimp only
    split
    · exact Or.inr ⟨hfresh, s, hsymbol, rfl⟩
    · exact Or.inl rfl

/-- The buckets list registered items of their own symbols, each once. -/
structure Posted (c : Chart) : Prop where
  ordered : c.bySymbol.Ordered
  nodup : ∀ key, (c.bySymbol.under key).Nodup
  entry : ∀ key u, u ∈ c.bySymbol.under key →
    (c.item u).registered = true ∧ ∃ s, c.recognized? u = some s ∧ c.grammar.bucketOf s = key

theorem posted_new (g : Grammar) (s : Settings) :
    Posted (new g s) where
  ordered := Postings.ordered_empty
  nodup _ := List.nodup_nil
  entry key u h := by cases h

theorem Posted.extend
    (hp : Posted c)
    (h : Extends c c')
    (hsame : c'.bySymbol = c.bySymbol) :
    Posted c' where
  ordered := by
    rw [hsame]
    exact hp.ordered
  nodup key := by
    rw [hsame]
    exact hp.nodup key
  entry key u hu := by
    rw [hsame] at hu
    obtain ⟨hreg, s, hs, hbucket⟩ := hp.entry key u hu
    rw [h.grammar]
    exact ⟨h.registered u hreg, s, h.recognized hs, hbucket⟩

theorem registered_register
    (hu : u.index < c.items.size) :
    ((c.register u).item u).registered = true := by
  rcases register_cases c u with ⟨heq, hreg⟩ | ⟨b, p, d, m, f, t, -, heq⟩
  · rw [heq]
    exact hreg
  · rw [heq]
    exact congrArg Item.registered
      (item_modifyItem_self (fun i => { i with registered := true }) hu)

theorem Posted.register
    (hp : Posted c)
    (u : ItemId) :
    Posted (c.register u) := by
  rcases bySymbol_register c u with hsame | ⟨hfresh, s, hs, hadd⟩
  · exact hp.extend (Extends.register c u) hsame
  · have hext : Extends c (c.register u) := Extends.register c u
    have hlt : u.index < c.items.size := by
      refine Nat.lt_of_not_le fun hle => ?_
      rw [recognized?, item_of_size_le hle] at hs
      cases hs
    have habsent : ∀ key, u ∉ c.bySymbol.under key := by
      intro key hmem
      rw [(hp.entry key u hmem).1] at hfresh
      cases hfresh
    refine ⟨?_, fun key => ?_, fun key v hv => ?_⟩
    · rw [hadd]
      exact Postings.ordered_add hp.ordered _ u
    · rw [hadd, Postings.under_add hp.ordered]
      split
      · rw [List.nodup_append]
        refine ⟨hp.nodup key, List.pairwise_singleton _ u, fun a ha b hb hab => ?_⟩
        rw [hab, List.mem_singleton.1 hb] at ha
        exact habsent key ha
      · exact hp.nodup key
    · rw [hadd, Postings.under_add hp.ordered] at hv
      have hold : v ∈ c.bySymbol.under key → ((c.register u).item v).registered = true ∧
          ∃ q, (c.register u).recognized? v = some q ∧
            (c.register u).grammar.bucketOf q = key := by
        intro hmem
        obtain ⟨hreg, q, hq, hbucket⟩ := hp.entry key v hmem
        rw [hext.grammar]
        exact ⟨hext.registered v hreg, q, hext.recognized hq, hbucket⟩
      split at hv
      · rename_i hkey
        rcases List.mem_append.1 hv with hmem | hlast
        · exact hold hmem
        · rw [List.mem_singleton.1 hlast, hext.grammar, hkey]
          exact ⟨registered_register hlt, s, hext.recognized hs, rfl⟩
      · exact hold hv

theorem Step.posted
    (h : Step strict c c')
    (hp : Posted c) :
    Posted c' := by
  have hext : Extends c c' := h.grows
  cases h with
  | register => exact hp.register _
  | _ => exact hp.extend hext rfl

theorem Evolves.posted
    (h : Evolves strict c c')
    (hp : Posted c) :
    Posted c' := by
  induction h with
  | refl => exact hp
  | tail _ hstep ih => exact hstep.posted ih

/-- An item that stands under a symbol has a symbol of the same bucket. -/
theorem Posted.mem_itemsOf
    (hp : Posted c)
    {s : SymbolId}
    (hu : u ∈ c.itemsOf s) :
    ∃ q, c.recognized? u = some q ∧ c.grammar.bucketOf q = c.grammar.bucketOf s :=
  (hp.entry _ u hu).2

end Chart

end BeamChart
