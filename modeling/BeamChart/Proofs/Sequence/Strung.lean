import BeamChart.Proofs.Chart.InputReturns
import BeamChart.Proofs.Sequence.Aside
import BeamChart.Proofs.Sequence.Knot

/-!
# Hearing a sequence of tokens

Tokens that stand in order are fed to a positional chart that has room for them.
Whatever stands between the peers, the item of each peer keeps its one candidate,
the chain of all peers so far, and the tail is the last of them. This is what one
token preserves (`Strung.feed`), and so a whole input (`Strung.feeds`).
-/

namespace BeamChart

namespace Chart

variable {g : Grammar} {s : Settings} {c c' d : Chart} {heard more tokens : List Token}
variable {t : Token} {u v : ItemId} {x : CandidateId} {pool : List CandidateId}

/-- An item has been made for a token. -/
structure Voices (c : Chart) (u : ItemId) (t : Token) : Prop where
  symbol : (c.item u).symbol = (c.grammar.named? t).map Symbol.id
  position : (c.item u).position = t.position
  extent : (c.item u).extent = t.extent
  bare : c.grammar.named? t = none → (c.item u).pool = []

/-- A chart has heard some tokens, and the item of each peer has the chain of all peers so far. -/
structure Strung (g : Grammar) (s : Settings) (heard : List Token) (c : Chart) : Prop where
  sound : Sound True c
  grammar : c.grammar = g
  settings : c.settings = s
  depth : c.depth = 0
  aggregates : c.aggregateCount = 0
  size : c.items.size = heard.length
  stored : c.candidates.size = g.stored heard
  voices : ∀ u t, heard[u.index]? = some t → c.Voices u t
  tail : c.tail = (g.peers heard).getLast?.map Prod.fst
  knot : ∀ row u t, row ++ [(u, t)] <+: g.peers heard →
    ∃ x, (c.item u).pool = [x] ∧ c.Knot x (row ++ [(u, t)])

/-- The tokens stand in order and name no towers, and there is just enough room for them. -/
structure Affords (g : Grammar) (s : Settings) (heard : List Token) : Prop where
  ordered : heard.Pairwise fun a b => a.stop ≤ b.position
  plain : ∀ t ∈ heard, ∀ entry, g.named? t = some entry → entry.composition = none
  items : heard.length ≤ s.itemCapacity
  candidates : g.stored heard ≤ s.candidateCapacity

theorem Affords.prefix
    (h : Affords g s (heard ++ more)) :
    Affords g s heard where
  ordered := (List.pairwise_append.1 h.ordered).1
  plain t ht := h.plain t (List.mem_append_left more ht)
  items := by
    have hle := h.items
    rw [List.length_append] at hle
    omega
  candidates := Nat.le_trans (g.stored_le_append heard more) h.candidates

theorem strung_new (g : Grammar) (s : Settings) :
    Strung g s [] (new g s) where
  sound := sound_new True g s
  grammar := rfl
  settings := rfl
  depth := rfl
  aggregates := rfl
  size := rfl
  stored := rfl
  voices u t h := by cases h
  tail := rfl
  knot row u t h := by
    have hnil := List.prefix_nil.1 h
    simp at hnil

section Hearing

/-- The item that a token is about to be posted under, with all that belongs to it. -/
structure Heard (c d : Chart) (t : Token) (pool : List CandidateId) : Prop where
  grows : Extends c d
  items : d.items = c.items.push (.seen ((c.grammar.named? t).map Symbol.id) t pool)
  aggregates : d.aggregateCount = c.aggregateCount
  tail : d.tail = c.tail
  bare : c.grammar.named? t = none → pool = []

theorem Heard.item_new
    (h : Heard c d t pool) :
    d.item c.nextItem = .seen ((c.grammar.named? t).map Symbol.id) t pool := by
  simp [item, h.items, nextItem]

theorem Heard.item_old
    (h : Heard c d t pool)
    (hv : v.index < c.items.size) :
    d.item v = c.item v := by
  rw [item, item, h.items, Array.getElem?_push, if_neg (Nat.ne_of_lt hv)]

theorem Voices.of_item
    {b : Bool}
    (h : c.Voices u t)
    (hgrammar : c'.grammar = c.grammar)
    (hitem : c'.item u = { c.item u with registered := b }) :
    c'.Voices u t := by
  refine ⟨?_, ?_, ?_, ?_⟩ <;> rw [hitem]
  · rw [hgrammar]
    exact h.symbol
  · exact h.position
  · exact h.extent
  · rw [hgrammar]
    exact h.bare

/-- A token is posted as an ordinary item if it is a peer. -/
theorem any_recognized
    (hgrammar : c.grammar.Coherent)
    (hitem : (c.item u).symbol = (c.grammar.named? t).map Symbol.id) :
    (c.recognized? u).any (fun s => c.kindOf s = .ordinary) = c.grammar.isPeer t := by
  rw [recognized?, hitem, Grammar.isPeer]
  cases hnamed : c.grammar.named? t with
  | none => rfl
  | some entry =>
    have hne : entry.id ≠ unrecognized := Grammar.ne_unrecognized_of_named? hnamed
    simp [Option.filter, hne, kindOf, hgrammar.symbol?_of_named? hnamed]

/-- What is registered keeps all else of its item. -/
theorem item_register
    (hfresh : (c.item u).registered = false)
    (v : ItemId) :
    ∃ b, (c.register u).item v = { c.item v with registered := b } := by
  rw [item_of_items_eq (register_frame hfresh).1, item_modifyItem]
  split
  · rename_i hv
    rw [hv.1]
    exact ⟨true, rfl⟩
  · exact ⟨(c.item v).registered, rfl⟩

theorem Heard.voices
    (h : Heard c d t pool) :
    d.Voices c.nextItem t := by
  refine ⟨?_, ?_, ?_, ?_⟩ <;> rw [h.item_new]
  · rw [h.grows.grammar]
    rfl
  · rfl
  · rfl
  · rw [h.grows.grammar]
    exact h.bare

theorem Strung.nextItem
    (h : Strung g s heard c) :
    c.nextItem = ⟨heard.length⟩ := by
  rw [Chart.nextItem, h.size]

theorem Strung.lt_size
    {k : Nat}
    (h : Strung g s heard c)
    (hfound : heard[k]? = some t) :
    k < c.items.size := by
  rw [h.size]
  exact (List.getElem?_eq_some_iff.1 hfound).1

/-- Items have been made for all tokens, the last one included. -/
theorem Strung.voiced
    (h : Strung g s heard c)
    (hheard : Heard c d t pool) :
    ∀ w t', (heard ++ [t])[w.index]? = some t' → d.Voices w t' := by
  intro w t' hw
  rw [List.getElem?_append] at hw
  split at hw
  · exact (h.voices w t' hw).of_item (b := (c.item w).registered) hheard.grows.grammar
      (hheard.item_old (h.lt_size hw))
  · rename_i hle
    rw [List.getElem?_singleton] at hw
    split at hw
    · rename_i hzero
      cases hw
      have hindex : w.index = heard.length := by omega
      have hlast : w = c.nextItem := by rw [h.nextItem, ← hindex]
      rw [hlast]
      exact hheard.voices
    · cases hw

/-- The chains of the earlier peers are kept, and the last one adds its own. -/
theorem Strung.knotted
    (h : Strung g s heard c)
    (hheard : Heard c d t pool)
    (hknot : g.isPeer t = true → ∃ x, pool = [x] ∧ d.Knot x (g.peers (heard ++ [t]))) :
    ∀ row w t', row ++ [(w, t')] <+: g.peers (heard ++ [t]) →
      ∃ x, (d.item w).pool = [x] ∧ d.Knot x (row ++ [(w, t')]) := by
  intro row w t' hrow
  have hearlier : row ++ [(w, t')] <+: g.peers heard →
      ∃ x, (d.item w).pool = [x] ∧ d.Knot x (row ++ [(w, t')]) := by
    intro hprefix
    obtain ⟨x, hx, hchain⟩ := h.knot row w t' hprefix
    have hmem : (w, t') ∈ g.peers heard :=
      hprefix.subset (List.mem_append_right row (List.mem_singleton.2 rfl))
    rw [hheard.item_old (h.lt_size (Grammar.mem_peers.1 hmem).1)]
    exact ⟨x, hx, hchain.extend hheard.grows⟩
  rw [g.peers_concat] at hrow
  split at hrow
  · rename_i ht
    rcases List.prefix_concat_iff.1 hrow with heq | hprefix
    · obtain ⟨x, hx, hchain⟩ := hknot ht
      rw [g.peers_concat, if_pos ht] at hchain
      obtain ⟨rfl, hlast⟩ := List.append_inj' heq rfl
      cases hlast
      rw [← h.nextItem] at hchain ⊢
      rw [hheard.item_new]
      exact ⟨x, hx, hchain⟩
    · exact hearlier hprefix
  · exact hearlier hrow

/-- Posting the item of a token keeps the chains of all peers. -/
theorem Strung.posted
    (h : Strung g s heard c)
    (hkind : g.kind = .positional)
    (hgrammar : g.Coherent)
    (hheard : Heard c d t pool)
    (hstored : d.candidates.size = g.stored (heard ++ [t]))
    (hknot : g.isPeer t = true → ∃ x, pool = [x] ∧ d.Knot x (g.peers (heard ++ [t])))
    (hsound : Sound True (d.register c.nextItem))
    (hdepth : (d.register c.nextItem).depth = 0) :
    Strung g s (heard ++ [t]) (d.register c.nextItem) := by
  have hnew := hheard.item_new
  have hpresent : (d.item c.nextItem).present = true := by rw [hnew]; rfl
  have hfresh : (d.item c.nextItem).registered = false := by rw [hnew]; rfl
  have hregister : Extends d (d.register c.nextItem) := Extends.register d c.nextItem
  have hd : d.grammar = g := hheard.grows.grammar.trans h.grammar
  obtain ⟨hitems, hcandidates, haggregates⟩ := register_frame hfresh
  refine
    { sound := hsound
      grammar := hregister.grammar.trans hd
      settings := hregister.settings.trans (hheard.grows.settings.trans h.settings)
      depth := hdepth
      aggregates := haggregates.trans (hheard.aggregates.trans h.aggregates)
      size := ?_
      stored := ?_
      voices := fun w t' hw => ?_
      tail := ?_
      knot := fun row w t' hrow => ?_ }
  · rw [hitems, size_items_modifyItem, hheard.items, Array.size_push, h.size,
      List.length_append, List.length_singleton]
  · rw [hcandidates, hstored]
  · obtain ⟨b, hitem⟩ := item_register hfresh w
    exact (h.voiced hheard w t' hw).of_item hregister.grammar hitem
  · have hpeer := any_recognized (by rw [hd]; exact hgrammar) hheard.voices.symbol
    rw [tail_register hpresent hfresh, hpeer, hd, hheard.tail, h.tail, g.peers_concat, h.nextItem]
    by_cases ht : g.isPeer t = true <;> simp [ht, hkind]
  · obtain ⟨b, hitem⟩ := item_register hfresh w
    obtain ⟨x, hx, hchain⟩ := h.knotted hheard hknot row w t' hrow
    rw [hitem]
    exact ⟨x, hx, hchain.extend hregister⟩

/-- What a chart of unlimited attempts needs to connect every peer. -/
structure Tireless (s : Settings) : Prop where
  budget : s.attemptBudget = 0
  depth : 1 ≤ s.maxDepth

/-- Before it is connected, the item of a token has a leaf if it names a symbol. -/
theorem heard_arrived (c : Chart) (t : Token) :
    ∃ pool, Heard c (c.arrived t) t pool ∧
      (c.arrived t).candidates.size =
        c.candidates.size + (if (c.grammar.named? t).isSome then 1 else 0) ∧
      (c.arrived t).depth = c.depth ∧
      ((c.grammar.named? t).isSome → pool = [c.nextCandidate] ∧
        (c.arrived t).Leaf c.nextCandidate c.nextItem t) := by
  unfold arrived
  cases hnamed : c.grammar.named? t with
  | none =>
    refine ⟨[], ⟨Extends.pushItem c _, ?_, rfl, rfl, fun _ => rfl⟩, rfl, rfl, fun h => by cases h⟩
    rw [hnamed]
    rfl
  | some entry =>
    have hitem : ∀ i x, ((c.pushItem i).pushCandidate x).item c.nextItem = i :=
      fun i _ => item_pushItem_nextItem c i
    have hcandidate : ∀ i x, ((c.pushItem i).pushCandidate x).candidate c.nextCandidate = x :=
      fun i x => candidate_nextCandidate (c.pushItem i) x
    refine ⟨[c.nextCandidate], ⟨(Extends.pushItem c _).trans (Extends.pushCandidate _ _), ?_, rfl,
      rfl, fun h => ?_⟩, size_candidates_pushCandidate _ _, rfl, fun _ => ⟨rfl, ?_⟩⟩
    · rw [hnamed]
      rfl
    · rw [hnamed] at h
      cases h
    · refine ⟨⟨has_nextCandidate (c.pushItem _) _, ?_, ?_, ?_⟩, ?_, ⟨c.nextCandidate, ?_⟩, ?_⟩
      · rw [hcandidate]
        rfl
      · rw [hitem]
        rfl
      · rw [hitem]
        rfl
      · rw [hcandidate]
        rfl
      · rw [hcandidate]
        rfl
      · rw [hcandidate]
        change _ = c.grammar.weigh c.settings.scoring t
        rw [Grammar.weigh, hnamed]
        rfl

/-- A peer goes through the chain, any other token is not connected. -/
theorem connectInBudget_arrived
    (h : Strung g s heard c)
    (hs : Tireless s)
    (hkind : g.kind = .positional)
    (hgrammar : g.Coherent)
    (t : Token) :
    (c.arrived t).connectInBudget c.nextItem =
      if g.isPeer t then ((c.arrived t).enter.chain c.nextItem).leave else c.arrived t := by
  obtain ⟨pool, hheard, -, hdepth, -⟩ := heard_arrived c t
  have hconnectable := connectable?_arrived (by rw [h.grammar]; exact hgrammar) t
  have hsettings : (c.arrived t).settings = s := hheard.grows.settings.trans h.settings
  have hgrows : (c.arrived t).grammar = g := hheard.grows.grammar.trans h.grammar
  rw [connectInBudget, hsettings, hs.budget]
  simp only [decide_true, Bool.true_or, if_true]
  obtain ⟨room, hroom⟩ := Nat.exists_eq_succ_of_ne_zero (Nat.ne_of_gt hs.depth)
  rw [connect, hsettings, hroom]
  unfold connectWithin
  rw [hconnectable, h.grammar, Grammar.isPeer]
  cases hnamed : g.named? t with
  | none => rfl
  | some entry =>
    by_cases hordinary : entry.kind = .ordinary
    · have hdeep : ¬ (c.arrived t).settings.maxDepth ≤ (c.arrived t).depth := by
        rw [hsettings, hdepth, h.depth]
        exact Nat.not_le_of_lt hs.depth
      have hbody : connectBody (connectWithin room) (c.arrived t).enter c.nextItem entry =
          (c.arrived t).enter.chain c.nextItem := by
        unfold connectBody
        rw [if_pos]
        exact (congrArg Grammar.kind hgrows).trans hkind
      simp [Option.filter, hordinary, hdeep, hbody]
    · simp [Option.filter, hordinary]

theorem Affords.behind
    (h : Affords g s (heard ++ [t])) :
    ∀ e ∈ g.peers heard, e.2.stop ≤ t.position := by
  rintro ⟨w, e⟩ he
  have hlast := (List.pairwise_append.1 h.ordered).2.2
  exact hlast e (List.mem_of_getElem? (Grammar.mem_peers.1 he).1) t (List.mem_singleton.2 rfl)

/-- The leaf of a peer takes the chain of the tail. -/
theorem Strung.linked
    {row : List (ItemId × Token)}
    {t' : Token}
    (h : Strung g s heard c)
    (hfits : Affords g s (heard ++ [t]))
    (ht : g.isPeer t = true)
    (hheard : Heard c d t [x])
    (hsize : d.candidates.size = g.stored heard + 1)
    (hown : d.Leaf x c.nextItem t)
    (hrow : g.peers heard = row ++ [(v, t')]) :
    ∃ z, Heard c (d.chain c.nextItem) t [z] ∧
      (d.chain c.nextItem).candidates.size = g.stored (heard ++ [t]) ∧
      (d.chain c.nextItem).Knot z (g.peers heard ++ [(c.nextItem, t)]) := by
  obtain ⟨y, hformer, hknot⟩ := h.knot row v t' (hrow ▸ List.prefix_refl _)
  rw [← hrow] at hknot
  have hy : d.Knot y (g.peers heard) := hknot.extend hheard.grows
  have hmem : (v, t') ∈ g.peers heard := by
    rw [hrow]
    exact List.mem_append_right row (List.mem_singleton.2 rfl)
  have hfound := (Grammar.mem_peers.1 hmem).1
  have hold : d.item v = c.item v := hheard.item_old (h.lt_size hfound)
  have hne : v ≠ c.nextItem := by
    rintro rfl
    exact Nat.lt_irrefl _ (h.lt_size hfound)
  have htail : d.tail = some v := by
    rw [hheard.tail, h.tail, hrow]
    simp
  have hstop : (d.item v).stop ≤ (d.item c.nextItem).position := by
    have hvoices := h.voices v t' hfound
    rw [hold, hheard.item_new, Item.stop, hvoices.position, hvoices.extent]
    exact hfits.behind _ hmem
  have hapart : (d.candidate x).coverage.intersects (d.candidate y).coverage = false := by
    obtain ⟨owner, hcoverage⟩ := hown.coverage
    rw [hcoverage]
    exact Coverage.not_intersects_behind (hy.stop_le hfits.behind)
  have hnamed := Grammar.named_of_isPeer ht
  have hstored := g.stored_concat heard t
  rw [if_pos hnamed, if_pos ⟨ht, List.ne_nil_of_mem hmem⟩] at hstored
  have hroom : d.candidatesFull = false := by
    refine decide_eq_false (Nat.not_le_of_lt ?_)
    rw [hsize, hheard.grows.settings, h.settings]
    have hle := hfits.candidates
    omega
  have hchain := chain_of_tail htail hne hstop ((congrArg Item.pool hold).trans hformer)
    (congrArg Item.pool hheard.item_new) (by rw [Candidate.slot, hown.slots]; rfl) hapart hroom
  generalize hmade : (d.candidate x).attach .next ⟨y, 0⟩ (d.candidate y) = made at hchain
  have hext : Extends d (d.chain c.nextItem) := by
    rw [hchain]
    exact ((Resembles.count d _).trans ((Resembles.pushCandidate _ made).trans
      (.count _ _))).grows.trans (aside_setPool _ _ _).grows
  rw [hchain] at hext ⊢
  rw [hstored]
  refine ⟨d.nextCandidate, ⟨hheard.grows.trans hext, ?_, hheard.aggregates, hheard.tail, ?_⟩, ?_,
    hown.tie hy hfits.behind hext (has_nextCandidate _ made)
      ((candidate_nextCandidate _ made).trans hmade.symm)⟩
  · change d.items.modify c.nextItem.index (fun i => { i with pool := [d.nextCandidate] }) = _
    rw [hheard.items]
    exact congrArg Chart.items (modifyItem_pushItem c _ fun i =>
      { i with pool := [d.nextCandidate] })
  · rw [h.grammar]
    intro hnone
    rw [hnone] at hnamed
    cases hnamed
  · change (d.candidates.push made).size = _
    rw [Array.size_push, hsize]

/-- The leaf of a peer is chained to what the tail holds. -/
theorem Strung.tied
    (h : Strung g s heard c)
    (hfits : Affords g s (heard ++ [t]))
    (ht : g.isPeer t = true)
    (hheard : Heard c d t [x])
    (hsize : d.candidates.size = g.stored heard + 1)
    (hown : d.Leaf x c.nextItem t) :
    ∃ z, Heard c (d.chain c.nextItem) t [z] ∧
      (d.chain c.nextItem).candidates.size = g.stored (heard ++ [t]) ∧
      (d.chain c.nextItem).Knot z (g.peers (heard ++ [t])) := by
  have hpeers := g.peers_concat heard t
  rw [if_pos ht, ← h.nextItem] at hpeers
  rw [hpeers]
  rcases List.eq_nil_or_concat (g.peers heard) with hnil | ⟨row, ⟨v, t'⟩, hrow⟩
  · have hchain : d.chain c.nextItem = d := by
      unfold chain
      rw [hheard.tail, h.tail, hnil]
      rfl
    rw [hchain, g.stored_concat, if_pos (Grammar.named_of_isPeer ht),
      if_neg (fun hboth => hboth.2 hnil), hnil]
    exact ⟨x, hheard, hsize, hown.knot⟩
  · rw [List.concat_eq_append] at hrow
    exact h.linked hfits ht hheard hsize hown hrow

theorem Heard.of_arenas
    (h : Heard c d t pool)
    (hgrammar : c'.grammar = d.grammar)
    (hsettings : c'.settings = d.settings)
    (hitems : c'.items = d.items)
    (hcandidates : c'.candidates = d.candidates)
    (haggregates : c'.aggregateCount = d.aggregateCount)
    (htail : c'.tail = d.tail) :
    Heard c c' t pool where
  grows := h.grows.trans (.of_arenas hgrammar hsettings hitems hcandidates)
  items := hitems.trans h.items
  aggregates := haggregates.trans h.aggregates
  tail := htail.trans h.tail
  bare := h.bare

/-- There is room for a token's item and its leaf. -/
theorem Strung.makes
    (h : Strung g s heard c)
    (hgrammar : c.grammar.Coherent)
    (hfits : Affords g s (heard ++ [t])) :
    c.makeItem (c.symbolOf? t) t = (.ok c.nextItem, c.arrived t) := by
  refine makeItem_of_room hgrammar ?_ fun hnamed => ?_
  · rw [plainItems, h.aggregates, h.size, h.settings]
    have hle := hfits.items
    rw [List.length_append, List.length_singleton] at hle
    omega
  · rw [h.grammar] at hnamed
    have hle := hfits.candidates
    rw [g.stored_concat, if_pos hnamed] at hle
    rw [h.stored, h.settings]
    omega

/-- A token is made an item, connected and posted. -/
theorem Strung.feed_eq
    (h : Strung g s heard c)
    (hgrammar : g.Coherent)
    (hfits : Affords g s (heard ++ [t]))
    (hwindow : t.stop ≤ s.window) :
    (c.feed t).2 = ((c.arrived t).connectInBudget c.nextItem).register c.nextItem := by
  have hmake := h.makes (by rw [h.grammar]; exact hgrammar) hfits
  have hplain : ((c.symbolOf? t).bind c.grammar.symbol?).bind (fun s => s.composition) = none := by
    rw [symbolOf?_eq, h.grammar]
    cases hnamed : g.named? t with
    | none => rfl
    | some entry =>
      have hentry := hgrammar.symbol?_of_named? hnamed
      simp only [Option.map_some, Option.bind_some, hentry]
      exact hfits.plain t (List.mem_append_right heard (List.mem_singleton.2 rfl)) entry hnamed
  rw [Chart.feed, feedAs, h.settings, if_neg (Nat.not_lt_of_le hwindow), hplain]
  dsimp only
  rw [hmake]

/-- The next token is heard. -/
theorem Strung.feed
    (h : Strung g s heard c)
    (hs : Tireless s)
    (hkind : g.kind = .positional)
    (hgrammar : g.Coherent)
    (hfits : Affords g s (heard ++ [t]))
    (hwindow : t.stop ≤ s.window) :
    Strung g s (heard ++ [t]) (c.feed t).2 := by
  have hsound : Sound True (c.feed t).2 := (feed_advances h.sound t).sound h.sound
  have hdepth : (c.feed t).2.depth = 0 := (feed_returns c t).depth.trans h.depth
  rw [h.feed_eq hgrammar hfits hwindow, connectInBudget_arrived h hs hkind hgrammar t]
    at hsound hdepth ⊢
  obtain ⟨pool, hheard, hsize, -, hleaf⟩ := heard_arrived c t
  rw [h.grammar] at hsize hleaf
  by_cases ht : g.isPeer t = true
  · simp only [if_pos ht] at hsound hdepth ⊢
    have hnamed := Grammar.named_of_isPeer ht
    obtain ⟨rfl, hown⟩ := hleaf hnamed
    rw [if_pos hnamed, h.stored] at hsize
    have hentered : Heard c (c.arrived t).enter t [c.nextCandidate] :=
      hheard.of_arenas rfl rfl rfl rfl rfl rfl
    obtain ⟨z, hchained, hstored, hknot⟩ := h.tied hfits ht hentered hsize
      (hown.extend (.of_arenas rfl rfl rfl rfl))
    exact h.posted hkind hgrammar (hchained.of_arenas rfl rfl rfl rfl rfl rfl) hstored
      (fun _ => ⟨z, rfl, hknot.extend (.of_arenas rfl rfl rfl rfl)⟩) hsound hdepth
  · simp only [if_neg ht] at hsound hdepth ⊢
    refine h.posted hkind hgrammar hheard ?_ (fun hpeer => absurd hpeer ht) hsound hdepth
    have hnone : ¬ (g.isPeer t = true ∧ g.peers heard ≠ []) := fun hboth => ht hboth.1
    rw [hsize, g.stored_concat, if_neg hnone, h.stored, Nat.add_zero]

/-- Tokens are heard one by one; those beyond the window are refused. -/
theorem Strung.feeds
    (h : Strung g s heard c)
    (hs : Tireless s)
    (hkind : g.kind = .positional)
    (hgrammar : g.Coherent)
    (hfits : Affords g s (heard ++ s.heard tokens)) :
    Strung g s (heard ++ s.heard tokens) (c.feeds tokens) := by
  induction tokens generalizing heard c with
  | nil =>
    rw [show s.heard [] = [] from rfl, List.append_nil]
    exact h
  | cons t rest ih =>
    change Strung g s _ ((c.feed t).2.feeds rest)
    by_cases hwindow : t.stop ≤ s.window
    · have hcons : heard ++ s.heard (t :: rest) = (heard ++ [t]) ++ s.heard rest := by
        simp [Settings.heard, hwindow]
      rw [hcons] at hfits ⊢
      exact ih (h.feed hs hkind hgrammar hfits.prefix hwindow) hfits
    · have hskip : s.heard (t :: rest) = s.heard rest := by
        simp [Settings.heard, hwindow]
      have hrefused : (c.feed t).2 = c := by
        rw [Chart.feed, feedAs, h.settings, if_pos (Nat.lt_of_not_le hwindow)]
      rw [hskip] at hfits ⊢
      rw [hrefused]
      exact ih h hfits

end Hearing

end Chart

end BeamChart
