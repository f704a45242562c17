import BeamChart.Proofs.Chart.Run
import BeamChart.Proofs.Chart.Sight
import BeamChart.Proofs.Grammar.Built
import BeamChart.Proofs.Sequence.Chain

/-!
# A token in a positional chart

While there is room, a token of a positional grammar makes one item, with a leaf
if it names a symbol (`makeItem_of_room`). A peer, which names an ordinary symbol,
takes the one candidate of the tail, if the tail stops by the peer's start
(`chain_of_tail`), and becomes the tail itself (`tail_register`). Any other token
is only posted.
-/

namespace BeamChart

namespace Grammar

/-- The symbol that a token names, if this is not the unrecognized one. -/
def named? (g : Grammar) (t : Token) : Option Symbol :=
  (g.symbol? t.concept).filter fun s => s.id ≠ unrecognized

/-- The token names an ordinary symbol. -/
def isPeer (g : Grammar) (t : Token) : Bool :=
  (g.named? t).any fun s => s.kind = .ordinary

/-- What a token weighs on its own. -/
def weigh (g : Grammar) (s : Scoring) (t : Token) : Weight :=
  match g.named? t with
  | some entry => s.tokenWeight t.extent t.sparse entry.verification
  | none => 0

variable {g : Grammar} {t : Token} {entry : Symbol}

theorem ne_unrecognized_of_named?
    (h : g.named? t = some entry) :
    entry.id ≠ unrecognized :=
  of_decide_eq_true (Option.mem_filter_iff.1 h).2

/-- A named symbol is found under its number. -/
theorem Coherent.symbol?_of_named?
    (hg : g.Coherent)
    (h : g.named? t = some entry) :
    g.symbol? entry.id = some entry := by
  have hfound : g.symbol? t.concept = some entry := (Option.mem_filter_iff.1 h).1
  rw [hg.numbered _ _ hfound]
  exact hfound

end Grammar

/-- An item that was seen over a token, under a symbol or none. -/
def Item.seen (symbol : Option SymbolId) (t : Token) (pool : List CandidateId) : Item :=
  { concept := symbol.getD unrecognized
    symbol
    position := t.position
    extent := t.extent
    present := true
    token := some t
    pool }

namespace Coverage

variable {m : Coverage} {p q : Nat} {owner : CandidateId}

/-- A run that starts where a map has stopped does not meet it. -/
theorem not_intersects_behind
    (hm : ∀ r ∈ m.runs, r.stop ≤ p) :
    (single p q owner).intersects m = false := by
  unfold intersects
  split
  · rename_i a b c d hown hmap
    rw [single] at hown
    split at hown
    · cases hown
      rw [if_pos]
      right
      unfold span? at hmap
      split at hmap
      · rename_i a' b' _ hstop
        cases hmap
        obtain ⟨r, hr, rfl⟩ := Option.map_eq_some_iff.1 hstop
        exact hm r (List.mem_of_getLast? hr)
      · cases hmap
    · cases hown
  · rfl

/-- A run behind a map is put at its end; an empty one leaves no trace. -/
theorem runs_union_behind
    (hm : ∀ r ∈ m.runs, r.stop ≤ p) :
    ((single p q owner).union m).runs = m.runs ++ (single p q owner).runs := by
  obtain ⟨runs⟩ := m
  unfold single
  split
  · rename_i hpq
    cases runs with
    | nil => rfl
    | cons r rest =>
      have hr := hm r List.mem_cons_self
      have hlt := r.start_lt_stop
      have hright : ¬ q ≤ r.start := by omega
      calc (union ⟨[⟨p, q, owner, hpq⟩]⟩ ⟨r :: rest⟩).runs
        _ = List.merge [⟨p, q, owner, hpq⟩] (r :: rest) fun x y => x.start ≤ y.start := by
          simp only [union, stop?, start?, List.getLast?_singleton, Option.map_some,
            List.head?_cons, if_neg hright]
        _ = (r :: rest) ++ [⟨p, q, owner, hpq⟩] :=
          merge_singleton _ _ fun a ha => Nat.lt_of_lt_of_le a.start_lt_stop (hm a ha)
  · rw [empty_union]
    exact (List.append_nil _).symm

end Coverage

namespace Chart

variable {c : Chart} {u v : ItemId} {x y : CandidateId} {t : Token}

section Making

/-- The chart with the item of a token, neither connected nor posted. -/
def arrived (c : Chart) (t : Token) : Chart :=
  match c.grammar.named? t with
  | none => c.pushItem (.seen none t [])
  | some s =>
    (c.pushItem (.seen (some s.id) t [c.nextCandidate])).pushCandidate
      (c.leafOf c.nextItem s s.id t)

theorem symbolOf?_eq (c : Chart) (t : Token) :
    c.symbolOf? t = (c.grammar.named? t).map Symbol.id := by
  rw [symbolOf?, Grammar.named?]
  cases c.grammar.symbol? t.concept with
  | none => rfl
  | some s =>
    by_cases hs : s.id = unrecognized <;> simp [Option.filter, hs]

theorem makeItem_of_room
    (hgrammar : c.grammar.Coherent)
    (hitems : c.plainItems < c.settings.itemCapacity)
    (hcandidates : (c.grammar.named? t).isSome →
      c.candidates.size < c.settings.candidateCapacity) :
    c.makeItem (c.symbolOf? t) t = (.ok c.nextItem, c.arrived t) := by
  have halloc : c.allocateItem = (.ok c.nextItem, c.pushItem {}) := by
    rw [allocateItem, if_neg (Nat.not_le_of_lt hitems)]
  rw [symbolOf?_eq]
  simp only [makeItem, halloc, instantiate, modifyItem_pushItem, arrived]
  cases hnamed : c.grammar.named? t with
  | none =>
    simp only [Option.map_none, Option.filter_none, markPresent, modifyItem_pushItem]
    rfl
  | some s =>
    have hne : s.id ≠ unrecognized := Grammar.ne_unrecognized_of_named? hnamed
    have hentry : c.grammar.symbol? s.id = some s := hgrammar.symbol?_of_named? hnamed
    have hroom : ∀ i, (c.pushItem i).candidatesFull = false := fun i =>
      decide_eq_false (Nat.not_le_of_lt (hcandidates (by rw [hnamed]; rfl)))
    have hkept : (some s.id).filter (fun s => s ≠ unrecognized) = some s.id := by
      simp [Option.filter, hne]
    have hdefined : ∀ i, (c.pushItem i).grammar.symbol? s.id = some s := fun _ => hentry
    simp only [Option.map_some, hkept, hdefined, store, hroom, Bool.false_eq_true, if_false]
    refine congrArg (Prod.mk _) ?_
    rw [markPresent, setPool, modifyItem_modifyItem]
    exact congrArg (fun d => d.pushCandidate (c.leafOf c.nextItem s s.id t))
      (modifyItem_pushItem c _ fun i => { i with pool := [c.nextCandidate], present := true })

end Making

section Connecting

/-- Only a peer is connected with what is around it. -/
theorem connectable?_arrived
    (hgrammar : c.grammar.Coherent)
    (t : Token) :
    (c.arrived t).connectable? c.nextItem =
      (c.grammar.named? t).filter fun s => s.kind = .ordinary := by
  have hitem : ∀ i x, ((c.pushItem i).pushCandidate x).item c.nextItem = i :=
    fun i _ => item_pushItem_nextItem c i
  unfold arrived
  cases hnamed : c.grammar.named? t with
  | none =>
    simp only [connectable?, recognized?, item_pushItem_nextItem]
    rfl
  | some s =>
    have hne : s.id ≠ unrecognized := Grammar.ne_unrecognized_of_named? hnamed
    have hentry : c.grammar.symbol? s.id = some s := hgrammar.symbol?_of_named? hnamed
    have hkept : (some s.id).filter (fun s => s ≠ unrecognized) = some s.id := by
      simp [Option.filter, hne]
    simp only [connectable?, recognized?, hitem, Item.seen, hkept, if_true, Option.bind_some]
    exact congrArg _ hentry

/-- The candidate of an item takes that of the tail, which stops by the item's start. -/
theorem chain_of_tail
    (htail : c.tail = some v)
    (hne : v ≠ u)
    (horder : (c.item v).stop ≤ (c.item u).position)
    (hformer : (c.item v).pool = [y])
    (hown : (c.item u).pool = [x])
    (hfree : (c.candidate x).slot .next = none)
    (hapart : (c.candidate x).coverage.intersects (c.candidate y).coverage = false)
    (hroom : c.candidatesFull = false) :
    c.chain u =
      (((c.count fun t => { t with attempts := t.attempts + 1 }).pushCandidate
        ((c.candidate x).attach .next ⟨y, 0⟩ (c.candidate y))).count fun t =>
          { t with attachments := t.attachments + 1 }).setPool u [c.nextCandidate] := by
  have hbehind : (c.tail.filter fun t => t ≠ u) = some v := by
    rw [htail]
    simp [Option.filter, hne]
  unfold chain
  rw [hbehind]
  dsimp only
  rw [if_neg (Nat.not_lt_of_le horder), hformer, hown]
  dsimp only
  rw [tryAttach_of_free _ hfree hapart hroom]
  rfl

end Connecting

section Posting

/-- A peer that is posted in a positional chart becomes the tail. -/
theorem tail_register
    (hpresent : (c.item u).present = true)
    (hfresh : (c.item u).registered = false) :
    (c.register u).tail =
      if c.grammar.kind = .positional ∧
        (c.recognized? u).any (fun s => c.kindOf s = .ordinary) = true
      then some u else c.tail := by
  cases posting c u with
  | repeated hregistered =>
    rw [hfresh] at hregistered
    cases hregistered
  | unrecognized _ hnone heq =>
    rw [heq, hnone]
    simp [enrolled, modifyItem]
  | separator _ hsymbol hkind heq =>
    rw [heq, hsymbol]
    simp [enrolled, modifyItem, hkind]
  | marker _ hsymbol hkind heq =>
    rw [heq, hsymbol]
    rcases hkind with hkind | hkind <;> simp [enrolled, modifyItem, hkind]
  | ordinary _ hsymbol hkind heq =>
    rw [heq, hsymbol]
    simp [hpresent, hkind]

/-- Posting marks the item, and changes nothing else of what is stored. -/
theorem register_frame
    (hfresh : (c.item u).registered = false) :
    (c.register u).items =
        (c.modifyItem u fun i => { i with registered := true }).items ∧
      (c.register u).candidates = c.candidates ∧
      (c.register u).aggregateCount = c.aggregateCount := by
  rcases register_cases c u with ⟨-, hreg⟩ | ⟨b, p, l, k, f, e, -, heq⟩
  · rw [hfresh] at hreg
    cases hreg
  · rw [heq]
    exact ⟨rfl, rfl, rfl⟩

end Posting

end Chart

end BeamChart
