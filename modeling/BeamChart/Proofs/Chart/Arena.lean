import BeamChart.Proofs.Chart.Cover
import BeamChart.Proofs.Chart.InputReturns
import BeamChart.Proofs.Chart.Run

/-!
# The arenas are closed and only grow

A chart that is operated on with items and candidates that it has given out
refers to nothing else (`WithinArenas`), children stand before their parents, and
until the chart is reset what is stored stays as it is, up to two marks
(`arenas_closed`).
-/

namespace BeamChart

namespace Operation

/-- What an operation speaks of is stored. -/
def Exists (c : Chart) : Operation → Prop
  | input _ | allocate => True
  | instantiate u _ _ | register u | connect u | fulfil u _ | seekParents u _
  | seekParent u _ _ => u.index < c.items.size
  | takeOver u placeholder _ => u.index < c.items.size ∧ placeholder.index < c.items.size
  | offer parent child _ => parent.index < c.items.size ∧ child.index < c.items.size
  | attach parent child _ => c.Has parent ∧ c.Has child
  | detach x child => c.Has x ∧ child.index < c.items.size

variable {c : Chart} {op : Operation}

theorem Exists.names
    (h : op.Exists c) :
    op.Names c := by
  cases op with
  | instantiate => exact h
  | attach => exact h
  | detach => exact h.1
  | _ => trivial

end Operation

namespace Chart

variable {g : Grammar} {s : Settings} {strict : Prop} {c c' : Chart}

/-- The charts that operations on what is stored lead to. -/
inductive Managed (g : Grammar) (s : Settings) : Chart → Prop
  | new : Managed g s (new g s)
  | operation
      {c : Chart}
      (h : Managed g s c)
      (op : Operation)
      (hexists : op.Exists c) :
      Managed g s (op.apply c)

/-- Any number of operations on what is stored, without a reset. -/
def Continues : Chart → Chart → Prop :=
  Relation.ReflTransGen fun c c' =>
    ∃ op : Operation, op.Exists c ∧ op ≠ .input .reset ∧ op.apply c = c'

/-- Everything that a chart refers to is stored in it. -/
structure WithinArenas (c : Chart) : Prop where
  pool : ∀ u, ∀ x ∈ (c.item u).pool, c.Has x
  child : ∀ x r t, c.Has x → (c.candidate x).slot r = some t → c.Has t.child
  owner : ∀ x, c.Has x → ∀ a ∈ (c.candidate x).coverage.runs, c.Has a.owner
  best : ∀ x, c.best = some x → c.Has x
  root : ∀ x, c.Has x → (c.candidate x).root.index < c.items.size
  wrapper : ∀ x a, (c.candidate x).wrapper = some a → a.index < c.items.size
  marker : ∀ x m, c.Has x → (c.candidate x).marker = some m → m.index < c.items.size
  fixedParent : ∀ u p r, (c.item u).fixedParent = some (p, r) → p.index < c.items.size
  tail : ∀ u, c.tail = some u → u.index < c.items.size
  bySymbol : ∀ u ∈ c.bySymbol.items, u.index < c.items.size
  byPosition : ∀ u ∈ c.byPosition.items, u.index < c.items.size
  delimiters : ∀ u ∈ c.delimiters.items, u.index < c.items.size
  markers : ∀ u ∈ c.markers.items, u.index < c.items.size

theorem Managed.operated
    (h : Managed g s c) :
    Operated g s c := by
  induction h with
  | new => exact .new
  | operation _ op hexists ih => exact .operation ih op hexists.names

section Returning

theorem Input.apply_resumes
    (c : Chart)
    (i : Input)
    (hi : i ≠ .reset) :
    Resumes c (i.apply c) := by
  cases i with
  | feed t => exact (feed_returns c t).toResumes
  | absorb sub => exact absorb_resumes c sub
  | lookup table atoms => exact (lookup_returns table atoms c).toResumes
  | select => exact select_resumes c
  | reset => exact absurd rfl hi

theorem Operation.apply_resumes
    (op : Operation)
    (hexists : op.Exists c)
    (hop : op ≠ .input .reset) :
    Resumes c (op.apply c) := by
  cases op with
  | input i => exact Input.apply_resumes c i fun h => hop (by rw [h])
  | allocate => exact (allocateItem_returns c).toResumes
  | instantiate u symbol t => exact (instantiate_returns c u symbol t).toResumes
  | register u => exact ((Returns.refl c).register (Or.inr hexists)).toResumes
  | connect u => exact (connect_returns c u).toResumes
  | fulfil u s => exact (fulfilWith_returns connect_returns c u s).toResumes
  | takeOver u placeholder s =>
    exact (takeOverWith_returns connect_returns c u placeholder s).toResumes
  | seekParents u s => exact (seekParentsWith_returns connect_returns c u s).toResumes
  | seekParent u level rule =>
    exact (seekParentWith_returns connect_returns c u level rule).toResumes
  | offer parent child rule =>
    exact (offerWith_returns connect_returns c parent child rule).toResumes
  | attach parent child rule => exact (attach_returns c parent child rule).toResumes
  | detach x child => exact (detach_returns c x child).toResumes

/-- What a managed chart has announced is stored. -/
theorem Managed.announced
    (h : Managed g s c) :
    ∀ u, c.Announced u → u.index < c.items.size := by
  have hnew : ∀ (g : Grammar) (s : Settings) (u : ItemId),
      (Chart.new g s).Announced u → u.index < (Chart.new g s).items.size := by
    rintro g s u (hu | ⟨x, hx⟩)
    · cases hu
    · rw [candidate_of_size_le (Nat.zero_le _)] at hx
      cases hx
  induction h with
  | new => exact hnew g s
  | @operation c _ op hexists ih =>
    by_cases hop : op = .input .reset
    · rw [hop]
      exact hnew c.grammar c.settings
    · have hreturns := Operation.apply_resumes op hexists hop
      intro u hu
      rcases hreturns.announced u hu with hold | hlt
      · exact Nat.lt_of_lt_of_le (ih u hold) hreturns.items_le
      · exact hlt

end Returning

section Frame

/-- A move changes no more of a stored candidate than its marks. -/
theorem Moves.body
    (h : Moves strict c c')
    {x : CandidateId}
    (hx : c.Has x) :
    c'.Has x ∧ (c'.candidate x).body = (c.candidate x).body := by
  induction h with
  | refl => exact ⟨hx, rfl⟩
  | tail _ hmove ih =>
    cases hmove with
    | step h => exact ⟨h.grows.has ih.1, (h.grows.body x ih.1).trans ih.2⟩
    | fix => exact ih
    | refill => exact ih

theorem Continues.body
    (hrun : Managed g s c)
    (h : Continues c c')
    {x : CandidateId}
    (hx : c.Has x) :
    c'.Has x ∧ (c'.candidate x).body = (c.candidate x).body := by
  have hboth : Managed g s c' ∧ c'.Has x ∧ (c'.candidate x).body = (c.candidate x).body := by
    induction h with
    | refl => exact ⟨hrun, hx, rfl⟩
    | @tail c₁ c₂ _ hstep ih =>
      obtain ⟨op, hexists, hop, rfl⟩ := hstep
      obtain ⟨hmanaged, hhas, hbody⟩ := ih
      have hmoves := Operation.apply_moves hmanaged.operated.kept.sound op hexists.names hop
      have hkept := hmoves.body hhas
      exact ⟨.operation hmanaged op hexists, hkept.1, hkept.2.trans hbody⟩
  exact hboth.2

end Frame

section Trees

/-- Beyond the place of a candidate, more room does not change its tree. -/
theorem parseWithin_eq
    (hc : Closed c)
    (room : Nat)
    (via : Option Relation)
    {x : CandidateId}
    (hx : c.Has x)
    (hroom : x.index ≤ room) :
    c.parseWithin room via x = c.parseWithin x.index via x := by
  have hsmall : ∀ n room via y, c.Has y → y.index ≤ n → n ≤ room →
      c.parseWithin room via y = c.parseWithin n via y := by
    intro n
    induction n with
    | zero =>
      intro room via y hy hn _
      cases room with
      | zero => rfl
      | succ room =>
        have hnone : (c.candidate y).slots.filled = [] := by
          rw [List.eq_nil_iff_forall_not_mem]
          rintro ⟨r, t⟩ ht
          have hlt := hc.child y r t hy ((Slots.mem_filled _ r t).1 ht)
          omega
        rw [parseWithin, parseWithin, hnone]
        rfl
    | succ n ih =>
      intro room via y hy hn hle
      cases room with
      | zero => omega
      | succ room =>
        rw [parseWithin, parseWithin]
        refine congrArg _ (List.map_congr_left fun e he => ?_)
        have hslot := (Slots.mem_filled _ e.1 e.2).1 he
        have hlt := hc.child y e.1 e.2 hy hslot
        exact ih room _ _ (hc.has_child hy hslot) (by omega) (by omega)
  exact hsmall x.index room via x hx (Nat.le_refl _) hroom

end Trees

theorem Managed.withinArenas
    (hrun : Managed g s c) :
    WithinArenas c := by
  have hkept := hrun.operated.invariant (contained_new g s) fun _ _ _ _ _ hin h => h.contained hin
  have hin := hkept.holds
  have hc : Closed c := hkept.sound.closed
  exact
    { pool := fun u x hx => hc.has_of_mem hx
      child := fun x r t hx ht => hc.has_child hx ht
      owner := fun x hx a ha => ((hrun.operated.tiled x hx).owned a ha).has
      best := fun x hx => (hc.best x hx).1
      root := hc.root
      wrapper := fun x a ha => hrun.announced a (Or.inr ⟨x, ha⟩)
      marker := hin.marker
      fixedParent := hin.fixedParent
      tail := fun u hu => lt_size_of_present (hc.tail u hu)
      bySymbol := hin.bySymbol
      byPosition := fun u hu => hrun.announced u (Or.inl hu)
      delimiters := hin.delimiters
      markers := hin.markers }

/--
After any operations on what is stored, all references stay within the arenas and
each child stands before its parent, so reading a tree ends at the place of its
top. Until the chart is reset, further operations change no more of a stored
candidate than the marks of being wrapped and of being pending.
-/
theorem arenas_closed
    (hrun : Managed g s c) :
    WithinArenas c ∧
      (∀ x r t, c.Has x → (c.candidate x).slot r = some t → t.child.index < x.index) ∧
      (∀ x room via, c.Has x → x.index ≤ room →
        c.parseWithin room via x = c.parseWithin x.index via x) ∧
      ∀ c', Continues c c' → ∀ x, c.Has x →
        c'.Has x ∧ (c'.candidate x).body = (c.candidate x).body := by
  have hc : Closed c := hrun.operated.kept.sound.closed
  exact ⟨hrun.withinArenas, hc.child,
    fun x room via hx hroom => parseWithin_eq hc room via hx hroom,
    fun c' h x hx => h.body hrun hx⟩

/-- The first token has a leaf, which the second token leaves as it is. -/
theorem arenas_closed_sample :
    ((Input.feed { concept := 1, position := 0, extent := 1 }).apply
        (new sampleGrammar {})).Has ⟨0⟩ ∧
      (sampleChart.candidate ⟨0⟩).body =
        (((Input.feed { concept := 1, position := 0, extent := 1 }).apply
          (new sampleGrammar {})).candidate ⟨0⟩).body := by
  have hhas : ((Input.feed { concept := 1, position := 0, extent := 1 }).apply
      (new sampleGrammar {})).Has ⟨0⟩ := by decide +kernel
  refine ⟨hhas, ?_⟩
  exact ((arenas_closed (.operation .new (.input (.feed
    { concept := 1, position := 0, extent := 1 })) trivial)).2.2.2 sampleChart
    (.single ⟨.input (.feed { concept := 2, position := 1, extent := 1 }), trivial,
      (by intro h; cases h), rfl⟩) ⟨0⟩ hhas).2

end Chart

end BeamChart
