import BeamChart.Proofs.Chart.Balance
import BeamChart.Proofs.Chart.Raising

/-!
# Refitting a tower

An item that is an inner level of a tower passes the first of its pending candidates
upwards, where it takes the place of older ones. No pool above loses a weight but by this
exchange: each candidate is matched by one that is as heavy, or that has the newer child
for the older one (`refit_succeeds`). Otherwise the pool is left as it is.

As long as what is pending has no mark, nothing is connected on the way, and the climb
touches no pools but those of the tower (`climbWith_stays`). Charts in which this is so
are those of `Unwrapped`.
-/

namespace BeamChart

namespace Chart

variable {m : Nat} {connect : Connector}
variable {c c' c'' base : Chart} {u v w p above : ItemId} {r : Relation}
variable {x y n newer : CandidateId}

/-- What a candidate weighs with a child of another weight in a slot. -/
def weightWith (c : Chart) (x : CandidateId) (t : Slot) (other : Weight) : Weight :=
  c.weightOf x - c.weightOf t.child - t.bonus + other + t.bonus

/-- One candidate is as heavy as the other, or as that with another child of the item. -/
def Succeeds
    (c c' : Chart)
    (r : Relation)
    (u : ItemId)
    (other : Weight)
    (x y : CandidateId) : Prop :=
  c.weightOf x ≤ c'.weightOf y ∨
    ∃ t, (c.candidate x).slot r = some t ∧ (c.candidate t.child).root = u ∧
      c.weightWith x t other ≤ c'.weightOf y

/-- From some place on nothing has a mark, and before it no pool has anything to pass on. -/
structure Unwrapped (m : Nat) (c : Chart) : Prop where
  candidates_le : m ≤ c.candidates.size
  wrapper : ∀ x : CandidateId, m ≤ x.index → (c.candidate x).wrapper = none
  settled : ∀ w, ∀ x ∈ (c.item w).pool, x.index < m → (c.candidate x).pending = false

/-- Nothing has been marked, and other pools are as they were. -/
structure Stays (m : Nat) (changed : List ItemId) (c c' : Chart) : Prop where
  steps : Evolves False c c'
  unwrapped : Unwrapped m c'
  pool : ∀ w, w ∉ changed → (c'.item w).pool = (c.item w).pool

namespace Unwrapped

theorem tally
    (h : Unwrapped m c)
    (t : Tally) :
    Unwrapped m { c with tally := t } where
  candidates_le := h.candidates_le
  wrapper := h.wrapper
  settled := h.settled

theorem pushCandidate
    {z : Candidate}
    (h : Unwrapped m c)
    (hfree : z.wrapper = none) :
    Unwrapped m (c.pushCandidate z) where
  candidates_le := Nat.le_trans h.candidates_le (Extends.pushCandidate c z).candidates_le
  wrapper x hx := by
    rw [candidate_pushCandidate]
    split
    · exact hfree
    · exact h.wrapper x hx
  settled w x hx hlt := by
    have hold : c.Has x := Nat.lt_of_lt_of_le hlt h.candidates_le
    rw [candidate_pushCandidate, if_neg (ne_nextCandidate hold)]
    exact h.settled w x hx hlt

theorem settle
    (h : Unwrapped m c)
    (n : CandidateId) :
    Unwrapped m (c.settle n) where
  candidates_le := by
    rw [Chart.settle, size_candidates_modifyCandidate]
    exact h.candidates_le
  wrapper x hx := by
    rw [Chart.settle, candidate_modifyCandidate]
    split
    · rename_i heq
      exact h.wrapper n (heq.1 ▸ hx)
    · exact h.wrapper x hx
  settled w x hx hlt := by
    rw [Chart.settle, candidate_modifyCandidate]
    split
    · rfl
    · exact h.settled w x hx hlt

theorem setPool
    {pool : List CandidateId}
    (h : Unwrapped m c)
    (hpool : ∀ x ∈ pool, x.index < m → (c.candidate x).pending = false) :
    Unwrapped m (c.setPool u pool) where
  candidates_le := h.candidates_le
  wrapper := h.wrapper
  settled := pools_setPool (P := fun _ x => x.index < m → (c.candidate x).pending = false)
    hpool fun w _ => h.settled w

/-- What is pending has been stored since. -/
theorem free
    (h : Unwrapped m c)
    (hsettled : x.index < m → (c.candidate x).pending = false)
    (hpending : (c.candidate x).pending = true) :
    (c.candidate x).wrapper = none := by
  refine h.wrapper x (Nat.le_of_not_lt fun hlt => ?_)
  rw [hsettled hlt] at hpending
  cases hpending

end Unwrapped

theorem Evolves.settled
    {strict : Prop}
    (h : Evolves strict c c')
    (hx : c.Has x)
    (hsettled : (c.candidate x).pending = false) :
    (c'.candidate x).pending = false := by
  refine eq_false_of_ne_true fun hpending => ?_
  rw [h.pending hx hpending] at hsettled
  cases hsettled

namespace Stays

variable {changed more : List ItemId}

theorem refl
    (h : Unwrapped m c) :
    Stays m changed c c :=
  ⟨.refl c, h, fun _ _ => rfl⟩

theorem trans
    (h : Stays m changed c c')
    (k : Stays m changed c' c'') :
    Stays m changed c c'' :=
  ⟨h.steps.trans k.steps, k.unwrapped, fun w hw => (k.pool w hw).trans (h.pool w hw)⟩

theorem mono
    (h : Stays m changed c c')
    (hmore : changed ⊆ more) :
    Stays m more c c' :=
  ⟨h.steps, h.unwrapped, fun w hw => h.pool w fun hmem => hw (hmore hmem)⟩

/-- First one pool changes, and then others. -/
theorem cons
    (h : Stays m [w] c c')
    (k : Stays m more c' c'') :
    Stays m (w :: more) c c'' :=
  (h.mono (List.cons_subset_cons w (List.nil_subset _))).trans (k.mono (List.subset_cons_self _ _))

theorem settle
    (h : Unwrapped m c)
    (n : CandidateId) :
    Stays m changed c (c.settle n) :=
  ⟨.single .settle, h.settle n, fun _ _ => rfl⟩

end Stays

section Repointing

/-- Either nothing is stored, or the candidate with the newer child is. -/
theorem repoint_cases
    (c : Chart)
    (x : CandidateId)
    (r : Relation)
    (newer : CandidateId) :
    (∃ tally, (c.repoint x r newer).2 = { c with tally }) ∧
        (∀ id, (c.repoint x r newer).1 ≠ .ok (some id)) ∨
      ∃ t z, (c.candidate x).slot r = some t ∧ z.wrapper = none ∧
        z.weight = c.weightWith x t (c.weightOf newer) ∧
        c.repoint x r newer = (.ok (some c.nextCandidate), c.pushCandidate z) := by
  cases exchange c x r newer with
  | vacant _ heq =>
    rw [heq]
    exact .inl ⟨⟨c.tally, rfl⟩, fun id hid => by cases hid⟩
  | conflict _ _ heq | exhausted _ _ _ heq =>
    rw [heq]
    exact .inl ⟨⟨_, rfl⟩, fun id hid => by cases hid⟩
  | @replaced t hslot _ _ heq =>
    have hrest : ((c.candidate x).detach r (c.candidate t.child)).weight =
        c.weightOf x - c.weightOf t.child - t.bonus := by
      simp only [Candidate.detach, hslot]
      rfl
    refine .inr ⟨t, c.repointed x r t newer, hslot, rfl, ?_, heq⟩
    rw [weightWith, ← hrest]
    rfl

/-- A refitted pool consists of old candidates and of new ones that have no mark. -/
theorem refitPool_unwrapped
    (old : List CandidateId)
    (r : Relation)
    (u : ItemId)
    (newer : CandidateId)
    (hc : Unwrapped m c)
    (kept : List CandidateId)
    (changed : Bool)
    (pool : List CandidateId)
    (hkept : ∀ y ∈ kept, y ∈ old ∨ m ≤ y.index)
    (hpool : ∀ x ∈ pool, x ∈ old) :
    Unwrapped m (refitPool r u newer c kept changed pool).2 ∧
      ∀ all flag, (refitPool r u newer c kept changed pool).1 = .ok (all, flag) →
        ∀ y ∈ all, y ∈ old ∨ m ≤ y.index := by
  induction pool generalizing c kept changed with
  | nil =>
    refine ⟨hc, fun all flag h => ?_⟩
    cases h
    exact hkept
  | cons x rest ih =>
    have hinsert : ∀ (c : Chart) (y : CandidateId), y ∈ old ∨ m ≤ y.index →
        ∀ z ∈ Pool.insert c.candidate c.settings.beamWidth kept y, z ∈ old ∨ m ≤ z.index := by
      intro c y hy z hz
      rcases Pool.mem_insert hz with hmem | rfl
      · exact hkept z hmem
      · exact hy
    have hx : x ∈ old := hpool x List.mem_cons_self
    have hrest : ∀ y ∈ rest, y ∈ old := fun y hy => hpool y (List.mem_cons_of_mem x hy)
    unfold refitPool
    split
    · rcases repoint_cases c x r newer with ⟨⟨tally, hkeep⟩, hnone⟩ | ⟨t, z, -, hfree, -, heq⟩
      · generalize c.repoint x r newer = result at hkeep hnone ⊢
        obtain ⟨outcome, c₁⟩ := result
        obtain rfl : c₁ = { c with tally } := hkeep
        rcases outcome with e | _ | id
        · exact ⟨hc.tally tally, fun all flag h => by cases h⟩
        · exact ih (hc.tally tally) _ _ (hinsert _ x (.inl hx)) hrest
        · exact absurd rfl (hnone id)
      · rw [heq]
        exact ih (hc.pushCandidate hfree) _ _
          (hinsert _ _ (.inr (Nat.le_trans hc.candidates_le (Nat.le_refl _)))) hrest
    · exact ih hc _ _ (hinsert c x (.inl hx)) hrest

theorem Succeeds.of_extends
    {other : Weight}
    (h : Succeeds c c' r u other x y)
    (hbase : Extends base c)
    (hclosed : Closed base)
    (hx : base.Has x) :
    Succeeds base c' r u other x y := by
  rcases h with hle | ⟨t, ht, hroot, hle⟩
  · exact .inl (by rw [← hbase.weightOf hx]; exact hle)
  · rw [hbase.slot hx] at ht
    have hchild : base.Has t.child := hclosed.has_child hx ht
    rw [weightWith, hbase.weightOf hx, hbase.weightOf hchild] at hle
    rw [hbase.root hchild] at hroot
    exact .inr ⟨t, ht, hroot, hle⟩

theorem Succeeds.trans_le
    {other : Weight}
    {z : CandidateId}
    (h : Succeeds c c' r u other x y)
    (hle : c'.weightOf y ≤ c''.weightOf z) :
    Succeeds c c'' r u other x z :=
  h.imp (fun h => Weight.le_trans h hle) fun ⟨t, ht, hroot, h⟩ =>
    ⟨t, ht, hroot, Weight.le_trans h hle⟩

/-- What has been kept, and what is to come, is succeeded in a pool. -/
structure Refits
    (base c c' : Chart)
    (r : Relation)
    (u : ItemId)
    (other : Weight)
    (kept pool all : List CandidateId) : Prop where
  kept : ∀ y ∈ kept, ∃ z ∈ all, c.weightOf y ≤ c'.weightOf z
  pool : ∀ x ∈ pool, ∃ z ∈ all, Succeeds base c' r u other x z

/-- The successor of the first candidate is inserted into what has been kept. -/
theorem Refits.cons
    {c₁ : Chart}
    {other : Weight}
    {kept rest all : List CandidateId}
    (hwidth : 1 ≤ c₁.settings.beamWidth)
    (hext : Extends c c₁)
    (hkept : ∀ z ∈ kept, c.Has z)
    (hbeam : Pool.IsBeam c₁.candidate c₁.settings.beamWidth kept)
    (hsucceeds : Succeeds base c₁ r u other x y)
    (h : Refits base c₁ c' r u other
      (Pool.insert c₁.candidate c₁.settings.beamWidth kept y) rest all) :
    Refits base c c' r u other kept (x :: rest) all := by
  have hlater : ∀ z, z ∈ kept ∨ z = y → ∃ z' ∈ all, c₁.weightOf z ≤ c'.weightOf z' := by
    intro z hz
    obtain ⟨k, hk, hzk⟩ := Pool.exists_le_insert hwidth hbeam.falling y hz
    obtain ⟨z', hz', hkz'⟩ := h.kept k hk
    exact ⟨z', hz', Weight.le_trans hzk hkz'⟩
  refine ⟨fun z hz => ?_, fun x' hx' => ?_⟩
  · rw [← hext.weightOf (hkept z hz)]
    exact hlater z (.inl hz)
  · rcases List.mem_cons.1 hx' with rfl | hmem
    · obtain ⟨z, hz, hle⟩ := hlater y (.inr rfl)
      exact ⟨z, hz, hsucceeds.trans_le hle⟩
    · exact h.pool x' hmem

/-- Each candidate of a pool that is refitted is succeeded in the refitted one. -/
theorem refitPool_succeeds
    (hclosed : Closed base)
    (hbase : Extends base c)
    (hwidth : 1 ≤ base.settings.beamWidth)
    (hnewer : base.Has newer)
    (kept : List CandidateId)
    (changed : Bool)
    (pool : List CandidateId)
    (hpool : ∀ x ∈ pool, base.Has x)
    (hkept : ∀ y ∈ kept, c.Has y)
    (hbeam : Pool.IsBeam c.candidate c.settings.beamWidth kept) :
    ∀ all flag, (refitPool r u newer c kept changed pool).1 = .ok (all, flag) →
      Refits base c (refitPool r u newer c kept changed pool).2 r u (base.weightOf newer)
        kept pool all := by
  induction pool generalizing c kept changed with
  | nil =>
    intro all flag h
    cases h
    exact ⟨fun y hy => ⟨y, hy, Weight.le_refl _⟩, fun x hx => by cases hx⟩
  | cons x rest ih =>
    have hx : base.Has x := hpool x List.mem_cons_self
    have hrest : ∀ y ∈ rest, base.Has y := fun y hy => hpool y (List.mem_cons_of_mem x hy)
    have hnext : ∀ c₁ y changed, Extends c c₁ → c₁.Has y →
        Succeeds base c₁ r u (base.weightOf newer) x y → ∀ all flag,
        (refitPool r u newer c₁ (Pool.insert c₁.candidate c₁.settings.beamWidth kept y)
          changed rest).1 = .ok (all, flag) →
        Refits base c (refitPool r u newer c₁
          (Pool.insert c₁.candidate c₁.settings.beamWidth kept y) changed rest).2 r u
            (base.weightOf newer) kept (x :: rest) all := by
      intro c₁ y changed hext hy hsucceeds all flag hall
      have hbase₁ : Extends base c₁ := hbase.trans hext
      have hbeam₁ : Pool.IsBeam c₁.candidate c₁.settings.beamWidth kept := by
        rw [hext.settings]
        exact hext.isBeam hkept hbeam
      have hwidth₁ : 1 ≤ c₁.settings.beamWidth := by
        rw [hbase₁.settings]
        exact hwidth
      have hkept₁ : ∀ z ∈ Pool.insert c₁.candidate c₁.settings.beamWidth kept y, c₁.Has z := by
        intro z hz
        rcases Pool.mem_insert hz with hold | rfl
        · exact hext.has (hkept z hold)
        · exact hy
      exact .cons hwidth₁ hext hkept hbeam₁ hsucceeds
        (ih hbase₁ _ changed hrest hkept₁ (hbeam₁.insert y) all flag hall)
    have hsame : ∀ c₁, Extends c c₁ → Succeeds base c₁ r u (base.weightOf newer) x x :=
      fun c₁ hext => .inl (by rw [(hbase.trans hext).weightOf hx]; exact Weight.le_refl _)
    unfold refitPool
    split
    · rename_i holder
      rcases repoint_cases c x r newer with
        ⟨⟨tally, hkeep⟩, hnone⟩ | ⟨t, z, ht, -, hweight, heq⟩
      · generalize c.repoint x r newer = result at hkeep hnone ⊢
        obtain ⟨outcome, c₁⟩ := result
        obtain rfl : c₁ = { c with tally } := hkeep
        have hext : Extends c { c with tally } := .of_arenas rfl rfl rfl rfl
        rcases outcome with e | _ | id
        · intro all flag h
          cases h
        · exact hnext _ x _ hext (hext.has (hbase.has hx)) (hsame _ hext)
        · exact absurd rfl (hnone id)
      · have hroot : (c.candidate t.child).root = u := by
          simp only [holdsOlder, ht, Option.any_some, Bool.and_eq_true, holdsItem,
            decide_eq_true_eq] at holder
          exact holder.2
        have hstored : (c.pushCandidate z).weightOf c.nextCandidate =
            c.weightWith x t (base.weightOf newer) := by
          rw [Chart.weightOf, candidate_nextCandidate, hweight, hbase.weightOf hnewer]
        have hsucceeds : Succeeds c (c.pushCandidate z) r u (base.weightOf newer) x
            c.nextCandidate :=
          .inr ⟨t, ht, hroot, by rw [hstored]; exact Weight.le_refl _⟩
        rw [heq]
        exact hnext _ _ _ (.pushCandidate c z) (has_nextCandidate c z)
          (hsucceeds.of_extends hbase hclosed hx)
    · exact hnext c x _ (.refl c) (hbase.has hx) (hsame c (.refl c))

end Repointing

section Climbing

/-- Only the pool above changes, and what is in it is succeeded there. -/
theorem refit_stays
    (hc : Unwrapped m c)
    (hsound : Sound False c)
    (hnewer : c.Has newer)
    (hroot : (c.candidate newer).root = u)
    (hfixed : (c.item u).fixedParent = some (above, r)) :
    Stays m [above] c (c.refit above r u newer).2 := by
  have hsteps := refit_evolves hsound (fun h => h.elim) (fun h => h.elim) hnewer hroot hfixed
  obtain ⟨hunwrapped, hall⟩ := refitPool_unwrapped (c.item above).pool r u newer hc [] false
    (c.item above).pool (fun y hy => by cases hy) fun x hx => hx
  have hitems := items_refitPool r u newer c [] false (c.item above).pool
  have hgrows := (refitPool_spec [] false (c.item above).pool hsound (hsound.closed.pool above)
    ⟨fun x hx => (by cases hx), fun y hy => (by cases hy)⟩ (Pool.IsBeam.nil _ _) (fun x hx => hx)
    hnewer hroot hfixed).1
  rcases refit_cases c above r u newer with heq | ⟨kept, hkept, heq⟩ <;> rw [heq] at hsteps ⊢
  · exact ⟨hgrows, hunwrapped, fun w _ => by rw [item_of_items_eq hitems]⟩
  · refine ⟨hsteps, hunwrapped.setPool fun x hx hlt => ?_, fun w hw => ?_⟩
    · have hold : x ∈ (c.item above).pool :=
        (hall kept true hkept x hx).resolve_right (Nat.not_le_of_lt hlt)
      exact hgrows.settled (hsound.closed.has_of_mem hold) (hc.settled above x hold hlt)
    · have hne : above ≠ w := by
        rintro rfl
        exact hw List.mem_cons_self
      rw [setPool, item_modifyItem_of_ne _ hne, item_of_items_eq hitems]

/-- Every candidate of the pool above is succeeded, whether the pool is replaced or not. -/
theorem refit_succeeds
    (hclosed : Closed c)
    (hwidth : 1 ≤ c.settings.beamWidth)
    (hnewer : c.Has newer)
    (hext : Extends c (c.refit above r u newer).2)
    (hx : x ∈ (c.item above).pool) :
    ∃ y ∈ ((c.refit above r u newer).2.item above).pool,
      Succeeds c (c.refit above r u newer).2 r u (c.weightOf newer) x y := by
  have hall := refitPool_succeeds (r := r) (u := u) hclosed (.refl c) hwidth hnewer [] false
    (c.item above).pool (fun x hx => hclosed.has_of_mem hx) (fun y hy => by cases hy)
    (Pool.IsBeam.nil _ _)
  have hitems := items_refitPool r u newer c [] false (c.item above).pool
  have hstays := hext.weightOf (hclosed.has_of_mem hx)
  rcases refit_cases c above r u newer with heq | ⟨kept, hkept, heq⟩ <;> rw [heq] at hstays ⊢
  · refine ⟨x, by rw [item_of_items_eq hitems]; exact hx, .inl ?_⟩
    rw [hstays]
    exact Weight.le_refl _
  · obtain ⟨y, hy, hsucceeds⟩ := (hall kept true hkept).pool x hx
    refine ⟨y, ?_, hsucceeds⟩
    have hlt : above.index < c.items.size := by
      refine Nat.lt_of_not_le fun hle => ?_
      rw [item_of_size_le hle] at hx
      cases hx
    rw [← hitems] at hlt
    rw [setPool, item_modifyItem_self _ hlt]
    exact hy

/-- What has no mark is passed on without connecting anything. -/
theorem passOnWith_stays
    {changed : List ItemId}
    (pool : List CandidateId)
    (hc : Unwrapped m c)
    (hpool : ∀ x ∈ pool, c.Has x ∧ (x.index < m → (c.candidate x).pending = false)) :
    Stays m changed c (passOnWith connect none c pool) := by
  induction pool generalizing c with
  | nil => exact .refl hc
  | cons x rest ih =>
    obtain ⟨hx, hsettled⟩ := hpool x List.mem_cons_self
    have hrest : ∀ y ∈ rest, c.Has y ∧ (y.index < m → (c.candidate y).pending = false) :=
      fun y hy => hpool y (List.mem_cons_of_mem x hy)
    unfold passOnWith
    split
    · rename_i hpending
      have hsettle : Stays m changed c (c.settle x) := .settle hc x
      rw [hc.free hsettled hpending]
      refine hsettle.trans (ih hsettle.unwrapped fun y hy => ?_)
      obtain ⟨hhas, hold⟩ := hrest y hy
      exact ⟨hsettle.steps.grows.has hhas, fun hlt => hsettle.steps.settled hhas (hold hlt)⟩
    · exact ih hc hrest

/-- The first pending candidate of a pool is patched upwards, and no other one. -/
theorem passOnWith_first
    (connect : Connector)
    {changed : List ItemId}
    {f : Chart → CandidateId → Chart}
    (pool : List CandidateId)
    (hc : Unwrapped m c)
    (hpool : ∀ x ∈ pool, c.Has x ∧ (x.index < m → (c.candidate x).pending = false))
    (hf : ∀ n ∈ pool, Stays m changed (c.settle n) (f (c.settle n) n)) :
    (∀ x ∈ pool, (c.candidate x).pending = false) ∧ passOnWith connect (some f) c pool = c ∨
      ∃ front n back, pool = front ++ n :: back ∧
        (∀ x ∈ front, (c.candidate x).pending = false) ∧ (c.candidate n).pending = true ∧
        Stays m [] (f (c.settle n) n) (passOnWith connect (some f) c pool) := by
  induction pool with
  | nil => exact .inl ⟨fun x hx => (by cases hx), rfl⟩
  | cons x rest ih =>
    obtain ⟨hx, hsettled⟩ := hpool x List.mem_cons_self
    have hrest : ∀ y ∈ rest, c.Has y ∧ (y.index < m → (c.candidate y).pending = false) :=
      fun y hy => hpool y (List.mem_cons_of_mem x hy)
    unfold passOnWith
    split
    · rename_i hpending
      have hpatch := (Stays.settle hc x).trans (hf x List.mem_cons_self)
      rw [hc.free hsettled hpending]
      refine .inr ⟨[], x, rest, rfl, fun y hy => (by cases hy), hpending, ?_⟩
      refine passOnWith_stays rest hpatch.unwrapped fun y hy => ?_
      obtain ⟨hhas, hold⟩ := hrest y hy
      exact ⟨hpatch.steps.grows.has hhas, fun hlt => hpatch.steps.settled hhas (hold hlt)⟩
    · rename_i hidle
      have hfirst : ∀ front, (∀ y ∈ front, (c.candidate y).pending = false) →
          ∀ y ∈ x :: front, (c.candidate y).pending = false := by
        intro front hfront y hy
        rcases List.mem_cons.1 hy with rfl | hmem
        · exact eq_false_of_ne_true hidle
        · exact hfront y hmem
      rcases ih hrest fun n hn => hf n (List.mem_cons_of_mem x hn) with
        ⟨hall, heq⟩ | ⟨front, n, back, rfl, hfront, hn, hstays⟩
      · exact .inl ⟨hfirst rest hall, heq⟩
      · exact .inr ⟨x :: front, n, back, rfl, hfirst front hfront, hn, hstays⟩

/-- Refits the pool above with a newer candidate, and climbs on from there if it changed. -/
def patchWith
    (connect : Connector)
    (higher : List (ItemId × Relation))
    (above : ItemId)
    (r : Relation)
    (u : ItemId)
    (c : Chart)
    (newer : CandidateId) : Chart :=
  match c.refit above r u newer with
  | (true, c) => climbWith connect higher c above
  | (false, c) => c

theorem climbWith_cons
    (connect : Connector)
    (above : ItemId)
    (r : Relation)
    (higher : List (ItemId × Relation))
    (c : Chart)
    (u : ItemId) :
    climbWith connect ((above, r) :: higher) c u =
      passOnWith connect (some (patchWith connect higher above r u)) c (c.item u).pool := rfl

/-- What is above a pool is patched by a refit, and by a climb that leaves that refit as it is. -/
theorem patchWith_stays
    {higher : List (ItemId × Relation)}
    (hclimb : ∀ c, Unwrapped m c → Sound False c → c.Rises above higher →
      Stays m (higher.map Prod.fst) c (climbWith connect higher c above))
    (hc : Unwrapped m c)
    (hsound : Sound False c)
    (hrises : c.Rises u ((above, r) :: higher))
    (hnewer : newer ∈ (c.item u).pool) :
    Stays m [above] c (c.refit above r u newer).2 ∧
      Stays m (higher.map Prod.fst) (c.refit above r u newer).2
        (patchWith connect higher above r u c newer) := by
  obtain ⟨hhas, hroot⟩ := hsound.closed.pool u newer hnewer
  have hrefit := refit_stays (r := r) hc hsound hhas hroot hrises.1
  have hsound₁ := hrefit.steps.sound hsound
  have hrises₁ := hrises.2.extend hrefit.steps
  refine ⟨hrefit, ?_⟩
  unfold patchWith
  generalize c.refit above r u newer = result at hrefit hsound₁ hrises₁ ⊢
  obtain ⟨changed, c₁⟩ := result
  cases changed with
  | false => exact .refl hrefit.unwrapped
  | true => exact hclimb c₁ hrefit.unwrapped hsound₁ hrises₁

/-- A climb changes the pools of the tower, and no others. -/
theorem climbWith_stays
    (connect : Connector)
    (higher : List (ItemId × Relation))
    (hc : Unwrapped m c)
    (hsound : Sound False c)
    (hrises : c.Rises u higher) :
    Stays m (higher.map Prod.fst) c (climbWith connect higher c u) := by
  induction higher generalizing c u with
  | nil =>
    exact passOnWith_stays _ hc fun x hx => ⟨hsound.closed.has_of_mem hx, hc.settled u x hx⟩
  | cons e higher ih =>
    obtain ⟨above, r⟩ := e
    have hpatch : ∀ n ∈ (c.item u).pool, Stays m (above :: higher.map Prod.fst) (c.settle n)
        (patchWith connect higher above r u (c.settle n) n) := by
      intro n hn
      have hsettle : Stays m [] c (c.settle n) := .settle hc n
      have hn' : n ∈ ((c.settle n).item u).pool := hn
      obtain ⟨hrefit, hhigher⟩ := patchWith_stays (fun _ => ih) hsettle.unwrapped
        (hsettle.steps.sound hsound) (hrises.extend hsettle.steps) hn'
      exact hrefit.cons hhigher
    rw [climbWith_cons]
    rcases passOnWith_first connect (c.item u).pool hc
      (fun x hx => ⟨hsound.closed.has_of_mem hx, hc.settled u x hx⟩) hpatch with
      ⟨-, heq⟩ | ⟨front, n, back, heq, -, -, hstays⟩
    · rw [heq]
      exact .refl hc
    · have hn : n ∈ (c.item u).pool := by
        rw [heq]
        exact List.mem_append_right _ List.mem_cons_self
      exact ((Stays.settle hc n).trans (hpatch n hn)).trans (hstays.mono (List.nil_subset _))

/-- The pool above is left alone, or refitted with the first pending candidate below. -/
theorem climbWith_succeeds
    (connect : Connector)
    {higher : List (ItemId × Relation)}
    (hc : Unwrapped m c)
    (hsound : Sound False c)
    (hrises : c.Rises u ((above, r) :: higher))
    (habove : above ∉ higher.map Prod.fst)
    (hlength : (c.item u).pool.length ≤ c.settings.beamWidth) :
    ((climbWith connect ((above, r) :: higher) c u).item above).pool = (c.item above).pool ∨
      ∃ front n back, (c.item u).pool = front ++ n :: back ∧
        (∀ x ∈ front, (c.candidate x).pending = false) ∧ (c.candidate n).pending = true ∧
        ∀ x ∈ (c.item above).pool,
          ∃ y ∈ ((climbWith connect ((above, r) :: higher) c u).item above).pool,
            Succeeds c (climbWith connect ((above, r) :: higher) c u) r u (c.weightOf n) x y := by
  have hpatch : ∀ n ∈ (c.item u).pool,
      Stays m [above] (c.settle n) ((c.settle n).refit above r u n).2 ∧
        Stays m (higher.map Prod.fst) ((c.settle n).refit above r u n).2
          (patchWith connect higher above r u (c.settle n) n) := by
    intro n hn
    have hsettle : Stays m [] c (c.settle n) := .settle hc n
    exact patchWith_stays (fun _ hc hsound => climbWith_stays connect higher hc hsound)
      hsettle.unwrapped (hsettle.steps.sound hsound) (hrises.extend hsettle.steps) hn
  have hboth : ∀ n ∈ (c.item u).pool, Stays m (above :: higher.map Prod.fst) (c.settle n)
      (patchWith connect higher above r u (c.settle n) n) :=
    fun n hn => (hpatch n hn).1.cons (hpatch n hn).2
  rw [climbWith_cons]
  rcases passOnWith_first connect (c.item u).pool hc
    (fun x hx => ⟨hsound.closed.has_of_mem hx, hc.settled u x hx⟩) hboth with
    ⟨-, heq⟩ | ⟨front, n, back, heq, hfront, hn, hstays⟩
  · exact .inl (by rw [heq])
  · have hmem : n ∈ (c.item u).pool := by
      rw [heq]
      exact List.mem_append_right _ List.mem_cons_self
    have hwidth : 1 ≤ c.settings.beamWidth := Nat.le_trans (List.length_pos_of_mem hmem) hlength
    obtain ⟨hrefit, hlater⟩ := hpatch n hmem
    have hsettle : Stays m [] c (c.settle n) := .settle hc n
    have hsettled := hsettle.steps.sound hsound
    have hn' : (c.settle n).Has n := hsettle.steps.grows.has (hsound.closed.has_of_mem hmem)
    refine .inr ⟨front, n, back, heq, hfront, hn, fun x hx => ?_⟩
    have hx' : x ∈ ((c.settle n).item above).pool := hx
    obtain ⟨y, hy, hsucceeds⟩ := refit_succeeds (u := u) (r := r) hsettled.closed hwidth hn'
      hrefit.steps.grows hx'
    have hrest := hlater.trans (hstays.mono (List.nil_subset _))
    have hyhas := (hrefit.steps.sound hsettled).closed.has_of_mem hy
    refine ⟨y, ?_, ?_⟩
    · rw [hrest.pool above habove]
      exact hy
    · rw [← hsettle.steps.grows.weightOf (hsound.closed.has_of_mem hmem)]
      refine (hsucceeds.of_extends hsettle.steps.grows hsound.closed
        (hsound.closed.has_of_mem hx)).trans_le ?_
      rw [hrest.steps.grows.weightOf hyhas]
      exact Weight.le_refl _

end Climbing

end Chart

end BeamChart
