import BeamChart.Proofs.Chart.Balance
import BeamChart.Proofs.Chart.Undoing
import BeamChart.Proofs.Coverage.Map
import BeamChart.Proofs.Pool.Ranking

/-!
# Children that come in any order

Several children are taken one after another, each by what the last one has led to
(`attachAll`). Whether all of them are taken does not depend on their order: the slots
must be free in the parent, and no position may be owned twice (`Compatible`).

Nor does the result, as long as no child is a peer in sequence. Its slots are those of
the parent and the new ones, its runs are those of the parent and the children, and its
weight is the sum of theirs with the bonuses (`Gathered`). Neither of these tells which
child came first: the runs of a map are in the order of the input, and of terms that are
not negative a sum is clamped at the end or not at all.
-/

namespace BeamChart

namespace Chart

variable {g : Grammar} {s : Settings} {c c' : Chart} {p d x y : CandidateId}

/-- Attaches children one after another, each to what has been made of the parent so far. -/
def attachAll
    (c : Chart)
    (p : CandidateId) :
    List (CandidateId × Rule SymbolId) → Attachment × Chart
  | [] => (.attached p, c)
  | (d, rule) :: rest =>
    match c.attach p d rule with
    | (.attached x, c) => c.attachAll x rest
    | refused => refused

section Run

variable {rule : Rule SymbolId} {rest : List (CandidateId × Rule SymbolId)}

@[simp] theorem attachAll_nil (c : Chart) (p : CandidateId) :
    c.attachAll p [] = (.attached p, c) := rfl

theorem attachAll_cons_of_attached
    (h : (c.attach p d rule).1 = .attached x) :
    c.attachAll p ((d, rule) :: rest) = (c.attach p d rule).2.attachAll x rest := by
  rw [attachAll]
  generalize c.attach p d rule = result at h
  obtain ⟨outcome, c₁⟩ := result
  obtain rfl : outcome = .attached x := h
  rfl

/-- Where a child is refused, those after it are not tried. -/
theorem attachAll_cons_of_refused
    (h : ∀ x, (c.attach p d rule).1 ≠ .attached x) :
    c.attachAll p ((d, rule) :: rest) = c.attach p d rule := by
  rw [attachAll]
  generalize c.attach p d rule = result at h
  obtain ⟨outcome, c₁⟩ := result
  cases outcome with
  | attached x => exact absurd rfl (h x)
  | slotTaken => rfl
  | conflict => rfl
  | exhausted => rfl

end Run

section Step

theorem size_candidates_wrap_le (c : Chart) (x : CandidateId) :
    (c.wrap x).candidates.size ≤ c.candidates.size + 1 := by
  cases enclosure c x with
  | refused _ heq | spanless _ _ heq | exhausted _ _ _ heq =>
    rw [heq]
    exact Nat.le_succ _
  | enclosed _ _ _ _ heq =>
    rw [heq]
    simp only [size_candidates_modifyCandidate]
    exact Nat.le_of_eq (size_candidates_pushCandidate c.pushAggregate _)

theorem size_candidates_tryAttach_le
    (c : Chart)
    (p d : CandidateId)
    (r : Relation)
    (make : Candidate → Candidate → Candidate) :
    (c.tryAttach p d r make).2.candidates.size ≤ c.candidates.size + 1 := by
  cases trial c p d r make with
  | slotTaken _ heq | conflict _ _ heq | exhausted _ _ _ heq =>
    rw [heq]
    exact Nat.le_succ _
  | attached _ _ _ heq =>
    rw [heq]
    exact Nat.le_of_eq (size_candidates_pushCandidate c _)

/-- An attempt stores the parent with the child, and perhaps an aggregate of that. -/
theorem size_candidates_attach_le
    (c : Chart)
    (p d : CandidateId)
    (rule : Rule SymbolId) :
    (c.attach p d rule).2.candidates.size ≤ c.candidates.size + 2 := by
  have htry := size_candidates_tryAttach_le c p d rule.relation (c.joined d rule.relation)
  rcases attach_cases c p d rule with heq | ⟨-, c₁, hattached, heq⟩ <;> rw [heq]
  · exact Nat.le_succ_of_le htry
  · rw [hattached] at htry
    exact Nat.le_trans (size_candidates_wrap_le c₁ _) (Nat.succ_le_succ htry)

/-- Unless the arena is full, only a taken slot and a common position stand in the way. -/
theorem attached_iff
    (hrun : Operated g s c)
    (hp : c.Has p)
    (hd : c.Has d)
    (rule : Rule SymbolId)
    (hroom : c.candidates.size < s.candidateCapacity) :
    (∃ x, (c.attach p d rule).1 = .attached x) ↔
      (c.candidate p).slot rule.relation = none ∧ ¬ c.Share p d := by
  have hkept := hrun.kept_anchored
  have hshare : c.Share p d ↔
      (c.candidate p).coverage.intersects (c.candidate d).coverage = true :=
    (Coverage.intersects_iff (hkept.holds p hp).1.wellFormed (hkept.holds d hd).1.wellFormed).symm
  cases attempt hkept.sound hp hd rule with
  | slotTaken hslot houtcome =>
    simp [houtcome, Option.isSome_iff_ne_none.1 hslot]
  | conflict _ hmeet houtcome => simp [houtcome, hshare, hmeet]
  | exhausted _ _ hfull =>
    have hle : c.settings.candidateCapacity ≤ c.candidates.size := decide_eq_true_iff.1 hfull
    rw [hkept.settings] at hle
    omega
  | attached hslot happart _ houtcome => simp [houtcome, hslot, hshare, happart]

/-- What has been attached is the parent with the child, for the bonus of a structural relation. -/
theorem attached_congruent
    (hrun : Operated g s c)
    (hp : c.Has p)
    (hd : c.Has d)
    (rule : Rule SymbolId)
    (h : (c.attach p d rule).1 = .attached x) :
    (c.attach p d rule).2.Has x ∧
      (c.candidate p).coverage.intersects (c.candidate d).coverage = false ∧
      ∃ bonus, (rule.relation ≠ .next → bonus = s.scoring.structural) ∧
        ((c.attach p d rule).2.candidate x).Congruent
          ((c.candidate p).attach rule.relation ⟨d, bonus⟩ (c.candidate d)) := by
  have hkept := hrun.kept_anchored
  obtain ⟨-, happart, hhas, hbody⟩ := free_of_attached hkept.sound hp hd h
  obtain ⟨bonus, readings, marker, heq, hearns⟩ :=
    joined_earns hrun.markers_ordered d rule.relation (c.candidate p) (c.candidate d)
  refine ⟨hhas, happart, bonus, fun hne => ?_, ?_⟩
  · rw [(hearns.structural hne).1, hkept.settings]
  · have hjoined := Candidate.congruent_of_body_eq hbody
    rw [heq] at hjoined
    exact hjoined

end Step

section Compatibility

variable {children rest : List (CandidateId × Rule SymbolId)} {rule : Rule SymbolId}

/-- The children have free slots in the parent, and no position is owned twice. -/
structure Compatible
    (c : Chart)
    (p : CandidateId)
    (children : List (CandidateId × Rule SymbolId)) : Prop where
  free : ∀ e ∈ children, (c.candidate p).slot e.2.relation = none
  apart : (p :: children.map Prod.fst).Pairwise fun x y => ¬ c.Share x y

theorem Share.symm
    (h : c.Share x y) :
    c.Share y x := by
  obtain ⟨position, hx, hy⟩ := h
  exact ⟨position, hy, hx⟩

/-- It does not matter in which order the children are listed. -/
theorem Compatible.perm
    (h : c.Compatible p children)
    (hperm : children.Perm rest) :
    c.Compatible p rest where
  free e he := h.free e (hperm.mem_iff.2 he)
  apart := ((hperm.map Prod.fst).cons p).pairwise h.apart fun hxy hyx => hxy hyx.symm

theorem Extends.share_iff
    (h : Extends c c')
    (hx : c.Has x)
    (hy : c.Has y) :
    c'.Share x y ↔ c.Share x y := by
  unfold Share
  rw [(h.congruent hx).2.2.2.2, (h.congruent hy).2.2.2.2]

/-- What does not depend on later charts. -/
theorem Extends.compatible_iff
    (h : Extends c c')
    (hp : c.Has p)
    (hchildren : ∀ e ∈ children, c.Has e.1) :
    c'.Compatible p children ↔ c.Compatible p children := by
  have hall : ∀ x ∈ p :: children.map Prod.fst, c.Has x := by
    intro x hx
    rcases List.mem_cons.1 hx with rfl | hx
    · exact hp
    · obtain ⟨e, he, rfl⟩ := List.mem_map.1 hx
      exact hchildren e he
  have hshare : ((p :: children.map Prod.fst).Pairwise fun x y => ¬ c'.Share x y) ↔
      (p :: children.map Prod.fst).Pairwise fun x y => ¬ c.Share x y :=
    List.Pairwise.iff_of_mem fun hx hy => not_congr (h.share_iff (hall _ hx) (hall _ hy))
  constructor
  · intro hc
    exact ⟨fun e he => (h.slot hp _).symm.trans (hc.free e he), hshare.1 hc.apart⟩
  · intro hc
    exact ⟨fun e he => (h.slot hp _).trans (hc.free e he), hshare.2 hc.apart⟩

/-- Taking the first child leaves what the others need. -/
theorem compatible_cons_iff
    (hext : Extends c c')
    (hrest : ∀ e ∈ rest, c.Has e.1)
    (hother : ∀ e ∈ rest, e.2.relation ≠ rule.relation)
    {bonus : Weight}
    (hx : (c'.candidate x).Congruent
      ((c.candidate p).attach rule.relation ⟨d, bonus⟩ (c.candidate d))) :
    c.Compatible p ((d, rule) :: rest) ↔
      ((c.candidate p).slot rule.relation = none ∧ ¬ c.Share p d) ∧ c'.Compatible x rest := by
  obtain ⟨-, -, -, hslots, hcoverage⟩ := hx
  have hslot : ∀ e ∈ rest, (c'.candidate x).slot e.2.relation =
      (c.candidate p).slot e.2.relation := by
    intro e he
    rw [Candidate.slot, hslots]
    exact Slots.get_set_of_ne _ _ (hother e he)
  have howns : ∀ position, (c'.candidate x).coverage.Owns position ↔
      (c.candidate p).coverage.Owns position ∨ (c.candidate d).coverage.Owns position := by
    intro position
    rw [hcoverage]
    exact Coverage.owns_union _ _ position
  have hshare : ∀ y ∈ rest.map Prod.fst, c'.Share x y ↔ c.Share p y ∨ c.Share d y := by
    intro y hy
    obtain ⟨e, he, rfl⟩ := List.mem_map.1 hy
    unfold Share
    rw [(hext.congruent (hrest e he)).2.2.2.2]
    simp only [howns, or_and_right, exists_or]
  have hsame : (rest.map Prod.fst).Pairwise (fun x y => ¬ c'.Share x y) ↔
      (rest.map Prod.fst).Pairwise fun x y => ¬ c.Share x y := by
    refine List.Pairwise.iff_of_mem fun {a b} ha hb => ?_
    obtain ⟨e, he, rfl⟩ := List.mem_map.1 ha
    obtain ⟨e', he', rfl⟩ := List.mem_map.1 hb
    exact not_congr (hext.share_iff (hrest e he) (hrest e' he'))
  constructor
  · rintro ⟨hfree, hapart⟩
    simp only [List.map_cons, List.pairwise_cons, List.mem_cons, forall_eq_or_imp] at hfree hapart
    refine ⟨⟨hfree.1, hapart.1.1⟩, fun e he => (hslot e he).trans (hfree.2 e he),
      List.pairwise_cons.2 ⟨fun y hy => ?_, hsame.2 hapart.2.2⟩⟩
    rw [hshare y hy]
    exact not_or.2 ⟨hapart.1.2 y hy, hapart.2.1 y hy⟩
  · rintro ⟨⟨hfree, hapart⟩, hrestFree, hrestApart⟩
    obtain ⟨hhead, htail⟩ := List.pairwise_cons.1 hrestApart
    have hboth : ∀ y ∈ rest.map Prod.fst, ¬ c.Share p y ∧ ¬ c.Share d y := fun y hy =>
      not_or.1 fun hor => hhead y hy ((hshare y hy).2 hor)
    constructor
    · intro e he
      rcases List.mem_cons.1 he with rfl | he
      · exact hfree
      · exact (hslot e he).symm.trans (hrestFree e he)
    · simp only [List.map_cons, List.pairwise_cons, List.mem_cons, forall_eq_or_imp]
      exact ⟨⟨hapart, fun y hy => (hboth y hy).1⟩, fun y hy => (hboth y hy).2, hsame.1 htail⟩

end Compatibility

section Attaching

variable {children : List (CandidateId × Rule SymbolId)}

/-- Children that come one after another are all taken if and only if they are compatible. -/
theorem attachAll_attached_iff
    (hrun : Operated g s c)
    (hp : c.Has p)
    (hchildren : ∀ e ∈ children, c.Has e.1)
    (hnodup : (children.map fun e => e.2.relation).Nodup)
    (hroom : c.candidates.size + 2 * children.length ≤ s.candidateCapacity + 1) :
    (∃ x, (c.attachAll p children).1 = .attached x) ↔ c.Compatible p children := by
  induction children generalizing c p with
  | nil =>
    exact ⟨fun _ => ⟨fun e he => absurd he List.not_mem_nil, List.pairwise_singleton _ _⟩,
      fun _ => ⟨p, rfl⟩⟩
  | cons e rest ih =>
    obtain ⟨d, rule⟩ := e
    have hd : c.Has d := hchildren _ List.mem_cons_self
    have hrest : ∀ e ∈ rest, c.Has e.1 := fun e he => hchildren e (List.mem_cons_of_mem _ he)
    rw [List.map_cons, List.nodup_cons] at hnodup
    rw [List.length_cons] at hroom
    have hattached := attached_iff hrun hp hd rule (by omega)
    by_cases htaken : ∃ x, (c.attach p d rule).1 = .attached x
    · obtain ⟨x, hx⟩ := htaken
      have hext := extends_attach hrun.kept_anchored.sound hp hd rule
      obtain ⟨hhas, -, bonus, -, hcongruent⟩ := attached_congruent hrun hp hd rule hx
      have hother : ∀ e ∈ rest, e.2.relation ≠ rule.relation := fun e he heq =>
        hnodup.1 (List.mem_map.2 ⟨e, he, heq⟩)
      have hsize := size_candidates_attach_le c p d rule
      have hrun' : Operated g s (c.attach p d rule).2 :=
        .operation hrun (.attach p d rule) ⟨hp, hd⟩
      rw [attachAll_cons_of_attached hx, compatible_cons_iff hext hrest hother hcongruent,
        ih hrun' hhas (fun e he => hext.has (hrest e he)) hnodup.2 (by omega)]
      exact (and_iff_right (hattached.1 ⟨x, hx⟩)).symm
    · rw [attachAll_cons_of_refused fun x hx => htaken ⟨x, hx⟩]
      refine ⟨fun h => absurd h htaken, fun hc => absurd (hattached.2 ⟨?_, ?_⟩) htaken⟩
      · exact hc.free _ List.mem_cons_self
      · exact (List.pairwise_cons.1 hc.apart).1 d List.mem_cons_self

end Attaching

section Gathering

variable {x y z : Candidate} {taken more : List (Relation × Slot)}

/-- A candidate is the parent with children in some slots, in whatever order they came. -/
structure Gathered
    (c : Chart)
    (p : Candidate)
    (taken : List (Relation × Slot))
    (x : Candidate) : Prop where
  root : x.root = p.root
  ownWeight : x.ownWeight = p.ownWeight
  filled : ∀ e ∈ taken, x.slot e.1 = some e.2
  kept : ∀ r, (∀ e ∈ taken, e.1 ≠ r) → x.slot r = p.slot r
  wellFormed : x.coverage.WellFormed
  runs : x.coverage.runs.Perm
    (p.coverage.runs ++ taken.flatMap fun e => (c.candidate e.2.child).coverage.runs)
  weight : x.weight = taken.foldl (fun n e => n + c.weightOf e.2.child + e.2.bonus) p.weight

/-- Without children it is the parent. -/
theorem Gathered.nil
    {p : Candidate}
    (hp : p.coverage.WellFormed)
    (h : x.Congruent p) :
    c.Gathered p [] x := by
  obtain ⟨hroot, hweight, hown, hslots, hcoverage⟩ := h
  refine ⟨hroot, hown, fun e he => absurd he List.not_mem_nil, fun r _ => ?_, hcoverage ▸ hp, ?_,
    hweight⟩
  · rw [Candidate.slot, hslots]
    rfl
  · rw [hcoverage, List.flatMap_nil, List.append_nil]

/-- One more child is taken. -/
theorem Gathered.snoc
    {p : Candidate}
    {r : Relation}
    {t : Slot}
    (h : c.Gathered p taken x)
    (hnew : ∀ e ∈ taken, e.1 ≠ r)
    (hz : z.Congruent (c.candidate t.child))
    (hwellFormed : z.coverage.WellFormed)
    (happart : x.coverage.intersects z.coverage = false)
    (hy : y.Congruent (x.attach r t z)) :
    c.Gathered p (taken ++ [(r, t)]) y := by
  obtain ⟨hroot, hweight, hown, hslots, hcoverage⟩ := hy
  obtain ⟨-, hchild, -, -, hchildCoverage⟩ := hz
  have hslot : ∀ q, q ≠ r → y.slot q = x.slot q := fun q hq => by
    rw [Candidate.slot, hslots]
    exact Slots.get_set_of_ne _ _ hq
  constructor
  · exact hroot.trans h.root
  · exact hown.trans h.ownWeight
  · intro e he
    rcases List.mem_append.1 he with he | he
    · rw [hslot _ (hnew e he)]
      exact h.filled e he
    · obtain rfl := List.mem_singleton.1 he
      rw [Candidate.slot, hslots]
      exact Slots.get_set_self _ _ _
  · intro q hq
    have hqr : q ≠ r := fun heq => hq (r, t) (by simp) heq.symm
    rw [hslot q hqr]
    exact h.kept q fun e he => hq e (List.mem_append_left _ he)
  · rw [hcoverage]
    exact Coverage.wellFormed_union h.wellFormed hwellFormed happart
  · have hunion : y.coverage.runs.Perm (x.coverage.runs ++ z.coverage.runs) := by
      rw [hcoverage]
      exact Coverage.runs_union_perm _ _
    rw [List.flatMap_append, ← List.append_assoc, List.flatMap_singleton, ← hchildCoverage]
    exact hunion.trans (h.runs.append_right _)
  · rw [List.foldl_append, ← h.weight, hweight]
    simp only [Candidate.attach, List.foldl_cons, List.foldl_nil, hchild, weightOf]

/-- Candidates of the same children are congruent, whichever child came first. -/
theorem Gathered.congruent_of_perm
    {p : Candidate}
    (hx : c.Gathered p taken x)
    (hy : c.Gathered p more y)
    (hperm : taken.Perm more)
    (hp : 0 ≤ p.weight.toInt)
    (hterms : ∀ e ∈ taken, 0 ≤ (c.weightOf e.2.child).toInt ∧ 0 ≤ e.2.bonus.toInt) :
    x.Congruent y := by
  refine ⟨hx.root.trans hy.root.symm, ?_, hx.ownWeight.trans hy.ownWeight.symm,
    Slots.ext_get fun r => ?_, ?_⟩
  · apply Weight.ext
    rw [hx.weight, hy.weight, Candidate.Balanced.foldl_add_eq_clamp _ _ _ hp hterms,
      Candidate.Balanced.foldl_add_eq_clamp _ _ _ hp fun e he => hterms e (hperm.mem_iff.2 he)]
    rw [(hperm.map _).sum_eq]
  · by_cases hr : ∃ e ∈ taken, e.1 = r
    · obtain ⟨e, he, rfl⟩ := hr
      exact (hx.filled e he).trans (hy.filled e (hperm.mem_iff.1 he)).symm
    · have hnone : ∀ e ∈ taken, e.1 ≠ r := fun e he heq => hr ⟨e, he, heq⟩
      exact (hx.kept r hnone).trans (hy.kept r fun e he => hnone e (hperm.mem_iff.2 he)).symm
  · exact hx.wellFormed.eq_of_perm hy.wellFormed
      (hx.runs.trans (((hperm.flatMap_right _).append_left _).trans hy.runs.symm))

end Gathering

section Attaching

variable {children : List (CandidateId × Rule SymbolId)} {taken : List (Relation × Slot)}

/-- What children bring that come under structural rules. -/
def slotsOf
    (bonus : Weight)
    (children : List (CandidateId × Rule SymbolId)) : List (Relation × Slot) :=
  children.map fun e => (e.2.relation, ⟨e.1, bonus⟩)

/-- A run of attempts is a run of operations. -/
theorem attachAll_operated
    (hrun : Operated g s c)
    (hp : c.Has p)
    (hchildren : ∀ e ∈ children, c.Has e.1) :
    Operated g s (c.attachAll p children).2 ∧ Extends c (c.attachAll p children).2 := by
  induction children generalizing c p with
  | nil => exact ⟨hrun, .refl c⟩
  | cons e rest ih =>
    obtain ⟨d, rule⟩ := e
    have hd : c.Has d := hchildren _ List.mem_cons_self
    have hrun' : Operated g s (c.attach p d rule).2 :=
      .operation hrun (.attach p d rule) ⟨hp, hd⟩
    have hext := extends_attach hrun.kept_anchored.sound hp hd rule
    by_cases htaken : ∃ x, (c.attach p d rule).1 = .attached x
    · obtain ⟨x, hx⟩ := htaken
      rw [attachAll_cons_of_attached hx]
      obtain ⟨hlast, hgrows⟩ := ih hrun' (attached_congruent hrun hp hd rule hx).1 fun e he =>
        hext.has (hchildren e (List.mem_cons_of_mem _ he))
      exact ⟨hlast, hext.trans hgrows⟩
    · rw [attachAll_cons_of_refused fun x hx => htaken ⟨x, hx⟩]
      exact ⟨hrun', hext⟩

/-- What a run of attempts has made is gathered from the parent and all of the children. -/
theorem attachAll_gathered
    {base : Chart}
    {parent : Candidate}
    (hrun : Operated g s c)
    (hext : Extends base c)
    (hp : c.Has p)
    (hchildren : ∀ e ∈ children, base.Has e.1 ∧ e.2.relation ≠ .next)
    (hnodup : (taken.map Prod.fst ++ children.map fun e => e.2.relation).Nodup)
    (hgathered : base.Gathered parent taken (c.candidate p))
    (h : (c.attachAll p children).1 = .attached x) :
    (c.attachAll p children).2.Has x ∧
      base.Gathered parent (taken ++ slotsOf s.scoring.structural children)
        ((c.attachAll p children).2.candidate x) := by
  induction children generalizing c p taken with
  | nil =>
    rw [attachAll_nil] at h ⊢
    obtain rfl := Attachment.attached.inj h
    rw [slotsOf, List.map_nil, List.append_nil]
    exact ⟨hp, hgathered⟩
  | cons e rest ih =>
    obtain ⟨d, rule⟩ := e
    obtain ⟨hd, hstructural⟩ := hchildren _ List.mem_cons_self
    by_cases htaken : ∃ y, (c.attach p d rule).1 = .attached y
    · obtain ⟨y, hy⟩ := htaken
      rw [attachAll_cons_of_attached hy] at h ⊢
      obtain ⟨hhas, happart, bonus, hbonus, hcongruent⟩ :=
        attached_congruent hrun hp (hext.has hd) rule hy
      obtain rfl := hbonus hstructural
      have hgrows := extends_attach hrun.kept_anchored.sound hp (hext.has hd) rule
      have hnew : ∀ e ∈ taken, e.1 ≠ rule.relation := fun e he heq =>
        (List.nodup_append.1 hnodup).2.2 e.1 (List.mem_map_of_mem he) rule.relation
          List.mem_cons_self heq
      have hnext : base.Gathered parent
          (taken ++ [(rule.relation, ⟨d, s.scoring.structural⟩)])
          ((c.attach p d rule).2.candidate y) :=
        hgathered.snoc hnew (hext.congruent hd)
          (hrun.kept_anchored.holds d (hext.has hd)).1.wellFormed happart hcongruent
      have hrun' : Operated g s (c.attach p d rule).2 :=
        .operation hrun (.attach p d rule) ⟨hp, hext.has hd⟩
      have hall := ih hrun' (hext.trans hgrows) hhas
        (fun e he => hchildren e (List.mem_cons_of_mem _ he)) (by simpa using hnodup) hnext h
      simpa [slotsOf] using hall
    · rw [attachAll_cons_of_refused fun x hx => htaken ⟨x, hx⟩] at h
      exact absurd ⟨x, h⟩ htaken

/--
Children are all taken in one order if and only if they are all taken in another one, also if
that comes later; and then both orders lead to congruent candidates.
-/
theorem attachAll_perm
    {others : List (CandidateId × Rule SymbolId)}
    (hscoring : s.scoring.Rewarding)
    (hrun : Operated g s c)
    (hrun' : Operated g s c')
    (hlater : Extends c c')
    (hp : c.Has p)
    (hchildren : ∀ e ∈ children, c.Has e.1 ∧ e.2.relation ≠ .next)
    (hnodup : (children.map fun e => e.2.relation).Nodup)
    (hperm : children.Perm others)
    (hroom : c.candidates.size + 2 * children.length ≤ s.candidateCapacity + 1)
    (hroom' : c'.candidates.size + 2 * children.length ≤ s.candidateCapacity + 1)
    (hweight : 0 ≤ (c.weightOf p).toInt)
    (hweights : ∀ e ∈ children, 0 ≤ (c.weightOf e.1).toInt) :
    ((∃ x, (c.attachAll p children).1 = .attached x) ↔ c.Compatible p children) ∧
      ((∃ y, (c'.attachAll p others).1 = .attached y) ↔ c.Compatible p children) ∧
      ∀ x y, (c.attachAll p children).1 = .attached x →
        (c'.attachAll p others).1 = .attached y →
        ((c.attachAll p children).2.candidate x).Congruent
          ((c'.attachAll p others).2.candidate y) := by
  have hall : ∀ e ∈ others, c.Has e.1 ∧ e.2.relation ≠ .next := fun e he =>
    hchildren e (hperm.mem_iff.2 he)
  have hnodup' : (others.map fun e => e.2.relation).Nodup := (hperm.map _).nodup_iff.1 hnodup
  have hwellFormed := (hrun.kept_anchored.holds p hp).1.wellFormed
  refine ⟨attachAll_attached_iff hrun hp (fun e he => (hchildren e he).1) hnodup hroom, ?_, ?_⟩
  · rw [attachAll_attached_iff hrun' (hlater.has hp) (fun e he => hlater.has (hall e he).1) hnodup'
      (hperm.length_eq ▸ hroom'), hlater.compatible_iff hp fun e he => (hall e he).1]
    exact ⟨fun h => h.perm hperm.symm, fun h => h.perm hperm⟩
  · intro x y hx hy
    obtain ⟨-, hfirst⟩ := attachAll_gathered hrun (.refl c) hp hchildren (by simpa using hnodup)
      (.nil hwellFormed (.refl _)) hx
    obtain ⟨-, hsecond⟩ := attachAll_gathered hrun' hlater (hlater.has hp) hall
      (by simpa using hnodup') (.nil hwellFormed (hlater.congruent hp)) hy
    refine hfirst.congruent_of_perm hsecond (hperm.map _) hweight fun e he => ?_
    obtain ⟨d, hd, rfl⟩ := List.mem_map.1 he
    exact ⟨hweights d hd, hscoring.structural⟩

end Attaching

/--
Two children under different structural rules: the first one and then the second one are
taken if and only if they are in the opposite order, now or later, that is if both slots are
free and no position is owned by two of the three. Then what has been made is the same, so
where the one is kept in a pool the other one is a duplicate.
-/
theorem attachAll_pair_comm
    {a b : CandidateId}
    {first second : Rule SymbolId}
    (hscoring : s.scoring.Rewarding)
    (hrun : Operated g s c)
    (hrun' : Operated g s c')
    (hlater : Extends c c')
    (hp : c.Has p)
    (ha : c.Has a)
    (hb : c.Has b)
    (hfirst : first.relation ≠ .next)
    (hsecond : second.relation ≠ .next)
    (hne : first.relation ≠ second.relation)
    (hroom : c.candidates.size + 3 ≤ s.candidateCapacity)
    (hroom' : c'.candidates.size + 3 ≤ s.candidateCapacity)
    (hweight : 0 ≤ (c.weightOf p).toInt)
    (haWeight : 0 ≤ (c.weightOf a).toInt)
    (hbWeight : 0 ≤ (c.weightOf b).toInt) :
    ((∃ x, (c.attachAll p [(a, first), (b, second)]).1 = .attached x) ↔
        ((c.candidate p).slot first.relation = none ∧
            (c.candidate p).slot second.relation = none) ∧
          ¬ c.Share p a ∧ ¬ c.Share p b ∧ ¬ c.Share a b) ∧
      ((∃ y, (c'.attachAll p [(b, second), (a, first)]).1 = .attached y) ↔
        ((c.candidate p).slot first.relation = none ∧
            (c.candidate p).slot second.relation = none) ∧
          ¬ c.Share p a ∧ ¬ c.Share p b ∧ ¬ c.Share a b) ∧
      ∀ x y, (c.attachAll p [(a, first), (b, second)]).1 = .attached x →
        (c'.attachAll p [(b, second), (a, first)]).1 = .attached y →
        ((c.attachAll p [(a, first), (b, second)]).2.candidate x).Congruent
            ((c'.attachAll p [(b, second), (a, first)]).2.candidate y) ∧
          (Extends (c.attachAll p [(a, first), (b, second)]).2 c' → ∀ width pool, x ∈ pool →
            Pool.insert (c'.attachAll p [(b, second), (a, first)]).2.candidate width pool y =
              pool) := by
  have hcompatible : c.Compatible p [(a, first), (b, second)] ↔
      ((c.candidate p).slot first.relation = none ∧ (c.candidate p).slot second.relation = none) ∧
        ¬ c.Share p a ∧ ¬ c.Share p b ∧ ¬ c.Share a b := by
    constructor
    · rintro ⟨hfree, hapart⟩
      simp_all
    · rintro ⟨⟨hfree, hfree'⟩, hpa, hpb, hab⟩
      exact ⟨by simp [hfree, hfree'], by simp [hpa, hpb, hab]⟩
  rw [← hcompatible]
  have hchildren : ∀ e ∈ [(a, first), (b, second)], c.Has e.1 ∧ e.2.relation ≠ .next := by
    simp [ha, hb, hfirst, hsecond]
  have hnodup : ([(a, first), (b, second)].map fun e => e.2.relation).Nodup := by simp [hne]
  obtain ⟨hone, hother, hsame⟩ := attachAll_perm hscoring hrun hrun' hlater hp hchildren hnodup
    (.swap _ _ _) (by simpa using hroom) (by simpa using hroom') hweight
    (by simp [haWeight, hbWeight])
  refine ⟨hone, hother, fun x y hx hy => ⟨hsame x y hx hy, fun hafter width pool hmem => ?_⟩⟩
  -- the first one is still there once the second one has been made
  have hmade : (c.attachAll p [(a, first), (b, second)]).2.Has x :=
    (attachAll_gathered hrun (.refl c) hp hchildren (by simpa using hne)
      (.nil (hrun.kept_anchored.holds p hp).1.wellFormed (.refl _)) hx).1
  have hgrows : Extends c' (c'.attachAll p [(b, second), (a, first)]).2 :=
    (attachAll_operated hrun' (hlater.has hp) (by simp [hlater.has ha, hlater.has hb])).2
  exact Pool.insert_of_congruent hmem
    (((hafter.trans hgrows).congruent hmade).trans (hsame x y hx hy))

section Sample

/-- Three items in a row. -/
def rowChart : Chart :=
  (new itemGrammar {}).operate (made ⟨0⟩ 1 0 ++ made ⟨1⟩ 1 1 ++ made ⟨2⟩ 1 2)

def itemAsProperty : Rule SymbolId :=
  { relation := .property, target := 1 }

/-- What takes an item as its argument is wrapped. -/
def itemAsArgument : Rule SymbolId :=
  { relation := .argument, target := 1, stackable := true }

/-- The first item has taken the two others, and takes them again in the opposite order. -/
theorem attachAll_pair_comm_sample :
    ({} : Settings).scoring.Rewarding ∧ Operated itemGrammar {} rowChart ∧
      (rowChart.attachAll ⟨0⟩ [(⟨1⟩, itemAsProperty), (⟨2⟩, itemAsArgument)]).1 =
        .attached ⟨4⟩ ∧
      ∃ y, ((rowChart.attachAll ⟨0⟩ [(⟨1⟩, itemAsProperty), (⟨2⟩, itemAsArgument)]).2.attachAll
          ⟨0⟩ [(⟨2⟩, itemAsArgument), (⟨1⟩, itemAsProperty)]).1 = .attached y ∧
        Pool.insert ((rowChart.attachAll ⟨0⟩
            [(⟨1⟩, itemAsProperty), (⟨2⟩, itemAsArgument)]).2.attachAll ⟨0⟩
              [(⟨2⟩, itemAsArgument), (⟨1⟩, itemAsProperty)]).2.candidate 8 [⟨4⟩] y = [⟨4⟩] := by
  have hscoring : ({} : Settings).scoring.Rewarding := ⟨by decide, by decide, by decide⟩
  have hrun : Operated itemGrammar {} rowChart := Operated.new.operate (by decide +kernel)
  have hall : ∀ i < 3, rowChart.Has ⟨i⟩ ∧ 0 ≤ (rowChart.weightOf ⟨i⟩).toInt := by decide +kernel
  obtain ⟨hp, hpWeight⟩ := hall 0 (by decide)
  obtain ⟨ha, haWeight⟩ := hall 1 (by decide)
  obtain ⟨hb, hbWeight⟩ := hall 2 (by decide)
  have hfirst : (rowChart.attachAll ⟨0⟩ [(⟨1⟩, itemAsProperty), (⟨2⟩, itemAsArgument)]).1 =
      .attached ⟨4⟩ := by decide +kernel
  have hafter : Operated itemGrammar {}
        (rowChart.attachAll ⟨0⟩ [(⟨1⟩, itemAsProperty), (⟨2⟩, itemAsArgument)]).2 ∧
      Extends rowChart
        (rowChart.attachAll ⟨0⟩ [(⟨1⟩, itemAsProperty), (⟨2⟩, itemAsArgument)]).2 :=
    attachAll_operated hrun hp (by simp [ha, hb])
  obtain ⟨hone, hother, hsame⟩ := attachAll_pair_comm hscoring hrun hafter.1 hafter.2 hp ha hb
    (show itemAsProperty.relation ≠ .next by decide)
    (show itemAsArgument.relation ≠ .next by decide) (by decide) (by decide +kernel)
    (by decide +kernel) hpWeight haWeight hbWeight
  obtain ⟨y, hy⟩ := hother.2 (hone.1 ⟨_, hfirst⟩)
  exact ⟨hscoring, hrun, hfirst, y, hy,
    (hsame _ y hfirst hy).2 (.refl _) 8 _ List.mem_cons_self⟩

end Sample

end Chart

end BeamChart
