import BeamChart.Proofs.Chart.Cover

/-!
# Levels that do not run empty

What a candidate of an upper level covers may all come from the level below it. So the
upper level is left with nothing if the lower one covers nothing, or is given up by
all candidates that hold it, which takes a rule for it. Otherwise every candidate of a
level covers something: it has a run of its own, or it holds the level below
(`Borne`). This carries over to the levels above, as long as none of the
levels on the way may be given up (`Firm`), and then no pool of theirs is emptied.

A beam without width keeps nothing of what an offer has changed. Here nothing is joined
either, so all that the candidates of a level hold is the level below.

**Results.**
* `Footed.covers`: candidates of a firm level cover something.
* `Step.footed`, `Move.footed`: what a level stands on is kept.
* `Driven.firm_pool_ne_nil`: the pool of a firm level is not empty.
-/

namespace BeamChart

namespace Chart

variable {g : Grammar} {s : Settings} {c c' : Chart} {u v w p : ItemId} {r : Relation}

/-- The item is the other one, or a level of the tower below it. -/
def Beneath (c : Chart) : ItemId → ItemId → Prop :=
  Relation.ReflTransGen fun v p => ∃ r, (c.item v).fixedParent = some (p, r)

/-- The item may also take the level below it by a rule, for which it gives that level up. -/
def Concedes (c : Chart) (p : ItemId) : Prop :=
  ∃ v r q, (c.item v).fixedParent = some (p, r) ∧ c.Licensed p v q

/-- From the bottom of the tower up to an item, all levels cover something and stay. -/
structure Firm (c : Chart) (p : ItemId) : Prop where
  present : (c.item p).present = true
  sown : ∀ w, c.Beneath w p → (c.item w).present = true → c.Sown w
  keeps : ∀ w, c.Beneath w p → ¬ c.Concedes w

/-- What a candidate covers at any time: a run of its own, or what is on the level below. -/
inductive Borne (c : Chart) (x : Candidate) : Prop
  | leaf
      {own : List Run}
      (hown : own ≠ [])
      (hparts : x.coverage.runs.Perm (own ++ c.childRuns x.slots)) :
      Borne c x
  | level
      {r : Relation}
      {t : Slot}
      (hslot : x.slot r = some t)
      (hfixed : (c.item (c.candidate t.child).root).fixedParent = some (x.root, r)) :
      Borne c x

/-- Firm levels have candidates, and these stand on something. -/
structure Footed (c : Chart) : Prop where
  pool : ∀ u, c.Firm u → (c.item u).pool ≠ []
  borne : ∀ x, c.Has x → c.Firm (c.candidate x).root → c.Borne (c.candidate x)
  /-- Where beams have no width, nothing but the level below is held. -/
  narrow : c.settings.beamWidth = 0 → c.grammar.kind ≠ .positional →
    ∀ x r t, c.Has x → c.Firm (c.candidate x).root → (c.candidate x).slot r = some t →
      (c.item (c.candidate t.child).root).fixedParent = some ((c.candidate x).root, r)

section Towers

theorem Beneath.extend
    (h : c.Beneath w p)
    (hext : Extends c c') :
    c'.Beneath w p :=
  Relation.ReflTransGen.mono (fun v _ hv => hv.imp fun _ hr => hext.fixedParent v _ hr) _ _ h

theorem Concedes.extend
    (h : c.Concedes p)
    (hext : Extends c c') :
    c'.Concedes p := by
  obtain ⟨v, r, q, hfixed, hlicensed⟩ := h
  exact ⟨v, r, q, hext.fixedParent v _ hfixed, hlicensed.extend hext⟩

/-- What an item that was seen stands for does not change. -/
theorem Sown.of_extends
    (h : c'.Sown w)
    (hext : Extends c c')
    (hw : (c.item w).present = true) :
    c.Sown w := by
  have hplace := hext.place w (Or.inr hw)
  have hextent : (c'.item w).extent = (c.item w).extent :=
    congrArg (fun e => e.2.2.2.1) hplace
  have htoken : (c'.item w).token = (c.item w).token :=
    congrArg (fun e => e.2.2.2.2) hplace
  obtain ⟨id, s, hsymbol, hdefined⟩ := h.defined
  refine ⟨?_, ?_, id, s, ?_, ?_⟩
  · rw [← htoken]
    exact h.token
  · rw [← hextent]
    exact h.extent
  · rw [← hext.symbol_eq hw]
    exact hsymbol
  · rw [← hext.grammar]
    exact hdefined

/-- A tower that is firm has been firm from the start. -/
theorem Firm.of_extends
    (h : c'.Firm p)
    (hext : Extends c c')
    (hp : (c.item p).present = true) :
    c.Firm p where
  present := hp
  sown w hbeneath hw := (h.sown w (hbeneath.extend hext) (hext.present w hw)).of_extends hext hw
  keeps w hbeneath hconcedes := h.keeps w (hbeneath.extend hext) (hconcedes.extend hext)

theorem Firm.below
    (h : c.Firm p)
    (hfixed : (c.item v).fixedParent = some (p, r))
    (hv : (c.item v).present = true) :
    c.Firm v where
  present := hv
  sown w hbeneath := h.sown w (hbeneath.tail ⟨r, hfixed⟩)
  keeps w hbeneath := h.keeps w (hbeneath.tail ⟨r, hfixed⟩)

/-- A firm level is not given up by the one above. -/
theorem Firm.not_licensed
    (h : c.Firm p)
    (hfixed : (c.item v).fixedParent = some (p, r))
    (q : Relation) :
    ¬ c.Licensed p v q := fun hlicensed =>
  h.keeps p .refl ⟨v, r, q, hfixed, hlicensed⟩

end Towers

section Bearing

variable {x y : Candidate}

theorem Borne.extend
    (h : c.Borne x)
    (hext : Extends c c')
    (hcongruent : y.Congruent x)
    (hstored : ∀ r t, x.slot r = some t → c.Has t.child) :
    c'.Borne y := by
  obtain ⟨hroot, -, -, hslots, hcoverage⟩ := hcongruent
  cases h with
  | leaf hown hparts =>
    refine .leaf hown ?_
    rw [hcoverage, hslots, hext.childRuns hstored]
    exact hparts
  | @level r t hslot hfixed =>
    refine .level (r := r) (t := t) ?_ ?_
    · rw [Candidate.slot, hslots]
      exact hslot
    · rw [hext.root (hstored r t hslot), hroot]
      exact hext.fixedParent _ _ hfixed

theorem Borne.attach
    {t : Slot}
    (h : c.Borne x)
    (hfree : x.slot r = none) :
    c.Borne (x.attach r t (c.candidate t.child)) := by
  cases h with
  | leaf hown hparts => exact .leaf hown (parts_attach hparts hfree)
  | @level q k hslot hfixed =>
    have hq : q ≠ r := by
      rintro rfl
      rw [hfree] at hslot
      cases hslot
    exact .level ((Candidate.slot_attach_of_ne x t _ hq).trans hslot) hfixed

/-- A candidate that gives up no lower level keeps what it stands on. -/
theorem Borne.withoutItem
    (h : c.Borne x)
    (hall : ∀ y, c.Has y → c.Tiled (c.candidate y))
    (hx : x.coverage.WellFormed)
    (hstored : ∀ r t, x.slot r = some t → c.Has t.child)
    (hother : ∀ r, (c.item u).fixedParent ≠ some (x.root, r)) :
    c.Borne (c.withoutItem x u) := by
  cases h with
  | @leaf own hown hparts =>
    have hkept : (c.withoutItem x u).coverage.WellFormed ∧
        (c.withoutItem x u).coverage.runs.Perm
          (own ++ c.childRuns (c.withoutItem x u).slots) ∧
        ∀ r t, (c.withoutItem x u).slot r = some t → c.Has t.child := by
      refine withoutItem_induction
        (P := fun z => z.coverage.WellFormed ∧
          z.coverage.runs.Perm (own ++ c.childRuns z.slots) ∧
          ∀ r t, z.slot r = some t → c.Has t.child) u ⟨hx, hparts, hstored⟩ ?_
      rintro z r t ⟨hz, hrest, hchildren⟩ ht
      have hchild := (hall t.child (hchildren r t ht)).wellFormed
      refine ⟨?_, parts_detach hrest ht hz hchild, fun q k hk => ?_⟩
      · rw [coverage_detach _ ht]
        exact hz.subtract _
      · exact hchildren q k (Candidate.slot_of_slot_detach hk)
    exact .leaf hown hkept.2.1
  | @level r t hslot hfixed =>
    have hne : (c.candidate t.child).root ≠ u := by
      rintro rfl
      exact hother r hfixed
    refine .level (slot_withoutItem_of_root_ne hslot hne) ?_
    rw [root_withoutItem]
    exact hfixed

/-- What stands on something covers something, if the level below does. -/
theorem Borne.not_isEmpty
    (h : c.Borne x)
    (hx : c.Tiled x)
    (hbelow : ∀ r t, x.slot r = some t →
      (c.item (c.candidate t.child).root).fixedParent = some (x.root, r) →
        (c.candidate t.child).isEmpty = false) :
    x.isEmpty = false := by
  have hruns : ∀ a ∈ x.coverage.runs, x.isEmpty = false := fun a ha => by
    rw [Candidate.isEmpty, Coverage.isEmpty, List.isEmpty_eq_false_iff_exists_mem]
    exact ⟨a, ha⟩
  cases h with
  | leaf hown hparts =>
    obtain ⟨a, ha⟩ := List.exists_mem_of_ne_nil _ hown
    exact hruns a (hparts.mem_iff.2 (List.mem_append_left _ ha))
  | @level r t hslot hfixed =>
    have hchild := hbelow r t hslot hfixed
    rw [Candidate.isEmpty, Coverage.isEmpty, List.isEmpty_eq_false_iff_exists_mem] at hchild
    obtain ⟨a, ha⟩ := hchild
    obtain ⟨own, -, hparts, -⟩ := hx.parts
    refine hruns a (hparts.mem_iff.2 (List.mem_append_right _ ?_))
    exact List.mem_flatMap.2 ⟨(r, t), (Slots.mem_filled _ r t).2 hslot, ha⟩

end Bearing

/-- The candidates of a firm level cover something. -/
theorem Footed.covers
    (h : Footed c)
    (hc : Sound True c)
    (hall : ∀ x, c.Has x → c.Tiled (c.candidate x))
    {x : CandidateId}
    (hx : c.Has x)
    (hfirm : c.Firm (c.candidate x).root) :
    (c.candidate x).isEmpty = false := by
  induction hn : x.index using Nat.strongRecOn generalizing x with
  | _ n ih =>
    refine (h.borne x hx hfirm).not_isEmpty (hall x hx) fun r t hslot hfixed => ?_
    have hlt := hc.closed.child x r t hx hslot
    have hpresent := (hc.lawful trivial).child x r t hx hslot
    exact ih _ (by omega) (hc.closed.has_child hx hslot) (hfirm.below hfixed hpresent) rfl

section Making

variable {x : Candidate}

/-- A candidate that a firm level gets stands on something again. -/
theorem Made.borne
    (h : Made True c x)
    (hc : Closed c)
    (hall : ∀ y, c.Has y → c.Tiled (c.candidate y))
    (hfooted : Footed c)
    (hfirm : c.Firm x.root) :
    c.Borne x := by
  have hseen : (c.item x.root).present = false → c.Borne x := fun habsent => by
    rw [hfirm.present] at habsent
    cases habsent
  cases h with
  | leaf _ habsent => exact hseen (habsent trivial)
  | seed _ habsent => exact hseen (habsent trivial)
  | @joined p d r hfits =>
    obtain ⟨bonus, readings, marker, -, heq⟩ :=
      c.joined_eq d r (c.candidate p) (c.candidate d)
    rw [root_joined] at hfirm
    have hattach := (hfooted.borne p hfits.parent hfirm).attach (t := ⟨d, bonus⟩) hfits.slot
    rw [heq]
    cases hattach with
    | leaf hown hparts => exact .leaf hown hparts
    | level hslot hfixed => exact .level hslot hfixed
  | @chained p d hfits =>
    exact (hfooted.borne p hfits.parent hfirm).attach (t := ⟨d, 0⟩) hfits.slot
  | @lifted u y r _ _ hstrict =>
    rcases (hstrict trivial).2 with habsent | hfixed
    · exact hseen habsent
    · exact .level (Candidate.slot_attach_self _ r ⟨y, 0⟩ _) hfixed
  | @reduced y u hy _ hstrict =>
    obtain ⟨q, hlicensed⟩ := hstrict trivial
    rw [root_withoutItem] at hfirm
    refine (hfooted.borne y hy hfirm).withoutItem hall (hall y hy).wellFormed
      (fun r t ht => hc.has_child hy ht) fun r hfixed => ?_
    exact hfirm.not_licensed hfixed q hlicensed
  | @repointed p d r t _ _ _ _ hfixed =>
    have hslot : (((c.candidate p).detach r (c.candidate t.child)).attach r ⟨d, t.bonus⟩
        (c.candidate d)).slot r = some ⟨d, t.bonus⟩ := Candidate.slot_attach_self _ _ _ _
    refine .level (t := ⟨d, t.bonus⟩) hslot ?_
    rw [hfixed, ← Candidate.root_detach (c.candidate p) r (c.candidate t.child)]
    rfl

/-- Where beams have no width, a firm level gets hold of nothing but the level below. -/
theorem Made.narrow
    (h : Made True c x)
    (hfooted : Footed c)
    (hwidth : c.settings.beamWidth = 0)
    (hkind : c.grammar.kind ≠ .positional)
    (hfirm : c.Firm x.root)
    {t : Slot}
    (hslot : x.slot r = some t) :
    (c.item (c.candidate t.child).root).fixedParent = some (x.root, r) := by
  cases h.origin hslot with
  | @kept y k hy hroot hold hchild =>
    rw [← hroot] at hfirm ⊢
    rw [← hchild]
    exact hfooted.narrow hwidth hkind y r k hy hfirm hold
  | taken _ _ hpositive => exact absurd hwidth (Nat.ne_of_gt (hpositive trivial))
  | chained _ hpositional => exact absurd hpositional hkind
  | lifted _ hstrict =>
    rcases (hstrict trivial).2 with habsent | hfixed
    · rw [hfirm.present] at habsent
      cases habsent
    · exact hfixed
  | repointed _ _ _ _ hfixed => exact hfixed

end Making

section Keeping

/-- Nothing leaves a firm level without a candidate. -/
theorem Footed.not_drained
    (h : Footed c)
    (hc : Sound True c)
    (hall : ∀ x, c.Has x → c.Tiled (c.candidate x))
    (hfirm : c.Firm u) :
    ¬ c.Drained u := by
  intro hdrained
  cases hdrained with
  | already hnone => exact h.pool u hfirm hnone
  | bare hx hroot hempty =>
    rw [← hroot] at hfirm
    rw [h.covers hc hall hx hfirm] at hempty
    cases hempty
  | below hfixed hpresent hnone => exact h.pool _ (hfirm.below hfixed hpresent) hnone
  | @given x v r q hwidth hx hholds hlicensed =>
    obtain ⟨t, hslot, rfl⟩ := hholds
    have hroot := hc.closed.root_of_mem hx
    have hfixed := h.narrow hwidth hlicensed.kind x r t (hc.closed.has_of_mem hx)
      (by rw [hroot]; exact hfirm) hslot
    rw [hroot] at hfixed
    exact hfirm.not_licensed hfixed q hlicensed

/-- A level of a firm tower that has just been seen has leaves, and nothing else. -/
theorem Step.leaves
    (h : Step True c c')
    (hfirm : c'.Firm u)
    (habsent : (c.item u).present = false) :
    (c'.item u).pool ≠ [] ∧ ∀ x, c.Has x → (c.candidate x).root = u →
      (c.candidate x).slots = .empty ∧ (c.candidate x).isEmpty = false := by
  have hsown := hfirm.sown u .refl hfirm.present
  rcases h.present_cases hfirm.present with hseen | ⟨hlt, -, hbare, hleaves, rfl⟩ |
    ⟨-, -, -, -, hnone⟩
  · rw [habsent] at hseen
    cases hseen
  · have hfield : ∀ {α} (field : Item → α),
        (∀ i : Item, field { i with present := true } = field i) →
          field ((c.markPresent u).item u) = field (c.item u) := fun field hsame =>
      field_modifyItem field (hsame _) u
    obtain ⟨id, s, hsymbol, hdefined⟩ := hsown.defined
    obtain ⟨hpool, hcovers⟩ := hleaves
      { token := by rw [← hfield Item.token fun _ => rfl]; exact hsown.token
        extent := by rw [← hfield Item.extent fun _ => rfl]; exact hsown.extent
        defined := ⟨id, s, by rw [← hfield Item.symbol fun _ => rfl]; exact hsymbol, hdefined⟩ }
    refine ⟨?_, fun x hx hroot => ⟨hbare x hx hroot, hcovers x hx hroot⟩⟩
    rw [hfield Item.pool fun _ => rfl]
    exact hpool
  · have hsome := hsown.token
    rw [hnone] at hsome
    cases hsome

theorem Step.footed
    (h : Step True c c')
    (hc : Sound True c)
    (hall : ∀ x, c.Has x → c.Tiled (c.candidate x))
    (hfooted : Footed c) :
    Footed c' where
  pool u hfirm hnone := by
    cases hseen : (c.item u).present with
    | true =>
      exact hfooted.not_drained hc hall (hfirm.of_extends h.grows hseen)
        (h.drained trivial hseen hnone)
    | false => exact (h.leaves hfirm hseen).1 hnone
  borne x hx hfirm := by
    rcases h.candidate_cases hx with hold | ⟨-, hmade, hitems⟩
    · have hstored := fun r t (ht : (c.candidate x).slot r = some t) => hc.closed.has_child hold ht
      refine Borne.extend ?_ h.grows (h.grows.congruent hold) hstored
      rw [h.grows.root hold] at hfirm
      cases hseen : (c.item (c.candidate x).root).present with
      | true => exact hfooted.borne x hold (hfirm.of_extends h.grows hseen)
      | false =>
        obtain ⟨hslots, hcovers⟩ := (h.leaves hfirm hseen).2 x hold rfl
        have hown : (c.candidate x).coverage.runs ≠ [] := fun hnil => by
          rw [Candidate.isEmpty, Coverage.isEmpty, hnil] at hcovers
          cases hcovers
        exact .leaf hown (by simp [childRuns, hslots])
    · have hseen : (c.item (c'.candidate x).root).present = true := by
        rw [← hfirm.present, item, item, hitems]
      have hborne := hmade.borne hc.closed hall hfooted (hfirm.of_extends h.grows hseen)
      exact hborne.extend h.grows (Candidate.Congruent.refl _) fun r t ht =>
        (hmade.origin ht).has_child hc.closed
  narrow hwidth hkind x r t hx hfirm hslot := by
    rw [h.grows.settings] at hwidth
    rw [h.grows.grammar] at hkind
    rcases h.candidate_cases hx with hold | ⟨-, hmade, hitems⟩
    · rw [h.grows.root hold] at hfirm ⊢
      rw [h.grows.slot hold] at hslot
      rw [h.grows.root (hc.closed.has_child hold hslot), h.fixedParent]
      cases hseen : (c.item (c.candidate x).root).present with
      | true =>
        exact hfooted.narrow hwidth hkind x r t hold (hfirm.of_extends h.grows hseen) hslot
      | false =>
        rw [Candidate.slot, ((h.leaves hfirm hseen).2 x hold rfl).1, Slots.get_empty] at hslot
        cases hslot
    · have hseen : (c.item (c'.candidate x).root).present = true := by
        rw [← hfirm.present, item, item, hitems]
      rw [h.grows.root ((hmade.origin hslot).has_child hc.closed), h.fixedParent]
      exact hmade.narrow hfooted hwidth hkind (hfirm.of_extends h.grows hseen) hslot

theorem Move.footed
    (h : Move True c c')
    (hc : Sound True c)
    (hall : ∀ x, c.Has x → c.Tiled (c.candidate x))
    (hfooted : Footed c) :
    Footed c' := by
  cases h with
  | step h => exact h.footed hc hall hfooted
  | @fix below u r hnone =>
    have hext : Extends c (c.modifyItem below fun i => { i with fixedParent := some (u, r) }) :=
      Extends.fix hnone
    have hold : ∀ {w}, (c.modifyItem below fun i =>
        { i with fixedParent := some (u, r) }).Firm w → c.Firm w := fun {w} hfirm => by
      refine hfirm.of_extends hext ?_
      rw [← hfirm.present]
      exact (field_modifyItem Item.present rfl w).symm
    refine ⟨fun w hfirm => ?_, fun x hx hfirm => ?_, fun hwidth hkind x q t hx hfirm hslot => ?_⟩
    · rw [field_modifyItem Item.pool rfl]
      exact hfooted.pool w (hold hfirm)
    · exact (hfooted.borne x hx (hold hfirm)).extend hext (Candidate.Congruent.refl _)
        fun q t ht => hc.closed.has_child hx ht
    · exact hext.fixedParent _ _ (hfooted.narrow hwidth hkind x q t hx (hold hfirm) hslot)
  | refill f hfree => exact absurd trivial hfree

end Keeping

theorem footed_new (g : Grammar) (s : Settings) :
    Footed (new g s) where
  pool u hfirm := by
    have hseen := hfirm.present
    rw [item_of_size_le (Nat.zero_le _)] at hseen
    cases hseen
  borne x hx := absurd hx (Nat.not_lt_zero _)
  narrow _ _ x _ _ hx := absurd hx (Nat.not_lt_zero _)

theorem Driven.footed
    (h : Driven g s c) :
    Footed c := by
  have hnew : (∀ x, (Chart.new g s).Has x → (Chart.new g s).Tiled ((Chart.new g s).candidate x)) ∧
      Footed (Chart.new g s) :=
    ⟨fun x hx => absurd hx (Nat.not_lt_zero _), footed_new g s⟩
  exact (h.invariant (P := fun c => (∀ x, c.Has x → c.Tiled (c.candidate x)) ∧ Footed c) hnew
    fun _ _ _ _ hsound hkept hmove =>
      ⟨hmove.tiled hsound.closed hkept.1, hmove.footed hsound hkept.1 hkept.2⟩).holds.2

/-- A firm level is never left without a candidate. -/
theorem Driven.firm_pool_ne_nil
    (h : Driven g s c)
    (hfirm : c.Firm p) :
    (c.item p).pool ≠ [] :=
  h.footed.pool p hfirm

end Chart

end BeamChart
