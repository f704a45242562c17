import BeamChart.Proofs.Chart.Arena
import BeamChart.Proofs.Chart.Composition

/-!
# Calls that are under way

The operations around a connection call each other without end in sight: a connection
offers children, what is offered is passed on, and passing on connects aggregates and
refits towers. Here the same operations run on a stack of calls (`Machine`). A call is
taken from the stack, does what it can do by itself, and leaves the calls that it makes
in its place; a loop leaves one call for each of its rounds. Nothing bounds the stack
but the depth that the chart itself keeps. A connection leaves a mark on the stack
while its body is under way, so the marks tell how many bodies are (`Machine.active`).

Below the calls the stack holds what an input has still to take; this is given up when
something has run out.

**Results.**
* `Call.enter_entered`: what a call does by itself keeps settings and towers, and goes
  down by the marks that it leaves, no further than the settings allow.
-/

namespace BeamChart

/-- A call that has still to be made, or the rest of one. -/
inductive Call where
  | connect (u : ItemId)
  /-- The end of a connection that is under way. -/
  | leave
  | fulfil (u : ItemId) (s : SymbolId)
  | fulfilLevel (u : ItemId) (level : SymbolId)
  | fulfilFrom (u : ItemId) (level : SymbolId) (placeholder : ItemId)
  | takeOver (u placeholder : ItemId) (s : SymbolId)
  | takeChild (u : ItemId) (s : SymbolId) (r : Relation) (x : CandidateId)
  | seekParents (u : ItemId) (s : SymbolId)
  | seekLevel (u : ItemId) (level : SymbolId)
  | seekParent (u : ItemId) (level : SymbolId) (rule : Rule SymbolId)
  /-- The rest of the items that may be a parent, and whether one was. -/
  | tryParents (u : ItemId) (s : SymbolId) (wanted declared : Rule SymbolId)
      (parents : List ItemId) (taken : Bool)
  | predict (child : ItemId) (s : SymbolId) (rule : Rule SymbolId)
  | imply (parent child : ItemId) (rule : Rule SymbolId)
  | offer (parent child : ItemId) (rule : Rule SymbolId)
  | propagate (u : ItemId)
  /-- The rest of a pool, and the item above if it has not been informed yet. -/
  | passOn (u : ItemId) (fixed : Option (ItemId × Relation)) (pool : List CandidateId)
  | introduce (a : ItemId)
  | inform (above : ItemId) (r : Relation) (u : ItemId) (newer : CandidateId)
  | register (u : ItemId)
  | post (u : ItemId)

/-- A part of an input that has still to be taken. -/
inductive Task where
  | input (i : Input)
  | feedAs (symbol : Option SymbolId) (t : Token)
  /-- The rest of a tower, from the inside out, and the item below it. -/
  | raise (t : Token) (below : Option ItemId) (levels : List (SymbolId × Option Relation))
  | absorbItem (i : Item)

namespace Chart

/-- Offers a child to a parent, up to where the parent passes on what it has gained. -/
def offerHead (c : Chart) (parent child : ItemId) (rule : Rule SymbolId) : Bool × Chart :=
  match c.detachAll child (c.item parent).pool with
  | (.error _, c) => (false, c)
  | (.ok (existing, changed), c) =>
    match c.stage rule [] (existing.flatMap fun x => (c.item child).pool.map (x, ·)) with
    | (staged, c) =>
      let kept := c.beam (staged ++ existing)
      if staged.isEmpty then (false, if changed then c.setPool parent kept else c)
      else (true, c.setPool parent kept)

/-- The rule under which a present item may take a child, if there is one. -/
def taking? (c : Chart) (child parent : ItemId) (s : SymbolId) (r : Relation) :
    Option (Rule SymbolId) :=
  if parent = child || !(c.item parent).present then none
  else
    ((c.item parent).symbol.bind fun q => c.grammar.ruleFor? q r s).filter fun rule =>
      c.placed parent child rule

/-- The rule under which an item may take over a child from a placeholder, if there is one. -/
def inheriting? (c : Chart) (u child : ItemId) (s : SymbolId) (r : Relation) :
    Option (Rule SymbolId) :=
  if child = u then none
  else
    ((c.item child).symbol.bind fun d => c.grammar.ruleFor? s r d).filter fun rule =>
      c.placed u child rule

/-- Connections are still within the budget of attempts. -/
def inBudget (c : Chart) : Bool :=
  c.settings.attemptBudget = 0 || c.tally.attempts < c.settings.attemptBudget

end Chart

namespace Call

/-- The mark of a connection that is under way. -/
def isLeave : Call → Bool
  | leave => true
  | _ => false

/-- What a call does by itself, after the calls that it leaves in its place. -/
def enter (c : Chart) : Call → List Call × Chart
  | connect u =>
    match c.connectable? u with
    | none => ([], c)
    | some s =>
      if c.settings.maxDepth ≤ c.depth then ([], c.cutOff)
      else if c.grammar.kind = .positional then ([leave], c.enter.chain u)
      else ((if s.hasRules then [fulfil u s.id] else []) ++ [seekParents u s.id, leave], c.enter)
  | leave => ([], c.leave)
  | fulfil u s => ((c.grammar.ancestry s).map (fulfilLevel u), c)
  | fulfilLevel u level => ((c.itemsOf level).map (fulfilFrom u level), c)
  | fulfilFrom u level p => (if p ≠ u && c.awaits p level then [takeOver u p level] else [], c)
  | takeOver u p s =>
    match (c.item p).pool.head? with
    | none => ([], c)
    | some x => ((c.candidate x).slots.filled.map fun e => takeChild u s e.1 e.2.child, c)
  | takeChild u s r x =>
    match c.inheriting? u (c.candidate x).root s r with
    | none => ([], c)
    | some rule => ([offer u (c.candidate x).root rule], c)
  | seekParents u s => ((c.grammar.ancestry s).reverse.map (seekLevel u), c)
  | seekLevel u level => ((c.parentRules level).map (seekParent u level), c)
  | seekParent u level wanted =>
    match (c.item u).symbol, c.grammar.ruleFor? wanted.target wanted.relation level with
    | some s, some declared => ([tryParents u s wanted declared (c.itemsOf wanted.target) false], c)
    | _, _ => ([], c)
  | tryParents u _ wanted declared [] taken =>
    (if taken then [] else [predict u wanted.target declared], c)
  | tryParents u s wanted declared (p :: rest) taken =>
    match c.taking? u p s wanted.relation with
    | none => ([tryParents u s wanted declared rest taken], c)
    | some rule =>
      match c.offerHead p u rule with
      | (true, c) => ([propagate p, tryParents u s wanted declared rest true], c)
      | (false, c) => ([tryParents u s wanted declared rest taken], c)
  | predict child s rule =>
    match c.allocateItem with
    | (.error _, c) => ([], c)
    | (.ok parent, _) =>
      let c := c.predicted child s
      if rule.implied then ([imply parent child rule], c)
      else
        match Chart.liftPool parent rule.relation c
            ((c.item child).pool.take c.settings.beamWidth) with
        | (pool, c) => ([register parent], c.setPool parent pool)
  | imply parent child rule =>
    match c.store (Candidate.seed parent) with
    | (.error _, c) => ([], c)
    | (.ok x, c) =>
      ([offer parent child rule, connect parent, register parent],
        c.modifyItem parent fun i => { i with pool := i.pool ++ [x], present := true })
  | offer parent child rule =>
    match c.offerHead parent child rule with
    | (true, c) => ([propagate parent], c)
    | (false, c) => ([], c)
  | propagate u => ([passOn u (c.item u).fixedParent (c.item u).pool], c)
  | passOn _ _ [] => ([], c)
  | passOn u fixed (x :: rest) =>
    if (c.candidate x).pending then
      match (c.candidate x).wrapper, fixed with
      | some a, _ => ([introduce a, passOn u fixed rest], c.settle x)
      | none, some (above, r) => ([inform above r u x, passOn u none rest], c.settle x)
      | none, none => ([passOn u none rest], c.settle x)
    else ([passOn u fixed rest], c)
  | introduce a => (if (c.item a).registered then [] else [connect a, register a], c)
  | inform above r u newer =>
    match c.refit above r u newer with
    | (true, c) => ([propagate above], c)
    | (false, c) => ([], c)
  | register u => ([], c.register u)
  | post u =>
    if c.inBudget then ([connect u, register u], c)
    else ([register u], c.count fun t => { t with overBudget := true })

end Call

namespace Task

/--
What a task does by itself, after the calls and tasks that it leaves in its place;
none are left, nor any others, if something has run out.
-/
def start (c : Chart) : Task → Option (List Call × List Task) × Chart
  | input i =>
    match i with
    | .feed t => (some ([], [feedAs (c.symbolOf? t) t]), c)
    | .absorb sub => (some ([], sub.outward.map absorbItem ++ [input .select]), c)
    | i => (some ([], []), i.apply c)
  | feedAs symbol t =>
    if c.settings.window < t.stop then (none, c)
    else
      match (symbol.bind c.grammar.symbol?).bind fun s => s.composition with
      | some tower => (some ([], [raise t none tower.levels.reverse]), c)
      | none =>
        match c.makeItem symbol t with
        | (.error _, c) => (none, c)
        | (.ok u, c) => (some ([.post u], []), c)
  | raise _ _ [] => (some ([], []), c)
  | raise t below ((s, r) :: more) =>
    match c.makeItem (some s) t with
    | (.error _, c) => (none, c)
    | (.ok u, c) =>
      match below, r with
      | some below, some r =>
        match c.placeOver u below r with
        | (.error _, c) => (none, c)
        | (.ok _, c) => (some ([.post u], [raise t (some u) more]), c)
      | _, _ => (some ([.post u], [raise t (some u) more]), c)
  | absorbItem i =>
    match c.grammar.kind with
    | .renaming =>
      match c.rename i with
      | (.ok .done, c) => (some ([], []), c)
      | (_, c) => (none, c)
    | .operational | .positional =>
      if i.concept = unrecognized then (some ([], []), c)
      else (some ([], (c.grammar.meaningsOf i.concept).map fun s => feedAs (some s) i.toToken), c)

end Task

/-- The calls and tasks that are still to come, the next one first, and the chart. -/
structure Machine where
  calls : List Call
  tasks : List Task
  chart : Chart

namespace Machine

/-- The number of connections whose bodies are under way. -/
def active (m : Machine) : Nat :=
  m.calls.countP Call.isLeave

/-- Takes the next call, or the next task if there is no call. -/
def tick : Machine → Machine
  | ⟨call :: rest, tasks, c⟩ =>
    match call.enter c with
    | (more, c) => ⟨more ++ rest, tasks, c⟩
  | ⟨[], task :: tasks, c⟩ =>
    match task.start c with
    | (some (calls, more), c) => ⟨calls, more ++ tasks, c⟩
    | (none, c) => ⟨[], [], c⟩
  | ⟨[], [], c⟩ => ⟨[], [], c⟩

/-- After some ticks the one machine is the other. -/
def LeadsTo : Machine → Machine → Prop :=
  Relation.ReflTransGen fun m m' => m.tick = m'

theorem LeadsTo.refl (m : Machine) :
    LeadsTo m m :=
  Relation.ReflTransGen.refl

theorem LeadsTo.tick
    {m m' : Machine}
    (h : LeadsTo m.tick m') :
    LeadsTo m m' :=
  Relation.ReflTransGen.head rfl h

theorem LeadsTo.trans
    {m m' m'' : Machine}
    (h : LeadsTo m m')
    (k : LeadsTo m' m'') :
    LeadsTo m m'' :=
  Relation.ReflTransGen.trans h k

end Machine

namespace Chart

variable {c c' c'' : Chart} {u : ItemId}

/-- What calls keep of a chart. -/
structure Maintains (c c' : Chart) : Prop where
  settings : c'.settings = c.settings
  items_le : c.items.size ≤ c'.items.size
  fixedParent : ∀ u, (c'.item u).fixedParent = (c.item u).fixedParent

namespace Maintains

theorem refl (c : Chart) :
    Maintains c c :=
  ⟨rfl, Nat.le_refl _, fun _ => rfl⟩

theorem trans
    (h : Maintains c c')
    (k : Maintains c' c'') :
    Maintains c c'' where
  settings := k.settings.trans h.settings
  items_le := Nat.le_trans h.items_le k.items_le
  fixedParent u := (k.fixedParent u).trans (h.fixedParent u)

theorem of_items
    (hsettings : c'.settings = c.settings)
    (hitems : c'.items = c.items) :
    Maintains c c' :=
  ⟨hsettings, Nat.le_of_eq (congrArg Array.size hitems.symm), fun u => by
    rw [item_of_items_eq hitems]⟩

theorem modifyItem
    {f : Item → Item}
    (h : (f (c.item u)).fixedParent = (c.item u).fixedParent) :
    Maintains c (c.modifyItem u f) :=
  ⟨rfl, Nat.le_of_eq (size_items_modifyItem c u f).symm, field_modifyItem Item.fixedParent h⟩

theorem rising
    (h : Maintains c c')
    (hc : Rising c) :
    Rising c' := by
  intro u above r hu
  rw [h.fixedParent] at hu
  obtain ⟨hlater, hlt⟩ := hc u above r hu
  exact ⟨hlater, Nat.lt_of_lt_of_le hlt h.items_le⟩

end Maintains

theorem Acts.maintains
    {strict : Prop}
    (h : Acts strict False c c') :
    Maintains c c' :=
  ⟨h.grammar.2, h.items_le, h.fixedParent⟩

theorem offerHead_maintains
    (c : Chart)
    (parent child : ItemId)
    (rule : Rule SymbolId) :
    Maintains c (c.offerHead parent child rule).2 ∧
      (c.offerHead parent child rule).2.depth = c.depth := by
  obtain ⟨hdetach, -⟩ := detachAll_acts False child (c.item parent).pool (c := c)
  have hdetached := detachAll_returns (c := c) child (c.item parent).pool
  unfold offerHead
  generalize c.detachAll child _ = result at hdetach hdetached ⊢
  obtain ⟨outcome, c₁⟩ := result
  cases outcome with
  | error e => exact ⟨hdetach.maintains, hdetached.depth⟩
  | ok pair =>
    obtain ⟨existing, changed⟩ := pair
    obtain ⟨hstage, -⟩ := stage_acts False rule [] (c := c₁)
      (existing.flatMap fun x => (c₁.item child).pool.map (x, ·)) fun _ h => by cases h
    have hstaged := stage_returns (c := c₁) rule []
      (existing.flatMap fun x => (c₁.item child).pool.map (x, ·))
    dsimp only
    generalize c₁.stage rule [] _ = result at hstage hstaged ⊢
    obtain ⟨staged, c₂⟩ := result
    have hboth : Maintains c c₂ := hdetach.maintains.trans hstage.maintains
    have hdepth : c₂.depth = c.depth := (hdetached.trans hstaged).depth
    have hpool : Maintains c (c₂.setPool parent (c₂.beam (staged ++ existing))) :=
      hboth.trans (.modifyItem rfl)
    dsimp only
    split
    · dsimp only
      split
      · exact ⟨hpool, hdepth⟩
      · exact ⟨hboth, hdepth⟩
    · exact ⟨hpool, hdepth⟩

theorem refit_maintains
    (c : Chart)
    (above : ItemId)
    (r : Relation)
    (child : ItemId)
    (newer : CandidateId) :
    Maintains c (c.refit above r child newer).2 := by
  have hpool : Acts False False c
      (refitPool r child newer c [] false (c.item above).pool).2 :=
    (refitPool_acts r child newer [] false (c.item above).pool
      (fun _ h => by cases h) fun _ h => h).1
  rcases refit_cases c above r child newer with heq | ⟨kept, -, heq⟩ <;> rw [heq]
  · exact hpool.maintains
  · exact hpool.maintains.trans (.modifyItem rfl)

theorem depth_register (c : Chart) (u : ItemId) :
    (c.register u).depth = c.depth := by
  rcases register_cases c u with ⟨heq, -⟩ | ⟨b, p, d, m, f, t, -, heq⟩ <;> rw [heq]
  rfl

theorem register_maintains (c : Chart) (u : ItemId) :
    Maintains c (c.register u) :=
  Acts.maintains (.single (.register fun h => (h : False).elim))

end Chart

namespace Call

open Chart

/--
What a call has done by itself: settings and towers are kept, and the depth has gone
down by the marks that the call has left, which the settings have room for.
-/
structure Entered (c : Chart) (calls : List Call) (c' : Chart) : Prop where
  maintains : Maintains c c'
  depth : c'.depth = c.depth + calls.countP isLeave
  room : calls.countP isLeave ≤ c.settings.maxDepth - c.depth

variable {c c' : Chart} {calls : List Call}

/-- Only connections go down. -/
theorem Entered.flat
    (hmaintains : Maintains c c')
    (hdepth : c'.depth = c.depth)
    (hcalls : ∀ call ∈ calls, call.isLeave = false) :
    Entered c calls c' := by
  have hnone : calls.countP isLeave = 0 :=
    List.countP_eq_zero.2 fun call hmem h => Bool.false_ne_true ((hcalls call hmem).symm.trans h)
  refine ⟨hmaintains, ?_, ?_⟩ <;> rw [hnone]
  · exact hdepth
  · exact Nat.zero_le _

/-- A loop leaves one call for each of its rounds. -/
theorem Entered.rounds
    {α : Type}
    (make : α → Call)
    (entries : List α)
    (hmake : ∀ a, (make a).isLeave = false) :
    Entered c (entries.map make) c := by
  refine .flat (.refl c) rfl fun call hmem => ?_
  obtain ⟨a, -, rfl⟩ := List.mem_map.1 hmem
  exact hmake a

theorem Entered.stay (c : Chart) :
    Entered c [] c :=
  .flat (.refl c) rfl fun _ h => by cases h

theorem connect_entered (c : Chart) (u : ItemId) :
    Entered c ((connect u).enter c).1 ((connect u).enter c).2 := by
  have henter : Maintains c c.enter := .of_items rfl rfl
  rw [enter]
  split
  · exact .stay c
  · rename_i s _
    split
    · exact .flat (.of_items rfl rfl) rfl fun _ h => by cases h
    · rename_i hroom
      have hone : 1 ≤ c.settings.maxDepth - c.depth := by omega
      split
      · exact ⟨henter.trans (chain_acts False c.enter u).maintains,
          (chain_returns c.enter u).depth, hone⟩
      · cases hrules : s.hasRules <;> exact ⟨henter, rfl, hone⟩

theorem predict_entered
    (c : Chart)
    (child : ItemId)
    (s : SymbolId)
    (rule : Rule SymbolId) :
    Entered c ((predict child s rule).enter c).1 ((predict child s rule).enter c).2 := by
  rw [enter]
  rcases allocateItem_cases c with ⟨hroom, heq⟩ | heq <;> rw [heq]
  · have hready : Maintains c (c.predicted child s) :=
      (predicted_acts False hroom (fun h => h.elim) child).1.maintains
    have hdepth : (c.predicted child s).depth = c.depth := rfl
    dsimp only
    generalize c.predicted child s = c₁ at hready hdepth ⊢
    split
    · exact .flat hready hdepth (by simp [isLeave])
    · have hlift := (liftPool_acts False c.nextItem rule.relation
        ((c₁.item child).pool.take c₁.settings.beamWidth) (c := c₁)).1.maintains
      have hlifted := liftPool_returns (c := c₁) c.nextItem rule.relation
        ((c₁.item child).pool.take c₁.settings.beamWidth)
      generalize liftPool c.nextItem rule.relation c₁ _ = result at hlift hlifted ⊢
      obtain ⟨pool, c₂⟩ := result
      exact .flat ((hready.trans hlift).trans (.modifyItem rfl)) (hlifted.depth.trans hdepth)
        (by simp [isLeave])
  · exact .flat (.of_items rfl rfl) rfl fun _ h => by cases h

/-- What is done between two rounds of offering. -/
theorem tryParents_entered
    (c : Chart)
    (u : ItemId)
    (s : SymbolId)
    (wanted declared : Rule SymbolId)
    (parents : List ItemId)
    (taken : Bool) :
    Entered c ((tryParents u s wanted declared parents taken).enter c).1
      ((tryParents u s wanted declared parents taken).enter c).2 := by
  cases parents with
  | nil =>
    refine .flat (.refl c) rfl ?_
    cases taken <;> simp [enter, isLeave]
  | cons p rest =>
    rw [enter]
    split
    · exact .flat (.refl c) rfl (by simp [isLeave])
    · rename_i rule _
      obtain ⟨hmaintains, hdepth⟩ := offerHead_maintains c p u rule
      generalize c.offerHead p u rule = result at hmaintains hdepth ⊢
      obtain ⟨produced, c₁⟩ := result
      cases produced <;> exact .flat hmaintains hdepth (by simp [isLeave])

/-- What a call does by itself goes down no further than the settings allow. -/
theorem enter_entered
    (c : Chart)
    (call : Call)
    (hcall : call.isLeave = false) :
    Entered c (call.enter c).1 (call.enter c).2 := by
  cases call with
  | leave => cases hcall
  | connect u => exact connect_entered c u
  | fulfil u s => exact .rounds (fulfilLevel u) _ fun _ => rfl
  | fulfilLevel u level => exact .rounds (fulfilFrom u level) _ fun _ => rfl
  | fulfilFrom u level p =>
    refine .flat (.refl c) rfl ?_
    rw [enter]
    split <;> simp [isLeave]
  | takeOver u p s =>
    rw [enter]
    split
    · exact .stay c
    · exact .rounds (fun e : Relation × Slot => takeChild u s e.1 e.2.child) _ fun _ => rfl
  | takeChild u s r x =>
    rw [enter]
    split
    · exact .stay c
    · exact .flat (.refl c) rfl (by simp [isLeave])
  | seekParents u s => exact .rounds (seekLevel u) _ fun _ => rfl
  | seekLevel u level => exact .rounds (seekParent u level) _ fun _ => rfl
  | seekParent u level wanted =>
    rw [enter]
    split
    · exact .flat (.refl c) rfl (by simp [isLeave])
    · exact .stay c
  | tryParents u s wanted declared parents taken =>
    exact tryParents_entered c u s wanted declared parents taken
  | predict child s rule => exact predict_entered c child s rule
  | imply parent child rule =>
    have hstore := (Acts.store False c (z := Candidate.seed parent) rfl).1.maintains
    have hstored : Returns c (c.store (Candidate.seed parent)).2 := .store rfl
    rw [enter]
    generalize c.store (Candidate.seed parent) = result at hstore hstored ⊢
    obtain ⟨outcome, c₁⟩ := result
    cases outcome with
    | error e => exact .flat hstore hstored.depth fun _ h => by cases h
    | ok x => exact .flat (hstore.trans (.modifyItem rfl)) hstored.depth (by simp [isLeave])
  | offer parent child rule =>
    obtain ⟨hmaintains, hdepth⟩ := offerHead_maintains c parent child rule
    rw [enter]
    generalize c.offerHead parent child rule = result at hmaintains hdepth ⊢
    obtain ⟨produced, c₁⟩ := result
    cases produced <;> exact .flat hmaintains hdepth (by simp [isLeave])
  | propagate u => exact .flat (.refl c) rfl (by simp [enter, isLeave])
  | passOn u fixed pool =>
    cases pool with
    | nil => exact .stay c
    | cons x rest =>
      simp only [enter]
      split
      · split <;> exact .flat (.of_items rfl rfl) rfl (by simp [isLeave])
      · exact .flat (.refl c) rfl (by simp [isLeave])
  | introduce a =>
    refine .flat (.refl c) rfl ?_
    rw [enter]
    split <;> simp [isLeave]
  | inform above r u newer =>
    have hmaintains := refit_maintains c above r u newer
    have hdepth := (refit_returns c above r u newer).depth
    rw [enter]
    generalize c.refit above r u newer = result at hmaintains hdepth ⊢
    obtain ⟨changed, c₁⟩ := result
    cases changed <;> exact .flat hmaintains hdepth (by simp [isLeave])
  | register u =>
    exact .flat (register_maintains c u) (depth_register c u) fun _ h => by cases h
  | post u =>
    rw [enter]
    split
    · exact .flat (.refl c) rfl (by simp [isLeave])
    · exact .flat (.of_items rfl rfl) rfl (by simp [isLeave])

end Call

end BeamChart
