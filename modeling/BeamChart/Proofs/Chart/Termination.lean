import BeamChart.Proofs.Chart.Unwinding

/-!
# Operations return

An input leaves tasks behind until something has run out, and each of them makes its
calls on an empty stack. So an input comes to an end as the operations do that it calls
(`Completes`), with the chart that it leads to.

While anything is under way, the depth of the chart is the number of connections whose
bodies are, and at most the greatest depth (`Machine.Sane`). Towers still rise then, so
each call that is made on the way returns as well, at the depth at which it was made.

**Results.**
* `Task.start_begun`: what a task does by itself.
* `Machine.Sane.tick`: the depth is that of the stack.
* `Task.input_completes`: an input comes to an end, and has done what it does.
* `calls_return`: all operations return, and so do all calls that they make.
-/

namespace BeamChart

open Chart

variable {s : Settings} {c c' c'' : Chart}

namespace Task

/-- What is to be raised is stored, and the chart is not emptied under other tasks. -/
def Fits (c : Chart) : Task → Prop
  | .input i => i ≠ .reset
  | .raise _ (some below) _ => below.index < c.items.size
  | _ => True

/-- What a task has done by itself, before any of the calls and tasks that it has left. -/
structure Begun (c : Chart) (left : Option (List Call × List Task)) (c' : Chart) : Prop where
  acts : Acts False True c c'
  depth : c'.depth = c.depth
  calls : ∀ e, left = some e → e.1.countP Call.isLeave = 0
  fits : ∀ e, left = some e → ∀ task ∈ e.2, task.Fits c'

variable {calls : List Call} {tasks : List Task} {task : Task}

theorem Fits.mono
    (h : task.Fits c)
    (hitems : c.items.size ≤ c'.items.size) :
    task.Fits c' := by
  unfold Fits at h ⊢
  split at h
  · exact h
  · exact Nat.lt_of_lt_of_le h hitems
  · trivial

theorem Begun.stopped
    (hacts : Acts False True c c')
    (hdepth : c'.depth = c.depth) :
    Begun c none c' :=
  ⟨hacts, hdepth, fun _ h => (by cases h), fun _ h => by cases h⟩

theorem Begun.left
    (hacts : Acts False True c c')
    (hdepth : c'.depth = c.depth)
    (hcalls : calls.countP Call.isLeave = 0)
    (hfits : ∀ task ∈ tasks, task.Fits c') :
    Begun c (some (calls, tasks)) c' := by
  refine ⟨hacts, hdepth, ?_, ?_⟩
  · rintro e ⟨⟩
    exact hcalls
  · rintro e ⟨⟩
    exact hfits

theorem input_begun
    (c : Chart)
    (i : Input)
    (hi : i ≠ .reset) :
    Begun c ((input i).start c).1 ((input i).start c).2 := by
  have hwhole : Begun c (some ([], [])) (i.apply c) :=
    .left ((compositional_acts False).input c i hi fun h => h.elim)
      (Input.apply_resumes c i hi).depth rfl fun _ h => by cases h
  cases i with
  | feed t => exact .left (.refl c) rfl rfl (by simp [Fits])
  | absorb sub =>
    refine .left (.refl c) rfl rfl fun task hmem => ?_
    rcases List.mem_append.1 hmem with hmade | hlast
    · obtain ⟨i, -, rfl⟩ := List.mem_map.1 hmade
      trivial
    · rw [List.mem_singleton.1 hlast]
      exact fun h => by cases h
  | lookup table atoms => exact hwhole
  | select => exact hwhole
  | reset => exact absurd rfl hi

theorem feedAs_begun
    (c : Chart)
    (symbol : Option SymbolId)
    (t : Token) :
    Begun c ((feedAs symbol t).start c).1 ((feedAs symbol t).start c).2 := by
  rw [start]
  split
  · exact .stopped (.refl c) rfl
  · split
    · exact .left (.refl c) rfl rfl (by simp [Fits])
    · have hsymbol : False → ∀ k ∈ symbol, k < c.grammar.size := fun h => h.elim
      obtain ⟨hmake, -⟩ := makeItem_acts hsymbol t
      obtain ⟨hmade, -⟩ := makeItem_returns c symbol t
      generalize c.makeItem symbol t = result at hmake hmade ⊢
      obtain ⟨outcome, c₁⟩ := result
      cases outcome with
      | error e => exact .stopped hmake.weaken hmade.depth
      | ok u => exact .left hmake.weaken hmade.depth rfl fun _ h => by cases h

/-- The item that is raised stands above the one below it, and is what is raised next. -/
theorem raise_begun
    (t : Token)
    (below : Option ItemId)
    (levels : List (SymbolId × Option Relation))
    (hfits : (raise t below levels).Fits c) :
    Begun c ((raise t below levels).start c).1 ((raise t below levels).start c).2 := by
  cases levels with
  | nil => exact .left (.refl c) rfl rfl fun _ h => by cases h
  | cons e more =>
    obtain ⟨k, r⟩ := e
    have hsymbol : False → ∀ l ∈ some k, l < c.grammar.size := fun h => h.elim
    obtain ⟨hmake, hnew⟩ := makeItem_acts hsymbol t
    obtain ⟨hmade, -⟩ := makeItem_returns c (some k) t
    simp only [start]
    generalize c.makeItem (some k) t = result at hmake hnew hmade ⊢
    obtain ⟨outcome, c₁⟩ := result
    cases outcome with
    | error e => exact .stopped hmake.weaken hmade.depth
    | ok u =>
      obtain ⟨hlater, hitem⟩ := hnew u rfl
      have hnext : Begun c (some ([.post u], [raise t (some u) more])) c₁ := by
        refine .left hmake.weaken hmade.depth rfl fun task hmem => ?_
        rw [List.mem_singleton.1 hmem]
        exact hitem
      cases below with
      | none => exact hnext
      | some below =>
        cases r with
        | none => exact hnext
        | some r =>
          have hplace := (compositional_acts False).placeOver
            (Nat.lt_of_lt_of_le (show below.index < c.items.size from hfits) hlater) hitem r
          have hplaced := placeOver_returns c₁ u below r
          dsimp only
          generalize c₁.placeOver u below r = result at hplace hplaced ⊢
          obtain ⟨outcome, c₂⟩ := result
          have hacts : Acts False True c c₂ := hmake.weaken.trans hplace
          cases outcome with
          | error e => exact .stopped hacts (hmade.trans hplaced).depth
          | ok _ =>
            refine .left hacts (hmade.trans hplaced).depth rfl fun task hmem => ?_
            rw [List.mem_singleton.1 hmem]
            exact Nat.lt_of_lt_of_le hitem hplace.items_le

theorem absorbItem_begun
    (c : Chart)
    (i : Item) :
    Begun c ((absorbItem i).start c).1 ((absorbItem i).start c).2 := by
  rw [start]
  split
  · have hacts : Acts False True c (c.rename i).2 :=
      (rename_acts (fun h : False => h.elim) i).weaken
    have hdepth := (rename_returns c i).depth
    split
    · rename_i heq
      rw [heq] at hacts hdepth
      exact .left hacts hdepth rfl fun _ h => by cases h
    · rename_i heq
      rw [heq] at hacts hdepth
      exact .stopped hacts hdepth
  all_goals
    split
    · exact .left (.refl c) rfl rfl fun _ h => by cases h
    · refine .left (.refl c) rfl rfl fun task hmem => ?_
      obtain ⟨k, -, rfl⟩ := List.mem_map.1 hmem
      trivial

/-- What a task does by itself is made of acts, and leaves the depth as it is. -/
theorem start_begun
    (c : Chart)
    (task : Task)
    (hfits : task.Fits c) :
    Begun c (task.start c).1 (task.start c).2 := by
  cases task with
  | input i => exact input_begun c i hfits
  | feedAs symbol t => exact feedAs_begun c symbol t
  | raise t below levels => exact raise_begun t below levels hfits
  | absorbItem i => exact absorbItem_begun c i

end Task

namespace Machine

variable {m m' : Machine}

/-- Towers rise, and the depth of the chart is that of the stack, which is limited. -/
structure Sane (s : Settings) (m : Machine) : Prop where
  rising : Rising m.chart
  settings : m.chart.settings = s
  depth : m.chart.depth = m.active
  room : m.active ≤ s.maxDepth
  fits : ∀ task ∈ m.tasks, task.Fits m.chart

theorem Sane.tick_call
    {calls : List Call}
    {tasks : List Task}
    {call : Call}
    (h : Sane s ⟨call :: calls, tasks, c⟩) :
    Sane s ⟨(call.enter c).1 ++ calls, tasks, (call.enter c).2⟩ := by
  have hdepth : c.depth = (call :: calls).countP Call.isLeave := h.depth
  have hroom : (call :: calls).countP Call.isLeave ≤ s.maxDepth := h.room
  rw [List.countP_cons] at hdepth hroom
  cases hcall : call.isLeave with
  | true =>
    obtain rfl : call = .leave := by
      cases call <;> first | rfl | cases hcall
    rw [hcall, if_pos rfl] at hdepth hroom
    have hleft : c.leave.depth = calls.countP Call.isLeave :=
      show c.depth - 1 = _ by rw [hdepth, Nat.add_sub_cancel]
    exact ⟨(Maintains.of_items rfl rfl).rising h.rising, h.settings, hleft,
      Nat.le_of_succ_le hroom, h.fits⟩
  | false =>
    obtain ⟨hmaintains, henter, hlimit⟩ := call.enter_entered c hcall
    rw [hcall, if_neg Bool.false_ne_true] at hdepth hroom
    rw [show c.settings = s from h.settings] at hlimit
    refine ⟨hmaintains.rising h.rising, hmaintains.settings.trans h.settings, ?_, ?_,
      fun task hmem => (h.fits task hmem).mono hmaintains.items_le⟩
    · rw [active, List.countP_append]
      show (call.enter c).2.depth = _
      omega
    · rw [active, List.countP_append]
      show (call.enter c).1.countP Call.isLeave + calls.countP Call.isLeave ≤ _
      omega

theorem Sane.tick_task
    {tasks : List Task}
    {task : Task}
    (h : Sane s ⟨[], task :: tasks, c⟩) :
    Sane s (tick ⟨[], task :: tasks, c⟩) := by
  obtain ⟨hacts, hdepth, hcalls, hfits⟩ :=
    task.start_begun c (h.fits task List.mem_cons_self)
  have hidle : c.depth = 0 := h.depth
  rw [tick]
  generalize task.start c = result at hacts hdepth hcalls hfits ⊢
  obtain ⟨left, c₁⟩ := result
  have hrising : Rising c₁ := hacts.rising h.rising
  have hsettings : c₁.settings = s := hacts.grammar.2.trans h.settings
  cases left with
  | none => exact ⟨hrising, hsettings, hdepth.trans hidle, Nat.zero_le _, fun _ h => by cases h⟩
  | some e =>
    obtain ⟨calls, more⟩ := e
    have hflat : calls.countP Call.isLeave = 0 := hcalls _ rfl
    refine ⟨hrising, hsettings, (hdepth.trans hidle).trans hflat.symm, ?_, fun task hmem => ?_⟩
    · rw [active, hflat]
      exact Nat.zero_le _
    · rcases List.mem_append.1 hmem with hnew | hold
      · exact hfits _ rfl task hnew
      · exact (h.fits task (List.mem_cons_of_mem _ hold)).mono hacts.items_le

/-- The depth is kept in step with the stack. -/
theorem Sane.tick
    (h : Sane s m) :
    Sane s m.tick := by
  obtain ⟨calls, tasks, c⟩ := m
  cases calls with
  | cons call calls => exact h.tick_call
  | nil =>
    cases tasks with
    | cons task tasks => exact h.tick_task
    | nil => exact h

theorem Sane.leads
    (h : Sane s m)
    (k : LeadsTo m m') :
    Sane s m' := by
  induction k with
  | refl => exact h
  | tail _ hstep ih =>
    rw [← hstep]
    exact ih.tick

end Machine

namespace Task

/-- Tasks are taken, with those after them as well unless something has run out. -/
def Completes (tasks : List Task) (c : Chart) (done : Bool) (c' : Chart) : Prop :=
  ∀ rest, Machine.LeadsTo ⟨[], tasks ++ rest, c⟩ ⟨[], if done then rest else [], c'⟩

variable {calls : List Call} {tasks more : List Task} {task : Task} {done : Bool}

namespace Completes

theorem nil (c : Chart) :
    Completes [] c true c :=
  fun _ => .refl _

theorem append
    (h : Completes tasks c true c')
    (k : Completes more c' done c'') :
    Completes (tasks ++ more) c done c'' := by
  intro rest
  rw [List.append_assoc]
  exact (h (more ++ rest)).trans (k rest)

theorem cut
    (h : Completes tasks c false c') :
    Completes (tasks ++ more) c false c' := by
  intro rest
  rw [List.append_assoc]
  exact h (more ++ rest)

/-- A task completes if its calls are unwound and then its own tasks complete. -/
theorem start
    (hstart : task.start c = (some (calls, more), c'))
    {c₁ : Chart}
    (hcalls : Unwinds calls c' c₁)
    (h : Completes more c₁ done c'') :
    Completes [task] c done c'' := by
  intro rest
  have hleads := hcalls.leads [] (more ++ rest)
  rw [List.append_nil] at hleads
  refine .tick ?_
  simp only [List.singleton_append, Machine.tick, hstart]
  exact hleads.trans (h rest)

theorem stopped
    (hstart : task.start c = (none, c')) :
    Completes [task] c false c' := by
  intro rest
  refine .tick ?_
  simp only [List.singleton_append, Machine.tick, hstart]
  exact .refl _

end Completes

theorem post_unwinds
    (hc : Rising c)
    (u : ItemId) :
    Unwinds [.post u] c ((c.connectInBudget u).register u) := by
  have heq : c.connectInBudget u = if c.inBudget then c.connect u
    else c.count fun t => { t with overBudget := true } := rfl
  rw [heq, apply_ite (Chart.register · u)]
  exact Call.unwinds (connect_unwinds c.settings) ⟨hc, rfl, Nat.le_add_left _ _⟩ (.post u) rfl

/-- A task that makes an item posts it. -/
theorem Completes.posted
    (hc : Rising c)
    (hfits : task.Fits c)
    {u : ItemId}
    (hstart : task.start c = (some ([.post u], more), c'))
    (h : Completes more ((c'.connectInBudget u).register u) done c'') :
    Completes [task] c done c'' := by
  have hbegun := task.start_begun c hfits
  rw [hstart] at hbegun
  exact .start hstart (post_unwinds (hbegun.acts.rising hc) u) h

/--
A tower is raised level by level, from the inside out; the levels above it are raised
on its top. The induction is on the tower.
-/
theorem raise_completes
    (t : Token)
    (tower : Composition SymbolId)
    {levels : List (SymbolId × Option Relation)}
    (hc : Rising c)
    (hok : ∀ u c₁, feedComposition t tower c = (.ok u, c₁) →
      Completes [raise t (some u) levels] c₁ done c')
    (herror : ∀ e c₁, feedComposition t tower c = (.error e, c₁) → done = false ∧ c₁ = c') :
    Completes [raise t none (tower.levels.reverse ++ levels)] c done c' := by
  induction tower generalizing levels with
  | single k =>
    rw [Composition.levels, List.reverse_singleton, List.singleton_append]
    cases hmake : c.makeItem (some k) t with
    | mk outcome c₁ =>
      cases outcome with
      | error e =>
        obtain ⟨rfl, rfl⟩ := herror e c₁ (by simp only [feedComposition, hmake])
        exact .stopped (by simp only [start, hmake])
      | ok u =>
        have hstart : (raise t none ((k, none) :: levels)).start c =
            (some ([.post u], [raise t (some u) levels]), c₁) := by
          simp only [start, hmake]
        have hfed : feedComposition t (.single k) c =
            (.ok u, (c₁.connectInBudget u).register u) := by
          simp only [feedComposition, hmake]
        exact .posted hc trivial hstart (hok u _ hfed)
  | holding k r inner ih =>
    rw [Composition.levels, List.reverse_cons, List.append_assoc, List.singleton_append]
    obtain ⟨hacts, hitem⟩ :=
      (compositional_acts False).feedComposition t inner c fun h => h.elim
    refine ih ?_ fun e c₁ hinner => herror e c₁ (by simp only [feedComposition, hinner])
    intro below c₁ hinner
    rw [hinner] at hacts hitem
    have hrising : Rising c₁ := hacts.rising hc
    have hfits : (raise t (some below) ((k, some r) :: levels)).Fits c₁ := hitem below rfl
    cases hmake : c₁.makeItem (some k) t with
    | mk outcome c₂ =>
      cases outcome with
      | error e =>
        obtain ⟨rfl, rfl⟩ := herror e c₂ (by simp only [feedComposition, hinner, hmake])
        exact .stopped (by simp only [start, hmake])
      | ok u =>
        cases hplace : c₂.placeOver u below r with
        | mk outcome c₃ =>
          cases outcome with
          | error e =>
            obtain ⟨rfl, rfl⟩ :=
              herror e c₃ (by simp only [feedComposition, hinner, hmake, hplace])
            exact .stopped (by simp only [start, hmake, hplace])
          | ok _ =>
            have hstart : (raise t (some below) ((k, some r) :: levels)).start c₁ =
                (some ([.post u], [raise t (some u) levels]), c₃) := by
              simp only [start, hmake, hplace]
            have hfed : feedComposition t (.holding k r inner) c =
                (.ok u, (c₃.connectInBudget u).register u) := by
              simp only [feedComposition, hinner, hmake, hplace]
            exact .posted hrising hfits hstart (hok u _ hfed)

theorem feedAs_completes
    (hc : Rising c)
    (symbol : Option SymbolId)
    (t : Token) :
    Completes [feedAs symbol t] c (c.feedAs symbol t).1.isOk (c.feedAs symbol t).2 := by
  unfold Chart.feedAs
  by_cases hwindow : c.settings.window < t.stop
  · rw [if_pos hwindow]
    exact .stopped (by rw [start, if_pos hwindow])
  · rw [if_neg hwindow]
    cases htower : (symbol.bind c.grammar.symbol?).bind fun k => k.composition with
    | some tower =>
      have hstart : (feedAs symbol t).start c =
          (some ([], [raise t none (tower.levels.reverse ++ [])]), c) := by
        rw [start, if_neg hwindow, htower, List.append_nil]
      refine .start hstart (.nil c) (raise_completes t tower hc ?_ ?_)
      · intro u c₁ h
        dsimp only
        rw [h]
        exact .start rfl (.nil c₁) (.nil c₁)
      · intro e c₁ h
        dsimp only
        rw [h]
        exact ⟨rfl, rfl⟩
    | none =>
      dsimp only
      cases hmake : c.makeItem symbol t with
      | mk outcome c₁ =>
        cases outcome with
        | error e =>
          have hstart : (feedAs symbol t).start c = (none, c₁) := by
            rw [start, if_neg hwindow, htower]
            simp only [hmake]
          exact .stopped hstart
        | ok u =>
          have hstart : (feedAs symbol t).start c = (some ([.post u], []), c₁) := by
            rw [start, if_neg hwindow, htower]
            simp only [hmake]
          exact .posted hc trivial hstart (.nil _)

section Absorbing

/-- The items have been taken to their end. -/
def finished : Except ChartError Progress → Bool
  | .ok .done => true
  | _ => false

theorem feedEach_completes
    (t : Token)
    (meanings : List SymbolId)
    (hc : Rising c) :
    Completes (meanings.map fun k => feedAs (some k) t) c
      (finished (feedEach (fun c k => c.feedAs (some k) t) c meanings).1)
      (feedEach (fun c k => c.feedAs (some k) t) c meanings).2 := by
  induction meanings generalizing c with
  | nil => exact .nil c
  | cons k rest ih =>
    have hfirst := feedAs_completes hc (some k) t
    have hrising : Rising (c.feedAs (some k) t).2 :=
      ((compositional_acts False).feedAs c (fun h => h.elim) t).rising hc
    unfold feedEach
    generalize c.feedAs (some k) t = result at hfirst hrising ⊢
    obtain ⟨outcome, c₁⟩ := result
    cases outcome with
    | ok u => exact hfirst.append (ih hrising)
    | error e => cases e <;> exact hfirst.cut

theorem absorbItem_completes
    (hc : Rising c)
    (i : Item) :
    Completes [absorbItem i] c (finished (c.absorbItem i).1) (c.absorbItem i).2 := by
  unfold Chart.absorbItem
  match hkind : c.grammar.kind with
  | .renaming =>
    dsimp only
    cases hrename : c.rename i with
    | mk outcome c₁ =>
      cases outcome with
      | error e =>
        have hstart : (absorbItem i).start c = (none, c₁) := by
          simp only [start, hkind, hrename]
        exact .stopped hstart
      | ok progress =>
        cases progress with
        | stopped =>
          have hstart : (absorbItem i).start c = (none, c₁) := by
            simp only [start, hkind, hrename]
          exact .stopped hstart
        | done =>
          have hstart : (absorbItem i).start c = (some ([], []), c₁) := by
            simp only [start, hkind, hrename]
          exact .start hstart (.nil c₁) (.nil c₁)
  | .operational | .positional =>
    have hstart : (absorbItem i).start c = if i.concept = unrecognized then (some ([], []), c)
        else (some ([], (c.grammar.meaningsOf i.concept).map fun k =>
          feedAs (some k) i.toToken), c) := by
      simp only [start, hkind]
    dsimp only
    by_cases hconcept : i.concept = unrecognized
    · rw [if_pos hconcept] at hstart ⊢
      exact .start hstart (.nil c) (.nil c)
    · rw [if_neg hconcept] at hstart ⊢
      exact .start hstart (.nil c) (feedEach_completes i.toToken _ hc)

theorem absorbItems_completes
    (items : List Item)
    (hc : Rising c) :
    Completes (items.map absorbItem) c (finished (c.absorbItems items).1)
      (c.absorbItems items).2 := by
  induction items generalizing c with
  | nil => exact .nil c
  | cons i rest ih =>
    have hfirst := absorbItem_completes hc i
    have hrising : Rising (c.absorbItem i).2 :=
      ((compositional_acts False).absorbItem c (fun h => h.elim) i).rising hc
    unfold absorbItems
    generalize c.absorbItem i = result at hfirst hrising ⊢
    obtain ⟨outcome, c₁⟩ := result
    cases outcome with
    | error e => exact hfirst.cut
    | ok progress =>
      cases progress with
      | stopped => exact hfirst.cut
      | done => exact hfirst.append (ih hrising)

end Absorbing

/-- An input comes to an end, and has then done what it does. -/
theorem input_completes
    (hc : Rising c)
    (i : Input)
    (hi : i ≠ .reset) :
    Machine.LeadsTo ⟨[], [input i], c⟩ ⟨[], [], i.apply c⟩ := by
  have hended : ∀ {done c'}, Completes [input i] c done c' →
      Machine.LeadsTo ⟨[], [input i], c⟩ ⟨[], [], c'⟩ := by
    intro done c' h
    have hleads := h []
    rw [ite_self] at hleads
    exact hleads
  cases i with
  | feed t => exact hended (.start rfl (.nil c) (feedAs_completes hc (c.symbolOf? t) t))
  | absorb sub =>
    have hitems := absorbItems_completes sub.outward hc
    show Machine.LeadsTo _ ⟨[], [], (c.absorb sub).2⟩
    unfold Chart.absorb
    generalize c.absorbItems sub.outward = result at hitems ⊢
    obtain ⟨outcome, c₁⟩ := result
    cases outcome with
    | error e => exact hended (.start rfl (.nil c) hitems.cut)
    | ok progress =>
      cases progress with
      | stopped => exact hended (.start rfl (.nil c) hitems.cut)
      | done =>
        exact hended (.start rfl (.nil c) (hitems.append (.start rfl (.nil _) (.nil _))))
  | lookup table atoms => exact hended (.start rfl (.nil _) (.nil _))
  | select => exact hended (.start rfl (.nil _) (.nil _))
  | reset => exact absurd rfl hi

end Task

namespace Chart

variable {g : Grammar} {m : Machine}

/-- An operation that starts in a chart, as a machine, and what it does. -/
inductive Starts (c : Chart) : Machine → Chart → Prop
  | call
      (call : Call)
      (hcall : call.isLeave = false) :
      Starts c ⟨[call], [], c⟩ (call.resultWith connect c)
  | input
      (i : Input)
      (hi : i ≠ .reset) :
      Starts c ⟨[], [.input i], c⟩ (i.apply c)

/-- Between inputs towers rise, and no connection is under way. -/
theorem Driven.settled
    (h : Driven g s c) :
    Rising c ∧ c.settings = s ∧ c.depth = 0 := by
  have hnew : ∀ g s, Rising (Chart.new g s) := by
    intro g s u above r hu
    rw [item_of_size_le (Nat.zero_le _)] at hu
    cases hu
  induction h with
  | new => exact ⟨hnew g s, rfl, rfl⟩
  | @input c _ i ih =>
    obtain ⟨hrising, hsettings, hdepth⟩ := ih
    by_cases hreset : i = .reset
    · rw [hreset]
      exact ⟨hnew c.grammar c.settings, hsettings, rfl⟩
    · have hacts := (compositional_acts False).input c i hreset fun h => h.elim
      exact ⟨hacts.rising hrising, hacts.grammar.2.trans hsettings,
        (Input.apply_resumes c i hreset).depth.trans hdepth⟩

/-- A call that is made while all is in step returns, at the depth at which it was made. -/
theorem returns_of_sane
    (h : m.Sane s)
    {call : Call}
    {rest : List Call}
    (hcalls : m.calls = call :: rest)
    (hcall : call.isLeave = false) :
    m.LeadsTo ⟨rest, m.tasks, call.resultWith connect m.chart⟩ ∧
      (call.resultWith connect m.chart).depth = m.chart.depth := by
  have hunwinds := Call.unwinds (connect_unwinds s)
    ⟨h.rising, h.settings, Nat.le_add_left _ _⟩ call hcall
  obtain ⟨calls, tasks, c⟩ := m
  cases hcalls
  exact ⟨hunwinds.leads rest tasks, hunwinds.depth_eq hcall⟩

theorem Starts.sane
    (hrun : Driven g s c)
    (h : Starts c m c') :
    m.Sane s := by
  obtain ⟨hrising, hsettings, hdepth⟩ := hrun.settled
  cases h with
  | call call hcall =>
    have hactive : Machine.active ⟨[call], [], c⟩ = 0 := by
      rw [Machine.active, List.countP_singleton, hcall]
      rfl
    refine ⟨hrising, hsettings, hdepth.trans hactive.symm, ?_, fun _ h => by cases h⟩
    rw [hactive]
    exact Nat.zero_le _
  | input i hi =>
    refine ⟨hrising, hsettings, hdepth, Nat.zero_le _, fun task hmem => ?_⟩
    rw [List.mem_singleton.1 hmem]
    exact hi

theorem Starts.leads
    (hrun : Driven g s c)
    (h : Starts c m c') :
    m.LeadsTo ⟨[], [], c'⟩ := by
  have hsane := h.sane hrun
  cases h with
  | call call hcall => exact (returns_of_sane hsane rfl hcall).1
  | input i hi => exact Task.input_completes hrun.settled.1 i hi

/--
Whatever the grammar, the operations come to an end. While one is under way, the bodies
of no more than the greatest number of connections are, the depth is their number, and
each call that is made returns at the depth at which it was made. Between inputs the
depth is zero.
-/
theorem calls_return
    (hrun : Driven g s c)
    (hstart : Starts c m c') :
    c.depth = 0 ∧ c'.depth = 0 ∧ m.LeadsTo ⟨[], [], c'⟩ ∧
      ∀ m', m.LeadsTo m' →
        m'.active ≤ s.maxDepth ∧ m'.chart.depth = m'.active ∧
        ∀ call rest, m'.calls = call :: rest → call.isLeave = false →
          m'.LeadsTo ⟨rest, m'.tasks, call.resultWith connect m'.chart⟩ ∧
          (call.resultWith connect m'.chart).depth = m'.chart.depth := by
  have hsane := hstart.sane hrun
  have hleads := hstart.leads hrun
  refine ⟨hrun.settled.2.2, (hsane.leads hleads).depth, hleads, fun m' h => ?_⟩
  have hsane' := hsane.leads h
  exact ⟨hsane'.room, hsane'.depth, fun call rest hcalls hcall =>
    returns_of_sane hsane' hcalls hcall⟩

/-- The second token has been connected when it has been taken. -/
theorem calls_return_sample :
    sampleChart.tally.connections = 2 ∧ sampleChart.depth = 0 ∧
      Machine.LeadsTo
        ⟨[], [.input (.feed { concept := 2, position := 1, extent := 1 })],
          (Input.feed { concept := 1, position := 0, extent := 1 }).apply
            (new sampleGrammar {})⟩
        ⟨[], [], sampleChart⟩ := by
  have hrun : Driven sampleGrammar {}
      ((Input.feed { concept := 1, position := 0, extent := 1 }).apply (new sampleGrammar {})) :=
    .input .new _
  have hreturn := calls_return hrun (.input
    (.feed { concept := 2, position := 1, extent := 1 }) fun h => by cases h)
  exact ⟨by decide +kernel, hreturn.2.1, hreturn.2.2.1⟩

end Chart

end BeamChart
