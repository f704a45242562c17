import BeamChart.Proofs.Chart.Calls

/-!
# Calls come to an end

Every call is unwound: after some ticks it has gone from the stack, with all that it has
left there, and the chart is what the operation of that call makes of it. Three measures
are needed for this, one inside the other. A connection at the greatest depth makes no
calls, so connections are taken by induction on the levels that are left (`Limited`). A
tower rises to later items, so passing on is taken along the levels above an item
(`Tops`). All other operations make their calls one after the other for the entries of a
list.

**Results.**
* `Unwinds.call`: a call is unwound if the calls that it leaves are.
* `climbWith_unwinds`: what an item gained is passed on up its tower.
* `connectWithin_unwinds`: a connection is unwound, whatever the grammar.
* `Call.unwinds`: so is every call, and it does what its operation does.
-/

namespace BeamChart

namespace Chart

/-- The items above an item in its tower, up to the last one. -/
def Tops (c : Chart) : ItemId → List (ItemId × Relation) → Prop
  | u, [] => (c.item u).fixedParent = none
  | u, (above, r) :: higher =>
    (c.item u).fixedParent = some (above, r) ∧ c.Tops above higher

/-- Towers rise, and no more than so many connections can be made inside one another. -/
structure Limited (s : Settings) (room : Nat) (c : Chart) : Prop where
  rising : Rising c
  settings : c.settings = s
  room : s.maxDepth ≤ c.depth + room

/-- After some ticks these calls have gone from the stack, and the levels they mark with them. -/
structure Unwinds (calls : List Call) (c c' : Chart) : Prop where
  leads : ∀ rest tasks, Machine.LeadsTo ⟨calls ++ rest, tasks, c⟩ ⟨rest, tasks, c'⟩
  maintains : Maintains c c'
  depth : c'.depth + calls.countP Call.isLeave = c.depth

/-- Connections that have so much room are unwound. -/
def Answers (s : Settings) (room : Nat) (connect : Connector) : Prop :=
  ∀ c u, Limited s room c → Unwinds [.connect u] c (connect c u)

variable {s : Settings} {room : Nat} {connect : Connector} {c c' c'' : Chart}

section Towers

theorem Maintains.tops
    (h : Maintains c c')
    {higher : List (ItemId × Relation)}
    {u : ItemId}
    (hu : c.Tops u higher) :
    c'.Tops u higher := by
  induction higher generalizing u with
  | nil => exact (h.fixedParent u).trans hu
  | cons e higher ih => exact ⟨(h.fixedParent u).trans hu.1, ih hu.2⟩

/-- A tower that rises is read to its end. -/
theorem Rising.tops_tower
    (hc : Rising c)
    {u : ItemId}
    (hroom : c.items.size ≤ room + u.index) :
    c.Tops u (c.tower room u) := by
  induction room generalizing u with
  | zero =>
    rw [tower, Tops, item_of_size_le (by omega)]
  | succ room ih =>
    rw [tower]
    split
    · assumption
    · rename_i above r hu
      exact ⟨hu, ih (by have := (hc u above r hu).1; omega)⟩

end Towers

theorem Limited.keep
    (hc : Limited s room c)
    (h : Maintains c c')
    (hdepth : c'.depth = c.depth) :
    Limited s room c' where
  rising := h.rising hc.rising
  settings := h.settings.trans hc.settings
  room := by
    rw [hdepth]
    exact hc.room

namespace Unwinds

variable {calls more : List Call} {first : Call}

theorem nil (c : Chart) :
    Unwinds [] c c :=
  ⟨fun _ _ => .refl _, .refl c, rfl⟩

theorem append
    (h : Unwinds calls c c')
    (k : Unwinds more c' c'') :
    Unwinds (calls ++ more) c c'' where
  leads rest tasks := by
    rw [List.append_assoc]
    exact (h.leads (more ++ rest) tasks).trans (k.leads rest tasks)
  maintains := h.maintains.trans k.maintains
  depth := by
    have hfirst := h.depth
    have hmore := k.depth
    rw [List.countP_append]
    omega

/-- A call is unwound if the calls that it leaves in its place are. -/
theorem call
    (hfirst : first.isLeave = false)
    (h : Unwinds (first.enter c).1 (first.enter c).2 c') :
    Unwinds [first] c c' where
  leads rest tasks := .tick (h.leads rest tasks)
  maintains := (Call.enter_entered c first hfirst).maintains.trans h.maintains
  depth := by
    have henter := (Call.enter_entered c first hfirst).depth
    have hrest := h.depth
    rw [List.countP_singleton, hfirst]
    simp only [Bool.false_eq_true, if_false]
    omega

/-- The end of a connection comes one level up again. -/
theorem leave
    (hdepth : 0 < c.depth) :
    Unwinds [.leave] c c.leave where
  leads _ _ := .tick (.refl _)
  maintains := .of_items rfl rfl
  depth := Nat.sub_add_cancel hdepth

theorem depth_eq
    (h : Unwinds [first] c c')
    (hfirst : first.isLeave = false) :
    c'.depth = c.depth := by
  have hdepth := h.depth
  rw [List.countP_singleton, hfirst] at hdepth
  exact hdepth

theorem limited
    (h : Unwinds [first] c c')
    (hfirst : first.isLeave = false)
    (hc : Limited s room c) :
    Limited s room c' :=
  hc.keep h.maintains (h.depth_eq hfirst)

/-- A loop is unwound round by round. -/
theorem rounds
    {α : Type}
    (make : α → Call)
    (step : Chart → α → Chart)
    (hmake : ∀ a, (make a).isLeave = false)
    (hstep : ∀ c a, Limited s room c → Unwinds [make a] c (step c a))
    (entries : List α)
    (hc : Limited s room c) :
    Unwinds (entries.map make) c (entries.foldl step c) := by
  induction entries generalizing c with
  | nil => exact .nil c
  | cons a rest ih =>
    have hfirst := hstep c a hc
    exact hfirst.append (ih (hfirst.limited (hmake a) hc))

end Unwinds

section PassingOn

theorem register_unwinds (c : Chart) (u : ItemId) :
    Unwinds [.register u] c (c.register u) :=
  .call rfl (.nil _)

variable (hconnect : Answers s room connect)
include hconnect

theorem connect_register_unwinds
    (hc : Limited s room c)
    (u : ItemId) :
    Unwinds [.connect u, .register u] c ((connect c u).register u) :=
  (hconnect c u hc).append (register_unwinds _ u)

theorem admitWith_unwinds
    (hc : Limited s room c)
    (a : ItemId) :
    Unwinds [.introduce a] c (admitWith connect c a) := by
  refine .call rfl ?_
  rw [Call.enter, admitWith]
  split
  · exact .nil c
  · exact connect_register_unwinds hconnect hc a

/-- A pool is passed on as far as the item above can be informed. -/
theorem passOnWith_unwinds
    {u : ItemId}
    {fixed : Option (ItemId × Relation)}
    {patch : Option (Chart → CandidateId → Chart)}
    (hpatch : Option.Rel (fun e f => ∀ c' x, Maintains c c' → Limited s room c' →
      Unwinds [.inform e.1 e.2 u x] c' (f c' x)) fixed patch)
    (pool : List CandidateId)
    (h : Maintains c c')
    (hc : Limited s room c') :
    Unwinds [.passOn u fixed pool] c' (passOnWith connect patch c' pool) := by
  induction pool generalizing c' fixed patch with
  | nil => exact .call rfl (.nil c')
  | cons x rest ih =>
    have hkept : Maintains c' (c'.settle x) := .of_items rfl rfl
    have hsettled : Limited s room (c'.settle x) := hc.keep hkept rfl
    refine .call rfl ?_
    simp only [Call.enter, passOnWith]
    split
    · cases hmark : (c'.candidate x).wrapper with
      | some a =>
        have hposted := admitWith_unwinds hconnect hsettled a
        exact hposted.append (ih hpatch ((h.trans hkept).trans hposted.maintains)
          (hposted.limited rfl hsettled))
      | none =>
        cases hpatch with
        | none => exact ih .none (h.trans hkept) hsettled
        | @some e f hf =>
          have hinform := hf _ x (h.trans hkept) hsettled
          exact hinform.append (ih .none ((h.trans hkept).trans hinform.maintains)
            (hinform.limited rfl hsettled))
    · exact ih hpatch h hc

/-- What an item gained goes up its tower; the induction is on the items above it. -/
theorem climbWith_unwinds
    (higher : List (ItemId × Relation))
    {u : ItemId}
    (hu : c.Tops u higher)
    (hc : Limited s room c) :
    Unwinds [.propagate u] c (climbWith connect higher c u) := by
  induction higher generalizing c u with
  | nil =>
    refine .call rfl ?_
    rw [Call.enter, show (c.item u).fixedParent = none from hu]
    exact passOnWith_unwinds hconnect .none _ (.refl c) hc
  | cons e higher ih =>
    obtain ⟨above, r⟩ := e
    refine .call rfl ?_
    rw [Call.enter, hu.1]
    refine passOnWith_unwinds hconnect (.some fun c₁ x h hc₁ => ?_) _ (.refl c) hc
    have hrefit := refit_maintains c₁ above r u x
    have hdepth := (refit_returns c₁ above r u x).depth
    refine .call rfl ?_
    rw [Call.enter]
    dsimp only
    generalize c₁.refit above r u x = result at hrefit hdepth ⊢
    obtain ⟨changed, c₂⟩ := result
    cases changed with
    | false => exact .nil c₂
    | true => exact ih ((h.trans hrefit).tops hu.2) (hc₁.keep hrefit hdepth)

theorem cascadeWith_unwinds
    (hc : Limited s room c)
    (u : ItemId) :
    Unwinds [.propagate u] c (cascadeWith connect c u) :=
  climbWith_unwinds hconnect _ (hc.rising.tops_tower (Nat.le_add_right _ _)) hc

end PassingOn

section Offering

/-- Informs the item above, and passes on what that one gained. -/
def informWith
    (connect : Connector)
    (c : Chart)
    (above : ItemId)
    (r : Relation)
    (u : ItemId)
    (newer : CandidateId) : Chart :=
  match c.refit above r u newer with
  | (true, c) => cascadeWith connect c above
  | (false, c) => c

/-- Offers a child that a placeholder has collected. -/
def takeChildWith
    (connect : Connector)
    (c : Chart)
    (u : ItemId)
    (s : SymbolId)
    (r : Relation)
    (x : CandidateId) : Chart :=
  match c.inheriting? u (c.candidate x).root s r with
  | none => c
  | some rule => (offerWith connect c u (c.candidate x).root rule).2

/-- Offers a child to the rest of its parents, and predicts one if none has taken it. -/
def tryParentsWith
    (connect : Connector)
    (c : Chart)
    (u : ItemId)
    (s : SymbolId)
    (wanted declared : Rule SymbolId)
    (parents : List ItemId)
    (taken : Bool) : Chart :=
  match parents.foldl (fun acc p =>
      match tryParentWith connect acc.2 u p s wanted.relation with
      | (taken, c) => (acc.1 || taken, c)) (taken, c) with
  | (true, c) => c
  | (false, c) => predictWith connect c u wanted.target declared

theorem offerWith_eq
    (connect : Connector)
    (c : Chart)
    (parent child : ItemId)
    (rule : Rule SymbolId) :
    offerWith connect c parent child rule =
      match c.offerHead parent child rule with
      | (true, c) => (true, cascadeWith connect c parent)
      | (false, c) => (false, c) := by
  unfold offerWith offerHead
  generalize c.detachAll child _ = result
  obtain ⟨outcome, c₁⟩ := result
  cases outcome with
  | error e => rfl
  | ok pair =>
    obtain ⟨existing, changed⟩ := pair
    dsimp only
    generalize c₁.stage rule [] _ = result
    obtain ⟨staged, c₂⟩ := result
    cases staged <;> rfl

theorem takeOverWith_eq
    (connect : Connector)
    (c : Chart)
    (u p : ItemId)
    (s : SymbolId) :
    takeOverWith connect c u p s =
      match (c.item p).pool.head? with
      | none => c
      | some x => (c.candidate x).slots.filled.foldl
          (fun c e => takeChildWith connect c u s e.1 e.2.child) c := by
  unfold takeOverWith
  cases (c.item p).pool.head? with
  | none => rfl
  | some x =>
    refine congrArg (fun step => List.foldl step c (c.candidate x).slots.filled)
      (funext fun c₁ => funext fun e => ?_)
    unfold takeChildWith inheriting?
    dsimp only
    split
    · rfl
    · cases (c₁.item (c₁.candidate e.2.child).root).symbol with
      | none => rfl
      | some d =>
        cases hrule : c₁.grammar.ruleFor? s e.1 d with
        | none => simp [hrule]
        | some rule =>
          cases hplaced : c₁.placed u (c₁.candidate e.2.child).root rule <;>
            simp [hrule, hplaced, Option.filter]

theorem tryParentWith_eq
    (connect : Connector)
    (c : Chart)
    (child p : ItemId)
    (s : SymbolId)
    (r : Relation) :
    tryParentWith connect c child p s r =
      match c.taking? child p s r with
      | none => (false, c)
      | some rule => offerWith connect c p child rule := by
  unfold tryParentWith taking?
  dsimp only
  split
  · rfl
  · cases (c.item p).symbol with
    | none => rfl
    | some q =>
      cases hrule : c.grammar.ruleFor? q r s with
      | none => simp [hrule]
      | some rule =>
        cases hplaced : c.placed p child rule <;> simp [hrule, hplaced, Option.filter]

theorem tryParentsWith_cons
    (connect : Connector)
    (c : Chart)
    (u : ItemId)
    (s : SymbolId)
    (wanted declared : Rule SymbolId)
    (p : ItemId)
    (rest : List ItemId)
    (taken : Bool) :
    tryParentsWith connect c u s wanted declared (p :: rest) taken =
      match c.taking? u p s wanted.relation with
      | none => tryParentsWith connect c u s wanted declared rest taken
      | some rule =>
        match c.offerHead p u rule with
        | (true, c) =>
          tryParentsWith connect (cascadeWith connect c p) u s wanted declared rest true
        | (false, c) => tryParentsWith connect c u s wanted declared rest taken := by
  unfold tryParentsWith
  rw [List.foldl_cons]
  dsimp only
  rw [tryParentWith_eq]
  cases c.taking? u p s wanted.relation with
  | none => simp only [Bool.or_false]
  | some rule =>
    dsimp only
    rw [offerWith_eq]
    generalize c.offerHead p u rule = result
    obtain ⟨produced, c₁⟩ := result
    cases produced <;> simp only [Bool.or_false, Bool.or_true]

variable (hconnect : Answers s room connect)
include hconnect

theorem informWith_unwinds
    (hc : Limited s room c)
    (above : ItemId)
    (r : Relation)
    (u : ItemId)
    (newer : CandidateId) :
    Unwinds [.inform above r u newer] c (informWith connect c above r u newer) := by
  have hrefit := refit_maintains c above r u newer
  have hdepth := (refit_returns c above r u newer).depth
  refine .call rfl ?_
  rw [Call.enter, informWith]
  generalize c.refit above r u newer = result at hrefit hdepth ⊢
  obtain ⟨changed, c₁⟩ := result
  cases changed with
  | false => exact .nil c₁
  | true => exact cascadeWith_unwinds hconnect (hc.keep hrefit hdepth) above

theorem offerWith_unwinds
    (hc : Limited s room c)
    (parent child : ItemId)
    (rule : Rule SymbolId) :
    Unwinds [.offer parent child rule] c (offerWith connect c parent child rule).2 := by
  obtain ⟨hmaintains, hdepth⟩ := offerHead_maintains c parent child rule
  refine .call rfl ?_
  rw [Call.enter, offerWith_eq]
  generalize c.offerHead parent child rule = result at hmaintains hdepth ⊢
  obtain ⟨produced, c₁⟩ := result
  cases produced with
  | false => exact .nil c₁
  | true => exact cascadeWith_unwinds hconnect (hc.keep hmaintains hdepth) parent

end Offering

section Fulfilling

variable (hconnect : Answers s room connect)
include hconnect

theorem takeChildWith_unwinds
    (hc : Limited s room c)
    (u : ItemId)
    (k : SymbolId)
    (r : Relation)
    (x : CandidateId) :
    Unwinds [.takeChild u k r x] c (takeChildWith connect c u k r x) := by
  refine .call rfl ?_
  rw [Call.enter, takeChildWith]
  cases c.inheriting? u (c.candidate x).root k r with
  | none => exact .nil c
  | some rule => exact offerWith_unwinds hconnect hc u _ rule

theorem takeOverWith_unwinds
    (hc : Limited s room c)
    (u p : ItemId)
    (k : SymbolId) :
    Unwinds [.takeOver u p k] c (takeOverWith connect c u p k) := by
  refine .call rfl ?_
  rw [Call.enter, takeOverWith_eq]
  cases (c.item p).pool.head? with
  | none => exact .nil c
  | some x =>
    exact .rounds (fun e : Relation × Slot => .takeChild u k e.1 e.2.child) _ (fun _ => rfl)
      (fun c₁ e hc₁ => takeChildWith_unwinds hconnect hc₁ u k e.1 e.2.child) _ hc

/-- Takes over from an item, if that is a placeholder for a level. -/
theorem fulfilFrom_unwinds
    (hc : Limited s room c)
    (u : ItemId)
    (level : SymbolId)
    (p : ItemId) :
    Unwinds [.fulfilFrom u level p] c
      (if p ≠ u && c.awaits p level then takeOverWith connect c u p level else c) := by
  refine .call rfl ?_
  rw [Call.enter]
  split
  · exact takeOverWith_unwinds hconnect hc u p level
  · exact .nil c

theorem fulfilLevel_unwinds
    (hc : Limited s room c)
    (u : ItemId)
    (level : SymbolId) :
    Unwinds [.fulfilLevel u level] c ((c.itemsOf level).foldl (fun c p =>
      if p ≠ u && c.awaits p level then takeOverWith connect c u p level else c) c) :=
  .call rfl (.rounds (.fulfilFrom u level) _ (fun _ => rfl)
    (fun _ p hc₁ => fulfilFrom_unwinds hconnect hc₁ u level p) _ hc)

theorem fulfilWith_unwinds
    (hc : Limited s room c)
    (u : ItemId)
    (k : SymbolId) :
    Unwinds [.fulfil u k] c (fulfilWith connect c u k) :=
  .call rfl (.rounds (.fulfilLevel u) _ (fun _ => rfl)
    (fun _ level hc₁ => fulfilLevel_unwinds hconnect hc₁ u level) _ hc)

end Fulfilling

section Seeking

variable (hconnect : Answers s room connect)
include hconnect

theorem implyWith_unwinds
    (hc : Limited s room c)
    (parent child : ItemId)
    (rule : Rule SymbolId) :
    Unwinds [.imply parent child rule] c (implyWith connect c parent child rule) := by
  have hstore := (Acts.store False c (z := Candidate.seed parent) rfl).1.maintains
  have hstored : Returns c (c.store (Candidate.seed parent)).2 := .store rfl
  refine .call rfl ?_
  rw [Call.enter, implyWith]
  generalize c.store (Candidate.seed parent) = result at hstore hstored ⊢
  obtain ⟨outcome, c₁⟩ := result
  cases outcome with
  | error e => exact .nil c₁
  | ok x =>
    have hseen := hc.keep (hstore.trans (.modifyItem (u := parent)
      (f := fun i => { i with pool := i.pool ++ [x], present := true }) rfl)) hstored.depth
    have hoffer := offerWith_unwinds hconnect hseen parent child rule
    exact hoffer.append (connect_register_unwinds hconnect (hoffer.limited rfl hseen) parent)

theorem predictWith_unwinds
    (hc : Limited s room c)
    (child : ItemId)
    (k : SymbolId)
    (rule : Rule SymbolId) :
    Unwinds [.predict child k rule] c (predictWith connect c child k rule) := by
  refine .call rfl ?_
  rw [Call.enter]
  rcases allocateItem_cases c with ⟨hroom, heq⟩ | heq
  · have hplaced : Maintains c (c.predicted child k) :=
      (predicted_acts False hroom (fun h => h.elim) child).1.maintains
    have hlimited : Limited s room (c.predicted child k) := hc.keep hplaced rfl
    rw [predictWith_eq connect heq, heq]
    dsimp only
    generalize c.predicted child k = c₁ at hlimited ⊢
    split
    · exact implyWith_unwinds hconnect hlimited c.nextItem child rule
    · generalize liftPool c.nextItem rule.relation c₁ _ = result
      exact register_unwinds _ c.nextItem
  · unfold predictWith
    rw [heq]
    exact .nil _

/-- Parents are tried one by one, and the call takes along whether one took the child. -/
theorem tryParentsWith_unwinds
    (u : ItemId)
    (k : SymbolId)
    (wanted declared : Rule SymbolId)
    (parents : List ItemId)
    (taken : Bool)
    (hc : Limited s room c) :
    Unwinds [.tryParents u k wanted declared parents taken] c
      (tryParentsWith connect c u k wanted declared parents taken) := by
  induction parents generalizing c taken with
  | nil =>
    refine .call rfl ?_
    cases taken with
    | false => exact predictWith_unwinds hconnect hc u wanted.target declared
    | true => exact .nil c
  | cons p rest ih =>
    refine .call rfl ?_
    rw [Call.enter, tryParentsWith_cons]
    cases c.taking? u p k wanted.relation with
    | none => exact ih taken hc
    | some rule =>
      obtain ⟨hmaintains, hdepth⟩ := offerHead_maintains c p u rule
      dsimp only
      generalize c.offerHead p u rule = result at hmaintains hdepth ⊢
      obtain ⟨produced, c₁⟩ := result
      have hlimited := hc.keep hmaintains hdepth
      cases produced with
      | false => exact ih taken hlimited
      | true =>
        have hcascade := cascadeWith_unwinds hconnect hlimited p
        exact hcascade.append (ih true (hcascade.limited rfl hlimited))

theorem seekParentWith_unwinds
    (hc : Limited s room c)
    (u : ItemId)
    (level : SymbolId)
    (wanted : Rule SymbolId) :
    Unwinds [.seekParent u level wanted] c (seekParentWith connect c u level wanted) := by
  refine .call rfl ?_
  rw [Call.enter, seekParentWith]
  cases (c.item u).symbol with
  | none => exact .nil c
  | some k =>
    cases c.grammar.ruleFor? wanted.target wanted.relation level with
    | none => exact .nil c
    | some declared => exact tryParentsWith_unwinds hconnect u k wanted declared _ false hc

theorem seekLevel_unwinds
    (hc : Limited s room c)
    (u : ItemId)
    (level : SymbolId) :
    Unwinds [.seekLevel u level] c ((c.parentRules level).foldl
      (fun c rule => seekParentWith connect c u level rule) c) :=
  .call rfl (.rounds (.seekParent u level) _ (fun _ => rfl)
    (fun _ rule hc₁ => seekParentWith_unwinds hconnect hc₁ u level rule) _ hc)

theorem seekParentsWith_unwinds
    (hc : Limited s room c)
    (u : ItemId)
    (k : SymbolId) :
    Unwinds [.seekParents u k] c (seekParentsWith connect c u k) :=
  .call rfl (.rounds (.seekLevel u) _ (fun _ => rfl)
    (fun _ level hc₁ => seekLevel_unwinds hconnect hc₁ u level) _ hc)

end Seeking

section Connecting

/-- A connection goes one level down, so its calls have one level less left. -/
theorem Limited.enter
    (hc : Limited s (room + 1) c) :
    Limited s room c.enter where
  rising := (Maintains.of_items rfl rfl).rising hc.rising
  settings := hc.settings
  room := by
    have hroom := hc.room
    show s.maxDepth ≤ c.depth + 1 + room
    omega

theorem connectBody_unwinds
    (hconnect : Answers s room connect)
    (hc : Limited s room c)
    (u : ItemId)
    (k : Symbol)
    (hkind : c.grammar.kind ≠ .positional) :
    Unwinds ((if k.hasRules then [Call.fulfil u k.id] else []) ++ [.seekParents u k.id]) c
      (connectBody connect c u k) := by
  rw [connectBody, if_neg hkind]
  cases k.hasRules with
  | false => exact seekParentsWith_unwinds hconnect hc u k.id
  | true =>
    have hfulfil := fulfilWith_unwinds hconnect hc u k.id
    exact hfulfil.append (seekParentsWith_unwinds hconnect (hfulfil.limited rfl hc) u k.id)

/-- The body of a connection is unwound one level further down, and left again. -/
theorem connectBody_leave_unwinds
    (hconnect : Answers s room connect)
    (hc : Limited s room c)
    (hdepth : 0 < c.depth)
    (u : ItemId)
    (k : Symbol)
    (hkind : c.grammar.kind ≠ .positional) :
    Unwinds ((if k.hasRules then [Call.fulfil u k.id] else []) ++ [.seekParents u k.id, .leave]) c
      (connectBody connect c u k).leave := by
  have hbody := connectBody_unwinds hconnect hc u k hkind
  have hflat : ((if k.hasRules then [Call.fulfil u k.id] else []) ++
      [Call.seekParents u k.id]).countP Call.isLeave = 0 := by
    cases k.hasRules <;> rfl
  have hkept := hbody.depth
  rw [hflat] at hkept
  rw [List.append_cons]
  exact hbody.append (.leave (Nat.lt_of_lt_of_eq hdepth hkept.symm))

/-- The induction is on the levels that are left; at the greatest depth nothing is called. -/
theorem connectWithin_unwinds (s : Settings) (room : Nat) :
    Answers s room (connectWithin room) := by
  induction room with
  | zero =>
    intro c u hc
    have hdeep : c.settings.maxDepth ≤ c.depth := by
      rw [hc.settings]
      exact hc.room
    refine .call rfl ?_
    rw [Call.enter, connectWithin]
    cases c.connectable? u with
    | none => exact .nil c
    | some k =>
      simp only [if_pos hdeep]
      exact .nil _
  | succ room ih =>
    intro c u hc
    refine .call rfl ?_
    rw [Call.enter, connectWithin]
    cases c.connectable? u with
    | none => exact .nil c
    | some k =>
      by_cases hdeep : c.settings.maxDepth ≤ c.depth
      · simp only [if_pos hdeep]
        exact .nil _
      · simp only [if_neg hdeep]
        by_cases hkind : c.grammar.kind = .positional
        · simp only [if_pos hkind]
          rw [connectBody, if_pos (show c.enter.grammar.kind = .positional from hkind)]
          refine .leave ?_
          rw [(chain_returns c.enter u).depth]
          exact Nat.succ_pos _
        · simp only [if_neg hkind]
          exact connectBody_leave_unwinds ih hc.enter (Nat.succ_pos _) u k hkind

/-- The chart cuts off before the room for connections does. -/
theorem connect_unwinds (s : Settings) :
    Answers s s.maxDepth Chart.connect := by
  intro c u hc
  rw [Chart.connect, hc.settings]
  exact connectWithin_unwinds s s.maxDepth c u hc

end Connecting

end Chart

namespace Call

open Chart

/-- What a call does, with connections made by `connect`. -/
def resultWith (connect : Connector) (c : Chart) : Call → Chart
  | .connect u => connect c u
  | .leave => c.leave
  | .fulfil u s => fulfilWith connect c u s
  | .fulfilLevel u level =>
    (c.itemsOf level).foldl (fun c p =>
      if p ≠ u && c.awaits p level then takeOverWith connect c u p level else c) c
  | .fulfilFrom u level p =>
    if p ≠ u && c.awaits p level then takeOverWith connect c u p level else c
  | .takeOver u p s => takeOverWith connect c u p s
  | .takeChild u s r x => takeChildWith connect c u s r x
  | .seekParents u s => seekParentsWith connect c u s
  | .seekLevel u level =>
    (c.parentRules level).foldl (fun c rule => seekParentWith connect c u level rule) c
  | .seekParent u level rule => seekParentWith connect c u level rule
  | .tryParents u s wanted declared parents taken =>
    tryParentsWith connect c u s wanted declared parents taken
  | .predict child s rule => predictWith connect c child s rule
  | .imply parent child rule => implyWith connect c parent child rule
  | .offer parent child rule => (offerWith connect c parent child rule).2
  | .propagate u => cascadeWith connect c u
  | .passOn u fixed pool =>
    passOnWith connect
      (fixed.map fun e c newer => informWith connect c e.1 e.2 u newer) c pool
  | .introduce a => admitWith connect c a
  | .inform above r u newer => informWith connect c above r u newer
  | .register u => c.register u
  | .post u =>
    if c.inBudget then (connect c u).register u
    else (c.count fun t => { t with overBudget := true }).register u

variable {s : Settings} {room : Nat} {connect : Connector} {c : Chart}

/-- Every call goes from the stack again, and has then done what its operation does. -/
theorem unwinds
    (hconnect : Answers s room connect)
    (hc : Limited s room c)
    (call : Call)
    (hcall : call.isLeave = false) :
    Unwinds [call] c (call.resultWith connect c) := by
  cases call with
  | leave => cases hcall
  | connect u => exact hconnect c u hc
  | fulfil u k => exact fulfilWith_unwinds hconnect hc u k
  | fulfilLevel u level => exact fulfilLevel_unwinds hconnect hc u level
  | fulfilFrom u level p => exact fulfilFrom_unwinds hconnect hc u level p
  | takeOver u p k => exact takeOverWith_unwinds hconnect hc u p k
  | takeChild u k r x => exact takeChildWith_unwinds hconnect hc u k r x
  | seekParents u k => exact seekParentsWith_unwinds hconnect hc u k
  | seekLevel u level => exact seekLevel_unwinds hconnect hc u level
  | seekParent u level rule => exact seekParentWith_unwinds hconnect hc u level rule
  | tryParents u k wanted declared parents taken =>
    exact tryParentsWith_unwinds hconnect u k wanted declared parents taken hc
  | predict child k rule => exact predictWith_unwinds hconnect hc child k rule
  | imply parent child rule => exact implyWith_unwinds hconnect hc parent child rule
  | offer parent child rule => exact offerWith_unwinds hconnect hc parent child rule
  | propagate u => exact cascadeWith_unwinds hconnect hc u
  | passOn u fixed pool =>
    refine passOnWith_unwinds hconnect ?_ pool (.refl c) hc
    cases fixed with
    | none => exact .none
    | some e => exact .some fun c₁ x _ hc₁ => informWith_unwinds hconnect hc₁ e.1 e.2 u x
  | introduce a => exact admitWith_unwinds hconnect hc a
  | inform above r u newer => exact informWith_unwinds hconnect hc above r u newer
  | register u => exact register_unwinds c u
  | post u =>
    refine .call rfl ?_
    rw [enter, resultWith]
    cases c.inBudget with
    | true => exact connect_register_unwinds hconnect hc u
    | false => exact register_unwinds _ u

end Call

end BeamChart
