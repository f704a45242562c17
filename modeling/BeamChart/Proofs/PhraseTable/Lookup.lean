import BeamChart.PhraseTable.Lookup
import BeamChart.Proofs.Chart.Sight
import BeamChart.Proofs.PhraseTable.Record

/-!
# What a lookup sights

`sightings` is the list of tokens that a lookup has to enter, read off the
offers alone: start by start, and from each start run by run, the shortest run
first. The table is not consulted for it, so nothing in it depends on
addresses, on cells, or on where a reading of the table ends early.

`scan_finds` says that reading the table from one start sights exactly these
tokens, and `scanAll_finds` goes on from start to start.
-/

namespace BeamChart

section Reference

variable (radix : Nat) (offers : List Phrase)

/-- What a run of atoms is sighted as: one token over the run for each of its meanings. -/
def phrasesOver (position : Nat) (run : List Token) : List Token :=
  match run.getLast? with
  | none => []
  | some last =>
    (recordedFor radix offers (run.map Token.concept)).map fun m =>
      { concept := m.symbol
        position
        extent := last.stop - position
        context := m.context }

/-- The phrases that begin with the first atom, the shortest first. -/
def phrasesAt : List Token → List Token
  | [] => []
  | first :: rest => (first :: rest).inits.flatMap (phrasesOver radix offers first.position)

/-- The unrecognized token over an atom. -/
def gapOver (atom : Token) : Token :=
  { concept := unrecognized, position := atom.position, extent := atom.extent }

/-- What atoms are sighted as; a start that no phrase begins with gives a gap. -/
def sightings : List Token → List Token
  | [] => []
  | first :: rest =>
    (if phrasesAt radix offers (first :: rest) = [] then [gapOver first]
      else phrasesAt radix offers (first :: rest)) ++ sightings rest

/-- The phrases that a run is continued to, the shortest first. -/
def phrasesBeyond (position : Nat) : (run : List Token) → List Token → List Token
  | _, [] => []
  | run, atom :: rest =>
    phrasesOver radix offers position (run ++ [atom]) ++ phrasesBeyond position (run ++ [atom]) rest

end Reference

section Runs

variable {radix position : Nat} {offers : List Phrase} {run rest : List Token} {atom : Token}

@[simp] theorem phrasesOver_nil :
    phrasesOver radix offers position [] = [] := rfl

theorem phrasesOver_of_not_spelled
    (h : ¬ Spelled radix (run.map Token.concept)) :
    phrasesOver radix offers position run = [] := by
  unfold phrasesOver
  split
  · rfl
  · rw [recordedFor, if_neg h, List.map_nil]

theorem flatMap_inits (run rest : List Token) :
    rest.inits.flatMap (fun more => phrasesOver radix offers position (run ++ more)) =
      phrasesOver radix offers position run ++ phrasesBeyond radix offers position run rest := by
  induction rest generalizing run with
  | nil => simp [phrasesBeyond]
  | cons atom rest ih =>
    have hbeyond := ih (run ++ [atom])
    simp only [List.append_assoc, List.singleton_append] at hbeyond
    simp [phrasesBeyond, List.flatMap_map, hbeyond]

theorem phrasesAt_cons (first : Token) (rest : List Token) :
    phrasesAt radix offers (first :: rest) =
      phrasesBeyond radix offers first.position [] (first :: rest) := by
  have hruns : (first :: rest).inits.flatMap
      (fun more => phrasesOver radix offers first.position ([] ++ more)) = _ :=
    flatMap_inits [] (first :: rest)
  rw [phrasesOver_nil] at hruns
  exact hruns

/-- A run that no phrase begins with is continued to none. -/
theorem phrasesBeyond_eq_nil
    (h : ∀ more, phrasesOver radix offers position (run ++ more) = [])
    (rest : List Token) :
    phrasesBeyond radix offers position run rest = [] := by
  induction rest generalizing run with
  | nil => rfl
  | cons atom rest ih =>
    have hmore : ∀ more, phrasesOver radix offers position (run ++ [atom] ++ more) = [] := by
      intro more
      simpa using h (atom :: more)
    simp [phrasesBeyond, h, ih hmore]

end Runs

namespace Scan

variable {s s₁ s₂ : Scan} {t : Token} {tokens more : List Token}

/-- What is counted while some tokens of one start are sighted. -/
structure Counts (s : Scan) (tokens : List Token) (s₁ : Scan) : Prop where
  items : s₁.counts.items = s.counts.items + tokens.length
  hits : s₁.counts.hits + s.hit.toNat = s.counts.hits + s₁.hit.toNat
  misses : s₁.counts.misses = s.counts.misses
  hit : s₁.hit = (s.hit || !tokens.isEmpty)

/-- A reading sights the tokens of one start, or it stops among them. -/
def Finds (s : Scan) (tokens : List Token) : Except ChartError Unit × Scan → Prop
  | (.ok _, s₁) => s.chart.Sights tokens s₁.chart ∧ s.Counts tokens s₁
  | (.error e, s₁) => (∃ reserve, e = .exhausted reserve) ∧ s.chart.Stops tokens s₁.chart

theorem finds_nil (s : Scan) :
    s.Finds [] (.ok (), s) :=
  ⟨.none, by constructor <;> simp⟩

theorem Counts.trans
    (h : s.Counts tokens s₁)
    (h' : s₁.Counts more s₂) :
    s.Counts (tokens ++ more) s₂ where
  items := by
    rw [h'.items, h.items, List.length_append, Nat.add_assoc]
  hits := by
    have := h.hits
    have := h'.hits
    omega
  misses := h'.misses.trans h.misses
  hit := by
    rw [h'.hit, h.hit]
    cases tokens <;> simp

theorem Finds.append
    {result : Except ChartError Unit × Scan}
    (hsights : s.chart.Sights tokens s₁.chart)
    (hcounts : s.Counts tokens s₁)
    (h : s₁.Finds more result) :
    s.Finds (tokens ++ more) result := by
  obtain ⟨outcome, s₂⟩ := result
  cases outcome with
  | ok _ => exact ⟨hsights.trans h.1, hcounts.trans h.2⟩
  | error e => exact ⟨h.1, hsights.stops h.2⟩

/-- What is sighted first goes before what is sighted then. -/
theorem Finds.bind
    {result : Except ChartError Unit × Scan}
    {next : Scan → Except ChartError Unit × Scan} :
    s.Finds tokens result → (∀ s : Scan, s.Finds more (next s)) →
      s.Finds (tokens ++ more)
        (match result with
        | (.error e, s) => (.error e, s)
        | (.ok _, s) => next s) := by
  intro h hnext
  obtain ⟨outcome, s₁⟩ := result
  cases outcome with
  | ok _ => exact .append h.1 h.2 (hnext s₁)
  | error e => exact ⟨h.1, h.2.append more⟩

/-- A token is sighted and counted, or its item is cut. -/
theorem place_cases
    (s : Scan)
    {symbol : Option SymbolId}
    (hsymbol : symbol.filter (fun s => s ≠ unrecognized) = t.symbol?) :
    s.place symbol t =
      (.ok (),
        { s with
          chart := s.chart.sight t
          counts := { s.counts with items := s.counts.items + 1 } }) ∨
    ∃ reserve c, s.place symbol t = (.error (.exhausted reserve), { s with chart := c }) ∧
      s.chart.Cut c := by
  unfold place
  rcases s.chart.makeItem_cases hsymbol with heq | ⟨reserve, c, heq, hcut⟩
  · left
    rw [heq]
    rfl
  · right
    rw [heq]
    exact ⟨reserve, c, rfl, hcut⟩

theorem sights_countHit
    {c : Chart}
    (h : c.Sights tokens s.chart) :
    c.Sights tokens s.countHit.chart := by
  unfold countHit
  split
  · exact h
  · exact h.count (s.chart.tally.tableHits + 1) s.chart.tally.tableMisses

theorem sights_countMiss
    {c : Chart}
    (h : c.Sights tokens s.chart) :
    c.Sights tokens s.countMiss.chart :=
  h.count s.chart.tally.tableHits (s.chart.tally.tableMisses + 1)

/-- The meanings of a run are sighted one after another. -/
theorem placeAll_finds
    (position extent : Nat)
    (meanings : List Meaning)
    (s : Scan) :
    s.Finds
      (meanings.map fun m =>
        { concept := m.symbol, position, extent, context := m.context : Token })
      (placeAll position extent meanings s) := by
  induction meanings generalizing s with
  | nil => exact s.finds_nil
  | cons m rest ih =>
    let t : Token := { concept := m.symbol, position, extent, context := m.context }
    have hsymbol : (some m.symbol).filter (fun s => s ≠ unrecognized) = t.symbol? := rfl
    simp only [placeAll, List.map_cons]
    rcases s.place_cases hsymbol with heq | ⟨reserve, c, heq, hcut⟩
    · rw [heq]
      let s₁ : Scan :=
        { s with
          chart := s.chart.sight t
          counts := { s.counts with items := s.counts.items + 1 } }
      have hsights : s.chart.Sights [t] s₁.countHit.chart :=
        sights_countHit (.sight .none t)
      have hcounts : s.Counts [t] s₁.countHit := by
        unfold countHit
        constructor <;> simp [s₁] <;> cases s.hit <;> simp
      exact Finds.append hsights hcounts (ih s₁.countHit)
    · rw [heq]
      exact ⟨⟨reserve, rfl⟩, hcut.stops t _⟩

end Scan

namespace PhraseTable

variable
  {g q : Grammar}
  {settings : TableSettings}
  {t : PhraseTable}
  {offers : List Phrase}
  {position : Nat}
  {run : List Token}

/-- Behind its first id that is not accepted, no sequence is spelled. -/
theorem phrasesOver_of_not_accepted
    {atom : Token}
    {radix : Nat}
    (h : ¬ (0 < atom.concept ∧ atom.concept < radix))
    (more : List Token) :
    phrasesOver radix offers position (run ++ [atom] ++ more) = [] := by
  refine phrasesOver_of_not_spelled fun hspelled => ?_
  exact h (hspelled.2 atom.concept (by simp))

/-- A run is sighted as its meanings in the table. -/
theorem Holds.phrasesOver_eq
    (h : Holds g q settings offers t)
    {atom : Token}
    (hspelled : Spelled q.size ((run ++ [atom]).map Token.concept)) :
    phrasesOver q.size offers position (run ++ [atom]) =
      ((t.cell (t.addressOf ((run ++ [atom]).map Token.concept))).meanings
        (((run ++ [atom]).map Token.concept).drop t.depth)).map fun m =>
          { concept := m.symbol
            position
            extent := atom.stop - position
            context := m.context } := by
  rw [h.meanings _ hspelled]
  rw [phrasesOver, List.getLast?_concat, recordedFor, if_pos hspelled]

/-- No longer sequence can be found behind a cursor. -/
def DeadEnd (t : PhraseTable) (k : Cursor) : Prop :=
  match t.cellAt k.address with
  | none => t.depth ≤ k.offset
  | some c => c.reach < k.tail.length

theorem scan_of_deadEnd
    {k : Cursor}
    {atom : Token}
    (haccepts : t.accepts atom.concept = true)
    (hdead : t.DeadEnd (k.advance t.radix t.depth atom.concept))
    (rest : List Token)
    (s : Scan) :
    t.scan position k (atom :: rest) s = (.ok (), s) := by
  unfold DeadEnd at hdead
  rw [scan, if_pos haccepts]
  dsimp only
  cases hcell : t.cellAt (k.advance t.radix t.depth atom.concept).address with
  | none =>
    rw [hcell] at hdead
    exact if_pos hdead
  | some c =>
    rw [hcell] at hdead
    exact if_pos hdead

theorem scan_of_not_deadEnd
    {k : Cursor}
    {atom : Token}
    (haccepts : t.accepts atom.concept = true)
    (halive : ¬ t.DeadEnd (k.advance t.radix t.depth atom.concept))
    (rest : List Token)
    (s : Scan) :
    t.scan position k (atom :: rest) s =
      match Scan.placeAll position (atom.stop - position)
        ((t.cell (k.advance t.radix t.depth atom.concept).address).meanings
          (k.advance t.radix t.depth atom.concept).tail) s with
      | (.error e, s) => (.error e, s)
      | (.ok _, s) => t.scan position (k.advance t.radix t.depth atom.concept) rest s := by
  rw [scan]
  unfold DeadEnd at halive
  simp only [haccepts, if_true, cell]
  split at halive <;> rename_i hcell <;> simp only [hcell, halive, if_false]
  · rfl
  · rename_i c
    simp only [Option.getD_some, Cell.meanings]
    cases c.find? (k.advance t.radix t.depth atom.concept).tail with
    | none => rfl
    | some e => rfl

/-- Behind a dead end stand no phrases, neither over the run nor over longer ones. -/
theorem Holds.phrases_of_deadEnd
    (h : Holds g q settings offers t)
    (position : Nat)
    (hdead : t.DeadEnd (Cursor.ofList t.radix t.depth (run.map Token.concept)))
    (rest : List Token) :
    phrasesOver q.size offers position run = [] ∧
      phrasesBeyond q.size offers position run rest = [] := by
  -- the digits have all been read, so longer runs stay in the cell of this one
  have hcell : t.depth ≤ (run.map Token.concept).length ∧ ∀ more : List SymbolId,
      (t.cell (t.addressOf (run.map Token.concept))).meanings
        ((run.map Token.concept).drop t.depth ++ more) = [] := by
    have hformed := h.formed (t.addressOf (run.map Token.concept))
    simp only [DeadEnd, Cursor.address_ofList, Cursor.offset_ofList, Cursor.tail_ofList] at hdead
    simp only [cell, addressOf] at hformed ⊢
    generalize run.map Token.concept = ids at hdead hformed ⊢
    split at hdead
    · rename_i hnone
      exact ⟨hdead, fun more => by rw [hnone]; rfl⟩
    · rename_i c hsome
      rw [hsome, Option.getD_some] at hformed
      rw [hsome, Option.getD_some]
      refine ⟨?_, fun more => hformed.meanings_of_reach_lt ?_⟩
      · rw [List.length_drop] at hdead
        omega
      · rw [List.length_append]
        omega
  have hlonger : ∀ more, phrasesOver q.size offers position (run ++ more) = [] := by
    intro more
    by_cases hspelled : Spelled q.size ((run ++ more).map Token.concept)
    · have haddress : t.addressOf ((run ++ more).map Token.concept) =
          t.addressOf (run.map Token.concept) := by
        rw [List.map_append]
        exact address_append_of_le hcell.1
      have hmeanings := h.meanings _ hspelled
      rw [haddress, List.map_append, List.drop_append_of_le_length hcell.1, hcell.2,
        ← List.map_append] at hmeanings
      unfold phrasesOver
      split
      · rfl
      · rw [recordedFor, if_pos hspelled, ← hmeanings, List.map_nil]
    · exact phrasesOver_of_not_spelled hspelled
  exact ⟨by simpa using hlonger [], phrasesBeyond_eq_nil hlonger rest⟩

/-- Reading on from a run sights the phrases that the run is continued to. -/
theorem Holds.scan_finds
    (h : Holds g q settings offers t)
    (position : Nat)
    (run rest : List Token)
    (hrun : ∀ id : Nat, id ∈ run.map Token.concept → 0 < id ∧ id < q.size)
    (s : Scan) :
    s.Finds (phrasesBeyond q.size offers position run rest)
      (t.scan position (Cursor.ofList t.radix t.depth (run.map Token.concept)) rest s) := by
  induction rest generalizing run s with
  | nil => exact s.finds_nil
  | cons atom rest ih =>
    rw [phrasesBeyond]
    by_cases haccepts : t.accepts atom.concept = true
    · have hrun' : ∀ id : Nat, id ∈ (run ++ [atom]).map Token.concept → 0 < id ∧ id < q.size := by
        intro id hid
        rw [List.map_append, List.mem_append] at hid
        rcases hid with hid | hid
        · exact hrun id hid
        · obtain rfl := List.mem_singleton.1 hid
          exact h.radix ▸ accepts_iff.1 haccepts
      have hadvance :
          (Cursor.ofList t.radix t.depth (run.map Token.concept)).advance t.radix t.depth
            atom.concept = Cursor.ofList t.radix t.depth ((run ++ [atom]).map Token.concept) := by
        rw [List.map_append, ← Cursor.ofList_append]
        rfl
      by_cases hdead :
          t.DeadEnd (Cursor.ofList t.radix t.depth ((run ++ [atom]).map Token.concept))
      · obtain ⟨hover, hbeyond⟩ := h.phrases_of_deadEnd position hdead rest
        rw [scan_of_deadEnd haccepts (hadvance ▸ hdead), hover, hbeyond]
        exact s.finds_nil
      · rw [scan_of_not_deadEnd haccepts (hadvance ▸ hdead), hadvance, Cursor.address_ofList,
          Cursor.tail_ofList, h.phrasesOver_eq ⟨by simp, hrun'⟩]
        exact (Scan.placeAll_finds ..).bind (ih (run ++ [atom]) hrun')
    · have hend : t.scan position (Cursor.ofList t.radix t.depth (run.map Token.concept))
          (atom :: rest) s = (.ok (), s) := by
        rw [scan, if_neg haccepts]
      rw [accepts_iff, h.radix] at haccepts
      have hlonger : ∀ more, phrasesOver q.size offers position (run ++ [atom] ++ more) = [] :=
        phrasesOver_of_not_accepted haccepts
      have hover : phrasesOver q.size offers position (run ++ [atom]) = [] := by
        simpa using hlonger []
      rw [hend, hover, phrasesBeyond_eq_nil hlonger]
      exact s.finds_nil

end PhraseTable

end BeamChart
