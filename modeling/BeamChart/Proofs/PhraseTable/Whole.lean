import BeamChart.Proofs.PhraseTable.Lookup
import Mathlib.Data.List.Infix

/-!
# Sightings over a whole list

Where atoms follow one another by their positions and by their stops, a
sighting tells its run by where it starts and ends: what has a symbol and
reaches from the first position to the last stop is a phrase over all atoms
(`mem_sightings_whole`).
-/

namespace BeamChart

variable
  {radix position : Nat}
  {offers : List Phrase}
  {first last t : Token}
  {run rest atoms : List Token}

/-- Atoms in the order of their positions and of their stops. -/
structure Follow (atoms : List Token) : Prop where
  positions : (atoms.map Token.position).Pairwise (· < ·)
  stops : (atoms.map Token.stop).Pairwise (· < ·)

theorem mem_phrasesOver
    (hlast : run.getLast? = some last) :
    t ∈ phrasesOver radix offers position run ↔
      ∃ m ∈ recordedFor radix offers (run.map Token.concept),
        t = { concept := m.symbol
              position
              extent := last.stop - position
              context := m.context } := by
  rw [phrasesOver, hlast]
  simp [eq_comm]

theorem exists_run_of_mem_phrasesAt
    (h : t ∈ phrasesAt radix offers (first :: rest)) :
    ∃ run, run <+: first :: rest ∧ t ∈ phrasesOver radix offers first.position run := by
  obtain ⟨run, hrun, ht⟩ := List.mem_flatMap.1 h
  exact ⟨run, (List.mem_inits _ _).1 hrun, ht⟩

theorem position_of_mem_phrasesOver
    (h : t ∈ phrasesOver radix offers position run) :
    t.position = position := by
  cases hlast : run.getLast? with
  | none => simp [phrasesOver, hlast] at h
  | some last =>
    obtain ⟨m, -, rfl⟩ := (mem_phrasesOver hlast).1 h
    rfl

/-- A sighting starts at an atom. -/
theorem exists_position_of_mem_sightings
    (h : t ∈ sightings radix offers atoms) :
    ∃ a ∈ atoms, t.position = a.position := by
  induction atoms with
  | nil => simp [sightings] at h
  | cons first rest ih =>
    rcases List.mem_append.1 h with hfirst | hrest
    · refine ⟨first, by simp, ?_⟩
      split at hfirst
      · obtain rfl := List.mem_singleton.1 hfirst
        rfl
      · obtain ⟨run, -, ht⟩ := exists_run_of_mem_phrasesAt hfirst
        exact position_of_mem_phrasesOver ht
    · obtain ⟨a, ha, hposition⟩ := ih hrest
      exact ⟨a, by simp [ha], hposition⟩

/-- A part from the start that ends where the atoms end is all of them. -/
theorem Follow.eq_of_stop_eq
    (h : Follow atoms)
    {end' : Token}
    (hrun : run <+: atoms)
    (hend : run.getLast? = some end')
    (hlast : atoms.getLast? = some last)
    (hstop : end'.stop = last.stop) :
    run = atoms := by
  obtain ⟨more, rfl⟩ := hrun
  by_contra hne
  have hmore : more ≠ [] := by
    rintro rfl
    simp at hne
  have hmem : last ∈ more := by
    rw [List.getLast?_append_of_ne_nil _ hmore] at hlast
    exact List.mem_of_getLast? hlast
  have hbefore : end' ∈ run := List.mem_of_getLast? hend
  have hstops := h.stops
  rw [List.map_append, List.pairwise_append] at hstops
  have := hstops.2.2 _ (List.mem_map_of_mem hbefore) _ (List.mem_map_of_mem hmem)
  omega

/-- The last of some atoms stops behind the first position. -/
theorem Follow.le_stop
    (h : Follow (first :: rest))
    {a : Token}
    (ha : a ∈ first :: rest) :
    first.stop ≤ a.stop := by
  rcases List.mem_cons.1 ha with rfl | hrest
  · exact Nat.le_refl _
  · have hstops := h.stops
    rw [List.map_cons, List.pairwise_cons] at hstops
    exact Nat.le_of_lt (hstops.1 _ (List.mem_map_of_mem hrest))

/-- A sighting with a symbol from the first position to the last stop is a phrase over all. -/
theorem mem_sightings_whole
    (h : Follow (first :: rest))
    (hlast : (first :: rest).getLast? = some last)
    (hsymbol : t.symbol? ≠ none) :
    (t ∈ sightings radix offers (first :: rest) ∧ t.position = first.position ∧
        t.stop = last.stop) ↔
      t ∈ phrasesOver radix offers first.position (first :: rest) := by
  have hreach : ∀ a ∈ first :: rest, first.position + (a.stop - first.position) = a.stop := by
    intro a ha
    have := h.le_stop ha
    simp only [Token.stop] at this ⊢
    omega
  constructor
  · rintro ⟨hmem, hposition, hstop⟩
    rcases List.mem_append.1 hmem with hfirst | hrest
    · split at hfirst
      · obtain rfl := List.mem_singleton.1 hfirst
        exact absurd rfl hsymbol
      · obtain ⟨run, hrun, ht⟩ := exists_run_of_mem_phrasesAt hfirst
        cases hend : run.getLast? with
        | none => simp [phrasesOver, hend] at ht
        | some end' =>
          obtain ⟨m, -, heq⟩ := (mem_phrasesOver hend).1 ht
          have hstop' : end'.stop = last.stop := by
            rw [← hstop, heq]
            exact (hreach end' (hrun.subset (List.mem_of_getLast? hend))).symm
          rwa [h.eq_of_stop_eq hrun hend hlast hstop'] at ht
    · obtain ⟨a, ha, hsame⟩ := exists_position_of_mem_sightings hrest
      have hpositions := h.positions
      rw [List.map_cons, List.pairwise_cons] at hpositions
      have := hpositions.1 _ (List.mem_map_of_mem ha)
      omega
  · intro ht
    have hphrase : t ∈ phrasesAt radix offers (first :: rest) :=
      List.mem_flatMap.2 ⟨first :: rest, (List.mem_inits _ _).2 List.prefix_rfl, ht⟩
    refine ⟨List.mem_append_left _ ?_, position_of_mem_phrasesOver ht, ?_⟩
    · rwa [if_neg (List.ne_nil_of_mem hphrase)]
    · obtain ⟨m, -, rfl⟩ := (mem_phrasesOver hlast).1 ht
      exact hreach last (List.mem_of_getLast? hlast)

end BeamChart
