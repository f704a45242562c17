import BeamChart.Proofs.Grammar.Built
import Mathlib.Data.List.Chain
import Mathlib.Data.List.Nodup
import Mathlib.Data.List.Perm.Subperm
import Mathlib.Logic.Relation

/-!
# The line of superclasses

The ancestry of a symbol is its line of superclasses: it starts with the symbol, each symbol of
it is the superclass of the one before, and none is met twice (`ancestry_is_line`).

A climb is limited to as many symbols as the grammar has. `Walks` is a climb without this limit;
it stops at the end of the line, or where the line comes back to itself. With room for all
symbols the climb is not cut off before (`Climbed.walks`), since it would have to pass more
symbols than there are. So what a climb comes to is told of walks, for a line that ends and for
one that runs into a circle.
-/

namespace BeamChart

namespace Grammar

variable {d : Declaration} {g : Grammar} {a b : SymbolId} {seen line : List SymbolId}
  {next : Option SymbolId}

/-- The second symbol is the superclass of the first one. -/
def Below (g : Grammar) (a b : SymbolId) : Prop :=
  g.superclass? a = some b

/-- Steps from superclass to superclass lead from the first symbol to the second one. -/
def Descends (g : Grammar) (a b : SymbolId) : Prop :=
  Relation.ReflTransGen g.Below a b

/--
A climb with no limit, from the symbols that have been seen to the whole line. It stops where
there is no next symbol, or where the next one has been seen.
-/
inductive Walks (g : Grammar) : List SymbolId → Option SymbolId → List SymbolId → Prop
  | top
      (seen : List SymbolId) :
      Walks g seen none seen
  | back
      {seen : List SymbolId} {a : SymbolId}
      (hseen : a ∈ seen) :
      Walks g seen (some a) seen
  | step
      {seen line : List SymbolId} {a : SymbolId}
      (hnew : a ∉ seen)
      (h : Walks g (seen ++ [a]) (g.superclass? a) line) :
      Walks g seen (some a) line

namespace Walks

/-- What has been seen is where the line begins. -/
theorem seen_prefix
    (h : g.Walks seen next line) :
    seen <+: line := by
  induction h with
  | top => exact List.prefix_rfl
  | back => exact List.prefix_rfl
  | step _ _ ih => exact (List.prefix_append _ _).trans ih

/-- A walk that has seen nothing enters its first symbol. -/
theorem head?
    (h : g.Walks [] (some a) line) :
    line.head? = some a := by
  cases h with
  | back hseen => cases hseen
  | step _ hrest =>
    obtain ⟨rest, rfl⟩ := hrest.seen_prefix
    rfl

/-- No symbol is entered twice. -/
theorem nodup
    (h : g.Walks seen next line)
    (hseen : seen.Nodup) :
    line.Nodup := by
  induction h with
  | top => exact hseen
  | back => exact hseen
  | step hnew _ ih => exact ih (List.concat_eq_append ▸ hseen.concat hnew)

/-- Each symbol that is entered is the superclass of the one before. -/
theorem isChain
    (h : g.Walks seen next line)
    (hseen : seen.IsChain g.Below)
    (hnext : ∀ x ∈ seen.getLast?, g.superclass? x = next) :
    line.IsChain g.Below := by
  induction h with
  | top => exact hseen
  | back => exact hseen
  | step _ _ ih =>
    refine ih (List.isChain_append.2 ⟨hseen, .singleton _, fun x hx y hy => ?_⟩) fun x hx => ?_
    · rw [List.head?_singleton, Option.mem_some_iff] at hy
      rw [Below, hnext x hx, hy]
    · rw [List.getLast?_append, List.getLast?_singleton, Option.some_or, Option.mem_some_iff] at hx
      rw [hx]

/-- What is entered lies above the next symbol. -/
theorem descends
    (h : g.Walks seen next line)
    (hb : b ∈ line) :
    b ∈ seen ∨ ∃ a, next = some a ∧ g.Descends a b := by
  induction h with
  | top => exact Or.inl hb
  | back => exact Or.inl hb
  | @step seen line a _ _ ih =>
    rcases ih hb with hmem | ⟨above, habove, hdescends⟩
    · rcases List.mem_append.1 hmem with hold | hlast
      · exact Or.inl hold
      · rw [List.mem_singleton.1 hlast]
        exact Or.inr ⟨a, rfl, .refl⟩
    · exact Or.inr ⟨a, rfl, .head habove hdescends⟩

/-- At the end of a walk, the superclasses of what has been seen have been seen. -/
theorem closed
    (h : g.Walks seen next line)
    (hseen : ∀ x ∈ seen, ∀ y, g.Below x y → y ∈ seen ∨ next = some y) :
    ∀ x ∈ line, ∀ y, g.Below x y → y ∈ line := by
  induction h with
  | top =>
    intro x hx y hxy
    exact (hseen x hx y hxy).resolve_right (fun hnone => by cases hnone)
  | back hmem =>
    intro x hx y hxy
    rcases hseen x hx y hxy with hy | hy
    · exact hy
    · cases hy
      exact hmem
  | @step seen line a _ _ ih =>
    refine ih fun x hx y hxy => ?_
    rcases List.mem_append.1 hx with hold | hlast
    · rcases hseen x hold y hxy with hy | hy
      · exact Or.inl (List.mem_append_left _ hy)
      · cases hy
        exact Or.inl (List.mem_append_right _ (List.mem_singleton_self _))
    · rw [List.mem_singleton.1 hlast] at hxy
      exact Or.inr hxy

end Walks

section Climbing

/-- A climb has seen symbols of the grammar, each once. -/
structure Climbed (g : Grammar) (seen : List SymbolId) : Prop where
  nodup : seen.Nodup
  bounded : ∀ x ∈ seen, x < g.size

theorem Climbed.snoc
    (h : g.Climbed seen)
    (hnew : a ∉ seen)
    (hlt : a < g.size) :
    g.Climbed (seen ++ [a]) where
  nodup := List.concat_eq_append ▸ h.nodup.concat hnew
  bounded x hx := by
    rcases List.mem_append.1 hx with hx | hx
    · exact h.bounded x hx
    · rwa [List.mem_singleton.1 hx]

/-- A climb that has seen as many symbols as there are has seen the next one. -/
theorem Climbed.mem_of_full
    (h : g.Climbed seen)
    (hlt : a < g.size)
    (hfull : g.size ≤ seen.length) :
    a ∈ seen := by
  by_contra hnew
  have hsub : a :: seen ⊆ List.range g.size := by
    intro x hx
    rcases List.mem_cons.1 hx with rfl | hx
    · exact List.mem_range.2 hlt
    · exact List.mem_range.2 (h.bounded x hx)
  have hle := ((List.nodup_cons.2 ⟨hnew, h.nodup⟩).subperm hsub).length_le
  rw [List.length_cons, List.length_range] at hle
  omega

/-- With room for all symbols that have not been seen, a climb is not cut off. -/
theorem Climbed.walks
    (hbelow : ∀ x y, g.Below x y → y < g.size)
    (room : Nat)
    (h : g.Climbed seen)
    (hlt : a < g.size)
    (hroom : g.size ≤ seen.length + room) :
    g.Walks seen (some a) (g.climb room seen a) := by
  induction room generalizing seen a with
  | zero => exact .back (h.mem_of_full hlt hroom)
  | succ room ih =>
    unfold climb
    split
    · rename_i hseen
      exact .back hseen
    · rename_i hnew
      refine .step hnew ?_
      split
      · rename_i htop
        rw [htop]
        exact .top _
      · rename_i above habove
        rw [habove]
        exact ih (h.snoc hnew hlt) (hbelow a above habove)
          (by simpa [Nat.add_assoc, Nat.add_comm 1] using hroom)

end Climbing

/-- A superclass is a declared symbol. -/
theorem lt_size_of_below
    (h : d.resolve = .ok g)
    (hbelow : g.Below a b) :
    b < g.size := by
  obtain ⟨entry, hentry, hsuper⟩ := Option.bind_eq_some_iff.1 hbelow
  obtain ⟨rule, hrule, rfl⟩ := Option.map_eq_some_iff.1 hsuper
  have hmem := ((Definition.mem_rulesAt _ _ _).1 (List.mem_of_head? hrule)).1
  exact (Declaration.pos_and_lt_of_mentions h (.definition hentry (.child hmem))).2

/-- The ancestry of a symbol is what a climb without a limit comes to. -/
theorem walks_ancestry
    (h : d.resolve = .ok g)
    (a : SymbolId) :
    g.Walks [] (some a) (g.ancestry a) := by
  by_cases hlt : a < g.size
  · have hstart : g.Climbed [] := ⟨.nil, by simp⟩
    exact hstart.walks (fun x y hxy => lt_size_of_below h hxy) g.size hlt (by simp)
  · -- what is no symbol has no superclass, and there is room for one
    have hnone : g.superclass? a = none := by
      rw [superclass?, symbol?, Array.getElem?_eq_none (Nat.le_of_not_lt hlt), Option.bind_none]
    rw [ancestry, Declaration.size_of_resolve h, climb, hnone, if_neg List.not_mem_nil]
    exact .step List.not_mem_nil (by rw [hnone]; exact .top [a])

/-- The ancestry of a symbol holds what steps from superclass to superclass lead to. -/
theorem mem_ancestry_iff
    (h : d.resolve = .ok g) :
    b ∈ g.ancestry a ↔ g.Descends a b := by
  have hwalks := walks_ancestry h a
  constructor
  · intro hmem
    obtain ⟨_, heq, hdescends⟩ := (hwalks.descends hmem).resolve_left List.not_mem_nil
    cases heq
    exact hdescends
  · intro hdescends
    induction hdescends with
    | refl => exact List.mem_of_head? hwalks.head?
    | tail _ hstep ih => exact hwalks.closed (by simp) _ ih _ hstep

/--
The ancestry of any number is its line of superclasses. It starts with the number itself, each
symbol of it is the superclass of the one before, and none is met twice. It holds just what is
reached by steps from superclass to superclass; the limit on its length cuts nothing off, since
the climb without the limit comes to the same line.
-/
theorem ancestry_is_line
    (h : d.resolve = .ok g)
    (a : SymbolId) :
    (g.ancestry a).head? = some a ∧
      (g.ancestry a).IsChain g.Below ∧
      (g.ancestry a).Nodup ∧
      (∀ b, b ∈ g.ancestry a ↔ g.Descends a b) ∧
      g.Walks [] (some a) (g.ancestry a) := by
  have hwalks := walks_ancestry h a
  exact ⟨hwalks.head?, hwalks.isChain .nil (by simp), hwalks.nodup .nil,
    fun b => mem_ancestry_iff h, hwalks⟩

section Sample

/-- A superclass of its own superclass, and one below the two. -/
def roundDeclaration : Declaration :=
  { symbols :=
      [{ name := "low", rules := [{ relation := .subclass, target := "left" }] },
        { name := "left", rules := [{ relation := .subclass, target := "right" }] },
        { name := "right", rules := [{ relation := .subclass, target := "left" }] }] }

def roundGrammar : Grammar :=
  roundDeclaration.built

/-- The climb from below into a circle. -/
theorem ancestry_is_line_sample :
    roundDeclaration.resolve = .ok roundGrammar ∧
      roundGrammar.ancestry 1 = [1, 2, 3] ∧ roundGrammar.superclass? 3 = some 2 ∧
      roundGrammar.Walks [] (some 1) [1, 2, 3] ∧ roundGrammar.Descends 1 3 := by
  have hresolve : roundDeclaration.resolve = .ok roundGrammar :=
    Declaration.resolve_eq_built (by decide +kernel)
  have hline : roundGrammar.ancestry 1 = [1, 2, 3] := by decide +kernel
  obtain ⟨-, -, -, hmem, hwalks⟩ := ancestry_is_line hresolve 1
  rw [hline] at hwalks
  exact ⟨hresolve, hline, by decide +kernel, hwalks, (hmem 3).1 (by rw [hline]; decide)⟩

end Sample

end Grammar

end BeamChart
