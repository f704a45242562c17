import BeamChart.Proofs.Decoder.Reuse
import BeamChart.Proofs.Relocation.Read

/-!
# Decoding further on in the window

Nothing in decoding depends on where an input begins, as long as it stays within the
window. An input whose positions are all moved by one distance is decoded to the same
tree, at that distance, and with the same tally (`decode_moved`): each token leaves
the two charts relocated, and what is read off them is moved.
-/

namespace BeamChart

namespace Decoder

open Chart

variable {m : Relocation} {g : Grammar} {s : Settings} {c c' : Chart}

section Feeding

theorem feedAll_returns (c : Chart) (tokens : List Token) :
    Returns c (feedAll c tokens) :=
  feedAll_induction (P := Returns c) (fun d t h => h.trans (feed_returns d t)) tokens (.refl c)

theorem driven_feedAll
    (h : Driven g s c)
    (tokens : List Token) :
    Driven g s (feedAll c tokens) :=
  feedAll_induction (P := Driven g s) (fun _ t h => .input h (.feed t)) tokens h

theorem sound_feedAll_new
    (g : Grammar)
    (s : Settings)
    (tokens : List Token) :
    Sound True (feedAll (.new g s) tokens) :=
  (driven_feedAll .new tokens).kept.sound

/-- The rest of an input is fed to what the first token leaves. -/
theorem feedAll_cons_returns
    (c : Chart)
    (t : Token)
    (rest : List Token) :
    Returns (c.feed t).2 (feedAll c (t :: rest)) := by
  unfold feedAll
  generalize c.feed t = result
  obtain ⟨outcome, c₁⟩ := result
  cases outcome with
  | ok u => exact feedAll_returns c₁ rest
  | error e =>
    cases e with
    | exhausted reserve => exact .refl c₁
    | outsideWindow stop window => exact feedAll_returns c₁ rest

/-- An input within the window leaves relocated charts relocated. -/
theorem feedAll_mirrors
    (h : Mirrors m c c')
    (hrun : Driven g s c)
    (tokens : List Token)
    (hwindow : ∀ t ∈ tokens, (m.token t).stop ≤ s.window)
    (hclean : m.Clean (feedAll c' (tokens.map m.token))) :
    Mirrors m (feedAll c tokens) (feedAll c' (tokens.map m.token)) := by
  induction tokens generalizing c c' with
  | nil => exact h
  | cons t rest ih =>
    have hsettings : c.settings = s := hrun.operated.same.2
    have hrest : ∀ t ∈ rest, (m.token t).stop ≤ s.window := fun a ha =>
      hwindow a (List.mem_cons_of_mem t ha)
    have hfirst := h.feed t (Or.inr (hsettings ▸ hwindow t List.mem_cons_self))
      (hclean.before (feedAll_cons_returns c' _ _))
    have hnext : Driven g s (c.feed t).2 := .input hrun (.feed t)
    rw [List.map_cons] at hclean ⊢
    unfold feedAll at hclean ⊢
    generalize c.feed t = result at hfirst hnext ⊢
    generalize c'.feed (m.token t) = result' at hfirst hclean ⊢
    cases hfirst with
    | ok u d d' hd => exact ih hd hnext hrest hclean
    | error e d d' hd =>
      cases e with
      | exhausted reserve => exact hd
      | outsideWindow stop window => exact ih hd hnext hrest hclean

end Feeding

/-- Positions move, and everything else stays. -/
def shift (distance : Nat) : Relocation where
  place := id
  distance := distance
  increasing := strictMono_id

theorem shift_exact (distance : Nat) :
    (shift distance).Exact :=
  fun _ => rfl

end Decoder

/-- The answer to an input that stands at a distance. -/
def Decoded.moved (distance : Nat) (a : Decoded) : Decoded :=
  { a with solution := a.solution.map (Parse.moved distance) }

namespace Decoder

open Chart

def sampleDecoder : Decoder where
  grammar := sampleGrammar

/--
An input that is moved by a distance, and stays within the window, has the solution
at this distance: the same tree with all extents moved, and the same tally.
-/
theorem decode_moved
    (d : Decoder)
    (tokens : List Token)
    (distance : Nat)
    (hwindow : ∀ t ∈ tokens, t.stop + distance ≤ d.settings.window) :
    d.decode (tokens.map (Token.moved distance)) = (d.decode tokens).moved distance := by
  have hmirrors : Mirrors (shift distance)
      (feedAll (.new d.grammar d.settings) tokens)
      (feedAll (.new d.grammar d.settings) (tokens.map (Token.moved distance))) := by
    refine feedAll_mirrors (.new (shift_exact distance) d.grammar d.settings) .new tokens
      (fun t ht => ?_) (Or.inl (shift_exact distance))
    rw [(shift distance).stop_token]
    exact hwindow t ht
  have hsolution := hmirrors.selected (sound_feedAll_new d.grammar d.settings tokens)
  have htally := hmirrors.tally (shift_exact distance)
  have hanswer : ∀ tokens, d.decode tokens =
      { solution := (feedAll (.new d.grammar d.settings) tokens).select.2.bestParse?
        tally := (feedAll (.new d.grammar d.settings) tokens).tally } := fun _ => rfl
  rw [hanswer, hanswer, hsolution, htally]
  rfl

/-- A parent and its child behind it. -/
def pair : List Token :=
  [{ concept := 1, position := 0, extent := 1 }, { concept := 2, position := 1, extent := 1 }]

theorem decode_moved_sample :
    ((sampleDecoder.decode pair).solution.map Parse.size = some 2) ∧
      sampleDecoder.decode (pair.map (Token.moved 5)) = (sampleDecoder.decode pair).moved 5 :=
  ⟨by decide +kernel, decode_moved sampleDecoder pair 5 (by decide)⟩

end Decoder

end BeamChart
