import BeamChart.Ident

/-!
# Addresses of id sequences

The first ids of a sequence are read as the digits of a number, the most
significant digit first; digits that are missing count as zero. The ids
behind them form the tail.

A `Cursor` reads a sequence id by id. Each step adds one digit or one id of
the tail, as `address_append` says for the address of the whole.
-/

namespace BeamChart

/--
The number whose digits are the first `depth` ids. A sequence that is shorter
reads as if zeros followed.
-/
def address (radix : Nat) : (depth : Nat) → List SymbolId → Nat
  | 0, _ => 0
  | _ + 1, [] => 0
  | depth + 1, id :: rest => id * Nat.pow radix depth + address radix depth rest

@[simp] theorem address_nil (radix depth : Nat) :
    address radix depth [] = 0 := by
  cases depth <;> rfl

/-- The address of digits has as many digits. -/
theorem address_lt
    {radix : Nat}
    (depth : Nat)
    {ids : List SymbolId}
    (hpos : 0 < radix)
    (h : ∀ id ∈ ids, id < radix) :
    address radix depth ids < Nat.pow radix depth := by
  induction depth generalizing ids with
  | zero => exact Nat.one_pos
  | succ depth ih =>
    cases ids with
    | nil => exact Nat.pow_pos hpos
    | cons id rest =>
      have hid : id < radix := h id (List.mem_cons_self ..)
      have hrest := ih fun x hx => h x (List.mem_cons_of_mem id hx)
      calc address radix (depth + 1) (id :: rest)
          = id * Nat.pow radix depth + address radix depth rest := rfl
        _ < id * Nat.pow radix depth + Nat.pow radix depth :=
          Nat.add_lt_add_left hrest _
        _ = (id + 1) * Nat.pow radix depth := (Nat.succ_mul id _).symm
        _ ≤ radix * Nat.pow radix depth := Nat.mul_le_mul_right _ hid
        _ = Nat.pow radix (depth + 1) := Nat.mul_comm radix _

/-- An id behind the digits adds one more digit, if there is room for it. -/
theorem address_append
    (radix depth : Nat)
    (ids : List SymbolId)
    (id : SymbolId) :
    address radix depth (ids ++ [id]) =
      address radix depth ids +
        if ids.length < depth then id * Nat.pow radix (depth - 1 - ids.length) else 0 := by
  induction depth generalizing ids with
  | zero => simp [address]
  | succ depth ih =>
    cases ids with
    | nil => simp [address]
    | cons d rest =>
      have hsub : depth + 1 - 1 - (rest.length + 1) = depth - 1 - rest.length := by
        omega
      simp only [List.cons_append, address, ih rest, List.length_cons, hsub,
        Nat.add_lt_add_iff_right, Nat.add_assoc]

/-- How far a sequence has been read. -/
structure Cursor where
  offset : Nat := 0
  address : Nat := 0
  tail : List SymbolId := []
deriving DecidableEq

namespace Cursor

/-- Reads one more id: a digit while there is room, then a part of the tail. -/
def advance (radix depth : Nat) (k : Cursor) (id : SymbolId) : Cursor :=
  if k.offset < depth then
    { k with
      offset := k.offset + 1
      address := k.address + id * Nat.pow radix (depth - 1 - k.offset) }
  else { k with offset := k.offset + 1, tail := k.tail ++ [id] }

/-- Reads a sequence from its start. -/
def ofList (radix depth : Nat) (ids : List SymbolId) : Cursor :=
  ids.foldl (advance radix depth) {}

theorem ofList_append
    (radix depth : Nat)
    (ids : List SymbolId)
    (id : SymbolId) :
    ofList radix depth (ids ++ [id]) =
      (ofList radix depth ids).advance radix depth id := by
  simp [ofList]

@[simp] theorem offset_ofList (radix depth : Nat) (ids : List SymbolId) :
    (ofList radix depth ids).offset = ids.length := by
  suffices h : ∀ k : Cursor,
      (ids.foldl (advance radix depth) k).offset = k.offset + ids.length by
    simpa [ofList] using h {}
  induction ids with
  | nil => intro k; simp
  | cons id rest ih =>
    intro k
    rw [List.foldl_cons, ih, List.length_cons]
    unfold advance
    split <;> simp <;> omega

end Cursor

end BeamChart
