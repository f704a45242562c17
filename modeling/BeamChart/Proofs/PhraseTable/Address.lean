import BeamChart.PhraseTable.Address
import Mathlib.Data.List.Induction

/-!
# Addresses tell sequences apart

A sequence that is shorter than the digits of its address reads as if zeros
followed. Since no id of a spelled sequence is zero, the missing digits cannot
be taken for ids: the address of a spelled sequence determines its first ids,
and together with the tail it determines the whole (`eq_of_address_eq`).

A `Cursor` that has read a sequence stands at its address and holds its tail.
-/

namespace BeamChart

/-- A sequence that can be recorded: it has ids, and each is one below the radix and not zero. -/
def Spelled (radix : Nat) (ids : List SymbolId) : Prop :=
  ids ≠ [] ∧ ∀ id : Nat, id ∈ ids → 0 < id ∧ id < radix

instance (radix : Nat) (ids : List SymbolId) : Decidable (Spelled radix ids) :=
  inferInstanceAs (Decidable (_ ∧ _))

variable {radix depth : Nat} {ids more : List SymbolId}

/-- The leading digit and the rest of a number can be read off it. -/
theorem eq_of_digits_eq
    {unit d e x y : Nat}
    (hx : x < unit)
    (hy : y < unit)
    (h : d * unit + x = e * unit + y) :
    d = e ∧ x = y := by
  have hunit : 0 < unit := by omega
  have hd : (d * unit + x) / unit = d := by
    rw [Nat.mul_comm, Nat.mul_add_div hunit, Nat.div_eq_of_lt hx, Nat.add_zero]
  have he : (e * unit + y) / unit = e := by
    rw [Nat.mul_comm, Nat.mul_add_div hunit, Nat.div_eq_of_lt hy, Nat.add_zero]
  have hdigit : d = e := by rw [← hd, h, he]
  subst hdigit
  exact ⟨rfl, Nat.add_left_cancel h⟩

/-- A first digit that is not zero keeps the address of a sequence above zero. -/
theorem address_cons_pos
    (depth : Nat)
    (ids : List SymbolId)
    {id : Nat}
    (hradix : 0 < radix)
    (hid : 0 < id) :
    0 < address radix (depth + 1) (id :: ids) := by
  have hunit : 0 < Nat.pow radix depth := Nat.pow_pos hradix
  have hdigit : 0 < id * Nat.pow radix depth := Nat.mul_pos hid hunit
  simp only [address]
  omega

/-- Sequences of one address begin with the same ids, as far as the address reads. -/
theorem take_eq_of_address_eq
    {as bs : List SymbolId}
    (ha : ∀ id : Nat, id ∈ as → 0 < id ∧ id < radix)
    (hb : ∀ id : Nat, id ∈ bs → 0 < id ∧ id < radix)
    (h : address radix depth as = address radix depth bs) :
    as.take depth = bs.take depth := by
  induction depth generalizing as bs with
  | zero => simp
  | succ depth ih =>
    cases as with
    | nil =>
      cases bs with
      | nil => rfl
      | cons b bs =>
        -- the missing digit would be zero, and `b` is not
        obtain ⟨hpos, hlt⟩ := hb b (by simp)
        have hradix : 0 < radix := by omega
        have := address_cons_pos depth bs hradix hpos
        simp only [address_nil] at h
        omega
    | cons a as =>
      obtain ⟨hpos, hlt⟩ := ha a (by simp)
      have hradix : 0 < radix := by omega
      cases bs with
      | nil =>
        have := address_cons_pos depth as hradix hpos
        simp only [address_nil] at h
        omega
      | cons b bs =>
        have has : ∀ id : Nat, id ∈ as → 0 < id ∧ id < radix := fun id hid => ha id (by simp [hid])
        have hbs : ∀ id : Nat, id ∈ bs → 0 < id ∧ id < radix := fun id hid => hb id (by simp [hid])
        obtain ⟨rfl, hrest⟩ := eq_of_digits_eq
          (address_lt depth hradix fun id hid => (has id hid).2)
          (address_lt depth hradix fun id hid => (hbs id hid).2) h
        simp [ih has hbs hrest]

/-- The address of a spelled sequence and its tail determine it. -/
theorem eq_of_address_eq
    {as bs : List SymbolId}
    (ha : Spelled radix as)
    (hb : Spelled radix bs)
    (haddress : address radix depth as = address radix depth bs)
    (htail : as.drop depth = bs.drop depth) :
    as = bs := by
  have htake := take_eq_of_address_eq ha.2 hb.2 haddress
  rw [← List.take_append_drop depth as, htake, htail, List.take_append_drop]

/-- What follows behind the digits does not change the address. -/
theorem address_append_of_le
    (h : depth ≤ ids.length) :
    address radix depth (ids ++ more) = address radix depth ids := by
  induction depth generalizing ids with
  | zero => simp [address]
  | succ depth ih =>
    cases ids with
    | nil => simp at h
    | cons id ids =>
      simp only [List.length_cons, Nat.add_le_add_iff_right] at h
      simp [address, ih h]

/-- A cursor that has read a sequence stands at its address. -/
@[simp] theorem Cursor.address_ofList (radix depth : Nat) (ids : List SymbolId) :
    (Cursor.ofList radix depth ids).address = BeamChart.address radix depth ids := by
  induction ids using List.reverseRecOn with
  | nil => simp [Cursor.ofList]
  | append_singleton ids id ih =>
    rw [Cursor.ofList_append, address_append, Cursor.advance, offset_ofList]
    split <;> simp [ih]

/-- A cursor that has read a sequence holds its tail. -/
@[simp] theorem Cursor.tail_ofList (radix depth : Nat) (ids : List SymbolId) :
    (Cursor.ofList radix depth ids).tail = ids.drop depth := by
  induction ids using List.reverseRecOn with
  | nil => simp [Cursor.ofList]
  | append_singleton ids id ih =>
    rw [Cursor.ofList_append, Cursor.advance, offset_ofList]
    split
    · rename_i hlt
      rw [List.drop_eq_nil_of_le (by simp; omega), ih, List.drop_eq_nil_of_le (by omega)]
    · rename_i hle
      rw [List.drop_append_of_le_length (by omega), ih]

end BeamChart
