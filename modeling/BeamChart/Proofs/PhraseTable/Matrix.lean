import BeamChart.Proofs.PhraseTable.Map
import Mathlib.Algebra.Group.Nat.Defs

/-!
# Matrices that fit a machine word

The limits on a table are checked in numbers that are held below the size bound, and what comes
behind the check is not checked any more: the sizes of the rows are multiplied out, and an
address is summed up id by id. Here each of these steps is done once more with `fits?`, which
gives nothing for a number that a machine word cannot hold. So an answer of `rowSizes?`,
`addressBy?` or `advanceBy?` says that nothing has overflowed on the way, and it is the
answer of the exact arithmetic.

A table is made just if its matrix fits the limit and one allocation, both in exact numbers
(`new_eq_ok_iff`), and then no addressing overflows, stays within the matrix, and takes no two
sequences for one (`new_isOk_iff`). Only the limit is checked: where it is higher than what can be
allocated at once, a matrix that keeps to it may end the run (`matrix_within_limit_not_made`). That
an allocation below the bound is granted is taken for granted.
-/

namespace BeamChart

namespace PhraseTable

variable {radix depth : Nat} {ids : List SymbolId}

section Fitting

/-- From a radix of two on, more than 64 digits are as many too many as 64. -/
theorem cellCount?_eq
    (hradix : 1 ≤ radix)
    (hdepth : depth < depthBound) :
    cellCount? radix depth =
      if radix ^ depth < sizeBound then some (radix ^ depth) else none := by
  simp only [cellCount?, Nat.pow_eq, hdepth, true_and]
  by_cases hshort : depth ≤ 64
  · rw [Nat.min_eq_left hshort]
  · have hlong : 64 ≤ depth := Nat.le_of_lt (Nat.not_le.1 hshort)
    rw [Nat.min_eq_right hlong]
    rcases Nat.eq_or_lt_of_le hradix with rfl | htwo
    · simp
    · -- both powers are out of the range
      have hlarge : sizeBound ≤ radix ^ 64 :=
        calc sizeBound = 2 ^ 64 := by decide
          _ ≤ radix ^ 64 := Nat.pow_le_pow_left htwo 64
      have hlarger : radix ^ 64 ≤ radix ^ depth := Nat.pow_le_pow_right hradix hlong
      rw [if_neg (Nat.not_lt.2 hlarge), if_neg (Nat.not_lt.2 (Nat.le_trans hlarge hlarger))]

/-- Below the size bound, a limit is kept in exact numbers if it is kept in bounded ones. -/
theorem byteCount_le_iff
    {cells limit : Nat}
    (hlimit : limit < sizeBound - 1) :
    byteCount cells ≤ limit ↔ 8 * cells ≤ limit := by
  unfold byteCount cellBytes
  omega

/-- Settings that keep to the limit give a table, or end the run. -/
theorem new_eq
    (g : Grammar)
    {q : Grammar}
    {s : TableSettings}
    (hradix : 1 ≤ q.size)
    (hdepth : s.depth < depthBound)
    (hlimit : s.maxBytes < sizeBound - 1)
    (hpos : 1 ≤ s.depth)
    (hfits : 8 * q.size ^ s.depth ≤ s.maxBytes) :
    PhraseTable.new g q s =
      if allocationBound ≤ 8 * q.size ^ s.depth then .error .unallocatable
      else .ok { grammar := g, provider := q, settings := s } := by
  have hcells : q.size ^ s.depth < sizeBound := by omega
  have hbytes : byteCount (q.size ^ s.depth) ≤ s.maxBytes := (byteCount_le_iff hlimit).2 hfits
  unfold PhraseTable.new
  rw [cellCount?_eq hradix hdepth, if_neg (Nat.ne_of_gt hpos), if_pos hcells]
  dsimp only
  rw [if_neg (Nat.not_lt.2 hbytes), cellBytes, Nat.mul_comm]

/-- No other settings come to an allocation. -/
theorem new_refused
    (g : Grammar)
    {q : Grammar}
    {s : TableSettings}
    (hradix : 1 ≤ q.size)
    (hdepth : s.depth < depthBound)
    (hlimit : s.maxBytes < sizeBound - 1)
    (h : ¬ (1 ≤ s.depth ∧ 8 * q.size ^ s.depth ≤ s.maxBytes)) :
    PhraseTable.new g q s = .error .zeroDepth ∨
      ∃ cells, PhraseTable.new g q s = .error (tooLarge s cells) := by
  unfold PhraseTable.new
  by_cases hzero : s.depth = 0
  · exact Or.inl (if_pos hzero)
  right
  have hlarge : ¬ 8 * q.size ^ s.depth ≤ s.maxBytes := fun hfits =>
    h ⟨Nat.pos_of_ne_zero hzero, hfits⟩
  rw [cellCount?_eq hradix hdepth, if_neg hzero]
  by_cases hcells : q.size ^ s.depth < sizeBound
  · rw [← byteCount_le_iff hlimit, Nat.not_le] at hlarge
    rw [if_pos hcells]
    exact ⟨_, if_pos hlarge⟩
  · rw [if_neg hcells]
    exact ⟨_, rfl⟩

/-- A table is made if its depth is not zero and its matrix fits the limit and an allocation. -/
theorem new_eq_ok_iff
    {g q : Grammar}
    {s : TableSettings}
    {t : PhraseTable}
    (hradix : 1 ≤ q.size)
    (hdepth : s.depth < depthBound)
    (hlimit : s.maxBytes < sizeBound - 1) :
    PhraseTable.new g q s = .ok t ↔
      (1 ≤ s.depth ∧ 8 * q.size ^ s.depth ≤ s.maxBytes ∧
        8 * q.size ^ s.depth < allocationBound) ∧
        t = { grammar := g, provider := q, settings := s } := by
  by_cases h : 1 ≤ s.depth ∧ 8 * q.size ^ s.depth ≤ s.maxBytes
  · rw [new_eq g hradix hdepth hlimit h.1 h.2]
    by_cases hroom : 8 * q.size ^ s.depth < allocationBound
    · simp [Nat.not_le.2 hroom, hroom, h, eq_comm]
    · simp [Nat.not_lt.1 hroom, hroom]
  · have hnone : ¬ (1 ≤ s.depth ∧ 8 * q.size ^ s.depth ≤ s.maxBytes ∧
        8 * q.size ^ s.depth < allocationBound) := fun hall => h ⟨hall.1, hall.2.1⟩
    rcases new_refused g hradix hdepth hlimit h with heq | ⟨cells, heq⟩ <;> simp [heq, hnone]

/-- The run ends with a matrix that keeps to a limit and that no allocation can hold. -/
theorem new_eq_unallocatable_iff
    {g q : Grammar}
    {s : TableSettings}
    (hradix : 1 ≤ q.size)
    (hdepth : s.depth < depthBound)
    (hlimit : s.maxBytes < sizeBound - 1) :
    PhraseTable.new g q s = .error .unallocatable ↔
      1 ≤ s.depth ∧ 8 * q.size ^ s.depth ≤ s.maxBytes ∧
        allocationBound ≤ 8 * q.size ^ s.depth := by
  by_cases h : 1 ≤ s.depth ∧ 8 * q.size ^ s.depth ≤ s.maxBytes
  · rw [new_eq g hradix hdepth hlimit h.1 h.2]
    by_cases hroom : allocationBound ≤ 8 * q.size ^ s.depth
    · simp [hroom, h]
    · simp [hroom]
  · have hnone : ¬ (1 ≤ s.depth ∧ 8 * q.size ^ s.depth ≤ s.maxBytes ∧
        allocationBound ≤ 8 * q.size ^ s.depth) := fun hall => h ⟨hall.1, hall.2.1⟩
    rcases new_refused g hradix hdepth hlimit h with heq | ⟨cells, heq⟩ <;>
      simp [heq, hnone, tooLarge]

end Fitting

section Checked

/-- The number, if a machine word holds it. -/
def fits? (n : Nat) : Option Nat :=
  if n < sizeBound then some n else none

theorem fits?_eq_some
    {n : Nat}
    (h : n < sizeBound) :
    fits? n = some n :=
  if_pos h

/-- The sizes of the rows: the last one is one, and each other one is the next one times the radix. -/
def rowSizes? (radix : Nat) : (depth : Nat) → Option (List Nat)
  | 0 => some []
  | 1 => some [1]
  | depth + 2 =>
    (rowSizes? radix (depth + 1)).bind fun rows =>
      (fits? (rows.headD 1 * radix)).map fun size => size :: rows

/-- The address of a sequence, summed up over the ids that have a row. -/
def addressBy? (rows : List Nat) (ids : List SymbolId) : Option Nat :=
  (ids.zip rows).foldlM
    (fun sum e => (fits? (e.1 * e.2)).bind fun digit => fits? (sum + digit)) 0

/-- The cursor after one more id: a digit if there is a row for it, or else a part of the tail. -/
def advanceBy? (rows : List Nat) (k : Cursor) (id : SymbolId) : Option Cursor :=
  match rows[k.offset]? with
  | some row =>
    (fits? (id * row)).bind fun digit =>
      (fits? (k.address + digit)).map fun address =>
        { k with offset := k.offset + 1, address }
  | none => some { k with offset := k.offset + 1, tail := k.tail ++ [id] }

/-- The sizes of the rows in exact numbers. -/
def rowSizes (radix : Nat) : (depth : Nat) → List Nat
  | 0 => []
  | depth + 1 => radix ^ depth :: rowSizes radix depth

@[simp] theorem length_rowSizes (radix depth : Nat) :
    (rowSizes radix depth).length = depth := by
  induction depth with
  | zero => rfl
  | succ depth ih => rw [rowSizes, List.length_cons, ih]

theorem getElem?_rowSizes
    {i : Nat}
    (h : i < depth) :
    (rowSizes radix depth)[i]? = some (radix ^ (depth - 1 - i)) := by
  induction depth generalizing i with
  | zero => exact absurd h (Nat.not_lt_zero i)
  | succ depth ih =>
    cases i with
    | zero => rfl
    | succ i =>
      rw [rowSizes, List.getElem?_cons_succ, ih (Nat.lt_of_succ_lt_succ h)]
      congr 2
      omega

/-- If the number of cells fits, the size of each row does. -/
theorem rowSizes?_eq
    (hradix : 1 ≤ radix)
    (hfits : radix ^ depth < sizeBound) :
    rowSizes? radix depth = some (rowSizes radix depth) := by
  induction depth with
  | zero => rfl
  | succ depth ih =>
    cases depth with
    | zero => rfl
    | succ depth =>
      have hrow : radix ^ (depth + 1) < sizeBound :=
        Nat.lt_of_le_of_lt (Nat.pow_le_pow_right hradix (Nat.le_succ _)) hfits
      have hhead : (rowSizes radix (depth + 1)).headD 1 * radix = radix ^ (depth + 1) := rfl
      rw [rowSizes?, ih hrow, Option.bind_some, hhead, fits?_eq_some hrow]
      rfl

/-- From any sum that leaves room for it, an address is summed up without an overflow. -/
theorem foldlM_zip_rowSizes
    (sum : Nat)
    (hroom : sum + address radix depth ids < sizeBound) :
    (ids.zip (rowSizes radix depth)).foldlM
        (fun sum e => (fits? (e.1 * e.2)).bind fun digit => fits? (sum + digit)) sum =
      some (sum + address radix depth ids) := by
  induction depth generalizing ids sum with
  | zero => simp [rowSizes, address]
  | succ depth ih =>
    cases ids with
    | nil => simp
    | cons id rest =>
      simp only [address, Nat.pow_eq] at hroom ⊢
      have hsum : sum + id * radix ^ depth < sizeBound := by omega
      have hdigit : id * radix ^ depth < sizeBound :=
        Nat.lt_of_le_of_lt (Nat.le_add_left _ sum) hsum
      rw [rowSizes, List.zip_cons_cons, List.foldlM_cons, fits?_eq_some hdigit, Option.bind_some,
        fits?_eq_some hsum, Option.bind_eq_bind, Option.bind_some,
        ih (sum + id * radix ^ depth) (by omega), Nat.add_assoc]

theorem addressBy?_eq
    (hradix : 1 ≤ radix)
    (hfits : radix ^ depth < sizeBound)
    (hids : ∀ id ∈ ids, id < radix) :
    addressBy? (rowSizes radix depth) ids = some (address radix depth ids) := by
  have hlt := Nat.lt_trans (address_lt depth hradix hids) hfits
  rw [addressBy?, foldlM_zip_rowSizes 0 (by rwa [Nat.zero_add]), Nat.zero_add]

/-- A cursor that has read a sequence reads one more id without an overflow. -/
theorem advanceBy?_ofList
    (hradix : 1 ≤ radix)
    (hfits : radix ^ depth < sizeBound)
    {id : Nat}
    (hids : ∀ x ∈ ids ++ [id], x < radix) :
    advanceBy? (rowSizes radix depth) (Cursor.ofList radix depth ids) id =
      some (Cursor.ofList radix depth (ids ++ [id])) := by
  have hlt := Nat.lt_trans (address_lt depth hradix hids) hfits
  rw [address_append] at hlt
  rw [Cursor.ofList_append, advanceBy?, Cursor.advance, Cursor.offset_ofList,
    Cursor.address_ofList]
  by_cases hroom : ids.length < depth
  · rw [if_pos hroom] at hlt ⊢
    have hdigit : id * radix ^ (depth - 1 - ids.length) < sizeBound :=
      Nat.lt_of_le_of_lt (Nat.le_add_left _ _) hlt
    rw [getElem?_rowSizes hroom]
    simp only [fits?_eq_some hdigit, Option.bind_some, Nat.pow_eq] at hlt ⊢
    rw [fits?_eq_some hlt]
    rfl
  · rw [if_neg hroom, List.getElem?_eq_none (by simpa using hroom)]

theorem foldlM_advanceBy?
    (hradix : 1 ≤ radix)
    (hfits : radix ^ depth < sizeBound)
    (hids : ∀ id ∈ ids, id < radix) :
    ids.foldlM (advanceBy? (rowSizes radix depth)) {} =
      some (Cursor.ofList radix depth ids) := by
  induction ids using List.reverseRecOn with
  | nil => rfl
  | append_singleton ids id ih =>
    have hfirst := ih fun x hx => hids x (List.mem_append_left _ hx)
    rw [List.foldlM_append, hfirst]
    simpa using advanceBy?_ofList hradix hfits hids

end Checked

/--
What can be relied on where a table adds and multiplies without a check: with the row sizes that
it works with, the checked arithmetic gives the addresses of the exact one.
-/
structure Addressable (t : PhraseTable) (rows : List Nat) : Prop where
  sizes : rowSizes? t.radix t.depth = some rows
  length : rows.length = t.depth
  row : ∀ i, i < t.depth → rows[i]? = some (t.radix ^ (t.depth - 1 - i))
  /-- No sum on the way to an address overflows. -/
  address : ∀ ids : List SymbolId, (∀ id ∈ ids, id < t.radix) →
    addressBy? rows ids = some (t.addressOf ids)
  /-- An address is one of a cell. -/
  within : ∀ ids : List SymbolId, (∀ id ∈ ids, id < t.radix) → t.addressOf ids < t.cells
  /-- Reading id by id does not overflow, and comes to the address of what has been read. -/
  reading : ∀ ids : List SymbolId, (∀ id ∈ ids, id < t.radix) →
    ids.foldlM (advanceBy? rows) {} = some (Cursor.ofList t.radix t.depth ids) ∧
      (Cursor.ofList t.radix t.depth ids).address = t.addressOf ids
  /-- Sequences that fit into an address have different ones. -/
  apart : ∀ as bs : List SymbolId, as.length ≤ t.depth → bs.length ≤ t.depth →
    (∀ id ∈ as, 0 < id ∧ id < t.radix) → (∀ id ∈ bs, 0 < id ∧ id < t.radix) →
    t.addressOf as = t.addressOf bs → as = bs

theorem addressable
    {t : PhraseTable}
    (hradix : 1 ≤ t.radix)
    (hfits : t.cells < sizeBound) :
    t.Addressable (rowSizes t.radix t.depth) where
  sizes := rowSizes?_eq hradix hfits
  length := length_rowSizes _ _
  row _ hi := getElem?_rowSizes hi
  address _ hids := addressBy?_eq hradix hfits hids
  within _ hids := address_lt t.depth hradix hids
  reading _ hids := ⟨foldlM_advanceBy? hradix hfits hids, Cursor.address_ofList _ _ _⟩
  apart as bs has hbs hdigits hdigits' h := by
    have htake := take_eq_of_address_eq hdigits hdigits' h
    rwa [List.take_of_length_le has, List.take_of_length_le hbs] at htake

/--
For every provider, a table is made if and only if its depth is not zero and its matrix, eight
bytes a cell, fits the limit and one allocation in exact numbers. Between the two bounds the run
ends; otherwise the settings are refused. All that is added and multiplied from then on, however
the table is edited, stays below the size bound and within the matrix.
-/
theorem new_isOk_iff
    {g q : Grammar}
    {s : TableSettings}
    (hradix : 1 ≤ q.size)
    (hdepth : s.depth < 2 ^ 32)
    (hlimit : s.maxBytes < 2 ^ 64 - 1) :
    ((∃ t, PhraseTable.new g q s = .ok t) ↔
      1 ≤ s.depth ∧ 8 * q.size ^ s.depth ≤ s.maxBytes ∧ 8 * q.size ^ s.depth < 2 ^ 63) ∧
      (PhraseTable.new g q s = .error .unallocatable ↔
        1 ≤ s.depth ∧ 8 * q.size ^ s.depth ≤ s.maxBytes ∧ 2 ^ 63 ≤ 8 * q.size ^ s.depth) ∧
      ∀ t, PhraseTable.new g q s = .ok t → ∀ edits : List Edit,
        (t.edited edits).cells = q.size ^ s.depth ∧
          ∃ rows, (t.edited edits).Addressable rows := by
  have hiff := fun t => new_eq_ok_iff (g := g) (t := t) hradix hdepth hlimit
  refine ⟨⟨?_, fun hfits => ⟨_, (hiff _).2 ⟨hfits, rfl⟩⟩⟩,
    new_eq_unallocatable_iff hradix hdepth hlimit, fun t ht edits => ?_⟩
  · rintro ⟨t, ht⟩
    exact ((hiff t).1 ht).1
  · have hholds := holds_edited ht edits
    have hdepth' : (t.edited edits).depth = s.depth := by rw [depth, hholds.settings]
    have hcells : (t.edited edits).cells = q.size ^ s.depth := by
      rw [cells, hholds.radix, hdepth', Nat.pow_eq]
    have hlt : q.size ^ s.depth < sizeBound := by
      have hfits := ((hiff t).1 ht).1.2.1
      unfold sizeBound
      omega
    exact ⟨hcells, _, addressable (by rwa [hholds.radix]) (by rwa [hcells])⟩

section Sample

/--
Three letters fit three deep. Forty deep their number fits a machine word, and eight times their
number does not; thirty-eight deep the bytes fit a word, and no allocation.
-/
theorem new_isOk_iff_sample :
    (∃ t, PhraseTable.new words letters {} = .ok t) ∧
      (¬ ∃ t, PhraseTable.new words letters
        { depth := 40, maxBytes := 18446744073709551614 } = .ok t) ∧
      PhraseTable.new words letters
        { depth := 38, maxBytes := 18446744073709551614 } = .error .unallocatable ∧
      wordTable.addressOf [2] ≠ wordTable.addressOf [2, 1] := by
  have hradix : 1 ≤ letters.size := by rw [size_letters]; decide
  obtain ⟨hfits, -, hreads⟩ := new_isOk_iff (g := words) (s := {}) hradix (by decide) (by decide)
  have hrefused := (new_isOk_iff (g := words)
    (s := { depth := 40, maxBytes := 18446744073709551614 }) hradix (by decide) (by decide)).1
  have hends := (new_isOk_iff (g := words)
    (s := { depth := 38, maxBytes := 18446744073709551614 }) hradix (by decide) (by decide)).2.1
  rw [size_letters] at hfits hrefused hends
  refine ⟨hfits.2 (by decide), fun h => ?_, hends.2 (by decide), fun h => ?_⟩
  · exact absurd (hrefused.1 h).2.1 (by decide)
  · obtain ⟨-, rows, haddressable⟩ := hreads wordTable new_wordTable []
    have hsame := haddressable.apart [2] [2, 1] (by decide) (by decide) (by decide +kernel)
      (by decide +kernel) h
    cases hsame

/-- A grammar of one letter, so that ids are binary digits. -/
def binaryGrammar : Grammar :=
  ({ symbols := [{ name := "a" }] } : Declaration).built

/-- A limit of as many bytes as the matrix takes, which is one byte more than can be allocated. -/
theorem matrix_within_limit_not_made :
    PhraseTable.new binaryGrammar binaryGrammar { depth := 60, maxBytes := 2 ^ 63 } =
        .error .unallocatable ∧
      ¬ ((∃ t, PhraseTable.new binaryGrammar binaryGrammar
          { depth := 60, maxBytes := 2 ^ 63 } = .ok t) ↔
        1 ≤ 60 ∧ 8 * binaryGrammar.size ^ 60 ≤ 2 ^ 63) := by
  have hsize : binaryGrammar.size = 2 := by decide +kernel
  have hends : PhraseTable.new binaryGrammar binaryGrammar
      { depth := 60, maxBytes := 2 ^ 63 } = .error .unallocatable := by
    rw [new_eq binaryGrammar (by rw [hsize]; decide) (by decide) (by decide) (by decide)
      (by rw [hsize]; decide), hsize]
    exact if_pos (by decide)
  refine ⟨hends, fun hiff => ?_⟩
  obtain ⟨t, ht⟩ := hiff.2 ⟨by decide, by rw [hsize]; decide⟩
  rw [hends] at ht
  cases ht

end Sample

end PhraseTable

end BeamChart
