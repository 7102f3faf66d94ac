import NewPims.Lib.Strided
import NewPims.MemoryAccess.Channels

/-! The views of a tensor with two dimensions: the address of an element by its index, by its row,
in the list of all addresses and in a part that is split off. Only the first and the last go through
the exchange of the column and the channel bits. -/
namespace NewPims

open BitExchange Strided Transition

section Elements

variable {t : NPUTensor2D} {rows columns i j : ℕ}

theorem getAddr_two (hdims : t.dims = [rows, columns]) (i j : ℕ) :
    t.getAddr [i, j] = .ok (AddressConfig.switchCoCh (t.elementAddr (i * columns + j))) := by
  simp only [NPUTensor2D.getAddr, hdims]

/-- The list of all addresses goes through the elements in order. -/
theorem getAllAddrs_two (hdims : t.dims = [rows, columns]) :
    t.getAllAddrs = (List.range (rows * columns)).map t.elementAddr := by
  have hparts := flatMap_parts rows columns fun n => [t.elementAddr n]
  simp only [← List.map_eq_flatMap] at hparts
  simp only [NPUTensor2D.getAllAddrs, hdims, ← hparts, Nat.mul_comm]

/-- The byte offset of an element, a `uint32_t`. -/
def byteOffset (precision index : ℕ) : ℕ := index * precision % 2 ^ 32

theorem byteOffset_lt (precision index : ℕ) : byteOffset precision index < 2 ^ 32 :=
  Nat.mod_lt _ (by decide)

theorem byteOffset_add (precision m n : ℕ) :
    byteOffset precision (m + n) = (byteOffset precision m + byteOffset precision n) % 2 ^ 32 := by
  rw [byteOffset, byteOffset, byteOffset, Nat.add_mul, Nat.add_mod]

theorem elementAddr_toNat (t : NPUTensor2D) (index : ℕ) :
    (t.elementAddr index).toNat =
      (t.baseAddr.toNat + byteOffset t.precision index) % 2 ^ 64 := by
  have hlt := byteOffset_lt t.precision index
  rw [NPUTensor2D.elementAddr, BitVec.toNat_add, BitVec.toNat_ofNat]
  change (_ + byteOffset t.precision index % 2 ^ 64) % 2 ^ 64 = _
  rw [Nat.mod_eq_of_lt (Nat.lt_trans hlt (by decide))]

/-- The offset within a part, added to the address where the part begins, leads to the element of the
parent only if that address was not moved, and if the offsets add up below the `uint32_t` bound. -/
theorem part_element (t : NPUTensor2D) (m n : ℕ) :
    AddressConfig.switchCoCh (t.elementAddr m) + BitVec.ofNat 64 (byteOffset t.precision n) =
        t.elementAddr (m + n) ↔
      Uniform (t.elementAddr m) 6 9 ∧
        byteOffset t.precision m + byteOffset t.precision n < 2 ^ 32 := by
  have hm := elementAddr_toNat t m
  have hmn := elementAddr_toNat t (m + n)
  have hltm := byteOffset_lt t.precision m
  have hltn := byteOffset_lt t.precision n
  have hadd := byteOffset_add t.precision m n
  have hdiv := (@switchCoCh_fields (t.elementAddr m)).2.2.2
  have hbound := (AddressConfig.switchCoCh (t.elementAddr m)).isLt
  rw [← BitVec.toNat_inj, BitVec.toNat_add, BitVec.toNat_ofNat, ← switchCoCh_fixed,
    ← BitVec.toNat_inj]
  generalize (AddressConfig.switchCoCh (t.elementAddr m)).toNat = moved at *
  rw [hmn, hm] at *
  rcases Nat.lt_or_ge (byteOffset t.precision m + byteOffset t.precision n) (2 ^ 32) with hsum | hsum
  · -- both sides are the same offset from the address where the part begins
    rw [Nat.mod_eq_of_lt hsum] at hadd
    omega
  · -- the two differ above bit 31, which no exchange reaches
    have hwrap : byteOffset t.precision (m + n) =
        byteOffset t.precision m + byteOffset t.precision n - 2 ^ 32 := by
      omega
    omega

/-- A part of `rowDim` rows from the row `first` on. -/
def NPUTensor2D.part (t : NPUTensor2D) (columns first rowDim : ℕ) : NPUTensor2D :=
  ⟨AddressConfig.switchCoCh (t.elementAddr (first * columns)), [rowDim, columns], t.precision⟩

/-- The parts follow one another. -/
theorem splitRows_ok (hdims : t.dims = [rows, columns]) (baseIdx : ℕ) (rowDims : List ℕ) :
    ∃ parts, t.splitRows columns baseIdx rowDims = .ok parts ∧
      ∀ k rowDim, rowDims[k]? = some rowDim →
        parts[k]? = some (t.part columns (baseIdx + (rowDims.take k).sum) rowDim) := by
  induction rowDims generalizing baseIdx with
  | nil => exact ⟨[], rfl, by simp⟩
  | cons rowDim rowDims ih =>
    obtain ⟨rest, hrest, hparts⟩ := ih (baseIdx + rowDim)
    refine ⟨t.part columns baseIdx rowDim :: rest, ?_, ?_⟩
    · exact bind_ok.mpr ⟨_, getAddr_two hdims baseIdx 0, bind_ok.mpr ⟨rest, hrest, rfl⟩⟩
    intro k dim hdim
    cases k with
    | zero =>
      cases hdim
      simp
    | succ k =>
      have hk := hparts k dim hdim
      rw [List.getElem?_cons_succ, hk, List.take_succ_cons, List.sum_cons, Nat.add_assoc]

end Elements

/-- A tensor with two dimensions. -/
def plane (base : AddrType) (precision rows columns : ℕ) : NPUTensor :=
  ⟨[rows, columns], [.plain ⟨base, [rows, columns], precision⟩]⟩

/-- The constructor makes one. -/
theorem activation_plane {config : SimulationConfig} {rows columns : ℕ} {a a' : ActAlloc}
    {t : NPUTensor} (h : NPUTensor.activation config [rows, columns] a = .ok (t, a')) :
    t = plane a.topAddr config.precision rows columns := by
  obtain ⟨inners, hinners, h⟩ := bind_ok.mp h
  cases h
  obtain ⟨allocated, hallocated, hinners⟩ := bind_ok.mp hinners
  cases hinners
  unfold ActAlloc.allocate at hallocated
  split_ifs at hallocated
  cases hallocated
  rfl

/-- The three views give the element one address. -/
def ViewsAgree (t : NPUTensor) (columns i j : ℕ) : Prop :=
  ∃ addr row all, t.getAddr [i, j] = .ok addr ∧ t.getRowAddrs i = .ok row ∧
    t.getAllAddrs = .ok all ∧ row[j]? = some addr ∧ all[i * columns + j]? = some addr

/-- An element of the `k`-th part has the address of the parent's element in that row, counted from
the part's first row. -/
def PartAgrees (t : NPUTensor) (parts : List NPUTensor) (first k r j : ℕ) : Prop :=
  ∃ part addr, parts[k]? = some part ∧ part.getAddr [r, j] = .ok addr ∧
    t.getAddr [first + r, j] = .ok addr

section Planes

variable {rows columns i j : ℕ} (base : AddrType) (precision : ℕ)

theorem plane_getAddr (hi : i < rows) (hj : j < columns) :
    (plane base precision rows columns).getAddr [i, j] =
      .ok (AddressConfig.switchCoCh
        ((⟨base, [rows, columns], precision⟩ : NPUTensor2D).elementAddr (i * columns + j))) := by
  have hin : List.Forall₂ (· < ·) [i, j] (plane base precision rows columns).dims :=
    List.Forall₂.cons hi (List.Forall₂.cons hj List.Forall₂.nil)
  simp only [NPUTensor.getAddr, if_neg (not_not_intro hin)]
  rfl

/-- The rows and the list of all addresses agree; the address by index has been moved. -/
theorem viewsAgree_iff (hi : i < rows) (hj : j < columns) :
    ViewsAgree (plane base precision rows columns) columns i j ↔
      Uniform ((⟨base, [rows, columns], precision⟩ : NPUTensor2D).elementAddr (i * columns + j))
        6 9 := by
  let t : NPUTensor2D := ⟨base, [rows, columns], precision⟩
  have haddr := plane_getAddr base precision hi hj
  have hrow : (plane base precision rows columns).getRowAddrs i =
      .ok ((List.range columns).map fun j => t.elementAddr (i * columns + j)) := rfl
  have hall : (plane base precision rows columns).getAllAddrs = .ok (t.getAllAddrs ++ []) := rfl
  have hindex : i * columns + j < rows * columns := by
    calc i * columns + j < i * columns + columns := Nat.add_lt_add_left hj _
      _ = (i + 1) * columns := (Nat.succ_mul i columns).symm
      _ ≤ rows * columns := Nat.mul_le_mul_right columns hi
  have hentry : ((List.range columns).map fun j => t.elementAddr (i * columns + j))[j]? =
      some (t.elementAddr (i * columns + j)) := by
    simp [hj]
  have hlisted : (t.getAllAddrs ++ [])[i * columns + j]? =
      some (t.elementAddr (i * columns + j)) := by
    have hdims : t.dims = [rows, columns] := rfl
    rw [List.append_nil, getAllAddrs_two hdims]
    simp [hindex]
  rw [← switchCoCh_fixed]
  constructor
  · rintro ⟨addr, row, all, ha, hr, -, hrowEntry, -⟩
    cases haddr.symm.trans ha
    cases hrow.symm.trans hr
    exact (Option.some.inj (hentry.symm.trans hrowEntry)).symm
  · intro hfixed
    rw [hfixed] at haddr
    exact ⟨_, _, _, haddr, hrow, hall, hentry, hlisted⟩

theorem plane_splitByRow {rowDims : List ℕ} {parts : List NPUTensor2D} (hsum : rowDims.sum = rows)
    (hparts : (⟨base, [rows, columns], precision⟩ : NPUTensor2D).splitRows columns 0 rowDims =
      .ok parts) :
    (plane base precision rows columns).splitByRow .ACT rowDims =
      .ok (parts.map fun part => ⟨part.dims, [.plain part]⟩) := by
  have hinner : (⟨base, [rows, columns], precision⟩ : NPUTensor2D).splitByRow rowDims =
      .ok parts := by
    simp only [NPUTensor2D.splitByRow, hsum, if_true, hparts]
  change ((⟨base, [rows, columns], precision⟩ : NPUTensor2D).splitByRow rowDims).map _ = _
  rw [hinner]
  rfl

/-- The parent's address of the element and the one computed from the part's base are moved alike, so
they are equal only if the base has not been moved before. -/
theorem partAgrees_iff {rowDims : List ℕ} {k r rowDim : ℕ} (hsum : rowDims.sum = rows)
    (hk : rowDims[k]? = some rowDim) (hr : r < rowDim) (hj : j < columns) :
    let t : NPUTensor2D := ⟨base, [rows, columns], precision⟩
    let first := (rowDims.take k).sum
    ∃ parts, (plane base precision rows columns).splitByRow .ACT rowDims = .ok parts ∧
      (PartAgrees (plane base precision rows columns) parts first k r j ↔
        Uniform (t.elementAddr (first * columns)) 6 9 ∧
          byteOffset precision (first * columns) + byteOffset precision (r * columns + j) <
            2 ^ 32) := by
  intro t first
  have hdims : t.dims = [rows, columns] := rfl
  obtain ⟨parts, hparts, hpart⟩ := splitRows_ok hdims 0 rowDims
  have hlt := (List.getElem?_eq_some_iff.mp hk).1
  -- the row lies in the parent
  have hrow : first + r < rows := by
    have hdim := (List.getElem?_eq_some_iff.mp hk).2
    have hall := congrArg List.sum (List.take_append_drop k rowDims)
    rw [List.drop_eq_getElem_cons hlt, hdim, List.sum_append, List.sum_cons, hsum] at hall
    change first + (rowDim + _) = rows at hall
    omega
  refine ⟨_, plane_splitByRow base precision hsum hparts, ?_⟩
  have hentry := hpart k rowDim hk
  rw [Nat.zero_add] at hentry
  have hparent := plane_getAddr base precision hrow hj
  have hchild := plane_getAddr (t.part columns first rowDim).baseAddr precision hr hj
  have hindex : (first + r) * columns + j = first * columns + (r * columns + j) := by
    rw [Nat.add_mul, Nat.add_assoc]
  rw [← part_element t, ← hindex, ← switchCoCh_inj]
  constructor
  · rintro ⟨part, addr, hmem, haddr, hsame⟩
    rw [List.getElem?_map, hentry] at hmem
    cases hmem
    exact Except.ok.inj (hchild.symm.trans (haddr.trans (hsame.symm.trans hparent)))
  · intro hsame
    refine ⟨plane (t.part columns first rowDim).baseAddr precision rowDim columns, _, ?_, hchild, ?_⟩
    · rw [List.getElem?_map, hentry]
      rfl
    · rw [hparent]
      exact congrArg Except.ok hsame.symm

end Planes

/-- The views of an element agree exactly where the exchange of the column and the channel bits does
not move it, and a part agrees with its parent exactly where the exchange does not move the part's
first element and the two byte offsets add up to a `uint32_t`. -/
theorem tensor_views_agree (base : AddrType) (precision rows columns : ℕ) :
    let t : NPUTensor2D := ⟨base, [rows, columns], precision⟩
    (∀ i j, i < rows → j < columns →
      (ViewsAgree (plane base precision rows columns) columns i j ↔
        Uniform (t.elementAddr (i * columns + j)) 6 9)) ∧
    ∀ rowDims : List ℕ, rowDims.sum = rows → ∃ parts,
      (plane base precision rows columns).splitByRow .ACT rowDims = .ok parts ∧
      ∀ k rowDim, rowDims[k]? = some rowDim → ∀ r j, r < rowDim → j < columns →
        let first := (rowDims.take k).sum
        (PartAgrees (plane base precision rows columns) parts first k r j ↔
          Uniform (t.elementAddr (first * columns)) 6 9 ∧
            byteOffset precision (first * columns) + byteOffset precision (r * columns + j) <
              2 ^ 32) := by
  intro t
  refine ⟨fun i j hi hj => viewsAgree_iff base precision hi hj, ?_⟩
  intro rowDims hsum
  have hdims : t.dims = [rows, columns] := rfl
  obtain ⟨parts, hparts, -⟩ := splitRows_ok hdims 0 rowDims
  have hsplit : (plane base precision rows columns).splitByRow .ACT rowDims =
      .ok (parts.map fun part => ⟨part.dims, [.plain part]⟩) :=
    plane_splitByRow base precision hsum hparts
  refine ⟨_, hsplit, ?_⟩
  intro k rowDim hk r j hr hj
  obtain ⟨parts', hsplit', hiff⟩ := partAgrees_iff base precision hsum hk hr hj
  cases hsplit.symm.trans hsplit'
  exact hiff

/-- The second block of a row has two addresses, and the second row of a tensor with rows of 2048
bytes, split off, is not where the parent has it. -/
theorem tensor_views_differ :
    ¬ ViewsAgree (plane 0 2 1 64) 64 0 32 ∧
      ∃ parts, (plane 0 2 2 1024).splitByRow .ACT [1, 1] = .ok parts ∧
        ¬ PartAgrees (plane 0 2 2 1024) parts 1 1 0 0 := by
  constructor
  · rw [viewsAgree_iff 0 2 (by decide) (by decide)]
    decide +kernel
  · obtain ⟨parts, hparts, hiff⟩ := partAgrees_iff 0 2 (show [1, 1].sum = 2 from rfl)
      (show [1, 1][1]? = some 1 from rfl) (show 0 < 1 by decide) (show 0 < 1024 by decide)
    refine ⟨parts, hparts, ?_⟩
    intro h
    exact absurd (hiff.mp h).1 (by decide +kernel)

end NewPims
