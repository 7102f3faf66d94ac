import Mathlib.Algebra.Ring.Nat
import Mathlib.Data.BitVec
import Mathlib.Data.List.Forall2
import Mathlib.Data.List.Nodup

/-! Entries that a counter hands out one after the other: each starts where the one before ended.
Where they start, when they are distinct, and when they keep to a range; also for groups of entries
that share the counter. -/
namespace NewPims.Consecutive

section Starts

variable {o limit gap : ℕ} {ns ms : List ℕ}

/-- Where entries of the given sizes start, from `o` on. -/
def starts : ℕ → List ℕ → List ℕ
  | _, [] => []
  | o, n :: ns => o :: starts (o + n) ns

theorem le_starts : ∀ x ∈ starts o ns, o ≤ x ∧ x ≤ o + ns.dropLast.sum := by
  induction ns generalizing o with
  | nil => exact fun x hx => absurd hx List.not_mem_nil
  | cons n ns ih =>
    intro x hx
    rcases List.mem_cons.mp hx with rfl | hx
    · exact ⟨Nat.le_refl x, Nat.le_add_right x _⟩
    · obtain ⟨hge, hle⟩ := ih x hx
      cases ns with
      | nil => exact absurd hx List.not_mem_nil
      | cons m ns =>
        rw [List.dropLast_cons_cons, List.sum_cons]
        omega

/-- No two entries start at the same place exactly if only the last may be empty. -/
theorem nodup_starts : (starts o ns).Nodup ↔ 0 ∉ ns.dropLast := by
  induction ns generalizing o with
  | nil => simp [starts]
  | cons n ns ih =>
    cases ns with
    | nil => simp [starts]
    | cons m ns =>
      rw [List.dropLast_cons_cons, List.mem_cons, not_or, starts, List.nodup_cons, ih]
      apply and_congr_left'
      constructor
      · rintro hnot rfl
        exact hnot List.mem_cons_self
      · intro hne hmem
        have := (le_starts o hmem).1
        omega

/-- The entries start in the range where `P` holds exactly if the last one does: none can skip the
gap behind the range. -/
theorem forall_starts_iff {P : ℕ → Prop} (hgood : ∀ x < limit, P x)
    (hbad : ∀ x, limit ≤ x → x < limit + gap → ¬ P x) (hgap : ∀ n ∈ ns, n < gap) (ho : o < limit) :
    (∀ x ∈ starts o ns, P x) ↔ o + ns.dropLast.sum < limit := by
  constructor
  · intro hall
    induction ns generalizing o with
    | nil => exact ho
    | cons n ns ih =>
      cases ns with
      | nil => exact ho
      | cons m ns =>
        have hn := hgap n List.mem_cons_self
        have hnext : o + n < limit := by
          by_contra hge
          exact hbad (o + n) (by omega) (by omega)
            (hall _ (List.mem_cons_of_mem _ List.mem_cons_self))
        have hrest := ih (fun k hk => hgap k (List.mem_cons_of_mem n hk)) hnext
          fun x hx => hall x (List.mem_cons_of_mem _ hx)
        rw [List.dropLast_cons_cons, List.sum_cons]
        omega
  · intro hlast x hx
    exact hgood x (Nat.lt_of_le_of_lt (le_starts x hx).2 hlast)

end Starts

section Entries

variable {w : ℕ} {a : BitVec w} {ns ms : List ℕ} {nss : List (List ℕ)}

/-- The entries of the given sizes, with the value of the counter as their keys. -/
def entries : BitVec w → List ℕ → List (BitVec w × ℕ)
  | _, [] => []
  | a, n :: ns => (a, n) :: entries (a + BitVec.ofNat w n) ns

theorem entries_append :
    entries a (ns ++ ms) = entries a ns ++ entries (a + BitVec.ofNat w ns.sum) ms := by
  induction ns generalizing a with
  | nil => simp [entries]
  | cons n ns ih =>
    rw [List.cons_append, entries, ih, entries, List.cons_append, List.sum_cons, BitVec.ofNat_add,
      BitVec.add_assoc]

theorem entries_sizes : (entries a ns).map Prod.snd = ns := by
  induction ns generalizing a with
  | nil => rfl
  | cons n ns ih => rw [entries, List.map_cons, ih]

theorem entries_keys (o : ℕ) :
    (entries (a + BitVec.ofNat w o) ns).map Prod.fst =
      (starts o ns).map fun x => a + BitVec.ofNat w x := by
  induction ns generalizing o with
  | nil => rfl
  | cons n ns ih =>
    rw [entries, starts, List.map_cons, List.map_cons, BitVec.add_assoc, ← BitVec.ofNat_add, ih]

theorem entries_keys_zero :
    (entries a ns).map Prod.fst = (starts 0 ns).map fun x => a + BitVec.ofNat w x := by
  have h : (entries (a + BitVec.ofNat w 0) ns).map Prod.fst =
      (starts 0 ns).map fun x => a + BitVec.ofNat w x := entries_keys 0
  rwa [BitVec.add_zero] at h

/-- Entries that do not go around the counter have distinct keys exactly if only the last may be
empty. -/
theorem nodup_keys (h : ns.dropLast.sum < 2 ^ w) :
    ((entries a ns).map Prod.fst).Nodup ↔ 0 ∉ ns.dropLast := by
  rw [entries_keys_zero, ← nodup_starts (o := 0)]
  constructor
  · exact List.Nodup.of_map _
  · intro hnodup
    refine hnodup.map_on fun x hx y hy heq => ?_
    have hx' := (le_starts x hx).2
    have hy' := (le_starts y hy).2
    have hnat := congrArg BitVec.toNat (add_left_cancel heq)
    rwa [BitVec.toNat_ofNat, BitVec.toNat_ofNat, Nat.mod_eq_of_lt (by omega),
      Nat.mod_eq_of_lt (by omega)] at hnat

/-- Groups of entries, each going on where the one before ended. -/
def groups : BitVec w → List (List ℕ) → List (List (BitVec w × ℕ))
  | _, [] => []
  | a, ns :: nss => entries a ns :: groups (a + BitVec.ofNat w ns.sum) nss

theorem flatten_groups : (groups a nss).flatten = entries a nss.flatten := by
  induction nss generalizing a with
  | nil => rfl
  | cons ns nss ih => rw [groups, List.flatten_cons, ih, List.flatten_cons, entries_append]

/-- What does not depend on where a group starts. -/
theorem forall_groups {Q : List (BitVec w × ℕ) → Prop} {R : List ℕ → Prop}
    (h : ∀ ns ∈ nss, ∀ b, Q (entries b ns) ↔ R ns) :
    (∀ es ∈ groups a nss, Q es) ↔ ∀ ns ∈ nss, R ns := by
  induction nss generalizing a with
  | nil => simp [groups]
  | cons ns nss ih =>
    rw [groups, List.forall_mem_cons, List.forall_mem_cons, h ns List.mem_cons_self,
      ih fun ms hms => h ms (List.mem_cons_of_mem ns hms)]

/-- What holds of the keys of all groups. -/
theorem forall_keys {P : BitVec w → Prop} :
    (∀ es ∈ groups a nss, ∀ e ∈ es, P e.1) ↔
      ∀ x ∈ starts 0 nss.flatten, P (a + BitVec.ofNat w x) := by
  have hflat : (∀ es ∈ groups a nss, ∀ e ∈ es, P e.1) ↔ ∀ e ∈ entries a nss.flatten, P e.1 := by
    rw [← flatten_groups]
    simp only [List.mem_flatten]
    exact ⟨fun h e hmem => hmem.elim fun es hes => h es hes.1 e hes.2,
      fun h es hes e he => h e ⟨es, hes, he⟩⟩
  have hkeys : (∀ e ∈ entries a nss.flatten, P e.1) ↔
      ∀ k ∈ (entries a nss.flatten).map Prod.fst, P k := by
    rw [List.forall_mem_map]
  rw [hflat, hkeys, entries_keys_zero, List.forall_mem_map]

/-- The entries take no more than `limit`, and their keys are distinct and have the property `P`. -/
structure FitsIn (limit : ℕ) (P : BitVec w → Prop) (es : List (BitVec w × ℕ)) : Prop where
  size : (es.map Prod.snd).sum ≤ limit
  keys : (es.map Prod.fst).Nodup
  side : ∀ e ∈ es, P e.1

theorem sum_dropLast_le : ns.dropLast.sum ≤ ns.sum := by
  rcases List.eq_nil_or_concat ns with rfl | ⟨ms, n, rfl⟩
  · exact Nat.le_refl _
  · rw [List.concat_eq_append, List.dropLast_concat, List.sum_append]
    exact Nat.le_add_right _ _

/-- What it takes for all groups to fit. -/
theorem groups_fit_iff {limit : ℕ} {P : BitVec w → Prop} (hlimit : limit < 2 ^ w) :
    (∀ es ∈ groups a nss, FitsIn limit P es) ↔
      (∀ ns ∈ nss, ns.sum ≤ limit ∧ 0 ∉ ns.dropLast) ∧
        ∀ x ∈ starts 0 nss.flatten, P (a + BitVec.ofNat w x) := by
  have hgroup : ∀ ns ∈ nss, ∀ b : BitVec w,
      (((entries b ns).map Prod.snd).sum ≤ limit ∧ ((entries b ns).map Prod.fst).Nodup ↔
        ns.sum ≤ limit ∧ 0 ∉ ns.dropLast) := by
    intro ns _ b
    rw [entries_sizes]
    refine and_congr_right fun hle => nodup_keys ?_
    have hlast : ns.dropLast.sum ≤ ns.sum := sum_dropLast_le
    omega
  have hsizes := forall_groups (a := a)
    (Q := fun es => (es.map Prod.snd).sum ≤ limit ∧ (es.map Prod.fst).Nodup) hgroup
  rw [← hsizes, ← forall_keys]
  constructor
  · exact fun h => ⟨fun es hes => ⟨(h es hes).size, (h es hes).keys⟩, fun es hes => (h es hes).side⟩
  · exact fun h es hes => ⟨(h.1 es hes).1, (h.1 es hes).2, h.2 es hes⟩

end Entries

end NewPims.Consecutive
