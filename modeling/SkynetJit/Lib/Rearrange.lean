import Mathlib.Data.List.Nodup
import Mathlib.Logic.Equiv.Basic

/-!
# SkynetJit.Lib.Rearrange

Rearranging a part of a memory.

A memory is a function from places to values.  `Rearranged lo hi m m'` says
that `m'` holds in `[lo, hi)` what `m` holds there, in some order, and the same
everywhere else.  What holds for all values in a part that contains it, holds
after the rearrangement.

`Consistent cmp S` says that a comparison orders the values in `S`, which is
all a sort can rely on when there are others.

Nothing here depends on the values.
-/

namespace SkynetJit

namespace Rearrange

variable {α : Type}

/-- Exchange two places. -/
def swapAt (m : Nat → α) (i j : Nat) : Nat → α := fun k => m (Equiv.swap i j k)

/-- The values in `[lo, hi)` in another order. -/
def Rearranged (lo hi : Nat) (m m' : Nat → α) : Prop :=
  ∃ σ : Equiv.Perm Nat, (∀ k, ¬ (lo ≤ k ∧ k < hi) → σ k = k) ∧ ∀ k, m' k = m (σ k)

/-- A comparison orders the values in a set. -/
structure Consistent (cmp : α → α → Ordering) (S : α → Prop) : Prop where
  swap : ∀ {x y}, S x → S y → cmp y x = (cmp x y).swap
  trans : ∀ {x y z}, S x → S y → S z → cmp x y ≠ .gt → cmp y z ≠ .gt → cmp x z ≠ .gt

variable {lo hi lo' hi' : Nat} {m m' m'' : Nat → α}

@[simp] theorem swapAt_left (m : Nat → α) (i j : Nat) : swapAt m i j i = m j := by
  rw [swapAt, Equiv.swap_apply_left]

@[simp] theorem swapAt_right (m : Nat → α) (i j : Nat) : swapAt m i j j = m i := by
  rw [swapAt, Equiv.swap_apply_right]

theorem swapAt_apply (m : Nat → α) (i j k : Nat) :
    swapAt m i j k = if k = i then m j else if k = j then m i else m k := by
  rw [swapAt, Equiv.swap_apply_def]
  split_ifs <;> rfl

theorem swapAt_of_ne (m : Nat → α) {i j k : Nat} (hi : k ≠ i) (hj : k ≠ j) : swapAt m i j k = m k := by
  rw [swapAt, Equiv.swap_apply_of_ne_of_ne hi hj]

namespace Rearranged

theorem refl (lo hi : Nat) (m : Nat → α) : Rearranged lo hi m m := ⟨Equiv.refl Nat, fun _ _ => rfl, fun _ => rfl⟩

theorem trans (h : Rearranged lo hi m m') (h' : Rearranged lo hi m' m'') : Rearranged lo hi m m'' := by
  obtain ⟨σ, hσ, hm⟩ := h
  obtain ⟨τ, hτ, hm'⟩ := h'
  refine ⟨τ.trans σ, fun k hk => ?_, fun k => ?_⟩
  · rw [Equiv.trans_apply, hτ k hk, hσ k hk]
  · rw [hm' k, hm (τ k), Equiv.trans_apply]

/-- A larger part. -/
theorem mono (h : Rearranged lo hi m m') (hlo : lo' ≤ lo) (hhi : hi ≤ hi') : Rearranged lo' hi' m m' := by
  obtain ⟨σ, hσ, hm⟩ := h
  exact ⟨σ, fun k hk => hσ k (by omega), hm⟩

theorem swapAt {i j : Nat} (hi' : lo ≤ i ∧ i < hi) (hj : lo ≤ j ∧ j < hi) :
    Rearranged lo hi m (Rearrange.swapAt m i j) := by
  refine ⟨Equiv.swap i j, fun k hk => Equiv.swap_apply_of_ne_of_ne ?_ ?_, fun _ => rfl⟩
  · rintro rfl
    exact hk hi'
  · rintro rfl
    exact hk hj

theorem outside (h : Rearranged lo hi m m') {k : Nat} (hk : ¬ (lo ≤ k ∧ k < hi)) : m' k = m k := by
  obtain ⟨σ, hσ, hm⟩ := h
  rw [hm, hσ k hk]

/-- What holds for all values of a part holds for them in another order. -/
theorem forall_mem (h : Rearranged lo hi m m') {P : α → Prop} (hP : ∀ k, lo ≤ k → k < hi → P (m k)) {k : Nat}
    (hlo : lo ≤ k) (hhi : k < hi) : P (m' k) := by
  obtain ⟨σ, hσ, hm⟩ := h
  have hin : lo ≤ σ k ∧ σ k < hi := by
    by_contra hout
    have hfix := σ.injective (hσ (σ k) hout)
    exact hout (by rw [hfix]; exact ⟨hlo, hhi⟩)
  rw [hm]
  exact hP _ hin.1 hin.2

/-- Read as a list, the part is permuted. -/
theorem perm (h : Rearranged 0 hi m m') : ((List.range hi).map m').Perm ((List.range hi).map m) := by
  obtain ⟨σ, hσ, hm⟩ := h
  have hσ' : ((List.range hi).map σ).Perm (List.range hi) := by
    refine (List.perm_ext_iff_of_nodup (List.nodup_range.map σ.injective) List.nodup_range).mpr fun k => ?_
    rw [List.mem_map, List.mem_range]
    constructor
    · rintro ⟨j, hj, rfl⟩
      rw [List.mem_range] at hj
      by_contra hout
      have hfix := σ.injective (hσ (σ j) (by omega))
      omega
    · intro hk
      refine ⟨σ.symm k, ?_, σ.apply_symm_apply k⟩
      rw [List.mem_range]
      by_contra hout
      have hfix := hσ (σ.symm k) (by omega)
      rw [σ.apply_symm_apply] at hfix
      omega
  have hmap : (List.range hi).map m' = ((List.range hi).map σ).map m := by
    rw [List.map_map]
    exact List.map_congr_left fun k _ => hm k
  rw [hmap]
  exact hσ'.map m

end Rearranged

namespace Consistent

variable {cmp : α → α → Ordering} {S : α → Prop} {x y : α}

theorem le_refl (h : Consistent cmp S) (hx : S x) : cmp x x ≠ .gt := by
  have hswap := h.swap hx hx
  intro hgt
  rw [hgt] at hswap
  contradiction

/-- Not smaller one way is not greater the other way. -/
theorem le_of_not_lt (h : Consistent cmp S) (hx : S x) (hy : S y) (hne : cmp x y ≠ .lt) : cmp y x ≠ .gt := by
  rw [h.swap hx hy]
  cases hxy : cmp x y with
  | lt => exact absurd hxy hne
  | eq => simp
  | gt => simp

/-- The order turned round. -/
theorem reverse (h : Consistent cmp S) : Consistent (fun x y => (cmp x y).swap) S where
  swap hx hy := by rw [h.swap hx hy]
  trans hx hy hz hxy hyz := by
    rw [← h.swap hx hy] at hxy
    rw [← h.swap hy hz] at hyz
    rw [← h.swap hx hz]
    exact h.trans hz hy hx hyz hxy

theorem subset {T : α → Prop} (h : Consistent cmp S) (hT : ∀ x, T x → S x) : Consistent cmp T where
  swap hx hy := h.swap (hT _ hx) (hT _ hy)
  trans hx hy hz := h.trans (hT _ hx) (hT _ hy) (hT _ hz)

end Consistent

end Rearrange

end SkynetJit
