import Mathlib.Tactic.SplitIfs
import SkynetJit.Lib.Rearrange

/-!
# SkynetJit.Redis.Pqsort

The partial quicksort (`kernel/pqsort.c`): the array is rearranged so that a
range of places holds what it would hold in the sorted array.

A memory is a function from indices to elements, and only the sign of a
comparison is used.  That the array is permuted needs nothing of the comparison;
that the range is in order needs that it orders the elements there are.
-/

namespace SkynetJit.Redis.Pqsort

open Rearrange

variable {α : Type} (cmp : α → α → Ordering)

/-! ## The sort -/

/-- `med3`. -/
def med3 (m : Nat → α) (a b c : Nat) : Nat :=
  if cmp (m a) (m b) = .lt then
    if cmp (m b) (m c) = .lt then b else if cmp (m a) (m c) = .lt then c else a
  else
    if cmp (m b) (m c) = .gt then b else if cmp (m a) (m c) = .lt then a else c

/-- The inner loop of the insertion sort, for the element `k` places behind
`a`. -/
def sink (a : Nat) : Nat → (Nat → α) → Nat → α
  | 0, m => m
  | k + 1, m =>
      if cmp (m (a + k)) (m (a + k + 1)) = .gt then sink a k (swapAt m (a + k + 1) (a + k))
      else m

/-- The insertion sort. -/
def insertionSort (a : Nat) : Nat → (Nat → α) → Nat → α
  | 0, m => m
  | n + 1, m => sink cmp a n (insertionSort a n m)

/-- The index of the element to partition by. -/
def pivotAt (m : Nat → α) (a n : Nat) : Nat :=
  let pm := a + n / 2
  if n > 7 then
    let pl := a
    let pn := a + (n - 1)
    let d := n / 8
    if n > 40 then
      med3 cmp m (med3 cmp m pl (pl + d) (pl + 2 * d)) (med3 cmp m (pm - d) pm (pm + d))
        (med3 cmp m (pn - 2 * d) (pn - d) pn)
    else med3 cmp m pl pm pn
  else pm

/-- The array and the four pointers of the partition. -/
structure Scan (α : Type) where
  m : Nat → α
  pa : Nat
  pb : Nat
  pc : Nat
  pd : Nat

/-- The first inner loop. -/
def scanUp (a : Nat) : Nat → Scan α → Scan α
  | 0, s => s
  | fuel + 1, s =>
      if s.pb ≤ s.pc then
        match cmp (s.m s.pb) (s.m a) with
        | .gt => s
        | .eq => scanUp a fuel { s with m := swapAt s.m s.pa s.pb, pa := s.pa + 1, pb := s.pb + 1 }
        | .lt => scanUp a fuel { s with pb := s.pb + 1 }
      else s

/-- The second inner loop. -/
def scanDown (a : Nat) : Nat → Scan α → Scan α
  | 0, s => s
  | fuel + 1, s =>
      if s.pb ≤ s.pc then
        match cmp (s.m s.pc) (s.m a) with
        | .lt => s
        | .eq => scanDown a fuel { s with m := swapAt s.m s.pc s.pd, pd := s.pd - 1, pc := s.pc - 1 }
        | .gt => scanDown a fuel { s with pc := s.pc - 1 }
      else s

/-- The loop of the partition. -/
def partitionLoop (a : Nat) : Nat → Scan α → Scan α
  | 0, s => s
  | fuel + 1, s =>
      let s := scanDown cmp a (fuel + 1) (scanUp cmp a (fuel + 1) s)
      if s.pb > s.pc then s
      else partitionLoop a fuel { s with m := swapAt s.m s.pb s.pc, pb := s.pb + 1, pc := s.pc - 1 }

/-- `vecswap`. -/
def vecswap (m : Nat → α) (i j : Nat) : Nat → Nat → α
  | 0 => m
  | n + 1 => swapAt (vecswap m i j n) (i + n) (j + n)

/-- Some element of a part is in the range asked for. -/
def meets (lrange rrange a n : Nat) : Bool :=
  !(decide (lrange < a ∧ rrange < a) || decide (lrange ≥ a + n ∧ rrange ≥ a + n))

/-- `_pqsort` on `n` elements from `a` on; the jump back to `loop` is a call
too. -/
def pqsortFrom (lrange rrange : Nat) : Nat → (Nat → α) → Nat → Nat → Nat → α
  | 0, m, _, _ => m
  | fuel + 1, m, a, n =>
      if n < 7 then insertionSort cmp a n m
      else
        let m := swapAt m a (pivotAt cmp m a n)
        let s := partitionLoop cmp a n ⟨m, a + 1, a + 1, a + (n - 1), a + (n - 1)⟩
        let pn := a + n
        let r := min (s.pa - a) (s.pb - s.pa)
        let m := vecswap s.m a (s.pb - r) r
        let r := min (s.pd - s.pc) (pn - s.pd - 1)
        let m := vecswap m s.pb (pn - r) r
        let r := s.pb - s.pa
        let m := if r > 1 ∧ meets lrange rrange a r then pqsortFrom lrange rrange fuel m a r else m
        let r := s.pd - s.pc
        if r > 1 ∧ meets lrange rrange (pn - r) r then pqsortFrom lrange rrange fuel m (pn - r) r else m

/-- `pqsort`, of an array of `n` elements. -/
def pqsort (m : Nat → α) (n lrange rrange : Nat) : Nat → α := pqsortFrom cmp lrange rrange n m 0 n

/-- `pqsort` of the array that holds a list. -/
def pqsortList (lrange rrange : Nat) : List α → List α
  | [] => []
  | x :: xs =>
      (List.range (xs.length + 1)).map
        (pqsort cmp (fun i => (x :: xs).getD i x) (xs.length + 1) lrange rrange)

/-! ## Insertion sort -/

section Insertion

variable {cmp} {m : Nat → α} {a n : Nat}

/-- Every element of a part is not greater than the ones behind it. -/
def Ascending (cmp : α → α → Ordering) (a n : Nat) (m : Nat → α) : Prop :=
  ∀ i j, a ≤ i → i < j → j < a + n → cmp (m i) (m j) ≠ .gt

theorem rearranged_sink (cmp : α → α → Ordering) (a k : Nat) (m : Nat → α) : Rearranged a (a + k + 1) m (sink cmp a k m) := by
  induction k generalizing m with
  | zero => exact .refl _ _ m
  | succ k ih =>
      rw [sink]
      split_ifs
      · have hswap : Rearranged a (a + (k + 1) + 1) m (swapAt m (a + k + 1) (a + k)) :=
          .swapAt (by omega) (by omega)
        exact hswap.trans ((ih _).mono (Nat.le_refl a) (by omega))
      · exact .refl _ _ m

theorem rearranged_insertionSort (cmp : α → α → Ordering) (a n : Nat) (m : Nat → α) :
    Rearranged a (a + n) m (insertionSort cmp a n m) := by
  induction n with
  | zero => exact .refl _ _ m
  | succ n ih => exact (ih.mono (Nat.le_refl a) (by omega)).trans (rearranged_sink cmp a n _)

variable {S : α → Prop}

/-- **An element sinks to its place.** -/
theorem ascending_sink (hcmp : Consistent cmp S) {k : Nat} (hS : ∀ i, a ≤ i → i < a + k + 1 → S (m i))
    (h : Ascending cmp a k m) : Ascending cmp a (k + 1) (sink cmp a k m) := by
  induction k generalizing m with
  | zero =>
      intro i j hi hij hj
      omega
  | succ k ih =>
      rw [sink]
      split_ifs with hgt
      · -- what sinks is below the element it passes
        have hne : ∀ i, a ≤ i → i < a + k → swapAt m (a + k + 1) (a + k) i = m i := fun i _ hi =>
          swapAt_of_ne m (by omega) (by omega)
        have hlast : swapAt m (a + k + 1) (a + k) (a + k) = m (a + k + 1) := swapAt_right m _ _
        have hpassed : swapAt m (a + k + 1) (a + k) (a + k + 1) = m (a + k) := swapAt_left m _ _
        have hSk := hS (a + k) (by omega) (by omega)
        have hSnew := hS (a + k + 1) (by omega) (by omega)
        have hS' : ∀ i, a ≤ i → i < a + k + 1 → S (swapAt m (a + k + 1) (a + k) i) := by
          intro i hi hik
          rcases Nat.lt_or_ge i (a + k) with hlt | hge
          · rw [hne i hi hlt]
            exact hS i hi (by omega)
          · rw [show i = a + k by omega, hlast]
            exact hSnew
        have hasc : Ascending cmp a (k + 1) (sink cmp a k (swapAt m (a + k + 1) (a + k))) := by
          refine ih hS' fun i j hi hij hj => ?_
          rw [hne i hi (by omega), hne j (by omega) hj]
          exact h i j hi hij (by omega)
        have hle : ∀ i, a ≤ i → i < a + k + 1 → cmp (swapAt m (a + k + 1) (a + k) i) (m (a + k)) ≠ .gt := by
          intro i hi hik
          rcases Nat.lt_or_ge i (a + k) with hlt | hge
          · rw [hne i hi hlt]
            exact h i (a + k) hi hlt (by omega)
          · rw [show i = a + k by omega, hlast]
            exact hcmp.le_of_not_lt hSk hSnew (by simp [hgt])
        have hre := rearranged_sink cmp a k (swapAt m (a + k + 1) (a + k))
        intro i j hi hij hj
        rcases Nat.lt_or_ge j (a + k + 1) with hlt | hge
        · exact hasc i j hi hij hlt
        · obtain rfl : j = a + k + 1 := by omega
          have hfixed := hre.outside (k := a + k + 1) (by omega)
          rw [hfixed, hpassed]
          exact hre.forall_mem (P := fun x => cmp x (m (a + k)) ≠ .gt) hle hi hij
      · intro i j hi hij hj
        rcases Nat.lt_or_ge j (a + k + 1) with hlt | hge
        · exact h i j hi hij hlt
        · obtain rfl : j = a + k + 1 := by omega
          rcases Nat.lt_or_ge i (a + k) with hik | hik
          · exact hcmp.trans (hS i hi (by omega)) (hS (a + k) (by omega) (by omega)) (hS _ (by omega) (by omega))
              (h i (a + k) hi hik (by omega)) hgt
          · rwa [show i = a + k by omega]

theorem ascending_insertionSort (hcmp : Consistent cmp S) (hS : ∀ i, a ≤ i → i < a + n → S (m i)) :
    Ascending cmp a n (insertionSort cmp a n m) := by
  induction n with
  | zero =>
      intro i j hi hij hj
      omega
  | succ n ih =>
      have hre := rearranged_insertionSort cmp a n m
      refine ascending_sink hcmp (fun i hi hin => ?_) (ih fun i hi hin => hS i hi (by omega))
      exact (hre.mono (Nat.le_refl a) (Nat.le_succ (a + n))).forall_mem hS hi hin

end Insertion

/-! ## Partition -/

section Partition

variable {cmp} {m₀ : Nat → α} {a n : Nat} {v : α} {s : Scan α}

/-- The zones of the partition by `v`: equal, smaller, not looked at, greater,
equal.  Nothing is needed of the comparison. -/
structure Zones (cmp : α → α → Ordering) (m₀ : Nat → α) (a n : Nat) (v : α) (s : Scan α) : Prop where
  lt_pa : a < s.pa
  pa_le : s.pa ≤ s.pb
  pb_le : s.pb ≤ s.pc + 1
  pc_le : s.pc ≤ s.pd
  pd_lt : s.pd < a + n
  pivot : s.m a = v
  front : ∀ k, a < k → k < s.pa → cmp (s.m k) v = .eq
  low : ∀ k, s.pa ≤ k → k < s.pb → cmp (s.m k) v = .lt
  high : ∀ k, s.pc < k → k ≤ s.pd → cmp (s.m k) v = .gt
  back : ∀ k, s.pd < k → k < a + n → cmp (s.m k) v = .eq
  moved : Rearranged a (a + n) m₀ s.m

/-- An equal element goes to the front zone. -/
theorem Zones.toFront (h : Zones cmp m₀ a n v s) (hb : s.pb ≤ s.pc) (heq : cmp (s.m s.pb) v = .eq) :
    Zones cmp m₀ a n v { s with m := swapAt s.m s.pa s.pb, pa := s.pa + 1, pb := s.pb + 1 } := by
  obtain ⟨h1, h2, h3, h4, h5, hv, hfront, hlow, hhigh, hback, hmoved⟩ := h
  constructor
  all_goals dsimp only
  case pivot => rw [swapAt_of_ne _ (by omega) (by omega), hv]
  case front =>
    intro k hk hka
    rw [swapAt_apply]
    split_ifs with hpa hpb
    · exact heq
    · omega
    · exact hfront k hk (by omega)
  case low =>
    intro k hk hkb
    rw [swapAt_apply]
    split_ifs with hpa hpb
    · omega
    · exact hlow s.pa (Nat.le_refl _) (by omega)
    · exact hlow k (by omega) (by omega)
  case high =>
    intro k hk hkd
    rw [swapAt_of_ne _ (by omega) (by omega)]
    exact hhigh k hk hkd
  case back =>
    intro k hk hkn
    rw [swapAt_of_ne _ (by omega) (by omega)]
    exact hback k hk hkn
  case moved => exact hmoved.trans (.swapAt (by omega) (by omega))
  all_goals omega

/-- A smaller element stays where it is. -/
theorem Zones.toLow (h : Zones cmp m₀ a n v s) (hb : s.pb ≤ s.pc) (hlt : cmp (s.m s.pb) v = .lt) :
    Zones cmp m₀ a n v { s with pb := s.pb + 1 } := by
  obtain ⟨h1, h2, h3, h4, h5, hv, hfront, hlow, hhigh, hback, hmoved⟩ := h
  constructor
  all_goals dsimp only
  case low =>
    intro k hk hkb
    rcases Nat.lt_or_ge k s.pb with hlt' | hge
    · exact hlow k hk hlt'
    · rwa [show k = s.pb by omega]
  all_goals first | assumption | omega

/-- An equal element goes to the back zone. -/
theorem Zones.toBack (h : Zones cmp m₀ a n v s) (hb : s.pb ≤ s.pc) (heq : cmp (s.m s.pc) v = .eq) :
    Zones cmp m₀ a n v { s with m := swapAt s.m s.pc s.pd, pd := s.pd - 1, pc := s.pc - 1 } := by
  obtain ⟨h1, h2, h3, h4, h5, hv, hfront, hlow, hhigh, hback, hmoved⟩ := h
  constructor
  all_goals dsimp only
  case pivot => rw [swapAt_of_ne _ (by omega) (by omega), hv]
  case front =>
    intro k hk hka
    rw [swapAt_of_ne _ (by omega) (by omega)]
    exact hfront k hk hka
  case low =>
    intro k hk hkb
    rcases Nat.lt_or_ge k s.pc with hlt | hge
    · rw [swapAt_of_ne _ (by omega) (by omega)]
      exact hlow k hk hkb
    · omega
  case high =>
    intro k hk hkd
    rw [swapAt_apply]
    split_ifs with hpc hpd
    · exact hhigh s.pd (by omega) (Nat.le_refl _)
    · omega
    · exact hhigh k (by omega) (by omega)
  case back =>
    intro k hk hkn
    rw [swapAt_apply]
    split_ifs with hpc hpd
    · rw [show s.pd = s.pc by omega]
      exact heq
    · exact heq
    · exact hback k (by omega) hkn
  case moved => exact hmoved.trans (.swapAt (by omega) (by omega))
  all_goals omega

/-- A greater element stays where it is. -/
theorem Zones.toHigh (h : Zones cmp m₀ a n v s) (hb : s.pb ≤ s.pc) (hgt : cmp (s.m s.pc) v = .gt) :
    Zones cmp m₀ a n v { s with pc := s.pc - 1 } := by
  obtain ⟨h1, h2, h3, h4, h5, hv, hfront, hlow, hhigh, hback, hmoved⟩ := h
  constructor
  all_goals dsimp only
  case high =>
    intro k hk hkd
    rcases Nat.lt_or_ge s.pc k with hlt | hge
    · exact hhigh k hlt hkd
    · rwa [show k = s.pc by omega]
  all_goals first | assumption | omega

/-- **The first inner loop** stops at an element that is greater. -/
theorem scanUp_spec {fuel : Nat} (h : Zones cmp m₀ a n v s) (hfuel : s.pc + 1 - s.pb ≤ fuel) :
    Zones cmp m₀ a n v (scanUp cmp a fuel s) ∧ (scanUp cmp a fuel s).pc = s.pc ∧
      s.pb ≤ (scanUp cmp a fuel s).pb ∧
      ((scanUp cmp a fuel s).pb ≤ s.pc →
        cmp ((scanUp cmp a fuel s).m (scanUp cmp a fuel s).pb) v = .gt) := by
  induction fuel generalizing s with
  | zero => exact ⟨h, rfl, Nat.le_refl _, fun hle => by rw [scanUp] at hle; omega⟩
  | succ fuel ih =>
      rw [scanUp, h.pivot]
      split_ifs with hb
      · cases hc : cmp (s.m s.pb) v with
        | gt => exact ⟨h, rfl, Nat.le_refl _, fun _ => hc⟩
        | eq =>
            obtain ⟨hz, hpc, hpb, hstop⟩ := ih (h.toFront hb hc) (by dsimp only; omega)
            exact ⟨hz, hpc, Nat.le_trans (Nat.le_succ _) hpb, hstop⟩
        | lt =>
            obtain ⟨hz, hpc, hpb, hstop⟩ := ih (h.toLow hb hc) (by dsimp only; omega)
            exact ⟨hz, hpc, Nat.le_trans (Nat.le_succ _) hpb, hstop⟩
      · exact ⟨h, rfl, Nat.le_refl _, fun hle => absurd hle hb⟩

/-- **The second inner loop** stops at an element that is smaller. -/
theorem scanDown_spec (fuel : Nat) (h : Zones cmp m₀ a n v s) (hfuel : s.pc + 1 - s.pb ≤ fuel)
    (hup : s.pb ≤ s.pc → cmp (s.m s.pb) v = .gt) :
    Zones cmp m₀ a n v (scanDown cmp a fuel s) ∧ (scanDown cmp a fuel s).pb = s.pb ∧
      (scanDown cmp a fuel s).pc ≤ s.pc ∧
      (s.pb ≤ (scanDown cmp a fuel s).pc → cmp ((scanDown cmp a fuel s).m s.pb) v = .gt ∧
        cmp ((scanDown cmp a fuel s).m (scanDown cmp a fuel s).pc) v = .lt) := by
  induction fuel generalizing s with
  | zero => exact ⟨h, rfl, Nat.le_refl _, fun hle => by rw [scanDown] at hle; omega⟩
  | succ fuel ih =>
      have h1 := h.lt_pa
      have h2 := h.pa_le
      have h4 := h.pc_le
      rw [scanDown, h.pivot]
      split_ifs with hb
      · cases hc : cmp (s.m s.pc) v with
        | lt => exact ⟨h, rfl, Nat.le_refl _, fun _ => ⟨hup hb, hc⟩⟩
        | eq =>
            -- the element that stopped the first loop is another one
            have hne : s.pb ≠ s.pc := fun heq => by
              rw [← heq, hup hb] at hc
              contradiction
            have hup' : cmp (swapAt s.m s.pc s.pd s.pb) v = .gt := by
              rw [swapAt_of_ne _ hne (by omega)]
              exact hup hb
            obtain ⟨hz, hpb, hpc, hstop⟩ := ih (h.toBack hb hc) (by dsimp only; omega) fun _ => hup'
            exact ⟨hz, hpb, Nat.le_trans hpc (Nat.sub_le _ _), hstop⟩
        | gt =>
            obtain ⟨hz, hpb, hpc, hstop⟩ := ih (h.toHigh hb hc) (by dsimp only; omega) fun _ => hup hb
            exact ⟨hz, hpb, Nat.le_trans hpc (Nat.sub_le _ _), hstop⟩
      · exact ⟨h, rfl, Nat.le_refl _, fun hle => absurd hle hb⟩

/-- The two elements that stopped the loops change places. -/
theorem Zones.exchange (h : Zones cmp m₀ a n v s) (hb : s.pb < s.pc) (hgt : cmp (s.m s.pb) v = .gt)
    (hlt : cmp (s.m s.pc) v = .lt) :
    Zones cmp m₀ a n v { s with m := swapAt s.m s.pb s.pc, pb := s.pb + 1, pc := s.pc - 1 } := by
  obtain ⟨h1, h2, h3, h4, h5, hv, hfront, hlow, hhigh, hback, hmoved⟩ := h
  constructor
  all_goals dsimp only
  case pivot => rw [swapAt_of_ne _ (by omega) (by omega), hv]
  case front =>
    intro k hk hka
    rw [swapAt_of_ne _ (by omega) (by omega)]
    exact hfront k hk hka
  case low =>
    intro k hk hkb
    rw [swapAt_apply]
    split_ifs with hpb hpc
    · exact hlt
    · omega
    · exact hlow k hk (by omega)
  case high =>
    intro k hk hkd
    rw [swapAt_apply]
    split_ifs with hpb hpc
    · omega
    · exact hgt
    · exact hhigh k (by omega) hkd
  case back =>
    intro k hk hkn
    rw [swapAt_of_ne _ (by omega) (by omega)]
    exact hback k hk hkn
  case moved => exact hmoved.trans (.swapAt (by omega) (by omega))
  all_goals omega

/-- **The partition** looks at everything. -/
theorem partitionLoop_spec (fuel : Nat) (h : Zones cmp m₀ a n v s) (hfuel : s.pc + 1 - s.pb ≤ fuel) :
    Zones cmp m₀ a n v (partitionLoop cmp a fuel s) ∧
      (partitionLoop cmp a fuel s).pb = (partitionLoop cmp a fuel s).pc + 1 := by
  induction fuel generalizing s with
  | zero =>
      have hpb := h.pb_le
      exact ⟨h, by rw [partitionLoop]; omega⟩
  | succ fuel ih =>
      obtain ⟨hup, hpc, hpb, hgt⟩ := scanUp_spec h hfuel
      obtain ⟨hdown, hpb', hpc', hstop⟩ := scanDown_spec (fuel + 1) hup (by omega) (hpc ▸ hgt)
      rw [partitionLoop]
      split_ifs with hdone
      · have hle := hdown.pb_le
        exact ⟨hdown, by omega⟩
      · obtain ⟨hgt', hlt'⟩ := hstop (by omega)
        rw [← hpb'] at hgt'
        have hne : (scanDown cmp a (fuel + 1) (scanUp cmp a (fuel + 1) s)).pb ≠
            (scanDown cmp a (fuel + 1) (scanUp cmp a (fuel + 1) s)).pc := fun heq => by
          rw [heq, hlt'] at hgt'
          contradiction
        exact ih (hdown.exchange (by omega) hgt' hlt') (by dsimp only; omega)

end Partition

/-! ## The equal elements go to the middle -/

section Middle

variable {cmp} {m₀ m : Nat → α} {a n : Nat} {v : α} {s : Scan α}

theorem vecswap_apply {i j n : Nat} (h : i + n ≤ j) (k : Nat) :
    vecswap m i j n k =
      if i ≤ k ∧ k < i + n then m (k - i + j) else if j ≤ k ∧ k < j + n then m (k - j + i) else m k := by
  induction n generalizing k with
  | zero => rw [vecswap, if_neg (by omega), if_neg (by omega)]
  | succ n ih =>
      rw [vecswap, swapAt_apply]
      by_cases hleft : k = i + n
      · rw [if_pos hleft, ih (by omega), if_neg (by omega), if_neg (by omega), if_pos (by omega)]
        congr 1
        omega
      · rw [if_neg hleft]
        by_cases hright : k = j + n
        · rw [if_pos hright, ih (by omega), if_neg (by omega), if_neg (by omega), if_neg (by omega), if_pos (by omega)]
          congr 1
          omega
        · rw [if_neg hright, ih (by omega)]
          congr 1
          · rw [eq_iff_iff]
            omega
          · congr 1
            rw [eq_iff_iff]
            omega

theorem rearranged_vecswap {lo hi i j n : Nat} (hi' : lo ≤ i ∧ i + n ≤ hi) (hj : lo ≤ j ∧ j + n ≤ hi) :
    Rearranged lo hi m (vecswap m i j n) := by
  induction n with
  | zero => exact .refl _ _ m
  | succ n ih => exact (ih (by omega) (by omega)).trans (.swapAt (by omega) (by omega))

/-- **Two zones next to each other change places** when the shorter of them is
exchanged with the far end of the other. -/
theorem vecswap_zones {P Q : α → Prop} {i mid hi r : Nat} (hi' : i ≤ mid) (hmid : mid ≤ hi)
    (hr : min (mid - i) (hi - mid) = r) (hP : ∀ k, i ≤ k → k < mid → P (m k))
    (hQ : ∀ k, mid ≤ k → k < hi → Q (m k)) :
    (∀ k, i ≤ k → k < i + (hi - mid) → Q (vecswap m i (hi - r) r k)) ∧
      (∀ k, i + (hi - mid) ≤ k → k < hi → P (vecswap m i (hi - r) r k)) := by
  constructor
  · intro k hk hkm
    rw [vecswap_apply (by omega)]
    split_ifs
    · exact hQ _ (by omega) (by omega)
    · omega
    · exact hQ k (by omega) (by omega)
  · intro k hk hkh
    rw [vecswap_apply (by omega)]
    split_ifs
    · omega
    · exact hP _ (by omega) (by omega)
    · exact hP k (by omega) (by omega)

/-- A part that is partitioned by `v`: smaller elements, those equal to it, and
greater ones. -/
structure Parted (cmp : α → α → Ordering) (m₀ : Nat → α) (a n : Nat) (v : α) (left right : Nat) (m : Nat → α) :
    Prop where
  size : left + right < n
  low : ∀ k, a ≤ k → k < a + left → cmp (m k) v = .lt
  mid : ∀ k, a + left ≤ k → k < a + n - right → m k = v ∨ cmp (m k) v = .eq
  high : ∀ k, a + n - right ≤ k → k < a + n → cmp (m k) v = .gt
  moved : Rearranged a (a + n) m₀ m

/-- **The two swaps** of blocks leave the part partitioned. -/
theorem Zones.parted (h : Zones cmp m₀ a n v s) (hdone : s.pb = s.pc + 1) {r r' : Nat}
    (hr : min (s.pa - a) (s.pb - s.pa) = r) (hr' : min (s.pd - s.pc) (a + n - s.pd - 1) = r') :
    Parted cmp m₀ a n v (s.pb - s.pa) (s.pd - s.pc)
      (vecswap (vecswap s.m a (s.pb - r) r) s.pb (a + n - r') r') := by
  obtain ⟨h1, h2, h3, h4, h5, hv, hfront, hlow, hhigh, hback, hmoved⟩ := h
  have hfront' : ∀ k, a ≤ k → k < s.pa → s.m k = v ∨ cmp (s.m k) v = .eq := by
    intro k hk hka
    rcases Nat.eq_or_lt_of_le hk with rfl | hlt
    · exact .inl hv
    · exact .inr (hfront k hlt hka)
  obtain ⟨hlow₁, hmid₁⟩ := vecswap_zones (P := fun x => x = v ∨ cmp x v = .eq) (Q := fun x => cmp x v = .lt)
    (Nat.le_of_lt h1) h2 hr hfront' hlow
  have hmove₁ : Rearranged a s.pb s.m (vecswap s.m a (s.pb - r) r) := rearranged_vecswap (by omega) (by omega)
  -- the second swap is behind the first one
  generalize vecswap s.m a (s.pb - r) r = m₁ at hlow₁ hmid₁ hmove₁ ⊢
  obtain ⟨hmid₂, hhigh₂⟩ := vecswap_zones (m := m₁) (P := fun x => cmp x v = .gt)
    (Q := fun x => x = v ∨ cmp x v = .eq) (show s.pb ≤ s.pd + 1 by omega) (show s.pd + 1 ≤ a + n by omega)
    (show min (s.pd + 1 - s.pb) (a + n - (s.pd + 1)) = r' by omega)
    (fun k hk hkd => by
      rw [hmove₁.outside (by omega)]
      exact hhigh k (by omega) (by omega))
    (fun k hk hkn => by
      rw [hmove₁.outside (by omega)]
      exact .inr (hback k hk hkn))
  have hmove₂ : Rearranged s.pb (a + n) m₁ (vecswap m₁ s.pb (a + n - r') r') :=
    rearranged_vecswap (by omega) (by omega)
  constructor
  case size => omega
  case low =>
    intro k hk hkl
    rw [hmove₂.outside (by omega)]
    exact hlow₁ k hk hkl
  case mid =>
    intro k hk hkr
    rcases Nat.lt_or_ge k s.pb with hlt | hge
    · rw [hmove₂.outside (by omega)]
      exact hmid₁ k hk hlt
    · exact hmid₂ k hge (by omega)
  case high => exact fun k hk hkn => hhigh₂ k (by omega) hkn
  case moved => exact (hmoved.trans (hmove₁.mono (Nat.le_refl a) (by omega))).trans (hmove₂.mono (by omega) (Nat.le_refl _))

end Middle

/-! ## The whole sort -/

section Whole

variable {cmp} {S : α → Prop} {m₀ m : Nat → α} {a n left right : Nat} {v : α} {lrange rrange : Nat}

/-- An element of a range of places is not greater than the ones behind it, and
not smaller than the ones before it. -/
def InOrder (cmp : α → α → Ordering) (lrange rrange a n : Nat) (m : Nat → α) : Prop :=
  ∀ i j, a ≤ i → i < j → j < a + n → (lrange ≤ i ∧ i ≤ rrange ∨ lrange ≤ j ∧ j ≤ rrange) → cmp (m i) (m j) ≠ .gt

theorem med3_cases (cmp : α → α → Ordering) (m : Nat → α) (a b c : Nat) : med3 cmp m a b c = a ∨ med3 cmp m a b c = b ∨ med3 cmp m a b c = c := by
  rw [med3]
  split_ifs <;> simp

theorem pivotAt_mem (cmp : α → α → Ordering) (m : Nat → α) (a : Nat) {n : Nat} (hn : 7 ≤ n) : a ≤ pivotAt cmp m a n ∧ pivotAt cmp m a n < a + n := by
  have hbound : ∀ x y z, (a ≤ x ∧ x < a + n) → (a ≤ y ∧ y < a + n) → (a ≤ z ∧ z < a + n) →
      a ≤ med3 cmp m x y z ∧ med3 cmp m x y z < a + n := by
    intro x y z hx hy hz
    rcases med3_cases cmp m x y z with h | h | h <;> rw [h] <;> assumption
  rw [pivotAt]
  dsimp only
  split_ifs
  · exact hbound _ _ _ (hbound _ _ _ (by omega) (by omega) (by omega)) (hbound _ _ _ (by omega) (by omega) (by omega))
      (hbound _ _ _ (by omega) (by omega) (by omega))
  · exact hbound _ _ _ (by omega) (by omega) (by omega)
  · omega

/-- The pivot in front, and nothing looked at. -/
theorem zones_start (cmp : α → α → Ordering) (hn : 7 ≤ n) (h : Rearranged a (a + n) m₀ m) :
    Zones cmp m₀ a n (m a) ⟨m, a + 1, a + 1, a + (n - 1), a + (n - 1)⟩ := by
  constructor
  case moved => exact h
  all_goals dsimp only
  all_goals first | rfl | omega

/-- A part of a part is sorted on its own. -/
theorem Parted.moved_of (h : Parted cmp m₀ a n v left right m) {m' : Nat → α} {lo hi : Nat} (hlo : a ≤ lo)
    (hhi : hi ≤ a + n) (h' : Rearranged lo hi m m') : Rearranged a (a + n) m₀ m' :=
  h.moved.trans (h'.mono hlo hhi)

theorem Parted.sortLow (h : Parted cmp m₀ a n v left right m) {m' : Nat → α} (h' : Rearranged a (a + left) m m') :
    Parted cmp m₀ a n v left right m' := by
  have hsize := h.size
  constructor
  case size => exact hsize
  case low =>
    intro k hk hkl
    exact h'.forall_mem (P := fun x => cmp x v = .lt) h.low hk hkl
  case mid =>
    intro k hk hkr
    rw [h'.outside (by omega)]
    exact h.mid k hk hkr
  case high =>
    intro k hk hkn
    rw [h'.outside (by omega)]
    exact h.high k hk hkn
  case moved => exact h.moved_of (Nat.le_refl a) (by omega) h'

theorem Parted.sortHigh (h : Parted cmp m₀ a n v left right m) {m' : Nat → α}
    (h' : Rearranged (a + n - right) (a + n) m m') : Parted cmp m₀ a n v left right m' := by
  have hsize := h.size
  constructor
  case size => exact hsize
  case low =>
    intro k hk hkl
    rw [h'.outside (by omega)]
    exact h.low k hk hkl
  case mid =>
    intro k hk hkr
    rw [h'.outside (by omega)]
    exact h.mid k hk hkr
  case high =>
    intro k hk hkn
    exact h'.forall_mem (P := fun x => cmp x v = .gt) h.high hk hkn
  case moved => exact h.moved_of (by omega) (Nat.le_refl _) h'

/-- **Sorted parts of a partition are in order together.** -/
theorem Parted.inOrder (h : Parted cmp m₀ a n v left right m) (hcmp : Consistent cmp S) (hv : S v)
    (hS : ∀ k, a ≤ k → k < a + n → S (m k)) (hlow : InOrder cmp lrange rrange a left m)
    (hhigh : InOrder cmp lrange rrange (a + n - right) right m) : InOrder cmp lrange rrange a n m := by
  have hsize := h.size
  -- an element before the greater ones, and one behind the smaller ones
  have hbefore : ∀ k, a ≤ k → k < a + n - right → cmp (m k) v ≠ .gt := by
    intro k hk hkr
    rcases Nat.lt_or_ge k (a + left) with hlt | hge
    · rw [h.low k hk hlt]
      simp
    · rcases h.mid k hge hkr with heq | heq
      · rw [heq]
        exact hcmp.le_refl hv
      · rw [heq]
        simp
  have hbehind : ∀ k, a + left ≤ k → k < a + n → cmp v (m k) ≠ .gt := by
    intro k hk hkn
    have hSk := hS k (by omega) hkn
    rcases Nat.lt_or_ge k (a + n - right) with hlt | hge
    · rcases h.mid k hk hlt with heq | heq
      · rw [heq]
        exact hcmp.le_refl hv
      · exact hcmp.le_of_not_lt hSk hv (by simp [heq])
    · exact hcmp.le_of_not_lt hSk hv (by simp [h.high k hge hkn])
  intro i j hi hij hj hin
  rcases Nat.lt_or_ge j (a + left) with hjl | hjl
  · exact hlow i j hi hij hjl hin
  · rcases Nat.lt_or_ge i (a + n - right) with hir | hir
    · exact hcmp.trans (hS i hi (by omega)) hv (hS j (by omega) hj) (hbefore i hi hir) (hbehind j hjl hj)
    · exact hhigh i j hir hij (by omega) hin

/-- A part that is left alone has no place of the range. -/
theorem inOrder_of_skipped {r : Nat} (h : ¬ (r > 1 ∧ meets lrange rrange a r = true)) : InOrder cmp lrange rrange a r m := by
  intro i j hi hij hj hin
  refine absurd ⟨by omega, ?_⟩ h
  rw [meets, Bool.not_eq_true', Bool.or_eq_false_iff, decide_eq_false_iff_not, decide_eq_false_iff_not]
  omega

/-- What `_pqsort` does with one of the two parts. -/
def sortPart (cmp : α → α → Ordering) (lrange rrange fuel : Nat) (m : Nat → α) (a r : Nat) : Nat → α :=
  if r > 1 ∧ meets lrange rrange a r then pqsortFrom cmp lrange rrange fuel m a r else m

/-- **One round** partitions by one of the elements, and sorts the parts. -/
theorem pqsortFrom_succ (cmp : α → α → Ordering) (lrange rrange fuel : Nat) (m : Nat → α) (a : Nat) {n : Nat} (hn : 7 ≤ n) :
    ∃ p left right m', (a ≤ p ∧ p < a + n) ∧ Parted cmp m a n (m p) left right m' ∧
      pqsortFrom cmp lrange rrange (fuel + 1) m a n =
        sortPart cmp lrange rrange fuel (sortPart cmp lrange rrange fuel m' a left) (a + n - right) right := by
  have hpivot := pivotAt_mem cmp m a hn
  have hfirst : Rearranged a (a + n) m (swapAt m a (pivotAt cmp m a n)) := .swapAt (by omega) hpivot
  have hzones := zones_start cmp hn hfirst
  rw [swapAt_left] at hzones
  obtain ⟨hz, hdone⟩ := partitionLoop_spec n hzones (by dsimp only; omega)
  refine ⟨_, _, _, _, hpivot, hz.parted hdone rfl rfl, ?_⟩
  rw [pqsortFrom, if_neg (by omega)]
  rfl

theorem rearranged_sortPart {fuel : Nat} {m : Nat → α} {a r : Nat}
    (ih : Rearranged a (a + r) m (pqsortFrom cmp lrange rrange fuel m a r)) :
    Rearranged a (a + r) m (sortPart cmp lrange rrange fuel m a r) := by
  rw [sortPart]
  split_ifs
  · exact ih
  · exact .refl _ _ m

/-- **Whatever the comparison is, the elements are only rearranged.** -/
theorem rearranged_pqsortFrom (cmp : α → α → Ordering) (lrange rrange fuel : Nat) (m : Nat → α) (a n : Nat) :
    Rearranged a (a + n) m (pqsortFrom cmp lrange rrange fuel m a n) := by
  induction fuel generalizing m a n with
  | zero => exact .refl _ _ m
  | succ fuel ih =>
      rcases Nat.lt_or_ge n 7 with hn | hn
      · rw [pqsortFrom, if_pos hn]
        exact rearranged_insertionSort cmp a n m
      · obtain ⟨p, left, right, m', -, hparted, hrun⟩ := pqsortFrom_succ cmp lrange rrange fuel m a hn
        have hsize := hparted.size
        have hlow := rearranged_sortPart (ih m' a left)
        have hhigh := rearranged_sortPart (ih (sortPart cmp lrange rrange fuel m' a left) (a + n - right) right)
        rw [show a + n - right + right = a + n by omega] at hhigh
        rw [hrun]
        exact ((hparted.sortLow hlow).sortHigh hhigh).moved

/-- **The range of places holds what it holds in the sorted array.** -/
theorem inOrder_pqsortFrom (lrange rrange : Nat) (hcmp : Consistent cmp S) {fuel : Nat} (hfuel : n ≤ fuel)
    (hS : ∀ k, a ≤ k → k < a + n → S (m k)) :
    InOrder cmp lrange rrange a n (pqsortFrom cmp lrange rrange fuel m a n) := by
  induction fuel generalizing m a n with
  | zero =>
      intro i j hi hij hj
      omega
  | succ fuel ih =>
      rcases Nat.lt_or_ge n 7 with hn | hn
      · rw [pqsortFrom, if_pos hn]
        exact fun i j hi hij hj _ => ascending_insertionSort hcmp hS i j hi hij hj
      · obtain ⟨p, left, right, m', hp, hparted, hrun⟩ := pqsortFrom_succ cmp lrange rrange fuel m a hn
        have hsize := hparted.size
        have hpart : ∀ {m : Nat → α} {a r : Nat}, r ≤ fuel → (∀ k, a ≤ k → k < a + r → S (m k)) →
            InOrder cmp lrange rrange a r (sortPart cmp lrange rrange fuel m a r) := by
          intro m a r hr hS
          rw [sortPart]
          split_ifs with hmeets
          · exact ih hr hS
          · exact inOrder_of_skipped hmeets
        have hmove : ∀ (m : Nat → α) (a r : Nat), Rearranged a (a + r) m (sortPart cmp lrange rrange fuel m a r) :=
          fun m a r => rearranged_sortPart (rearranged_pqsortFrom cmp lrange rrange fuel m a r)
        -- the smaller elements, and then the greater ones
        have hlow := hparted.sortLow (hmove m' a left)
        generalize hm₂ : sortPart cmp lrange rrange fuel m' a left = m₂ at hlow hrun
        have hright := hmove m₂ (a + n - right) right
        rw [show a + n - right + right = a + n by omega] at hright
        have hall := hlow.sortHigh hright
        have hS' : ∀ {m' : Nat → α}, Rearranged a (a + n) m m' → ∀ k, a ≤ k → k < a + n → S (m' k) :=
          fun h k hk hkn => h.forall_mem hS hk hkn
        rw [hrun]
        refine hall.inOrder hcmp (hS p hp.1 hp.2) (hS' hall.moved) ?_ ?_
        · intro i j hi hij hj hin
          rw [hright.outside (by omega), hright.outside (by omega), ← hm₂]
          exact hpart (by omega) (fun k hk hkl => hS' hparted.moved k hk (by omega)) i j hi hij hj hin
        · exact hpart (by omega) fun k hk hkn => hS' hlow.moved k (by omega) (by omega)

/-! ## Lists -/

theorem map_getD_range (x : α) (xs : List α) : ((List.range xs.length).map fun i => xs.getD i x) = xs := by
  refine List.ext_getElem (by simp) fun i hi hi' => ?_
  simp [hi']

/-- **Whatever the comparison is, the array is permuted.** -/
theorem perm_pqsortList (cmp : α → α → Ordering) (lrange rrange : Nat) (xs : List α) :
    (pqsortList cmp lrange rrange xs).Perm xs := by
  cases xs with
  | nil => exact .refl _
  | cons x xs =>
      have hmove := rearranged_pqsortFrom cmp lrange rrange (xs.length + 1) (fun i => (x :: xs).getD i x) 0 (xs.length + 1)
      rw [Nat.zero_add] at hmove
      have hperm := hmove.perm
      have hload := map_getD_range x (x :: xs)
      rw [List.length_cons] at hload
      rw [hload] at hperm
      exact hperm

/-- **The range asked for is in order**, if the comparison orders the elements
there are. -/
theorem inOrder_pqsortList {xs : List α} (hcmp : Consistent cmp (· ∈ xs)) {i j : Nat} {x y : α} (hij : i < j)
    (hx : (pqsortList cmp lrange rrange xs)[i]? = some x) (hy : (pqsortList cmp lrange rrange xs)[j]? = some y)
    (hin : lrange ≤ i ∧ i ≤ rrange ∨ lrange ≤ j ∧ j ≤ rrange) : cmp x y ≠ .gt := by
  cases xs with
  | nil => cases hx
  | cons z zs =>
      have hS : ∀ k, 0 ≤ k → k < 0 + (zs.length + 1) → (z :: zs).getD k z ∈ z :: zs := by
        intro k _ hk
        have hlen : k < (z :: zs).length := by simpa using hk
        rw [List.getD_eq_getElem?_getD, List.getElem?_eq_getElem hlen]
        exact List.getElem_mem hlen
      have horder := inOrder_pqsortFrom lrange rrange hcmp (Nat.le_refl (zs.length + 1)) hS
      rw [pqsortList, List.getElem?_map, Option.map_eq_some_iff] at hx hy
      obtain ⟨i', hi', rfl⟩ := hx
      obtain ⟨j', hj', rfl⟩ := hy
      obtain ⟨hi, rfl⟩ := List.getElem?_eq_some_iff.mp hi'
      obtain ⟨hj, rfl⟩ := List.getElem?_eq_some_iff.mp hj'
      rw [List.length_range] at hj
      rw [List.getElem_range, List.getElem_range]
      exact horder i j (Nat.zero_le i) hij (by omega) hin

/-- The first places, when they are asked for: in order, and none greater than
what is behind them. -/
theorem front_pqsortList {xs : List α} (hcmp : Consistent cmp (· ∈ xs)) {n : Nat} (hn : 0 < n) :
    ((pqsortList cmp 0 (n - 1) xs).take n).Pairwise (fun x y => cmp x y ≠ .gt) ∧
      ∀ x ∈ (pqsortList cmp 0 (n - 1) xs).take n, ∀ y ∈ (pqsortList cmp 0 (n - 1) xs).drop n, cmp x y ≠ .gt := by
  constructor
  · rw [List.pairwise_iff_getElem]
    intro i j hi hj hij
    rw [List.length_take] at hi hj
    rw [List.getElem_take, List.getElem_take]
    exact inOrder_pqsortList hcmp hij (List.getElem?_eq_getElem _) (List.getElem?_eq_getElem _) (by omega)
  · intro x hx y hy
    obtain ⟨i, hi, rfl⟩ := List.mem_iff_getElem.mp hx
    obtain ⟨j, hj, rfl⟩ := List.mem_iff_getElem.mp hy
    rw [List.length_take] at hi
    rw [List.length_drop] at hj
    rw [List.getElem_take, List.getElem_drop]
    exact inOrder_pqsortList hcmp (show i < n + j by omega) (List.getElem?_eq_getElem _) (List.getElem?_eq_getElem _)
      (by omega)

/-- Asked for the whole array, it is sorted. -/
theorem pairwise_pqsortList {xs : List α} (hcmp : Consistent cmp (· ∈ xs)) :
    (pqsortList cmp 0 (xs.length - 1) xs).Pairwise fun x y => cmp x y ≠ .gt := by
  cases xs with
  | nil => exact .nil
  | cons x xs =>
      have hfront := (front_pqsortList hcmp (show 0 < (x :: xs).length from Nat.succ_pos _)).1
      rwa [List.take_of_length_le (Nat.le_of_eq (perm_pqsortList _ _ _ _).length_eq)] at hfront

/-- **The partial quicksort**: the array is permuted, whatever the comparison
is; and if it orders the elements there are, every place of the range asked for
holds an element that is not smaller than any before it and not greater than
any behind it, which is what the place holds in the sorted array. -/
theorem pqsort_spec (cmp : α → α → Ordering) (lrange rrange : Nat) (xs : List α) :
    (pqsortList cmp lrange rrange xs).Perm xs ∧
      (Consistent cmp (· ∈ xs) → ∀ (i j : Nat) (x y : α), i < j →
        (pqsortList cmp lrange rrange xs)[i]? = some x → (pqsortList cmp lrange rrange xs)[j]? = some y →
        (lrange ≤ i ∧ i ≤ rrange ∨ lrange ≤ j ∧ j ≤ rrange) → cmp x y ≠ .gt) :=
  ⟨perm_pqsortList cmp lrange rrange xs, fun hcmp _ _ _ _ hij hx hy hin => inOrder_pqsortList hcmp hij hx hy hin⟩

end Whole

theorem pqsort_spec_sample :
    ∀ (i j : Nat) (x y : Nat), i < j → (pqsortList compare 2 3 [5, 3, 8, 1, 9, 2, 7, 4, 6])[i]? = some x →
      (pqsortList compare 2 3 [5, 3, 8, 1, 9, 2, 7, 4, 6])[j]? = some y → (2 ≤ i ∧ i ≤ 3 ∨ 2 ≤ j ∧ j ≤ 3) →
      compare x y ≠ .gt := by
  refine (pqsort_spec compare 2 3 [5, 3, 8, 1, 9, 2, 7, 4, 6]).2 ⟨fun _ _ => Std.OrientedCmp.eq_swap, ?_⟩
  intro x y z _ _ _ hxy hyz
  rw [Nat.compare_ne_gt] at *
  omega

end SkynetJit.Redis.Pqsort
