import SkynetJit.Redis.Decimal

/-!
# SkynetJit.Redis.Set.Intset

Sorted arrays of integers (`kernel/intset.c`): the width of the elements, the
binary search, and insertion and removal at the position it finds.
-/

namespace SkynetJit.Redis

/-- An intset: the bytes each element takes, and the elements. -/
structure Intset where
  encoding : Nat
  contents : List Int
deriving DecidableEq, Repr

/-- `_intsetValueEncoding`. -/
def intsetValueEncoding (v : Int) : Nat :=
  if v < -2 ^ 31 ∨ v > 2 ^ 31 - 1 then 8
  else if v < -2 ^ 15 ∨ v > 2 ^ 15 - 1 then 4
  else 2

/-- `intsetNew`. -/
def intsetNew : Intset := ⟨2, []⟩

/-- `_intsetGet`. -/
def Intset.get (is : Intset) (pos : Nat) : Int := is.contents.getD pos 0

/-- The loop of `intsetSearch` over the positions from `min` up to but not
including `max`.  It takes at most `fuel` turns, each of which leaves a
smaller range. -/
def intsetSearchLoop (is : Intset) (value : Int) : Nat → Nat → Nat → Bool × Nat
  | 0, min, _ => (false, min)
  | fuel + 1, min, max =>
      if min < max then
        let mid := (min + (max - 1)) / 2
        let cur := is.get mid
        if value > cur then intsetSearchLoop is value fuel (mid + 1) max
        else if value < cur then intsetSearchLoop is value fuel min mid
        else (true, mid)
      else (false, min)

/-- `intsetSearch`: whether the value is there, and where it is or belongs. -/
def intsetSearch (is : Intset) (value : Int) : Bool × Nat :=
  let length := is.contents.length
  if length = 0 then (false, 0)
  else if value > is.get (length - 1) then (false, length)
  else if value < is.get 0 then (false, 0)
  else intsetSearchLoop is value length 0 length

/-- `intsetUpgradeAndAdd`. -/
def intsetUpgradeAndAdd (is : Intset) (value : Int) : Intset where
  encoding := intsetValueEncoding value
  contents := if value < 0 then value :: is.contents else is.contents ++ [value]

/-- `intsetAdd`, and whether the value was new. -/
def intsetAdd (is : Intset) (value : Int) : Bool × Intset :=
  if intsetValueEncoding value > is.encoding then (true, intsetUpgradeAndAdd is value)
  else match intsetSearch is value with
    | (true, _) => (false, is)
    | (false, pos) =>
        (true, { is with contents := is.contents.take pos ++ value :: is.contents.drop pos })

/-- `intsetRemove`, and whether the value was there. -/
def intsetRemove (is : Intset) (value : Int) : Bool × Intset :=
  if intsetValueEncoding value ≤ is.encoding then
    match intsetSearch is value with
    | (true, pos) =>
        (true, { is with contents := is.contents.take pos ++ is.contents.drop (pos + 1) })
    | (false, _) => (false, is)
  else (false, is)

/-- `intsetFind`. -/
def intsetFind (is : Intset) (value : Int) : Bool :=
  decide (intsetValueEncoding value ≤ is.encoding) && (intsetSearch is value).1

/-! ## Sortedness -/

/-- The elements ascend, and each fits the width. -/
structure Intset.Wf (is : Intset) : Prop where
  sorted : is.contents.Pairwise (· < ·)
  fits : ∀ v ∈ is.contents, intsetValueEncoding v ≤ is.encoding
  int64 : ∀ v ∈ is.contents, IsInt64 v

theorem intsetNew_wf : intsetNew.Wf := ⟨.nil, nofun, nofun⟩

theorem Intset.get_eq {is : Intset} {i : Nat} (h : i < is.contents.length) :
    is.get i = is.contents[i] := by
  simp [Intset.get, h]

theorem Intset.Wf.get_lt {is : Intset} (h : is.Wf) {i j : Nat} (hij : i < j)
    (hj : j < is.contents.length) : is.get i < is.get j := by
  rw [Intset.get_eq (by omega), Intset.get_eq hj]
  exact List.pairwise_iff_getElem.mp h.sorted i j (by omega) hj hij

/-- Where a value is, or belongs. -/
structure SearchResult (is : Intset) (value : Int) (r : Bool × Nat) : Prop where
  found : r.1 = true → r.2 < is.contents.length ∧ is.get r.2 = value
  le : r.2 ≤ is.contents.length
  below : r.1 = false → ∀ i < r.2, is.get i < value
  above : r.1 = false → ∀ i, r.2 ≤ i → i < is.contents.length → value < is.get i

theorem intsetSearchLoop_spec {is : Intset} (h : is.Wf) {value : Int} (fuel : Nat) {min max : Nat}
    (hfuel : max - min ≤ fuel) (hmin : min ≤ max) (hmax : max ≤ is.contents.length)
    (hbelow : ∀ i < min, is.get i < value)
    (habove : ∀ i, max ≤ i → i < is.contents.length → value < is.get i) :
    SearchResult is value (intsetSearchLoop is value fuel min max) := by
  induction fuel generalizing min max with
  | zero =>
      obtain rfl : min = max := by omega
      exact ⟨nofun, hmax, fun _ => hbelow, fun _ => habove⟩
  | succ fuel ih =>
      rw [intsetSearchLoop]
      by_cases hlt : min < max
      swap
      · rw [if_neg hlt]
        obtain rfl : min = max := by omega
        exact ⟨nofun, hmax, fun _ => hbelow, fun _ => habove⟩
      rw [if_pos hlt]
      have hmid : min ≤ (min + (max - 1)) / 2 ∧ (min + (max - 1)) / 2 < max := by omega
      generalize (min + (max - 1)) / 2 = mid at hmid
      by_cases hgt : value > is.get mid
      · simp only [if_pos hgt]
        refine ih (by omega) (by omega) hmax ?_ habove
        intro i hi
        rcases Nat.lt_or_eq_of_le (Nat.lt_succ_iff.mp hi) with hi | rfl
        · have := h.get_lt hi (by omega)
          omega
        · exact hgt
      · by_cases hless : value < is.get mid
        · simp only [if_neg hgt, if_pos hless]
          refine ih (by omega) (by omega) (by omega) hbelow ?_
          intro i hi hlen
          rcases Nat.lt_or_eq_of_le hi with hi | rfl
          · have := h.get_lt hi hlen
            omega
          · exact hless
        · simp only [if_neg hgt, if_neg hless]
          have heq : is.get mid = value := by omega
          exact ⟨fun _ => ⟨by omega, heq⟩, by omega, nofun, nofun⟩

/-- **Binary search** finds the value or its place. -/
theorem intsetSearch_spec {is : Intset} (h : is.Wf) (value : Int) :
    SearchResult is value (intsetSearch is value) := by
  rw [intsetSearch]
  by_cases hempty : is.contents.length = 0
  · simp only [if_pos hempty]
    exact ⟨nofun, by omega, fun _ i hi => by omega, fun _ i _ hi => by omega⟩
  simp only [if_neg hempty]
  by_cases hgt : value > is.get (is.contents.length - 1)
  · rw [if_pos hgt]
    refine ⟨nofun, Nat.le_refl _, fun _ i (hi : i < is.contents.length) => ?_, fun _ i hle hi => by omega⟩
    rcases Nat.lt_or_eq_of_le (Nat.le_sub_one_of_lt hi) with hi | rfl
    · have := h.get_lt hi (by omega)
      omega
    · exact hgt
  rw [if_neg hgt]
  by_cases hless : value < is.get 0
  · rw [if_pos hless]
    refine ⟨nofun, Nat.zero_le _, fun _ i hi => by omega, fun _ i _ hi => ?_⟩
    rcases Nat.eq_zero_or_pos i with rfl | hpos
    · exact hless
    · have := h.get_lt hpos hi
      omega
  rw [if_neg hless]
  exact intsetSearchLoop_spec h _ (by omega) (Nat.zero_le _) (Nat.le_refl _) (fun i hi => by omega)
    fun i hle hi => by omega

theorem Intset.mem_contents_iff {is : Intset} {value : Int} :
    value ∈ is.contents ↔ ∃ i, i < is.contents.length ∧ is.get i = value := by
  rw [List.mem_iff_getElem]
  constructor
  · rintro ⟨i, hi, rfl⟩
    exact ⟨i, hi, Intset.get_eq hi⟩
  · rintro ⟨i, hi, rfl⟩
    exact ⟨i, hi, (Intset.get_eq hi).symm⟩

theorem intsetSearch_found_iff {is : Intset} (h : is.Wf) (value : Int) :
    (intsetSearch is value).1 = true ↔ value ∈ is.contents := by
  have hs := intsetSearch_spec h value
  rw [Intset.mem_contents_iff]
  constructor
  · intro hf
    exact ⟨_, hs.found hf⟩
  · rintro ⟨i, hi, rfl⟩
    by_contra hf
    rw [Bool.not_eq_true] at hf
    by_cases hpos : i < (intsetSearch is (is.get i)).2
    · have := hs.below hf i hpos
      omega
    · have := hs.above hf i (by omega) hi
      omega

/-! ## Adding and removing -/

/-- A wider value lies outside the narrower ones. -/
theorem outside_of_encoding_lt {a v : Int} (h : intsetValueEncoding a < intsetValueEncoding v) :
    (v < 0 → v < a) ∧ (0 ≤ v → a < v) := by
  simp only [intsetValueEncoding] at h
  constructor <;> intro hv <;> split_ifs at h <;> omega

theorem Intset.mem_take {is : Intset} {pos : Nat} {x : Int} (h : x ∈ is.contents.take pos) :
    ∃ i, i < pos ∧ i < is.contents.length ∧ is.get i = x := by
  rw [List.mem_iff_getElem] at h
  obtain ⟨i, hi, rfl⟩ := h
  rw [List.length_take] at hi
  exact ⟨i, by omega, by omega, by rw [Intset.get_eq (by omega), List.getElem_take]⟩

theorem Intset.mem_drop {is : Intset} {pos : Nat} {x : Int} (h : x ∈ is.contents.drop pos) :
    ∃ i, pos ≤ i ∧ i < is.contents.length ∧ is.get i = x := by
  rw [List.mem_iff_getElem] at h
  obtain ⟨i, hi, rfl⟩ := h
  rw [List.length_drop] at hi
  exact ⟨pos + i, by omega, by omega, by rw [Intset.get_eq (by omega), List.getElem_drop]⟩

/-- What adding does to the elements. -/
structure AddResult (is : Intset) (value : Int) (r : Bool × Intset) : Prop where
  wf : r.2.Wf
  new : r.1 = true ↔ value ∉ is.contents
  same : r.1 = false → r.2 = is
  perm : r.1 = true → r.2.contents.Perm (value :: is.contents)

theorem intsetUpgradeAndAdd_spec {is : Intset} (h : is.Wf) {value : Int} (hv : IsInt64 value)
    (henc : intsetValueEncoding value > is.encoding) :
    AddResult is value (true, intsetUpgradeAndAdd is value) := by
  have hout : ∀ a ∈ is.contents, (value < 0 → value < a) ∧ (0 ≤ value → a < value) :=
    fun a ha => outside_of_encoding_lt (by have := h.fits a ha; omega)
  have hperm : (intsetUpgradeAndAdd is value).contents.Perm (value :: is.contents) := by
    rw [intsetUpgradeAndAdd]
    split
    · exact .refl _
    · exact List.perm_append_singleton _ _
  have hmem : ∀ x, x ∈ (intsetUpgradeAndAdd is value).contents → x = value ∨ x ∈ is.contents :=
    fun x hx => List.mem_cons.mp (hperm.mem_iff.mp hx)
  refine ⟨⟨?_, ?_, ?_⟩, ⟨fun _ hin => ?_, fun _ => rfl⟩, nofun, fun _ => hperm⟩
  · rw [intsetUpgradeAndAdd]
    by_cases hneg : value < 0
    · simp only [if_pos hneg]
      exact List.pairwise_cons.mpr ⟨fun a ha => (hout a ha).1 hneg, h.sorted⟩
    · simp only [if_neg hneg]
      refine List.pairwise_append.mpr ⟨h.sorted, List.pairwise_singleton _ _, fun a ha b hb => ?_⟩
      rw [List.mem_singleton.mp hb]
      exact (hout a ha).2 (by omega)
  · intro x hx
    rcases hmem x hx with rfl | hx
    · exact Nat.le_refl _
    · have := h.fits x hx
      simp only [intsetUpgradeAndAdd]
      omega
  · intro x hx
    rcases hmem x hx with rfl | hx
    · exact hv
    · exact h.int64 x hx
  · have := hout value hin
    omega

/-- **Adding** an integer. -/
theorem intsetAdd_spec {is : Intset} (h : is.Wf) {value : Int} (hv : IsInt64 value) :
    AddResult is value (intsetAdd is value) := by
  rw [intsetAdd]
  by_cases henc : intsetValueEncoding value > is.encoding
  · rw [if_pos henc]
    exact intsetUpgradeAndAdd_spec h hv henc
  rw [if_neg henc]
  have hs := intsetSearch_spec h value
  have hfound := intsetSearch_found_iff h value
  cases hr : intsetSearch is value with
  | mk found pos =>
      rw [hr] at hs hfound
      cases found with
      | true => exact ⟨h, ⟨nofun, fun hn => absurd (hfound.mp rfl) hn⟩, fun _ => rfl, nofun⟩
      | false =>
          have hbelow := hs.below rfl
          have habove := hs.above rfl
          have hperm : (is.contents.take pos ++ value :: is.contents.drop pos).Perm
              (value :: is.contents) := by
            have := @List.perm_middle _ value (is.contents.take pos) (is.contents.drop pos)
            rwa [List.take_append_drop] at this
          have hmem : ∀ x ∈ is.contents.take pos ++ value :: is.contents.drop pos,
              x = value ∨ x ∈ is.contents := fun x hx => List.mem_cons.mp (hperm.mem_iff.mp hx)
          refine ⟨⟨?_, ?_, ?_⟩, ⟨fun _ hin => ?_, fun _ => rfl⟩, nofun, fun _ => hperm⟩
          · refine List.pairwise_append.mpr ⟨h.sorted.sublist (List.take_sublist _ _),
              List.pairwise_cons.mpr ⟨fun a ha => ?_, h.sorted.sublist (List.drop_sublist _ _)⟩,
              fun a ha b hb => ?_⟩
            · obtain ⟨i, hi, hlen, rfl⟩ := Intset.mem_drop ha
              exact habove i hi hlen
            · obtain ⟨i, hi, hlen, rfl⟩ := Intset.mem_take ha
              have hlow := hbelow i hi
              rcases List.mem_cons.mp hb with rfl | hb
              · exact hlow
              · obtain ⟨j, hj, hlen', rfl⟩ := Intset.mem_drop hb
                exact Int.lt_trans hlow (habove j hj hlen')
          · intro x hx
            rcases hmem x hx with rfl | hx
            · exact Nat.not_lt.mp henc
            · exact h.fits x hx
          · intro x hx
            rcases hmem x hx with rfl | hx
            · exact hv
            · exact h.int64 x hx
          · exact absurd (hfound.mpr hin) Bool.false_ne_true

/-- Membership. -/
theorem intsetFind_iff {is : Intset} (h : is.Wf) (value : Int) :
    intsetFind is value = true ↔ value ∈ is.contents := by
  rw [intsetFind, Bool.and_eq_true, decide_eq_true_eq, intsetSearch_found_iff h]
  exact ⟨fun hf => hf.2, fun hin => ⟨h.fits value hin, hin⟩⟩

/-- What removing does to the elements. -/
structure RemoveResult (is : Intset) (value : Int) (r : Bool × Intset) : Prop where
  wf : r.2.Wf
  found : r.1 = true ↔ value ∈ is.contents
  same : r.1 = false → r.2 = is
  perm : r.1 = true → is.contents.Perm (value :: r.2.contents)

/-- **Removing** an integer. -/
theorem intsetRemove_spec {is : Intset} (h : is.Wf) (value : Int) :
    RemoveResult is value (intsetRemove is value) := by
  rw [intsetRemove]
  by_cases henc : intsetValueEncoding value ≤ is.encoding
  swap
  · rw [if_neg henc]
    exact ⟨h, ⟨nofun, fun hin => absurd (h.fits value hin) henc⟩, fun _ => rfl, nofun⟩
  rw [if_pos henc]
  have hs := intsetSearch_spec h value
  have hfound := intsetSearch_found_iff h value
  cases hr : intsetSearch is value with
  | mk found pos =>
      rw [hr] at hs hfound
      cases found with
      | false => exact ⟨h, hfound, fun _ => rfl, nofun⟩
      | true =>
          obtain ⟨hpos, hget⟩ := hs.found rfl
          have hsub : (is.contents.take pos ++ is.contents.drop (pos + 1)).Sublist is.contents := by
            rw [← List.eraseIdx_eq_take_drop_succ]
            exact List.eraseIdx_sublist _ _
          refine ⟨⟨h.sorted.sublist hsub, fun v hv => h.fits v (hsub.subset hv),
            fun v hv => h.int64 v (hsub.subset hv)⟩, hfound, nofun, fun _ => ?_⟩
          have hsplit : is.contents = is.contents.take pos ++ value :: is.contents.drop (pos + 1) := by
            rw [← hget, Intset.get_eq hpos, ← List.drop_eq_getElem_cons hpos, List.take_append_drop]
          exact (List.Perm.of_eq hsplit).trans List.perm_middle

end SkynetJit.Redis
