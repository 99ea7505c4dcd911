import SkynetJit.Redis.Geo.Search
import SkynetJit.Redis.Zset.Slice

/-!
# SkynetJit.Redis.Geo.Cells

A search visits every cell once.

From step 2 on the centre and its neighbours are nine cells; at step 1 there are
four, and the equal ones follow each other, so that looking at the cell before
is enough.  Different cells have ranges of scores that are apart
(`pairwise_apart`), and so no element is collected twice.
-/

namespace SkynetJit.Redis

open Scored Morton

/-! ## The cells around a position -/

section Grid

variable {step lat long : Nat}

/-- One step to the north or the east. -/
theorem moved_up {c : Nat} (hpos : 1 ≤ step) (hc : c ≤ 2 ^ step) :
    moved step c 1 = if c + 1 < 2 ^ step then c + 1 else c + 1 - 2 ^ step := by
  have htwo : 2 ^ 1 ≤ 2 ^ step := Nat.pow_le_pow_right (by decide) hpos
  rw [moved, if_neg (by decide), if_pos (by decide)]
  split_ifs with hlt
  · exact Nat.mod_eq_of_lt hlt
  · rw [Nat.mod_eq_sub_mod (by omega), Nat.mod_eq_of_lt (by omega)]

/-- One step to the south or the west. -/
theorem moved_down {c : Nat} (hc : c ≤ 2 ^ step) :
    moved step c (-1) = if c = 0 then 2 ^ step - 1 else c - 1 := by
  have hpos := Nat.two_pow_pos step
  rw [moved, if_neg (by decide), if_neg (by decide)]
  split_ifs with hzero
  · rw [hzero, Nat.zero_add, Nat.mod_eq_of_lt (by omega)]
  · rw [show c + (2 ^ step - 1) = c - 1 + 2 ^ step by omega, Nat.add_mod_right, Nat.mod_eq_of_lt (by omega)]

/-- The moves that lead to different places at a step. -/
def Distinct (step : Nat) (d : Int) : Prop := d = 0 ∨ d = 1 ∨ d = -1 ∧ 2 ≤ step

theorem moved_inj {c : Nat} (hpos : 1 ≤ step) (hc : c ≤ 2 ^ step) {d d' : Int} (hd : Distinct step d)
    (hd' : Distinct step d') (h : moved step c d = moved step c d') : d = d' := by
  have htwo : 2 ^ 1 ≤ 2 ^ step := Nat.pow_le_pow_right (by decide) hpos
  have hfour : 2 ≤ step → 2 ^ 2 ≤ 2 ^ step := Nat.pow_le_pow_right (by decide)
  have hzero : moved step c 0 = c := if_pos rfl
  have hup := moved_up hpos hc
  have hdown := moved_down hc
  rcases hd with rfl | rfl | ⟨rfl, hstep⟩ <;> rcases hd' with rfl | rfl | ⟨rfl, hstep'⟩ <;>
    first
    | rfl
    | (split_ifs at hup hdown <;> omega)

theorem geoCell_inj {lat' long' : Nat} (h : InGrid step lat long) (h' : InGrid step lat' long')
    (heq : geoCell step lat long = geoCell step lat' long') : lat = lat' ∧ long = long' := by
  obtain ⟨hlat, hlong⟩ := h.le_two_pow
  obtain ⟨hlat', hlong'⟩ := h'.le_two_pow
  have hbits := congrArg (fun hash => hash.bits.toNat) heq
  simp only [toNat_geoCell hlat hlong, toNat_geoCell hlat' hlong'] at hbits
  exact interleave_inj hbits

/-- The cell that lies so far away. -/
def cellAt (step lat long : Nat) (d : Int × Int) : GeoHashBits :=
  geoCell step (moved step lat d.1) (moved step long d.2)

theorem cellAt_inj (h : InGrid step lat long) {d d' : Int × Int} (hd : Distinct step d.1 ∧ Distinct step d.2)
    (hd' : Distinct step d'.1 ∧ Distinct step d'.2) (heq : cellAt step lat long d = cellAt step lat long d') :
    d = d' := by
  obtain ⟨hlat, hlong⟩ := geoCell_inj (h.move d.1 d.2) (h.move d'.1 d'.2) heq
  exact Prod.ext (moved_inj h.step_pos h.lat_le hd.1 hd'.1 hlat)
    (moved_inj h.step_pos h.long_le hd.2 hd'.2 hlong)

/-- Cells that are different moves away are different. -/
theorem nodup_cellAt (h : InGrid step lat long) {ds : List (Int × Int)} (hnodup : ds.Nodup)
    (hds : ∀ d ∈ ds, Distinct step d.1 ∧ Distinct step d.2) : (ds.map (cellAt step lat long)).Nodup :=
  (List.nodup_map_iff_inj_on hnodup).mpr fun d hd d' hd' heq => cellAt_inj h (hds d hd) (hds d' hd') heq

theorem cellAt_not_zero (h : InGrid step lat long) (d : Int × Int) : (cellAt step lat long d).isZero = false := by
  have hstep : (step == 0) = false := beq_eq_false_iff_ne.mpr (Nat.ne_zero_of_lt h.step_pos)
  rw [GeoHashBits.isZero, cellAt, geoCell, hstep, Bool.and_false]

/-- The nine cells around a position, some neighbours zeroed. -/
def cellsAround (step lat long : Nat) (zeroed : Direction → Bool) : List GeoHashBits :=
  GeoHashRadius.cells ⟨geoCell step lat long,
    geohashExclude step zeroed (geohashNeighbors (geoCell step lat long))⟩

/-- The order of the neighbours in the array. -/
def neighborOrder : List Direction :=
  [.north, .south, .east, .west, .northEast, .northWest, .southEast, .southWest]

theorem cellsAround_eq (h : InGrid step lat long) (zeroed : Direction → Bool) :
    cellsAround step lat long zeroed = cellAt step lat long (0, 0) ::
      neighborOrder.map fun d =>
        if step ≥ 2 ∧ zeroed d = true then ⟨0, 0⟩ else cellAt step lat long (d.dy, d.dx) := by
  have hneighbor : ∀ d, geohashNeighbors (geoCell step lat long) d = cellAt step lat long (d.dy, d.dx) :=
    geohashNeighbors_geoCell h
  rw [cellsAround, GeoHashRadius.cells]
  refine congrArg₂ List.cons ?_ (List.map_congr_left fun d _ => ?_)
  · rw [cellAt, moved, moved, if_pos rfl, if_pos rfl]
  · change (if step ≥ 2 ∧ zeroed d = true then ⟨0, 0⟩ else geohashNeighbors (geoCell step lat long) d) = _
    rw [hneighbor]

theorem scannedFrom_nil (i : Nat) (lastProcessed : Option GeoHashBits) : scannedFrom i lastProcessed [] = [] := rfl

theorem scannedFrom_sublist (i : Nat) (lastProcessed : Option GeoHashBits) (cells : List GeoHashBits) :
    (scannedFrom i lastProcessed cells).Sublist (cells.filter fun cell => !cell.isZero) := by
  induction cells generalizing i lastProcessed with
  | nil => exact List.Sublist.refl _
  | cons cell cells ih =>
      rw [scannedFrom_cons]
      by_cases hzero : cell.isZero = true
      · rw [if_pos hzero, List.filter_cons_of_neg (by simp [hzero])]
        exact ih _ _
      · rw [if_neg hzero, List.filter_cons_of_pos (by simp [hzero])]
        split_ifs
        · exact (ih _ _).trans (List.sublist_cons_self _ _)
        · exact (ih _ _).cons_cons _
        · exact (ih _ _).cons_cons _

/-- From step 2 on all moves lead to different places. -/
theorem distinct_of_two_le (hstep : 2 ≤ step) (d : Direction) : Distinct step d.dy ∧ Distinct step d.dx := by
  cases d <;> simp [Distinct, Direction.dy, Direction.dx, hstep]

/-- Zeroed neighbours are left out. -/
theorem filter_zeroed_sublist {cell : Direction → GeoHashBits} (zeroed : Direction → Prop) [DecidablePred zeroed]
    (ds : List Direction) :
    ((ds.map fun d => if zeroed d then ⟨0, 0⟩ else cell d).filter fun cell => !cell.isZero).Sublist
      (ds.map cell) := by
  induction ds with
  | nil => exact List.Sublist.refl _
  | cons d ds ih =>
      rw [List.map_cons, List.map_cons]
      by_cases hzeroed : zeroed d
      · rw [if_pos hzeroed, List.filter_cons_of_neg (by decide)]
        exact ih.trans (List.sublist_cons_self _ _)
      · rw [if_neg hzeroed, List.filter_cons]
        split_ifs
        · exact ih.cons_cons _
        · exact ih.trans (List.sublist_cons_self _ _)

/-- The centre and its neighbours, by where they lie. -/
def moves : List (Int × Int) := (0, 0) :: neighborOrder.map fun d => (d.dy, d.dx)

theorem scannedCells_sublist (h : InGrid step lat long) (zeroed : Direction → Bool) :
    (scannedCells (cellsAround step lat long zeroed)).Sublist (moves.map (cellAt step lat long)) := by
  have hnonzero : (!(cellAt step lat long (0, 0)).isZero) = true := by rw [cellAt_not_zero h, Bool.not_false]
  refine (scannedFrom_sublist 0 none _).trans ?_
  rw [cellsAround_eq h, List.filter_cons, if_pos hnonzero, moves, List.map_cons, List.map_map]
  exact (filter_zeroed_sublist _ neighborOrder).cons_cons _

theorem exists_of_mem_scannedCells (h : InGrid step lat long) {zeroed : Direction → Bool} {cell : GeoHashBits}
    (hmem : cell ∈ scannedCells (cellsAround step lat long zeroed)) : ∃ d, cellAt step lat long d = cell := by
  obtain ⟨d, -, hd⟩ := List.mem_map.mp ((scannedCells_sublist h zeroed).subset hmem)
  exact ⟨d, hd⟩

/-- At step 1 a step up and a step down are the same. -/
theorem moved_step_one (c : Nat) : moved 1 c (-1) = moved 1 c 1 := rfl

/-- At step 1 nothing is zeroed, and four cells are left. -/
theorem scannedCells_step_one (h : InGrid 1 lat long) (zeroed : Direction → Bool) :
    scannedCells (cellsAround 1 lat long zeroed) =
      [(0, 0), (1, 0), (0, 1), (1, 1)].map (cellAt 1 lat long) := by
  have hnz : ∀ d, (cellAt 1 lat long d).isZero = true ↔ False := fun d => by simp [cellAt_not_zero h d]
  have hne : ∀ d d' : Int × Int, (Distinct 1 d.1 ∧ Distinct 1 d.2) ∧ Distinct 1 d'.1 ∧ Distinct 1 d'.2 → d ≠ d' →
      cellAt 1 lat long d ≠ cellAt 1 lat long d' := fun d d' hd hdd' heq => hdd' (cellAt_inj h hd.1 hd.2 heq)
  have hnorth : cellAt 1 lat long (1, 0) ≠ cellAt 1 lat long (0, 1) := hne _ _ (by simp [Distinct]) (by decide)
  have heast : cellAt 1 lat long (0, 1) ≠ cellAt 1 lat long (1, 1) := hne _ _ (by simp [Distinct]) (by decide)
  have hsouth : ∀ x, cellAt 1 lat long (-1, x) = cellAt 1 lat long (1, x) := fun x => rfl
  have hwest : ∀ y, cellAt 1 lat long (y, -1) = cellAt 1 lat long (y, 1) := fun y => rfl
  rw [cellsAround_eq h, scannedCells]
  simp only [neighborOrder, List.map_cons, List.map_nil, Direction.dy, Direction.dx, ge_iff_le,
    show ¬ (2 ≤ 1) by decide, false_and, if_false, hsouth, hwest]
  simp [scannedFrom_cons, scannedFrom_nil, hnz, hnorth, heast]

/-- **No cell is scanned twice.** -/
theorem nodup_scannedCells (h : InGrid step lat long) (zeroed : Direction → Bool) :
    (scannedCells (cellsAround step lat long zeroed)).Nodup := by
  rcases Nat.lt_or_ge step 2 with hlt | hge
  · obtain rfl : step = 1 := by
      have hpos := h.step_pos
      omega
    rw [scannedCells_step_one h]
    exact nodup_cellAt h (by decide) (by simp [Distinct])
  · refine (nodup_cellAt h (by decide) ?_).sublist (scannedCells_sublist h zeroed)
    intro d hd
    rcases List.mem_cons.mp hd with rfl | hd
    · exact ⟨.inl rfl, .inl rfl⟩
    · obtain ⟨direction, -, rfl⟩ := List.mem_map.mp hd
      exact distinct_of_two_le hge direction

theorem toNat_geohashAlign52Bits {bits : UInt64} (hstep : step ≤ 26) (hbits : bits.toNat ≤ 4 ^ (step + 1)) :
    (geohashAlign52Bits ⟨bits, step⟩).toNat = bits.toNat * 4 ^ (26 - step) := by
  have hshift : (UInt64.ofNat (52 - step * 2)).toNat = 52 - step * 2 :=
    UInt64.toNat_ofNat_of_lt' ((Nat.sub_le _ _).trans_lt (by decide))
  have hpow : 2 ^ (52 - step * 2) = 4 ^ (26 - step) := by
    rw [show 52 - step * 2 = 2 * (26 - step) by omega, pow_mul, show 2 ^ 2 = 4 from rfl]
  have hlt : bits.toNat * 4 ^ (26 - step) < 2 ^ 64 :=
    calc bits.toNat * 4 ^ (26 - step) ≤ 4 ^ (step + 1) * 4 ^ (26 - step) := Nat.mul_le_mul_right _ hbits
      _ = 4 ^ 27 := by rw [← pow_add, show step + 1 + (26 - step) = 27 by omega]
      _ < 2 ^ 64 := by decide
  change (bits <<< UInt64.ofNat (52 - step * 2)).toNat = _
  rw [UInt64.toNat_shiftLeft, hshift, Nat.mod_eq_of_lt (show 52 - step * 2 < 64 by omega), Nat.shiftLeft_eq, hpow,
    Nat.mod_eq_of_lt hlt]

/-- **The range of a cell**, in steps of the finest grid. -/
theorem toNat_rlGeoScoresOfGeoHashBox (h : InGrid step lat long) :
    (rlGeoScoresOfGeoHashBox (geoCell step lat long)).1.toNat = interleave lat long * 4 ^ (26 - step) ∧
      (rlGeoScoresOfGeoHashBox (geoCell step lat long)).2.toNat =
        (interleave lat long + 1) * 4 ^ (26 - step) := by
  obtain ⟨hlat, hlong⟩ := h.le_two_pow
  have hbits : (geoCell step lat long).bits.toNat = interleave lat long := toNat_geoCell hlat hlong
  have hlt : interleave lat long < 4 ^ (step + 1) := by
    have htwo := Nat.two_pow_pos step
    have hle := h.lat_le
    have hle' := h.long_le
    exact interleave_lt (by rw [pow_succ]; omega) (by rw [pow_succ]; omega)
  have hpow : 4 ^ (step + 1) ≤ 4 ^ 27 := Nat.pow_le_pow_right (by decide) (Nat.succ_le_succ h.step_le)
  have hsucc : ((geoCell step lat long).bits + 1).toNat = interleave lat long + 1 := by
    rw [UInt64.toNat_add, hbits, show (1 : UInt64).toNat = 1 from rfl, Nat.mod_eq_of_lt (by omega)]
  have hmin := toNat_geohashAlign52Bits h.step_le (hbits.trans_le hlt.le)
  have hmax := toNat_geohashAlign52Bits h.step_le (hsucc.trans_le hlt)
  rw [hbits] at hmin
  rw [hsucc] at hmax
  exact ⟨hmin, hmax⟩

end Grid

/-! ## The ranges of the cells -/

/-- What is also relied on of doubles: the conversion of an integer is monotone. -/
class LawfulGeoScore (ν : Type) [Score ν] : Prop extends LawfulScore ν where
  ofLong_le : ∀ {m n : Int}, m ≤ n → Score.le (Score.ofLong m : ν) (Score.ofLong n) = true

instance : LawfulGeoScore ℚ where
  ofLong_le := by
    intro m n h
    rw [Score.le, Bool.or_eq_true, ExactScore.ratLt_iff, ExactScore.ratEq_iff]
    exact (Int.cast_le.mpr h).lt_or_eq

/-- No score is in both ranges. -/
def Apart {ν : Type} [Score ν] (range range' : Zrangespec ν) : Prop :=
  ∀ x : ν, ¬ (range.Contains x ∧ range'.Contains x)

section Ranges

variable {ν : Type} [Score ν]

theorem Apart.symm {range range' : Zrangespec ν} (h : Apart range range') : Apart range' range :=
  fun x hx => h x hx.symm

theorem GeoHashBits.contains_range_iff (cell : GeoHashBits) (x : ν) :
    (cell.range : Zrangespec ν).Contains x ↔
      Score.le (Score.ofLong (rlGeoScoresOfGeoHashBox cell).1.toNat) x = true ∧
        Score.lt x (Score.ofLong (rlGeoScoresOfGeoHashBox cell).2.toNat) = true := Iff.rfl

variable [LawfulGeoScore ν]

/-- Where one range ends before the other begins, they are apart. -/
theorem apart_of_le {cell cell' : GeoHashBits}
    (h : (rlGeoScoresOfGeoHashBox cell).2.toNat ≤ (rlGeoScoresOfGeoHashBox cell').1.toNat) :
    Apart (cell.range : Zrangespec ν) cell'.range := by
  rintro x ⟨hx, hx'⟩
  have hle : Score.le (Score.ofLong (rlGeoScoresOfGeoHashBox cell).2.toNat : ν) x = true :=
    Score.le_trans (LawfulGeoScore.ofLong_le (Int.ofNat_le.mpr h)) ((cell'.contains_range_iff x).mp hx').1
  have hlt := Score.lt_of_le_of_lt hle ((cell.contains_range_iff x).mp hx).2
  rw [LawfulScore.lt_irrefl] at hlt
  exact Bool.false_ne_true hlt

/-- **Different cells** of a grid have ranges that are apart. -/
theorem apart_of_ne {step lat long lat' long' : Nat} (h : InGrid step lat long) (h' : InGrid step lat' long')
    (hne : geoCell step lat long ≠ geoCell step lat' long') :
    Apart ((geoCell step lat long).range : Zrangespec ν) (geoCell step lat' long').range := by
  obtain ⟨hmin, hmax⟩ := toNat_rlGeoScoresOfGeoHashBox h
  obtain ⟨hmin', hmax'⟩ := toNat_rlGeoScoresOfGeoHashBox h'
  have hbits : interleave lat long ≠ interleave lat' long' := fun heq => hne (by rw [geoCell, heq]; rfl)
  rcases Nat.lt_or_gt_of_ne hbits with hlt | hgt
  · exact apart_of_le (by rw [hmax, hmin']; exact Nat.mul_le_mul_right _ hlt)
  · exact (apart_of_le (by rw [hmax', hmin]; exact Nat.mul_le_mul_right _ hgt)).symm

/-- **The ranges that a search scans** are pairwise apart. -/
theorem pairwise_apart {step lat long : Nat} (h : InGrid step lat long) (zeroed : Direction → Bool) :
    (scannedCells (cellsAround step lat long zeroed)).Pairwise fun cell cell' =>
      Apart (cell.range : Zrangespec ν) cell'.range := by
  refine (nodup_scannedCells h zeroed).imp_of_mem fun {cell cell'} hcell hcell' hne => ?_
  obtain ⟨d, rfl⟩ := exists_of_mem_scannedCells h hcell
  obtain ⟨d', rfl⟩ := exists_of_mem_scannedCells h hcell'
  exact apart_of_ne (h.move d.1 d.2) (h.move d'.1 d'.2) hne

end Ranges

/-! ## The points of the cells -/

section Points

variable {ν : Type} {within : WithinShape ν} {items : List (Scored ν)}

/-- A point is an element inside the shape. -/
theorem mem_geoPoints {p : GeoPoint ν} (h : p ∈ geoPoints within items) :
    ∃ a ∈ items, a = ⟨p.member, p.score⟩ ∧ within a.score = some ((p.longitude, p.latitude), p.dist) := by
  obtain ⟨a, ha, hp⟩ := List.mem_filterMap.mp h
  obtain ⟨⟨⟨long, lat⟩, dist⟩, hwithin, rfl⟩ := Option.map_eq_some_iff.mp hp
  exact ⟨a, ha, rfl, hwithin⟩

theorem members_geoPoints_sublist (items : List (Scored ν)) :
    ((geoPoints within items).map GeoPoint.member).Sublist (items.map ele) := by
  induction items with
  | nil => exact List.Sublist.refl _
  | cons a items ih =>
      rw [geoPoints, List.filterMap_cons]
      cases within a.score with
      | none => exact ih.trans (List.sublist_cons_self _ _)
      | some p => exact ih.cons_cons _

theorem cutoff_sublist (limit : Nat) (ga : List (GeoPoint ν)) : (cutoff limit ga).Sublist ga := by
  rw [cutoff]
  split_ifs
  · exact List.Sublist.refl _
  · exact List.take_sublist _ _

variable [Score ν]

/-- The elements of a point's cell. -/
theorem mem_boxPoints {cell : GeoHashBits} {p : GeoPoint ν} (h : p ∈ boxPoints within items cell) :
    ⟨p.member, p.score⟩ ∈ items ∧ (cell.range : Zrangespec ν).Contains p.score ∧
      within p.score = some ((p.longitude, p.latitude), p.dist) := by
  rw [boxPoints, select_score_eq] at h
  obtain ⟨a, ha, rfl, hwithin⟩ := mem_geoPoints h
  obtain ⟨hitem, hin⟩ := List.mem_filter.mp ha
  exact ⟨hitem, decide_eq_true_iff.mp hin, hwithin⟩

theorem nodup_boxPoints (h : Sound items) (cell : GeoHashBits) :
    ((boxPoints within items cell).map GeoPoint.member).Nodup := by
  rw [boxPoints, select_score_eq]
  exact h.nodup.sublist ((members_geoPoints_sublist _).trans (List.filter_sublist.map _))

/-- An element is a point of one cell only. -/
theorem disjoint_boxPoints (h : Sound items) {cell cell' : GeoHashBits}
    (hapart : Apart (cell.range : Zrangespec ν) cell'.range) :
    List.Disjoint ((boxPoints within items cell).map GeoPoint.member)
      ((boxPoints within items cell').map GeoPoint.member) := by
  intro member hmem hmem'
  obtain ⟨p, hp, rfl⟩ := List.mem_map.mp hmem
  obtain ⟨p', hp', hmember⟩ := List.mem_map.mp hmem'
  obtain ⟨hitem, hin, -⟩ := mem_boxPoints hp
  obtain ⟨hitem', hin', -⟩ := mem_boxPoints hp'
  have heq := List.inj_on_of_nodup_map h.nodup hitem hitem' hmember.symm
  rw [Scored.mk.injEq] at heq
  exact hapart p.score ⟨hin, heq.2 ▸ hin'⟩

variable [LawfulScore ν]

/-- **A search** of ranges that are apart collects no element twice. -/
theorem nodup_membersOfCells {zobj : ZsetObj ν} (h : zobj.Wf) (within : WithinShape ν) (limit : Nat)
    {cells : List GeoHashBits}
    (hapart : (scannedCells cells).Pairwise fun cell cell' => Apart (cell.range : Zrangespec ν) cell'.range) :
    ((membersOfCells within zobj limit cells).map GeoPoint.member).Nodup := by
  rw [membersOfCells_eq h]
  refine List.Nodup.sublist ((cutoff_sublist limit _).map _) ?_
  rw [List.map_flatMap, List.nodup_flatMap]
  exact ⟨fun cell _ => nodup_boxPoints h.sound cell,
    hapart.imp fun hapart => disjoint_boxPoints h.sound hapart⟩

end Points

end SkynetJit.Redis
