import SkynetJit.Redis.Geo.Hash
import SkynetJit.Redis.Zset.Exact
import SkynetJit.Redis.Zset.Range

/-!
# SkynetJit.Redis.Geo.Search

The search of a geo set (`facade/geo_sem.c`): every cell is a range of scores,
each range is walked, and what is inside the shape is collected.

The limit of ANY is looked at after every point and before every cell;
`any_is_prefix` says that it cuts off the points that the search collects
without it.
-/

namespace SkynetJit.Redis

open Scored

variable {ν : Type} [Score ν]

/-- `geoPoint`. -/
structure GeoPoint (ν : Type) where
  longitude : ν
  latitude : ν
  dist : ν
  score : ν
  member : Bytes

/-- `rl_geoWithinShape` of a shape: where a score is, and its distance from the
centre, if that is inside. -/
abbrev WithinShape (ν : Type) := ν → Option ((ν × ν) × ν)

/-- `rl_geoArrayAppend`, of an element inside the shape. -/
def geoAppend (within : WithinShape ν) (ga : List (GeoPoint ν)) (a : Scored ν) : List (GeoPoint ν) :=
  match within a.score with
  | some (xy, distance) => ga ++ [⟨xy.1, xy.2, distance, a.score, a.ele⟩]
  | none => ga

/-- The test of the limit; zero is none. -/
def limitReached (limit : Nat) (ga : List (GeoPoint ν)) : Bool :=
  decide (ga.length ≠ 0 ∧ limit ≠ 0 ∧ ga.length ≥ limit)

/-- The loop of `rl_geoGetPointsInRange`, which both encodings have. -/
def collectPoints (within : WithinShape ν) (range : Zrangespec ν) (limit : Nat) :
    List (Scored ν) → List (GeoPoint ν) → List (GeoPoint ν)
  | [], ga => ga
  | a :: rest, ga =>
      if !zslValueLteMax a.score range then ga
      else
        let ga := geoAppend within ga a
        if limitReached limit ga then ga else collectPoints within range limit rest ga

/-- The walk of a range from its first element: the entries of the listpack, or
the nodes of the skiplist. -/
def geoWalk (zobj : ZsetObj ν) (range : Zrangespec ν) : List (Scored ν) :=
  match zobj with
  | .listpack zl => range.tests.zzlFirstInRange (zzlItems zl)
  | .skiplist zs => RangeTests.zslWalk zs.zsl false ((range.tests.zslNthInRange zs.zsl 0).map Prod.fst)

/-- `rl_geoGetPointsInRange`. -/
def rlGeoGetPointsInRange (within : WithinShape ν) (zobj : ZsetObj ν) (min max : ν) (limit : Nat)
    (ga : List (GeoPoint ν)) : List (GeoPoint ν) :=
  let range : Zrangespec ν := { min := min, max := max, minex := false, maxex := true }
  collectPoints within range limit (geoWalk zobj range) ga

/-- `rl_geoScoresOfGeoHashBox`. -/
def rlGeoScoresOfGeoHashBox (hash : GeoHashBits) : UInt64 × UInt64 :=
  (geohashAlign52Bits hash, geohashAlign52Bits { hash with bits := hash.bits + 1 })

/-- `rl_geoMembersOfGeoHashBox`. -/
def rlGeoMembersOfGeoHashBox (within : WithinShape ν) (zobj : ZsetObj ν) (limit : Nat) (hash : GeoHashBits)
    (ga : List (GeoPoint ν)) : List (GeoPoint ν) :=
  let box := rlGeoScoresOfGeoHashBox hash
  rlGeoGetPointsInRange within zobj (Score.ofLong box.1.toNat) (Score.ofLong box.2.toNat) limit ga

/-- The loop of `rl_geoMembersOfAllNeighbors`, from cell `i` on: a cell is left
out if it is zeroed, or if it is the one processed last.  `last_processed` is an
index, and the test leaves out the first. -/
def forEachCell {σ : Type} (stop : σ → Bool) (process : GeoHashBits → σ → σ) :
    Nat → Option GeoHashBits → List GeoHashBits → σ → σ
  | _, _, [], s => s
  | i, lastProcessed, cell :: cells, s =>
      if cell.isZero then forEachCell stop process (i + 1) lastProcessed cells s
      else if lastProcessed = some cell then forEachCell stop process (i + 1) lastProcessed cells s
      else if stop s then s
      else
        forEachCell stop process (i + 1) (if i = 0 then none else some cell) cells (process cell s)

/-- The members of a list of cells. -/
def membersOfCells (within : WithinShape ν) (zobj : ZsetObj ν) (limit : Nat) (cells : List GeoHashBits) :
    List (GeoPoint ν) :=
  forEachCell (limitReached limit) (rlGeoMembersOfGeoHashBox within zobj limit) 0 none cells []

/-- The array of `rl_geoMembersOfAllNeighbors`. -/
def GeoHashRadius.cells (n : GeoHashRadius) : List GeoHashBits :=
  n.hash :: [Direction.north, .south, .east, .west, .northEast, .northWest, .southEast, .southWest].map n.neighbors

/-- `rl_geoMembersOfAllNeighbors`. -/
def rlGeoMembersOfAllNeighbors (within : WithinShape ν) (zobj : ZsetObj ν) (limit : Nat) (n : GeoHashRadius) :
    List (GeoPoint ν) :=
  membersOfCells within zobj limit n.cells

/-! ## One range -/

/-- The points of some elements. -/
def geoPoints (within : WithinShape ν) (items : List (Scored ν)) : List (GeoPoint ν) :=
  items.filterMap fun a => (within a.score).map fun p => ⟨p.1.1, p.1.2, p.2, a.score, a.ele⟩

/-- As many as the limit lets through. -/
def cutoff (limit : Nat) (ga : List (GeoPoint ν)) : List (GeoPoint ν) := if limit = 0 then ga else ga.take limit

section Points

variable {within : WithinShape ν} {limit : Nat} {ga : List (GeoPoint ν)}

omit [Score ν] in
theorem geoAppend_eq (a : Scored ν) : geoAppend within ga a = ga ++ geoPoints within [a] := by
  rw [geoAppend, geoPoints]
  cases h : within a.score with
  | some p => simp [h]
  | none => simp [h]

omit [Score ν] in
theorem geoPoints_cons (a : Scored ν) (items : List (Scored ν)) :
    geoPoints within (a :: items) = geoPoints within [a] ++ geoPoints within items := by
  rw [geoPoints, geoPoints, geoPoints, ← List.filterMap_append]
  rfl

omit [Score ν] in
theorem length_geoPoints_singleton (a : Scored ν) : (geoPoints within [a]).length ≤ 1 :=
  List.length_filterMap_le _ _

omit [Score ν] in
theorem limitReached_iff : limitReached limit ga = true ↔ limit ≠ 0 ∧ limit ≤ ga.length := by
  rw [limitReached, decide_eq_true_iff]
  omega

omit [Score ν] in
/-- Before the limit is reached nothing is cut off. -/
theorem cutoff_of_not_reached (h : ¬ (limit ≠ 0 ∧ limit ≤ ga.length)) : cutoff limit ga = ga := by
  rw [cutoff]
  split_ifs with hzero
  · rfl
  · exact List.take_of_length_le (by omega)

omit [Score ν] in
/-- When it is reached, what follows makes no difference. -/
theorem cutoff_append_of_reached (hlimit : limit ≠ 0) (h : limit ≤ ga.length) (more : List (GeoPoint ν)) :
    cutoff limit (ga ++ more) = cutoff limit ga := by
  rw [cutoff, cutoff, if_neg hlimit, if_neg hlimit, List.take_append_of_le_length h]

/-- **The walk of a range**: the points of the elements up to its end. -/
theorem collectPoints_eq {range : Zrangespec ν} {items : List (Scored ν)} (h : limitReached limit ga = false) :
    collectPoints within range limit items ga =
      cutoff limit (ga ++ geoPoints within (items.takeWhile fun a => zslValueLteMax a.score range)) := by
  have hbelow : ¬ (limit ≠ 0 ∧ limit ≤ ga.length) := by rwa [← limitReached_iff, Bool.not_eq_true]
  induction items generalizing ga with
  | nil => rw [collectPoints, List.takeWhile_nil, geoPoints, List.filterMap_nil, List.append_nil,
      cutoff_of_not_reached hbelow]
  | cons a items ih =>
      rw [collectPoints]
      cases hin : zslValueLteMax a.score range with
      | false =>
          rw [Bool.not_false, if_pos rfl, List.takeWhile_cons_of_neg (by simp [hin]), geoPoints,
            List.filterMap_nil, List.append_nil, cutoff_of_not_reached hbelow]
      | true =>
          rw [Bool.not_true, if_neg Bool.false_ne_true, List.takeWhile_cons_of_pos (by exact hin), geoPoints_cons,
            ← List.append_assoc, ← geoAppend_eq]
          dsimp only
          cases hreached : limitReached limit (geoAppend within ga a) with
          | false =>
              rw [if_neg Bool.false_ne_true]
              exact ih hreached (by rwa [← limitReached_iff, Bool.not_eq_true])
          | true =>
              obtain ⟨hlimit, hle⟩ := limitReached_iff.mp hreached
              have hlength : (geoAppend within ga a).length ≤ limit := by
                have hone := @length_geoPoints_singleton ν within a
                rw [geoAppend_eq, List.length_append]
                omega
              rw [if_pos rfl, cutoff_append_of_reached hlimit hle, cutoff, if_neg hlimit,
                List.take_of_length_le hlength]

end Points

/-- The range of scores of a cell. -/
def GeoHashBits.range (cell : GeoHashBits) : Zrangespec ν where
  min := Score.ofLong (rlGeoScoresOfGeoHashBox cell).1.toNat
  max := Score.ofLong (rlGeoScoresOfGeoHashBox cell).2.toNat
  minex := false
  maxex := true

section Ranges

variable [LawfulScore ν] {zobj : ZsetObj ν}

theorem GeoHashBits.fits_range (cell : GeoHashBits) {items : List (Scored ν)} (h : Sound items) :
    (cell.range : Zrangespec ν).tests.Fits items :=
  Zrangespec.fits (LawfulScore.number_ofLong _) (LawfulScore.number_ofLong _) h

/-- **Both encodings** meet the elements of the range. -/
theorem takeWhile_geoWalk (h : zobj.Wf) (cell : GeoHashBits) :
    (geoWalk zobj cell.range).takeWhile (fun a => zslValueLteMax a.score (cell.range : Zrangespec ν)) =
      (cell.range : Zrangespec ν).tests.select zobj.items := by
  have hwalk := RangeTests.rangeItems_eq h (cell.fits_range h.sound) false 0 (-1)
  rw [if_neg (by omega), ListInterval.limited, if_pos (by omega), if_neg Bool.false_ne_true, Int.toNat_zero,
    List.drop_zero] at hwalk
  rw [← hwalk, RangeTests.rangeItems.eq_def, geoWalk.eq_def, if_neg (by omega)]
  cases zobj with
  | listpack zl => exact (ListInterval.keepWhile_neg (by omega) _).symm
  | skiplist zs => exact (ListInterval.keepWhile_neg (by omega) _).symm

/-- The points of a cell. -/
def boxPoints (within : WithinShape ν) (items : List (Scored ν)) (cell : GeoHashBits) : List (GeoPoint ν) :=
  geoPoints within ((cell.range : Zrangespec ν).tests.select items)

theorem rlGeoMembersOfGeoHashBox_eq (h : zobj.Wf) {within : WithinShape ν} {limit : Nat} {cell : GeoHashBits}
    {ga : List (GeoPoint ν)} (hlimit : limitReached limit ga = false) :
    rlGeoMembersOfGeoHashBox within zobj limit cell ga =
      cutoff limit (ga ++ boxPoints within zobj.items cell) := by
  rw [boxPoints, ← takeWhile_geoWalk h]
  exact collectPoints_eq hlimit

end Ranges

/-! ## All cells -/

/-- The cells that are scanned, from cell `i` on. -/
def scannedFrom (i : Nat) (lastProcessed : Option GeoHashBits) (cells : List GeoHashBits) : List GeoHashBits :=
  forEachCell (fun _ => false) (fun cell scanned => scanned ++ [cell]) i lastProcessed cells []

/-- The cells that a search without a limit scans, in order. -/
def scannedCells (cells : List GeoHashBits) : List GeoHashBits := scannedFrom 0 none cells

theorem forEachCell_record (i : Nat) (lastProcessed : Option GeoHashBits) (cells acc : List GeoHashBits) :
    forEachCell (fun _ => false) (fun cell scanned => scanned ++ [cell]) i lastProcessed cells acc =
      acc ++ scannedFrom i lastProcessed cells := by
  induction cells generalizing i lastProcessed acc with
  | nil => exact (List.append_nil acc).symm
  | cons cell cells ih =>
      rw [scannedFrom, forEachCell, forEachCell]
      by_cases hzero : cell.isZero = true
      · rw [if_pos hzero, if_pos hzero, ih]
        rfl
      · rw [if_neg hzero, if_neg hzero]
        by_cases hlast : lastProcessed = some cell
        · rw [if_pos hlast, if_pos hlast, ih]
          rfl
        · rw [if_neg hlast, if_neg hlast, if_neg Bool.false_ne_true, if_neg Bool.false_ne_true, ih, ih,
            List.append_assoc]
          rfl

/-- One cell of those that are scanned. -/
theorem scannedFrom_cons (i : Nat) (lastProcessed : Option GeoHashBits) (cell : GeoHashBits)
    (cells : List GeoHashBits) : scannedFrom i lastProcessed (cell :: cells) =
      if cell.isZero then scannedFrom (i + 1) lastProcessed cells
      else if lastProcessed = some cell then scannedFrom (i + 1) lastProcessed cells
      else cell :: scannedFrom (i + 1) (if i = 0 then none else some cell) cells := by
  rw [scannedFrom, forEachCell, if_neg Bool.false_ne_true,
    forEachCell_record (i + 1) (if i = 0 then none else some cell) cells ([] ++ [cell])]
  rfl

section Members

variable [LawfulScore ν] {zobj : ZsetObj ν}

/-- **The search** collects the points of the cells it scans, up to the limit. -/
theorem membersOfCells_eq (h : zobj.Wf) (within : WithinShape ν) (limit : Nat) (cells : List GeoHashBits) :
    membersOfCells within zobj limit cells =
      cutoff limit ((scannedCells cells).flatMap (boxPoints within zobj.items)) := by
  have hloop : ∀ i lastProcessed (all : List (GeoPoint ν)),
      forEachCell (limitReached limit) (rlGeoMembersOfGeoHashBox within zobj limit) i lastProcessed cells
          (cutoff limit all) =
        cutoff limit (all ++ (scannedFrom i lastProcessed cells).flatMap (boxPoints within zobj.items)) := by
    induction cells with
    | nil =>
        intro i lastProcessed all
        rw [forEachCell, scannedFrom, forEachCell, List.flatMap_nil, List.append_nil]
    | cons cell cells ih =>
        intro i lastProcessed all
        rw [forEachCell, scannedFrom_cons]
        by_cases hzero : cell.isZero = true
        · rw [if_pos hzero, if_pos hzero]
          exact ih _ _ _
        rw [if_neg hzero, if_neg hzero]
        by_cases hlast : lastProcessed = some cell
        · rw [if_pos hlast, if_pos hlast]
          exact ih _ _ _
        rw [if_neg hlast, if_neg hlast]
        cases hstop : limitReached limit (cutoff limit all) with
        | true =>
            obtain ⟨hlimit, hle⟩ := limitReached_iff.mp hstop
            rw [cutoff, if_neg hlimit, List.length_take] at hle
            rw [if_pos rfl, cutoff_append_of_reached hlimit (by omega)]
        | false =>
            -- nothing is cut off yet
            have hbelow : ¬ (limit ≠ 0 ∧ limit ≤ (cutoff limit all).length) := by
              rwa [← limitReached_iff, Bool.not_eq_true]
            have hall : cutoff limit all = all := by
              refine cutoff_of_not_reached fun hreached => hbelow ⟨hreached.1, ?_⟩
              rw [cutoff, if_neg hreached.1, List.length_take]
              omega
            rw [if_neg Bool.false_ne_true, rlGeoMembersOfGeoHashBox_eq h hstop, hall, ih, List.flatMap_cons,
              List.append_assoc]
  have hcells := hloop 0 none []
  have hnil : cutoff limit ([] : List (GeoPoint ν)) = [] := cutoff_of_not_reached fun hreached => by
    have hle := hreached.2
    rw [List.length_nil] at hle
    omega
  rwa [hnil, List.nil_append] at hcells

/-- **ANY is a prefix.**  With a limit a search of some cells collects the first
points of those that it collects without one, in the same order, and both
encodings of the same elements give the same points. -/
theorem any_is_prefix {zobj' : ZsetObj ν} (h : zobj.Wf) (h' : zobj'.Wf) (hitems : zobj.items = zobj'.items)
    (within : WithinShape ν) (cells : List GeoHashBits) :
    (∀ limit, 0 < limit →
        membersOfCells within zobj limit cells = (membersOfCells within zobj 0 cells).take limit) ∧
      ∀ limit, membersOfCells within zobj limit cells = membersOfCells within zobj' limit cells := by
  constructor
  · intro limit hlimit
    rw [membersOfCells_eq h, membersOfCells_eq h, cutoff, cutoff, if_neg (by omega), if_pos rfl]
  · intro limit
    rw [membersOfCells_eq h, membersOfCells_eq h', hitems]

end Members

/-- An element, and the sorted set of it in both encodings. -/
def elementA : Scored ℚ := ⟨ascii "a", 0⟩

def listpackA : ZsetObj ℚ := (zsetAdd (fun _ => 0) (zsetTypeCreate 0 0) elementA {}).2

def skiplistA : ZsetObj ℚ := .skiplist (Zset.create.add (fun _ => 0) elementA)

theorem wf_listpackA : listpackA.Wf :=
  have hnumber : elementA.IsNumber := rfl
  (zsetAdd_sameScores (wf_zsetTypeCreate 0 0) (fun _ => 0) hnumber).1

theorem any_is_prefix_sample :
    (∀ limit, 0 < limit → membersOfCells (fun x => some ((x, x), x)) listpackA limit [geoCell 1 0 0] =
      (membersOfCells (fun x => some ((x, x), x)) listpackA 0 [geoCell 1 0 0]).take limit) ∧
    ∀ limit, membersOfCells (fun x => some ((x, x), x)) listpackA limit [geoCell 1 0 0] =
      membersOfCells (fun x => some ((x, x), x)) skiplistA limit [geoCell 1 0 0] := by
  have hnumber : elementA.IsNumber := rfl
  have hnew : elementA.ele ∉ (Zset.create : Zset ℚ).items.map Scored.ele := by
    rw [Zset.holds_create.items_eq]
    exact List.not_mem_nil
  obtain ⟨L, hL, hperm⟩ := Zset.holds_create.add (fun _ => 0) hnumber hnew
  have hskiplist : skiplistA.Wf := ⟨L, hL⟩
  have hitems : skiplistA.items = [elementA] := by
    rw [Zset.holds_create.items_eq] at hperm
    exact List.perm_singleton.mp hperm
  have hitems' : listpackA.items = [elementA] := by decide
  exact any_is_prefix wf_listpackA hskiplist (hitems'.trans hitems.symm) _ _

end SkynetJit.Redis
