import Mathlib.Algebra.Order.Floor.Ring
import Mathlib.Data.Rat.Floor
import Mathlib.Tactic.Positivity
import SkynetJit.Lib.Morton

/-!
# SkynetJit.Redis.Geo.Hash

Geohashes (`kernel/geohash.c`): the cell of a grid that a position is in, as a
number with the bits of the latitude in the even places and those of the
longitude in the odd ones.

`geohashNeighbors_geoCell` reads the bit arithmetic of the neighbours as arithmetic on
the coordinates: a coordinate that moves wraps around at the edge of the grid,
and one past the edge, which the encoding also gives, counts as the first.  A
coordinate that does not move stays past the edge.
-/

namespace SkynetJit.Redis

open Morton

/-- `GeoHashBits`. -/
structure GeoHashBits where
  bits : UInt64
  step : Nat
deriving DecidableEq, Repr

/-- `HASHISZERO`. -/
def GeoHashBits.isZero (hash : GeoHashBits) : Bool := hash.bits == 0 && hash.step == 0

/-- What `interleave64` does with each of its arguments. -/
def spread64 (x : UInt64) : UInt64 :=
  let x := (x ||| (x <<< 16)) &&& 0x0000FFFF0000FFFF
  let x := (x ||| (x <<< 8)) &&& 0x00FF00FF00FF00FF
  let x := (x ||| (x <<< 4)) &&& 0x0F0F0F0F0F0F0F0F
  let x := (x ||| (x <<< 2)) &&& 0x3333333333333333
  (x ||| (x <<< 1)) &&& 0x5555555555555555

/-- `interleave64`. -/
def interleave64 (xlo ylo : UInt32) : UInt64 := spread64 xlo.toUInt64 ||| (spread64 ylo.toUInt64 <<< 1)

/-- Where a coordinate lies in its range, from the lower bound to the upper one:
the quotient that `geohashEncode` computes. -/
structure GeoOffset where
  value : ℚ
  nonneg : 0 ≤ value
  le_one : value ≤ 1

/-- The conversion to fixed point: the upper bound is one past the grid. -/
def GeoOffset.fixed (offset : GeoOffset) (step : Nat) : Nat := ⌊offset.value * 2 ^ step⌋.toNat

/-- `geohashEncode`, of coordinates in their ranges. -/
def geohashEncode (longOffset latOffset : GeoOffset) (step : Nat) : GeoHashBits :=
  ⟨interleave64 (UInt32.ofNat (latOffset.fixed step)) (UInt32.ofNat (longOffset.fixed step)), step⟩

/-- `geohash_move_x`. -/
def geohashMoveX (hash : GeoHashBits) (d : Int) : GeoHashBits :=
  if d = 0 then hash
  else
    let x := hash.bits &&& 0xaaaaaaaaaaaaaaaa
    let y := hash.bits &&& 0x5555555555555555
    let zz : UInt64 := 0x5555555555555555 >>> UInt64.ofNat (64 - hash.step * 2)
    let x := if d > 0 then x + (zz + 1) else (x ||| zz) - (zz + 1)
    let x := x &&& (0xaaaaaaaaaaaaaaaa >>> UInt64.ofNat (64 - hash.step * 2))
    { hash with bits := x ||| y }

/-- `geohash_move_y`. -/
def geohashMoveY (hash : GeoHashBits) (d : Int) : GeoHashBits :=
  if d = 0 then hash
  else
    let x := hash.bits &&& 0xaaaaaaaaaaaaaaaa
    let y := hash.bits &&& 0x5555555555555555
    let zz : UInt64 := 0xaaaaaaaaaaaaaaaa >>> UInt64.ofNat (64 - hash.step * 2)
    let y := if d > 0 then y + (zz + 1) else (y ||| zz) - (zz + 1)
    let y := y &&& (0x5555555555555555 >>> UInt64.ofNat (64 - hash.step * 2))
    { hash with bits := x ||| y }

/-- The members of `GeoHashNeighbors`. -/
inductive Direction where
  | north | east | west | south | northEast | southEast | northWest | southWest
deriving DecidableEq, Repr

/-- How far a neighbour is to the east. -/
def Direction.dx : Direction → Int
  | .north | .south => 0
  | .east | .northEast | .southEast => 1
  | .west | .northWest | .southWest => -1

/-- How far a neighbour is to the north. -/
def Direction.dy : Direction → Int
  | .east | .west => 0
  | .north | .northEast | .northWest => 1
  | .south | .southEast | .southWest => -1

/-- `geohashNeighbors`. -/
def geohashNeighbors (hash : GeoHashBits) (d : Direction) : GeoHashBits :=
  geohashMoveY (geohashMoveX hash d.dx) d.dy

/-- `geohashAlign52Bits`. -/
def geohashAlign52Bits (hash : GeoHashBits) : UInt64 := hash.bits <<< UInt64.ofNat (52 - hash.step * 2)

/-! ## Cells -/

/-- The hash of a cell, or of one past the grid. -/
def geoCell (step lat long : Nat) : GeoHashBits := ⟨UInt64.ofNat (interleave lat long), step⟩

/-- One of the steps of `spread64`, bit by bit. -/
theorem step64_or (x y s mask : UInt64) :
    ((x ||| y) ||| ((x ||| y) <<< s)) &&& mask =
      ((x ||| (x <<< s)) &&& mask) ||| ((y ||| (y <<< s)) &&& mask) := by
  have hcomm : (x ||| y) ||| ((x <<< s) ||| (y <<< s)) = (x ||| (x <<< s)) ||| (y ||| (y <<< s)) := by ac_rfl
  rw [UInt64.shiftLeft_or, hcomm, ← UInt64.toBitVec_inj]
  simp only [UInt64.toBitVec_and, UInt64.toBitVec_or]
  exact BitVec.and_or_distrib_right

theorem spread64_or (x y : UInt64) : spread64 (x ||| y) = spread64 x ||| spread64 y := by
  simp only [spread64, step64_or]

theorem spread_two_pow (k : Nat) : spread (2 ^ k) = 4 ^ k := by
  induction k with
  | zero =>
      rw [pow_zero, pow_zero, spread_eq, show 1 / 2 = 0 from rfl, spread_zero]
      rfl
  | succ k ih =>
      have h := spread_bit (2 ^ k) (b := 0) (by decide)
      rw [Nat.add_zero, Nat.add_zero, ih] at h
      rw [pow_succ', pow_succ', h]

theorem toNat_spread64 {x : Nat} (hx : x < 2 ^ 32) : (spread64 (UInt64.ofNat x)).toNat = spread x := by
  have hone : ∀ k < 32, (spread64 (UInt64.ofNat (2 ^ k))).toNat = 4 ^ k := by decide
  have hbits : ∀ k ≤ 32, ∀ x < 2 ^ k, (spread64 (UInt64.ofNat x)).toNat = spread x := by
    intro k
    induction k with
    | zero =>
        intro _ x hx
        obtain rfl : x = 0 := by rw [pow_zero] at hx; omega
        rw [spread_zero]
        decide
    | succ k ih =>
        intro hk x hx
        by_cases hlt : x < 2 ^ k
        · exact ih (by omega) x hlt
        · -- the highest bit is apart from the others
          have hrest : x - 2 ^ k < 2 ^ k := by rw [pow_succ] at hx; omega
          have hor := Nat.two_pow_add_eq_or_of_lt hrest 1
          rw [Nat.mul_one, Nat.add_sub_cancel' (not_lt.mp hlt)] at hor
          rw [hor, UInt64.ofNat_or, spread64_or, UInt64.toNat_or, hone k (by omega), ih (by omega) _ hrest,
            spread_lor, spread_two_pow]
  exact hbits 32 le_rfl x hx

theorem toNat_interleave64 {x y : Nat} (hx : x < 2 ^ 32) (hy : y < 2 ^ 32) :
    (interleave64 (UInt32.ofNat x) (UInt32.ofNat y)).toNat = interleave x y := by
  have hconv : ∀ {n : Nat}, n < 2 ^ 32 → (UInt32.ofNat n).toUInt64 = UInt64.ofNat n := by
    intro n hn
    rw [← UInt64.toNat_inj, UInt32.toNat_toUInt64, UInt32.toNat_ofNat_of_lt' hn,
      UInt64.toNat_ofNat_of_lt' (hn.trans (by decide))]
  have hlt := interleave_lt hx hy
  rw [interleave] at hlt
  rw [interleave64, UInt64.toNat_or, UInt64.toNat_shiftLeft, hconv hx, hconv hy, toNat_spread64 hx,
    toNat_spread64 hy, ← lor_spread, show (1 : UInt64).toNat % 64 = 1 from rfl, Nat.shiftLeft_eq, pow_one,
    Nat.mod_eq_of_lt (by omega), Nat.mul_comm]

/-! ## Neighbours -/

/-- A coordinate after a move: it wraps around, and it is the first again if it
was past the edge. -/
def moved (step c : Nat) (d : Int) : Nat :=
  if d = 0 then c else if d > 0 then (c + 1) % 2 ^ step else (c + (2 ^ step - 1)) % 2 ^ step

section Moves

variable {f g c step : Nat} {v zz mask : UInt64}

theorem spread_le {c : Nat} (hc : c ≤ 2 ^ 26) : spread c < 4 ^ 27 := spread_lt (hc.trans_lt (by decide))

theorem lanes_le {step : Nat} (hstep : step ≤ 26) : lanes step < 4 ^ 26 :=
  (lanes_lt step).trans_le (Nat.pow_le_pow_right (by decide) hstep)

theorem toNat_lane_up (hf : Places f g) (hstep : step ≤ 26) (hc : c ≤ 2 ^ 26) (hv : v.toNat = f * spread c)
    (hzz : zz.toNat = g * lanes step) (hmask : mask.toNat = f * lanes step) :
    ((v + (zz + 1)) &&& mask).toNat = f * spread ((c + 1) % 2 ^ step) := by
  have hspread := spread_le hc
  have hlanes := lanes_le hstep
  have hsum : (v + (zz + 1)).toNat = f * spread c + g * lanes step + 1 := by
    rw [UInt64.toNat_add, UInt64.toNat_add, hv, hzz, show (1 : UInt64).toNat = 1 from rfl]
    rcases hf with ⟨rfl, rfl⟩ | ⟨rfl, rfl⟩ <;> omega
  rw [UInt64.toNat_and, hsum, hmask, land_lane_add hf]

theorem toNat_lane_down (hf : Places f g) (hstep : step ≤ 26) (hc : c ≤ 2 ^ 26) (hv : v.toNat = f * spread c)
    (hzz : zz.toNat = g * lanes step) (hmask : mask.toNat = f * lanes step) :
    (((v ||| zz) - (zz + 1)) &&& mask).toNat = f * spread ((c + (2 ^ step - 1)) % 2 ^ step) := by
  have hspread := spread_le hc
  have hlanes := lanes_le hstep
  have hpos := Nat.two_pow_pos step
  have hor : (v ||| zz).toNat = f * spread c + g * lanes step := by
    rw [UInt64.toNat_or, hv, hzz]
    rcases hf with ⟨rfl, rfl⟩ | ⟨rfl, rfl⟩
    · rw [Nat.one_mul]
      exact lor_spread c _
    · rw [Nat.one_mul, Nat.or_comm, Nat.add_comm]
      exact lor_spread _ c
  have hone : (zz + 1).toNat = g * lanes step + 1 := by
    rw [UInt64.toNat_add, hzz, show (1 : UInt64).toNat = 1 from rfl]
    rcases hf with ⟨rfl, rfl⟩ | ⟨rfl, rfl⟩ <;> omega
  rw [UInt64.toNat_and, UInt64.toNat_sub, hor, hone, hmask]
  by_cases hzero : c = 0
  · -- the difference is all ones
    have hones : (2 ^ 64 - (g * lanes step + 1) + (f * spread c + g * lanes step)) % 2 ^ 64 = 2 ^ 64 - 1 := by
      rw [hzero, spread_zero]
      rcases hf with ⟨rfl, rfl⟩ | ⟨rfl, rfl⟩ <;> omega
    have hlt : f * lanes step < 2 ^ 64 := by rcases hf with ⟨rfl, rfl⟩ | ⟨rfl, rfl⟩ <;> omega
    rw [hones, Nat.and_comm, Nat.and_two_pow_sub_one_eq_mod, Nat.mod_eq_of_lt hlt, hzero, Nat.zero_add,
      Nat.mod_eq_of_lt (by omega), lanes]
  · have hc0 : 0 < c := Nat.pos_of_ne_zero hzero
    have hspread0 := spread_pos hc0
    have hdiff :
        (2 ^ 64 - (g * lanes step + 1) + (f * spread c + g * lanes step)) % 2 ^ 64 = f * spread c - 1 := by
      rcases hf with ⟨rfl, rfl⟩ | ⟨rfl, rfl⟩ <;> omega
    rw [hdiff, land_lane_sub hf hc0, show c + (2 ^ step - 1) = c - 1 + 2 ^ step by omega, Nat.add_mod_right]

end Moves

/-- A position in the grid, or one past an edge. -/
structure InGrid (step lat long : Nat) : Prop where
  step_pos : 1 ≤ step
  step_le : step ≤ 26
  lat_le : lat ≤ 2 ^ step
  long_le : long ≤ 2 ^ step

section Cells

variable {step lat long : Nat}

theorem InGrid.le_two_pow (h : InGrid step lat long) : lat ≤ 2 ^ 26 ∧ long ≤ 2 ^ 26 := by
  have hpow : 2 ^ step ≤ 2 ^ 26 := Nat.pow_le_pow_right (by decide) h.step_le
  exact ⟨h.lat_le.trans hpow, h.long_le.trans hpow⟩

theorem toNat_geoCell (hlat : lat ≤ 2 ^ 26) (hlong : long ≤ 2 ^ 26) :
    (geoCell step lat long).bits.toNat = interleave lat long := by
  have hlt := @interleave_lt lat long 27 (by omega) (by omega)
  exact UInt64.toNat_ofNat_of_lt' (hlt.trans (by decide))

theorem lanes_32 : lanes 32 = 0x5555555555555555 := by
  have h := three_mul_lanes 32
  omega

/-- The masks, cut to the grid. -/
theorem toNat_mask (hpos : 1 ≤ step) (hstep : step ≤ 26) {mask : UInt64} {f : Nat} (hf : f ≤ 2)
    (hmask : mask.toNat = f * lanes 32) : (mask >>> UInt64.ofNat (64 - step * 2)).toNat = f * lanes step := by
  have hshift : (UInt64.ofNat (64 - step * 2)).toNat = 64 - step * 2 :=
    UInt64.toNat_ofNat_of_lt' ((Nat.sub_le _ _).trans_lt (by decide))
  have hdiv := mul_lanes_div hf step (32 - step)
  rw [Nat.add_sub_cancel' (by omega)] at hdiv
  rw [UInt64.toNat_shiftRight, hshift, Nat.mod_eq_of_lt (by omega), Nat.shiftRight_eq_div_pow, hmask,
    show 64 - step * 2 = 2 * (32 - step) by omega, pow_mul, show 2 ^ 2 = 4 from rfl, hdiv]

/-- The two coordinates of a hash, apart. -/
theorem toNat_coordinates (hlat : lat ≤ 2 ^ 26) (hlong : long ≤ 2 ^ 26) :
    ((geoCell step lat long).bits &&& 0xaaaaaaaaaaaaaaaa).toNat = 2 * spread long ∧
      ((geoCell step lat long).bits &&& 0x5555555555555555).toNat = spread lat := by
  have hlong' : long % 2 ^ 32 = long := Nat.mod_eq_of_lt (by omega)
  have hlat' : lat % 2 ^ 32 = lat := Nat.mod_eq_of_lt (by omega)
  have hx := land_lane (.inr ⟨rfl, rfl⟩) long lat 32
  have hy := land_lane (.inl ⟨rfl, rfl⟩) lat long 32
  rw [hlong', lanes_32, Nat.one_mul, Nat.add_comm] at hx
  rw [hlat', lanes_32, Nat.one_mul, Nat.one_mul] at hy
  rw [UInt64.toNat_and, UInt64.toNat_and, toNat_geoCell hlat hlong]
  exact ⟨hx, hy⟩

/-- A hash from its coordinates. -/
theorem geoCell_ext {x y : UInt64} (hlat : lat ≤ 2 ^ 26) (hlong : long ≤ 2 ^ 26) (hx : x.toNat = 2 * spread long)
    (hy : y.toNat = spread lat) : ⟨x ||| y, step⟩ = geoCell step lat long := by
  have hbits : x ||| y = (geoCell step lat long).bits := by
    rw [← UInt64.toNat_inj, UInt64.toNat_or, hx, hy, toNat_geoCell hlat hlong, Nat.or_comm, lor_spread]
  rw [hbits]
  rfl

theorem moved_lt {c : Nat} {d : Int} (hd : d ≠ 0) : moved step c d < 2 ^ step := by
  rw [moved, if_neg hd]
  split_ifs
  · exact Nat.mod_lt _ (Nat.two_pow_pos step)
  · exact Nat.mod_lt _ (Nat.two_pow_pos step)

theorem moved_le {c : Nat} (hc : c ≤ 2 ^ step) (d : Int) : moved step c d ≤ 2 ^ step := by
  by_cases hd : d = 0
  · rwa [moved, if_pos hd]
  · exact (moved_lt hd).le

theorem InGrid.move (h : InGrid step lat long) (dy dx : Int) :
    InGrid step (moved step lat dy) (moved step long dx) :=
  ⟨h.step_pos, h.step_le, moved_le h.lat_le dy, moved_le h.long_le dx⟩

theorem geohashMoveX_geoCell (h : InGrid step lat long) (d : Int) :
    geohashMoveX (geoCell step lat long) d = geoCell step lat (moved step long d) := by
  obtain ⟨hlat, hlong⟩ := h.le_two_pow
  obtain ⟨hx, hy⟩ := @toNat_coordinates step lat long hlat hlong
  have hmoved := (h.move 0 d).le_two_pow.2
  have hzz : ((0x5555555555555555 : UInt64) >>> UInt64.ofNat (64 - step * 2)).toNat = 1 * lanes step :=
    toNat_mask h.step_pos h.step_le (by decide) (by rw [lanes_32]; rfl)
  have hmask : ((0xaaaaaaaaaaaaaaaa : UInt64) >>> UInt64.ofNat (64 - step * 2)).toNat = 2 * lanes step :=
    toNat_mask h.step_pos h.step_le (by decide) (by rw [lanes_32]; rfl)
  rw [geohashMoveX]
  rw [moved] at hmoved ⊢
  split_ifs at hmoved ⊢ with hd hup
  · rfl
  · exact geoCell_ext hlat hmoved (toNat_lane_up (.inr ⟨rfl, rfl⟩) h.step_le hlong hx hzz hmask) hy
  · exact geoCell_ext hlat hmoved (toNat_lane_down (.inr ⟨rfl, rfl⟩) h.step_le hlong hx hzz hmask) hy

theorem geohashMoveY_geoCell (h : InGrid step lat long) (d : Int) :
    geohashMoveY (geoCell step lat long) d = geoCell step (moved step lat d) long := by
  obtain ⟨hlat, hlong⟩ := h.le_two_pow
  obtain ⟨hx, hy⟩ := @toNat_coordinates step lat long hlat hlong
  have hmoved := (h.move d 0).le_two_pow.1
  have hzz : ((0xaaaaaaaaaaaaaaaa : UInt64) >>> UInt64.ofNat (64 - step * 2)).toNat = 2 * lanes step :=
    toNat_mask h.step_pos h.step_le (by decide) (by rw [lanes_32]; rfl)
  have hmask : ((0x5555555555555555 : UInt64) >>> UInt64.ofNat (64 - step * 2)).toNat = 1 * lanes step :=
    toNat_mask h.step_pos h.step_le (by decide) (by rw [lanes_32]; rfl)
  rw [← Nat.one_mul (spread lat)] at hy
  rw [geohashMoveY]
  rw [moved] at hmoved ⊢
  split_ifs at hmoved ⊢ with hd hup
  · rfl
  · have hup' := toNat_lane_up (.inl ⟨rfl, rfl⟩) h.step_le hlat hy hzz hmask
    rw [Nat.one_mul] at hup'
    exact geoCell_ext hmoved hlong hx hup'
  · have hdown := toNat_lane_down (.inl ⟨rfl, rfl⟩) h.step_le hlat hy hzz hmask
    rw [Nat.one_mul] at hdown
    exact geoCell_ext hmoved hlong hx hdown

/-- **A neighbour** is the cell with the coordinates moved. -/
theorem geohashNeighbors_geoCell (h : InGrid step lat long) (d : Direction) :
    geohashNeighbors (geoCell step lat long) d = geoCell step (moved step lat d.dy) (moved step long d.dx) := by
  rw [geohashNeighbors, geohashMoveX_geoCell h]
  exact geohashMoveY_geoCell (h.move 0 d.dx) d.dy

end Cells

/-! ## Areas -/

theorem GeoOffset.fixed_le (offset : GeoOffset) (step : Nat) : offset.fixed step ≤ 2 ^ step := by
  have hle : offset.value * 2 ^ step ≤ ((2 ^ step : Nat) : ℤ) := by
    push_cast
    exact mul_le_of_le_one_left (by positivity) offset.le_one
  rw [fixed, Int.toNat_le]
  exact (Int.floor_le_floor hle).trans_eq (Int.floor_intCast _)

/-- The encoding gives a position in the grid, or one past an edge. -/
theorem inGrid_fixed {step : Nat} (hpos : 1 ≤ step) (hstep : step ≤ 26) (longOffset latOffset : GeoOffset) :
    InGrid step (latOffset.fixed step) (longOffset.fixed step) :=
  ⟨hpos, hstep, latOffset.fixed_le step, longOffset.fixed_le step⟩

theorem geohashEncode_eq {step : Nat} (hpos : 1 ≤ step) (hstep : step ≤ 26) (longOffset latOffset : GeoOffset) :
    geohashEncode longOffset latOffset step = geoCell step (latOffset.fixed step) (longOffset.fixed step) := by
  obtain ⟨hlat, hlong⟩ := (inGrid_fixed hpos hstep longOffset latOffset).le_two_pow
  have hbits : interleave64 (UInt32.ofNat (latOffset.fixed step)) (UInt32.ofNat (longOffset.fixed step)) =
      (geoCell step (latOffset.fixed step) (longOffset.fixed step)).bits := by
    rw [← UInt64.toNat_inj, toNat_interleave64 (by omega) (by omega), toNat_geoCell hlat hlong]
  rw [geohashEncode, hbits]
  rfl

/-- The part of `GeoHashRadius` that a search reads. -/
structure GeoHashRadius where
  hash : GeoHashBits
  neighbors : Direction → GeoHashBits

/-- The sides of the centre's cell that the search does not reach over. -/
structure GeoSides where
  south : Bool
  north : Bool
  west : Bool
  east : Bool
deriving DecidableEq, Repr

/-- The neighbours on a side. -/
def GeoSides.zeroed (sides : GeoSides) : Direction → Bool
  | .south => sides.south
  | .north => sides.north
  | .west => sides.west
  | .east => sides.east
  | .southWest => sides.south || sides.west
  | .southEast => sides.south || sides.east
  | .northWest => sides.north || sides.west
  | .northEast => sides.north || sides.east

/-- `GZERO` on some neighbours, at the steps where they are excluded. -/
def geohashExclude (steps : Nat) (zeroed : Direction → Bool) (neighbors : Direction → GeoHashBits)
    (d : Direction) : GeoHashBits :=
  if steps ≥ 2 ∧ zeroed d = true then ⟨0, 0⟩ else neighbors d

/-- What `geohashCalculateAreasByShapeWGS84` finds out about a shape: the step,
which it keeps between 1 and 26, where the centre lies, and the sides that are
not reached over. -/
structure GeoArea where
  steps : Nat
  steps_pos : 1 ≤ steps
  steps_le : steps ≤ 26
  longOffset : GeoOffset
  latOffset : GeoOffset
  sides : GeoSides

/-- `geohashCalculateAreasByShapeWGS84`. -/
def geohashCalculateAreas (area : GeoArea) : GeoHashRadius :=
  let hash := geohashEncode area.longOffset area.latOffset area.steps
  ⟨hash, geohashExclude area.steps area.sides.zeroed (geohashNeighbors hash)⟩

end SkynetJit.Redis
