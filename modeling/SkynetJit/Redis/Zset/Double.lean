import SkynetJit.Redis.Zset.Blob

/-!
# SkynetJit.Redis.Zset.Double

The machine's doubles, by their bits.

Without the sign bit, the bits of a number are ordered as the number: the
order, the infinities and the two zeros are read off them.  Sums and products
are those of binary64.  The text of a fraction only has to read back, so it is
written by its bits; the texts of integers and of the infinities are the ones
`d2string` writes.
-/

namespace SkynetJit.Redis

open LuaNumber (isNaN)

/-- A double. -/
structure Double where
  bits : UInt64
deriving DecidableEq, Repr

namespace Double

/-- All bits but the sign. -/
def magnitude (x : Double) : Nat := x.bits.toNat % 2 ^ 63

/-- The magnitude of the infinities; a larger one is NaN. -/
def infinity : Nat := 2047 * 2 ^ 52

/-- Where a number stands among all. -/
def key (x : Double) : Int := if 2 ^ 63 ≤ x.bits.toNat then -x.magnitude else x.magnitude

/-- `isnan`. -/
def nan (x : Double) : Bool := decide (infinity < x.magnitude)

/-- A sign and a magnitude. -/
def make (negative : Bool) (magnitude : Nat) : Double :=
  ⟨UInt64.ofNat ((if negative then 2 ^ 63 else 0) + magnitude % 2 ^ 63)⟩

/-- The magnitude nearest to an integer, ties to even. -/
def roundNat (n : Nat) : Nat :=
  if n = 0 then 0
  else
    let e := n.log2
    let significand :=
      if e ≤ 52 then n * 2 ^ (52 - e)
      else
        let ulp := 2 ^ (e - 52)
        let q := n / ulp
        if 2 * (n % ulp) < ulp ∨ 2 * (n % ulp) = ulp ∧ q % 2 = 0 then q else q + 1
    min ((e + 1022) * 2 ^ 52 + significand) infinity

/-- The conversion of an integer. -/
def ofInt (n : Int) : Double := make (n < 0) (roundNat n.natAbs)

/-- The integer part, as the cast computes it. -/
def trunc (x : Double) : Int :=
  let e := x.magnitude / 2 ^ 52
  let significand := 2 ^ 52 + x.magnitude % 2 ^ 52
  let whole : Nat :=
    if e < 1023 then 0
    else if e ≤ 1075 then significand / 2 ^ (1075 - e)
    else significand * 2 ^ (e - 1075)
  if 2 ^ 63 ≤ x.bits.toNat then -(whole : Int) else whole

/-- `<`. -/
def less (x y : Double) : Bool := !x.nan && !y.nan && decide (x.key < y.key)

/-- `==`. -/
def same (x y : Double) : Bool := !x.nan && !y.nan && decide (x.key = y.key)

/-- The integer a double is. -/
def toLong (x : Double) : Option Int :=
  if IsInt64 x.trunc ∧ same (ofInt x.trunc) x = true then some x.trunc else none

/-- The text of a number that is not an integer. -/
def text (x : Double) : Bytes :=
  if x = make false infinity then ascii "inf"
  else if x = make true infinity then ascii "-inf"
  else charByte '#' :: leBytes 8 x.bits.toNat

/-- The number of a text that is not an integer. -/
def ofText (s : Bytes) : Option Double :=
  if s = ascii "inf" ∨ s = ascii "+inf" then some (make false infinity)
  else if s = ascii "-inf" then some (make true infinity)
  else match s with
    | [] => none
    | b :: rest => if b = charByte '#' then some ⟨UInt64.ofNat (leNat rest)⟩ else none

/-- The number of a text. -/
def parse (s : Bytes) : Option Double :=
  match string2ll s with
  | some n => some (ofInt n)
  | none => ofText s

instance : ScoreBits Double where
  isNaN := nan
  toText x := match x.toLong with
    | some n => ll2string n
    | none => x.text
  string2d := parse
  toLong := toLong
  lt := less
  add x y := ⟨(Float.ofBits x.bits + Float.ofBits y.bits).toBits⟩
  mul x y := ⟨(Float.ofBits x.bits * Float.ofBits y.bits).toBits⟩
  ofLong := ofInt
  d2string := text
  strtod s := (parse s).getD (ofInt 0)
  strtodAll := parse
  toBits x := x.bits.toNat
  ofBits n := ⟨UInt64.ofNat n⟩

instance : LuaTonumber Double where
  tonumber := parse

/-! ## Laws -/

theorem magnitude_lt (x : Double) : x.magnitude < 2 ^ 63 := Nat.mod_lt _ (by decide)

theorem magnitude_make (negative : Bool) (m : Nat) : (make negative m).magnitude = m % 2 ^ 63 := by
  have hm : m % 2 ^ 63 < 2 ^ 63 := Nat.mod_lt _ (by decide)
  rw [magnitude, make, UInt64.toNat_ofNat']
  cases negative with
  | false =>
      rw [if_neg Bool.false_ne_true]
      omega
  | true =>
      rw [if_pos rfl]
      omega

theorem roundNat_le (n : Nat) : roundNat n ≤ infinity := by
  rw [roundNat]
  split_ifs
  · exact Nat.zero_le _
  · exact Nat.min_le_right _ _

theorem nan_ofInt (n : Int) : (ofInt n).nan = false := by
  have hle := roundNat_le n.natAbs
  rw [nan, ofInt, magnitude_make, decide_eq_false_iff_not, Nat.not_lt]
  exact Nat.le_trans (Nat.mod_le _ _) hle

theorem less_iff {x y : Double} : less x y = true ↔ x.nan = false ∧ y.nan = false ∧ x.key < y.key := by
  simp only [less, Bool.and_eq_true, Bool.not_eq_true', decide_eq_true_eq]
  tauto

theorem same_iff {x y : Double} : same x y = true ↔ x.nan = false ∧ y.nan = false ∧ x.key = y.key := by
  simp only [same, Bool.and_eq_true, Bool.not_eq_true', decide_eq_true_eq]
  tauto

/-- Neither smaller is equal. -/
theorem eq_eq_same (x y : Double) : Score.eq x y = same x y := by
  have hless : ∀ a b : Double, (Score.lt a b = false ↔ ¬ (a.nan = false ∧ b.nan = false ∧ a.key < b.key)) := by
    intro a b
    rw [← less_iff, Bool.not_eq_true]
    rfl
  rw [Bool.eq_iff_iff, Score.eq_iff, same_iff, hless, hless]
  constructor
  · rintro ⟨hx, hy, hxy, hyx⟩
    refine ⟨hx, hy, ?_⟩
    have h1 : ¬ x.key < y.key := fun h => hxy ⟨hx, hy, h⟩
    have h2 : ¬ y.key < x.key := fun h => hyx ⟨hy, hx, h⟩
    omega
  · rintro ⟨hx, hy, hkey⟩
    exact ⟨hx, hy, fun h => by omega, fun h => by omega⟩

theorem parse_text (x : Double) : parse x.text = some x := by
  rw [text]
  split_ifs with hpos hneg
  · rw [hpos]
    rfl
  · rw [hneg]
    rfl
  · have hbits := x.bits.toNat_lt
    rw [parse, string2ll_hash]
    have hleNat : leNat (leBytes 8 x.bits.toNat) = x.bits.toNat := leNat_leBytes_of_lt hbits
    simp only [ofText, hleNat, if_true]
    rw [if_neg, if_neg, UInt64.ofNat_toNat]
    · intro h
      exact absurd (List.cons.inj h).1 (by decide)
    · rintro (h | h)
      · exact absurd (List.cons.inj h).1 (by decide)
      · exact absurd (List.cons.inj h).1 (by decide)

/-- Numbers at one place are equal, or zeros of opposite signs. -/
theorem eq_or_zero {x y : Double} (h : x.key = y.key) :
    x = y ∨ x.key = 0 ∧ (x.bits.toNat < 2 ^ 63 ↔ 2 ^ 63 ≤ y.bits.toNat) := by
  have hx := x.bits.toNat_lt
  have hy := y.bits.toNat_lt
  by_cases hbits : x.bits.toNat = y.bits.toNat
  · left
    obtain ⟨bits⟩ := x
    obtain ⟨bits'⟩ := y
    exact congrArg mk (UInt64.toNat_inj.mp hbits)
  · right
    simp only [key, magnitude] at h ⊢
    split_ifs at h ⊢ <;> omega

theorem signbit_eq (x : Double) : signbit x = decide (2 ^ 63 ≤ x.bits.toNat) := by
  have hx := x.bits.toNat_lt
  rw [signbit, show ScoreBits.toBits x = x.bits.toNat from rfl, Nat.testBit_eq_decide_div_mod_eq]
  congr 1
  rw [eq_iff_iff]
  omega

instance : LawfulScoreBits Double where
  lt_irrefl x := by
    rw [← Bool.not_eq_true]
    intro h
    exact absurd (less_iff.mp h).2.2 (lt_irrefl _)
  lt_trans hxy hyz := by
    have hx := less_iff.mp hxy
    have hz := less_iff.mp hyz
    exact less_iff.mpr ⟨hx.1, hz.2.1, hx.2.2.trans hz.2.2⟩
  number_of_lt h := ⟨(less_iff.mp h).1, (less_iff.mp h).2.1⟩
  lt_or_lt := by
    intro x y z hy h
    have hxz := less_iff.mp h
    by_cases hxy : x.key < y.key
    · exact .inl (less_iff.mpr ⟨hxz.1, hy, hxy⟩)
    · exact .inr (less_iff.mpr ⟨hy, hxz.2.1, by omega⟩)
  number_ofLong := nan_ofInt
  toLong_eq := by
    intro x n h
    rw [show LuaNumber.toLong x = toLong x from rfl, toLong] at h
    split_ifs at h with hok
    obtain rfl := Option.some.inj h
    exact ⟨hok.1, (eq_eq_same _ _).trans hok.2⟩
  strtod_d2string := by
    intro x _ _
    rw [show Score.strtod (Score.d2string x) = (parse x.text).getD (ofInt 0) from rfl, parse_text]
    rfl
  strtod_ll2string := by
    intro n hn
    have hparse : (Score.strtod (ll2string n) : Double) = ofInt n := by
      rw [show (Score.strtod (ll2string n) : Double) = (parse (ll2string n)).getD (ofInt 0) from rfl,
        parse, string2ll_ll2string hn]
      rfl
    rw [hparse, eq_eq_same]
    exact same_iff.mpr ⟨nan_ofInt n, nan_ofInt n, rfl⟩
  toBits_lt x := x.bits.toNat_lt
  ofBits_toBits := by
    intro x _
    exact congrArg mk UInt64.ofNat_toNat
  eq_cases := by
    intro x y h
    rw [eq_eq_same, same_iff] at h
    rcases eq_or_zero h.2.2 with rfl | ⟨hzero, hsign⟩
    · exact .inl rfl
    · refine .inr ⟨?_, ?_⟩
      · rw [eq_eq_same, same_iff]
        exact ⟨h.1, nan_ofInt 0, hzero⟩
      · rw [signbit_eq, signbit_eq, ne_eq, decide_eq_decide]
        omega

end Double

end SkynetJit.Redis
