import SkynetJit.Lib.Bytes

/-!
# SkynetJit.Redis.Decimal

Integers and their canonical decimal text (`kernel/util.c`).  `string2ll`
accepts exactly the texts `ll2string` writes: no sign but a minus, no leading
zero, no `-0`, nothing outside a `long long`.  That is what lets the kernel
keep a member as an integer and hand the same bytes back.
-/

namespace SkynetJit.Redis

/-- A `long long`. -/
def IsInt64 (n : Int) : Prop := -2 ^ 63 ≤ n ∧ n < 2 ^ 63

instance (n : Int) : Decidable (IsInt64 n) := inferInstanceAs (Decidable (_ ∧ _))

/-- `ll2string`. -/
def ll2string (n : Int) : Bytes :=
  if n < 0 then charByte '-' :: natDec n.natAbs else natDec n.natAbs

/-- `LONG_STR_SIZE`. -/
def longStrSize : Nat := 21

/-- `ULLONG_MAX`. -/
def ullongMax : Nat := 2 ^ 64 - 1

/-- One turn of the digit loop, with its two overflow checks. -/
def digitStep (v : Nat) (b : UInt8) : Option Nat :=
  if 48 ≤ b ∧ b ≤ 57 then
    if v > ullongMax / 10 then none
    else if v * 10 > ullongMax - (b.toNat - 48) then none
    else some (v * 10 + (b.toNat - 48))
  else none

/-- The digits from the first on: it is not zero, and nothing follows the
last. -/
def parseDigits : Bytes → Option Nat
  | [] => none
  | b :: rest => if 49 ≤ b ∧ b ≤ 57 then rest.foldlM digitStep (b.toNat - 48) else none

/-- `string2ll`. -/
def string2ll (s : Bytes) : Option Int :=
  if s = [] ∨ longStrSize ≤ s.length then none
  else if s = [charByte '0'] then some 0
  else match s with
    | [] => none
    | b :: rest =>
        if b = charByte '-' then
          (parseDigits rest).bind fun v => if v ≤ 2 ^ 63 then some (-(v : Int)) else none
        else
          (parseDigits s).bind fun v => if v < 2 ^ 63 then some (v : Int) else none

/-! ## Digits -/

/-- The byte of a digit. -/
def digitByte (r : Nat) : UInt8 := UInt8.ofNat (48 + r)

theorem charByte_digitChar : ∀ r : Fin 10, charByte (Nat.digitChar r) = digitByte r := by
  decide

theorem toNat_digitByte {r : Nat} (h : r < 10) : (digitByte r).toNat = 48 + r := by
  rw [digitByte, UInt8.toNat_ofNat']
  omega

theorem natDec_of_lt {r : Nat} (h : r < 10) : natDec r = [digitByte r] := by
  rw [natDec, Nat.toDigits_of_lt_base h, List.map_singleton, charByte_digitChar ⟨r, h⟩]

theorem natDec_step {q r : Nat} (hq : 0 < q) (hr : r < 10) :
    natDec (q * 10 + r) = natDec q ++ [digitByte r] := by
  rw [natDec, Nat.mul_comm, ← Nat.toDigits_append_toDigits (by decide) hq hr, List.map_append,
    Nat.toDigits_of_lt_base hr, List.map_singleton, charByte_digitChar ⟨r, hr⟩]
  rfl

theorem digitStep_sound {v w : Nat} {b : UInt8} (hv : 0 < v) (h : digitStep v b = some w) :
    0 < w ∧ natDec w = natDec v ++ [b] := by
  rw [digitStep] at h
  split at h
  swap
  · contradiction
  next hb =>
    have hlow : 48 ≤ b.toNat := hb.1
    have hhigh : b.toNat ≤ 57 := hb.2
    split at h
    · contradiction
    split at h
    · contradiction
    obtain rfl := Option.some.inj h
    have hr : b.toNat - 48 < 10 := by omega
    refine ⟨by omega, ?_⟩
    have hbyte : digitByte (b.toNat - 48) = b := by
      apply UInt8.toNat_inj.mp
      rw [toNat_digitByte hr]
      omega
    rw [natDec_step hv hr, hbyte]

theorem foldlM_digitStep_sound {v w : Nat} {ds : Bytes} (hv : 0 < v)
    (h : ds.foldlM digitStep v = some w) : 0 < w ∧ natDec w = natDec v ++ ds := by
  induction ds generalizing v with
  | nil =>
      obtain rfl := Option.some.inj h
      exact ⟨hv, (List.append_nil _).symm⟩
  | cons b ds ih =>
      rw [List.foldlM_cons] at h
      cases hstep : digitStep v b with
      | none => rw [hstep] at h; contradiction
      | some u =>
          obtain ⟨hu, hdec⟩ := digitStep_sound hv hstep
          rw [hstep] at h
          obtain ⟨hw, hfold⟩ := ih hu h
          exact ⟨hw, by rw [hfold, hdec, List.append_assoc, List.singleton_append]⟩

/-- What the digit parser accepts is the numeral of what it returns. -/
theorem parseDigits_sound {s : Bytes} {w : Nat} (h : parseDigits s = some w) :
    0 < w ∧ natDec w = s := by
  cases s with
  | nil => contradiction
  | cons b rest =>
      rw [parseDigits] at h
      split at h
      swap
      · contradiction
      next hb =>
        have hlow : 49 ≤ b.toNat := hb.1
        have hhigh : b.toNat ≤ 57 := hb.2
        obtain ⟨hw, hdec⟩ := foldlM_digitStep_sound (by omega) h
        refine ⟨hw, ?_⟩
        have hbyte : digitByte (b.toNat - 48) = b := by
          apply UInt8.toNat_inj.mp
          rw [toNat_digitByte (by omega)]
          omega
        rw [hdec, natDec_of_lt (by omega), hbyte, List.singleton_append]

/-- Every numeral that fits is accepted. -/
theorem parseDigits_natDec {w : Nat} (hpos : 0 < w) (hmax : w ≤ ullongMax) :
    parseDigits (natDec w) = some w := by
  induction w using Nat.strongRecOn with
  | ind w ih =>
      by_cases hw : w < 10
      · have hbyte := toNat_digitByte hw
        have hrange : 49 ≤ digitByte w ∧ digitByte w ≤ 57 := by
          constructor
          · show 49 ≤ (digitByte w).toNat
            omega
          · show (digitByte w).toNat ≤ 57
            omega
        rw [natDec_of_lt hw, parseDigits, if_pos hrange, hbyte, Nat.add_sub_cancel_left]
        rfl
      · have hq : 0 < w / 10 := by omega
        have hr : w % 10 < 10 := Nat.mod_lt _ (by decide)
        have hsplit : w / 10 * 10 + w % 10 = w := by omega
        have hprev := ih (w / 10) (by omega) hq (by omega)
        rw [← hsplit, natDec_step hq hr, hsplit]
        cases hs : natDec (w / 10) with
        | nil => exact absurd hs (natDec_ne_nil _)
        | cons b rest =>
            rw [hs, parseDigits] at hprev
            rw [List.cons_append, parseDigits]
            split at hprev
            swap
            · contradiction
            next hb =>
              have hbyte := toNat_digitByte hr
              have hrange : 48 ≤ digitByte (w % 10) ∧ digitByte (w % 10) ≤ 57 := by
                constructor
                · show 48 ≤ (digitByte (w % 10)).toNat
                  omega
                · show (digitByte (w % 10)).toNat ≤ 57
                  omega
              rw [if_pos hb, List.foldlM_append, hprev]
              simp only [Option.bind_eq_bind, Option.bind_some, List.foldlM_cons, List.foldlM_nil]
              rw [digitStep, if_pos hrange, hbyte, Nat.add_sub_cancel_left, if_neg (by omega),
                if_neg (by omega), hsplit]
              rfl

/-! ## The two directions -/

/-- The parts of `string2ll` for a text that is neither empty, too long nor
`0`. -/
theorem string2ll_cons {b : UInt8} {rest : Bytes} (hlen : (b :: rest).length < longStrSize)
    (hzero : b :: rest ≠ [charByte '0']) :
    string2ll (b :: rest) =
      if b = charByte '-' then
        (parseDigits rest).bind fun v => if v ≤ 2 ^ 63 then some (-(v : Int)) else none
      else
        (parseDigits (b :: rest)).bind fun v => if v < 2 ^ 63 then some (v : Int) else none := by
  have hguard : ¬ (b :: rest = [] ∨ longStrSize ≤ (b :: rest).length) := by
    rintro (h | h)
    · contradiction
    · omega
  rw [string2ll, if_neg hguard, if_neg hzero]

/-- **Canonical text only**: what `string2ll` accepts is the text of the
number it returns. -/
theorem string2ll_sound {s : Bytes} {n : Int} (h : string2ll s = some n) :
    IsInt64 n ∧ ll2string n = s := by
  by_cases hguard : s = [] ∨ longStrSize ≤ s.length
  · rw [string2ll.eq_def, if_pos hguard] at h
    contradiction
  by_cases hzero : s = [charByte '0']
  · rw [string2ll.eq_def, if_neg hguard, if_pos hzero] at h
    obtain rfl := Option.some.inj h
    rw [hzero]
    decide
  cases s with
  | nil => exact absurd (.inl rfl) hguard
  | cons b rest =>
      rw [string2ll_cons (by omega) hzero] at h
      by_cases hb : b = charByte '-'
      · rw [if_pos hb, Option.bind_eq_some_iff] at h
        obtain ⟨v, hv, h⟩ := h
        obtain ⟨hpos, hdec⟩ := parseDigits_sound hv
        split at h
        swap
        · contradiction
        next hmax =>
          obtain rfl := Option.some.inj h
          have hmax' : (v : Int) ≤ 2 ^ 63 := by exact_mod_cast hmax
          refine ⟨⟨by omega, by omega⟩, ?_⟩
          rw [ll2string, if_pos (by omega), Int.natAbs_neg, Int.natAbs_natCast, hdec, hb]
      · rw [if_neg hb, Option.bind_eq_some_iff] at h
        obtain ⟨v, hv, h⟩ := h
        obtain ⟨hpos, hdec⟩ := parseDigits_sound hv
        split at h
        swap
        · contradiction
        next hmax =>
          obtain rfl := Option.some.inj h
          have hmax' : (v : Int) < 2 ^ 63 := by exact_mod_cast hmax
          refine ⟨⟨by omega, hmax'⟩, ?_⟩
          rw [ll2string, if_neg (by omega), Int.natAbs_natCast, hdec]

theorem length_natDec_le {n : Nat} (h : n ≤ 2 ^ 63) : (natDec n).length ≤ 19 := by
  rw [natDec, List.length_map, Nat.length_toDigits_le_iff (by decide) (by decide)]
  calc n ≤ 2 ^ 63 := h
    _ < 10 ^ 19 := by decide

/-- **Every integer comes back**: the text of a `long long` is accepted and
stands for it. -/
theorem string2ll_ll2string {n : Int} (h : IsInt64 n) : string2ll (ll2string n) = some n := by
  obtain ⟨hlow, hhigh⟩ := h
  have habs : n.natAbs ≤ 2 ^ 63 := by omega
  have hlen := length_natDec_le habs
  by_cases hneg : n < 0
  · rw [ll2string, if_pos hneg]
    have hne : charByte '-' :: natDec n.natAbs ≠ [charByte '0'] := by
      intro h
      exact absurd (List.cons.inj h).1 (by decide)
    have hparse : parseDigits (natDec n.natAbs) = some n.natAbs :=
      parseDigits_natDec (by omega) (by rw [ullongMax]; omega)
    rw [string2ll_cons (by rw [List.length_cons, longStrSize]; omega) hne, if_pos rfl, hparse,
      Option.bind_some, if_pos habs]
    congr 1
    omega
  · rw [ll2string, if_neg hneg]
    by_cases hzero : n = 0
    · subst hzero
      decide
    · have hparse : parseDigits (natDec n.natAbs) = some n.natAbs :=
        parseDigits_natDec (by omega) (by rw [ullongMax]; omega)
      cases hs : natDec n.natAbs with
      | nil => exact absurd hs (natDec_ne_nil _)
      | cons b rest =>
          rw [hs] at hlen hparse
          -- the first digit is neither a minus nor the only zero
          have hfirst : 49 ≤ b ∧ b ≤ 57 := by
            by_contra hb
            rw [parseDigits, if_neg hb] at hparse
            contradiction
          have hminus : b ≠ charByte '-' := by
            rintro rfl
            exact absurd hfirst.1 (by decide)
          have hne : b :: rest ≠ [charByte '0'] := by
            intro h
            rw [(List.cons.inj h).1] at hfirst
            exact absurd hfirst.1 (by decide)
          rw [string2ll_cons (by rw [longStrSize]; omega) hne, if_neg hminus, hparse, Option.bind_some,
            if_pos (by omega)]
          congr 1
          omega

/-- Different integers have different texts. -/
theorem ll2string_injective {m n : Int} (hm : IsInt64 m) (hn : IsInt64 n)
    (h : ll2string m = ll2string n) : m = n := by
  have hs := string2ll_ll2string hm
  rw [h, string2ll_ll2string hn] at hs
  exact (Option.some.inj hs).symm

theorem string2ll_eq_some_iff {s : Bytes} {n : Int} :
    string2ll s = some n ↔ IsInt64 n ∧ ll2string n = s := by
  constructor
  · exact string2ll_sound
  · rintro ⟨hn, rfl⟩
    exact string2ll_ll2string hn

/-- A text that starts with another mark is no integer. -/
theorem string2ll_hash (rest : Bytes) : string2ll (charByte '#' :: rest) = none := by
  cases h : string2ll (charByte '#' :: rest) with
  | none => rfl
  | some n =>
      have hlen : ¬ longStrSize ≤ (charByte '#' :: rest).length := by
        intro hlong
        rw [string2ll.eq_def, if_pos (.inr hlong)] at h
        exact absurd h (by simp)
      have hzero : charByte '#' :: rest ≠ [charByte '0'] := by
        intro heq
        exact absurd (List.cons.inj heq).1 (by decide)
      rw [string2ll_cons (by omega) hzero, if_neg (by decide), parseDigits, if_neg (by decide)] at h
      exact absurd h (by simp)

/-- Signs, leading zeros and numbers past the range are not integers. -/
example : (["+1", "01", "-0", "9223372036854775808"].map fun s => string2ll (ascii s))
    = [none, none, none, none] := by decide

end SkynetJit.Redis
