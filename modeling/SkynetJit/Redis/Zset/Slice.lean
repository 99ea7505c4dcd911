import SkynetJit.Redis.Zset.Double
import SkynetJit.Redis.Zset.Facade

/-!
# SkynetJit.Redis.Zset.Slice

What the ZRANGE family replies with.

The elements are in order, by score and then by name; a range describes some of
them, and `Zrange.slice` says which without a walk: ranks are positions of the
list or of the reversed list, bounds select, and the limit cuts.
`zrange_replies_slice` says that every command of the family replies with the
slice, in both encodings.
-/

namespace SkynetJit.Redis

open Raise Scored
open ListInterval (limited)
open LuaNumber (isNaN)

variable {ν : Type}

/-! ## Slices -/

/-- The positions between two ranks, a negative rank counted from the end. -/
def rankSlice {α : Type} (start stop : Int) (l : List α) : List α :=
  let start := if start < 0 then l.length + start else start
  let stop := if stop < 0 then l.length + stop else stop
  (l.take (stop + 1).toNat).drop start.toNat

/-- What LIMIT leaves: nothing for a negative offset, and everything from the
offset on for a negative count. -/
def limitSlice {α : Type} (offset count : Int) (l : List α) : List α :=
  if offset < 0 then [] else limited count (l.drop offset.toNat)

/-- The elements in the order they are asked for. -/
def directed {α : Type} (reverse : Bool) (l : List α) : List α := if reverse then l.reverse else l

section Bounds

variable [Score ν]

/-- The scores of a range. -/
def Zrangespec.Contains (spec : Zrangespec ν) (x : ν) : Prop :=
  (if spec.minex then Score.lt spec.min x = true else Score.le spec.min x = true) ∧
    if spec.maxex then Score.lt x spec.max = true else Score.le x spec.max = true

instance (spec : Zrangespec ν) (x : ν) : Decidable (spec.Contains x) :=
  inferInstanceAs (Decidable (_ ∧ _))

/-- The names of a range. -/
def Zlexrangespec.Contains (spec : Zlexrangespec) (e : Bytes) : Prop :=
  (if spec.minex then spec.min.place < (LexBound.str e).place else spec.min.place ≤ (LexBound.str e).place) ∧
    if spec.maxex then (LexBound.str e).place < spec.max.place else (LexBound.str e).place ≤ spec.max.place

instance (spec : Zlexrangespec) (e : Bytes) : Decidable (spec.Contains e) :=
  inferInstanceAs (Decidable (_ ∧ _))

/-- The slice that a range describes. -/
def Zrange.slice (reverse : Bool) (offset count : Int) (items : List (Scored ν)) : Zrange ν → List (Scored ν)
  | .rank start stop => rankSlice start stop (directed reverse items)
  | .score spec =>
      limitSlice offset count (directed reverse (items.filter fun a => spec.Contains a.score))
  | .lex spec =>
      limitSlice offset count (directed reverse (items.filter fun a => spec.Contains a.ele))

theorem select_score_eq (spec : Zrangespec ν) (items : List (Scored ν)) :
    spec.tests.select items = items.filter fun a => spec.Contains a.score := by
  refine List.filter_congr fun a _ => ?_
  rw [Bool.eq_iff_iff, Bool.and_eq_true, decide_eq_true_iff, Zrangespec.Contains]
  refine and_congr ?_ ?_
  · simp only [Zrangespec.tests, zslValueGteMin]
    split_ifs <;> exact Iff.rfl
  · simp only [Zrangespec.tests, zslValueLteMax]
    split_ifs <;> exact Iff.rfl

omit [Score ν] in
theorem select_lex_eq (spec : Zlexrangespec) (items : List (Scored ν)) :
    spec.tests.select items = items.filter fun a => spec.Contains a.ele := by
  refine List.filter_congr fun a _ => ?_
  rw [Bool.eq_iff_iff, Bool.and_eq_true, decide_eq_true_iff]
  exact and_congr zslLexValueGteMin_iff zslLexValueLteMax_iff

end Bounds

/-- The checks of the code on the ranks do what the slice says. -/
theorem rankSlice_eq {α : Type} (start stop : Int) (l : List α) :
    rankSlice start stop l = match sanitizeRank l.length start stop with
      | none => []
      | some (start, stop) => (l.drop start).take (stop - start + 1) := by
  rw [rankSlice]
  cases hrank : sanitizeRank l.length start stop with
  | none =>
      rw [sanitizeRank] at hrank
      simp only at hrank ⊢
      refine List.drop_eq_nil_of_le ?_
      rw [List.length_take]
      split_ifs at hrank ⊢ <;> omega
  | some bounds =>
      obtain ⟨i, j⟩ := bounds
      have hlt := sanitizeRank_lt hrank
      rw [sanitizeRank] at hrank
      simp only at hrank ⊢
      rw [List.take_drop, show i + (j - i + 1) = j + 1 by omega]
      -- both slices start at the same place, and past the end nothing is left to take
      have hi : (if start < 0 then (l.length : Int) + start else start).toNat = i := by
        split_ifs at hrank ⊢ <;> simp only [Option.some.injEq, Prod.mk.injEq] at hrank <;> omega
      have hj : l.take ((if stop < 0 then (l.length : Int) + stop else stop) + 1).toNat = l.take (j + 1) := by
        refine List.take_eq_take_iff.mpr ?_
        split_ifs at hrank ⊢ <;> simp only [Option.some.injEq, Prod.mk.injEq] at hrank <;> omega
      rw [hi, hj]

/-! ## The arguments -/

section Arguments

variable [Score ν]

/-- The bounds of a range are read off two of the arguments. -/
def Zrange.ReadsOff (args : List (LuaValue ν)) (imin imax : Nat) : Zrange ν → Prop
  | .rank start stop => rlChecklong args imin = .ok start ∧ rlChecklong args imax = .ok stop
  | .score spec =>
      rlRangebound (luaArg args imin) = some (spec.min, spec.minex) ∧
        rlRangebound (luaArg args imax) = some (spec.max, spec.maxex)
  | .lex spec => ∃ min max, rlMember args imin = .ok min ∧ rlMember args imax = .ok max ∧
      zslParseLexRangeItem min = some (spec.min, spec.minex) ∧
      zslParseLexRangeItem max = some (spec.max, spec.maxex)

/-- The range is of the type that was asked for. -/
def Zrange.HasType (rangetype : RangeType) : Zrange ν → Prop
  | .rank _ _ => rangetype = .rank ∨ rangetype = .auto
  | .score _ => rangetype = .score
  | .lex _ => rangetype = .lex

theorem readsOff_rlCheckrange {rangetype : RangeType} {args : List (LuaValue ν)} {imin imax : Nat}
    {range : Zrange ν} (h : rlCheckrange rangetype args imin imax = .ok range) :
    range.ReadsOff args imin imax ∧ range.HasType rangetype := by
  have hrank : ∀ {range : Zrange ν}, (do
      let start ← rlChecklong args imin
      let stop ← rlChecklong args imax
      return .rank start stop : Except LuaError (Zrange ν)) = .ok range →
      ∃ start stop, range = .rank start stop ∧ rlChecklong args imin = .ok start ∧
        rlChecklong args imax = .ok stop := by
    intro range h
    obtain ⟨start, hstart, h⟩ := except_bind_eq_ok.mp h
    obtain ⟨stop, hstop, h⟩ := except_bind_eq_ok.mp h
    exact ⟨start, stop, (Except.ok.inj h).symm, hstart, hstop⟩
  cases rangetype with
  | auto =>
      obtain ⟨start, stop, rfl, hread⟩ := hrank h
      exact ⟨hread, .inr rfl⟩
  | rank =>
      obtain ⟨start, stop, rfl, hread⟩ := hrank h
      exact ⟨hread, .inl rfl⟩
  | score =>
      rw [rlCheckrange, rlCheckrangespec] at h
      split at h
      case h_1 min minex max maxex hmin hmax =>
        obtain rfl := Except.ok.inj h
        exact ⟨⟨hmin, hmax⟩, rfl⟩
      case h_2 => contradiction
  | lex =>
      rw [rlCheckrange] at h
      cases hspec : rlChecklexrange args imin imax with
      | error e => rw [hspec] at h; contradiction
      | ok spec =>
          rw [hspec] at h
          obtain rfl := Except.ok.inj h
          obtain ⟨min, hmin, hspec⟩ := except_bind_eq_ok.mp hspec
          obtain ⟨max, hmax, hspec⟩ := except_bind_eq_ok.mp hspec
          rw [zslParseLexRange] at hspec
          cases hlow : zslParseLexRangeItem min with
          | none => rw [hlow] at hspec; contradiction
          | some low =>
              cases hhigh : zslParseLexRangeItem max with
              | none => rw [hlow, hhigh] at hspec; contradiction
              | some high =>
                  rw [hlow, hhigh] at hspec
                  obtain rfl := Except.ok.inj hspec
                  exact ⟨⟨min, max, hmin, hmax, hlow, hhigh⟩, rfl⟩

theorem number_rlRangebound {v : Option (LuaValue ν)} {x : ν} {ex : Bool}
    (h : rlRangebound v = some (x, ex)) : isNaN x = false := by
  rw [rlRangebound.eq_def] at h
  split at h
  · split_ifs at h with hnan
    rw [← (Prod.mk.inj (Option.some.inj h)).1]
    exact Bool.not_eq_true _ ▸ hnan
  · dsimp only at h
    split at h
    · split_ifs at h with hnan
      rw [← (Prod.mk.inj (Option.some.inj h)).1]
      exact Bool.not_eq_true _ ▸ hnan
    · contradiction
  · contradiction

end Arguments

/-! ## The replies -/

section Replies

variable [Score ν] [LawfulScore ν]

/-- **The ZRANGE family.**  A call that is accepted replies with the slice that
its arguments describe, the bounds of a range by score or by name the other way
around with REV; for a range by name all scores are to be equal. -/
theorem zrange_replies_slice {s : Zsets ν} (rangetype : RangeType) (direction : RangeDirection)
    {args : List (LuaValue ν)} {id : Nat} {range : Zrange ν} {o : ZrangeOptions}
    (hargs : zrangeArgs false rangetype direction args = .ok (id, range, o)) (hwf : (s .zset id).Wf)
    (hlex : o.rangetype = .lex → EqualScores (s .zset id).items) :
    let swapped := o.direction = .reverse ∧ (o.rangetype = .score ∨ o.rangetype = .lex)
    range.ReadsOff args (if swapped then 3 else 2) (if swapped then 2 else 3) ∧ range.HasType o.rangetype ∧
      exec (zrangeRead rangetype direction args) s = (.ok (flatReply o.withscores
        (range.slice (o.direction == .reverse) o.offset o.limit (s .zset id).items)), s) := by
  obtain ⟨-, -, -, -, hrange⟩ := zrangeArgs_eq_ok_iff.mp hargs
  obtain ⟨hread, htype⟩ := readsOff_rlCheckrange hrange
  refine ⟨hread, htype, ?_⟩
  rw [zrangeRead, exec_readZset, hargs]
  refine congrArg (fun items => (Except.ok (flatReply o.withscores items), s)) ?_
  cases range with
  | rank start stop =>
      have hlen : (directed (o.direction == .reverse) (s .zset id).items).length = (s .zset id).items.length := by
        rw [directed]
        split_ifs
        · exact List.length_reverse
        · rfl
      rw [zrangeItems, rankItems_eq hwf, Zrange.slice, rankSlice_eq, hlen]
      rfl
  | score spec =>
      have hmin := number_rlRangebound hread.1
      have hmax := number_rlRangebound hread.2
      rw [zrangeItems, RangeTests.rangeItems_eq hwf (Zrangespec.fits hmin hmax hwf.sound), select_score_eq]
      rfl
  | lex spec =>
      rw [zrangeItems, RangeTests.rangeItems_eq hwf (spec.fits hwf.sound (hlex htype)), select_lex_eq]
      rfl

end Replies

/-- One, two and three; the longest name makes it a skiplist. -/
def oneTwoThree : Zsets Double :=
  (exec (lzadd (fun _ => 0) [.handle .zset 0, .number ⟨0x4008000000000000⟩, .string (ascii "c"),
    .number ⟨0x3ff0000000000000⟩, .string (ascii "a"), .number ⟨0x4000000000000000⟩,
    .string (List.replicate 65 98)]) fun _ _ => zsetTypeCreate 0 0).2

/-- From three back to one, without the first. -/
def secondFromAbove : List (LuaValue Double) :=
  [.handle .zset 0, .number ⟨0x4008000000000000⟩, .number ⟨0x3ff0000000000000⟩, .string (ascii "limit"),
    .number ⟨0x3ff0000000000000⟩, .number ⟨0x3ff0000000000000⟩, .string (ascii "withscores")]

theorem zrange_replies_slice_sample :
    exec (lzrevrangebyscore secondFromAbove) oneTwoThree =
      (.ok (flatReply true [⟨List.replicate 65 98, ⟨0x4000000000000000⟩⟩]), oneTwoThree) := by
  have hwf : AllWf oneTwoThree := keeps_lzaddGeneric _ _ _ _ fun _ _ => wf_zsetTypeCreate 0 0
  have hargs : zrangeArgs false .score .reverse secondFromAbove =
      .ok (0, .score ⟨⟨0x3ff0000000000000⟩, ⟨0x4008000000000000⟩, false, false⟩,
        { rangetype := .score, direction := .reverse, offset := 1, limit := 1, withscores := true }) := rfl
  obtain ⟨-, -, hexec⟩ := zrange_replies_slice .score .reverse hargs (hwf .zset 0) nofun
  have hslice : Zrange.slice true 1 1 (oneTwoThree .zset 0).items
      (.score ⟨⟨0x3ff0000000000000⟩, ⟨0x4008000000000000⟩, false, false⟩) =
      [⟨List.replicate 65 98, ⟨0x4000000000000000⟩⟩] := by decide +kernel
  rw [← hslice]
  exact hexec

end SkynetJit.Redis
