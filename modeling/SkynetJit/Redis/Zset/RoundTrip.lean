import SkynetJit.Redis.Zset.Double
import SkynetJit.Redis.Zset.System

/-!
# SkynetJit.Redis.Zset.RoundTrip

Dumping and loading sorted sets, over every reachable state.

A listpack keeps an integral score as an integer, so a negative zero comes
back as a positive one; a skiplist keeps the double.  The order does not tell
the two apart and neither does a load, but a dump has their bits:
`zset_dump_load` and `dumps_equal_iff` say what follows.
-/

namespace SkynetJit.Redis

open Raise Scored Transition
open LuaNumber (isNaN)

section RoundTrip

variable {ν : Type} [ScoreBits ν]

/-- The dump is the blob of the elements. -/
theorem rlDumpZset_eq {zobj : ZsetObj ν} (h : zobj.Wf) :
    rlDumpZset zobj = zsetBlob (zobj.items.map recordOf) := by
  rw [rlDumpZset, zsetBlob, List.length_map, List.flatMap_map, zsetLength_eq h]

variable [LawfulScoreBits ν]

theorem ofRecord_recordOf {a : Scored ν} (h : a.IsNumber) : ofRecord (recordOf a) = a := by
  rw [ofRecord, recordOf, LawfulScoreBits.ofBits_toBits h]

/-- A blob that fits a Lua string has records that fit their fields. -/
theorem recordsFit_of_length {items : List (Scored ν)} (h : Sound items)
    (hlen : (zsetBlob (items.map recordOf)).length < 2 ^ 32) : RecordsFit ν (items.map recordOf) := by
  rw [zsetBlob_eq, List.length_append, length_leBytes] at hlen
  have hframe : ∀ r ∈ items.map recordOf,
      (recordFrame r).body.length ≤ (framesBytes ((items.map recordOf).map recordFrame)).length :=
    fun r hr => body_length_le_framesBytes (List.mem_map_of_mem hr)
  have hlens : ∀ r ∈ items.map recordOf, r.2.length < 2 ^ 32 := by
    intro r hr
    have hbody : r.2.length ≤ _ := hframe r hr
    omega
  have hfit : ∀ f ∈ (items.map recordOf).map recordFrame, f.Fits 8 := by
    intro f hf
    obtain ⟨r, hr, rfl⟩ := List.mem_map.mp hf
    exact ⟨length_leBytes 8 r.1, hlens r hr⟩
  have hcount := length_le_framesBytes hfit
  rw [List.length_map] at hcount
  refine ⟨by omega, fun r hr => ?_, hlens, fun r hr => ?_⟩
  · obtain ⟨a, -, rfl⟩ := List.mem_map.mp hr
    exact LawfulScoreBits.toBits_lt a.score
  · obtain ⟨a, ha, rfl⟩ := List.mem_map.mp hr
    rw [ofRecord_recordOf (h.number a ha)]
    exact h.number a ha

/-- What the records of a sorted set load into. -/
theorem near_addRecords {items : List (Scored ν)} (h : Sound items) (rand : Draws)
    (hfit : RecordsFit ν (items.map recordOf)) (sizeHint : Nat) :
    List.Forall₂ Near items
      (addRecords rand (zsetTypeCreate sizeHint 0 : ZsetObj ν) (items.map recordOf)).items := by
  obtain ⟨hwf, hsame⟩ := sameScores_loaded (ν := ν) rand hfit sizeHint
  have hlast : (lastScores (items.map recordOf) : List (Scored ν)) = items.reverse := by
    rw [lastScores, List.map_map]
    congr 1
    exact (List.map_congr_left fun a ha => ofRecord_recordOf (h.number a ha)).trans (List.map_id' _)
  rw [hlast] at hsame
  refine h.near_of_sameScores hwf.sound fun e => ?_
  rw [scoreOf_perm h.nodup (List.reverse_perm items).symm e]
  exact hsame.symm e

/-- **Dumping and loading sorted sets.**  In every state that any sequence of
commands and loads reaches, the dump of a sorted set or a geo set, unless it is
too long for a Lua string, loads into one with the same elements in the same
order, each with a numerically equal score. -/
theorem zset_dump_load {actions : List (ZsetAction ν)} {s : Zsets ν}
    (hs : run zsetActionStep newZsets actions = some s) (kind : Kind) (id fresh : Nat) (rand : Draws) :
    exec (zsetDump kind [(.handle kind id : LuaValue ν)]) s =
        (pushLstring (rlDumpZset (s kind id)), s) ∧
      ∀ blob, pushLstring (rlDumpZset (s kind id)) = .ok (.text blob : Reply ν) →
        ∃ o, exec (zsetLoad kind rand fresh [(.string blob : LuaValue ν)]) s =
            (.ok (.handle kind fresh), s.put kind fresh o) ∧
          List.Forall₂ Near (s kind id).items o.items := by
  have hwf := allWf_of_run hs kind id
  refine ⟨?_, fun blob hblob => ?_⟩
  · simp [zsetDump, rlCheck, luaArg, exec_check_bind]
  · rw [pushLstring] at hblob
    split_ifs at hblob with hlen
    obtain rfl := Reply.text.inj (Except.ok.inj hblob)
    have hshort : (rlDumpZset (s kind id)).length < 2 ^ 32 :=
      (Nat.lt_of_not_le hlen).trans (by decide)
    rw [rlDumpZset_eq hwf] at hshort ⊢
    have hfit := recordsFit_of_length hwf.sound hshort
    refine ⟨_, ?_, near_addRecords hwf.sound rand hfit ((s kind id).items.map recordOf).length⟩
    rw [exec_zsetLoad]
    simp only [rlCheckblob, luaArg, Nat.sub_self, List.getElem?_cons_zero,
      rlLoadZset_zsetBlob hfit hshort rand]

/-! ## Equal dumps -/

/-- The bits of a score are in its record. -/
theorem leBytes_toBits_inj {x y : ν} (h : leBytes 8 (ScoreBits.toBits x) = leBytes 8 (ScoreBits.toBits y)) :
    ScoreBits.toBits x = ScoreBits.toBits y := by
  have hnat := congrArg leNat h
  rwa [leNat_leBytes_of_lt (LawfulScoreBits.toBits_lt x), leNat_leBytes_of_lt (LawfulScoreBits.toBits_lt y)] at hnat

/-- The records of elements with the same names, one by one. -/
theorem flatMap_recordBytes_eq_iff {l l' : List (Scored ν)} (h : List.Forall₂ Near l l') :
    (l.flatMap fun a => recordBytes (recordOf a)) = (l'.flatMap fun a => recordBytes (recordOf a)) ↔
      List.Forall₂ (fun a b => ScoreBits.toBits a.score = ScoreBits.toBits b.score) l l' := by
  induction h with
  | nil => exact iff_of_true rfl .nil
  | @cons a b l l' hab _ ih =>
      rw [List.flatMap_cons, List.flatMap_cons, List.forall₂_cons, ← ih]
      simp only [recordBytes, recordOf, hab.1, List.append_assoc]
      constructor
      · intro heq
        obtain ⟨hbits, heq⟩ := List.append_inj heq (by rw [length_leBytes, length_leBytes])
        exact ⟨leBytes_toBits_inj hbits, List.append_cancel_left (List.append_cancel_left heq)⟩
      · rintro ⟨hbits, heq⟩
        rw [hbits, heq]

/-- Equal numbers have the same bits, zeros of opposite signs apart. -/
theorem toBits_eq_iff {x y : ν} (h : Score.eq x y = true) : ScoreBits.toBits x = ScoreBits.toBits y ↔
    (Score.eq x (Score.ofLong 0) = true → signbit x = signbit y) := by
  constructor
  · intro hbits _
    rw [signbit, signbit, hbits]
  · intro hsign
    rcases LawfulScoreBits.eq_cases h with rfl | ⟨hzero, hne⟩
    · rfl
    · exact absurd (hsign hzero) hne

/-- Every element whose score is zero has a zero of the same sign in the other
sorted set. -/
def SameZeros (l l' : List (Scored ν)) : Prop :=
  ∀ e x y, scoreOf l e = some x → scoreOf l' e = some y → Score.eq x (Score.ofLong 0) = true →
    signbit x = signbit y

theorem forall₂_toBits_iff {l l' : List (Scored ν)} (h : Sound l) (h' : Sound l')
    (hnear : List.Forall₂ Near l l') :
    List.Forall₂ (fun a b => ScoreBits.toBits a.score = ScoreBits.toBits b.score) l l' ↔ SameZeros l l' := by
  induction hnear with
  | nil => exact iff_of_true .nil nofun
  | @cons a b l l' hab hnear ih =>
      rw [List.forall₂_cons, ih h.tail h'.tail, toBits_eq_iff hab.2]
      have hfresh := (List.nodup_cons.mp h.nodup).1
      constructor
      · rintro ⟨hhead, htail⟩ e x y hx hy
        by_cases he : a.ele = e
        · subst he
          rw [scoreOf_cons_self] at hx
          rw [hab.1, scoreOf_cons_self] at hy
          rw [← Option.some.inj hx, ← Option.some.inj hy]
          exact hhead
        · rw [scoreOf_cons_of_ne he] at hx
          rw [scoreOf_cons_of_ne (hab.1 ▸ he)] at hy
          exact htail e x y hx hy
      · intro hall
        refine ⟨hall a.ele a.score b.score (scoreOf_cons_self a l) ?_, fun e x y hx hy => ?_⟩
        · rw [hab.1]
          exact scoreOf_cons_self b l'
        · have he : a.ele ≠ e := by
            rintro rfl
            rw [scoreOf_eq_none_iff.mpr hfresh] at hx
            contradiction
          refine hall e x y ?_ ?_
          · rwa [scoreOf_cons_of_ne he]
          · rwa [scoreOf_cons_of_ne (hab.1 ▸ he)]

/-- **When dumps are equal.**  Two reachable sorted sets with the same
elements, each with numerically equal scores, have the same dump if and only
if no element has a zero of one sign here and of the other sign there. -/
theorem dumps_equal_iff {actions actions' : List (ZsetAction ν)} {s s' : Zsets ν}
    (hs : run zsetActionStep newZsets actions = some s)
    (hs' : run zsetActionStep newZsets actions' = some s') (kind kind' : Kind) (id id' : Nat)
    (hsame : SameScores (s kind id).items (s' kind' id').items) :
    rlDumpZset (s kind id) = rlDumpZset (s' kind' id') ↔
      SameZeros (s kind id).items (s' kind' id').items := by
  have hwf := allWf_of_run hs kind id
  have hwf' := allWf_of_run hs' kind' id'
  have hnear := hwf.sound.near_of_sameScores hwf'.sound hsame
  rw [← forall₂_toBits_iff hwf.sound hwf'.sound hnear, ← flatMap_recordBytes_eq_iff hnear, rlDumpZset,
    rlDumpZset, zsetLength_eq hwf, zsetLength_eq hwf', hnear.length_eq]
  exact List.append_right_inj _

end RoundTrip

/-! ## Concrete runs -/

/-- A name that is too long for a listpack. -/
def longName : Bytes := List.replicate 65 97

/-- A negative and a positive zero, each the score of the long name. -/
def signedZeros : List (ZsetAction Double) :=
  [.call (.zadd (fun _ => 0) [.handle .zset 0, .number ⟨0x8000000000000000⟩, .string longName]),
   .call (.zadd (fun _ => 0) [.handle .zset 1, .number ⟨0⟩, .string longName])]

theorem signed_zero_dumps_differ : ∃ s, run zsetActionStep newZsets signedZeros = some s ∧
    SameScores (s .zset 0).items (s .zset 1).items ∧
    rlDumpZset (s .zset 0) ≠ rlDumpZset (s .zset 1) := by
  obtain ⟨s, hs, hneg, hpos, hne⟩ : ∃ s, run zsetActionStep newZsets signedZeros = some s ∧
      (s .zset 0).items = [⟨longName, ⟨0x8000000000000000⟩⟩] ∧ (s .zset 1).items = [⟨longName, ⟨0⟩⟩] ∧
      rlDumpZset (s .zset 0) ≠ rlDumpZset (s .zset 1) :=
    ⟨_, rfl, by decide +kernel, by decide +kernel, by decide +kernel⟩
  refine ⟨s, hs, ?_, hne⟩
  rw [hneg, hpos]
  exact sameScores_of_near (.cons ⟨rfl, by decide +kernel⟩ .nil)

/-- A listpack with an infinite score, and what it loads into. -/
def dumpedZset : List (ZsetAction Double) :=
  [.call (.zadd (fun _ => 0) [.handle .zset 0, .number ⟨0x7ff0000000000000⟩, .string (ascii "b"),
    .number ⟨0x3ff8000000000000⟩, .string (ascii "7")])]

theorem zset_dump_load_sample : ∃ s blob o, run zsetActionStep newZsets dumpedZset = some s ∧
    pushLstring (rlDumpZset (s .zset 0)) = .ok (.text blob : Reply Double) ∧ blob.length = 30 ∧
    exec (zsetLoad .zset (fun _ => 0) 1 [(.string blob : LuaValue Double)]) s =
      (.ok (.handle .zset 1), s.put .zset 1 o) ∧
    List.Forall₂ Near (s .zset 0).items o.items := by
  obtain ⟨s, hs, hlen⟩ : ∃ s, run zsetActionStep newZsets dumpedZset = some s ∧
      (rlDumpZset (s .zset 0)).length = 30 := ⟨_, rfl, by decide +kernel⟩
  have hpush : pushLstring (rlDumpZset (s .zset 0)) = .ok (.text (rlDumpZset (s .zset 0)) : Reply Double) := by
    rw [pushLstring, hlen]
    rfl
  obtain ⟨o, hload, hnear⟩ := (zset_dump_load hs .zset 0 1 fun _ => 0).2 _ hpush
  exact ⟨s, _, o, hs, hpush, hlen, hload, hnear⟩

/-- Two histories of one sorted set without zeros: one through a listpack, one
through a skiplist. -/
def twoHistories : List (ZsetAction Double) :=
  [.call (.zadd (fun _ => 0) [.handle .zset 0, .number ⟨0x3ff0000000000000⟩, .string (ascii "a")]),
   .call (.zadd (fun _ => 0) [.handle .zset 1, .number ⟨0⟩, .string longName,
     .number ⟨0x3ff0000000000000⟩, .string (ascii "a")]),
   .call (.zrem [.handle .zset 1, .string longName])]

theorem dumps_equal_iff_sample : ∃ s, run zsetActionStep newZsets twoHistories = some s ∧
    rlDumpZset (s .zset 0) = rlDumpZset (s .zset 1) := by
  obtain ⟨s, hs, hfirst, hsecond⟩ : ∃ s, run zsetActionStep newZsets twoHistories = some s ∧
      (s .zset 0).items = [⟨ascii "a", ⟨0x3ff0000000000000⟩⟩] ∧
      (s .zset 1).items = [⟨ascii "a", ⟨0x3ff0000000000000⟩⟩] :=
    ⟨_, rfl, by decide +kernel, by decide +kernel⟩
  refine ⟨s, hs, (dumps_equal_iff hs hs .zset .zset 0 1 ?_).mpr ?_⟩
  · rw [hfirst, hsecond]
    exact sameScores_of_near (.cons ⟨rfl, by decide +kernel⟩ .nil)
  · rw [hfirst, hsecond]
    intro e x y hx hy _
    rw [hx] at hy
    rw [Option.some.inj hy]

end SkynetJit.Redis
