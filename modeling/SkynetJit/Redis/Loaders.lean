import SkynetJit.Redis.Zset.Double

/-!
# SkynetJit.Redis.Loaders

What the two loaders of `facade/rl_common.c` promise about any bytes they are
handed, and what they make of a blob that names one element twice.

* `loaders_accept_grammar` — they accept exactly the blobs of their formats,
  raise on everything else, and never leave the blob;
* `accepted_blob_keeps_members` — every member of an accepted blob is there
  afterwards, and the count is the blob's exactly if no member is repeated.
-/

namespace SkynetJit.Redis

open Raise Scored

variable {ν : Type} [ScoreBits ν]

/-! ## Acceptance -/

/-- A blob of sorted set records whose scores are numbers. -/
def IsZsetBlob (ν : Type) [ScoreBits ν] (b : Bytes) : Prop :=
  ∃ records, RecordsFit ν records ∧ b = zsetBlob records

/-- A blob of set members. -/
def IsSetBlob (b : Bytes) : Prop := ∃ members, MembersFit members ∧ b = setBlob members

theorem rlLoadZset_accepts_iff {b : Bytes} (hlen : b.length < 2 ^ 32) (rand : Draws) :
    (∃ zobj : ZsetObj ν, (exec (rlLoadZset rand b) []).1 = .ok zobj) ↔ IsZsetBlob ν b := by
  constructor
  · rintro ⟨zobj, h⟩
    obtain ⟨records, hfit, hb, -⟩ := rlLoadZset_sound h
    exact ⟨records, hfit, hb⟩
  · rintro ⟨records, hfit, hb⟩
    exact ⟨_, (rlLoadZset_eq_ok_iff hlen rand [] _).mpr ⟨records, hfit, hb, rfl⟩⟩

theorem rlLoadSet_accepts_iff {b : Bytes} (hlen : b.length < 2 ^ 32) :
    (∃ o, (exec (rlLoadSet b) []).1 = .ok o) ↔ IsSetBlob b := by
  constructor
  · rintro ⟨o, h⟩
    obtain ⟨members, hfit, hb, -⟩ := rlLoadSet_sound h
    exact ⟨members, hfit, hb⟩
  · rintro ⟨members, -, hb⟩
    exact ⟨_, (rlLoadSet_eq_ok_iff hlen [] _).mpr ⟨members, hb, rfl⟩⟩

/-- What is not accepted raises the one error. -/
theorem eq_error_of_not_ok {α : Type} {x : Loader α} (hx : RaisesOnly badFormatErr x)
    {log : List Access} (h : ¬ ∃ a, (exec x log).1 = .ok a) : (exec x log).1 = .error badFormatErr := by
  cases hr : (exec x log).1 with
  | ok a => exact absurd ⟨a, hr⟩ h
  | error e => rw [hx log e hr]

/-- **The loaders accept exactly their grammar.**  For every byte string: a
load returns a new handle if it is a blob of the format, and otherwise raises
and leaves every handle as it was, the one a set was to get being empty; either
way the loader reads no byte outside and makes room for no more than the bytes
that are there can hold. -/
theorem loaders_accept_grammar {b : Bytes} (hlen : b.length < 2 ^ 32) :
    (∀ rand, ((∃ zobj : ZsetObj ν, (exec (rlLoadZset rand b) []).1 = .ok zobj) ↔ IsZsetBlob ν b) ∧
      Inside b (exec (rlLoadZset rand b : Loader (ZsetObj ν)) []).2 ∧
      ∀ kind id (s : Zsets ν),
        (IsZsetBlob ν b → ∃ zobj, exec (zsetLoad kind rand id [.string b]) s =
          (.ok (.handle kind id), s.put kind id zobj)) ∧
        (¬ IsZsetBlob ν b → exec (zsetLoad kind rand id [.string b]) s = (.error badFormatErr, s))) ∧
    ((∃ o, (exec (rlLoadSet b) []).1 = .ok o) ↔ IsSetBlob b) ∧
    Inside b (exec (rlLoadSet b) []).2 ∧
    ∀ id (s : Sets),
      (IsSetBlob b → ∃ o, exec (lsetLoad id [(.string b : LuaValue ν)]) s =
        (.ok (.handle .set id), s.put id o)) ∧
      (¬ IsSetBlob b → exec (lsetLoad id [(.string b : LuaValue ν)]) s =
        (.error badFormatErr, s.put id none)) := by
  have hblob : rlCheckblob [(.string b : LuaValue ν)] 1 = .ok b := rfl
  refine ⟨fun rand => ⟨rlLoadZset_accepts_iff hlen rand, rlLoadZset_inside rand b,
    fun kind id s => ⟨fun h => ?_, fun h => ?_⟩⟩, rlLoadSet_accepts_iff hlen, rlLoadSet_inside b,
    fun id s => ⟨fun h => ?_, fun h => ?_⟩⟩
  · obtain ⟨zobj, hok⟩ := (rlLoadZset_accepts_iff hlen rand).mpr h
    refine ⟨zobj, ?_⟩
    rw [exec_zsetLoad, hblob]
    simp only [hok]
  · have herr : (exec (rlLoadZset rand b : Loader (ZsetObj ν)) []).1 = .error badFormatErr :=
      eq_error_of_not_ok (raisesOnly_rlLoadZset rand b) (mt (rlLoadZset_accepts_iff hlen rand).mp h)
    rw [exec_zsetLoad, hblob]
    simp only [herr]
  · obtain ⟨o, hok⟩ := (rlLoadSet_accepts_iff hlen).mpr h
    refine ⟨o, ?_⟩
    rw [exec_lsetLoad, hblob]
    simp only [hok]
  · have herr : (exec (rlLoadSet b) []).1 = .error badFormatErr :=
      eq_error_of_not_ok (raisesOnly_rlLoadSet b) (mt (rlLoadSet_accepts_iff hlen).mp h)
    rw [exec_lsetLoad, hblob]
    simp only [herr]

/-- A blob with one record, `a` with the score infinity, and the same blob
one byte short. -/
def oneRecord : Bytes :=
  [1, 0, 0, 0, 0, 0, 0, 0, 0, 0, 240, 127, 1, 0, 0, 0, 97]

theorem loaders_accept_grammar_sample :
    (∃ zobj : ZsetObj Double, (exec (rlLoadZset (fun _ => 0) oneRecord) []).1 = .ok zobj) ∧
      (exec (rlLoadZset (fun _ => 0) oneRecord.dropLast : Loader (ZsetObj Double)) []).1 =
        .error badFormatErr := by
  constructor
  · refine ((loaders_accept_grammar (ν := Double) (b := oneRecord) (by decide)).1 _).1.mpr
      ⟨[(2047 * 2 ^ 52, [97])], ⟨by decide, by decide, by decide, ?_⟩, by decide⟩
    intro r hr
    rw [List.mem_singleton.mp hr]
    rfl
  · rfl

/-! ## Repeated members -/

/-- The count field of a blob. -/
def countField (b : Bytes) : Nat := leNat (b.take 4)

theorem countField_zsetBlob {records : List ZRecord} (h : records.length < 2 ^ 32) :
    countField (zsetBlob records) = records.length := by
  rw [countField, zsetBlob_eq, List.take_left' (length_leBytes 4 _), leNat_leBytes]
  exact Nat.mod_eq_of_lt h

theorem countField_setBlob {members : List Bytes} (h : members.length < 2 ^ 32) :
    countField (setBlob members) = members.length := by
  rw [countField, setBlob_eq, List.take_left' (length_leBytes 4 _), leNat_leBytes]
  exact Nat.mod_eq_of_lt h

/-- As many distinct ones as there are exactly if none is repeated. -/
theorem card_toFinset_eq_length_iff {l : List Bytes} : l.toFinset.card = l.length ↔ l.Nodup := by
  constructor
  · intro h
    rw [← Multiset.coe_nodup, ← Multiset.toFinset_card_eq_card_iff_nodup]
    exact h
  · exact List.toFinset_card_of_nodup

/-- The size of a payload, as `SCARD` reads it. -/
theorem size_eq_card {o : Option SetObj} (h : PayloadWf o) :
    o.elim 0 setTypeSize = (payloadSet o).card := by
  cases o with
  | none => rfl
  | some o => exact (card_payloadSet_some (h o rfl).1).symm

/-- **No accepted blob loses a member.**  Every member of the records is there
after the load, a sorted set has for each the score of its last record, and
there are as many as distinct members: as many as the count says exactly if no
member is repeated. -/
theorem accepted_blob_keeps_members [LawfulScoreBits ν] :
    (∀ b rand (zobj : ZsetObj ν), (exec (rlLoadZset rand b) []).1 = .ok zobj →
      ∃ records, RecordsFit ν records ∧ b = zsetBlob records ∧ countField b = records.length ∧
        (∀ ele, Option.Rel (fun x y => Score.eq x y = true) (zsetScore zobj ele)
          (scoreOf (lastScores records) ele)) ∧
        (∀ r ∈ records, ∃ x, zsetScore zobj r.2 = some x) ∧
        zsetLength zobj = (records.map Prod.snd).toFinset.card ∧
        (zsetLength zobj = countField b ↔ (records.map Prod.snd).Nodup)) ∧
    (∀ b o, (exec (rlLoadSet b) []).1 = .ok o →
      ∃ members, MembersFit members ∧ b = setBlob members ∧ countField b = members.length ∧
        (∀ m, m ∈ payloadSet o ↔ m ∈ members) ∧
        o.elim 0 setTypeSize = members.toFinset.card ∧
        (o.elim 0 setTypeSize = countField b ↔ members.Nodup)) := by
  refine ⟨fun b rand zobj h => ?_, fun b o h => ?_⟩
  · obtain ⟨records, hfit, rfl, rfl⟩ := rlLoadZset_sound h
    obtain ⟨hwf, hsame⟩ := sameScores_loaded rand hfit records.length
    have hcard := length_of_sameScores hwf.sound hsame
    have hcount := countField_zsetBlob hfit.count
    rw [← zsetLength_eq hwf] at hcard
    have hscore := fun ele => (zsetScore_eq hwf ele) ▸ hsame ele
    refine ⟨records, hfit, rfl, hcount, hscore, fun r hr => ?_, hcard, ?_⟩
    · have hmem : r.2 ∈ (lastScores records : List (Scored ν)).map Scored.ele := by
        rw [lastScores, ← List.map_reverse, List.map_map, List.mem_map]
        exact ⟨r, List.mem_reverse.mpr hr, rfl⟩
      rw [zsetScore_eq hwf, ← Option.isSome_iff_exists, Option.isSome_iff_ne_none, ne_eq,
        scoreOf_eq_none_iff, not_not, hsame.mem_iff]
      exact hmem
    · rw [hcard, hcount, ← card_toFinset_eq_length_iff, List.length_map]
  · obtain ⟨members, hfit, rfl, rfl⟩ := rlLoadSet_sound h
    obtain ⟨hwf, hset, -⟩ := saddElements_spec members.length members payloadWf_none 0
    have hcount := countField_setBlob hfit.count
    rw [payloadSet, Finset.empty_union] at hset
    refine ⟨members, hfit, rfl, hcount, fun m => ?_, by rw [size_eq_card hwf, hset], ?_⟩
    · rw [hset, List.mem_toFinset]
    · rw [size_eq_card hwf, hset, hcount, card_toFinset_eq_length_iff]

theorem accepted_blob_keeps_members_sample : ∃ records, oneRecord = zsetBlob records ∧
    RecordsFit Double records ∧ countField oneRecord = records.length := by
  obtain ⟨records, hfit, hb, hcount, -⟩ :=
    (accepted_blob_keeps_members (ν := Double)).1 oneRecord (fun _ => 0) _ rfl
  exact ⟨records, hb, hfit, hcount⟩

/-- A blob that names `a` twice, for either loader. -/
def repeatedRecord : Bytes :=
  zsetBlob [((Double.ofInt 1).bits.toNat, ascii "a"), ((Double.ofInt 2).bits.toNat, ascii "a")]

/-- Both loaders accept a blob that names an element twice, with one element
fewer than the count says; the sorted set forgets the first score. -/
theorem repeated_member_shrinks :
    (∃ zobj : ZsetObj Double, (exec (rlLoadZset (fun _ => 0) repeatedRecord) []).1 = .ok zobj ∧
      countField repeatedRecord = 2 ∧ zsetLength zobj = 1 ∧
      zsetScore zobj (ascii "a") = some (Double.ofInt 2)) ∧
    (∃ o, (exec (rlLoadSet (setBlob [ascii "a", ascii "a"])) []).1 = .ok (some o) ∧
      countField (setBlob [ascii "a", ascii "a"]) = 2 ∧ setTypeSize o = 1) := by
  refine ⟨⟨_, rfl, ?_⟩, ⟨_, rfl, ?_⟩⟩
  · decide +kernel
  · decide +kernel

end SkynetJit.Redis
