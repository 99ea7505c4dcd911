import Mathlib.Data.Finset.Card
import SkynetJit.Redis.Set.Blob
import SkynetJit.Redis.Zset.Kernel

/-!
# SkynetJit.Redis.Zset.Blob

The portable form of a sorted set (`rl_dump_zset` and `rl_load_zset` of
`facade/rl_common.c`): a count, then every element behind the bits of its
score and its length, in the order of the set.

* `rlLoadZset_eq_ok_iff` — the loader accepts the blobs of the format whose
  scores are numbers, and builds what adding the records one by one builds;
* `rlLoadZset_inside` — it stays inside the blob;
* `sameScores_loaded` — every element has the score of its last record.
-/

namespace SkynetJit.Redis

open Raise Scored
open LuaNumber (isNaN)

/-- Doubles with their bits. -/
class ScoreBits (ν : Type) extends Score ν where
  /-- `memcpy` of a double to a `uint64_t`. -/
  toBits : ν → Nat
  /-- `memcpy` of a `uint64_t` to a double. -/
  ofBits : Nat → ν

/-- The sign bit. -/
def signbit {ν : Type} [ScoreBits ν] (x : ν) : Bool := (ScoreBits.toBits x).testBit 63

/-- What is relied on of the bits: they are all there is to a number, and two
numbers that are equal differ in bits only as zeros of opposite signs. -/
class LawfulScoreBits (ν : Type) [ScoreBits ν] : Prop extends LawfulScore ν where
  toBits_lt : ∀ x : ν, ScoreBits.toBits x < 2 ^ 64
  ofBits_toBits : ∀ {x : ν}, isNaN x = false → ScoreBits.ofBits (ScoreBits.toBits x) = x
  eq_cases : ∀ {x y : ν}, Score.eq x y = true →
    x = y ∨ Score.eq x (Score.ofLong 0) = true ∧ signbit x ≠ signbit y

variable {ν : Type} [ScoreBits ν]

/-! ## Dump -/

/-- The bits of a score and an element, as a blob has them. -/
abbrev ZRecord := Nat × Bytes

/-- The record of an element. -/
def recordOf (a : Scored ν) : ZRecord := (ScoreBits.toBits a.score, a.ele)

/-- The element of a record. -/
def ofRecord (r : ZRecord) : Scored ν := ⟨r.2, ScoreBits.ofBits r.1⟩

/-- What `rl_dump_append` appends. -/
def recordBytes (r : ZRecord) : Bytes := leBytes 8 r.1 ++ (leBytes 4 r.2.length ++ r.2)

/-- The bytes of a blob with these records, in this order. -/
def zsetBlob (records : List ZRecord) : Bytes :=
  leBytes 4 records.length ++ records.flatMap recordBytes

/-- `rl_dump_zset`: the length, then `rl_zset_walk` over the elements. -/
def rlDumpZset (zobj : ZsetObj ν) : Bytes :=
  leBytes 4 (zsetLength zobj) ++ zobj.items.flatMap fun a => recordBytes (recordOf a)

/-! ## Load -/

/-- The loop over the records: the sorted set with them, and where the loop
ended. -/
def loadRecords (rand : Draws) (buf : Bytes) :
    Nat → Nat → ZsetObj ν → Loader (ZsetObj ν × Nat)
  | 0, p, zobj => return (zobj, p)
  | n + 1, p, zobj => do
      if sizeLeft buf p < 12 then bad
      else
        let bits ← rlRd64 buf p
        let mlen ← rlRd32 buf (p + 8)
        if sizeLeft buf (p + 12) < mlen then bad
        else
          let ele ← sdsnewlen buf (p + 12) mlen
          let r := zsetAdd rand zobj ⟨ele, ScoreBits.ofBits bits⟩ {}
          if r.1.ok then loadRecords rand buf n (p + 12 + mlen) r.2 else bad

/-- `rl_load_zset`.  A dict makes room for as many elements as the count
says. -/
def rlLoadZset (rand : Draws) (buf : Bytes) : Loader (ZsetObj ν) := do
  if buf.length < 4 then bad
  else
    let count ← rlRd32 buf 0
    if count > roomFor buf 12 then bad
    else
      access (.alloc count 12)
      let r ← loadRecords rand buf count 4 (zsetTypeCreate count 0)
      if r.2 ≠ buf.length then bad else return r.1

/-! ## The commands -/

/-- `lzset_dump` and `lgeo_dump`. -/
def zsetDump (kind : Kind) (args : List (LuaValue ν)) : Command (Zsets ν) (Reply ν) := do
  let id ← check (rlCheck args 1 kind)
  let s ← get
  check (pushLstring (rlDumpZset (s kind id)))

/-- `lzset_load` and `lgeo_load`.  The new object takes the handle `id`; one
that is left without a sorted set by an error has no name in Lua. -/
def zsetLoad (kind : Kind) (rand : Draws) (id : Nat) (args : List (LuaValue ν)) :
    Command (Zsets ν) (LuaValue ν) := do
  let buf ← check (rlCheckblob args 1)
  let zobj ← check (exec (rlLoadZset rand buf) []).1
  modify fun s => s.put kind id zobj
  return .handle kind id

/-- `lzset_dump`. -/
def lzsetDump (args : List (LuaValue ν)) : Command (Zsets ν) (Reply ν) := zsetDump .zset args

/-- `lzset_load`. -/
def lzsetLoad (rand : Draws) (id : Nat) (args : List (LuaValue ν)) :
    Command (Zsets ν) (LuaValue ν) := zsetLoad .zset rand id args

/-- `lgeo_dump`. -/
def lgeoDump (args : List (LuaValue ν)) : Command (Zsets ν) (Reply ν) := zsetDump .geo args

/-- `lgeo_load`. -/
def lgeoLoad (rand : Draws) (id : Nat) (args : List (LuaValue ν)) :
    Command (Zsets ν) (LuaValue ν) := zsetLoad .geo rand id args

/-- What a load leaves behind. -/
theorem exec_zsetLoad (kind : Kind) (rand : Draws) (id : Nat) (args : List (LuaValue ν))
    (s : Zsets ν) : exec (zsetLoad kind rand id args) s = match rlCheckblob args 1 with
      | .error e => (.error e, s)
      | .ok buf => match (exec (rlLoadZset rand buf) []).1 with
        | .error e => (.error e, s)
        | .ok zobj => (.ok (.handle kind id), s.put kind id zobj) := by
  rw [zsetLoad, exec_check_bind]
  cases rlCheckblob args 1 with
  | error e => rfl
  | ok buf =>
      simp only [exec_check_bind]
      cases (exec (rlLoadZset rand buf) [] : Except LuaError (ZsetObj ν) × List Access).1 with
      | error e => rfl
      | ok zobj => rfl

/-! ## The format -/

/-- The record as a frame. -/
def recordFrame (r : ZRecord) : Frame := ⟨leBytes 8 r.1, r.2⟩

/-- Records that a blob can hold and a sorted set can take: the fields fit,
and the scores are numbers. -/
structure RecordsFit (ν : Type) [ScoreBits ν] (records : List ZRecord) : Prop where
  count : records.length < 2 ^ 32
  bits : ∀ r ∈ records, r.1 < 2 ^ 64
  lens : ∀ r ∈ records, r.2.length < 2 ^ 32
  number : ∀ r ∈ records, (ofRecord r : Scored ν).IsNumber

theorem zsetBlob_eq (records : List ZRecord) :
    zsetBlob records = leBytes 4 records.length ++ framesBytes (records.map recordFrame) := by
  rw [zsetBlob, framesBytes, List.flatMap_map]
  rfl

theorem RecordsFit.frames {records : List ZRecord} (h : RecordsFit ν records) :
    ∀ f ∈ records.map recordFrame, f.Fits 8 := by
  intro f hf
  obtain ⟨r, hr, rfl⟩ := List.mem_map.mp hf
  exact ⟨length_leBytes 8 r.1, h.lens r hr⟩

/-! ## The loader accepts the format -/

/-- The loop over records that are there. -/
theorem loadRecords_of_frames {buf rest : Bytes} (hlen : buf.length < 2 ^ 64)
    {records : List ZRecord} (hbits : ∀ r ∈ records, r.1 < 2 ^ 64)
    (hlens : ∀ r ∈ records, r.2.length < 2 ^ 32)
    (hnumber : ∀ r ∈ records, (ofRecord r : Scored ν).IsNumber) {p : Nat} (hp : p ≤ buf.length)
    (hdrop : buf.drop p = framesBytes (records.map recordFrame) ++ rest) (rand : Draws)
    (zobj : ZsetObj ν) (log : List Access) :
    ∃ q log', exec (loadRecords rand buf records.length p zobj) log =
        (.ok (records.foldl (fun z r => (zsetAdd rand z (ofRecord r) {}).2) zobj, q), log') ∧
      q + rest.length = buf.length := by
  induction records generalizing p zobj log with
  | nil =>
      have hrest : buf.length - p = rest.length := by rw [← List.length_drop, hdrop]; rfl
      exact ⟨p, log, rfl, by omega⟩
  | cons r records ih =>
      rw [List.map_cons, framesBytes_cons, List.append_assoc] at hdrop
      have hat := drop_frame (k := 8)
        ⟨length_leBytes 8 r.1, hlens r List.mem_cons_self⟩ hdrop
      have htagAt : leNat ((buf.drop p).take 8) = r.1 := by
        rw [hat.tag, recordFrame, leNat_leBytes]
        exact Nat.mod_eq_of_lt (hbits r List.mem_cons_self)
      have hlenAt : leNat ((buf.drop (p + 8)).take 4) = r.2.length := hat.len
      have hbodyAt : (buf.drop (p + 12)).take r.2.length = r.2 := hat.body
      have hrestAt : buf.drop (p + 12 + r.2.length) = _ := hat.rest
      have hfits : p + 12 + r.2.length ≤ buf.length := hat.fits
      have hleft := sizeLeft_eq hp hlen
      have hleft' := sizeLeft_eq (p := p + 12) (by omega) hlen
      have hok : (zsetAdd rand zobj (ofRecord r) {}).1.ok = true := by
        rw [zsetAdd_ok, show isNaN (ofRecord r : Scored ν).score = false from
          hnumber r List.mem_cons_self]
        rfl
      obtain ⟨q, log', hexec, hq⟩ := ih (fun r' hr' => hbits r' (List.mem_cons_of_mem r hr'))
        (fun r' hr' => hlens r' (List.mem_cons_of_mem r hr'))
        (fun r' hr' => hnumber r' (List.mem_cons_of_mem r hr')) hfits hrestAt
        (zsetAdd rand zobj (ofRecord r) {}).2
        (log ++ [.read p 8] ++ [.read (p + 8) 4] ++ [.alloc r.2.length 1] ++
          [.read (p + 12) r.2.length])
      refine ⟨q, log', ?_, hq⟩
      rw [List.length_cons, loadRecords, if_neg (by omega), exec_rlRd64_bind, htagAt,
        exec_rlRd32_bind, hlenAt, if_neg (by omega), exec_sdsnewlen_bind, hbodyAt]
      simp only [show (⟨r.2, ScoreBits.ofBits r.1⟩ : Scored ν) = ofRecord r from rfl, hok, if_true]
      exact hexec

/-- The sorted set that adding records one by one builds. -/
def addRecords (rand : Draws) (zobj : ZsetObj ν) (records : List ZRecord) : ZsetObj ν :=
  records.foldl (fun z r => (zsetAdd rand z (ofRecord r) {}).2) zobj

/-- What the loop accepts are records. -/
theorem loadRecords_sound {buf : Bytes} {rand : Draws} {n p q : Nat} {zobj zobj' : ZsetObj ν}
    {log log' : List Access} (hp : p ≤ buf.length)
    (h : exec (loadRecords rand buf n p zobj) log = (.ok (zobj', q), log')) :
    q ≤ buf.length ∧ ∃ records : List ZRecord, records.length = n ∧
      (∀ r ∈ records, r.1 < 2 ^ 64 ∧ r.2.length < 2 ^ 32 ∧ (ofRecord r : Scored ν).IsNumber) ∧
      buf.drop p = framesBytes (records.map recordFrame) ++ buf.drop q ∧
      zobj' = addRecords rand zobj records := by
  induction n generalizing p zobj log with
  | zero =>
      rw [loadRecords, exec_pure, Prod.mk.injEq, Except.ok.injEq, Prod.mk.injEq] at h
      obtain ⟨⟨rfl, rfl⟩, -⟩ := h
      exact ⟨hp, [], rfl, nofun, rfl, rfl⟩
  | succ n ih =>
      rw [loadRecords] at h
      split_ifs at h with hleft
      · simp at h
      rw [exec_rlRd64_bind, exec_rlRd32_bind] at h
      split_ifs at h with hleft'
      · simp at h
      have hroom := sizeLeft_le hp
      have hroom' : p + 12 + sizeLeft buf (p + 12) ≤ buf.length := sizeLeft_le (by omega)
      obtain ⟨f, hf, hbody, hdrop⟩ := split_frame (b := buf) (p := p) (k := 8) rfl
        (show p + 8 + 4 + leNat ((buf.drop (p + 8)).take 4) ≤ buf.length by omega)
      have hat := drop_frame hf hdrop
      rw [exec_sdsnewlen_bind] at h
      dsimp only at h
      split_ifs at h with hok
      · -- the record that was read, with its score a number
        rw [zsetAdd_ok, Bool.not_eq_true'] at hok
        have hframe : recordFrame (leNat ((buf.drop p).take 8), f.body) = f := by
          have hbytes := leBytes_leNat f.tag
          rw [hf.tag] at hbytes
          rw [recordFrame, hat.tag, hbytes]
        have hslice : (buf.drop (p + 12)).take (leNat ((buf.drop (p + 8)).take 4)) = f.body := by
          rw [← hbody]
          exact hat.body
        rw [hslice] at h hok
        obtain ⟨hq, records, hn, hfit, hrest, hadd⟩ := ih (by omega) h
        refine ⟨hq, (leNat ((buf.drop p).take 8), f.body) :: records, by rw [List.length_cons, hn],
          ?_, ?_, hadd⟩
        · intro r hr
          rcases List.mem_cons.mp hr with rfl | hin
          · refine ⟨?_, hf.body, hok⟩
            have hlt := leNat_lt f.tag
            rw [hf.tag, ← hat.tag] at hlt
            exact hlt
          · exact hfit r hin
        · rw [List.map_cons, framesBytes_cons, List.append_assoc, ← hrest, hframe]
          exact hdrop
      · simp at h

/-- What a loader accepts is a blob of the format. -/
theorem rlLoadZset_sound {buf : Bytes} {rand : Draws} {log : List Access} {zobj : ZsetObj ν}
    (h : (exec (rlLoadZset rand buf) log).1 = .ok zobj) : ∃ records, RecordsFit ν records ∧
      buf = zsetBlob records ∧ zobj = addRecords rand (zsetTypeCreate records.length 0) records := by
  rw [rlLoadZset] at h
  split_ifs at h with hshort
  · simp at h
  rw [exec_rlRd32_bind, List.drop_zero] at h
  by_cases hroom : leNat (buf.take 4) > roomFor buf 12
  · simp [if_pos hroom] at h
  rw [if_neg hroom, exec_access_bind, exec_bind] at h
  rcases hwalk : exec (loadRecords rand buf (leNat (buf.take 4)) 4
    (zsetTypeCreate (leNat (buf.take 4)) 0 : ZsetObj ν)) (log ++ [.read 0 4] ++ [.alloc (leNat (buf.take 4)) 12])
    with ⟨r, log'⟩
  rw [hwalk] at h
  cases r with
  | error e => simp at h
  | ok r =>
      obtain ⟨zobj', q⟩ := r
      dsimp only at h
      split_ifs at h with hend
      · simp at h
      obtain ⟨-, records, hn, hfit, hdrop, hadd⟩ := loadRecords_sound (by omega) hwalk
      have htake : (buf.take 4).length = 4 := by
        rw [List.length_take]
        omega
      have hcount : records.length < 2 ^ 32 := by
        have := leNat_lt (buf.take 4)
        rwa [htake, ← hn] at this
      refine ⟨records, ⟨hcount, fun r hr => (hfit r hr).1, fun r hr => (hfit r hr).2.1,
        fun r hr => (hfit r hr).2.2⟩, ?_, ?_⟩
      · have hbytes := leBytes_leNat (buf.take 4)
        rw [htake, ← hn] at hbytes
        have hq : q = buf.length := not_not.mp hend
        rw [hq, List.drop_length, List.append_nil] at hdrop
        rw [zsetBlob_eq, hbytes, ← hdrop, List.take_append_drop]
      · rw [exec_pure] at h
        rw [← Except.ok.inj h, hn]
        exact hadd

/-- Every blob of the format is accepted. -/
theorem rlLoadZset_zsetBlob {records : List ZRecord} (hfit : RecordsFit ν records)
    (hlen : (zsetBlob records).length < 2 ^ 32) (rand : Draws) (log : List Access) :
    (exec (rlLoadZset rand (zsetBlob records)) log).1 =
      .ok (addRecords rand (zsetTypeCreate records.length 0 : ZsetObj ν) records) := by
  have heq := zsetBlob_eq records
  have hframes := length_le_framesBytes hfit.frames
  have hsize : (zsetBlob records).length = 4 + (framesBytes (records.map recordFrame)).length := by
    rw [heq, List.length_append, length_leBytes]
  have hcount : leNat ((zsetBlob records).take 4) = records.length := by
    rw [heq, List.take_left' (length_leBytes 4 _), leNat_leBytes]
    exact Nat.mod_eq_of_lt hfit.count
  have hroom : records.length ≤ roomFor (zsetBlob records) 12 := by
    refine le_roomFor (by decide) hlen ?_
    rw [List.length_map] at hframes
    omega
  have hdrop : (zsetBlob records).drop 4 = framesBytes (records.map recordFrame) ++ [] := by
    rw [heq, List.drop_left' (length_leBytes 4 _), List.append_nil]
  obtain ⟨q, log', hwalk, hq⟩ := loadRecords_of_frames (by omega) hfit.bits hfit.lens hfit.number
    (by omega) hdrop rand (zsetTypeCreate records.length 0 : ZsetObj ν)
    (log ++ [.read 0 4] ++ [.alloc records.length 12])
  have hend : q = (zsetBlob records).length := by simpa using hq
  rw [rlLoadZset, if_neg (by omega), exec_rlRd32_bind, List.drop_zero, hcount, if_neg (by omega),
    exec_access_bind, exec_bind_ok hwalk]
  simp [hend, addRecords]

/-- **The loader accepts exactly its format**, and builds what adding the
records one by one builds. -/
theorem rlLoadZset_eq_ok_iff {buf : Bytes} (hlen : buf.length < 2 ^ 32) (rand : Draws)
    (log : List Access) (zobj : ZsetObj ν) : (exec (rlLoadZset rand buf) log).1 = .ok zobj ↔
      ∃ records, RecordsFit ν records ∧ buf = zsetBlob records ∧
        zobj = addRecords rand (zsetTypeCreate records.length 0) records := by
  constructor
  · exact rlLoadZset_sound
  · rintro ⟨records, hfit, rfl, rfl⟩
    exact rlLoadZset_zsetBlob hfit hlen rand log

/-! ## The loader stays inside -/

theorem keeps_loadRecords {buf : Bytes} (rand : Draws) (n : Nat) {p : Nat} (hp : p ≤ buf.length)
    (zobj : ZsetObj ν) : Keeps (Inside buf) (loadRecords rand buf n p zobj) := by
  induction n generalizing p zobj with
  | zero => exact keeps_pure _
  | succ n ih =>
      have hroom := sizeLeft_le hp
      rw [loadRecords]
      split_ifs with hleft
      · exact keeps_bad
      · have hroom' : p + 12 + sizeLeft buf (p + 12) ≤ buf.length := sizeLeft_le (by omega)
        refine (keeps_rlRd64 (by omega)).bind fun bits => (keeps_rlRd32 (by omega)).bind fun mlen => ?_
        split_ifs with hlen
        · exact keeps_bad
        · refine (keeps_sdsnewlen (by omega)).bind fun ele => ?_
          dsimp only
          split_ifs
          · exact ih (by omega) _
          · exact keeps_bad

/-- **The loader stays inside the blob**: it reads no byte outside and makes
room for no more than the blob can hold, whether it accepts or not. -/
theorem rlLoadZset_inside (rand : Draws) (buf : Bytes) :
    Inside buf (exec (rlLoadZset rand buf : Loader (ZsetObj ν)) []).2 := by
  have hkeeps : Keeps (Inside buf) (rlLoadZset rand buf : Loader (ZsetObj ν)) := by
    rw [rlLoadZset]
    split_ifs with hshort
    · exact keeps_bad
    intro log hlog
    rw [exec_rlRd32_bind, List.drop_zero]
    have hlog' := hlog.access (a := .read 0 4) (show 0 + 4 ≤ buf.length by omega)
    by_cases hroom : leNat (buf.take 4) > roomFor buf 12
    · rwa [if_pos hroom]
    rw [if_neg hroom]
    have hcount := roomFor_le (Nat.le_of_not_lt hroom)
    have halloc : (Access.alloc (leNat (buf.take 4)) 12).Within buf.length := by
      rw [Access.Within]
      omega
    refine ((keeps_access halloc).bind fun _ =>
      (keeps_loadRecords rand _ (p := 4) (by omega) _).bind fun r => ?_) _ hlog'
    split_ifs
    · exact keeps_bad
    · exact keeps_pure _
  exact hkeeps [] fun a ha => absurd ha List.not_mem_nil

/-! ## The loader raises one error -/

theorem raisesOnly_loadRecords (rand : Draws) (buf : Bytes) (n p : Nat) (zobj : ZsetObj ν) :
    RaisesOnly badFormatErr (loadRecords rand buf n p zobj) := by
  induction n generalizing p zobj with
  | zero => exact raisesOnly_pure _ _
  | succ n ih =>
      rw [loadRecords]
      split_ifs
      · exact raisesOnly_bad
      · refine (raisesOnly_rlRd64 p).bind fun bits => (raisesOnly_rlRd32 (p + 8)).bind fun mlen => ?_
        split_ifs
        · exact raisesOnly_bad
        · refine (raisesOnly_sdsnewlen (p + 12) mlen).bind fun ele => ?_
          dsimp only
          split_ifs
          · exact ih _ _
          · exact raisesOnly_bad

theorem raisesOnly_rlLoadZset (rand : Draws) (buf : Bytes) :
    RaisesOnly badFormatErr (rlLoadZset rand buf : Loader (ZsetObj ν)) := by
  rw [rlLoadZset]
  split_ifs
  · exact raisesOnly_bad
  · refine (raisesOnly_rlRd32 0).bind fun count => ?_
    split_ifs
    · exact raisesOnly_bad
    · refine (raisesOnly_access _).bind fun _ =>
        (raisesOnly_loadRecords rand buf count 4 _).bind fun r => ?_
      split_ifs
      · exact raisesOnly_bad
      · exact raisesOnly_pure _ _

/-! ## What is loaded -/

/-- The scores of a list of records, when a later record counts before an
earlier one with the same element. -/
def lastScores (records : List ZRecord) : List (Scored ν) := (records.map ofRecord).reverse

section Lawful

variable [LawfulScoreBits ν]

theorem sameScores_addRecords {zobj : ZsetObj ν} (h : zobj.Wf) (rand : Draws)
    {records : List ZRecord} (hnumber : ∀ r ∈ records, (ofRecord r : Scored ν).IsNumber) :
    (addRecords rand zobj records).Wf ∧
      SameScores (addRecords rand zobj records).items (lastScores records ++ zobj.items) := by
  induction records generalizing zobj with
  | nil => exact ⟨h, h.sound.scoreOf_refl⟩
  | cons r records ih =>
      have hrest : ∀ r' ∈ records, (ofRecord r' : Scored ν).IsNumber := fun r' hr' =>
        hnumber r' (List.mem_cons_of_mem r hr')
      obtain ⟨hwf, hsame⟩ := zsetAdd_sameScores h rand (hnumber r List.mem_cons_self)
      obtain ⟨hwf', hsame'⟩ := ih hwf hrest
      refine ⟨hwf', hsame'.trans ?_⟩
      rw [lastScores, lastScores, List.map_cons, List.reverse_cons, List.append_assoc,
        List.singleton_append]
      refine hsame.append_left fun a ha => ?_
      obtain ⟨r', hr', rfl⟩ := List.mem_map.mp (List.mem_reverse.mp ha)
      exact hrest r' hr'

/-- **A loaded sorted set** has the elements of the records, each with the
score of its last record. -/
theorem sameScores_loaded (rand : Draws) {records : List ZRecord} (hfit : RecordsFit ν records)
    (sizeHint : Nat) :
    (addRecords rand (zsetTypeCreate sizeHint 0 : ZsetObj ν) records).Wf ∧
      SameScores (addRecords rand (zsetTypeCreate sizeHint 0 : ZsetObj ν) records).items
        (lastScores records) := by
  obtain ⟨hwf, hsame⟩ := sameScores_addRecords (wf_zsetTypeCreate sizeHint 0) rand hfit.number
  rw [items_zsetTypeCreate, List.append_nil] at hsame
  exact ⟨hwf, hsame⟩

omit [LawfulScoreBits ν] in
/-- A sorted set with the elements of the records has as many as there are
distinct ones. -/
theorem length_of_sameScores {l : List (Scored ν)} (h : Sound l) {records : List ZRecord}
    (hsame : SameScores l (lastScores records)) :
    l.length = (records.map Prod.snd).toFinset.card := by
  rw [← List.length_map (f := Scored.ele), ← List.toFinset_card_of_nodup h.nodup]
  congr 1
  ext e
  rw [List.mem_toFinset, List.mem_toFinset, hsame.mem_iff, lastScores, ← List.map_reverse, List.map_map]
  simp [ofRecord]

end Lawful

end SkynetJit.Redis
