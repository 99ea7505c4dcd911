import SkynetJit.Redis.Bitmap.Bitpos

/-!
# SkynetJit.Redis.Bitmap.Setbit

SETBIT (`facade/bitmap.c`).

SETBIT and BITFIELD have code of their own for the same thing.  Both are put
beside the bit array: `setbit_spec` for the one, `bitfield_agrees` for the
other, so a bit set by either leaves the same bytes.
-/

namespace SkynetJit.Redis

open Raise Words BitArray

variable {ν : Type}

/-- What SETBIT does with a string: the reply, and the string. -/
def setbit (p : Bytes) (bitoffset : Nat) (on : Int) : Int × Bytes :=
  let byte := bitoffset >>> 3
  let p := if p.length < byte + 1 then p ++ List.replicate (byte + 1 - p.length) 0 else p
  let byteval := (p.getD byte 0).toNat
  let bit := 7 - (bitoffset &&& 7)
  let bitval := byteval &&& 1 <<< bit
  let byteval := byteval &&& (0xff ^^^ 1 <<< bit)
  let byteval := byteval ||| (u64 on &&& 1) <<< bit
  (if bitval ≠ 0 then 1 else 0, p.set byte (UInt8.ofNat byteval))

section Command

variable [LuaCoercion ν]

/-- The arguments of SETBIT: the handle, the offset and the bit. -/
def setbitArgs (args : List (LuaValue ν)) : Except LuaError (Nat × Nat × Int) := do
  let id ← rlCheck args 1 .bitmap
  let bitoffset ← rlBitoffset ((luaArg args 2).getD .nil) false 0
  let on ← rlChecklonglong ((luaArg args 3).getD .nil) "bit is not an integer or out of range"
  -- `on & ~1`
  if u64 on &&& (2 ^ 64 - 2) ≠ 0 then .error (rlError (ascii "bit is not an integer or out of range"))
  else return (id, bitoffset, on)

/-- `lbitmap_setbit`. -/
def lbitmapSetbit (args : List (LuaValue ν)) : Command (Handles Bytes) (Reply ν) := do
  let (id, bitoffset, on) ← check (setbitArgs args)
  let s ← get
  let r := setbit (s id) bitoffset on
  set (s.put id r.2)
  return .int r.1

end Command

/-! ## On the bits -/

theorem ofNat_and_ff (x : Nat) : UInt8.ofNat (x &&& 0xff) = UInt8.ofNat x := by
  have hmod : x &&& 0xff = x % 2 ^ 8 := Nat.and_two_pow_sub_one_eq_mod x 8
  rw [← UInt8.toNat_inj, UInt8.toNat_ofNat', UInt8.toNat_ofNat', hmod, Nat.mod_mod]

/-- The string with room for a bit. -/
def setbitRoom (bitoffset : Nat) (p : Bytes) : Bytes :=
  if p.length < bitoffset / 8 + 1 then p ++ List.replicate (bitoffset / 8 + 1 - p.length) 0 else p

theorem setbitRoom_spec (bitoffset : Nat) (p : Bytes) :
    bitAt (setbitRoom bitoffset p) = bitAt p ∧
      (setbitRoom bitoffset p).length = max p.length (bitoffset / 8 + 1) := by
  rw [setbitRoom]
  split_ifs with hshort
  · refine ⟨bitAt_append_zeros _ _, ?_⟩
    rw [List.length_append, List.length_replicate]
    omega
  · exact ⟨rfl, by omega⟩

/-- The byte SETBIT stores is the one that a field of one bit stores. -/
theorem setbit_snd (p : Bytes) (bitoffset : Nat) (b : Bool) :
    (setbit p bitoffset b.toNat).2 = setUnsignedBitfield (setbitRoom bitoffset p) bitoffset 1 b.toNat := by
  have hon : u64 b.toNat &&& 1 = if b.toNat &&& 1 <<< 0 ≠ 0 then 1 else 0 := by cases b <;> rfl
  rw [setUnsignedBitfield, setUnsignedBitfield, ofNat_and_ff, ← hon, setbitRoom, ← shiftRight_three]
  rfl

/-- **SETBIT** writes one bit, and replies the one that was there. -/
theorem setbit_spec (p : Bytes) (bitoffset : Nat) (b : Bool) :
    (setbit p bitoffset b.toNat).1 = (bitAt p bitoffset).toNat ∧
      (setbit p bitoffset b.toNat).2.length = max p.length (bitoffset / 8 + 1) ∧
      bitAt (setbit p bitoffset b.toNat).2 = (bitAt p).put bitoffset 1 b.toNat := by
  obtain ⟨hbits, hlen⟩ := setbitRoom_spec bitoffset p
  have hroom : bitoffset + 1 ≤ 8 * (setbitRoom bitoffset p).length := by omega
  obtain ⟨hlen', hbits'⟩ := setUnsignedBitfield_spec b.toNat hroom
  rw [setbit_snd, hlen', hbits', hlen, hbits]
  refine ⟨?_, rfl, rfl⟩
  have hold : ((if ((setbitRoom bitoffset p).getD (bitoffset / 8) 0).toNat &&& 1 <<< (7 - bitoffset % 8) ≠ 0 then 1
      else 0 : Int)) = (bitAt (setbitRoom bitoffset p) bitoffset).toNat := by
    rw [Nat.one_shiftLeft, Nat.and_two_pow, bitAt]
    cases ((setbitRoom bitoffset p).getD (bitoffset / 8) 0).toNat.testBit (7 - bitoffset % 8) <;> simp
  rw [← hbits, ← hold, setbit, shiftRight_three, and_seven, setbitRoom]

/-! ## Beside BITFIELD -/

/-- The bits and the length decide the bytes. -/
theorem ext_bitAt {s t : Bytes} (hlen : s.length = t.length) (h : bitAt s = bitAt t) : s = t := by
  refine ext_bits hlen fun n hn => ?_
  have hs := bitAt_eq_bits s (8 * (n / 8) + (7 - n % 8))
  have ht := bitAt_eq_bits t (8 * (n / 8) + (7 - n % 8))
  rw [show 8 * ((8 * (n / 8) + (7 - n % 8)) / 8) + (7 - (8 * (n / 8) + (7 - n % 8)) % 8) = n by omega] at hs ht
  rw [← hs, ← ht, h]

/-- The type u1. -/
def u1 : FieldType := ⟨false, 1, Nat.le_refl 1, by decide⟩

theorem u1_read (f : BitArray) (off : Nat) : u1.read f off = (f off).toNat := by
  have hbit : f.field off 1 = (f off).toNat := Nat.zero_add _
  show ((f.field off 1 : Nat) : Int) % 2 ^ 1 = (f off).toNat
  rw [hbit]
  cases f off <;> rfl

/-- SET u1 stores its bit under every policy. -/
theorem u1_store (owtype : Owtype) (b : Bool) : u1.store owtype (u1.asked b.toNat) = some (b.toNat : Int) := by
  cases b <;> rfl

theorem u1_write (f : BitArray) (off : Nat) (b : Bool) : u1.write f off b.toNat = f.put off 1 b.toNat := by
  cases b <;> rfl

theorem bitOffset_lt (off : {n : Nat // n / 8 < protoMaxBulkLen}) : off.1 / 8 < protoMaxBulkLen := off.2

theorem isInt64_bool (b : Bool) : IsInt64 b.toNat := by
  cases b <;> decide

/-- BITFIELD SET u1. -/
def setU1 (owtype : Owtype) (off : {n : Nat // n / 8 < protoMaxBulkLen}) (b : Bool) : BitfieldOp :=
  ⟨off.1, b.toNat, .set, owtype, u1, bitOffset_lt off, isInt64_bool b⟩

/-- BITFIELD GET u1. -/
def getU1 (owtype : Owtype) (off : {n : Nat // n / 8 < protoMaxBulkLen}) : BitfieldOp :=
  ⟨off.1, 0, .get, owtype, u1, bitOffset_lt off, isInt64_bool false⟩

/-- **SETBIT and BITFIELD SET u1** reply the same bit and leave the same bytes. -/
theorem bitfieldRun_setU1 (owtype : Owtype) (off : {n : Nat // n / 8 < protoMaxBulkLen}) (b : Bool) (p : Bytes) :
    bitfieldRun [setU1 owtype off b] p = ([some (setbit p off b.toNat).1], (setbit p off b.toNat).2) := by
  have hslip : ∀ op ∈ [setU1 owtype off b], ¬ op.slips := by
    intro op hop hslips
    rw [List.mem_singleton.mp hop] at hslips
    exact Bool.false_ne_true hslips.2.2.1
  obtain ⟨hreplies, hbits, hlen⟩ := bitfield_agrees hslip p
  obtain ⟨hold, hlen', hbits'⟩ := setbit_spec p off b
  have hspec : specRun [setU1 owtype off b] (bitAt p) =
      ([some ((bitAt p off).toNat : Int)], (bitAt p).put off 1 b.toNat) := by
    have hstore := u1_store owtype b
    rw [specRun, specRun, specStep.eq_def]
    simp only [setU1, hstore, u1_read, u1_write]
  rw [hspec] at hreplies hbits
  have hwritten : writtenLength [setU1 owtype off b] p.length = max p.length (off / 8 + 1) := rfl
  refine Prod.ext (by rw [hreplies, hold]) (ext_bitAt ?_ ?_)
  · rw [hlen, hwritten, hlen']
  · rw [hbits, hbits']

/-- **GETBIT and BITFIELD GET u1.** -/
theorem bitfieldRun_getU1 (owtype : Owtype) (off : {n : Nat // n / 8 < protoMaxBulkLen}) (p : Bytes) :
    bitfieldRun [getU1 owtype off] p = ([some (getbit p off)], p) := by
  have hslip : ∀ op ∈ [getU1 owtype off], ¬ op.slips := by
    intro op hop hslips
    rw [List.mem_singleton.mp hop] at hslips
    exact Bool.false_ne_true hslips.2.2.1
  obtain ⟨hreplies, hbits, hlen⟩ := bitfield_agrees hslip p
  refine Prod.ext ?_ (ext_bitAt hlen hbits)
  rw [hreplies, getbit_eq]
  show [some (u1.read (bitAt p) off)] = _
  rw [u1_read]

/-! ## The commands -/

section Command

variable [LuaCoercion ν]

/-- An offset SETBIT accepts is the same offset for BITFIELD: it does not begin
with a `#`. -/
theorem rlBitoffset_hash {v : LuaValue ν} {off : {n : Nat // n / 8 < protoMaxBulkLen}}
    (h : rlBitoffset v false 0 = .ok off) (bits : Nat) : rlBitoffset v true bits = .ok off := by
  rw [rlBitoffset] at h ⊢
  cases hv : toBytes? v with
  | none => rw [hv] at h; contradiction
  | some p =>
      rw [hv] at h
      have hhash : decide (p.head? = some (charByte '#')) = false := by
        refine decide_eq_false fun hhead => ?_
        obtain ⟨rest, rfl⟩ := List.head?_eq_some_iff.mp hhead
        simp only [Bool.and_false, Bool.false_and, Bool.false_eq_true, if_false, string2ll_hash] at h
        contradiction
      simp only [hhash, Bool.false_and, Bool.and_false] at h ⊢
      exact h

/-- Whether an integer is accepted does not depend on the text of the error. -/
theorem rlChecklonglong_ok {v : LuaValue ν} {err err' : String} {n : {n : Int // IsInt64 n}}
    (h : rlChecklonglong v err = .ok n) : rlChecklonglong v err' = .ok n := by
  simp only [rlChecklonglong] at h ⊢
  split at h
  · contradiction
  · split_ifs at h ⊢
    exact h

/-- The OVERFLOW in front of a SET. -/
def overflowArgs : Option Owtype → List (LuaValue ν)
  | none => []
  | some .wrap => [.string (ascii "OVERFLOW"), .string (ascii "WRAP")]
  | some .sat => [.string (ascii "OVERFLOW"), .string (ascii "SAT")]
  | some .fail => [.string (ascii "OVERFLOW"), .string (ascii "FAIL")]

theorem bitfieldOps_setU1 {voff vb : LuaValue ν} {off : {n : Nat // n / 8 < protoMaxBulkLen}} {b : Bool}
    (hoff : rlBitoffset voff true 1 = .ok off) {on : {n : Int // IsInt64 n}} (hb : on.1 = b.toNat)
    (hon : rlChecklonglong vb "value is not an integer or out of range" = .ok on) (mode : Option Owtype) :
    bitfieldOps (overflowArgs mode ++ [.string (ascii "SET"), .string (ascii "u1"), voff, vb]) .wrap =
      .ok [setU1 (mode.getD .wrap) off b] := by
  obtain ⟨on, hint⟩ := on
  obtain rfl : on = b.toNat := hb
  have hwrite : ∀ owtype, bitfieldWrite .set owtype (.string (ascii "u1")) voff vb = .ok (setU1 owtype off b) := by
    intro owtype
    show (rlBitoffset voff true 1 >>= _) = _
    rw [hoff]
    show (rlChecklonglong vb "value is not an integer or out of range" >>= _) = _
    rw [hon]
    rfl
  have hops : bitfieldOps (overflowArgs mode ++ [.string (ascii "SET"), .string (ascii "u1"), voff, vb]) .wrap =
      (bitfieldWrite .set (mode.getD .wrap) (.string (ascii "u1")) voff vb).map fun op => [op] := by
    cases mode with
    | none => rfl
    | some owtype => cases owtype <;> rfl
  rw [hops, hwrite]
  rfl

theorem bitfieldOps_getU1 {voff : LuaValue ν} {off : {n : Nat // n / 8 < protoMaxBulkLen}}
    (hoff : rlBitoffset voff true 1 = .ok off) (mode : Option Owtype) :
    bitfieldOps (overflowArgs mode ++ [.string (ascii "GET"), .string (ascii "u1"), voff]) .wrap =
      .ok [getU1 (mode.getD .wrap) off] := by
  have hget : ∀ owtype, bitfieldGet owtype (.string (ascii "u1")) voff = .ok (getU1 owtype off) := by
    intro owtype
    show (rlBitoffset voff true 1 >>= _) = _
    rw [hoff]
    rfl
  have hops : bitfieldOps (overflowArgs mode ++ [.string (ascii "GET"), .string (ascii "u1"), voff]) .wrap =
      (bitfieldGet (mode.getD .wrap) (.string (ascii "u1")) voff).map fun op => [op] := by
    cases mode with
    | none => rfl
    | some owtype => cases owtype <;> rfl
  rw [hops, hget]
  rfl

/-- **One bit**, by GETBIT and SETBIT or by BITFIELD: the same replies and the
same bytes under every OVERFLOW, and afterwards the bit is there and every other
one is as it was. -/
theorem setbit_agrees {voff : LuaValue ν} {off : {n : Nat // n / 8 < protoMaxBulkLen}}
    (hoff : rlBitoffset voff false 0 = .ok off) (mode : Option Owtype) (id : Nat) (s : Handles Bytes) :
    (exec (lbitmapGetbit [.handle .bitmap id, voff]) s = (.ok (.int (getbit (s id) off)), s) ∧
      ∀ ro, exec (lbitmapBitfield ro
          (.handle .bitmap id :: (overflowArgs mode ++ [.string (ascii "GET"), .string (ascii "u1"), voff]))) s =
        (.ok (.array [.int (getbit (s id) off)]), s)) ∧
    ∀ (vb : LuaValue ν) (b : Bool) (on : {n : Int // IsInt64 n}), on.1 = b.toNat →
      rlChecklonglong vb "bit is not an integer or out of range" = .ok on →
      ∃ str : Bytes,
        exec (lbitmapSetbit [.handle .bitmap id, voff, vb]) s =
          (.ok (.int (getbit (s id) off)), s.put id str) ∧
        exec (lbitmapBitfield false (.handle .bitmap id ::
            (overflowArgs mode ++ [.string (ascii "SET"), .string (ascii "u1"), voff, vb]))) s =
          (.ok (.array [.int (getbit (s id) off)]), s.put id str) ∧
        ∀ i, getbit str i = if i = off then (b.toNat : Int) else getbit (s id) i := by
  have hoff' := rlBitoffset_hash hoff 1
  refine ⟨⟨?_, fun ro => ?_⟩, fun vb b on hb hon => ⟨(setbit (s id) off b.toNat).2, ?_, ?_, fun i => ?_⟩⟩
  · rw [lbitmapGetbit, exec_check_bind]
    show exec (check (rlBitoffset voff false 0) >>= _) s = _
    rw [exec_check_bind, hoff]
    rfl
  · have hargs : bitfieldArgs ro (.handle .bitmap id ::
        (overflowArgs mode ++ [.string (ascii "GET"), .string (ascii "u1"), voff])) =
        .ok (id, [getU1 (mode.getD .wrap) off]) := by
      show (bitfieldOps (overflowArgs mode ++ _) .wrap >>= _) = _
      rw [bitfieldOps_getU1 hoff']
      rfl
    rw [lbitmapBitfield, exec_check_bind, hargs]
    show (Except.ok (Reply.array ((bitfieldRun _ (s id)).1.map bitfieldReply)),
      s.put id (bitfieldRun _ (s id)).2) = _
    rw [bitfieldRun_getU1, Handles.put_eq_self]
    rfl
  · have hargs : setbitArgs [.handle .bitmap id, voff, vb] = .ok (id, off.1, (b.toNat : Int)) := by
      show (rlBitoffset voff false 0 >>= _) = _
      rw [hoff]
      show (rlChecklonglong vb "bit is not an integer or out of range" >>= _) = _
      rw [hon]
      show (if u64 on.1 &&& (2 ^ 64 - 2) ≠ 0 then _ else _) = _
      rw [hb, if_neg (by cases b <;> decide)]
      rfl
    rw [lbitmapSetbit, exec_check_bind, hargs]
    show (Except.ok (Reply.int (setbit (s id) off b.toNat).1), s.put id (setbit (s id) off b.toNat).2) = _
    rw [(setbit_spec (s id) off b).1, getbit_eq]
  · have hargs : bitfieldArgs false (.handle .bitmap id ::
        (overflowArgs mode ++ [.string (ascii "SET"), .string (ascii "u1"), voff, vb])) =
        .ok (id, [setU1 (mode.getD .wrap) off b]) := by
      show (bitfieldOps (overflowArgs mode ++ _) .wrap >>= _) = _
      rw [bitfieldOps_setU1 hoff' hb (rlChecklonglong_ok hon)]
      rfl
    rw [lbitmapBitfield, exec_check_bind, hargs]
    show (Except.ok (Reply.array ((bitfieldRun _ (s id)).1.map bitfieldReply)),
      s.put id (bitfieldRun _ (s id)).2) = _
    rw [bitfieldRun_setU1, (setbit_spec (s id) off b).1, getbit_eq]
    rfl
  · rw [getbit_eq, getbit_eq, (setbit_spec (s id) off b).2.2]
    split_ifs with hi
    · rw [hi, put_inside (Nat.le_refl _) (Nat.lt_succ_self _)]
      cases b <;> simp
    · rw [put_outside (by omega)]

end Command

/-- An offset behind the end of the string. -/
def setbitOffset : LuaValue IntegralDouble := .number (.fin 11)

theorem setbit_agrees_sample : ∃ str : Bytes,
    exec (lbitmapSetbit [.handle .bitmap 0, setbitOffset, .number (.fin 1)]) (fun _ => [1]) =
      (.ok (.int (getbit [1] 11)), Handles.put (fun _ => [1]) 0 str) ∧
    exec (lbitmapBitfield false (.handle .bitmap 0 :: (overflowArgs (some .fail) ++
        [.string (ascii "SET"), .string (ascii "u1"), setbitOffset, .number (.fin 1)]))) (fun _ => [1]) =
      (.ok (.array [.int (getbit [1] 11)]), Handles.put (fun _ => [1]) 0 str) ∧
    ∀ i, getbit str i = if i = 11 then 1 else getbit [1] i :=
  (@setbit_agrees _ _ setbitOffset ⟨11, by decide⟩ rfl (some .fail) 0 (fun _ => [1])).2
    (.number (.fin 1)) true ⟨1, by decide⟩ rfl rfl

end SkynetJit.Redis
