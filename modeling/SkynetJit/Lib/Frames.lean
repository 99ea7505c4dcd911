import SkynetJit.Lib.Bytes

/-!
# SkynetJit.Lib.Frames

Length-prefixed records.  A frame is a tag of a fixed size, the length of its
body as four little-endian bytes, and the body.  `split_frame` and
`drop_frame` are the two directions of reading one: what the bytes at an
offset say, and that any bytes long enough are a frame.

Nothing here depends on the formats of this development.
-/

namespace SkynetJit

/-- A record: a tag, and a body that its length precedes. -/
structure Frame where
  tag : Bytes
  body : Bytes
deriving DecidableEq, Repr

/-- The bytes of a record. -/
def Frame.bytes (f : Frame) : Bytes := f.tag ++ (leBytes 4 f.body.length ++ f.body)

/-- The bytes of records in a row. -/
def framesBytes (fs : List Frame) : Bytes := fs.flatMap Frame.bytes

/-- A record whose tag takes `k` bytes and whose length fits its field. -/
structure Frame.Fits (k : Nat) (f : Frame) : Prop where
  tag : f.tag.length = k
  body : f.body.length < 2 ^ 32

@[simp] theorem framesBytes_nil : framesBytes [] = [] := rfl

@[simp] theorem framesBytes_cons (f : Frame) (fs : List Frame) :
    framesBytes (f :: fs) = f.bytes ++ framesBytes fs := rfl

theorem Frame.length_bytes (f : Frame) :
    f.bytes.length = f.tag.length + 4 + f.body.length := by
  rw [Frame.bytes, List.length_append, List.length_append, length_leBytes]
  omega

theorem length_le_framesBytes {fs : List Frame} {k : Nat} (h : ∀ f ∈ fs, f.Fits k) :
    fs.length * (k + 4) ≤ (framesBytes fs).length := by
  induction fs with
  | nil => simp
  | cons f fs ih =>
      have hf := f.length_bytes
      rw [(h f List.mem_cons_self).tag] at hf
      have hfs := ih fun g hg => h g (List.mem_cons_of_mem f hg)
      rw [framesBytes_cons, List.length_append, List.length_cons, Nat.succ_mul]
      omega

theorem body_length_le_framesBytes {fs : List Frame} {f : Frame} (h : f ∈ fs) :
    f.body.length ≤ (framesBytes fs).length := by
  induction fs with
  | nil => contradiction
  | cons g fs ih =>
      rw [framesBytes_cons, List.length_append]
      rcases List.mem_cons.mp h with rfl | hin
      · rw [Frame.length_bytes]
        omega
      · have := ih hin
        omega

/-- What reading a record at an offset finds. -/
structure FrameAt (b : Bytes) (p k : Nat) (f : Frame) (rest : Bytes) : Prop where
  tag : (b.drop p).take k = f.tag
  len : leNat ((b.drop (p + k)).take 4) = f.body.length
  body : (b.drop (p + k + 4)).take f.body.length = f.body
  rest : b.drop (p + k + 4 + f.body.length) = rest
  fits : p + k + 4 + f.body.length ≤ b.length

/-- Bytes that start with a record read as that record. -/
theorem drop_frame {b : Bytes} {p k : Nat} {f : Frame} {rest : Bytes} (hf : f.Fits k)
    (h : b.drop p = f.bytes ++ rest) : FrameAt b p k f rest := by
  have hlen : b.length - p = k + 4 + f.body.length + rest.length := by
    rw [← List.length_drop, h, List.length_append, f.length_bytes, hf.tag]
  have htag : b.drop p = f.tag ++ (leBytes 4 f.body.length ++ (f.body ++ rest)) := by
    rw [h, Frame.bytes]
    simp only [List.append_assoc]
  have hfield : b.drop (p + k) = leBytes 4 f.body.length ++ (f.body ++ rest) := by
    rw [← List.drop_drop, htag, ← hf.tag, List.drop_left]
  have hbody : b.drop (p + k + 4) = f.body ++ rest := by
    rw [← List.drop_drop, hfield, List.drop_left' (length_leBytes 4 _)]
  refine ⟨?_, ?_, ?_, ?_, by omega⟩
  · rw [htag, ← hf.tag, List.take_left]
  · rw [hfield, List.take_left' (length_leBytes 4 _), leNat_leBytes]
    exact Nat.mod_eq_of_lt hf.body
  · rw [hbody, List.take_left]
  · rw [← List.drop_drop, hbody, List.drop_left]

/-- Bytes that are long enough for what they say start with a record. -/
theorem split_frame {b : Bytes} {p k n : Nat} (hn : leNat ((b.drop (p + k)).take 4) = n)
    (hfits : p + k + 4 + n ≤ b.length) :
    ∃ f : Frame, f.Fits k ∧ f.body.length = n ∧
      b.drop p = f.bytes ++ b.drop (p + k + 4 + n) := by
  have htag : ((b.drop p).take k).length = k := by
    rw [List.length_take, List.length_drop]
    omega
  have hfield : ((b.drop (p + k)).take 4).length = 4 := by
    rw [List.length_take, List.length_drop]
    omega
  have hbody : ((b.drop (p + k + 4)).take n).length = n := by
    rw [List.length_take, List.length_drop]
    omega
  have hlt : n < 2 ^ 32 := by
    have := leNat_lt ((b.drop (p + k)).take 4)
    rw [hn, hfield] at this
    exact this
  refine ⟨⟨(b.drop p).take k, (b.drop (p + k + 4)).take n⟩, ⟨htag, by rwa [hbody]⟩, hbody, ?_⟩
  have hbytes := leBytes_leNat ((b.drop (p + k)).take 4)
  rw [hfield, hn] at hbytes
  rw [Frame.bytes, hbody, hbytes]
  have hcut : ∀ q m, b.drop q = (b.drop q).take m ++ b.drop (q + m) := by
    intro q m
    rw [← List.drop_drop, List.take_append_drop]
  -- cut the bytes at the end of the tag, of the length and of the body
  calc b.drop p
      = (b.drop p).take k ++ b.drop (p + k) := hcut p k
    _ = (b.drop p).take k ++ ((b.drop (p + k)).take 4 ++ b.drop (p + k + 4)) := by
        rw [← hcut (p + k) 4]
    _ = (b.drop p).take k ++ ((b.drop (p + k)).take 4 ++ ((b.drop (p + k + 4)).take n
          ++ b.drop (p + k + 4 + n))) := by
        rw [← hcut (p + k + 4) n]
    _ = _ := by simp only [List.append_assoc]

/-- Records can be read off their bytes. -/
theorem framesBytes_inj {fs gs : List Frame} {k : Nat} (hf : ∀ f ∈ fs, f.Fits k)
    (hg : ∀ g ∈ gs, g.Fits k) (hlen : fs.length = gs.length)
    (h : framesBytes fs = framesBytes gs) : fs = gs := by
  induction fs generalizing gs with
  | nil => exact (List.length_eq_zero_iff.mp hlen.symm).symm
  | cons f fs ih =>
      cases gs with
      | nil => simp at hlen
      | cons g gs =>
          have hat : FrameAt (framesBytes (f :: fs)) 0 k f (framesBytes fs) :=
            drop_frame (hf f List.mem_cons_self) rfl
          have hat' : FrameAt (framesBytes (f :: fs)) 0 k g (framesBytes gs) :=
            drop_frame (hg g List.mem_cons_self) h
          have hn : f.body.length = g.body.length := hat.len.symm.trans hat'.len
          have hrest : framesBytes fs = framesBytes gs := by rw [← hat.rest, ← hat'.rest, hn]
          have htl : fs = gs := ih (fun f' hf' => hf f' (List.mem_cons_of_mem f hf'))
            (fun g' hg' => hg g' (List.mem_cons_of_mem g hg')) (Nat.succ.inj hlen) hrest
          have hbody : f.body = g.body := by rw [← hat.body, ← hat'.body, hn]
          have htag : f.tag = g.tag := hat.tag.symm.trans hat'.tag
          have hhd : f = g := by
            cases f
            cases g
            simp_all
          rw [hhd, htl]

end SkynetJit
