import SkynetJit.Compat.Integers
import SkynetJit.Compat.Packed

/-!
# SkynetJit.Compat.RoundTrip

`string.unpack` of what `string.pack` wrote.

Both walk the same format, the one with the length of its output, the other
with its position in the data; the padding depends on these, and they keep in
step.  Strings come back, and integers come back as far as
`integerValue_integerBytes` says.
-/

namespace SkynetJit.Compat

variable {ν : Type}

/-! ## Reading one argument back -/

/-- An argument that fits its option. -/
def Use.Fits (u : Use ν) : Prop :=
  match u.argument with
  | .integer n => isInteger u.option = true ∧ Readable u.width (isSigned u.option) n
  | .string s =>
      (u.option ∈ ascii "z" ∧ 0 ∉ s.bytes) ∨ (u.option ∈ ascii "c" ∧ s.bytes.length = u.width) ∨
        (u.option ∈ ascii "s" ∧ s.bytes.length < 2 ^ (8 * u.width))
  | _ => False

/-- What `string.unpack` returns for an argument that fits. -/
def Use.returned (F : Ffi ν) (u : Use ν) : Unpacked :=
  match u.argument with
  | .integer n =>
      .number (integerValue (integerBytes (F.castInteger n) u.width u.littleEndian) u.width u.littleEndian
        (isSigned u.option))
  | .string s => .string s.bytes
  | _ => .number 0

theorem padding_one (offset maximumAlignment : Nat) : padding offset 1 maximumAlignment = 0 :=
  if_pos (Nat.min_le_left 1 maximumAlignment)

/-- The padding is skipped first. -/
theorem unpackItem_align (F : Ffi ν) (data : Bytes) (option : UInt8) (size alignment : Nat) (w : Switches)
    (s : UnpackState) :
    unpackItem F data option size alignment w s = unpackItem F data option size 1 ⟨w.littleEndian, 1⟩
      { s with position := s.position + padding (s.position - 1) alignment w.maximumAlignment } := by
  simp only [unpackItem, padding_one, Nat.add_zero]

theorem slice_append (front body suffix : Bytes) {size : Nat} (h : body.length = size) :
    slice (front ++ body ++ suffix) (front.length + 1) size = body := by
  rw [slice, Nat.add_sub_cancel, List.append_assoc, List.drop_left, ← h, List.take_left]

theorem length_ok (front body suffix : Bytes) {size : Nat} (h : body.length = size) :
    ¬ front.length + 1 + size - 1 > (front ++ body ++ suffix).length := by
  rw [List.length_append, List.length_append, h]
  omega

/-- A string with its zero. -/
theorem unpackItem_z (F : Ffi ν) {option : UInt8} (hz : option ∈ ascii "z") {s : Bytes} (hzero : 0 ∉ s)
    (front suffix : Bytes) (size : Nat) (littleEndian : Bool) (results : List Unpacked) :
    unpackItem F (front ++ (s ++ [0]) ++ suffix) option size 1 ⟨littleEndian, 1⟩ ⟨front.length + 1, results⟩
      = .ok ⟨(front ++ (s ++ [0])).length + 1, results ++ [.string s]⟩ := by
  have hx : option ∉ ascii "x" := by
    rw [show option = 122 from List.mem_singleton.mp hz]
    decide
  have hdrop : (front ++ (s ++ [0]) ++ suffix).drop (front.length + 1 - 1) = s ++ 0 :: suffix := by
    rw [Nat.add_sub_cancel, List.append_assoc, List.drop_left, List.append_assoc]
    rfl
  have hnone : s.findIdx? (fun b => decide (b = 0)) = none := by
    rw [List.findIdx?_eq_none_iff]
    intro b hb
    exact decide_eq_false fun heq => hzero (heq ▸ hb)
  have hfind : (s ++ 0 :: suffix).findIdx? (fun b => decide (b = 0)) = some s.length := by
    rw [List.findIdx?_append, hnone, List.findIdx?_cons, decide_eq_true rfl]
    simp
  have hslice : slice (front ++ (s ++ [0]) ++ suffix) (front.length + 1) s.length = s := by
    rw [slice, hdrop, List.take_left]
  simp only [unpackItem, padding_one, Nat.add_zero, if_neg hx, if_pos hz, hdrop, hfind, hslice, UnpackState.push,
    List.length_append, List.length_singleton]
  congr 2
  omega

/-- A string of fixed length. -/
theorem unpackItem_c (F : Ffi ν) {option : UInt8} (hc : option ∈ ascii "c") {s : Bytes} {size : Nat}
    (hlen : s.length = size) (front suffix : Bytes) (littleEndian : Bool) (results : List Unpacked) :
    unpackItem F (front ++ s ++ suffix) option size 1 ⟨littleEndian, 1⟩ ⟨front.length + 1, results⟩
      = .ok ⟨(front ++ s).length + 1, results ++ [.string s]⟩ := by
  have hnot : option ∉ ascii "x" ∧ option ∉ ascii "z" := by
    rw [show option = 99 from List.mem_singleton.mp hc]
    decide
  have hshort := length_ok front s suffix hlen
  simp only [unpackItem, padding_one, Nat.add_zero, if_neg hnot.1, if_neg hnot.2, if_pos hc, if_neg hshort,
    slice_append front s suffix hlen, UnpackState.push]
  rw [List.length_append, hlen]
  congr 2
  omega

/-- The length in front of a string. -/
theorem integerValue_length {n size : Nat} (hfit : n < 2 ^ (8 * size)) (hsmall : n < 2 ^ 53) {number : UInt64}
    (hnumber : (number.toNat : Int) = (n : Int) % 2 ^ 64) (littleEndian : Bool) :
    (integerValue (integerBytes number size littleEndian) size littleEndian false).toNat = n := by
  have hread := accumulate_integerBytes number size littleEndian
  have hvalue : number.toNat % 256 ^ size % 2 ^ 64 = n := by
    rw [show number.toNat = n by omega, pow_256, Nat.mod_eq_of_lt hfit, Nat.mod_eq_of_lt (by omega)]
  rw [integerValue, hread, hvalue, roundDouble_of_lt hsmall]
  rfl

/-- A string behind its length. -/
theorem unpackItem_s (F : Ffi ν) {option : UInt8} (hs : option ∈ ascii "s") {s : LuaString} {size : Nat}
    (hfit : s.bytes.length < 2 ^ (8 * size)) (front suffix : Bytes) (littleEndian : Bool)
    (results : List Unpacked) :
    unpackItem F (front ++ (integerBytes (F.castInteger s.bytes.length) size littleEndian ++ s.bytes) ++ suffix)
        option size 1 ⟨littleEndian, 1⟩ ⟨front.length + 1, results⟩
      = .ok ⟨(front ++ (integerBytes (F.castInteger s.bytes.length) size littleEndian ++ s.bytes)).length + 1,
          results ++ [.string s.bytes]⟩ := by
  have hnot : option ∉ ascii "x" ∧ option ∉ ascii "z" ∧ option ∉ ascii "c" := by
    rw [show option = 115 from List.mem_singleton.mp hs]
    decide
  have hshort := s.length_lt
  have hnumber := F.castInteger_eq s.bytes.length (by omega) (by omega)
  generalize hlength : integerBytes (F.castInteger s.bytes.length) size littleEndian = length
  have hlen : length.length = size := by rw [← hlength, length_integerBytes]
  have hvalue : (integerValue length size littleEndian false).toNat = s.bytes.length := by
    rw [← hlength]
    exact integerValue_length hfit (by omega) hnumber littleEndian
  -- the length stands in front of the string, and both in front of the rest
  have hfirst : front ++ (length ++ s.bytes) ++ suffix = front ++ length ++ (s.bytes ++ suffix) := by
    simp only [List.append_assoc]
  have hsecond : front ++ (length ++ s.bytes) ++ suffix = front ++ length ++ s.bytes ++ suffix := by
    simp only [List.append_assoc]
  have hslice : slice (front ++ (length ++ s.bytes) ++ suffix) (front.length + 1) size = length := by
    rw [hfirst]
    exact slice_append front length _ hlen
  have hstring : slice (front ++ (length ++ s.bytes) ++ suffix) (front.length + 1 + size) s.bytes.length = s.bytes := by
    rw [hsecond, show front.length + 1 + size = (front ++ length).length + 1 by
      rw [List.length_append, hlen]; omega]
    exact slice_append (front ++ length) s.bytes suffix rfl
  have htotal : (front ++ (length ++ s.bytes) ++ suffix).length
      = front.length + size + s.bytes.length + suffix.length := by
    simp only [List.length_append, hlen]
    omega
  simp only [unpackItem, padding_one, Nat.add_zero, if_neg hnot.1, if_neg hnot.2.1, if_neg hnot.2.2, if_pos hs,
    hslice, hvalue, hstring, htotal, UnpackState.push]
  rw [if_neg (by omega), if_neg (by omega)]
  congr 2
  simp only [List.length_append, hlen]
  omega

theorem isInteger_cases {option : UInt8} (h : isInteger option = true) :
    option ∉ ascii "x" ∧ option ∉ ascii "z" ∧ option ∉ ascii "c" ∧ option ∉ ascii "s" ∧ option ∉ ascii "f" ∧
      option ∉ ascii "dn" := by
  have hmem := of_decide_eq_true h
  have hall : ∀ b ∈ ascii "bBhHlLjJTiI", b ∉ ascii "x" ∧ b ∉ ascii "z" ∧ b ∉ ascii "c" ∧ b ∉ ascii "s" ∧
      b ∉ ascii "f" ∧ b ∉ ascii "dn" := by decide +kernel
  exact hall option hmem

/-- An integer. -/
theorem unpackItem_integer (F : Ffi ν) {option : UInt8} (h : isInteger option = true) {body : Bytes} {size : Nat}
    (hlen : body.length = size) (front suffix : Bytes) (littleEndian : Bool) (results : List Unpacked) :
    unpackItem F (front ++ body ++ suffix) option size 1 ⟨littleEndian, 1⟩ ⟨front.length + 1, results⟩
      = .ok ⟨(front ++ body).length + 1,
          results ++ [.number (integerValue body size littleEndian (isSigned option))]⟩ := by
  obtain ⟨hx, hz, hc, hs, hf, hd⟩ := isInteger_cases h
  have hshort := length_ok front body suffix hlen
  simp only [unpackItem, padding_one, Nat.add_zero, if_neg hx, if_neg hz, if_neg hc, if_neg hs, if_neg hf, if_neg hd,
    if_neg hshort, slice_append front body suffix hlen, UnpackState.push]
  rw [List.length_append, hlen, isSigned]
  congr 2
  omega

/-- The options with a string. -/
theorem body_string (F : Ffi ν) (option : UInt8) (width : Nat) (littleEndian : Bool) (s : LuaString) :
    (option ∈ ascii "z" → 0 ∉ s.bytes →
      Use.body F ⟨option, width, littleEndian, .string s⟩ = .ok (s.bytes ++ [0])) ∧
    (option ∈ ascii "c" → s.bytes.length = width →
      Use.body F ⟨option, width, littleEndian, .string s⟩ = .ok s.bytes) ∧
    (option ∈ ascii "s" → Use.body F ⟨option, width, littleEndian, .string s⟩
      = .ok (integerBytes (F.castInteger s.bytes.length) width littleEndian ++ s.bytes)) := by
  refine ⟨fun hz hzero => ?_, fun hc hlen => ?_, fun hs => ?_⟩
  · obtain rfl : option = 122 := List.mem_singleton.mp hz
    have hbody : Use.body F ⟨122, width, littleEndian, .string s⟩ =
        Except.map PackState.output (if 0 ∈ s.bytes then .error (ascii "string contains zeros")
          else .ok ⟨[] ++ (s.bytes ++ [0]), []⟩) := rfl
    rw [hbody, if_neg hzero]
    rfl
  · obtain rfl : option = 99 := List.mem_singleton.mp hc
    have hbody : Use.body F ⟨99, width, littleEndian, .string s⟩ =
        Except.map PackState.output (if s.bytes.length > width then .error (ascii "string longer than given size")
          else .ok ⟨[] ++ (s.bytes ++ List.replicate (width - s.bytes.length) 0), []⟩) := rfl
    rw [hbody, if_neg (by omega), hlen, Nat.sub_self]
    exact congrArg Except.ok (List.append_nil s.bytes)
  · obtain rfl : option = 115 := List.mem_singleton.mp hs
    rfl

theorem body_integer (F : Ffi ν) {option : UInt8} (h : isInteger option = true) (width : Nat) (littleEndian : Bool)
    (n : Int) : Use.body F ⟨option, width, littleEndian, .integer n⟩
      = .ok (integerBytes (F.castInteger n) width littleEndian) := by
  obtain ⟨hx, hz, hc, hs, hf, hd⟩ := isInteger_cases h
  rw [Use.body, packItem]
  simp only [if_neg hx, if_neg hz, if_neg hc, if_neg hs, if_neg hf, if_neg hd]
  rfl

/-- **An argument that fits** is packed, and read back as `returned` says. -/
theorem unpackItem_body (F : Ffi ν) {u : Use ν} (hfits : u.Fits) :
    ∃ body, u.body F = .ok body ∧ ∀ (front suffix : Bytes) (results : List Unpacked),
      unpackItem F (front ++ body ++ suffix) u.option u.width 1 ⟨u.littleEndian, 1⟩ ⟨front.length + 1, results⟩
        = .ok ⟨(front ++ body).length + 1, results ++ [u.returned F]⟩ := by
  obtain ⟨option, width, littleEndian, argument⟩ := u
  cases argument with
  | nil => exact hfits.elim
  | other v => exact hfits.elim
  | integer n =>
      refine ⟨_, body_integer F hfits.1 width littleEndian n, fun front suffix results => ?_⟩
      exact unpackItem_integer F hfits.1 (length_integerBytes _ _ _) front suffix littleEndian results
  | string s =>
      obtain ⟨hbz, hbc, hbs⟩ := body_string F option width littleEndian s
      rcases hfits with ⟨hz, hzero⟩ | ⟨hc, hlen⟩ | ⟨hs, hfit⟩
      · exact ⟨_, hbz hz hzero, fun front suffix results =>
          unpackItem_z F hz hzero front suffix width littleEndian results⟩
      · exact ⟨_, hbc hc hlen, fun front suffix results =>
          unpackItem_c F hc hlen front suffix littleEndian results⟩
      · exact ⟨_, hbs hs, fun front suffix results =>
          unpackItem_s F hs hfit front suffix littleEndian results⟩

/-! ## Reading a format back -/

/-- `string.unpack` at an option. -/
theorem step_unpack_item (F : Ffi ν) (data : Bytes) {d : Directive} (hitem : isItem d.option = true)
    (hsize : d.SizeOk) (w : Switches) (s : UnpackState) :
    d.step F refuseX (unpackItem F data) w s =
      (unpackItem F data d.option (d.width F) (d.alignment F) w s).map fun s => (w, s) := by
  rw [Directive.step, isSwitch_of_isItem hitem, if_neg Bool.false_ne_true, refuseX_of_isItem hitem]
  exact if_pos hsize

/-- `x` is skipped. -/
theorem unpackItem_x (F : Ffi ν) {option : UInt8} (hx : option ∈ ascii "x") (front suffix : Bytes) (size : Nat)
    (littleEndian : Bool) (results : List Unpacked) :
    unpackItem F (front ++ [0] ++ suffix) option size 1 ⟨littleEndian, 1⟩ ⟨front.length + 1, results⟩
      = .ok ⟨(front ++ [0]).length + 1, results⟩ := by
  have hshort : ¬ front.length + 1 > (front ++ [0] ++ suffix).length := by
    simp only [List.length_append, List.length_singleton]
    omega
  simp only [unpackItem, padding_one, Nat.add_zero, if_pos hx, if_neg hshort]
  rw [List.length_append, List.length_singleton]

/-- The position behind the output and the padding. -/
theorem unpackItem_padded (F : Ffi ν) (output body suffix : Bytes) (option : UInt8) (size alignment : Nat)
    (w : Switches) (results : List Unpacked) :
    unpackItem F (output ++ List.replicate (padding output.length alignment w.maximumAlignment) 0 ++ body ++ suffix)
        option size alignment w ⟨output.length + 1, results⟩
      = unpackItem F
        (output ++ List.replicate (padding output.length alignment w.maximumAlignment) 0 ++ body ++ suffix)
        option size 1 ⟨w.littleEndian, 1⟩
        ⟨(output ++ List.replicate (padding output.length alignment w.maximumAlignment) 0).length + 1, results⟩ := by
  rw [unpackItem_align]
  congr 2
  simp only [Nat.add_sub_cancel, List.length_append, List.length_replicate]
  omega

/-- **The walk back**: where every argument fits, `string.pack` appends bytes
to its output from which `string.unpack`, at the end of that output, reads the
arguments. -/
theorem walk_roundTrip (F : Ffi ν) {ds : List Directive} (h : ∀ d ∈ ds, d.Named) (hsize : ∀ d ∈ ds, d.SizeOk)
    (w : Switches) (s : PackState ν) (hfits : ∀ u ∈ uses F ds w s.arguments, u.Fits) :
    ∃ suffix arguments,
      walk F refuseX (packItem F) ds w s = .ok ⟨s.output ++ suffix, arguments⟩ ∧
      ∀ results, walk F refuseX (unpackItem F (s.output ++ suffix)) ds w ⟨s.output.length + 1, results⟩
        = .ok ⟨(s.output ++ suffix).length + 1,
            results ++ (uses F ds w s.arguments).map (Use.returned F)⟩ := by
  induction ds generalizing w s with
  | nil => exact ⟨[], s.arguments, by rw [List.append_nil]; rfl, fun results => by simp [walk, uses]⟩
  | cons d ds ih =>
      have htail : ∀ d ∈ ds, d.Named := fun d hd => h d (List.mem_cons_of_mem _ hd)
      have hsizes : ∀ d ∈ ds, d.SizeOk := fun d hd => hsize d (List.mem_cons_of_mem _ hd)
      have hok := hsize d List.mem_cons_self
      have hstep := step_pack F (h d List.mem_cons_self) w s
      simp only [walk]
      generalize d.step F refuseX (packItem F) w s = r at hstep
      cases hstep with
      | size e hbad => exact absurd hok hbad
      | refused e _ htakes hrefused =>
          rw [uses_cons_takes F htakes] at hfits
          obtain ⟨body, hbody, -⟩ := unpackItem_body F (hfits _ List.mem_cons_self)
          have hspec := body_spec F (u := ⟨d.option, d.width F, w.littleEndian, s.argument⟩) htakes
          rw [show Use.body F ⟨d.option, d.width F, w.littleEndian, s.argument⟩ = .ok body from hbody] at hspec
          exact absurd hrefused hspec.1
      | switch _ hswitch =>
          rw [uses_cons_switch F (takesArgument_of_isSwitch hswitch)] at hfits ⊢
          obtain ⟨suffix, arguments, hpack, hunpack⟩ := ih htail hsizes _ s hfits
          refine ⟨suffix, arguments, hpack, fun results => ?_⟩
          rw [Directive.step, if_pos hswitch, if_pos hok]
          exact hunpack results
      | x _ hx =>
          obtain ⟨htakes, hitem, hswitch⟩ := takesArgument_x hx
          rw [uses_cons_switch F htakes, Directive.switch_of_item F hswitch] at hfits ⊢
          obtain ⟨suffix, arguments, hpack, hunpack⟩ := ih htail hsizes w
            ⟨s.output ++ List.replicate (padding s.output.length (d.alignment F) w.maximumAlignment) 0 ++ [0],
              s.arguments⟩ hfits
          refine ⟨List.replicate (padding s.output.length (d.alignment F) w.maximumAlignment) 0 ++ [0] ++ suffix,
            arguments, ?_, fun results => ?_⟩
          · simp only [List.append_assoc] at hpack ⊢
            exact hpack
          · simp only [← List.append_assoc]
            rw [step_unpack_item F _ hitem hok, unpackItem_padded, unpackItem_x F hx]
            exact hunpack results
      | takes _ htakes body hbody =>
          obtain ⟨-, -, hitem⟩ := takesArgument_cases htakes
          rw [uses_cons_takes F htakes] at hfits ⊢
          obtain ⟨body', hbody', hread⟩ := unpackItem_body F (hfits _ List.mem_cons_self)
          obtain rfl : body = body' := Except.ok.inj (hbody.symm.trans hbody')
          obtain ⟨suffix, arguments, hpack, hunpack⟩ := ih htail hsizes w
            ⟨s.output ++ List.replicate (padding s.output.length (d.alignment F) w.maximumAlignment) 0 ++ body,
              s.arguments.tail⟩ fun u hu => hfits u (List.mem_cons_of_mem _ hu)
          refine ⟨List.replicate (padding s.output.length (d.alignment F) w.maximumAlignment) 0 ++ body ++ suffix,
            arguments, ?_, fun results => ?_⟩
          · simp only [List.append_assoc] at hpack ⊢
            exact hpack
          · simp only [← List.append_assoc]
            rw [step_unpack_item F _ hitem hok, unpackItem_padded, hread]
            have hrest := hunpack (results ++ [Use.returned F
              ⟨d.option, d.width F, w.littleEndian, s.arguments.headD .nil⟩])
            rw [List.append_assoc results] at hrest
            exact hrest

/-! ## Whole calls -/

/-- An integer or a string. -/
inductive PackValue where
  | integer (n : Int)
  | string (s : LuaString)
deriving DecidableEq

/-- The value as an argument. -/
def PackValue.argument : PackValue → PackArg ν
  | .integer n => .integer n
  | .string s => .string s

/-- The value as a result. -/
def PackValue.unpacked : PackValue → Unpacked
  | .integer n => .number n
  | .string s => .string s.bytes

/-- What should come back of an argument. -/
def PackArg.unpacked : PackArg ν → Unpacked
  | .integer n => .number n
  | .string s => .string s.bytes
  | _ => .number 0

theorem map_unpacked (values : List PackValue) :
    values.map PackValue.unpacked = (values.map (PackValue.argument (ν := ν))).map PackArg.unpacked := by
  rw [List.map_map]
  refine List.map_congr_left fun v _ => ?_
  cases v <;> rfl

/-- Every argument is used, in order. -/
theorem map_argument_uses (F : Ffi ν) (ds : List Directive) (w : Switches) (arguments : List (PackArg ν))
    (hcount : (uses F ds w arguments).length = arguments.length) :
    (uses F ds w arguments).map Use.argument = arguments := by
  induction ds generalizing w arguments with
  | nil => exact (List.length_eq_zero_iff.mp hcount.symm).symm
  | cons d ds ih =>
      cases htakes : takesArgument d.option with
      | false =>
          rw [uses_cons_switch F htakes] at hcount ⊢
          exact ih _ _ hcount
      | true =>
          rw [uses_cons_takes F htakes] at hcount ⊢
          cases arguments with
          | nil => contradiction
          | cons argument arguments =>
              rw [List.map_cons]
              exact congrArg (argument :: ·) (ih w arguments (Nat.succ.inj hcount))

theorem mem_uses (F : Ffi ν) {ds : List Directive} {w : Switches} {arguments : List (PackArg ν)} {u : Use ν}
    (h : u ∈ uses F ds w arguments) : ∃ d ∈ ds, u.option = d.option ∧ u.width = d.width F := by
  induction ds generalizing w arguments with
  | nil => exact absurd h List.not_mem_nil
  | cons d ds ih =>
      cases htakes : takesArgument d.option with
      | false =>
          rw [uses_cons_switch F htakes] at h
          obtain ⟨d', hd', heq⟩ := ih h
          exact ⟨d', List.mem_cons_of_mem _ hd', heq⟩
      | true =>
          rw [uses_cons_takes F htakes, List.mem_cons] at h
          rcases h with rfl | h
          · exact ⟨d, List.mem_cons_self, rfl, rfl⟩
          · obtain ⟨d', hd', heq⟩ := ih h
            exact ⟨d', List.mem_cons_of_mem _ hd', heq⟩

/-- An integer option is a byte wide at least. -/
theorem one_le_width (F : Ffi ν) {d : Directive} (hinteger : isInteger d.option = true) (hsize : d.SizeOk) :
    1 ≤ d.width F := by
  obtain ⟨option, digits⟩ := d
  have hlong := F.sizeofLong_eq
  have hnumber : 1 ≤ (⟨option, digits⟩ : Directive).number 4 := by
    rw [Directive.number]
    split_ifs with hnil
    · decide
    · exact (hsize hnil).1
  have hmem := of_decide_eq_true hinteger
  have hlist : ascii "bBhHlLjJTiI" = [98, 66, 104, 72, 108, 76, 106, 74, 84, 105, 73] := by decide
  dsimp only at hmem
  rw [hlist] at hmem
  simp only [List.mem_cons, List.not_mem_nil, or_false] at hmem
  rcases hmem with rfl | rfl | rfl | rfl | rfl | rfl | rfl | rfl | rfl | rfl | rfl
  · exact Nat.le_refl 1
  · exact Nat.le_refl 1
  · exact Nat.le_succ 1
  · exact Nat.le_succ 1
  · exact show 1 ≤ F.sizeofLong by omega
  · exact show 1 ≤ F.sizeofLong by omega
  · exact show 1 ≤ 8 by decide
  · exact show 1 ≤ 8 by decide
  · exact show 1 ≤ 8 by decide
  · exact hnumber
  · exact hnumber

/-- An argument comes back if it is a string, or an integer that converts. -/
theorem returned_eq_iff (F : Ffi ν) {u : Use ν} (hfits : u.Fits) (hone : isInteger u.option = true → 1 ≤ u.width) :
    u.returned F = u.argument.unpacked ↔
      ∀ n, u.argument = .integer n → Converts u.width (isSigned u.option) n := by
  obtain ⟨option, width, littleEndian, argument⟩ := u
  cases argument with
  | nil => exact hfits.elim
  | other v => exact hfits.elim
  | string s => exact iff_of_true rfl fun n hn => by contradiction
  | integer n =>
      obtain ⟨hinteger, hreadable⟩ := hfits
      have hexact := hreadable.exact
      have hback := integerValue_integerBytes (hone hinteger) hreadable
        (F.castInteger_eq n (by omega) (by omega)) littleEndian
      constructor
      · intro heq n' hn'
        obtain rfl := PackArg.integer.inj hn'
        exact hback.mp (Unpacked.number.inj heq)
      · intro h
        exact congrArg Unpacked.number (hback.mpr (h n rfl))

theorem normalizePosition_none (data : Bytes) : normalizePosition data none = .ok 1 := by
  have hin : ¬ ((1 : Int) < 1 ∨ (1 : Int) > data.length + 1) := by omega
  simp only [normalizePosition, Option.getD_none, show ¬ (1 : Int) < 0 by decide, if_false, hin]
  rfl

/-- **Round trip.**  For every format of the options and every list of
arguments, each of which fits its option, `string.unpack` of what
`string.pack` made returns the arguments and the position behind the data,
exactly if every number in the format is between 1 and 16 and every negative
integer has an option of up to six bytes or of eight, or of seven bytes and is
a multiple of 8. -/
theorem pack_unpack_iff (F : Ffi ν) {ds : List Directive} (h : ∀ d ∈ ds, d.Named) (values : List PackValue)
    (hcount : (uses F ds F.switches (values.map PackValue.argument)).length = values.length)
    (hfits : ∀ u ∈ uses F ds F.switches (values.map PackValue.argument), u.Fits) :
    (∃ data, pack F (spell ds) (values.map PackValue.argument) = .ok data ∧
      unpack F (spell ds) data none = .ok (values.map PackValue.unpacked ++ [.number (data.length + 1)])) ↔
    (∀ d ∈ ds, d.SizeOk) ∧ ∀ u ∈ uses F ds F.switches (values.map PackValue.argument),
      ∀ n, u.argument = .integer n → Converts u.width (isSigned u.option) n := by
  have harguments := map_argument_uses F ds F.switches (values.map PackValue.argument) (by simpa using hcount)
  by_cases hsize : ∀ d ∈ ds, d.SizeOk
  · obtain ⟨data, arguments, hpack, hunpack⟩ := walk_roundTrip F h hsize F.switches ⟨[], values.map PackValue.argument⟩ hfits
    simp only [List.nil_append, List.length_nil, Nat.zero_add] at hpack hunpack
    have hdata : pack F (spell ds) (values.map PackValue.argument) = .ok data := by
      rw [pack_spell F h, hpack]
      rfl
    have hback : unpack F (spell ds) data none = .ok
        ((uses F ds F.switches (values.map PackValue.argument)).map (Use.returned F) ++ [.number (data.length + 1)]) := by
      rw [unpack, normalizePosition_none]
      simp only [formatLoop_spell F refuseX (unpackItem F data) h, hunpack]
      rfl
    have hexpected : values.map PackValue.unpacked
        = (uses F ds F.switches (values.map PackValue.argument)).map fun u => u.argument.unpacked :=
      calc values.map PackValue.unpacked
        _ = (values.map PackValue.argument).map PackArg.unpacked := map_unpacked values
        _ = ((uses F ds F.switches (values.map PackValue.argument)).map Use.argument).map PackArg.unpacked := by
            rw [harguments]
        _ = _ := List.map_map
    have hone : ∀ u ∈ uses F ds F.switches (values.map PackValue.argument), isInteger u.option = true → 1 ≤ u.width := by
      intro u hu hinteger
      obtain ⟨d, hd, hoption, hwidth⟩ := mem_uses F hu
      rw [hwidth]
      exact one_le_width F (hoption ▸ hinteger) (hsize d hd)
    constructor
    · rintro ⟨data', hdata', hback'⟩
      obtain rfl := Except.ok.inj (hdata.symm.trans hdata')
      have hlist := Except.ok.inj (hback.symm.trans hback')
      rw [List.append_cancel_right_eq, hexpected, List.map_inj_left] at hlist
      exact ⟨hsize, fun u hu => (returned_eq_iff F (hfits u hu) (hone u hu)).mp (hlist u hu)⟩
    · rintro ⟨-, hconverts⟩
      refine ⟨data, hdata, hback.trans ?_⟩
      rw [hexpected, List.map_congr_left fun u hu => (returned_eq_iff F (hfits u hu) (hone u hu)).mpr (hconverts u hu)]
  · refine iff_of_false ?_ fun hall => hsize hall.1
    rintro ⟨data, hdata, -⟩
    obtain ⟨d, hd, hbad⟩ : ∃ d ∈ ds, ¬ d.SizeOk := by
      by_contra hnone
      exact hsize fun d hd => by_contra fun hbad => hnone ⟨d, hd, hbad⟩
    obtain ⟨e, he⟩ := (pack_raises F h (values.map PackValue.argument)).mpr (.inl ⟨d, hd, hbad⟩)
    rw [hdata] at he
    contradiction

theorem length_sampleText : (ascii "ab").length < 2 ^ 31 := by decide

/-- Values for `<I2 s1`. -/
def sampleValues : List PackValue := [.integer 258, .string ⟨ascii "ab", length_sampleText⟩]

theorem pack_unpack_iff_sample :
    ∃ data, pack sampleFfi (spell sampleFormat) (sampleValues.map PackValue.argument) = .ok data ∧
      unpack sampleFfi (spell sampleFormat) data none
        = .ok (sampleValues.map PackValue.unpacked ++ [.number (data.length + 1)]) := by
  have huses : uses sampleFfi sampleFormat sampleFfi.switches (sampleValues.map PackValue.argument) =
      [⟨73, 2, true, .integer 258⟩, ⟨115, 1, true, .string ⟨ascii "ab", length_sampleText⟩⟩] := rfl
  refine (pack_unpack_iff sampleFfi sampleFormat_named sampleValues rfl ?_).mpr ⟨by decide, ?_⟩
  · intro u hu
    rw [huses] at hu
    simp only [List.mem_cons, List.not_mem_nil, or_false] at hu
    rcases hu with rfl | rfl
    · exact ⟨by decide, by decide, by decide⟩
    · exact .inr (.inr ⟨by decide, by decide⟩)
  · intro u hu n hn
    rw [huses] at hu
    simp only [List.mem_cons, List.not_mem_nil, or_false] at hu
    rcases hu with rfl | rfl
    · obtain rfl := PackArg.integer.inj hn
      exact .of_nonneg (by decide)
    · contradiction

/-- **Minus one through seven bytes** comes back as zero. -/
theorem unpack_seven_loses_sign :
    ¬ ∀ (F : Ffi Empty) (ds : List Directive), (∀ d ∈ ds, d.Named) → (∀ d ∈ ds, d.SizeOk) →
      ∀ values : List PackValue,
        (uses F ds F.switches (values.map PackValue.argument)).length = values.length →
        (∀ u ∈ uses F ds F.switches (values.map PackValue.argument), u.Fits) →
        ∃ data, pack F (spell ds) (values.map PackValue.argument) = .ok data ∧
          unpack F (spell ds) data none = .ok (values.map PackValue.unpacked ++ [.number (data.length + 1)]) := by
  intro h
  have hnamed : ∀ d ∈ [(⟨105, ascii "7"⟩ : Directive)], d.Named := by
    intro d hd
    rw [List.mem_singleton.mp hd]
    refine ⟨⟨?_, ?_, ?_, ?_⟩, ?_⟩ <;> decide +kernel
  have huses : uses sampleFfi [⟨105, ascii "7"⟩] sampleFfi.switches ([PackValue.integer (-1)].map PackValue.argument) =
      [⟨105, 7, true, .integer (-1)⟩] := rfl
  obtain ⟨data, hpack, hunpack⟩ := h sampleFfi [⟨105, ascii "7"⟩] hnamed (by decide) [.integer (-1)] rfl (by
    intro u hu
    rw [huses] at hu
    rw [List.mem_singleton.mp hu]
    exact ⟨by decide, by decide, by decide⟩)
  have hdata : pack sampleFfi (spell [⟨105, ascii "7"⟩]) ([PackValue.integer (-1)].map PackValue.argument)
      = .ok [255, 255, 255, 255, 255, 255, 255] := by decide
  obtain rfl := Except.ok.inj (hdata.symm.trans hpack)
  have hzero : unpack sampleFfi (spell [⟨105, ascii "7"⟩]) [255, 255, 255, 255, 255, 255, 255] none
      = .ok [.number 0, .number 8] := by decide
  rw [hzero] at hunpack
  exact absurd hunpack (by decide)

end SkynetJit.Compat
