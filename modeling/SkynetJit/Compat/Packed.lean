import SkynetJit.Compat.Format

/-!
# SkynetJit.Compat.Packed

When `string.pack` raises, and how long its result is.

It looks at no range: an integer that its option cannot hold is cut to the
width of the option, and so is the length of a string that its prefix cannot
hold.  Numbers in a format end at 16 wherever they stand, so `c` takes none
beyond.
-/

namespace SkynetJit.Compat

variable {ν : Type}

/-- `string.pack` refuses the argument: a string with a zero for `z`, one that
is too long for `c`, or a value that does not convert. -/
def Use.Refused (F : Ffi ν) (u : Use ν) : Prop :=
  if u.option ∈ ascii "z" then 0 ∈ F.tostring u.argument
  else if u.option ∈ ascii "c" then u.width < (F.tostring u.argument).length
  else if u.option ∈ ascii "s" then False
  else if u.option ∈ ascii "f" then ∃ e, F.float u.argument = .error e
  else if u.option ∈ ascii "dn" then ∃ e, F.double u.argument = .error e
  else ∃ e, F.cast u.argument = .error e

/-- An integer outside the range of its option, or a string longer than its
prefix can express. -/
def Use.Truncated (F : Ffi ν) (u : Use ν) : Prop :=
  (isInteger u.option ∧ ∃ n, u.argument = .integer n ∧ ¬ u.InRange n) ∨
    (u.option ∈ ascii "s" ∧ 2 ^ (8 * u.width) ≤ (F.tostring u.argument).length)

@[simp] theorem length_integerBytes (number : UInt64) (size : Nat) (littleEndian : Bool) :
    (integerBytes number size littleEndian).length = size := by
  rw [integerBytes]
  split <;> simp

@[simp] theorem length_order (F : Ffi ν) (littleEndian : Bool) (bytes : Bytes) :
    (F.order littleEndian bytes).length = bytes.length := by
  rw [Ffi.order]
  split <;> simp

/-- The widths of floats are their own. -/
def Use.FloatWidth (u : Use ν) : Prop :=
  (u.option ∈ ascii "f" → u.width = 4) ∧ (u.option ∈ ascii "dn" → u.width = 8)

/-- **The bytes of an argument**: none if it is refused, else as many as the
option is wide unless it is `z` or `s`. -/
theorem body_spec (F : Ffi ν) {u : Use ν} (h : takesArgument u.option = true) :
    match u.body F with
    | .error _ => u.Refused F
    | .ok body => ¬ u.Refused F ∧ (u.option ∉ ascii "sz" → u.FloatWidth → body.length = u.width) := by
  obtain ⟨option, width, littleEndian, argument⟩ := u
  have hx := (takesArgument_cases h).2.1
  have hpad : List.replicate (padding ([] : Bytes).length 1 1) (0 : UInt8) = [] := rfl
  dsimp only at h hx
  rw [Use.body, packItem]
  simp only [if_neg hx, hpad, PackState.append, PackState.next, PackState.argument, List.headD_cons,
    List.nil_append, Use.Refused]
  by_cases hz : option ∈ ascii "z"
  · have hsz : option ∈ ascii "sz" := List.mem_cons_of_mem _ hz
    simp only [if_pos hz]
    by_cases hzero : 0 ∈ F.tostring argument
    · simp only [hzero, if_true, Except.map]
    · simp only [hzero, if_false, Except.map]
      exact ⟨not_false, fun hnot => absurd hsz hnot⟩
  simp only [if_neg hz]
  by_cases hc : option ∈ ascii "c"
  · simp only [if_pos hc]
    by_cases hlong : (F.tostring argument).length > width
    · simp only [hlong, if_true, Except.map]
    · simp only [hlong, if_false, Except.map]
      refine ⟨not_false, fun _ _ => ?_⟩
      rw [List.length_append, List.length_replicate]
      omega
  simp only [if_neg hc]
  by_cases hs : option ∈ ascii "s"
  · have hsz : option ∈ ascii "sz" := by
      rw [show option = 115 from List.mem_singleton.mp hs]
      decide
    simp only [if_pos hs, Except.map]
    exact ⟨not_false, fun hnot => absurd hsz hnot⟩
  simp only [if_neg hs]
  by_cases hf : option ∈ ascii "f"
  · simp only [if_pos hf]
    cases hfloat : F.float argument with
    | error e => exact ⟨e, rfl⟩
    | ok bytes =>
        refine ⟨by rintro ⟨_, he⟩; contradiction, fun _ hwidth => ?_⟩
        have hfour : width = 4 := hwidth.1 hf
        rw [hfour]
        simp only [length_order, Vector.length_toList]
  simp only [if_neg hf]
  by_cases hd : option ∈ ascii "dn"
  · simp only [if_pos hd]
    cases hdouble : F.double argument with
    | error e => exact ⟨e, rfl⟩
    | ok bytes =>
        refine ⟨by rintro ⟨_, he⟩; contradiction, fun _ hwidth => ?_⟩
        have height : width = 8 := hwidth.2 hd
        rw [height]
        simp only [length_order, Vector.length_toList]
  simp only [if_neg hd]
  cases hcast : F.cast argument with
  | error e => exact ⟨e, rfl⟩
  | ok number =>
      refine ⟨by rintro ⟨_, he⟩; contradiction, fun _ _ => ?_⟩
      simp only [length_integerBytes]

/-! ## One directive -/

theorem refuseX_of_isItem {option : UInt8} (h : isItem option = true) : refuseX option = none := by
  rw [refuseX, if_neg]
  have hmem := of_decide_eq_true h
  have hall : ∀ b ∈ ascii "bBhHlLjJTiIfdncszx", b ∉ ascii "X" := by decide +kernel
  exact hall option hmem

/-- `string.pack` at an option. -/
theorem step_pack_item (F : Ffi ν) {d : Directive} (hitem : isItem d.option = true) (w : Switches)
    (s : PackState ν) :
    d.step F refuseX (packItem F) w s = if d.SizeOk then
      (packItem F d.option (d.width F) (d.alignment F) w s).map fun s => (w, s)
      else .error (ascii "invalid format size") := by
  rw [Directive.step, isSwitch_of_isItem hitem, if_neg Bool.false_ne_true, refuseX_of_isItem hitem]

theorem Directive.switch_of_item (F : Ffi ν) {d : Directive} (h : isSwitch d.option = false) (w : Switches) :
    d.switch F w = w := by
  obtain ⟨-, hlt, hgt, heq, hbang⟩ := not_mem_of_isSwitch h
  rw [Directive.switch, if_neg hlt, if_neg hgt, if_neg heq, if_neg hbang]

theorem takesArgument_of_isSwitch {option : UInt8} (h : isSwitch option = true) : takesArgument option = false := by
  cases htakes : takesArgument option with
  | false => rfl
  | true =>
      rw [(takesArgument_cases htakes).1] at h
      contradiction

theorem takesArgument_x {option : UInt8} (h : option ∈ ascii "x") :
    takesArgument option = false ∧ isItem option = true ∧ isSwitch option = false := by
  rw [show option = 120 from List.mem_singleton.mp h]
  decide

/-- What `string.pack` does at a directive. -/
inductive PackStep (F : Ffi ν) (d : Directive) (w : Switches) (s : PackState ν) :
    Except PackError (Switches × PackState ν) → Prop where
  | size (e : PackError) (h : ¬ d.SizeOk) : PackStep F d w s (.error e)
  | refused (e : PackError) (h : d.SizeOk) (htakes : takesArgument d.option = true)
      (hrefused : Use.Refused F ⟨d.option, d.width F, w.littleEndian, s.argument⟩) : PackStep F d w s (.error e)
  | switch (h : d.SizeOk) (hswitch : isSwitch d.option = true) : PackStep F d w s (.ok (d.switch F w, s))
  | x (h : d.SizeOk) (hx : d.option ∈ ascii "x") :
      PackStep F d w s (.ok (w, ⟨s.output ++
        List.replicate (padding s.output.length (d.alignment F) w.maximumAlignment) 0 ++ [0], s.arguments⟩))
  | takes (h : d.SizeOk) (htakes : takesArgument d.option = true) (body : Bytes)
      (hbody : Use.body F ⟨d.option, d.width F, w.littleEndian, s.argument⟩ = .ok body) :
      PackStep F d w s (.ok (w, ⟨s.output ++
        List.replicate (padding s.output.length (d.alignment F) w.maximumAlignment) 0 ++ body, s.arguments.tail⟩))

/-- **`string.pack` at a directive.** -/
theorem step_pack (F : Ffi ν) {d : Directive} (h : d.Named) (w : Switches) (s : PackState ν) :
    PackStep F d w s (d.step F refuseX (packItem F) w s) := by
  rcases h.cases with hswitch | hx | htakes
  · rw [Directive.step, if_pos hswitch]
    split_ifs with hsize
    · exact .switch hsize hswitch
    · exact .size _ hsize
  · rw [step_pack_item F (takesArgument_x hx).2.1]
    split_ifs with hsize
    · obtain ⟨output, arguments⟩ := s
      rw [packItem_x F hx]
      exact .x hsize hx
    · exact .size _ hsize
  · rw [step_pack_item F (takesArgument_cases htakes).2.2]
    split_ifs with hsize
    · obtain ⟨output, arguments⟩ := s
      rw [packItem_takes F htakes]
      have hspec := body_spec F (u := ⟨d.option, d.width F, w.littleEndian, arguments.headD .nil⟩) htakes
      cases hbody : Use.body F ⟨d.option, d.width F, w.littleEndian, arguments.headD .nil⟩ with
      | error e =>
          rw [hbody] at hspec
          exact .refused e hsize htakes hspec
      | ok body => exact .takes hsize htakes body hbody
    · exact .size _ hsize

/-- What follows a directive is walked with these switches. -/
theorem uses_cons_switch (F : Ffi ν) {d : Directive} (h : takesArgument d.option = false) (ds : List Directive)
    (w : Switches) (arguments : List (PackArg ν)) :
    uses F (d :: ds) w arguments = uses F ds (d.switch F w) arguments := by
  rw [uses, h, if_neg Bool.false_ne_true]

theorem uses_cons_takes (F : Ffi ν) {d : Directive} (h : takesArgument d.option = true) (ds : List Directive)
    (w : Switches) (arguments : List (PackArg ν)) :
    uses F (d :: ds) w arguments
      = ⟨d.option, d.width F, w.littleEndian, arguments.headD .nil⟩ :: uses F ds w arguments.tail := by
  rw [uses, if_pos h]

/-- **`string.pack` raises** exactly if a number is out of range or an argument
is refused. -/
theorem walk_pack_raises (F : Ffi ν) {ds : List Directive} (h : ∀ d ∈ ds, d.Named) (w : Switches)
    (s : PackState ν) :
    (∃ e, walk F refuseX (packItem F) ds w s = .error e) ↔
      (∃ d ∈ ds, ¬ d.SizeOk) ∨ ∃ u ∈ uses F ds w s.arguments, u.Refused F := by
  induction ds generalizing w s with
  | nil => simp [walk, uses]
  | cons d ds ih =>
      have htail : ∀ d ∈ ds, d.Named := fun d hd => h d (List.mem_cons_of_mem _ hd)
      have hstep := step_pack F (h d List.mem_cons_self) w s
      rw [walk, List.exists_mem_cons_iff]
      generalize d.step F refuseX (packItem F) w s = r at hstep
      cases hstep with
      | size e hsize => exact iff_of_true ⟨e, rfl⟩ (.inl (.inl hsize))
      | refused e hsize htakes hrefused =>
          rw [uses_cons_takes F htakes]
          exact iff_of_true ⟨e, rfl⟩ (.inr ⟨_, List.mem_cons_self, hrefused⟩)
      | switch hsize hswitch =>
          rw [uses_cons_switch F (takesArgument_of_isSwitch hswitch)]
          simp only [hsize, not_true, false_or]
          exact ih htail _ _
      | x hsize hx =>
          obtain ⟨htakes, -, hswitch⟩ := takesArgument_x hx
          rw [uses_cons_switch F htakes, Directive.switch_of_item F hswitch]
          simp only [hsize, not_true, false_or]
          exact ih htail _ _
      | takes hsize htakes body hbody =>
          have hspec := body_spec F (u := ⟨d.option, d.width F, w.littleEndian, s.argument⟩) htakes
          rw [hbody] at hspec
          rw [uses_cons_takes F htakes, List.exists_mem_cons_iff]
          simp only [hsize, not_true, false_or]
          have hnot : ¬ Use.Refused F ⟨d.option, d.width F, w.littleEndian, s.arguments.headD .nil⟩ := hspec.1
          simp only [hnot, false_or]
          exact ih htail _ _

theorem pack_spell (F : Ffi ν) {ds : List Directive} (h : ∀ d ∈ ds, d.Named) (arguments : List (PackArg ν)) :
    pack F (spell ds) arguments
      = (walk F refuseX (packItem F) ds F.switches ⟨[], arguments⟩).map PackState.output := by
  rw [pack, formatLoop_spell F refuseX (packItem F) h]

theorem pack_raises (F : Ffi ν) {ds : List Directive} (h : ∀ d ∈ ds, d.Named) (arguments : List (PackArg ν)) :
    (∃ e, pack F (spell ds) arguments = .error e) ↔
      (∃ d ∈ ds, ¬ d.SizeOk) ∨ ∃ u ∈ uses F ds F.switches arguments, u.Refused F := by
  rw [pack_spell F h, ← walk_pack_raises F h F.switches ⟨[], arguments⟩]
  cases walk F refuseX (packItem F) ds F.switches ⟨[], arguments⟩ with
  | error e => exact iff_of_true ⟨e, rfl⟩ ⟨e, rfl⟩
  | ok s => exact iff_of_false (fun ⟨_, he⟩ => by contradiction) fun ⟨_, he⟩ => by contradiction

/-! ## No range is checked -/

/-- **Values out of range are packed.**  For every format of the options and
every argument list, `string.pack` raises for a value that its option cannot
hold exactly if there is none, or if the call is refused for another reason:
a number in the format out of range, a string with a zero for `z`, one too
long for `c`, or a value that does not convert. -/
theorem pack_truncates_iff (F : Ffi ν) {ds : List Directive} (h : ∀ d ∈ ds, d.Named)
    (arguments : List (PackArg ν)) :
    ((∃ u ∈ uses F ds F.switches arguments, u.Truncated F) → ∃ e, pack F (spell ds) arguments = .error e) ↔
      (¬ ∃ u ∈ uses F ds F.switches arguments, u.Truncated F) ∨
        (∃ d ∈ ds, ¬ d.SizeOk) ∨ ∃ u ∈ uses F ds F.switches arguments, u.Refused F := by
  rw [pack_raises F h]
  exact imp_iff_not_or

/-- An FFI library on a 64-bit little-endian machine that converts only
integers. -/
def sampleFfi : Ffi Empty where
  littleEndian := true
  sizeofLong := 8
  sizeofLong_eq := .inr rfl
  sizeofSizeT := 8
  sizeofSizeT_eq := .inr rfl
  sizeofPointer := 8
  text := fun _ => ascii "nil"
  castInteger := fun n => UInt64.ofNat (n % 2 ^ 64).toNat
  castInteger_eq := fun n _ _ => by
    rw [UInt64.toNat_ofNat']
    omega
  castOther := fun _ => .error (ascii "cannot convert")
  float := fun _ => .error (ascii "cannot convert")
  double := fun _ => .error (ascii "cannot convert")

/-- `<I2 s1`. -/
def sampleFormat : List Directive := [⟨60, []⟩, ⟨73, ascii "2"⟩, ⟨32, []⟩, ⟨115, ascii "1"⟩]

theorem sampleFormat_named : ∀ d ∈ sampleFormat, d.Named := by
  intro d hd
  simp only [sampleFormat, List.mem_cons, List.not_mem_nil, or_false] at hd
  rcases hd with rfl | rfl | rfl | rfl
  all_goals refine ⟨⟨?_, ?_, ?_, ?_⟩, ?_⟩ <;> decide +kernel

/-- Arguments that fit. -/
def sampleArguments : List (PackArg Empty) := [.integer 258, .string ⟨ascii "ab", by decide⟩]

theorem pack_truncates_iff_sample :
    ((∃ u ∈ uses sampleFfi sampleFormat sampleFfi.switches sampleArguments, u.Truncated sampleFfi) →
        ∃ e, pack sampleFfi (spell sampleFormat) sampleArguments = .error e) ↔
      (¬ ∃ u ∈ uses sampleFfi sampleFormat sampleFfi.switches sampleArguments, u.Truncated sampleFfi) ∨
        (∃ d ∈ sampleFormat, ¬ d.SizeOk) ∨
        ∃ u ∈ uses sampleFfi sampleFormat sampleFfi.switches sampleArguments, u.Refused sampleFfi :=
  pack_truncates_iff sampleFfi sampleFormat_named sampleArguments

/-- **A truncated integer**: `B` packs 256 as a zero byte. -/
theorem pack_truncates_byte :
    ¬ ∀ (F : Ffi Empty) (ds : List Directive), (∀ d ∈ ds, d.Named) → ∀ arguments : List (PackArg Empty),
      (∃ u ∈ uses F ds F.switches arguments, u.Truncated F) → ∃ e, pack F (spell ds) arguments = .error e := by
  intro h
  have hnamed : ∀ d ∈ [(⟨66, []⟩ : Directive)], d.Named := by
    intro d hd
    rw [List.mem_singleton.mp hd]
    refine ⟨⟨?_, ?_, ?_, ?_⟩, ?_⟩ <;> decide +kernel
  obtain ⟨e, he⟩ := h sampleFfi [⟨66, []⟩] hnamed [.integer 256]
    ⟨⟨66, 1, true, .integer 256⟩, by exact List.mem_singleton.mpr rfl, .inl ⟨by decide, 256, rfl, by decide⟩⟩
  have hpack : pack sampleFfi (spell [⟨66, []⟩]) [.integer 256] = .ok [0] := by decide
  rw [hpack] at he
  contradiction

/-! ## The size of a fixed format -/

/-- A directive of fixed size. -/
structure Directive.Fixed (d : Directive) : Prop extends d.Named where
  fixed : d.option ∉ ascii "sz"

theorem refuseVariable_of_fixed {option : UInt8} (h : isItem option = true) (hfixed : option ∉ ascii "sz") :
    refuseVariable option = none := by
  rw [refuseVariable, if_neg]
  have hmem := of_decide_eq_true h
  have hall : ∀ b ∈ ascii "bBhHlLjJTiIfdncszx", b ∉ ascii "sz" → b ∉ ascii "Xsz" := by decide +kernel
  exact hall option hmem hfixed

/-- `string.packsize` at a directive. -/
theorem step_packsize (F : Ffi ν) {d : Directive} (h : d.Fixed) (w : Switches) (total : Nat) :
    d.step F refuseVariable packsizeItem w total =
      if d.SizeOk then .ok (if isSwitch d.option then (d.switch F w, total)
        else (w, total + padding total (d.alignment F) w.maximumAlignment + d.width F))
      else .error (ascii "invalid format size") := by
  rw [Directive.step]
  cases hswitch : isSwitch d.option with
  | true => rfl
  | false =>
      have hitem : isItem d.option = true := h.named.resolve_left (by rw [hswitch]; exact Bool.false_ne_true)
      rw [if_neg Bool.false_ne_true, if_neg Bool.false_ne_true, refuseVariable_of_fixed hitem h.fixed]
      rfl

/-- `string.packsize` accepts a fixed format if its numbers are in range. -/
theorem walk_packsize (F : Ffi ν) {ds : List Directive} (h : ∀ d ∈ ds, d.Fixed) (w : Switches) (total : Nat) :
    (∃ n, walk F refuseVariable packsizeItem ds w total = .ok n) ↔ ∀ d ∈ ds, d.SizeOk := by
  induction ds generalizing w total with
  | nil => exact iff_of_true ⟨total, rfl⟩ fun d hd => absurd hd List.not_mem_nil
  | cons d ds ih =>
      have htail : ∀ d ∈ ds, d.Fixed := fun d hd => h d (List.mem_cons_of_mem _ hd)
      rw [walk, step_packsize F (h d List.mem_cons_self), List.forall_mem_cons]
      by_cases hsize : d.SizeOk
      · rw [if_pos hsize]
        simp only [hsize, true_and]
        exact ih htail _ _
      · rw [if_neg hsize]
        refine iff_of_false ?_ fun hall => hsize hall.1
        rintro ⟨_, hn⟩
        contradiction

theorem floatWidth_directive (F : Ffi ν) (d : Directive) (littleEndian : Bool) (argument : PackArg ν) :
    Use.FloatWidth ⟨d.option, d.width F, littleEndian, argument⟩ := by
  obtain ⟨option, digits⟩ := d
  constructor
  · intro hf
    obtain rfl := List.mem_singleton.mp hf
    rfl
  · intro hd
    have hlist : ascii "dn" = [100, 110] := by decide
    dsimp only at hd
    rw [hlist, List.mem_cons, List.mem_singleton] at hd
    rcases hd with rfl | rfl
    · rfl
    · rfl

/-- **`string.packsize` follows `string.pack`**: where the one returns, the
other counts its bytes. -/
theorem walk_pack_length (F : Ffi ν) {ds : List Directive} (h : ∀ d ∈ ds, d.Fixed) (w : Switches)
    {s s' : PackState ν} (hpack : walk F refuseX (packItem F) ds w s = .ok s') :
    walk F refuseVariable packsizeItem ds w s.output.length = .ok s'.output.length := by
  induction ds generalizing w s with
  | nil =>
      rw [walk, Except.ok.injEq] at hpack
      rw [walk, hpack]
  | cons d ds ih =>
      have hd := h d List.mem_cons_self
      have htail : ∀ d ∈ ds, d.Fixed := fun d hd => h d (List.mem_cons_of_mem _ hd)
      have hstep := step_pack F hd.toNamed w s
      rw [walk, step_packsize F hd]
      rw [walk] at hpack
      generalize d.step F refuseX (packItem F) w s = r at hstep hpack
      cases hstep with
      | size e hsize => contradiction
      | refused e hsize htakes hrefused => contradiction
      | switch hsize hswitch =>
          rw [if_pos hsize, if_pos hswitch]
          exact ih htail _ hpack
      | x hsize hx =>
          have hswitch := (takesArgument_x hx).2.2
          have hwidth : d.width F = 1 := by
            obtain ⟨option, digits⟩ := d
            obtain rfl := List.mem_singleton.mp hx
            rfl
          have hnext := ih htail _ hpack
          simp only [List.length_append, List.length_replicate, List.length_singleton] at hnext
          rw [if_pos hsize, hswitch, if_neg Bool.false_ne_true, hwidth]
          exact hnext
      | takes hsize htakes body hbody =>
          have hswitch := (takesArgument_cases htakes).1
          have hspec := body_spec F (u := ⟨d.option, d.width F, w.littleEndian, s.argument⟩) htakes
          rw [hbody] at hspec
          have hlen : body.length = d.width F := hspec.2 hd.fixed (floatWidth_directive F d _ _)
          have hnext := ih htail _ hpack
          simp only [List.length_append, List.length_replicate, hlen] at hnext
          rw [if_pos hsize, hswitch, if_neg Bool.false_ne_true]
          exact hnext

/-- **The size of a fixed format.**  `string.packsize` accepts it and agrees
with the length of whatever `string.pack` makes of arguments it does not
refuse, exactly if every number in the format is at most 16, and none is
zero. -/
theorem packsize_agrees_iff (F : Ffi ν) {ds : List Directive} (h : ∀ d ∈ ds, d.Fixed) :
    (∃ n, packsize F (spell ds) = .ok n ∧
      ∀ arguments : List (PackArg ν), (∀ u ∈ uses F ds F.switches arguments, ¬ u.Refused F) →
        ∃ data, pack F (spell ds) arguments = .ok data ∧ data.length = n) ↔
      ∀ d ∈ ds, d.SizeOk := by
  have hnamed : ∀ d ∈ ds, d.Named := fun d hd => (h d hd).toNamed
  have hsize : packsize F (spell ds) = walk F refuseVariable packsizeItem ds F.switches 0 :=
    formatLoop_spell F refuseVariable packsizeItem hnamed F.switches 0
  rw [hsize, ← walk_packsize F h F.switches 0]
  constructor
  · rintro ⟨n, hn, -⟩
    exact ⟨n, hn⟩
  · rintro ⟨n, hn⟩
    refine ⟨n, hn, fun arguments hsuitable => ?_⟩
    have hok := (walk_packsize F h F.switches 0).mp ⟨n, hn⟩
    rw [pack_spell F hnamed]
    cases hpack : walk F refuseX (packItem F) ds F.switches ⟨[], arguments⟩ with
    | error e =>
        rcases (walk_pack_raises F hnamed F.switches ⟨[], arguments⟩).mp ⟨e, hpack⟩ with ⟨d, hd, hbad⟩ | ⟨u, hu, hbad⟩
        · exact absurd (hok d hd) hbad
        · exact absurd hbad (hsuitable u hu)
    | ok s =>
        refine ⟨s.output, rfl, ?_⟩
        have hlen := walk_pack_length F h F.switches hpack
        rw [List.length_nil, hn] at hlen
        exact (Except.ok.inj hlen).symm

/-- `!4 b i4 c3`. -/
def fixedFormat : List Directive :=
  [⟨33, ascii "4"⟩, ⟨98, []⟩, ⟨32, []⟩, ⟨105, ascii "4"⟩, ⟨99, ascii "3"⟩]

theorem fixedFormat_fixed : ∀ d ∈ fixedFormat, d.Fixed := by
  intro d hd
  simp only [fixedFormat, List.mem_cons, List.not_mem_nil, or_false] at hd
  rcases hd with rfl | rfl | rfl | rfl | rfl
  all_goals refine ⟨⟨⟨?_, ?_, ?_, ?_⟩, ?_⟩, ?_⟩ <;> decide +kernel

theorem packsize_agrees_iff_sample : ∃ n, packsize sampleFfi (spell fixedFormat) = .ok n ∧
    ∀ arguments : List (PackArg Empty),
      (∀ u ∈ uses sampleFfi fixedFormat sampleFfi.switches arguments, ¬ u.Refused sampleFfi) →
        ∃ data, pack sampleFfi (spell fixedFormat) arguments = .ok data ∧ data.length = n :=
  (packsize_agrees_iff sampleFfi fixedFormat_fixed).mpr (by decide)

/-- **A fixed string of 17 bytes** has no size. -/
theorem packsize_refuses_c17 :
    ¬ ∀ (F : Ffi Empty) (ds : List Directive), (∀ d ∈ ds, d.Fixed) →
      ∃ n, packsize F (spell ds) = .ok n ∧
        ∀ arguments : List (PackArg Empty), (∀ u ∈ uses F ds F.switches arguments, ¬ u.Refused F) →
          ∃ data, pack F (spell ds) arguments = .ok data ∧ data.length = n := by
  intro h
  have hfixed : ∀ d ∈ [(⟨99, ascii "17"⟩ : Directive)], d.Fixed := by
    intro d hd
    rw [List.mem_singleton.mp hd]
    refine ⟨⟨⟨?_, ?_, ?_, ?_⟩, ?_⟩, ?_⟩ <;> decide +kernel
  obtain ⟨n, hn, -⟩ := h sampleFfi [⟨99, ascii "17"⟩] hfixed
  have herror : packsize sampleFfi (spell [⟨99, ascii "17"⟩]) = .error (ascii "invalid format size") := by
    decide
  rw [herror] at hn
  contradiction

end SkynetJit.Compat
