import SkynetJit.Compat.Pack

/-!
# SkynetJit.Compat.Format

Formats as lists of directives.  A directive is an option and the digits that
follow it; `spell` writes a list of them out.  `formatLoop` on what they spell
takes one `Directive.step` for each of them, which is how the results about
the three functions are proved.
-/

namespace SkynetJit.Compat

variable {ν σ : Type}

/-- An option with the digits of its number. -/
structure Directive where
  option : UInt8
  digits : Bytes
deriving DecidableEq, Repr

/-- The format that directives spell. -/
def spell : List Directive → Bytes
  | [] => []
  | d :: ds => d.option :: d.digits ++ spell ds

/-- The options that take a number. -/
def takesNumber (option : UInt8) : Bool := option ∈ ascii "iIcs!"

/-- A directive that is spelled well: its digits are digits, only where a
number can stand, and `c` has one. -/
structure Directive.Spelled (d : Directive) : Prop where
  option : isDigit d.option = false
  digits : ∀ b ∈ d.digits, isDigit b = true
  plain : takesNumber d.option = false → d.digits = []
  sized : d.option ∈ ascii "c" → d.digits ≠ []

/-- Every number written is one that `read_number` takes. -/
def Directive.SizeOk (d : Directive) : Prop := d.digits ≠ [] → 1 ≤ decimal d.digits ∧ decimal d.digits ≤ 16

instance (d : Directive) : Decidable d.SizeOk := inferInstanceAs (Decidable (_ → _))

/-- The number written, or the default. -/
def Directive.number (d : Directive) (default : Nat) : Nat :=
  if d.digits = [] then default else decimal d.digits

/-- The width of a directive. -/
def Directive.width (F : Ffi ν) (d : Directive) : Nat :=
  if d.option ∈ ascii "bBzx" then 1
  else if d.option ∈ ascii "hH" then 2
  else if d.option ∈ ascii "lL" then F.sizeofLong
  else if d.option ∈ ascii "iI" then d.number 4
  else if d.option ∈ ascii "f" then 4
  else if d.option ∈ ascii "c" then d.number 0
  else if d.option ∈ ascii "s" then d.number F.sizeofSizeT
  else 8

/-- The alignment of a directive. -/
def Directive.alignment (F : Ffi ν) (d : Directive) : Nat :=
  if d.option ∈ ascii "c" then 1 else d.width F

/-- The switches that change no data. -/
def isSwitch (option : UInt8) : Bool := isSpace option || option ∈ ascii "<>=!"

/-- The switches behind a directive. -/
def Directive.switch (F : Ffi ν) (d : Directive) (w : Switches) : Switches :=
  if d.option ∈ ascii "<" then { w with littleEndian := true }
  else if d.option ∈ ascii ">" then { w with littleEndian := false }
  else if d.option ∈ ascii "=" then { w with littleEndian := F.littleEndian }
  else if d.option ∈ ascii "!" then { w with maximumAlignment := d.number F.sizeofPointer }
  else w

/-- The options this layer names. -/
def isItem (option : UInt8) : Bool := option ∈ ascii "bBhHlLjJTiIfdncszx"

/-- A directive of the options this layer names. -/
structure Directive.Named (d : Directive) : Prop extends d.Spelled where
  named : isSwitch d.option = true ∨ isItem d.option = true

/-! ## Numbers in a format -/

/-- What follows a directive starts no number. -/
theorem head_spell {ds : List Directive} (h : ∀ d ∈ ds, d.Spelled) :
    ∀ b ∈ (spell ds).head?, isDigit b = false := by
  cases ds with
  | nil => exact fun b hb => absurd hb (Option.not_mem_none b)
  | cons d ds =>
      intro b hb
      rw [spell, List.cons_append, List.head?_cons, Option.mem_some_iff] at hb
      exact hb ▸ (h d List.mem_cons_self).option

theorem takeWhile_digits {digits rest : Bytes} (hdigits : ∀ b ∈ digits, isDigit b = true)
    (hrest : ∀ b ∈ rest.head?, isDigit b = false) : (digits ++ rest).takeWhile isDigit = digits := by
  rw [List.takeWhile_append_of_pos hdigits]
  cases rest with
  | nil => exact List.append_nil digits
  | cons b rest =>
      rw [List.takeWhile_cons_of_neg, List.append_nil]
      rw [hrest b rfl]
      exact Bool.false_ne_true

theorem readNumber_append {digits rest : Bytes} (hdigits : ∀ b ∈ digits, isDigit b = true)
    (hrest : ∀ b ∈ rest.head?, isDigit b = false) : readNumber (digits ++ rest) = readNumber digits := by
  have hall : (digits ++ []).takeWhile isDigit = digits :=
    takeWhile_digits hdigits (fun b hb => absurd hb (Option.not_mem_none b))
  rw [List.append_nil] at hall
  rw [readNumber, readNumber, takeWhile_digits hdigits hrest, hall]

/-- Reading the number of a directive. -/
theorem readNumber_digits {d : Directive} (h : d.Spelled) :
    readNumber d.digits = if d.SizeOk then
      .ok (if d.digits = [] then none else some (decimal d.digits), d.digits.length)
      else .error (ascii "invalid format size") := by
  have hall : (d.digits ++ []).takeWhile isDigit = d.digits :=
    takeWhile_digits h.digits (fun b hb => absurd hb (Option.not_mem_none b))
  rw [List.append_nil] at hall
  rw [readNumber, hall]
  by_cases hnil : d.digits = []
  · have hsize : d.SizeOk := fun hne => absurd hnil hne
    rw [if_pos hnil, if_pos hsize, if_pos hnil, hnil]
    rfl
  · rw [if_neg hnil, if_neg hnil]
    by_cases hsize : d.SizeOk
    · have hrange := hsize hnil
      rw [if_pos hsize, if_neg (by omega)]
    · have hout : decimal d.digits = 0 ∨ 16 < decimal d.digits := by
        by_contra hin
        exact hsize fun _ => by omega
      rw [if_neg hsize, if_pos hout]

theorem optionInfo_append (F : Ffi ν) (option : UInt8) {digits rest : Bytes}
    (hdigits : ∀ b ∈ digits, isDigit b = true) (hrest : ∀ b ∈ rest.head?, isDigit b = false) :
    optionInfo F option (digits ++ rest) = optionInfo F option digits := by
  rw [optionInfo, optionInfo, readNumber_append hdigits hrest]

/-- The digits of the number are skipped. -/
theorem formatLoop_skip (F : Ffi ν) (refuse : UInt8 → Option PackError)
    (item : UInt8 → Nat → Nat → Switches → σ → Except PackError σ) (digits rest : Bytes) (w : Switches) (s : σ) :
    formatLoop F refuse item (digits ++ rest) digits.length w s = formatLoop F refuse item rest 0 w s := by
  induction digits with
  | nil => rfl
  | cons b digits ih => exact ih

/-! ## One directive -/

/-- What the loop does at a directive. -/
def Directive.step (F : Ffi ν) (refuse : UInt8 → Option PackError)
    (item : UInt8 → Nat → Nat → Switches → σ → Except PackError σ) (d : Directive) (w : Switches) (s : σ) :
    Except PackError (Switches × σ) :=
  if isSwitch d.option then
    if d.SizeOk then .ok (d.switch F w, s) else .error (ascii "invalid format size")
  else
    match refuse d.option with
    | some e => .error e
    | none =>
        if d.SizeOk then (item d.option (d.width F) (d.alignment F) w s).map fun s => (w, s)
        else .error (ascii "invalid format size")

/-- The options, one by one. -/
theorem isItem_cases {option : UInt8} (h : isItem option = true) :
    option = 98 ∨ option = 66 ∨ option = 104 ∨ option = 72 ∨ option = 108 ∨ option = 76 ∨ option = 106 ∨
      option = 74 ∨ option = 84 ∨ option = 105 ∨ option = 73 ∨ option = 102 ∨ option = 100 ∨ option = 110 ∨
      option = 99 ∨ option = 115 ∨ option = 122 ∨ option = 120 := by
  have hmem := of_decide_eq_true h
  have hlist : ascii "bBhHlLjJTiIfdncszx" =
      [98, 66, 104, 72, 108, 76, 106, 74, 84, 105, 73, 102, 100, 110, 99, 115, 122, 120] := by decide
  rw [hlist] at hmem
  simpa only [List.mem_cons, List.not_mem_nil, or_false] using hmem

/-- `option_info` of an option that takes no number. -/
theorem optionInfo_plain (F : Ffi ν) {option : UInt8} (hitem : isItem option = true)
    (hplain : takesNumber option = false) :
    optionInfo F option [] = .ok (some ((⟨option, []⟩ : Directive).width F, (⟨option, []⟩ : Directive).alignment F, 0)) := by
  rcases isItem_cases hitem with rfl | rfl | rfl | rfl | rfl | rfl | rfl | rfl | rfl | rfl | rfl | rfl | rfl | rfl | rfl |
    rfl | rfl | rfl
  all_goals first | rfl | contradiction

theorem takesNumber_cases {option : UInt8} (h : takesNumber option = true) :
    option = 105 ∨ option = 73 ∨ option = 99 ∨ option = 115 ∨ option = 33 := by
  have hmem := of_decide_eq_true h
  have hlist : ascii "iIcs!" = [105, 73, 99, 115, 33] := by decide
  rw [hlist] at hmem
  simpa only [List.mem_cons, List.not_mem_nil, or_false] using hmem

theorem getD_number (digits : Bytes) (option : UInt8) (default : Nat) :
    (if digits = [] then none else some (decimal digits)).getD default
      = (⟨option, digits⟩ : Directive).number default := by
  rw [Directive.number]
  split_ifs <;> rfl

/-- `c` with its size. -/
theorem optionInfo_char (F : Ffi ν) {digits : Bytes} {size n : Nat} (hread : readNumber digits = .ok (some size, n)) :
    optionInfo F 99 digits = .ok (some (size, 1, n)) := by
  rw [optionInfo, if_neg (by decide), if_neg (by decide), if_neg (by decide), if_neg (by decide),
    if_neg (by decide), if_neg (by decide), if_neg (by decide), if_pos (by decide), hread]

/-- `option_info` of an option that takes a number. -/
theorem optionInfo_number (F : Ffi ν) {option : UInt8} {digits : Bytes} (hitem : isItem option = true)
    (htakes : takesNumber option = true) (hsized : option ∈ ascii "c" → digits ≠ []) {n : Option Nat}
    (hn : n = if digits = [] then none else some (decimal digits))
    (hread : readNumber digits = .ok (n, digits.length)) :
    optionInfo F option digits
      = .ok (some ((⟨option, digits⟩ : Directive).width F, (⟨option, digits⟩ : Directive).alignment F, digits.length)) := by
  rcases takesNumber_cases htakes with rfl | rfl | rfl | rfl | rfl
  · have hinfo : optionInfo F 105 digits = (readNumber digits).map fun r => some (r.1.getD 4, r.1.getD 4, r.2) := rfl
    rw [hinfo, hread, hn]
    dsimp only [Except.map]
    rw [getD_number digits 105]
    rfl
  · have hinfo : optionInfo F 73 digits = (readNumber digits).map fun r => some (r.1.getD 4, r.1.getD 4, r.2) := rfl
    rw [hinfo, hread, hn]
    dsimp only [Except.map]
    rw [getD_number digits 73]
    rfl
  · have hne := hsized (by decide)
    rw [if_neg hne] at hn
    have hwidth : (⟨99, digits⟩ : Directive).width F = decimal digits := if_neg hne
    rw [hn] at hread
    rw [optionInfo_char F hread, hwidth]
    rfl
  · have hinfo : optionInfo F 115 digits
        = (readNumber digits).map fun r => some (r.1.getD F.sizeofSizeT, r.1.getD F.sizeofSizeT, r.2) := rfl
    rw [hinfo, hread, hn]
    dsimp only [Except.map]
    rw [getD_number digits 115]
    rfl
  · contradiction

/-- `option_info` of an option whose number is out of range. -/
theorem optionInfo_error (F : Ffi ν) {option : UInt8} {digits : Bytes} (hitem : isItem option = true)
    (htakes : takesNumber option = true) {e : PackError} (hread : readNumber digits = .error e) :
    optionInfo F option digits = .error e := by
  rcases takesNumber_cases htakes with rfl | rfl | rfl | rfl | rfl
  · have hinfo : optionInfo F 105 digits = (readNumber digits).map fun r => some (r.1.getD 4, r.1.getD 4, r.2) := rfl
    rw [hinfo, hread]
    rfl
  · have hinfo : optionInfo F 73 digits = (readNumber digits).map fun r => some (r.1.getD 4, r.1.getD 4, r.2) := rfl
    rw [hinfo, hread]
    rfl
  · rw [optionInfo, if_neg (by decide), if_neg (by decide), if_neg (by decide), if_neg (by decide),
      if_neg (by decide), if_neg (by decide), if_neg (by decide), if_pos (by decide), hread]
  · have hinfo : optionInfo F 115 digits
        = (readNumber digits).map fun r => some (r.1.getD F.sizeofSizeT, r.1.getD F.sizeofSizeT, r.2) := rfl
    rw [hinfo, hread]
    rfl
  · contradiction

/-- `option_info` of a directive. -/
theorem optionInfo_digits (F : Ffi ν) {d : Directive} (h : d.Spelled) (hitem : isItem d.option = true) :
    optionInfo F d.option d.digits = if d.SizeOk then
      .ok (some (d.width F, d.alignment F, d.digits.length)) else .error (ascii "invalid format size") := by
  cases htakes : takesNumber d.option with
  | false =>
      have hnil := h.plain htakes
      obtain ⟨option, digits⟩ := d
      obtain rfl : digits = [] := hnil
      have hsize : (⟨option, []⟩ : Directive).SizeOk := fun hne => absurd rfl hne
      rw [if_pos hsize]
      exact optionInfo_plain F hitem htakes
  | true =>
      have hread := readNumber_digits h
      by_cases hsize : d.SizeOk
      · rw [if_pos hsize] at hread ⊢
        exact optionInfo_number F hitem htakes h.sized rfl hread
      · rw [if_neg hsize] at hread ⊢
        exact optionInfo_error F hitem htakes hread

theorem isSwitch_of_isItem {option : UInt8} (h : isItem option = true) : isSwitch option = false := by
  rcases isItem_cases h with rfl | rfl | rfl | rfl | rfl | rfl | rfl | rfl | rfl | rfl | rfl | rfl | rfl | rfl | rfl |
    rfl | rfl | rfl
  all_goals rfl

theorem takesNumber_of_isSpace {option : UInt8} (h : isSpace option = true) : takesNumber option = false := by
  cases htakes : takesNumber option with
  | false => rfl
  | true =>
      rcases takesNumber_cases htakes with rfl | rfl | rfl | rfl | rfl
      all_goals contradiction

theorem isSwitch_cases {option : UInt8} (h : isSwitch option = true) (hspace : isSpace option = false) :
    option = 60 ∨ option = 62 ∨ option = 61 ∨ option = 33 := by
  rw [isSwitch, hspace, Bool.false_or] at h
  have hmem := of_decide_eq_true h
  have hlist : ascii "<>=!" = [60, 62, 61, 33] := by decide
  rw [hlist] at hmem
  simpa only [List.mem_cons, List.not_mem_nil, or_false] using hmem

/-- An option that is no switch passes the tests for switches. -/
theorem not_mem_of_isSwitch {option : UInt8} (h : isSwitch option = false) :
    isSpace option = false ∧ option ∉ ascii "<" ∧ option ∉ ascii ">" ∧ option ∉ ascii "=" ∧ option ∉ ascii "!" := by
  rw [isSwitch, Bool.or_eq_false_iff] at h
  have hnot := of_decide_eq_false h.2
  have hsub : ∀ s ∈ ["<", ">", "=", "!"], ∀ b ∈ ascii s, b ∈ ascii "<>=!" := by decide +kernel
  exact ⟨h.1, fun hb => hnot (hsub "<" (by decide) _ hb), fun hb => hnot (hsub ">" (by decide) _ hb),
    fun hb => hnot (hsub "=" (by decide) _ hb), fun hb => hnot (hsub "!" (by decide) _ hb)⟩

/-- The loop at a switch. -/
theorem formatLoop_switch (F : Ffi ν) (refuse : UInt8 → Option PackError)
    (item : UInt8 → Nat → Nat → Switches → σ → Except PackError σ) {d : Directive} (h : d.Spelled)
    (hswitch : isSwitch d.option = true) {rest : Bytes} (hrest : ∀ b ∈ rest.head?, isDigit b = false)
    (w : Switches) (s : σ) :
    formatLoop F refuse item (d.option :: d.digits ++ rest) 0 w s =
      if d.SizeOk then formatLoop F refuse item rest 0 (d.switch F w) s
      else .error (ascii "invalid format size") := by
  obtain ⟨option, digits⟩ := d
  have hnil : ∀ {option : UInt8}, takesNumber option = false → (⟨option, digits⟩ : Directive).Spelled →
      digits = [] := fun htakes h => h.plain htakes
  have hvacuous : ∀ {option : UInt8}, (⟨option, []⟩ : Directive).SizeOk := fun hne => absurd rfl hne
  dsimp only at hswitch ⊢
  cases hspace : isSpace option with
  | true =>
      obtain rfl := hnil (takesNumber_of_isSpace hspace) h
      have hsame : (⟨option, []⟩ : Directive).switch F w = w := by
        have hne : ∀ b ∈ ascii "<>=!", isSpace b = false := by decide +kernel
        have hnot : ∀ s ∈ ["<", ">", "=", "!"], option ∉ ascii s := by
          intro s hs hmem
          have hsub : ∀ s ∈ ["<", ">", "=", "!"], ∀ b ∈ ascii s, b ∈ ascii "<>=!" := by decide +kernel
          exact Bool.false_ne_true ((hne option (hsub s hs option hmem)).symm.trans hspace)
        simp only [Directive.switch, hnot "<" (by decide), hnot ">" (by decide), hnot "=" (by decide),
          hnot "!" (by decide), if_false]
      rw [if_pos hvacuous, hsame, List.cons_append, List.nil_append, formatLoop, if_pos hspace]
  | false =>
      rcases isSwitch_cases hswitch hspace with rfl | rfl | rfl | rfl
      · obtain rfl := hnil rfl h
        rw [if_pos hvacuous]
        rfl
      · obtain rfl := hnil rfl h
        rw [if_pos hvacuous]
        rfl
      · obtain rfl := hnil rfl h
        rw [if_pos hvacuous]
        rfl
      · have hread := readNumber_digits h
        rw [List.cons_append, formatLoop, if_neg (by decide), if_neg (by decide), if_neg (by decide),
          if_neg (by decide), if_pos (by decide), readNumber_append h.digits hrest, hread]
        by_cases hsize : (⟨33, digits⟩ : Directive).SizeOk
        · rw [if_pos hsize, if_pos hsize]
          dsimp only
          rw [formatLoop_skip, getD_number digits 33]
          rfl
        · rw [if_neg hsize, if_neg hsize]

/-- **The loop at a directive** does that directive and goes on behind it. -/
theorem formatLoop_directive (F : Ffi ν) (refuse : UInt8 → Option PackError)
    (item : UInt8 → Nat → Nat → Switches → σ → Except PackError σ) {d : Directive} (h : d.Named) {rest : Bytes}
    (hrest : ∀ b ∈ rest.head?, isDigit b = false) (w : Switches) (s : σ) :
    formatLoop F refuse item (d.option :: d.digits ++ rest) 0 w s = match d.step F refuse item w s with
      | .error e => .error e
      | .ok (w, s) => formatLoop F refuse item rest 0 w s := by
  rw [Directive.step]
  cases hswitch : isSwitch d.option with
  | true =>
      rw [formatLoop_switch F refuse item h.toSpelled hswitch hrest, if_pos rfl]
      split_ifs <;> rfl
  | false =>
      have hitem : isItem d.option = true := h.named.resolve_left (by rw [hswitch]; exact Bool.false_ne_true)
      obtain ⟨hspace, hlt, hgt, heq, hbang⟩ := not_mem_of_isSwitch hswitch
      rw [if_neg Bool.false_ne_true, List.cons_append, formatLoop, if_neg (by rw [hspace]; exact Bool.false_ne_true),
        if_neg hlt, if_neg hgt, if_neg heq, if_neg hbang, optionInfo_append F _ h.digits hrest,
        optionInfo_digits F h.toSpelled hitem]
      cases refuse d.option with
      | some e => rfl
      | none =>
          dsimp only
          by_cases hsize : d.SizeOk
          · rw [if_pos hsize, if_pos hsize]
            dsimp only
            cases item d.option (d.width F) (d.alignment F) w s with
            | error e => rfl
            | ok s => exact formatLoop_skip F refuse item d.digits rest w s
          · rw [if_neg hsize, if_neg hsize]

/-! ## Whole formats -/

/-- The loop over directives. -/
def walk (F : Ffi ν) (refuse : UInt8 → Option PackError)
    (item : UInt8 → Nat → Nat → Switches → σ → Except PackError σ) :
    List Directive → Switches → σ → Except PackError σ
  | [], _, s => .ok s
  | d :: ds, w, s =>
      match d.step F refuse item w s with
      | .error e => .error e
      | .ok (w, s) => walk F refuse item ds w s

/-- **The loop over a format** is the walk over the directives it spells. -/
theorem formatLoop_spell (F : Ffi ν) (refuse : UInt8 → Option PackError)
    (item : UInt8 → Nat → Nat → Switches → σ → Except PackError σ) {ds : List Directive} (h : ∀ d ∈ ds, d.Named)
    (w : Switches) (s : σ) : formatLoop F refuse item (spell ds) 0 w s = walk F refuse item ds w s := by
  induction ds generalizing w s with
  | nil => rfl
  | cons d ds ih =>
      have htail : ∀ d ∈ ds, d.Named := fun d hd => h d (List.mem_cons_of_mem _ hd)
      rw [spell, formatLoop_directive F refuse item (h d List.mem_cons_self)
        (head_spell fun d hd => (htail d hd).toSpelled), walk]
      cases d.step F refuse item w s with
      | error e => rfl
      | ok r => exact ih htail r.1 r.2

/-! ## Arguments -/

/-- The options that take an argument. -/
def takesArgument (option : UInt8) : Bool := option ∈ ascii "bBhHlLjJTiIfdncsz"

/-- An option with its argument. -/
structure Use (ν : Type) where
  option : UInt8
  width : Nat
  littleEndian : Bool
  argument : PackArg ν

/-- The options of a format with their arguments; a missing one is nil. -/
def uses (F : Ffi ν) : List Directive → Switches → List (PackArg ν) → List (Use ν)
  | [], _, _ => []
  | d :: ds, w, arguments =>
      if takesArgument d.option then
        ⟨d.option, d.width F, w.littleEndian, arguments.headD .nil⟩ :: uses F ds w arguments.tail
      else uses F ds (d.switch F w) arguments

/-- An integer option. -/
def isInteger (option : UInt8) : Bool := option ∈ ascii "bBhHlLjJTiI"

/-- A signed integer option. -/
def isSigned (option : UInt8) : Bool := option ∈ ascii "bhlji"

/-- The range of an integer option. -/
def Use.InRange (u : Use ν) (n : Int) : Prop :=
  if isSigned u.option then -2 ^ (8 * u.width - 1) ≤ n ∧ n < 2 ^ (8 * u.width - 1)
  else 0 ≤ n ∧ n < 2 ^ (8 * u.width)

instance (u : Use ν) (n : Int) : Decidable (u.InRange n) := by
  unfold Use.InRange
  infer_instance

/-- The bytes of an argument. -/
def Use.body (F : Ffi ν) (u : Use ν) : Except PackError Bytes :=
  (packItem F u.option u.width 1 ⟨u.littleEndian, 1⟩ ⟨[], [u.argument]⟩).map PackState.output

theorem takesArgument_cases {option : UInt8} (h : takesArgument option = true) :
    isSwitch option = false ∧ option ∉ ascii "x" ∧ isItem option = true := by
  have hmem := of_decide_eq_true h
  have hall : ∀ b ∈ ascii "bBhHlLjJTiIfdncsz", isSwitch b = false ∧ b ∉ ascii "x" ∧ isItem b = true := by decide +kernel
  exact hall option hmem

/-- An option that takes an argument appends its bytes, aligned. -/
theorem packItem_takes (F : Ffi ν) {option : UInt8} (h : takesArgument option = true) (size alignment : Nat)
    (w : Switches) (output : Bytes) (arguments : List (PackArg ν)) :
    packItem F option size alignment w ⟨output, arguments⟩ =
      (Use.body F ⟨option, size, w.littleEndian, arguments.headD .nil⟩).map fun body =>
        ⟨output ++ List.replicate (padding output.length alignment w.maximumAlignment) 0 ++ body,
          arguments.tail⟩ := by
  have hx := (takesArgument_cases h).2.1
  have hpad : List.replicate (padding ([] : Bytes).length 1 1) (0 : UInt8) = [] := rfl
  rw [Use.body, packItem, packItem]
  simp only [if_neg hx, hpad, PackState.append, PackState.next, PackState.argument, List.headD_cons,
    List.nil_append]
  by_cases hz : option ∈ ascii "z"
  · simp only [if_pos hz]
    by_cases hzero : 0 ∈ F.tostring (arguments.headD .nil)
    · simp only [hzero, if_true, Except.map]
    · simp only [hzero, if_false, Except.map]
  simp only [if_neg hz]
  by_cases hc : option ∈ ascii "c"
  · simp only [if_pos hc]
    by_cases hlong : (F.tostring (arguments.headD .nil)).length > size
    · simp only [hlong, if_true, Except.map]
    · simp only [hlong, if_false, Except.map]
  simp only [if_neg hc]
  by_cases hs : option ∈ ascii "s"
  · simp only [if_pos hs, Except.map, List.append_assoc]
  simp only [if_neg hs]
  by_cases hf : option ∈ ascii "f"
  · simp only [if_pos hf]
    cases F.float (arguments.headD .nil) <;> rfl
  simp only [if_neg hf]
  by_cases hd : option ∈ ascii "dn"
  · simp only [if_pos hd]
    cases F.double (arguments.headD .nil) <;> rfl
  simp only [if_neg hd]
  cases F.cast (arguments.headD .nil) <;> rfl

/-- `x` appends a zero, aligned. -/
theorem packItem_x (F : Ffi ν) {option : UInt8} (h : option ∈ ascii "x") (size alignment : Nat) (w : Switches)
    (output : Bytes) (arguments : List (PackArg ν)) :
    packItem F option size alignment w ⟨output, arguments⟩ =
      .ok ⟨output ++ List.replicate (padding output.length alignment w.maximumAlignment) 0 ++ [0], arguments⟩ := by
  rw [packItem, if_pos h]
  rfl

/-- A named option is a switch, `x`, or takes an argument. -/
theorem Directive.Named.cases {d : Directive} (h : d.Named) :
    isSwitch d.option = true ∨ d.option ∈ ascii "x" ∨ takesArgument d.option = true := by
  refine h.named.imp_right fun hitem => ?_
  have hmem := of_decide_eq_true hitem
  have hall : ∀ b ∈ ascii "bBhHlLjJTiIfdncszx", b ∈ ascii "x" ∨ takesArgument b = true := by decide +kernel
  exact hall d.option hmem

end SkynetJit.Compat
