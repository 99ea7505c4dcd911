import SkynetJit.Redis.Zset.Double
import SkynetJit.Redis.Zset.System

/-!
# SkynetJit.Redis.Wrapper

The Lua side of the sorted sets and the geo sets (`lua/sortedset.lua` and
`lua/geo.lua`): ZADD and GEOADD with a list of elements, and the range commands
with a table of options.

Each wrapper builds the argument list of the raw command value by value.  It
appends with `out[#out+1] = a`, which does nothing for nil, so a nil is left out
and what follows it moves up; `wrappers_transparent_iff` says that this is the
one way in which the raw command gets other arguments.

`#` of a table is the length of its elements; a hole is a nil among them.  The
position that `error` puts in front of a message is left out.
-/

namespace SkynetJit.Redis.Wrapper

open Raise

variable {ν : Type}

/-! ## Values -/

def isNil : LuaValue ν → Bool
  | .nil => true
  | _ => false

/-- What a condition takes for true. -/
def truthy : LuaValue ν → Bool
  | .nil => false
  | .boolean b => b
  | _ => true

/-- `out[#out+1] = a`. -/
def push (out : List (LuaValue ν)) (a : LuaValue ν) : List (LuaValue ν) :=
  if isNil a then out else out ++ [a]

/-- The list that the wrapper looks for: a table whose first item is a
table. -/
def elementList : LuaValue ν → Option (List (LuaValue ν))
  | .table (.table fields :: rest) => some (.table fields :: rest)
  | _ => none

/-- The fields of an element of the list. -/
def fields : LuaValue ν → List (LuaValue ν)
  | .table fields => fields
  | _ => []

/-! ## ZADD and GEOADD -/

/-- The loop over the elements of the list, `width` fields each. -/
def pushElements (width : Nat) (elementErr : Nat → LuaError) :
    List (LuaValue ν) → Nat → List (LuaValue ν) → Except LuaError (List (LuaValue ν))
  | [], _, out => .ok out
  | .table fields :: rest, j, out =>
      if fields.length = width then pushElements width elementErr rest (j + 1) (fields.foldl push out)
      else .error (elementErr j)
  | _ :: _, j, _ => .error (elementErr j)

/-- How a command takes a list: two error texts, and what it appends. -/
structure ListForm (ν : Type) where
  twice : LuaError
  late : LuaError
  append : List (LuaValue ν) → List (LuaValue ν) → Except LuaError (List (LuaValue ν))

/-- The loop over the arguments. -/
def shapeLoop (form : ListForm ν) :
    List (LuaValue ν) → Bool → List (LuaValue ν) → Except LuaError (List (LuaValue ν))
  | [], _, out => .ok out
  | a :: rest, seenList, out =>
      match elementList a with
      | some items =>
          if seenList then .error form.twice
          else do
            let out ← form.append items out
            shapeLoop form rest true out
      | none => if seenList then .error form.late else shapeLoop form rest false (push out a)

def zaddElementErr (j : Nat) : LuaError :=
  ascii "zadd element " ++ natDec j ++ ascii " must be \x7bscore, member\x7d"

def zaddForm : ListForm ν where
  twice := ascii "zadd accepts one element list"
  late := ascii "zadd takes the options before the element list"
  append items out := pushElements 2 zaddElementErr items 1 out

/-- What `zadd_shape` passes on behind the handle. -/
def zaddShapeArgs (args : List (LuaValue ν)) : Except LuaError (List (LuaValue ν)) :=
  shapeLoop zaddForm args false []

/-- `zadd_shape`. -/
def zaddShape {σ : Type} (rawZadd : List (LuaValue ν) → Command σ (Reply ν)) (o : LuaValue ν)
    (args : List (LuaValue ν)) : Command σ (Reply ν) := do
  let out ← check (zaddShapeArgs args)
  rawZadd (o :: out)

def geoaddElementErr (j : Nat) : LuaError :=
  ascii "geoadd element " ++ natDec j ++ ascii " must be \x7blongitude, latitude, member\x7d"

/-- `flatten_triples`. -/
def flattenTriples (list : List (LuaValue ν)) : Except LuaError (List (LuaValue ν)) :=
  pushElements 3 geoaddElementErr list 1 []

def geoaddForm : ListForm ν where
  twice := ascii "geoadd accepts one element list"
  late := ascii "geoadd takes the options before the element list"
  append items out := do
    let t ← flattenTriples items
    return t.foldl push out

/-- What `geoadd` passes on behind the handle. -/
def geoaddShapeArgs (args : List (LuaValue ν)) : Except LuaError (List (LuaValue ν)) :=
  shapeLoop geoaddForm args false []

/-- `geoadd`. -/
def geoadd {σ : Type} (rawGeoadd : List (LuaValue ν) → Command σ (Reply ν)) (o : LuaValue ν)
    (args : List (LuaValue ν)) : Command σ (Reply ν) := do
  let flat ← check (geoaddShapeArgs args)
  rawGeoadd (o :: flat)

/-! ## The range commands -/

/-- A key of a table, none of the positions 1, 2, …: a string, or another value
with its text. -/
inductive Key where
  | word (s : Bytes)
  | other (text : Bytes)
deriving DecidableEq, Repr

/-- A key's string. -/
def Key.word? : Key → Option Bytes
  | .word s => some s
  | .other _ => none

/-- A table: the elements at 1, 2, …, and the other keys with their values, as
`pairs` meets them. -/
structure LuaTable (ν : Type) where
  elements : List (LuaValue ν)
  entries : List (Key × LuaValue ν)
  distinct : (entries.filterMap fun e => e.1.word?).Nodup
  present : ∀ e ∈ entries, isNil e.2 = false

/-- `t[k]`. -/
def LuaTable.get (t : LuaTable ν) (k : String) : LuaValue ν :=
  ((t.entries.find? fun e => e.1 = .word (ascii k)).map Prod.snd).getD .nil

/-- An argument of a range command. -/
inductive CallArg (ν : Type) where
  | value (v : LuaValue ν)
  | table (t : LuaTable ν)

def CallArg.toValue : CallArg ν → LuaValue ν
  | .value v => v
  | .table t => .table t.elements

def CallArg.table? : CallArg ν → Option (LuaTable ν)
  | .value (.table elements) => some ⟨elements, [], List.nodup_nil, nofun⟩
  | .value _ => none
  | .table t => some t

/-- `OPT_ORDER`. -/
def optOrder : List String := ["byscore", "bylex", "rev", "withscores", "limit"]

/-- `OPT_KNOWN`. -/
def optKnown : List String := ["byscore", "bylex", "rev", "withscores", "limit", "pairs"]

/-- One turn of the loop over `OPT_ORDER`. -/
def pushOption (name : String) (opts : LuaTable ν) (out : List (LuaValue ν)) (k : String) :
    Except LuaError (List (LuaValue ν)) :=
  if truthy (opts.get k) = false then .ok out
  else if k = "limit" then
    match opts.get k with
    | .table [offset, count] => .ok ([.string (ascii k), offset, count].foldl push out)
    | _ => .error (ascii name ++ ascii ": limit must be \x7boffset, count\x7d")
  else .ok (push out (.string (ascii k)))

/-- The first key that is no option. -/
def LuaTable.unknown (t : LuaTable ν) : Option Bytes :=
  let index := t.elements.findIdx fun v => !isNil v
  if index < t.elements.length then some (natDec (index + 1))
  else t.entries.findSome? fun e => match e.1 with
    | .word s => if s ∈ optKnown.map ascii then none else some s
    | .other text => some text

/-- What the function that `shape_options` returns passes on for a table of
options. -/
def shapeOptionsArgs (name : String) (args : List (LuaValue ν)) (opts : LuaTable ν) :
    Except LuaError (List (LuaValue ν)) := do
  let out ← optOrder.foldlM (pushOption name opts) (args.foldl push [])
  match opts.unknown with
  | some text => .error (ascii name ++ ascii ": unknown option " ++ text)
  | none =>
      if truthy (opts.get "pairs") && !truthy (opts.get "withscores") then
        .error (ascii name ++ ascii ": pairs needs withscores")
      else return out

/-- The reply as it is, or the records that `pairs` asks for: a member and its
score. -/
inductive RangeReply (ν : Type) where
  | reply (r : Reply ν)
  | records (l : List (Reply ν × Option (Reply ν)))

/-- Two elements of a reply make a record. -/
def records : List (Reply ν) → List (Reply ν × Option (Reply ν))
  | [] => []
  | [member] => [(member, none)]
  | member :: score :: rest => (member, some score) :: records rest

/-- The reply of a range command, which is an array or, with STORE, an
integer. -/
def reshape (opts : LuaTable ν) {σ : Type} (reply : Reply ν) : Command σ (RangeReply ν) :=
  if truthy (opts.get "pairs") then
    match reply with
    | .array elements => return .records (records elements)
    | _ => throw (ascii "attempt to get length of local 'reply'")
  else return .reply reply

/-- `opts` in the function that `shape_options` returns. -/
def trailingOptions (args : List (CallArg ν)) : Option (LuaTable ν) :=
  if args.length ≥ 2 then args.getLast?.bind CallArg.table? else none

/-- `shape_options`. -/
def shapeOptions {σ : Type} (fn : List (LuaValue ν) → Command σ (Reply ν)) (name : String)
    (args : List (CallArg ν)) : Command σ (RangeReply ν) :=
  match trailingOptions args with
  | none => do
      let reply ← fn (args.map CallArg.toValue)
      return .reply reply
  | some opts => do
      let out ← check (shapeOptionsArgs name (args.dropLast.map CallArg.toValue) opts)
      let reply ← fn out
      reshape opts reply

/-! ## What is passed on -/

/-- No value is nil. -/
def NoNil (l : List (LuaValue ν)) : Prop := ∀ a ∈ l, isNil a = false

theorem noNil_append {l l' : List (LuaValue ν)} : NoNil (l ++ l') ↔ NoNil l ∧ NoNil l' :=
  List.forall_mem_append

/-- Appending value by value leaves the nils out. -/
theorem foldl_push (l out : List (LuaValue ν)) :
    l.foldl push out = out ++ l.filter fun a => !isNil a := by
  induction l generalizing out with
  | nil => simp
  | cons a l ih =>
      rw [List.foldl_cons, ih, push, List.filter_cons]
      cases isNil a <;> simp

/-- Nothing is left out just if nothing is nil. -/
theorem filter_isNil_eq_iff {l : List (LuaValue ν)} : (l.filter fun a => !isNil a) = l ↔ NoNil l := by
  simp [List.filter_eq_self, NoNil]

theorem noNil_filter (l : List (LuaValue ν)) : NoNil (l.filter fun a => !isNil a) := by
  intro a ha
  simpa using (List.mem_filter.mp ha).2

/-- Arguments in front of a list, or without one. -/
theorem shapeLoop_flat (form : ListForm ν) {words : List (LuaValue ν)}
    (hflat : ∀ a ∈ words, elementList a = none) (rest out : List (LuaValue ν)) :
    shapeLoop form (words ++ rest) false out = shapeLoop form rest false (words.foldl push out) := by
  induction words generalizing out with
  | nil => rfl
  | cons a words ih =>
      rw [List.cons_append, shapeLoop, hflat a List.mem_cons_self]
      exact ih (fun b hb => hflat b (List.mem_cons_of_mem a hb)) _

/-- **The flat form** passes its arguments on just if none is nil. -/
theorem shapeLoop_flat_eq_iff (form : ListForm ν) {args : List (LuaValue ν)}
    (hflat : ∀ a ∈ args, elementList a = none) : shapeLoop form args false [] = .ok args ↔ NoNil args := by
  have hloop := shapeLoop_flat form hflat [] []
  rw [List.append_nil] at hloop
  rw [hloop, shapeLoop, foldl_push, List.nil_append, Except.ok.injEq, filter_isNil_eq_iff]

/-- Elements of the right width are appended field by field. -/
theorem pushElements_eq {width : Nat} {elementErr : Nat → LuaError} {items : List (LuaValue ν)}
    (hitems : ∀ p ∈ items, ∃ fs, p = .table fs ∧ fs.length = width) (j : Nat) (out : List (LuaValue ν)) :
    pushElements width elementErr items j out = .ok ((items.flatMap fields).foldl push out) := by
  induction items generalizing j out with
  | nil => rfl
  | cons p items ih =>
      obtain ⟨fs, rfl, hlen⟩ := hitems p List.mem_cons_self
      rw [pushElements, if_pos hlen, ih fun q hq => hitems q (List.mem_cons_of_mem _ hq)]
      simp [fields]

/-- A form that appends the fields of its elements, which have one width. -/
def ListForm.Appends (form : ListForm ν) (width : Nat) : Prop :=
  ∀ items out, (∀ p ∈ items, ∃ fs, p = .table fs ∧ fs.length = width) →
    form.append items out = .ok ((items.flatMap fields).foldl push out)

theorem appends_zaddForm : (zaddForm : ListForm ν).Appends 2 := fun _ out hitems =>
  pushElements_eq hitems 1 out

theorem appends_geoaddForm : (geoaddForm : ListForm ν).Appends 3 := by
  intro items out hitems
  have hflatten : flattenTriples items = .ok ((items.flatMap fields).foldl push []) :=
    pushElements_eq hitems 1 []
  simp [geoaddForm, hflatten, foldl_push, bind, Except.bind, pure, Except.pure]

/-- **The list form** passes the flat arguments on just if there is an element
and no value is nil. -/
theorem shapeLoop_list_eq_iff {form : ListForm ν} {width : Nat} (hform : form.Appends width)
    {words items : List (LuaValue ν)} (hflat : ∀ a ∈ words, elementList a = none)
    (hitems : ∀ p ∈ items, ∃ fs, p = .table fs ∧ fs.length = width) :
    shapeLoop form (words ++ [.table items]) false [] = .ok (words ++ items.flatMap fields) ↔
      items ≠ [] ∧ NoNil (words ++ items.flatMap fields) := by
  rw [shapeLoop_flat form hflat, foldl_push, List.nil_append]
  cases items with
  | nil =>
      -- the empty table stays a value, and then something else has to be missing
      refine iff_of_false ?_ fun h => h.1 rfl
      have hempty : shapeLoop form [.table []] false (words.filter fun a => !isNil a) =
          .ok ((words.filter fun a => !isNil a) ++ [.table []]) := rfl
      rw [hempty, Except.ok.injEq, List.flatMap_nil, List.append_nil]
      intro h
      have hnil : NoNil words := by
        rw [← h, noNil_append]
        exact ⟨noNil_filter words, by simp [NoNil, isNil]⟩
      rw [filter_isNil_eq_iff.mpr hnil] at h
      simpa using congrArg List.length h
  | cons p items =>
      obtain ⟨fs, rfl, -⟩ := hitems p List.mem_cons_self
      have hlist : shapeLoop form [.table (.table fs :: items)] false (words.filter fun a => !isNil a) =
          (form.append (.table fs :: items) (words.filter fun a => !isNil a)).bind fun out => .ok out := rfl
      rw [hlist, hform _ _ hitems, foldl_push, ← List.filter_append]
      simp only [Except.bind, Except.ok.injEq, filter_isNil_eq_iff, ne_eq, reduceCtorEq, not_false_eq_true,
        true_and]

/-! ## Options -/

/-- The words that a table of options stands for. -/
def LuaTable.optionWord (opts : LuaTable ν) (k : String) : List (LuaValue ν) :=
  if truthy (opts.get k) then
    .string (ascii k) :: if k = "limit" then fields (opts.get k) else []
  else []

def LuaTable.optionWords (opts : LuaTable ν) : List (LuaValue ν) := optOrder.flatMap opts.optionWord

/-- A table whose keys are options, with a limit of two fields, and with the
scores where records are asked for. -/
structure LuaTable.WellFormed (opts : LuaTable ν) : Prop where
  known : opts.unknown = none
  limit : truthy (opts.get "limit") = true → ∃ offset count, opts.get "limit" = .table [offset, count]
  pairs : truthy (opts.get "pairs") = true → truthy (opts.get "withscores") = true

theorem pushOption_eq {opts : LuaTable ν} (h : opts.WellFormed) (name : String) (out : List (LuaValue ν))
    (k : String) : pushOption name opts out k = .ok ((opts.optionWord k).foldl push out) := by
  rw [pushOption, LuaTable.optionWord]
  cases htrue : truthy (opts.get k) with
  | false => simp
  | true =>
      by_cases hk : k = "limit"
      · subst hk
        obtain ⟨offset, count, hlimit⟩ := h.limit htrue
        simp [hlimit, fields]
      · simp [hk]

theorem foldlM_pushOption {opts : LuaTable ν} (h : opts.WellFormed) (name : String) (ks : List String)
    (out : List (LuaValue ν)) :
    ks.foldlM (pushOption name opts) out = .ok ((ks.flatMap opts.optionWord).foldl push out) := by
  induction ks generalizing out with
  | nil => rfl
  | cons k ks ih => simp [List.foldlM_cons, pushOption_eq h, bind, Except.bind, ih, List.foldl_append]

/-- **The options form** passes the words on, the nils left out. -/
theorem shapeOptionsArgs_eq {opts : LuaTable ν} (h : opts.WellFormed) (name : String)
    (args : List (LuaValue ν)) :
    shapeOptionsArgs name args opts = .ok ((args ++ opts.optionWords).filter fun a => !isNil a) := by
  have hpairs : (truthy (opts.get "pairs") && !truthy (opts.get "withscores")) = false := by
    cases htrue : truthy (opts.get "pairs") with
    | false => rfl
    | true => simp [h.pairs htrue]
  simp [shapeOptionsArgs, foldlM_pushOption h, h.known, hpairs, foldl_push, bind, Except.bind,
    LuaTable.optionWords, pure, Except.pure]

/-- **The options form** passes the words on just if no value is nil. -/
theorem shapeOptionsArgs_eq_iff {opts : LuaTable ν} (h : opts.WellFormed) (name : String)
    (args : List (LuaValue ν)) :
    shapeOptionsArgs name args opts = .ok (args ++ opts.optionWords) ↔ NoNil (args ++ opts.optionWords) := by
  rw [shapeOptionsArgs_eq h, Except.ok.injEq, filter_isNil_eq_iff]

/-! ## The wrappers -/

/-- A command that only notes its arguments. -/
def note (args : List (LuaValue ν)) : Command (List (LuaValue ν)) (Reply ν) := do
  set args
  return .nilReply

/-- A command on the arguments that are handed on is the command on some
arguments, whatever the command is, just if these are the ones. -/
theorem forwards_iff {r : Except LuaError (List (LuaValue ν))} {o : LuaValue ν} {args : List (LuaValue ν)} :
    (∀ (σ : Type) (raw : List (LuaValue ν) → Command σ (Reply ν)),
      (check r >>= fun out => raw (o :: out)) = raw (o :: args)) ↔ r = .ok args := by
  constructor
  · intro h
    have hnote := congrArg (fun x => exec x []) (h _ note)
    simp only [exec_check_bind] at hnote
    cases r with
    | error e => exact absurd (congrArg Prod.fst hnote) nofun
    | ok out => exact congrArg Except.ok (List.cons.inj (congrArg Prod.snd hnote)).2
  · rintro rfl σ raw
    rfl

/-- A range command on option words, its reply in the form that is asked
for. -/
def withOptions {σ : Type} (opts : LuaTable ν) (fn : List (LuaValue ν) → Command σ (Reply ν))
    (args : List (LuaValue ν)) : Command σ (RangeReply ν) := do
  let reply ← fn args
  reshape opts reply

theorem exec_withOptions_note (opts : LuaTable ν) (args s : List (LuaValue ν)) :
    (exec (withOptions opts note args) s).2 = args := by
  have hnote : exec (note args : Command (List (LuaValue ν)) (Reply ν)) s = (.ok .nilReply, args) := rfl
  rw [withOptions, exec_bind_ok hnote, reshape.eq_def]
  split_ifs <;> rfl

/-- The options form, as a call. -/
theorem shapeOptions_eq {σ : Type} (fn : List (LuaValue ν) → Command σ (Reply ν)) (name : String)
    {args : List (LuaValue ν)} (hargs : args ≠ []) (opts : LuaTable ν) :
    shapeOptions fn name (args.map .value ++ [.table opts]) =
      (check (shapeOptionsArgs name args opts) >>= withOptions opts fn) := by
  have hlen : (args.map CallArg.value ++ [CallArg.table opts]).length ≥ 2 := by
    have hpos := List.length_pos_iff.mpr hargs
    simp only [List.length_append, List.length_map, List.length_singleton]
    omega
  have htrailing : trailingOptions (args.map CallArg.value ++ [CallArg.table opts]) = some opts := by
    rw [trailingOptions, if_pos hlen, List.getLast?_append]
    rfl
  have hfront : (args.map CallArg.value).map CallArg.toValue = args := by
    simp [Function.comp_def, CallArg.toValue]
  rw [shapeOptions, htrailing, List.dropLast_concat, hfront]
  rfl

theorem shapeOptions_forwards_iff {opts : LuaTable ν} (h : opts.WellFormed) (name : String)
    {args : List (LuaValue ν)} (hargs : args ≠ []) :
    (∀ (σ : Type) (fn : List (LuaValue ν) → Command σ (Reply ν)),
      shapeOptions fn name (args.map .value ++ [.table opts]) = withOptions opts fn (args ++ opts.optionWords)) ↔
      NoNil (args ++ opts.optionWords) := by
  simp only [shapeOptions_eq _ name hargs, shapeOptionsArgs_eq h]
  constructor
  · intro hall
    have hnote := congrArg (fun x => (exec x []).2) (hall _ note)
    simp only [exec_check_bind, exec_withOptions_note] at hnote
    exact filter_isNil_eq_iff.mp hnote
  · intro hnil σ fn
    rw [filter_isNil_eq_iff.mpr hnil]
    rfl

/-- **The wrappers** are the raw commands on the flat arguments just if no value
among these is nil: in the flat form, with a list of elements, which is to have
one, and with a table of options. -/
theorem wrappers_transparent_iff :
    (∀ (o : LuaValue ν) (args : List (LuaValue ν)), (∀ a ∈ args, elementList a = none) →
      ((∀ (σ : Type) (raw : List (LuaValue ν) → Command σ (Reply ν)), zaddShape raw o args = raw (o :: args)) ↔
        NoNil args) ∧
      ((∀ (σ : Type) (raw : List (LuaValue ν) → Command σ (Reply ν)), geoadd raw o args = raw (o :: args)) ↔
        NoNil args)) ∧
    (∀ (o : LuaValue ν) (words items : List (LuaValue ν)), (∀ a ∈ words, elementList a = none) →
      ((∀ p ∈ items, ∃ fs, p = .table fs ∧ fs.length = 2) →
        ((∀ (σ : Type) (raw : List (LuaValue ν) → Command σ (Reply ν)),
          zaddShape raw o (words ++ [.table items]) = raw (o :: (words ++ items.flatMap fields))) ↔
          items ≠ [] ∧ NoNil (words ++ items.flatMap fields))) ∧
      ((∀ p ∈ items, ∃ fs, p = .table fs ∧ fs.length = 3) →
        ((∀ (σ : Type) (raw : List (LuaValue ν) → Command σ (Reply ν)),
          geoadd raw o (words ++ [.table items]) = raw (o :: (words ++ items.flatMap fields))) ↔
          items ≠ [] ∧ NoNil (words ++ items.flatMap fields)))) ∧
    ∀ (name : String) (args : List (LuaValue ν)) (opts : LuaTable ν), args ≠ [] → opts.WellFormed →
      ((∀ (σ : Type) (fn : List (LuaValue ν) → Command σ (Reply ν)),
        shapeOptions fn name (args.map .value ++ [.table opts]) =
          withOptions opts fn (args ++ opts.optionWords)) ↔
        NoNil (args ++ opts.optionWords)) := by
  refine ⟨fun o args hflat => ⟨?_, ?_⟩, fun o words items hflat => ⟨fun hitems => ?_, fun hitems => ?_⟩,
    fun name args opts hargs h => shapeOptions_forwards_iff h name hargs⟩
  · exact forwards_iff.trans (shapeLoop_flat_eq_iff zaddForm hflat)
  · exact forwards_iff.trans (shapeLoop_flat_eq_iff geoaddForm hflat)
  · exact forwards_iff.trans (shapeLoop_list_eq_iff appends_zaddForm hflat hitems)
  · exact forwards_iff.trans (shapeLoop_list_eq_iff appends_geoaddForm hflat hitems)

/-! ## Runs -/

/-- One, for "a". -/
def oneForA : List (LuaValue Double) := [.number ⟨0x3ff0000000000000⟩, .string (ascii "a")]

theorem wrappers_transparent_iff_sample :
    zaddShape (lzadd fun _ => 0) (.handle .zset 0) oneForA = lzadd (fun _ => 0) (.handle .zset 0 :: oneForA) := by
  obtain ⟨hflat, -, -⟩ := wrappers_transparent_iff (ν := Double)
  have hforwards := (hflat (.handle .zset 0) oneForA (by simp [oneForA, elementList])).1.mpr
    (by simp [oneForA, NoNil, isNil])
  exact hforwards _ _

/-- A nil in front of a score and a member: the wrapped command adds the member
that the raw one refuses. -/
theorem zaddShape_drops_nil :
    (exec (zaddShape (lzadd fun _ => 0) (.handle .zset 0) (.nil :: oneForA)) fun _ _ => zsetTypeCreate 0 0).1 =
        .ok (.int 1) ∧
      (exec (lzadd (fun _ => 0) (.handle .zset 0 :: .nil :: oneForA)) fun _ _ => zsetTypeCreate 0 0).1 =
        .error syntaxErr :=
  ⟨rfl, rfl⟩

end SkynetJit.Redis.Wrapper
