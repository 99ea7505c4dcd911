import Mathlib.Data.List.Sort
import SkynetJit.Redis.Number
import SkynetJit.Redis.Set.Refinement

/-!
# SkynetJit.Redis.Set.Algebra

SUNION, SINTER, SDIFF and the forms that only count (`facade/set.c`).

The listing forms build a result object, or walk the smallest operand; the
counting forms run other loops and stop at a limit.  Which loop runs depends on
the sizes of the operands, and the operands are sorted by `qsort`, which
promises no order among equal ones.

* `setops_are_set_algebra` — what is listed is the union, the intersection or
  the difference, each member once;
* `setcards_count_the_list` — what is counted is the length of that list, cut at
  the limit.
-/

namespace SkynetJit.Redis

open Raise

/-- `rl_setsrc`: an operand, its handle and its payload.  Two operands share a
payload only if their handles are one. -/
structure Setsrc where
  id : Nat
  set : Option SetObj

namespace Setsrc

/-- `setTypeSize`, 0 without a payload. -/
def size (src : Setsrc) : Nat := (src.set.map setTypeSize).getD 0

/-- What an iterator over the payload yields. -/
def elements (src : Setsrc) : List Entry := (src.set.map SetObj.elements).getD []

/-- `setTypeIsMemberAux`; nothing is in an operand without a payload. -/
def has (src : Setsrc) (e : Entry) : Bool := src.set.any fun o => setTypeIsMemberAux o e

/-- Whether the operand holds the very payload of another one. -/
def isSame (src first : Setsrc) : Bool := src.set.isSome && src.id == first.id

end Setsrc

/-- `qsort` by `rl_cmp_by_card` and by `rl_cmp_by_rev_card`; operands of one
size come in any order. -/
structure SizeSorts where
  byCard : List Setsrc → List Setsrc
  byRevCard : List Setsrc → List Setsrc
  byCard_perm : ∀ srcs, (byCard srcs).Perm srcs
  byCard_sorted : ∀ srcs, (byCard srcs).Pairwise fun a b => a.size ≤ b.size
  byRevCard_perm : ∀ srcs, (byRevCard srcs).Perm srcs
  byRevCard_sorted : ∀ srcs, (byRevCard srcs).Pairwise fun a b => b.size ≤ a.size

/-- Sorting by insertion is one way to sort the operands. -/
def insertionSizeSorts : SizeSorts where
  byCard := List.insertionSort fun a b => a.size ≤ b.size
  byRevCard := List.insertionSort fun a b => b.size ≤ a.size
  byCard_perm srcs := List.perm_insertionSort _ srcs
  byCard_sorted srcs :=
    haveI : IsTrans Setsrc fun a b => a.size ≤ b.size := ⟨fun _ _ _ => Nat.le_trans⟩
    haveI : Std.Total fun a b : Setsrc => a.size ≤ b.size := ⟨fun _ _ => Nat.le_total _ _⟩
    List.pairwise_insertionSort _ srcs
  byRevCard_perm srcs := List.perm_insertionSort _ srcs
  byRevCard_sorted srcs :=
    haveI : IsTrans Setsrc fun a b => b.size ≤ a.size := ⟨fun _ _ _ h h' => Nat.le_trans h' h⟩
    haveI : Std.Total fun a b : Setsrc => b.size ≤ a.size := ⟨fun _ _ => Nat.le_total _ _⟩
    List.pairwise_insertionSort _ srcs

section Arguments

variable {ν : Type} [LuaNumber ν]

/-- `rl_setop_count`, and the operands it counts. -/
def setopCount (cardinalityOnly : Bool) (cmdname : String) (args : List (LuaValue ν)) :
    Except LuaError (List (LuaValue ν)) := do
  let keys ← rlChecklist args 1 cmdname
  if keys.length < 1 then
    if cardinalityOnly then .error (rlError (ascii "numkeys should be greater than 0"))
    else .error (arityErr cmdname)
  else return keys

/-- `rl_setop_options`: the words behind the operands.  A word without a value
is as wrong as an unknown one. -/
def setopLimit (cardinalityOnly : Bool) : List (LuaValue ν) → Nat → Except LuaError Nat
  | [], limit => .ok limit
  | .string opt :: v :: rest, _ =>
      if cardinalityOnly = true ∧ eqIgnoreCase opt "limit" = true then do
        let limit ← rlPoslongMsg [v] 1 "LIMIT can't be negative"
        setopLimit cardinalityOnly rest limit
      else .error syntaxErr
  | _, _ => .error syntaxErr

/-- The arguments of a set operation: the operands and the limit. -/
def setalgArgs (cardinalityOnly : Bool) (cmdname : String) (args : List (LuaValue ν)) :
    Except LuaError (List Nat × Nat) := do
  let keys ← setopCount cardinalityOnly cmdname args
  let limit ← setopLimit cardinalityOnly (args.drop 1) 0
  let ids ← keys.mapM fun v => rlCheckValue .set (some v)
  return (ids, limit)

end Arguments

/-! ## Intersection -/

/-- Whether every other operand has an element of the first one; the first one
is not asked again. -/
def inEvery (first : Setsrc) (rest : List Setsrc) (e : Entry) : Bool :=
  rest.all fun src => src.id == first.id || src.has e

/-- A counting loop: the elements that pass a test, up to the limit. -/
def countElements (limit : Nat) (test : Entry → Bool) : List Entry → Nat → Nat
  | [], cardinality => cardinality
  | e :: es, cardinality =>
      if test e then
        if limit ≠ 0 ∧ cardinality + 1 ≥ limit then cardinality + 1
        else countElements limit test es (cardinality + 1)
      else countElements limit test es cardinality

/-! ## Union and difference -/

/-- The object a result is built in: a dict, unless all the operands are
intsets. -/
def resultObject (srcs : List Setsrc) : SetObj :=
  if srcs.any fun src => match src.set with
    | some (.listpack _) => true
    | some (.ht _) => true
    | _ => false
  then .ht [] else .intset intsetNew

/-- The loops of the union, over the elements of one operand after the other.
The early exit leaves both. -/
def unionLoop (stop : Int → Bool) : List Entry → SetObj × Int → SetObj × Int
  | [], r => r
  | e :: es, (dstset, cardinality) =>
      let r := setTypeAddAux dstset e
      let cardinality := cardinality + r.1.toNat
      if stop cardinality then (r.2, cardinality) else unionLoop stop es (r.2, cardinality)

/-- Whether an operand to subtract holds an element of the first one
(algorithm 1). -/
def inAny (first : Setsrc) (rest : List Setsrc) (e : Entry) : Bool :=
  rest.any fun src => src.isSame first || src.has e

/-- Add elements to the result, and count the new ones. -/
def addElements (es : List Entry) (r : SetObj × Int) : SetObj × Int :=
  es.foldl (fun r e => let added := setTypeAddAux r.1 e; (added.2, r.2 + added.1.toNat)) r

/-- Remove elements from the result, and count those that were there. -/
def removeElements (es : List Entry) (r : SetObj × Int) : SetObj × Int :=
  es.foldl (fun r e => let removed := setTypeRemoveAux r.1 e; (removed.2, r.2 - removed.1.toNat)) r

/-- The later turns of algorithm 2: subtract one operand after the other, until
nothing is left. -/
def subtractLoop : List Setsrc → SetObj × Int → SetObj × Int
  | [], r => r
  | src :: rest, r =>
      match src.set with
      | none => subtractLoop rest r
      | some o =>
          let r := removeElements o.elements r
          if r.2 = 0 then r else subtractLoop rest r

/-- Algorithm 2: start from the first operand, and subtract. -/
def subtractAll (first : Setsrc) (rest : List Setsrc) (dstset : SetObj) : SetObj × Int :=
  let r := addElements first.elements (dstset, 0)
  if r.2 = 0 then r else subtractLoop rest r

/-- Algorithm 2b: collect what is subtracted, and count what is not in it. -/
def countOutside (limit : Nat) (first : Setsrc) (rest : List Setsrc) (dstset : SetObj) : Nat :=
  let aux := (addElements (rest.flatMap Setsrc.elements) (dstset, 0)).1
  countElements limit (fun e => !setTypeIsMemberAux aux e) first.elements 0

/-- The choice between algorithm 1 and algorithm 2. -/
def prefersAlgorithmOne (first : Setsrc) (rest : List Setsrc) : Bool :=
  let present := (first :: rest).filter fun src => src.set.isSome
  let algoOneWork := (present.map fun _ => first.size).sum / 2
  let algoTwoWork := (present.map Setsrc.size).sum
  decide (algoOneWork ≤ algoTwoWork)

/-- The difference: the result object, and the count. -/
def diffResult (qsort : SizeSorts) (cardinalityOnly : Bool) (limit : Nat) (first : Setsrc)
    (rest : List Setsrc) (dstset : SetObj) : SetObj × Int :=
  if rest.any fun src => src.isSame first then (dstset, 0)
  else if first.set.isNone then (dstset, 0)
  else if prefersAlgorithmOne first rest then
    let rest := if rest.length > 0 then qsort.byRevCard rest else rest
    let test e := !inAny first rest e
    if cardinalityOnly then (dstset, countElements limit test first.elements 0)
    else addElements (first.elements.filter test) (dstset, 0)
  else if cardinalityOnly ∧ limit > 0 then (dstset, countOutside limit first rest dstset)
  else subtractAll first rest dstset

/-- The union: the result object, and the count. -/
def unionResult (cardinalityOnly : Bool) (limit : Nat) (srcs : List Setsrc) (dstset : SetObj) :
    SetObj × Int :=
  unionLoop (fun n => cardinalityOnly && decide (limit > 0) && decide (n ≥ limit))
    (srcs.flatMap Setsrc.elements) (dstset, 0)

/-! ## The commands -/

/-- `RL_SET_OP_UNION` and `RL_SET_OP_DIFF`, and the intersection, which has a
function of its own. -/
inductive SetOperation where
  | union | inter | diff
deriving DecidableEq, Repr

section Commands

variable {ν : Type} [LuaNumber ν]

/-- The operands as they are found. -/
def setSources (s : Sets) (ids : List Nat) : List Setsrc := ids.map fun id => ⟨id, s id⟩

/-- `lsinter_generic`, behind the checks.  There is at least one operand. -/
def interReply (qsort : SizeSorts) (cardinalityOnly : Bool) (limit : Nat) (srcs : List Setsrc) :
    Reply ν :=
  if srcs.any fun src => src.set.isNone then
    if cardinalityOnly then .int 0 else pushMembers []
  else match qsort.byCard srcs with
    | [] => .nilReply
    | first :: rest =>
        let test := inEvery first rest
        if cardinalityOnly then .int (countElements limit test first.elements 0)
        else pushMembers ((first.elements.filter test).map Entry.toBytes)

/-- The reply of a result object that is listed or counted. -/
def resultReply (cardinalityOnly : Bool) (r : SetObj × Int) : Reply ν :=
  if cardinalityOnly then .int r.2 else pushMembers r.1.members

/-- `lsuniondiff_generic`, behind the checks. -/
def uniondiffReply (qsort : SizeSorts) (op : SetOperation) (cardinalityOnly : Bool) (limit : Nat)
    (srcs : List Setsrc) : Reply ν :=
  let dstset := resultObject srcs
  match op, srcs with
  | .diff, first :: rest =>
      resultReply cardinalityOnly (diffResult qsort cardinalityOnly limit first rest dstset)
  | _, _ => resultReply cardinalityOnly (unionResult cardinalityOnly limit srcs dstset)

/-- The reply of an operation to its operands. -/
def setopReply (qsort : SizeSorts) (op : SetOperation) (cardinalityOnly : Bool) (limit : Nat)
    (srcs : List Setsrc) : Reply ν :=
  match op with
  | .inter => interReply qsort cardinalityOnly limit srcs
  | op => uniondiffReply qsort op cardinalityOnly limit srcs

/-- `lsinter_generic` and `lsuniondiff_generic`. -/
def setopGeneric (qsort : SizeSorts) (op : SetOperation) (cardinalityOnly : Bool) (cmdname : String)
    (args : List (LuaValue ν)) : Command Sets (Reply ν) := do
  let (ids, limit) ← check (setalgArgs cardinalityOnly cmdname args)
  let s ← get
  return setopReply qsort op cardinalityOnly limit (setSources s ids)

/-- `lsunion`. -/
def lsunion (qsort : SizeSorts) (args : List (LuaValue ν)) : Command Sets (Reply ν) :=
  setopGeneric qsort .union false "sunion" args

/-- `lsinter`. -/
def lsinter (qsort : SizeSorts) (args : List (LuaValue ν)) : Command Sets (Reply ν) :=
  setopGeneric qsort .inter false "sinter" args

/-- `lsdiff`. -/
def lsdiff (qsort : SizeSorts) (args : List (LuaValue ν)) : Command Sets (Reply ν) :=
  setopGeneric qsort .diff false "sdiff" args

/-- `lsunioncard`. -/
def lsunioncard (qsort : SizeSorts) (args : List (LuaValue ν)) : Command Sets (Reply ν) :=
  setopGeneric qsort .union true "sunioncard" args

/-- `lsintercard`. -/
def lsintercard (qsort : SizeSorts) (args : List (LuaValue ν)) : Command Sets (Reply ν) :=
  setopGeneric qsort .inter true "sintercard" args

/-- `lsdiffcard`. -/
def lsdiffcard (qsort : SizeSorts) (args : List (LuaValue ν)) : Command Sets (Reply ν) :=
  setopGeneric qsort .diff true "sdiffcard" args

/-- The listing form of an operation. -/
def listForm (qsort : SizeSorts) : SetOperation → List (LuaValue ν) → Command Sets (Reply ν)
  | .union => lsunion qsort
  | .inter => lsinter qsort
  | .diff => lsdiff qsort

/-- The counting form of an operation. -/
def cardForm (qsort : SizeSorts) : SetOperation → List (LuaValue ν) → Command Sets (Reply ν)
  | .union => lsunioncard qsort
  | .inter => lsintercard qsort
  | .diff => lsdiffcard qsort

end Commands

/-! ## Elements and members -/

namespace Setsrc

/-- The byte strings an operand stands for. -/
def members (src : Setsrc) : List Bytes := payloadMembers src.set

/-- Its payload is well formed. -/
def Wf (src : Setsrc) : Prop := PayloadWf src.set

theorem elements_members (src : Setsrc) : src.elements.map Entry.toBytes = src.members := by
  unfold elements members
  cases src.set <;> simp [payloadMembers, SetObj.members]

theorem Wf.valid {src : Setsrc} (h : src.Wf) : ∀ e ∈ src.elements, e.Valid := by
  intro e he
  unfold elements at he
  cases hs : src.set with
  | none => simp [hs] at he
  | some o => exact (h o hs).1.valid e (by simpa [hs] using he)

theorem Wf.nodup {src : Setsrc} (h : src.Wf) : src.members.Nodup := by
  unfold members
  cases hs : src.set with
  | none => exact List.nodup_nil
  | some o => exact (h o hs).1.nodup

/-- **Cross-encoding lookup**: an integer and its text are one member. -/
theorem Wf.has_iff {src : Setsrc} (h : src.Wf) {e : Entry} (he : e.Valid) :
    src.has e = true ↔ e.toBytes ∈ src.members := by
  unfold has members
  cases hs : src.set with
  | none => simp [payloadMembers]
  | some o => simpa [payloadMembers] using setTypeIsMemberAux_iff (h o hs).1 he

end Setsrc

theorem elements_flatMap (srcs : List Setsrc) :
    (srcs.flatMap Setsrc.elements).map Entry.toBytes = srcs.flatMap Setsrc.members := by
  simp [List.map_flatMap, Setsrc.elements_members]

/-! ## The loops -/

/-- The limit cuts a count, unless it is 0. -/
def cutAt (limit n : Nat) : Nat := if limit = 0 then n else min limit n

/-- A counting loop counts up to the limit. -/
theorem countElements_eq {limit : Nat} (test : Entry → Bool) (es : List Entry) {n : Nat}
    (h : limit = 0 ∨ n < limit) : countElements limit test es n = cutAt limit (n + es.countP test) := by
  induction es generalizing n with
  | nil => unfold countElements cutAt; grind
  | cons e es ih =>
      rw [countElements, List.countP_cons]
      by_cases htest : test e = true
      · by_cases hstop : limit ≠ 0 ∧ n + 1 ≥ limit
        · rw [if_pos htest, if_pos hstop, if_pos htest, cutAt, if_neg hstop.1]
          omega
        · rw [if_pos htest, if_neg hstop, if_pos htest, ih (by omega)]
          congr 1
          omega
      · rw [if_neg htest, if_neg htest, ih h]
        rfl

/-- A result object that holds a set, beside the number of its members. -/
structure Counted (r : SetObj × Int) (S : Finset Bytes) : Prop where
  wf : r.1.Wf
  members : r.1.members.toFinset = S
  card : r.2 = S.card

theorem Counted.add {r : SetObj × Int} {S : Finset Bytes} (h : Counted r S) {e : Entry} (he : e.Valid) :
    Counted ((setTypeAddAux r.1 e).2, r.2 + (setTypeAddAux r.1 e).1.toNat) (insert e.toBytes S) := by
  have hadd := setTypeAddAux_spec h.wf he
  have hset : (setTypeAddAux r.1 e).2.members.toFinset = insert e.toBytes S := by
    rw [hadd.toFinset, h.members]
  refine ⟨hadd.wf, hset, ?_⟩
  rw [← hset, List.toFinset_card_of_nodup hadd.wf.nodup, hadd.size, h.card, ← h.members,
    List.toFinset_card_of_nodup h.wf.nodup]
  simp

theorem Counted.remove {r : SetObj × Int} {S : Finset Bytes} (h : Counted r S) {e : Entry}
    (he : e.Valid) :
    Counted ((setTypeRemoveAux r.1 e).2, r.2 - (setTypeRemoveAux r.1 e).1.toNat) (S.erase e.toBytes) := by
  have hrem := setTypeRemoveAux_spec h.wf he
  have hset : (setTypeRemoveAux r.1 e).2.members.toFinset = S.erase e.toBytes := by
    rw [hrem.toFinset h.wf, h.members]
  refine ⟨hrem.wf, hset, ?_⟩
  rw [← hset, List.toFinset_card_of_nodup hrem.wf.nodup, h.card, ← h.members,
    List.toFinset_card_of_nodup h.wf.nodup, hrem.size]
  simp

/-- **Adding** elements to the result. -/
theorem Counted.addElements {r : SetObj × Int} {S : Finset Bytes} (h : Counted r S) {es : List Entry}
    (hes : ∀ e ∈ es, e.Valid) :
    Counted (Redis.addElements es r) (S ∪ (es.map Entry.toBytes).toFinset) := by
  induction es generalizing r S with
  | nil => simpa [Redis.addElements] using h
  | cons e es ih =>
      have hrest := ih (h.add (hes e (by simp))) fun e' he' => hes e' (by simp [he'])
      simpa [Redis.addElements, Finset.insert_union, Finset.union_insert] using hrest

/-- **Removing** elements from the result. -/
theorem Counted.removeElements {r : SetObj × Int} {S : Finset Bytes} (h : Counted r S)
    {es : List Entry} (hes : ∀ e ∈ es, e.Valid) :
    Counted (Redis.removeElements es r) (S \ (es.map Entry.toBytes).toFinset) := by
  induction es generalizing r S with
  | nil => simpa [Redis.removeElements] using h
  | cons e es ih =>
      have hrest := ih (h.remove (hes e (by simp))) fun e' he' => hes e' (by simp [he'])
      rw [Finset.erase_sdiff_comm, ← Finset.sdiff_insert] at hrest
      simpa [Redis.removeElements] using hrest

/-- Without an early exit the loops of the union add every element. -/
theorem unionLoop_eq_addElements (es : List Entry) (r : SetObj × Int) :
    unionLoop (fun _ => false) es r = addElements es r := by
  induction es generalizing r with
  | nil => rfl
  | cons e es ih => simp [unionLoop, addElements, ih]

/-- The early exit leaves the count at the limit. -/
theorem unionLoop_card {limit : Nat} {r : SetObj × Int} {S : Finset Bytes} (h : Counted r S)
    (hlt : S.card < limit) {es : List Entry} (hes : ∀ e ∈ es, e.Valid) :
    (unionLoop (fun n => decide (n ≥ limit)) es r).2 =
      min limit (S ∪ (es.map Entry.toBytes).toFinset).card := by
  induction es generalizing r S with
  | nil => simp [unionLoop, h.card]; omega
  | cons e es ih =>
      have hadd := h.add (hes e (by simp))
      have hcount : r.2 + (setTypeAddAux r.1 e).1.toNat = (insert e.toBytes S).card := hadd.card
      have hle := Finset.card_insert_le e.toBytes S
      have hunion : S ∪ ((e :: es).map Entry.toBytes).toFinset =
          insert e.toBytes S ∪ (es.map Entry.toBytes).toFinset := by
        simp [Finset.insert_union, Finset.union_insert]
      rw [unionLoop, hunion]
      by_cases hstop : (insert e.toBytes S).card = limit
      · have hcard : (insert e.toBytes S).card ≤
            (insert e.toBytes S ∪ (es.map Entry.toBytes).toFinset).card :=
          Finset.card_le_card Finset.subset_union_left
        rw [if_pos (by simp [hcount, hstop])]
        grind
      · rw [if_neg (by simp [hcount]; omega)]
        exact ih hadd (by omega) fun e' he' => hes e' (by simp [he'])

/-! ## The result of an operation -/

/-- What an operation is for. -/
def SetOperation.result : SetOperation → List Setsrc → Finset Bytes
  | .union, srcs => (srcs.flatMap Setsrc.members).toFinset
  | .inter, srcs =>
      (srcs.flatMap Setsrc.members).toFinset.filter fun m => ∀ src ∈ srcs, m ∈ src.members
  | .diff, [] => ∅
  | .diff, first :: rest => first.members.toFinset \ (rest.flatMap Setsrc.members).toFinset

theorem counted_resultObject (srcs : List Setsrc) : Counted (resultObject srcs, 0) ∅ := by
  unfold resultObject
  split
  · exact ⟨wf_ht .nil, rfl, rfl⟩
  · exact ⟨wf_intset intsetNew_wf, rfl, rfl⟩

theorem Counted.eq_empty {r : SetObj × Int} {S : Finset Bytes} (h : Counted r S) (hr : r.2 = 0) :
    S = ∅ := by
  have := h.card
  exact Finset.card_eq_zero.mp (by omega)

section Operands

variable {srcs : List Setsrc}

theorem valid_flatMap (hwf : ∀ src ∈ srcs, src.Wf) : ∀ e ∈ srcs.flatMap Setsrc.elements, e.Valid := by
  intro e he
  obtain ⟨src, hsrc, he⟩ := List.mem_flatMap.mp he
  exact (hwf src hsrc).valid e he

/-- **The union** is built with every member. -/
theorem unionResult_counted (hwf : ∀ src ∈ srcs, src.Wf) (limit : Nat) :
    Counted (unionResult false limit srcs (resultObject srcs)) (SetOperation.union.result srcs) := by
  have hadd := (counted_resultObject srcs).addElements (valid_flatMap hwf)
  simpa [unionResult, unionLoop_eq_addElements, elements_flatMap, SetOperation.result] using hadd

/-- **The count of the union** stops at the limit. -/
theorem unionResult_card (hwf : ∀ src ∈ srcs, src.Wf) (limit : Nat) :
    (unionResult true limit srcs (resultObject srcs)).2 =
      cutAt limit (SetOperation.union.result srcs).card := by
  have hstart := counted_resultObject srcs
  have hvalid := valid_flatMap hwf
  by_cases hlimit : limit = 0
  · have hadd := hstart.addElements hvalid
    simpa [unionResult, hlimit, unionLoop_eq_addElements, elements_flatMap, SetOperation.result,
      cutAt] using hadd.card
  · have hpos : (∅ : Finset Bytes).card < limit := by simp; omega
    have hcard := unionLoop_card hstart hpos hvalid
    simpa [unionResult, hlimit, Nat.pos_of_ne_zero hlimit, elements_flatMap, SetOperation.result,
      cutAt] using hcard

/-- The elements of an operand that pass a test are as many as their bytes. -/
theorem card_filter {src : Setsrc} (h : src.Wf) (test : Entry → Bool) :
    ((src.elements.filter test).map Entry.toBytes).toFinset.card = src.elements.countP test := by
  have hnodup : ((src.elements.filter test).map Entry.toBytes).Nodup := by
    refine List.Nodup.sublist (List.filter_sublist.map _) ?_
    rw [src.elements_members]
    exact h.nodup
  rw [List.toFinset_card_of_nodup hnodup, List.length_map, List.countP_eq_length_filter]

/-- The elements of an operand whose bytes pass a test. -/
theorem toFinset_filter {src : Setsrc} {test : Entry → Bool} {P : Bytes → Prop} [DecidablePred P]
    (htest : ∀ e ∈ src.elements, test e = true ↔ P e.toBytes) :
    ((src.elements.filter test).map Entry.toBytes).toFinset = src.members.toFinset.filter P := by
  ext m
  rw [← src.elements_members]
  simp only [List.mem_toFinset, List.mem_map, List.mem_filter, Finset.mem_filter]
  grind

end Operands

/-! ## The difference -/

section Difference

variable {first : Setsrc} {rest : List Setsrc}

/-- What the algorithms of the difference rely on: the payloads are well formed,
and one handle has one payload. -/
structure DiffWf (first : Setsrc) (rest : List Setsrc) : Prop where
  wf : first.Wf
  wf_rest : ∀ src ∈ rest, src.Wf
  same : ∀ src ∈ rest, src.id = first.id → src.set = first.set

theorem DiffWf.perm {rest' : List Setsrc} (h : DiffWf first rest) (hperm : rest'.Perm rest) :
    DiffWf first rest' :=
  ⟨h.wf, fun src hsrc => h.wf_rest src (hperm.mem_iff.mp hsrc),
    fun src hsrc => h.same src (hperm.mem_iff.mp hsrc)⟩

/-- **Algorithm 1**'s test. -/
theorem DiffWf.inAny_iff (h : DiffWf first rest) {e : Entry} (he : e ∈ first.elements) :
    inAny first rest e = true ↔ e.toBytes ∈ rest.flatMap Setsrc.members := by
  have hmem : e.toBytes ∈ first.members := by
    rw [← first.elements_members]
    exact List.mem_map_of_mem he
  simp only [inAny, List.any_eq_true, Bool.or_eq_true, List.mem_flatMap]
  refine exists_congr fun src => and_congr_right fun hsrc => ?_
  rw [(h.wf_rest src hsrc).has_iff (h.wf.valid e he)]
  constructor
  · rintro (hsame | hin)
    · simp only [Setsrc.isSame, Bool.and_eq_true, beq_iff_eq] at hsame
      rw [Setsrc.members, h.same src hsrc hsame.2]
      exact hmem
    · exact hin
  · exact .inr

theorem DiffWf.filter_inAny (h : DiffWf first rest) :
    ((first.elements.filter fun e => !inAny first rest e).map Entry.toBytes).toFinset =
      SetOperation.diff.result (first :: rest) := by
  rw [toFinset_filter (P := fun m => m ∉ rest.flatMap Setsrc.members) fun e he => by
    rw [← h.inAny_iff he]; simp]
  ext m
  simp [SetOperation.result]

/-- **Algorithm 2** subtracts one operand after the other. -/
theorem Counted.subtractLoop {r : SetObj × Int} {S : Finset Bytes} (h : Counted r S)
    (hwf : ∀ src ∈ rest, src.Wf) :
    Counted (Redis.subtractLoop rest r) (S \ (rest.flatMap Setsrc.members).toFinset) := by
  induction rest generalizing r S with
  | nil => simpa [Redis.subtractLoop] using h
  | cons src rest ih =>
      have hrest : ∀ src' ∈ rest, src'.Wf := fun src' hsrc => hwf src' (by simp [hsrc])
      have hsplit : S \ ((src :: rest).flatMap Setsrc.members).toFinset =
          (S \ src.members.toFinset) \ (rest.flatMap Setsrc.members).toFinset := by
        rw [List.flatMap_cons, List.toFinset_append]
        exact sdiff_sdiff_left.symm
      rw [hsplit, Redis.subtractLoop]
      have hmembers := src.elements_members
      have hvalid := (hwf src (by simp)).valid
      cases hs : src.set with
      | none =>
          simp only
          have hnil : src.members = [] := by simp [Setsrc.members, hs, payloadMembers]
          simpa [hnil] using ih h hrest
      | some o =>
          have helements : src.elements = o.elements := by simp [Setsrc.elements, hs]
          have hremoved := h.removeElements (helements ▸ hvalid)
          rw [← helements, hmembers, helements] at hremoved
          simp only
          split
          · next hzero =>
              rw [hremoved.eq_empty hzero, Finset.empty_sdiff]
              exact hremoved.eq_empty hzero ▸ hremoved
          · exact ih hremoved hrest

theorem Counted.subtractAll {dstset : SetObj} (h : DiffWf first rest) (hdst : Counted (dstset, 0) ∅) :
    Counted (Redis.subtractAll first rest dstset) (SetOperation.diff.result (first :: rest)) := by
  have hadd := hdst.addElements h.wf.valid
  rw [first.elements_members, Finset.empty_union] at hadd
  unfold Redis.subtractAll
  simp only
  split
  · next hzero =>
      have hempty := hadd.eq_empty hzero
      simpa [SetOperation.result, hempty] using hadd
  · exact hadd.subtractLoop h.wf_rest

theorem result_diff_perm {rest' : List Setsrc} (hperm : rest'.Perm rest) :
    SetOperation.diff.result (first :: rest') = SetOperation.diff.result (first :: rest) := by
  simp only [SetOperation.result]
  rw [List.toFinset_eq_of_perm _ _ (hperm.flatMap_right Setsrc.members)]

/-- The operand that is subtracted from itself leaves nothing. -/
theorem DiffWf.result_of_same (h : DiffWf first rest)
    (hsame : (rest.any fun src => src.isSame first) = true) :
    SetOperation.diff.result (first :: rest) = ∅ := by
  obtain ⟨src, hsrc, hsame⟩ := List.any_eq_true.mp hsame
  simp only [Setsrc.isSame, Bool.and_eq_true, beq_iff_eq] at hsame
  have hmembers : src.members = first.members := by
    rw [Setsrc.members, h.same src hsrc hsame.2]
    rfl
  refine Finset.sdiff_eq_empty_iff_subset.mpr fun m hm => ?_
  simp only [List.mem_toFinset, List.mem_flatMap] at hm ⊢
  exact ⟨src, hsrc, hmembers ▸ hm⟩

theorem result_of_none (hfirst : first.set.isNone = true) :
    SetOperation.diff.result (first :: rest) = ∅ := by
  simp [SetOperation.result, Setsrc.members, Option.isNone_iff_eq_none.mp hfirst, payloadMembers]

/-- The operands of algorithm 1, the larger ones first. -/
theorem perm_byRevCard (qsort : SizeSorts) (rest : List Setsrc) :
    (if rest.length > 0 then qsort.byRevCard rest else rest).Perm rest := by
  split
  · exact qsort.byRevCard_perm rest
  · rfl

/-- **The difference** is built with its members, by either algorithm. -/
theorem diffResult_counted (h : DiffWf first rest) (qsort : SizeSorts) (limit : Nat) {dstset : SetObj}
    (hdst : Counted (dstset, 0) ∅) :
    Counted (diffResult qsort false limit first rest dstset) (SetOperation.diff.result (first :: rest)) := by
  unfold diffResult
  split
  case isTrue hsame => exact h.result_of_same hsame ▸ hdst
  case isFalse =>
    split
    case isTrue hnone => exact result_of_none hnone ▸ hdst
    case isFalse =>
      split
      case isTrue =>
        have hperm := perm_byRevCard qsort rest
        rw [← result_diff_perm hperm, ← (h.perm hperm).filter_inAny]
        have hvalid : ∀ e ∈ first.elements.filter fun e =>
            !inAny first (if rest.length > 0 then qsort.byRevCard rest else rest) e, e.Valid :=
          fun e he => h.wf.valid e (List.mem_of_mem_filter he)
        simpa using hdst.addElements hvalid
      case isFalse => simpa using Counted.subtractAll h hdst

/-- **Algorithm 2b** counts the difference, up to the limit. -/
theorem countOutside_eq (h : DiffWf first rest) (limit : Nat) {dstset : SetObj}
    (hdst : Counted (dstset, 0) ∅) :
    countOutside limit first rest dstset =
      cutAt limit (SetOperation.diff.result (first :: rest)).card := by
  have haux := hdst.addElements (valid_flatMap h.wf_rest)
  rw [elements_flatMap, Finset.empty_union] at haux
  have htest : ∀ e ∈ first.elements, (!setTypeIsMemberAux (addElements (rest.flatMap Setsrc.elements)
      (dstset, 0)).1 e) = true ↔ e.toBytes ∉ rest.flatMap Setsrc.members := by
    intro e he
    rw [Bool.not_eq_true', ← Bool.not_eq_true, setTypeIsMemberAux_iff haux.wf (h.wf.valid e he),
      ← List.mem_toFinset, haux.members, List.mem_toFinset]
  have hresult : first.members.toFinset.filter (fun m => m ∉ rest.flatMap Setsrc.members) =
      SetOperation.diff.result (first :: rest) := by
    ext m
    simp [SetOperation.result]
  rw [countOutside, countElements_eq _ _ (by omega), Nat.zero_add, ← card_filter h.wf,
    toFinset_filter (P := fun m => m ∉ rest.flatMap Setsrc.members) htest, hresult]

/-- **The count of the difference**, on every path. -/
theorem diffResult_card (h : DiffWf first rest) (qsort : SizeSorts) (limit : Nat) {dstset : SetObj}
    (hdst : Counted (dstset, 0) ∅) :
    (diffResult qsort true limit first rest dstset).2 =
      cutAt limit (SetOperation.diff.result (first :: rest)).card := by
  have hempty : (0 : Int) = cutAt limit (∅ : Finset Bytes).card := by simp [cutAt]
  unfold diffResult
  split
  case isTrue hsame => rw [h.result_of_same hsame]; exact hempty
  case isFalse =>
    split
    case isTrue hnone => rw [result_of_none hnone]; exact hempty
    case isFalse =>
      split
      case isTrue =>
        have hperm := perm_byRevCard qsort rest
        rw [← result_diff_perm hperm, ← (h.perm hperm).filter_inAny, card_filter h.wf]
        simp [countElements_eq _ _ (show limit = 0 ∨ 0 < limit by omega)]
      case isFalse =>
        split
        case isTrue => simp [countOutside_eq h limit hdst]
        case isFalse hlimit =>
          have hcard := (Counted.subtractAll h hdst).card
          have hzero : limit = 0 := by simpa using hlimit
          simp [hcard, cutAt, hzero]

end Difference

/-! ## The replies -/

section Replies

variable {ν : Type} {srcs : List Setsrc}

/-- A reply that lists a set, each member once. -/
def Reply.Lists (reply : Reply ν) (S : Finset Bytes) : Prop :=
  ∃ members : List Bytes, reply = pushMembers members ∧ members.Nodup ∧ members.toFinset = S

theorem Counted.lists {r : SetObj × Int} {S : Finset Bytes} (h : Counted r S) :
    (resultReply false r : Reply ν).Lists S :=
  ⟨r.1.members, rfl, h.wf.nodup, h.members⟩

/-- What the operands of a call are: well formed, and one payload a handle. -/
structure SrcsWf (srcs : List Setsrc) : Prop where
  wf : ∀ src ∈ srcs, src.Wf
  same : ∀ src ∈ srcs, ∀ src' ∈ srcs, src.id = src'.id → src.set = src'.set

theorem SrcsWf.diffWf {first : Setsrc} {rest : List Setsrc} (h : SrcsWf (first :: rest)) :
    DiffWf first rest where
  wf := h.wf first (by simp)
  wf_rest src hsrc := h.wf src (by simp [hsrc])
  same src hsrc := h.same src (by simp [hsrc]) first (by simp)

/-- **Intersection**'s test. -/
theorem SrcsWf.inEvery_iff {first : Setsrc} {rest : List Setsrc} (h : SrcsWf (first :: rest)) {e : Entry}
    (he : e ∈ first.elements) :
    inEvery first rest e = true ↔ ∀ src ∈ first :: rest, e.toBytes ∈ src.members := by
  have hmem : e.toBytes ∈ first.members := by
    rw [← first.elements_members]
    exact List.mem_map_of_mem he
  simp only [inEvery, List.all_eq_true, Bool.or_eq_true, List.forall_mem_cons, hmem, true_and]
  refine forall₂_congr fun src hsrc => ?_
  rw [(h.wf src (by simp [hsrc])).has_iff (h.diffWf.wf.valid e he)]
  constructor
  · rintro (hsame | hin)
    · rw [Setsrc.members, h.diffWf.same src hsrc (beq_iff_eq.mp hsame)]
      exact hmem
    · exact hin
  · exact .inr

/-- The members of the intersection, whichever operand the walk is over. -/
theorem SrcsWf.filter_inEvery {first : Setsrc} {rest : List Setsrc} (h : SrcsWf srcs)
    (hperm : (first :: rest).Perm srcs) :
    ((first.elements.filter (inEvery first rest)).map Entry.toBytes).toFinset =
      SetOperation.inter.result srcs := by
  have hsorted : SrcsWf (first :: rest) :=
    ⟨fun src hsrc => h.wf src (hperm.mem_iff.mp hsrc), fun src hsrc src' hsrc' =>
      h.same src (hperm.mem_iff.mp hsrc) src' (hperm.mem_iff.mp hsrc')⟩
  rw [toFinset_filter (P := fun m => ∀ src ∈ first :: rest, m ∈ src.members) fun e he =>
    hsorted.inEvery_iff he]
  ext m
  simp only [SetOperation.result, Finset.mem_filter, List.mem_toFinset, List.mem_flatMap,
    ← hperm.mem_iff]
  constructor
  · exact fun hm => ⟨⟨first, by simp, hm.1⟩, hm.2⟩
  · exact fun hm => ⟨hm.2 first (by simp), hm.2⟩

/-- With an operand that is missing nothing is in every operand. -/
theorem result_inter_of_none (hnone : (srcs.any fun src => src.set.isNone) = true) :
    SetOperation.inter.result srcs = ∅ := by
  obtain ⟨src, hsrc, hnone⟩ := List.any_eq_true.mp hnone
  refine Finset.filter_eq_empty_iff.mpr fun m _ hall => ?_
  have hm := hall src hsrc
  simp [Setsrc.members, Option.isNone_iff_eq_none.mp hnone, payloadMembers] at hm

theorem SrcsWf.interReply_lists (h : SrcsWf srcs) (hne : srcs ≠ []) (qsort : SizeSorts) (limit : Nat) :
    (interReply qsort false limit srcs : Reply ν).Lists (SetOperation.inter.result srcs) := by
  unfold interReply
  split
  case isTrue hnone =>
    rw [result_inter_of_none hnone]
    exact ⟨[], rfl, .nil, rfl⟩
  case isFalse =>
    have hperm := qsort.byCard_perm srcs
    cases hsort : qsort.byCard srcs with
    | nil => exact absurd (hsort ▸ hperm).symm.eq_nil hne
    | cons first rest =>
        rw [hsort] at hperm
        have hfirst := h.wf first (hperm.mem_iff.mp (by simp))
        refine ⟨_, rfl, List.Nodup.sublist (List.filter_sublist.map _) ?_, h.filter_inEvery hperm⟩
        rw [first.elements_members]
        exact hfirst.nodup

theorem SrcsWf.interReply_counts (h : SrcsWf srcs) (hne : srcs ≠ []) (qsort : SizeSorts) (limit : Nat) :
    (interReply qsort true limit srcs : Reply ν) =
      .int (cutAt limit (SetOperation.inter.result srcs).card) := by
  unfold interReply
  split
  case isTrue hnone => simp [result_inter_of_none hnone, cutAt]
  case isFalse =>
    have hperm := qsort.byCard_perm srcs
    cases hsort : qsort.byCard srcs with
    | nil => exact absurd (hsort ▸ hperm).symm.eq_nil hne
    | cons first rest =>
        rw [hsort] at hperm
        have hfirst := h.wf first (hperm.mem_iff.mp (by simp))
        simp only [if_true]
        rw [countElements_eq _ _ (by omega), Nat.zero_add, ← card_filter hfirst, h.filter_inEvery hperm]

/-- **The listing forms**, whichever loops they run. -/
theorem SrcsWf.lists (h : SrcsWf srcs) (hne : srcs ≠ []) (qsort : SizeSorts) (op : SetOperation)
    (limit : Nat) :
    (setopReply qsort op false limit srcs : Reply ν).Lists (op.result srcs) := by
  cases op with
  | inter => exact h.interReply_lists hne qsort limit
  | union => exact (unionResult_counted h.wf limit).lists
  | diff =>
      cases srcs with
      | nil => exact absurd rfl hne
      | cons first rest =>
          exact (diffResult_counted h.diffWf qsort limit (counted_resultObject _)).lists

/-- **The counting forms**, whichever loops they run. -/
theorem SrcsWf.counts (h : SrcsWf srcs) (hne : srcs ≠ []) (qsort : SizeSorts) (op : SetOperation)
    (limit : Nat) :
    (setopReply qsort op true limit srcs : Reply ν) = .int (cutAt limit (op.result srcs).card) := by
  cases op with
  | inter => exact h.interReply_counts hne qsort limit
  | union => exact congrArg Reply.int (unionResult_card h.wf limit)
  | diff =>
      cases srcs with
      | nil => exact absurd rfl hne
      | cons first rest =>
          exact congrArg Reply.int (diffResult_card h.diffWf qsort limit (counted_resultObject _))

end Replies

/-! ## The commands and the sets -/

/-- What belongs to the result of an operation on the sets behind some handles;
the first handle is the one a difference starts from. -/
def SetOperation.Contains (A : AbsSets) (m : Bytes) : SetOperation → List Nat → Prop
  | .union, ids => ∃ id ∈ ids, m ∈ A id
  | .inter, ids => ∀ id ∈ ids, m ∈ A id
  | .diff, [] => False
  | .diff, id :: rest => m ∈ A id ∧ ∀ j ∈ rest, m ∉ A j

/-- The operands of a call, as one table of handles. -/
def handleTable {ν : Type} (ids : List Nat) : LuaValue ν := .table (ids.map (.handle .set))

section System

variable {ν : Type} [LuaNumber ν] {s : Sets} {A : AbsSets}

theorem Simulates.mem_members (h : Simulates s A) (id : Nat) (m : Bytes) :
    m ∈ (⟨id, s id⟩ : Setsrc).members ↔ m ∈ A id := by
  rw [← h.abs id, Setsrc.members]
  cases s id <;> simp [payloadMembers, payloadSet]

theorem Simulates.srcsWf (h : Simulates s A) (ids : List Nat) : SrcsWf (setSources s ids) where
  wf src hsrc := by
    obtain ⟨id, -, rfl⟩ := List.mem_map.mp hsrc
    exact h.wf id
  same src hsrc src' hsrc' hid := by
    obtain ⟨id, -, rfl⟩ := List.mem_map.mp hsrc
    obtain ⟨id', -, rfl⟩ := List.mem_map.mp hsrc'
    exact congrArg s hid

/-- The result of an operation, in terms of the sets the handles stand for. -/
theorem Simulates.mem_result_iff (h : Simulates s A) (op : SetOperation) {ids : List Nat} (hne : ids ≠ [])
    (m : Bytes) : m ∈ op.result (setSources s ids) ↔ op.Contains A m ids := by
  have hmem := h.mem_members
  cases op with
  | union => simp [SetOperation.result, SetOperation.Contains, setSources, hmem]
  | inter =>
      obtain ⟨id, rest, rfl⟩ := List.exists_cons_of_ne_nil hne
      simp only [SetOperation.result, SetOperation.Contains, setSources, Finset.mem_filter,
        List.mem_toFinset, List.mem_flatMap, List.mem_map, exists_exists_and_eq_and,
        forall_exists_index, and_imp, forall_apply_eq_imp_iff₂, hmem]
      exact ⟨fun hm => hm.2, fun hm => ⟨⟨id, by simp, hm id (by simp)⟩, hm⟩⟩
  | diff =>
      obtain ⟨id, rest, rfl⟩ := List.exists_cons_of_ne_nil hne
      simp [SetOperation.result, SetOperation.Contains, setSources, hmem]

omit [LuaNumber ν] in
theorem rlCheckValue_handles (ids : List Nat) :
    (ids.map (LuaValue.handle (ν := ν) .set)).mapM (fun v => rlCheckValue .set (some v)) = .ok ids := by
  induction ids with
  | nil => rfl
  | cons id ids ih => simp [List.mapM_cons, ih, bind, Except.bind, pure, Except.pure]

/-- A table of handles and the options behind it are accepted. -/
theorem setalgArgs_handleTable {cardinalityOnly : Bool} (cmdname : String) {ids : List Nat} (hne : ids ≠ [])
    {opts : List (LuaValue ν)} {limit : Nat} (hopts : setopLimit cardinalityOnly opts 0 = .ok limit) :
    setalgArgs cardinalityOnly cmdname (handleTable ids :: opts) = .ok (ids, limit) := by
  have hlen : ¬ (ids.map (LuaValue.handle (ν := ν) .set)).length < 1 := by simpa using hne
  have hkeys : rlChecklist (handleTable ids :: opts) 1 cmdname =
      .ok (ids.map (LuaValue.handle (ν := ν) .set)) := by
    simp [rlChecklist, luaArg, handleTable]
  simp only [setalgArgs, setopCount, hkeys, if_neg hlen, List.drop_succ_cons, List.drop_zero, hopts,
    rlCheckValue_handles, bind, Except.bind, pure, Except.pure]

/-- `LIMIT limit`. -/
theorem setopLimit_word {word : Bytes} {v : LuaValue ν} {limit : Nat} (hword : eqIgnoreCase word "limit" = true)
    (hv : rlTolong (some v) = some (limit : Int)) (hle : limit ≤ 2 ^ 63 - 1) :
    setopLimit true [.string word, v] 0 = .ok limit := by
  have hrange : ¬ ((limit : Int) < 0 ∨ (limit : Int) > 2 ^ 63 - 1) := by omega
  have hread : rlPoslongMsg [v] 1 "LIMIT can't be negative" = .ok limit := by
    simp only [rlPoslongMsg, luaArg, Nat.sub_self, List.getElem?_cons_zero, hv, if_neg hrange,
      Int.toNat_natCast]
  simp [setopLimit, hword, hread, bind, Except.bind]

theorem exec_listForm (s : Sets) (qsort : SizeSorts) (op : SetOperation) {ids : List Nat} (hne : ids ≠ []) :
    exec (listForm qsort op [(handleTable ids : LuaValue ν)]) s =
      (.ok (setopReply qsort op false 0 (setSources s ids)), s) := by
  cases op <;>
  · simp only [listForm, lsunion, lsinter, lsdiff, setopGeneric]
    rw [setalgArgs_handleTable _ hne rfl]
    rfl

theorem exec_cardForm (s : Sets) (qsort : SizeSorts) (op : SetOperation) {ids : List Nat} (hne : ids ≠ [])
    {opts : List (LuaValue ν)} {limit : Nat} (hopts : setopLimit true opts 0 = .ok limit) :
    exec (cardForm qsort op (handleTable ids :: opts)) s =
      (.ok (setopReply qsort op true limit (setSources s ids)), s) := by
  cases op <;>
  · simp only [cardForm, lsunioncard, lsintercard, lsdiffcard, setopGeneric]
    rw [setalgArgs_handleTable _ hne hopts]
    rfl

/-- **SUNION, SINTER and SDIFF are set algebra.**  Whatever the encodings, the
sizes and the sort, the reply lists the members of the result, each once, and no
operand changes. -/
theorem setops_are_set_algebra (h : Simulates s A) (qsort : SizeSorts) (op : SetOperation)
    {ids : List Nat} (hne : ids ≠ []) :
    ∃ members : List Bytes,
      exec (listForm qsort op [(handleTable ids : LuaValue ν)]) s = (.ok (pushMembers members), s) ∧
      members.Nodup ∧ ∀ m, m ∈ members ↔ op.Contains A m ids := by
  have hsrcs : setSources s ids ≠ [] := by simpa [setSources] using hne
  obtain ⟨members, hreply, hnodup, hset⟩ := (h.srcsWf ids).lists (ν := ν) hsrcs qsort op 0
  refine ⟨members, ?_, hnodup, fun m => ?_⟩
  · rw [exec_listForm s qsort op hne, hreply]
  · rw [← h.mem_result_iff op hne, ← hset, List.mem_toFinset]

/-- **SUNIONCARD, SINTERCARD and SDIFFCARD** count what the listing form lists,
up to a limit that is not 0. -/
theorem setcards_count_the_list (h : Simulates s A) (qsort qsort' : SizeSorts) (op : SetOperation)
    {ids : List Nat} (hne : ids ≠ []) {opts : List (LuaValue ν)} {limit : Nat}
    (hopts : setopLimit true opts 0 = .ok limit) :
    ∃ members : List Bytes,
      exec (listForm qsort op [(handleTable ids : LuaValue ν)]) s = (.ok (pushMembers members), s) ∧
      exec (cardForm qsort' op (handleTable ids :: opts)) s =
        (.ok (.int (if limit = 0 then members.length else min limit members.length : Nat)), s) := by
  have hsrcs : setSources s ids ≠ [] := by simpa [setSources] using hne
  obtain ⟨members, hreply, hnodup, hset⟩ := (h.srcsWf ids).lists (ν := ν) hsrcs qsort op 0
  refine ⟨members, ?_, ?_⟩
  · rw [exec_listForm s qsort op hne, hreply]
  · rw [exec_cardForm s qsort' op hne hopts, (h.srcsWf ids).counts hsrcs, ← hset,
      List.toFinset_card_of_nodup hnodup]
    rfl

end System

/-! ### Operands in three encodings -/

/-- `{1, 2, 3}` as an intset, `{2, b}` as a dict, `{3}` as a listpack. -/
def mixedSets : Sets :=
  Handles.put (Handles.put (Handles.put newSets 0 (some (.intset ⟨2, [1, 2, 3]⟩))) 1
    (some (.ht [ascii "2", ascii "b"]))) 2 (some (.listpack [.int 3]))

theorem simulates_mixedSets : Simulates mixedSets fun id => payloadSet (mixedSets id) := by
  refine ⟨fun id => ?_, fun _ => rfl⟩
  have hintset : (⟨2, [1, 2, 3]⟩ : Intset).Wf := ⟨by decide, by decide, by decide⟩
  have hlistpack : ∀ e ∈ [Entry.int 3], e.Valid := by simp [Entry.Valid, IsInt64]
  unfold mixedSets Handles.put
  split_ifs
  · exact payloadWf_some (wf_listpack (by decide) hlistpack) (by decide)
  · exact payloadWf_some (wf_ht (by decide)) (by decide)
  · exact payloadWf_some (wf_intset hintset) (by decide)
  · exact payloadWf_none

theorem setops_are_set_algebra_sample :
    ∃ members : List Bytes,
      exec (lsdiff insertionSizeSorts [(handleTable [0, 1, 7, 2, 1] : LuaValue IntegralDouble)]) mixedSets =
        (.ok (pushMembers members), mixedSets) ∧
      members.Nodup ∧ ascii "1" ∈ members ∧ ascii "2" ∉ members ∧ ascii "3" ∉ members := by
  obtain ⟨members, hexec, hnodup, hiff⟩ := setops_are_set_algebra (ν := IntegralDouble)
    simulates_mixedSets insertionSizeSorts .diff (List.cons_ne_nil 0 [1, 7, 2, 1])
  exact ⟨members, hexec, hnodup, (hiff _).mpr ⟨by decide, by decide⟩,
    fun hin => absurd ((hiff _).mp hin).2 (by decide), fun hin => absurd ((hiff _).mp hin).2 (by decide)⟩

theorem setcards_count_the_list_sample :
    ∃ members : List Bytes,
      exec (lsunion insertionSizeSorts [(handleTable [0, 1, 2] : LuaValue IntegralDouble)]) mixedSets =
        (.ok (pushMembers members), mixedSets) ∧
      exec (lsunioncard insertionSizeSorts [(handleTable [0, 1, 2] : LuaValue IntegralDouble),
        .string (ascii "LIMIT"), .number (.fin 3)]) mixedSets =
        (.ok (.int (min 3 members.length : Nat)), mixedSets) := by
  have hthree : rlTolong (some (.number (.fin 3) : LuaValue IntegralDouble)) = some ((3 : Nat) : Int) := rfl
  have hopts := setopLimit_word (show eqIgnoreCase (ascii "LIMIT") "limit" = true by decide) hthree
    (by decide)
  exact setcards_count_the_list simulates_mixedSets insertionSizeSorts insertionSizeSorts .union
    (List.cons_ne_nil 0 [1, 2]) hopts

end SkynetJit.Redis
