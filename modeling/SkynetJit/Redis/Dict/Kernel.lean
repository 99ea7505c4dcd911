import SkynetJit.Lib.Buckets
import SkynetJit.Lib.Raise
import SkynetJit.Lib.Transition
import SkynetJit.Redis.Random

/-!
# SkynetJit.Redis.Dict.Kernel

Hash tables that are rehashed a bucket at a time (`kernel/dict.c`).

A dict has two tables.  While it is rehashed the buckets of the first one move
to the second one, in steps that other operations take on the way, so every
search has to know which buckets are behind `rehashidx`.

A dict without values, whose stored keys contain the key, is one with the
stored keys for values.  Counts stay below 2^64, and memory does not run out.
What nobody passes here is left out: callbacks, `force_full_rehash`, and the
encoding of keys in pointers.
-/

namespace SkynetJit.Redis.HashTable

/-! ## Tables -/

/-- `dictEntry`: a key and a value. -/
abbrev Entry (κ ν : Type) := Σ _ : κ, ν

/-- One of the two tables: `ht_table`, `ht_size_exp` and `ht_used`.  A null
pointer is a table without buckets. -/
structure Table (κ ν : Type) where
  buckets : List (List (Entry κ ν))
  sizeExp : Int
  used : Nat

/-- `dictResizeEnable`. -/
inductive ResizeEnable where
  | enable
  | avoid
  | forbid
deriving DecidableEq, Repr

/-- What is used of a `dictType`; the ratio that `resizeAllowed` is given is
that of two numbers. -/
structure DictType (κ : Type) where
  hashFunction : κ → Nat
  resizeAllowed : Nat → Nat → Nat → Bool

/-- `dict`; `rehashidx` is `none` for -1. -/
structure Dict (κ ν : Type) where
  ht0 : Table κ ν
  ht1 : Table κ ν
  rehashidx : Option Nat
  pauserehash : Nat
  pauseAutoResize : Int

/-- A pointer to a bucket: of the second table or the first one, and which. -/
structure Bucket where
  table : Bool
  idx : Nat
deriving DecidableEq, Repr

/-- `dict_force_resize_ratio`. -/
def forceResizeRatio : Nat := 4

/-- `HASHTABLE_MIN_FILL`. -/
def minFill : Nat := 8

/-- `DICT_HT_INITIAL_EXP`. -/
def htInitialExp : Nat := 2

/-- `DICT_HT_INITIAL_SIZE`. -/
def htInitialSize : Nat := 2 ^ htInitialExp

/-- `DICTHT_SIZE`. -/
def dicthtSize (exp : Int) : Nat := if exp = -1 then 0 else 2 ^ exp.toNat

/-- `DICTHT_SIZE_MASK`. -/
def dicthtSizeMask (exp : Int) : Nat := if exp = -1 then 0 else dicthtSize exp - 1

variable {κ ν : Type}

namespace Table

/-- `_dictReset`. -/
def reset : Table κ ν := ⟨[], -1, 0⟩

/-- `_dictResize`, the new table. -/
def create (exp : Nat) : Table κ ν := ⟨List.replicate (2 ^ exp) [], exp, 0⟩

/-- `ht_table[i]`. -/
def bucket (t : Table κ ν) (i : Nat) : Except Crash (List (Entry κ ν)) :=
  match t.buckets[i]? with
  | some chain => .ok chain
  | none => .error .access

/-- The entries in no order. -/
def entries (t : Table κ ν) : List (Entry κ ν) := t.buckets.flatten

end Table

namespace Dict

/-- `dictCreate`. -/
def create : Dict κ ν := ⟨.reset, .reset, none, 0, 0⟩

/-- `dictEmpty`. -/
def empty (_ : Dict κ ν) : Dict κ ν := create

/-- `dictPauseRehashing`. -/
def pauseRehashing (d : Dict κ ν) : Dict κ ν := { d with pauserehash := (d.pauserehash + 1) % 2 ^ 32 }

/-- `dictResumeRehashing`. -/
def resumeRehashing (d : Dict κ ν) : Dict κ ν := { d with pauserehash := (d.pauserehash + (2 ^ 32 - 1)) % 2 ^ 32 }

/-- The cast to `int16_t`. -/
def int16 (n : Int) : Int := n.bmod (2 ^ 16)

/-- `dictPauseAutoResize` and `dictResumeAutoResize`. -/
def addPauseAutoResize (d : Dict κ ν) (n : Int) : Dict κ ν := { d with pauseAutoResize := int16 (d.pauseAutoResize + n) }

/-- `dictIsRehashing`. -/
def isRehashing (d : Dict κ ν) : Bool := d.rehashidx.isSome

/-- `dictSize`. -/
def size (d : Dict κ ν) : Nat := d.ht0.used + d.ht1.used

/-- The second table or the first one. -/
def ht (d : Dict κ ν) (second : Bool) : Table κ ν := if second then d.ht1 else d.ht0

def setHt (d : Dict κ ν) (second : Bool) (t : Table κ ν) : Dict κ ν :=
  if second then { d with ht1 := t } else { d with ht0 := t }

/-- The entries in no order. -/
def entries (d : Dict κ ν) : List (Entry κ ν) := d.ht0.entries ++ d.ht1.entries

end Dict

/-! ## Resizing -/

section Operations

variable (ty : DictType κ) (can : ResizeEnable)

/-- `_dictNextExp`. -/
def dictNextExp (size : Nat) : Nat :=
  if size ≤ htInitialSize then htInitialExp
  else if 2 ^ 63 - 1 ≤ size then 63
  else Nat.log2 (size - 1) + 1

/-- `_dictResize`: whether it was resized, and the dict. -/
def dictResize (d : Dict κ ν) (size : Nat) : Except Crash (Bool × Dict κ ν) :=
  if d.isRehashing then .error .assertion
  else
    let exp := dictNextExp size
    if 2 ^ exp < size ∨ 2 ^ exp * 8 % 2 ^ 64 < 2 ^ exp then .ok (false, d)
    else if (exp : Int) = d.ht0.sizeExp then .ok (false, d)
    else if d.ht0.buckets = [] ∨ d.ht0.used = 0 then
      .ok (true, { d with ht0 := .create exp, ht1 := .reset, rehashidx := none })
    else .ok (true, { d with ht1 := .create exp, rehashidx := some 0 })

/-- `dictExpand`. -/
def dictExpand (d : Dict κ ν) (size : Nat) : Except Crash (Bool × Dict κ ν) :=
  if d.isRehashing ∨ size < d.ht0.used ∨ size ≤ dicthtSize d.ht0.sizeExp then .ok (false, d)
  else dictResize d size

/-- `dictShrink`. -/
def dictShrink (d : Dict κ ν) (size : Nat) : Except Crash (Bool × Dict κ ν) :=
  if d.isRehashing ∨ size < d.ht0.used ∨ dicthtSize d.ht0.sizeExp ≤ size then .ok (false, d)
  else dictResize d size

/-- `dictTypeResizeAllowed`. -/
def dictTypeResizeAllowed (d : Dict κ ν) (size : Nat) : Bool :=
  ty.resizeAllowed (dicthtSize (dictNextExp size) * 8) d.ht0.used (dicthtSize d.ht0.sizeExp)

/-- `dictExpandIfNeeded`. -/
def dictExpandIfNeeded (d : Dict κ ν) : Except Crash (Bool × Dict κ ν) :=
  if d.isRehashing then .ok (true, d)
  else if dicthtSize d.ht0.sizeExp = 0 then do
    let (_, d) ← dictExpand d htInitialSize
    pure (true, d)
  else if (can = .enable ∧ dicthtSize d.ht0.sizeExp ≤ d.ht0.used) ∨
      (can ≠ .forbid ∧ forceResizeRatio * dicthtSize d.ht0.sizeExp ≤ d.ht0.used) then
    if dictTypeResizeAllowed ty d (d.ht0.used + 1) then do
      let (_, d) ← dictExpand d (d.ht0.used + 1)
      pure (true, d)
    else .ok (true, d)
  else .ok (false, d)

/-- `dictShrinkIfNeeded`. -/
def dictShrinkIfNeeded (d : Dict κ ν) : Except Crash (Bool × Dict κ ν) :=
  if d.isRehashing then .ok (true, d)
  else if dicthtSize d.ht0.sizeExp ≤ htInitialSize then .ok (true, d)
  else if (can = .enable ∧ d.ht0.used * minFill ≤ dicthtSize d.ht0.sizeExp) ∨
      (can ≠ .forbid ∧ d.ht0.used * minFill * forceResizeRatio ≤ dicthtSize d.ht0.sizeExp) then
    if dictTypeResizeAllowed ty d d.ht0.used then do
      let (_, d) ← dictShrink d d.ht0.used
      pure (true, d)
    else .ok (true, d)
  else .ok (false, d)

/-- `_dictExpandIfNeeded` and `_dictShrinkIfNeeded`, of which no caller looks at
the result. -/
def unlessPaused (resize : Dict κ ν → Except Crash (Bool × Dict κ ν)) (d : Dict κ ν) : Except Crash (Dict κ ν) :=
  if d.pauseAutoResize > 0 then .ok d
  else do
    let (_, d) ← resize d
    pure d

/-! ## Rehashing -/

/-- `rehashEntriesInBucketAtIndex`, the loop over the chain. -/
def rehashEntries (idx : Nat) : List (Entry κ ν) → Dict κ ν → Except Crash (Dict κ ν)
  | [], d => .ok d
  | de :: chain, d => do
      let h := (if d.ht0.sizeExp < d.ht1.sizeExp then ty.hashFunction de.1 else idx) &&& dicthtSizeMask d.ht1.sizeExp
      let there ← d.ht1.bucket h
      rehashEntries idx chain { d with
        ht0 := { d.ht0 with used := d.ht0.used - 1 }
        ht1 := { d.ht1 with buckets := d.ht1.buckets.set h (de :: there), used := d.ht1.used + 1 } }

def rehashEntriesInBucketAtIndex (d : Dict κ ν) (idx : Nat) : Except Crash (Dict κ ν) := do
  let chain ← d.ht0.bucket idx
  let d ← rehashEntries ty idx chain d
  pure { d with ht0 := { d.ht0 with buckets := d.ht0.buckets.set idx [] } }

/-- `dictCheckRehashingCompleted`. -/
def dictCheckRehashingCompleted (d : Dict κ ν) : Bool × Dict κ ν :=
  if d.ht0.used ≠ 0 then (false, d)
  else (true, { d with ht0 := d.ht1, ht1 := .reset, rehashidx := none })

/-- Whether `dictRehash` and `_dictBucketRehash` go on: it is being rehashed,
and that is neither forbidden nor to be avoided. -/
def mayRehash (d : Dict κ ν) : Bool :=
  let s0 := dicthtSize d.ht0.sizeExp
  let s1 := dicthtSize d.ht1.sizeExp
  can ≠ .forbid ∧ d.isRehashing ∧
    ¬ (can = .avoid ∧ ((s0 < s1 ∧ s1 < forceResizeRatio * s0) ∨ (s1 < s0 ∧ s0 < minFill * forceResizeRatio * s1)))

/-- `dictRehash`, the loop over empty buckets: how many more may be visited,
and where it stands. -/
def skipEmpty (t : Table κ ν) : Nat → Nat → Except Crash (Nat × Nat)
  | 0, idx => .ok (0, idx)
  | emptyVisits + 1, idx => do
      let chain ← t.bucket idx
      if chain = [] then skipEmpty t emptyVisits (idx + 1) else pure (emptyVisits + 1, idx)

/-- `dictRehash`, the loop. -/
def rehashLoop : Nat → Nat → Dict κ ν → Except Crash (Bool × Dict κ ν)
  | 0, _, d => .ok (!(dictCheckRehashingCompleted d).1, (dictCheckRehashingCompleted d).2)
  | n + 1, emptyVisits, d =>
      if d.ht0.used = 0 then .ok (!(dictCheckRehashingCompleted d).1, (dictCheckRehashingCompleted d).2)
      else match d.rehashidx with
        | none => .error .assertion
        | some idx =>
            if dicthtSize d.ht0.sizeExp ≤ idx then .error .assertion
            else do
              let (emptyVisits, idx) ← skipEmpty d.ht0 emptyVisits idx
              if emptyVisits = 0 then pure (true, { d with rehashidx := some idx })
              else do
                let d ← rehashEntriesInBucketAtIndex ty d idx
                rehashLoop n emptyVisits { d with rehashidx := some (idx + 1) }

def dictRehash (d : Dict κ ν) (n : Nat) : Except Crash (Bool × Dict κ ν) :=
  if mayRehash can d then rehashLoop ty n (n * 10) d else .ok (false, d)

/-- `_dictBucketRehash`, of which no caller looks at the result. -/
def dictBucketRehash (d : Dict κ ν) (idx : Nat) : Except Crash (Dict κ ν) :=
  if d.pauserehash ≠ 0 ∨ ¬ mayRehash can d then .ok d
  else do
    let d ← rehashEntriesInBucketAtIndex ty d idx
    pure (dictCheckRehashingCompleted d).2

/-- `_dictRehashStepIfNeeded`. -/
def dictRehashStepIfNeeded (d : Dict κ ν) (visitedIdx : Nat) : Except Crash (Dict κ ν) :=
  match d.rehashidx with
  | none => .ok d
  | some r =>
      if d.pauserehash ≠ 0 then .ok d
      else do
        let there ← if r ≤ visitedIdx then d.ht0.bucket visitedIdx else pure []
        if there ≠ [] then dictBucketRehash ty can d visitedIdx
        else do
          let (_, d) ← dictRehash ty can d 1
          pure d

/-! ## Searching -/

/-- The tables that a search goes through. -/
def visited (d : Dict κ ν) (idx : Nat) : List Bool :=
  (if d.rehashidx.any fun r => idx < r then [] else [false]) ++ if d.isRehashing then [true] else []

/-- Where a key would be in one of the tables. -/
def place (t : Table κ ν) (key : κ) : Nat := ty.hashFunction key &&& dicthtSizeMask t.sizeExp

variable [DecidableEq κ]

/-- The loop over the tables: whether the key is there, and the last bucket
that was searched. -/
def search (d : Dict κ ν) (key : κ) : List Bool → Option Bucket → Except Crash (Bool × Option Bucket)
  | [], last => .ok (false, last)
  | table :: tables, _ => do
      let bucket : Bucket := ⟨table, place ty (d.ht table) key⟩
      let chain ← (d.ht table).bucket bucket.idx
      if key ∈ chain.keys then pure (true, some bucket) else search d key tables (some bucket)

/-- `dictFindLinkInternal`; a null pointer for a bucket, which only
`dictSetKeyAtLink` could be given, fails its assertion. -/
def dictFindLinkInternal (d : Dict κ ν) (key : κ) : Except Crash ((Bool × Option Bucket) × Dict κ ν) := do
  let idx := place ty d.ht0 key
  let d ← dictRehashStepIfNeeded ty can d idx
  let found ← search ty d key (visited d idx) none
  pure (found, d)

/-- `dictFindLink`. -/
def dictFindLink (d : Dict κ ν) (key : κ) : Except Crash ((Bool × Option Bucket) × Dict κ ν) :=
  if d.size = 0 then .ok ((false, none), d) else dictFindLinkInternal ty can d key

/-- `dictFetchValue`. -/
def dictFetchValue (d : Dict κ ν) (key : κ) : Except Crash (Option ν × Dict κ ν) := do
  let (found, d) ← dictFindLink ty can d key
  if found.1 then
    match found.2 with
    | none => .error .access
    | some bucket => do
        let chain ← (d.ht bucket.table).bucket bucket.idx
        pure (chain.dlookup key, d)
  else pure (none, d)

/-- `dictFindLinkForInsert`: whether the key is there, and the bucket it is in
or goes into. -/
def dictFindLinkForInsert (d : Dict κ ν) (key : κ) : Except Crash ((Bool × Option Bucket) × Dict κ ν) := do
  let idx := place ty d.ht0 key
  let d ← dictRehashStepIfNeeded ty can d idx
  let d ← unlessPaused (dictExpandIfNeeded ty can) d
  let found ← search ty d key (visited d idx) none
  pure ((found.1, found.2.map fun bucket => if found.1 then bucket else ⟨d.isRehashing, bucket.idx⟩), d)

/-! ## Changing -/

/-- Give a bucket another chain. -/
def updateBucket (d : Dict κ ν) (bucket : Bucket) (used : Nat → Nat) (f : List (Entry κ ν) → List (Entry κ ν)) :
    Except Crash (Dict κ ν) := do
  let t := d.ht bucket.table
  let chain ← t.bucket bucket.idx
  pure (d.setHt bucket.table { t with buckets := t.buckets.set bucket.idx (f chain), used := used t.used })

/-- `dictInsertKeyAtLink`, with the value. -/
def dictInsertKeyAtLink (d : Dict κ ν) (key : κ) (val : ν) : Option Bucket → Except Crash (Dict κ ν)
  | none => .error .assertion
  | some bucket =>
      if bucket.table = d.isRehashing ∧ bucket.idx ≤ dicthtSizeMask (d.ht d.isRehashing).sizeExp then
        updateBucket d bucket (· + 1) (⟨key, val⟩ :: ·)
      else .error .assertion

/-- `dictAdd`. -/
def dictAdd (d : Dict κ ν) (key : κ) (val : ν) : Except Crash (Bool × Dict κ ν) := do
  let (found, d) ← dictFindLinkForInsert ty can d key
  if found.1 then pure (false, d)
  else do
    let d ← dictInsertKeyAtLink d key val found.2
    pure (true, d)

/-- `dictReplace`. -/
def dictReplace (d : Dict κ ν) (key : κ) (val : ν) : Except Crash (Bool × Dict κ ν) := do
  let (found, d) ← dictFindLinkForInsert ty can d key
  if found.1 then
    match found.2 with
    | none => .error .access
    | some bucket => do
        let d ← updateBucket d bucket id (·.kreplace key val)
        pure (false, d)
  else do
    let d ← dictInsertKeyAtLink d key val found.2
    pure (true, d)

/-- `dictSetKeyAtLink` of a new key, at the bucket that `dictFindLink` gave. -/
def dictSetKeyAtLink (d : Dict κ ν) (key : κ) (val : ν) (bucket : Option Bucket) : Except Crash (Dict κ ν) := do
  let (_, d') ← dictExpandIfNeeded ty can d
  if (d.ht0.sizeExp, d.ht1.sizeExp) ≠ (d'.ht0.sizeExp, d'.ht1.sizeExp) ∨ bucket = none then do
    let (found, d') ← dictFindLinkInternal ty can d' key
    if found.1 ∨ found.2 = none then .error .assertion
    else dictInsertKeyAtLink d' key val found.2
  else dictInsertKeyAtLink d' key val bucket

/-- A key that is looked for first and added if it is not there, as by
`setTypeAddAux` and `zsetAdd`. -/
def addUnlessFound (d : Dict κ ν) (key : κ) (val : ν) : Except Crash (Bool × Dict κ ν) := do
  let (found, d) ← dictFindLink ty can d key
  if found.1 then pure (false, d)
  else do
    let d ← dictSetKeyAtLink ty can d key val found.2
    pure (true, d)

/-- `dictGenericDelete`: the value that was there. -/
def dictGenericDelete (d : Dict κ ν) (key : κ) : Except Crash (Option ν × Dict κ ν) :=
  if d.size = 0 then .ok (none, d)
  else do
    let idx := place ty d.ht0 key
    let d ← dictRehashStepIfNeeded ty can d idx
    let found ← search ty d key (visited d idx) none
    match found with
    | (true, some bucket) => do
        let chain ← (d.ht bucket.table).bucket bucket.idx
        let d ← updateBucket d bucket (· - 1) (·.kerase key)
        let d ← unlessPaused (dictShrinkIfNeeded ty can) d
        pure (chain.dlookup key, d)
    | _ => pure (none, d)

end Operations

end SkynetJit.Redis.HashTable
