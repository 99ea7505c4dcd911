import Mathlib.Data.Set.Finite.Basic
import Mathlib.Data.Set.Finite.Lattice
import Mathlib.Data.Int.Interval
import Mathlib.Order.Interval.Set.Defs
import SkynetJit.Lib.Transition
import SkynetJit.Lib.Bytes

/-!
# SkynetJit.Win64.Registry

The table that gives sockets and pollers small numbers on Windows
(`win_compat.c`): an array that doubles, in which a slot without a kind is
free, and the number of a slot is its index above a base.

To its callers the table is a finite map from numbers to handles;
`registry_refines` says so for every sequence of calls with the two kinds of
handle.  A call with the kind that marks free slots is not one of these.
-/

namespace SkynetJit.Win64

open Transition

/-- `enum handle_kind`. -/
inductive HandleKind where
  | none | socket | epoll
deriving DecidableEq, Repr

/-- `struct handle_entry`. -/
structure HandleEntry where
  value : UInt64
  kind : HandleKind
deriving DecidableEq, Repr

/-- `registry_entries`; its length is `registry_capacity`. -/
abbrev Registry := List HandleEntry

/-- `HANDLE_ID_BASE`. -/
def handleIdBase : Nat := 256

/-- `INT_MAX`. -/
def intMax : Nat := 2147483647

/-- A slot as `memset` leaves it. -/
def zeroEntry : HandleEntry := ⟨0, .none⟩

/-- The conversion of a `size_t` to `int`. -/
def toInt (n : Nat) : Int := Int.bmod n (2 ^ 32)

/-- The capacity a full table grows to. -/
def newCapacity (r : Registry) : Nat := if r.length = 0 then 256 else r.length * 2 % 2 ^ 64

/-- `registry_add`: the number, or -1.  Whether the library starts and whether
`realloc` finds room is up to the system. -/
def registryAdd (started room : Bool) (r : Registry) (value : UInt64) (kind : HandleKind) : Int × Registry :=
  if !started then (-1, r)
  else
    let index := r.findIdx fun e => e.kind = .none
    if index = r.length then
      if newCapacity r > intMax - handleIdBase then (-1, r)
      else if !room then (-1, r)
      else (handleIdBase + toInt r.length,
        (r ++ List.replicate (newCapacity r - r.length) zeroEntry).set r.length ⟨value, kind⟩)
    else (handleIdBase + toInt index, r.set index ⟨value, kind⟩)

/-- `registry_get`. -/
def registryGet (r : Registry) (id : Int) (kind : HandleKind) : Option UInt64 :=
  if id < handleIdBase then none
  else match r[(id - handleIdBase).toNat]? with
    | some e => if e.kind = kind then some e.value else none
    | none => none

/-- `registry_take`. -/
def registryTake (r : Registry) (id : Int) : Option (HandleKind × UInt64) × Registry :=
  if id < handleIdBase then (none, r)
  else match r[(id - handleIdBase).toNat]? with
    | some e =>
        if e.kind ≠ .none then (some (e.kind, e.value), r.set (id - handleIdBase).toNat zeroEntry)
        else (none, r)
    | none => (none, r)

/-! ## The map -/

/-- What the numbers stand for. -/
abbrev HandleMap := Int → Option (HandleKind × UInt64)

/-- The map a table holds. -/
def live (r : Registry) : HandleMap := fun id =>
  if id < handleIdBase then none
  else match r[(id - handleIdBase).toNat]? with
    | some e => if e.kind = .none then none else some (e.kind, e.value)
    | none => none

/-- The map with one number bound, or freed. -/
def HandleMap.put (m : HandleMap) (id : Int) (b : Option (HandleKind × UInt64)) : HandleMap :=
  fun i => if i = id then b else m i

@[simp] theorem HandleMap.put_self (m : HandleMap) (id : Int) (b : Option (HandleKind × UInt64)) :
    m.put id b id = b := if_pos rfl

theorem HandleMap.put_of_ne (m : HandleMap) {id i : Int} (b : Option (HandleKind × UInt64)) (h : i ≠ id) :
    m.put id b i = m i := if_neg h

/-- The number of a slot. -/
def slotId (index : Nat) : Int := handleIdBase + index

theorem live_slotId (r : Registry) (index : Nat) :
    live r (slotId index) = match r[index]? with
      | some e => if e.kind = .none then none else some (e.kind, e.value)
      | none => none := by
  have hge : ¬ slotId index < handleIdBase := by
    rw [slotId]
    omega
  have hindex : (slotId index - handleIdBase).toNat = index := by
    rw [slotId]
    omega
  rw [live, if_neg hge, hindex]

theorem slotId_toNat {id : Int} (h : ¬ id < handleIdBase) : slotId (id - handleIdBase).toNat = id := by
  rw [slotId]
  omega

theorem live_of_lt {r : Registry} {id : Int} (h : id < handleIdBase) : live r id = none := if_pos h

/-- Two tables hold the same map if they agree on the slots. -/
theorem live_ext {r : Registry} {m : HandleMap} (hlow : ∀ id : Int, id < handleIdBase → m id = none)
    (h : ∀ index, live r (slotId index) = m (slotId index)) : live r = m := by
  funext id
  by_cases hid : id < handleIdBase
  · rw [live_of_lt hid, hlow id hid]
  · rw [← slotId_toNat hid]
    exact h _

theorem slotId_inj {i j : Nat} (h : slotId i = slotId j) : i = j := by
  rw [slotId, slotId] at h
  omega

/-- Writing a slot writes its number. -/
theorem live_set {r : Registry} {index : Nat} (hindex : index < r.length) (e : HandleEntry) :
    live (r.set index e)
      = (live r).put (slotId index) (if e.kind = .none then none else some (e.kind, e.value)) := by
  apply live_ext
  · intro id hid
    rw [HandleMap.put_of_ne _ _ (by rw [slotId]; omega), live_of_lt hid]
  · intro i
    by_cases hi : i = index
    · rw [hi, HandleMap.put_self, live_slotId, List.getElem?_set_self hindex]
    · rw [HandleMap.put_of_ne _ _ fun h => hi (slotId_inj h), live_slotId, live_slotId,
        List.getElem?_set_ne (Ne.symm hi)]

/-- Free slots at the end hold nothing. -/
theorem live_append_zeros (r : Registry) (n : Nat) : live (r ++ List.replicate n zeroEntry) = live r := by
  apply live_ext
  · exact fun id hid => live_of_lt hid
  · intro i
    rw [live_slotId, live_slotId]
    by_cases hi : i < r.length
    · rw [List.getElem?_append_left hi]
    · have hi' : r.length ≤ i := Nat.le_of_not_lt hi
      rw [List.getElem?_append_right hi', List.getElem?_eq_none hi', List.getElem?_replicate]
      split_ifs <;> rfl

/-- The slots have numbers an `int` can hold. -/
def Registry.Fits (r : Registry) : Prop := r.length ≤ intMax - handleIdBase

theorem fits_lt {n : Nat} (h : n ≤ intMax - handleIdBase) : n < 2147483392 := by
  rw [intMax, handleIdBase] at h
  omega

theorem toInt_of_fits {n : Nat} (h : n ≤ intMax - handleIdBase) : toInt n = n := by
  have hlt := fits_lt h
  exact Int.bmod_eq_of_le_mul_two (by omega) (by omega)

/-- A table holds finitely many handles, under numbers from the base on. -/
theorem finite_live (r : Registry) : {id | live r id ≠ none}.Finite := by
  refine (Set.finite_Icc (handleIdBase : Int) (slotId r.length)).subset fun id hid => ?_
  have hge : ¬ id < handleIdBase := fun hlt => hid (live_of_lt hlt)
  refine ⟨Int.not_lt.mp hge, ?_⟩
  rw [← slotId_toNat hge]
  by_contra hgt
  apply hid
  rw [← slotId_toNat hge, live_slotId, List.getElem?_eq_none]
  rw [slotId, slotId] at hgt
  omega

/-! ## The calls as steps -/

/-- A call, with what the system lets it do. -/
inductive RegistryCall where
  | add (value : UInt64) (kind : HandleKind) (started room : Bool)
  | get (id : Int) (kind : HandleKind)
  | take (id : Int)
deriving DecidableEq, Repr

/-- What a call returns. -/
inductive RegistryReply where
  | id (id : Int)
  | value (value : UInt64)
  | entry (kind : HandleKind) (value : UInt64)
  | notFound
deriving DecidableEq, Repr

/-- One call. -/
def registryStep (r : Registry) : RegistryCall → RegistryReply × Registry
  | .add value kind started room =>
      let a := registryAdd started room r value kind
      (.id a.1, a.2)
  | .get id kind =>
      match registryGet r id kind with
      | some value => (.value value, r)
      | none => (.notFound, r)
  | .take id =>
      let t := registryTake r id
      match t.1 with
      | some (kind, value) => (.entry kind value, t.2)
      | none => (.notFound, t.2)

/-- What a call may do to a map of handles. -/
inductive MapStep (m : HandleMap) : RegistryCall → RegistryReply → HandleMap → Prop where
  | addFails {value kind started room} : MapStep m (.add value kind started room) (.id (-1)) m
  | adds {value kind started room} {id : Int} (hbase : handleIdBase ≤ id) (hmax : id ≤ intMax)
      (hfree : m id = none) :
      MapStep m (.add value kind started room) (.id id) (m.put id (some (kind, value)))
  | gets {id kind value} (h : m id = some (kind, value)) : MapStep m (.get id kind) (.value value) m
  | getFails {id kind} (h : ∀ value, m id ≠ some (kind, value)) : MapStep m (.get id kind) .notFound m
  | takes {id kind value} (h : m id = some (kind, value)) :
      MapStep m (.take id) (.entry kind value) (m.put id none)
  | takeFails {id} (h : m id = none) : MapStep m (.take id) .notFound m

/-- The kind of a call is that of a handle. -/
def RegistryCall.Kinded : RegistryCall → Prop
  | .add _ kind _ _ => kind ≠ .none
  | .get _ kind => kind ≠ .none
  | .take _ => True

instance (call : RegistryCall) : Decidable call.Kinded :=
  match call with
  | .add _ kind _ _ => inferInstanceAs (Decidable (kind ≠ .none))
  | .get _ kind => inferInstanceAs (Decidable (kind ≠ .none))
  | .take _ => inferInstanceAs (Decidable True)

/-- The slot that `registryAdd` finds is free. -/
theorem live_findIdx {r : Registry} (h : r.findIdx (fun e => e.kind = .none) < r.length) :
    live r (slotId (r.findIdx fun e => e.kind = .none)) = none := by
  have hfree := List.findIdx_getElem (w := h)
  rw [live_slotId, List.getElem?_eq_getElem h]
  exact if_pos (of_decide_eq_true hfree)

theorem lt_newCapacity {r : Registry} (h : r.Fits) : r.length < newCapacity r := by
  rw [Registry.Fits, intMax, handleIdBase] at h
  rw [newCapacity]
  split_ifs <;> omega

/-- Writing the slot of a number that is free. -/
theorem mapStep_set {r r' : Registry} {index : Nat} (h : r'.Fits) (hindex : index < r'.length)
    (hsame : live r' = live r) (hfree : live r (slotId index) = none) (started room : Bool) (value : UInt64)
    {kind : HandleKind} (hkind : kind ≠ .none) :
    MapStep (live r) (.add value kind started room) (.id (handleIdBase + toInt index))
      (live (r'.set index ⟨value, kind⟩)) := by
  have hle : index ≤ intMax - handleIdBase := hindex.le.trans h
  have hid : (handleIdBase : Int) + toInt index = slotId index := by
    rw [toInt_of_fits hle, slotId]
  rw [hid, live_set hindex, if_neg hkind, hsame]
  apply MapStep.adds
  · rw [slotId]
    omega
  · rw [intMax, handleIdBase] at hle
    rw [slotId, intMax, handleIdBase]
    omega
  · exact hfree

/-- **Adding** fails and changes nothing, or binds a number that was free. -/
theorem registryAdd_spec {r : Registry} (h : r.Fits) (started room : Bool) (value : UInt64)
    {kind : HandleKind} (hkind : kind ≠ .none) :
    (registryAdd started room r value kind).2.Fits ∧
      MapStep (live r) (.add value kind started room) (.id (registryAdd started room r value kind).1)
        (live (registryAdd started room r value kind).2) := by
  have hidx : r.findIdx (fun e => e.kind = .none) ≤ r.length := List.findIdx_le_length
  simp only [registryAdd]
  split_ifs with hstart hfull hbig hroom
  · exact ⟨h, .addFails⟩
  · exact ⟨h, .addFails⟩
  · exact ⟨h, .addFails⟩
  · -- the table is full and grows
    have hgrows := lt_newCapacity h
    have hlen : (r ++ List.replicate (newCapacity r - r.length) zeroEntry).length = newCapacity r := by
      rw [List.length_append, List.length_replicate]
      omega
    have hfits : (r ++ List.replicate (newCapacity r - r.length) zeroEntry).Fits := by
      rw [Registry.Fits, hlen]
      exact Nat.le_of_not_lt hbig
    refine ⟨by rwa [Registry.Fits, List.length_set], ?_⟩
    apply mapStep_set hfits (by rwa [hlen]) (live_append_zeros r _) _ _ _ _ hkind
    rw [live_slotId, List.getElem?_eq_none (Nat.le_refl _)]
  · have hlt : r.findIdx (fun e => e.kind = .none) < r.length := by omega
    exact ⟨by rwa [Registry.Fits, List.length_set], mapStep_set h hlt rfl (live_findIdx hlt) _ _ _ hkind⟩

/-- **Reading** finds what the map has. -/
theorem registryGet_eq_some_iff {r : Registry} {id : Int} {kind : HandleKind} {value : UInt64}
    (hkind : kind ≠ .none) : registryGet r id kind = some value ↔ live r id = some (kind, value) := by
  rw [registryGet, live]
  by_cases hlow : id < handleIdBase
  · rw [if_pos hlow, if_pos hlow]
    exact iff_of_false (Option.some_ne_none _).symm (Option.some_ne_none _).symm
  · rw [if_neg hlow, if_neg hlow]
    cases r[(id - handleIdBase).toNat]? with
    | none => exact iff_of_false (Option.some_ne_none _).symm (Option.some_ne_none _).symm
    | some e =>
        by_cases hfree : e.kind = .none
        · simp [hfree, hkind.symm]
        · simp only [hfree, if_false, Option.some.injEq, Prod.mk.injEq]
          constructor
          · intro h
            split_ifs at h with hk
            exact ⟨hk, Option.some.inj h⟩
          · rintro ⟨rfl, rfl⟩
            exact if_pos rfl

theorem HandleMap.put_none {m : HandleMap} {id : Int} (h : m id = none) : m.put id none = m := by
  funext i
  by_cases hi : i = id
  · rw [hi, HandleMap.put_self, h]
  · exact m.put_of_ne none hi

/-- **Taking** returns what the map has and frees the number. -/
theorem registryTake_spec {r : Registry} (h : r.Fits) (id : Int) :
    (registryTake r id).2.Fits ∧ (registryTake r id).1 = live r id ∧
      live (registryTake r id).2 = (live r).put id none := by
  rw [registryTake]
  by_cases hlow : id < handleIdBase
  · rw [if_pos hlow, HandleMap.put_none (live_of_lt hlow), live_of_lt hlow]
    exact ⟨h, rfl, rfl⟩
  rw [if_neg hlow]
  have hlive := live_slotId r (id - handleIdBase).toNat
  rw [slotId_toNat hlow] at hlive
  cases he : r[(id - handleIdBase).toNat]? with
  | none =>
      rw [he] at hlive
      rw [HandleMap.put_none hlive, hlive]
      exact ⟨h, rfl, rfl⟩
  | some e =>
      rw [he] at hlive
      by_cases hfree : e.kind = .none
      · simp only [hfree, if_true] at hlive
        simp only [hfree, ne_eq, not_true, if_false]
        rw [HandleMap.put_none hlive, hlive]
        exact ⟨h, rfl, rfl⟩
      · simp only [hfree, if_false] at hlive
        simp only [ne_eq, hfree, not_false_eq_true, if_true]
        refine ⟨by rwa [Registry.Fits, List.length_set], hlive.symm, ?_⟩
        rw [live_set (List.getElem?_eq_some_iff.mp he).1, slotId_toNat hlow]
        rfl

/-- One call does to the map what the specification allows. -/
theorem registryStep_spec {r : Registry} (h : r.Fits) {call : RegistryCall} (hkind : call.Kinded) :
    (registryStep r call).2.Fits ∧
      MapStep (live r) call (registryStep r call).1 (live (registryStep r call).2) := by
  cases call with
  | add value kind started room => exact registryAdd_spec h started room value hkind
  | get id kind =>
      rw [registryStep]
      cases hget : registryGet r id kind with
      | some value => exact ⟨h, .gets ((registryGet_eq_some_iff hkind).mp hget)⟩
      | none =>
          refine ⟨h, .getFails fun value hlive => ?_⟩
          rw [(registryGet_eq_some_iff hkind).mpr hlive] at hget
          contradiction
  | take id =>
      obtain ⟨hfits, htake, hmap⟩ := registryTake_spec h id
      rw [registryStep]
      cases hlive : live r id with
      | none =>
          rw [hlive] at htake
          simp only [htake, hmap, HandleMap.put_none hlive]
          exact ⟨hfits, .takeFails hlive⟩
      | some b =>
          rw [hlive] at htake
          simp only [htake, hmap]
          exact ⟨hfits, .takes hlive⟩

/-- What the callers see of a table: a finite map. -/
def Shows (r : Registry) (m : HandleMap) : Prop := live r = m ∧ {id | m id ≠ none}.Finite

/-- **The registry is a finite map**: along every sequence of calls with the
kinds of handles, from the empty table, every answer is one the map allows and
the table holds the map. -/
theorem registry_refines (calls : List RegistryCall) (hkinds : ∀ call ∈ calls, call.Kinded) :
    Refines registryStep MapStep Shows [] (fun _ => none) calls := by
  refine refines_of_simulation_of (R := fun r m => r.Fits ∧ live r = m) ?_ ?_ ?_ calls hkinds
  · rintro r m ⟨-, rfl⟩
    exact ⟨rfl, finite_live r⟩
  · rintro r m call ⟨hfits, rfl⟩ hkind
    obtain ⟨hfits', hstep⟩ := registryStep_spec hfits hkind
    exact ⟨_, hstep, hfits', rfl⟩
  · refine ⟨Nat.zero_le _, ?_⟩
    funext id
    rw [live, List.getElem?_nil]
    split_ifs <;> rfl

/-- Adding, reading with both kinds, taking twice, reading again. -/
def sampleCalls : List RegistryCall :=
  [.add 7 .socket true true, .add 9 .epoll true true, .get 256 .socket, .get 256 .epoll, .take 256,
    .take 256, .get 257 .epoll]

theorem registry_refines_sample : Refines registryStep MapStep Shows [] (fun _ => none) sampleCalls :=
  registry_refines sampleCalls (by decide)

/-- **The kind that marks free slots** is none a handle can have: a handle
added with it gets a number that does not stand for it. -/
theorem registry_add_none_unbound : ¬ ∀ calls : List RegistryCall,
    Refines registryStep MapStep Shows [] (fun _ => none) calls := by
  intro h
  obtain ⟨-, m, hstep, hlive, -⟩ := h [.add 7 .none true true]
  have hreply : (registryStep [] (.add 7 .none true true)).1 = .id 256 := by decide
  have hfree : live (registryStep [] (.add 7 .none true true)).2 256 = none := by decide
  rw [hreply] at hstep
  rw [hlive] at hfree
  cases hstep with
  | adds => exact absurd hfree (by rw [HandleMap.put_self]; exact Option.some_ne_none _)

end SkynetJit.Win64
