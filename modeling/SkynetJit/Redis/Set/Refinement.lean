import Mathlib.Data.Finset.Card
import SkynetJit.Lib.Transition
import SkynetJit.Redis.Number
import SkynetJit.Redis.Set.Facade

/-!
# SkynetJit.Redis.Set.Refinement

What a set is for: a handle stands for a finite set of byte strings, and each
command does to it what its name says.  `SpecStep` states that without any
mention of payloads and encodings, `Observes` states what the reading
commands reply, and `set_refines` is the refinement over whole runs.
-/

namespace SkynetJit.Redis

open Raise Transition

/-- A finite set of byte strings by handle. -/
abbrev AbsSets := Handles (Finset Bytes)

variable {ν : Type} [LuaNumber ν]

/-! ## The specification -/

/-- Move a member: the source loses it, then the destination gains it. -/
def AbsSets.move (A : AbsSets) (src dst : Nat) (ele : Bytes) : AbsSets :=
  let B : AbsSets := A.put src ((A src).erase ele)
  B.put dst (insert ele (B dst))

/-- What a call may reply, and what the sets are afterwards.  A call whose
arguments are refused changes nothing. -/
inductive SpecStep (A : AbsSets) :
    SetCall ν → Except LuaError (Reply ν) → AbsSets → Prop
  | saddRaised {args e} : memberArgs "sadd" args = .error e → SpecStep A (.sadd args) (.error e) A
  | sadd {args id eles} : memberArgs "sadd" args = .ok (id, eles) →
      SpecStep A (.sadd args)
        (.ok (.int ((A id ∪ eles.toFinset).card - (A id).card : Int)))
        (A.put id (A id ∪ eles.toFinset))
  | sremRaised {args e} : memberArgs "srem" args = .error e → SpecStep A (.srem args) (.error e) A
  | srem {args id eles} : memberArgs "srem" args = .ok (id, eles) →
      SpecStep A (.srem args)
        (.ok (.int ((A id).card - (A id \ eles.toFinset).card : Int)))
        (A.put id (A id \ eles.toFinset))
  | smoveRaised {args e} : moveSource args = .error e → SpecStep A (.smove args) (.error e) A
  | smoveEmpty {args src} : moveSource args = .ok src → A src = ∅ →
      SpecStep A (.smove args) (.ok (.int 0)) A
  | smoveTargetRaised {args src e} : moveSource args = .ok src → A src ≠ ∅ →
      moveTarget args = .error e → SpecStep A (.smove args) (.error e) A
  | smoveAbsent {args src dst ele} : moveSource args = .ok src → A src ≠ ∅ →
      moveTarget args = .ok (dst, ele) → ele ∉ A src → SpecStep A (.smove args) (.ok (.int 0)) A
  | smove {args src dst ele} : moveSource args = .ok src →
      moveTarget args = .ok (dst, ele) → ele ∈ A src →
      SpecStep A (.smove args) (.ok (.int 1)) (A.move src dst ele)
  | spopRaised {draws args e} : popArgs args = .error e →
      SpecStep A (.spop draws args) (.error e) A
  | spopEmpty {draws args id} : popArgs args = .ok (id, none) → A id = ∅ →
      SpecStep A (.spop draws args) (.ok .nilReply) A
  | spop {draws args id ele} : popArgs args = .ok (id, none) → ele ∈ A id →
      SpecStep A (.spop draws args) (.ok (.text ele)) (A.put id ((A id).erase ele))
  | spopCount {draws args id count eles} : popArgs args = .ok (id, some count) → eles.Nodup →
      eles.toFinset ⊆ A id → eles.length = min count (A id).card →
      SpecStep A (.spop draws args) (.ok (pushMembers eles)) (A.put id (A id \ eles.toFinset))

/-- The reply to a question of membership. -/
def memberReply (A : Finset Bytes) (ele : Bytes) : Reply ν := .int (if ele ∈ A then 1 else 0)

/-- What the reading commands reply: the size, membership, and every member
once.  None of them changes anything. -/
structure Observes (ν : Type) [LuaNumber ν] (s : Sets) (A : AbsSets) : Prop where
  scard : ∀ id, exec (lscard [(.handle .set id : LuaValue ν)]) s = (.ok (.int (A id).card), s)
  sismember : ∀ id (v : LuaValue ν) ele, toBytes? v = some ele →
    exec (lsismember [.handle .set id, v]) s = (.ok (memberReply (A id) ele), s)
  smismember : ∀ id (vs : List (LuaValue ν)) eles, vs ≠ [] → vs.mapM toBytes? = some eles →
    exec (lsmismember (.handle .set id :: vs)) s = (.ok (.array (eles.map (memberReply (A id)))), s)
  smembers : ∀ id, ∃ eles : List Bytes, eles.Nodup ∧ eles.toFinset = A id ∧
    exec (lsmembers [(.handle .set id : LuaValue ν)]) s = (.ok (pushMembers eles), s)

/-! ## What a payload stands for -/

/-- A payload is well formed and not empty. -/
def PayloadWf (o : Option SetObj) : Prop := ∀ p ∈ o, p.Wf ∧ p.members ≠ []

/-- The set a payload stands for. -/
def payloadSet : Option SetObj → Finset Bytes
  | none => ∅
  | some o => o.members.toFinset

/-- The simulation relation. -/
structure Simulates (s : Sets) (A : AbsSets) : Prop where
  wf : ∀ id, PayloadWf (s id)
  abs : ∀ id, payloadSet (s id) = A id

theorem payloadWf_some {o : SetObj} (h : o.Wf) (hne : o.members ≠ []) : PayloadWf (some o) := by
  rintro p ⟨⟩
  exact ⟨h, hne⟩

theorem payloadWf_none : PayloadWf none := nofun

theorem card_payloadSet_some {o : SetObj} (h : o.Wf) :
    (payloadSet (some o)).card = setTypeSize o := by
  rw [payloadSet, List.toFinset_card_of_nodup h.nodup, setTypeSize_eq]

theorem payloadSet_ne_empty {o : SetObj} (hne : o.members ≠ []) : payloadSet (some o) ≠ ∅ := by
  rwa [payloadSet, Ne, List.toFinset_eq_empty_iff]

theorem setTypeSize_eq_zero_iff {o : SetObj} : setTypeSize o = 0 ↔ o.members = [] := by
  rw [setTypeSize_eq, List.length_eq_zero_iff]

theorem payloadWf_keepNonempty {o : SetObj} (h : o.Wf) : PayloadWf (keepNonempty o) := by
  rw [keepNonempty]
  split_ifs with hsize
  · exact payloadWf_none
  · exact payloadWf_some h (mt setTypeSize_eq_zero_iff.mpr hsize)

theorem payloadSet_keepNonempty (o : SetObj) :
    payloadSet (keepNonempty o) = o.members.toFinset := by
  rw [keepNonempty]
  split_ifs with hsize
  · rw [setTypeSize_eq_zero_iff.mp hsize]
    rfl
  · rfl

/-- Writing a payload and the set it stands for. -/
theorem Simulates.put {s : Sets} {A : AbsSets} (h : Simulates s A) {id : Nat} {o : Option SetObj}
    (hwf : PayloadWf o) {B : Finset Bytes} (habs : payloadSet o = B) :
    Simulates (s.put id o) (A.put id B) := by
  constructor <;> intro i <;> by_cases hi : i = id
  · rwa [hi, Handles.put_self]
  · rw [Handles.put_of_ne s o hi]
    exact h.wf i
  · rwa [hi, Handles.put_self, Handles.put_self]
  · rw [Handles.put_of_ne s o hi, Handles.put_of_ne A B hi]
    exact h.abs i

theorem Added.toFinset {o : SetObj} {x : Bytes} {r : Bool × SetObj} (h : Added o x r) :
    r.2.members.toFinset = insert x o.members.toFinset := by
  cases hr : r.1 with
  | false =>
      have hx : x ∈ o.members := by
        by_contra hx
        rw [h.new.mpr hx] at hr
        contradiction
      rw [h.same hr, Finset.insert_eq_of_mem (List.mem_toFinset.mpr hx)]
  | true => rw [List.toFinset_eq_of_perm _ _ (h.perm hr), List.toFinset_cons]

theorem Added.size {o : SetObj} {x : Bytes} {r : Bool × SetObj} (h : Added o x r) :
    r.2.members.length = o.members.length + r.1.toNat := by
  cases hr : r.1 with
  | false => rw [h.same hr]; rfl
  | true => rw [(h.perm hr).length_eq]; rfl

theorem Added.ne_nil {o : SetObj} {x : Bytes} {r : Bool × SetObj} (h : Added o x r) :
    r.2.members ≠ [] := by
  have hx : x ∈ r.2.members.toFinset := by
    rw [h.toFinset]
    exact Finset.mem_insert_self x _
  exact List.ne_nil_of_mem (List.mem_toFinset.mp hx)

theorem Removed.toFinset {o : SetObj} (ho : o.Wf) {x : Bytes} {r : Bool × SetObj}
    (h : Removed o x r) : r.2.members.toFinset = o.members.toFinset.erase x := by
  cases hr : r.1 with
  | false =>
      have hx : x ∉ o.members := by
        intro hx
        rw [h.found.mpr hx] at hr
        contradiction
      rw [h.same hr, Finset.erase_eq_of_notMem (by rwa [List.mem_toFinset])]
  | true =>
      have hperm := h.perm hr
      have hx : x ∉ r.2.members := (List.nodup_cons.mp (hperm.nodup_iff.mp ho.nodup)).1
      rw [List.toFinset_eq_of_perm _ _ hperm, List.toFinset_cons,
        Finset.erase_insert (by rwa [List.mem_toFinset])]

theorem Removed.size {o : SetObj} {x : Bytes} {r : Bool × SetObj} (h : Removed o x r) :
    o.members.length = r.2.members.length + r.1.toNat := by
  cases hr : r.1 with
  | false => rw [h.same hr]; rfl
  | true => rw [(h.perm hr).length_eq]; rfl

/-- The elements a set hands out can be given back to it. -/
theorem SetObj.Wf.removed_of_mem {o : SetObj} (h : o.Wf) {e : Entry} (he : e ∈ o.elements) :
    Removed o e.toBytes (setTypeRemoveAux o e) ∧ (setTypeRemoveAux o e).1 = true := by
  have hrem := setTypeRemoveAux_spec h (h.valid e he)
  exact ⟨hrem, hrem.found.mpr (List.mem_map_of_mem he)⟩

/-! ## The loops -/

/-- The loop of SADD adds the members and counts the new ones. -/
theorem saddElements_spec (n : Nat) (eles : List Bytes) {o : Option SetObj} (h : PayloadWf o)
    (added : Nat) :
    PayloadWf (saddElements n eles o added).2 ∧
      payloadSet (saddElements n eles o added).2 = payloadSet o ∪ eles.toFinset ∧
      (saddElements n eles o added).1 + (payloadSet o).card =
        added + (payloadSet o ∪ eles.toFinset).card := by
  induction eles generalizing o added with
  | nil => simp [saddElements, h]
  | cons ele eles ih =>
      -- the payload the member goes to: the one there is, or a new one
      have hbase : (o.getD (setTypeCreate ele n)).Wf ∧
          (o.getD (setTypeCreate ele n)).members.toFinset = payloadSet o := by
        cases o with
        | none => exact ⟨wf_setTypeCreate ele n, by simp [payloadSet]⟩
        | some p => exact ⟨(h p rfl).1, rfl⟩
      obtain ⟨hbwf, hbset⟩ := hbase
      have hadd := setTypeAdd_spec hbwf ele
      have hset : payloadSet (some (setTypeAdd (o.getD (setTypeCreate ele n)) ele).2) =
          insert ele (payloadSet o) := by
        rw [← hbset]
        exact hadd.toFinset
      have hcard : (insert ele (payloadSet o)).card =
          (payloadSet o).card + (setTypeAdd (o.getD (setTypeCreate ele n)) ele).1.toNat := by
        rw [← hset, card_payloadSet_some hadd.wf, setTypeSize_eq, ← hbset,
          List.toFinset_card_of_nodup hbwf.nodup]
        exact hadd.size
      obtain ⟨hwf, hmem, hcount⟩ := ih (payloadWf_some hadd.wf hadd.ne_nil)
        (added + (setTypeAdd (o.getD (setTypeCreate ele n)) ele).1.toNat)
      have hunion : insert ele (payloadSet o) ∪ eles.toFinset =
          payloadSet o ∪ (ele :: eles).toFinset := by
        rw [List.toFinset_cons, Finset.insert_union, Finset.union_insert]
      rw [hset, hunion] at hmem hcount
      rw [saddElements]
      exact ⟨hwf, hmem, by omega⟩

/-- The loop of SREM removes the members and counts those it found. -/
theorem sremElements_spec (eles : List Bytes) {o : SetObj} (h : o.Wf) (deleted : Nat) :
    (sremElements eles o deleted).2.Wf ∧
      (sremElements eles o deleted).2.members.toFinset = o.members.toFinset \ eles.toFinset ∧
      (sremElements eles o deleted).1 + (o.members.toFinset \ eles.toFinset).card =
        deleted + o.members.toFinset.card := by
  induction eles generalizing o deleted with
  | nil => simp [sremElements, h]
  | cons ele eles ih =>
      have hrem := setTypeRemove_spec h ele
      have hset : (setTypeRemove o ele).2.members.toFinset = o.members.toFinset.erase ele :=
        hrem.toFinset h
      have hcard : o.members.toFinset.card =
          ((setTypeRemove o ele).2.members.toFinset).card + (setTypeRemove o ele).1.toNat := by
        rw [List.toFinset_card_of_nodup h.nodup, List.toFinset_card_of_nodup hrem.wf.nodup]
        exact hrem.size
      have hdiff : o.members.toFinset \ (ele :: eles).toFinset =
          (setTypeRemove o ele).2.members.toFinset \ eles.toFinset := by
        rw [hset, List.toFinset_cons, Finset.sdiff_insert, Finset.erase_sdiff_comm]
      rw [sremElements, hdiff]
      split_ifs with hsize
      · -- nothing is left, so nothing the rest of the list could remove
        have hnil := setTypeSize_eq_zero_iff.mp hsize
        have hempty : (setTypeRemove o ele).2.members.toFinset = ∅ := by
          rw [hnil]
          rfl
        rw [hempty, Finset.card_empty] at hcard
        refine ⟨hrem.wf, ?_, ?_⟩
        · rw [hempty, Finset.empty_sdiff]
        · rw [hempty, Finset.empty_sdiff, Finset.card_empty]
          omega
      · obtain ⟨hwf, hmem, hcount⟩ := ih hrem.wf (deleted + (setTypeRemove o ele).1.toNat)
        exact ⟨hwf, hmem, by omega⟩

/-- Taking out one at a time: the members that go and those that stay
partition the set. -/
theorem popElements_spec (draws : Nat → Nat) (count i : Nat) {o : SetObj} (h : o.Wf)
    (hcount : count ≤ o.members.length) :
    (popElements draws count i o).2.Wf ∧ (popElements draws count i o).1.length = count ∧
      o.members.Perm ((popElements draws count i o).1 ++ (popElements draws count i o).2.members) := by
  induction count generalizing i o with
  | zero => exact ⟨h, rfl, .refl _⟩
  | succ count ih =>
      obtain ⟨e, he⟩ := exists_setTypeRandomElement (o := o)
        (by rintro hnil; rw [hnil] at hcount; exact absurd hcount (by simp)) (draws i)
      obtain ⟨hrem, hfound⟩ := h.removed_of_mem (setTypeRandomElement_mem he)
      have hperm := hrem.perm hfound
      have hlen := hperm.length_eq
      rw [List.length_cons] at hlen
      obtain ⟨hwf, hgone, hsplit⟩ := ih (i + 1) hrem.wf (by omega)
      simp only [popElements, he]
      exact ⟨hwf, by rw [List.length_cons, hgone], hperm.trans (hsplit.cons _)⟩

theorem wf_stayingPayload (e : Entry) : (stayingPayload e).Wf ∧ (stayingPayload e).members = [] := by
  cases e with
  | str s => exact ⟨wf_listpack .nil nofun, rfl⟩
  | int n => exact ⟨wf_intset intsetNew_wf, rfl⟩

/-- The members of a payload that may be missing. -/
def payloadMembers : Option SetObj → List Bytes
  | none => []
  | some o => o.members

/-- Moving the elements that stay: what is left of the old payload and the
new payload partition both together. -/
theorem stayElements_spec (draws : Nat → Nat) (left i : Nat) {o : SetObj} (h : o.Wf)
    (hleft : left ≤ o.members.length) {newset : Option SetObj} (hnew : ∀ p ∈ newset, p.Wf)
    (hdisj : (o.members ++ payloadMembers newset).Nodup) :
    (stayElements draws left i o newset).1.Wf ∧
      (∀ p ∈ (stayElements draws left i o newset).2, p.Wf) ∧
      (o.members ++ payloadMembers newset).Perm
        ((stayElements draws left i o newset).1.members ++
          payloadMembers (stayElements draws left i o newset).2) ∧
      (stayElements draws left i o newset).1.members.length + left = o.members.length := by
  induction left generalizing i o newset with
  | zero => exact ⟨h, hnew, .refl _, rfl⟩
  | succ left ih =>
      obtain ⟨e, he⟩ := exists_setTypeRandomElement (o := o)
        (by rintro hnil; rw [hnil] at hleft; exact absurd hleft (by simp)) (draws i)
      have hein := setTypeRandomElement_mem he
      obtain ⟨hrem, hfound⟩ := h.removed_of_mem hein
      have hperm := hrem.perm hfound
      have hlen := hperm.length_eq
      rw [List.length_cons] at hlen
      have hbase : (newset.getD (stayingPayload e)).Wf ∧
          (newset.getD (stayingPayload e)).members = payloadMembers newset := by
        cases newset with
        | none => exact wf_stayingPayload e
        | some p => exact ⟨hnew p rfl, rfl⟩
      obtain ⟨hbwf, hbmem⟩ := hbase
      have hadd := setTypeAddAux_spec hbwf (h.valid e hein)
      have hfresh : e.toBytes ∉ payloadMembers newset := by
        intro hin
        exact List.disjoint_of_nodup_append hdisj (List.mem_map_of_mem hein) hin
      have hgrow := hadd.perm (hadd.new.mpr (by rwa [hbmem]))
      rw [hbmem] at hgrow
      -- the element goes from one side of the sum to the other
      have hmove : (o.members ++ payloadMembers newset).Perm
          ((setTypeRemoveAux o e).2.members ++
            (setTypeAddAux (newset.getD (stayingPayload e)) e).2.members) :=
        (hperm.append_right _).trans (List.perm_middle.symm.trans (hgrow.symm.append_left _))
      obtain ⟨hwf, hnwf, hsplit, hcount⟩ := @ih (i + 1) _ hrem.wf (by omega)
        (some (setTypeAddAux (newset.getD (stayingPayload e)) e).2)
        (by rintro p ⟨⟩; exact hadd.wf) (hmove.nodup_iff.mp hdisj)
      simp only [stayElements, he]
      exact ⟨hwf, hnwf, hmove.trans hsplit, by omega⟩

/-- **SPOP with a count** partitions the set, whichever strategy it takes. -/
theorem spopCount_spec (draws : Nat → Nat) (count : Nat) {o : SetObj} (h : o.Wf) :
    PayloadWf (spopCount draws count o).2 ∧
      o.members.Perm ((spopCount draws count o).1 ++ payloadMembers (spopCount draws count o).2) ∧
      (spopCount draws count o).1.length = min count o.members.length := by
  have hsize := setTypeSize_eq o
  simp only [spopCount]
  split_ifs with hall hfew
  · refine ⟨payloadWf_none, ?_, ?_⟩
    · rw [payloadMembers, List.append_nil]
    · dsimp only
      omega
  · obtain ⟨hwf, hgone, hsplit⟩ := popElements_spec draws count 0 h (by omega)
    have hlen := hsplit.length_eq
    rw [List.length_append] at hlen
    refine ⟨payloadWf_some hwf (List.ne_nil_of_length_pos (by omega)), hsplit, ?_⟩
    dsimp only
    omega
  · obtain ⟨-, hnwf, hsplit, hcount⟩ := @stayElements_spec draws (setTypeSize o - count) 0 o h
      (by omega) none nofun (by rw [payloadMembers, List.append_nil]; exact h.nodup)
    rw [payloadMembers, List.append_nil] at hsplit
    have hlen := hsplit.length_eq
    rw [List.length_append] at hlen
    refine ⟨?_, hsplit, by dsimp only; omega⟩
    intro p hp
    refine ⟨hnwf p hp, ?_⟩
    rw [hp, payloadMembers] at hlen
    exact List.ne_nil_of_length_pos (by omega)

/-! ## One call -/

/-- A step of the system: the outcome of a call and what the handles hold
afterwards. -/
def setStep (s : Sets) (call : SetCall ν) : Except LuaError (Reply ν) × Sets :=
  exec (setCommand call) s

/-- What a step has to show. -/
def StepOk (s : Sets) (A : AbsSets) (call : SetCall ν) : Prop :=
  ∃ A', SpecStep A call (setStep s call).1 A' ∧ Simulates (setStep s call).2 A'

theorem sadd_step {s : Sets} {A : AbsSets} (h : Simulates s A) (args : List (LuaValue ν)) :
    StepOk s A (.sadd args) := by
  rw [StepOk, setStep, setCommand, lsadd, exec_check_bind]
  cases hargs : memberArgs "sadd" args with
  | error e => exact ⟨A, .saddRaised hargs, h⟩
  | ok r =>
      obtain ⟨id, eles⟩ := r
      have hconv : PayloadWf ((s id).map (setTypeMaybeConvert · eles.length)) ∧
          payloadSet ((s id).map (setTypeMaybeConvert · eles.length)) = A id := by
        rw [← h.abs id]
        have hwf := h.wf id
        cases hs : s id with
        | none => exact ⟨payloadWf_none, rfl⟩
        | some o =>
            obtain ⟨howf, hne⟩ := hwf o hs
            exact ⟨payloadWf_some (howf.setTypeMaybeConvert _) (by simpa using hne),
              by simp [payloadSet]⟩
      obtain ⟨hcwf, hcset⟩ := hconv
      obtain ⟨hwf, hset, hcard⟩ := saddElements_spec eles.length eles hcwf 0
      rw [hcset] at hset hcard
      have hstep := SpecStep.sadd (A := A) hargs
      rw [show ((A id ∪ eles.toFinset).card - (A id).card : Int) = (saddElements eles.length eles
        ((s id).map (setTypeMaybeConvert · eles.length)) 0).1 by omega] at hstep
      exact ⟨_, hstep, h.put hwf hset⟩

theorem srem_step {s : Sets} {A : AbsSets} (h : Simulates s A) (args : List (LuaValue ν)) :
    StepOk s A (.srem args) := by
  rw [StepOk, setStep, setCommand, lsrem, exec_check_bind]
  cases hargs : memberArgs "srem" args with
  | error e => exact ⟨A, .sremRaised hargs, h⟩
  | ok r =>
      obtain ⟨id, eles⟩ := r
      have hstep := SpecStep.srem (A := A) hargs
      simp only [exec_get_bind]
      cases hs : s id with
      | none =>
          have hempty : A id = ∅ := by rw [← h.abs id, hs]; rfl
          refine ⟨A, ?_, h⟩
          rw [hempty, Finset.empty_sdiff, ← hempty, Handles.put_eq_self] at hstep
          simpa using hstep
      | some o =>
          obtain ⟨howf, hne⟩ := h.wf id o hs
          have hset : o.members.toFinset = A id := by rw [← h.abs id, hs]; rfl
          obtain ⟨hwf, hrest, hcard⟩ := sremElements_spec eles howf 0
          rw [hset] at hrest hcard
          rw [show ((A id).card - (A id \ eles.toFinset).card : Int) = (sremElements eles o 0).1 by
            omega] at hstep
          exact ⟨_, hstep,
            h.put (payloadWf_keepNonempty hwf) ((payloadSet_keepNonempty _).trans hrest)⟩

theorem AbsSets.move_self {A : AbsSets} {src : Nat} {ele : Bytes} (h : ele ∈ A src) :
    A.move src src ele = A := by
  rw [AbsSets.move, Handles.put_self, Finset.insert_erase h]
  funext i
  by_cases hi : i = src
  · rw [hi, Handles.put_self]
  · rw [Handles.put_of_ne _ _ hi, Handles.put_of_ne _ _ hi]

/-- The member enters the destination, which may have no payload yet. -/
theorem Simulates.add {s : Sets} {A : AbsSets} (h : Simulates s A) (dst : Nat) (ele : Bytes) :
    Simulates (s.put dst (some (setTypeAdd ((s dst).getD (setTypeCreate ele 1)) ele).2))
      (A.put dst (insert ele (A dst))) := by
  obtain ⟨hwf, hset, -⟩ := saddElements_spec 1 [ele] (h.wf dst) 0
  rw [h.abs dst, List.toFinset_cons, List.toFinset_nil, Finset.union_insert,
    Finset.union_empty] at hset
  exact h.put hwf hset

theorem smove_step {s : Sets} {A : AbsSets} (h : Simulates s A) (args : List (LuaValue ν)) :
    StepOk s A (.smove args) := by
  rw [StepOk, setStep, setCommand, lsmove, exec_check_bind]
  cases hsrc : moveSource args with
  | error e => exact ⟨A, .smoveRaised hsrc, h⟩
  | ok src =>
      simp only [exec_get_bind]
      cases hs : s src with
      | none => exact ⟨A, .smoveEmpty hsrc (by rw [← h.abs src, hs]; rfl), h⟩
      | some o =>
          obtain ⟨howf, hne⟩ := h.wf src o hs
          have hset : o.members.toFinset = A src := by rw [← h.abs src, hs]; rfl
          have hsize : setTypeSize o ≠ 0 := mt setTypeSize_eq_zero_iff.mp hne
          have hAne : A src ≠ ∅ := hset ▸ payloadSet_ne_empty hne
          simp only [if_neg hsize, exec_check_bind]
          cases htarget : moveTarget args with
          | error e => exact ⟨A, .smoveTargetRaised hsrc hAne htarget, h⟩
          | ok r =>
              obtain ⟨dst, ele⟩ := r
              have hmem : ele ∈ o.members ↔ ele ∈ A src := by rw [← hset, List.mem_toFinset]
              have hlook := setTypeIsMember_iff howf ele
              have hrem := setTypeRemove_spec howf ele
              dsimp only
              by_cases hin : ele ∈ A src
              · have hstep := SpecStep.smove hsrc htarget hin
                by_cases hself : src = dst
                · subst hself
                  rw [AbsSets.move_self hin] at hstep
                  rw [if_pos rfl, hlook.mpr (hmem.mpr hin)]
                  exact ⟨A, hstep, h⟩
                · rw [if_neg hself, if_pos (hrem.found.mpr (hmem.mpr hin))]
                  refine ⟨_, hstep, Simulates.add (h.put (payloadWf_keepNonempty hrem.wf) ?_) dst ele⟩
                  rw [payloadSet_keepNonempty, hrem.toFinset howf, hset]
              · have hstep := SpecStep.smoveAbsent hsrc hAne htarget hin
                by_cases hself : src = dst
                · have hfalse : setTypeIsMember o ele = false :=
                    Bool.eq_false_iff.mpr (mt hlook.mp (mt hmem.mp hin))
                  rw [if_pos hself, hfalse]
                  exact ⟨A, hstep, h⟩
                · have hfalse : ¬ (setTypeRemove o ele).1 = true := mt hrem.found.mp (mt hmem.mp hin)
                  have hsame := hrem.same (Bool.eq_false_iff.mpr hfalse)
                  rw [if_neg hself, if_neg hfalse]
                  refine ⟨A, hstep, ?_⟩
                  rw [← Handles.put_eq_self A src]
                  refine h.put (payloadWf_some hrem.wf (by rwa [hsame])) ?_
                  rw [payloadSet, hsame, hset]

/-- SPOP that asks for nothing, or finds nothing. -/
theorem specStep_popNothing {A : AbsSets} {draws : Nat → Nat} {args : List (LuaValue ν)}
    {id count : Nat} (hargs : popArgs args = .ok (id, some count)) (h : min count (A id).card = 0) :
    SpecStep A (.spop draws args) (.ok (pushMembers [])) A := by
  have hstep := @SpecStep.spopCount ν _ A draws args id count [] hargs List.nodup_nil
    (Finset.empty_subset _) h.symm
  rwa [List.toFinset_nil, Finset.sdiff_empty, Handles.put_eq_self] at hstep

theorem spop_step {s : Sets} {A : AbsSets} (h : Simulates s A) (draws : Nat → Nat)
    (args : List (LuaValue ν)) : StepOk s A (.spop draws args) := by
  rw [StepOk, setStep, setCommand, lspop, exec_check_bind]
  cases hargs : popArgs args with
  | error e => exact ⟨A, .spopRaised hargs, h⟩
  | ok r =>
      obtain ⟨id, count?⟩ := r
      simp only [exec_get_bind]
      cases hs : s id with
      | none =>
          have hempty : A id = ∅ := by rw [← h.abs id, hs]; rfl
          cases count? with
          | none => exact ⟨A, .spopEmpty hargs hempty, h⟩
          | some count =>
              exact ⟨A, specStep_popNothing hargs (by simp [hempty]), h⟩
      | some o =>
          obtain ⟨howf, hne⟩ := h.wf id o hs
          have hset : o.members.toFinset = A id := by rw [← h.abs id, hs]; rfl
          cases count? with
          | none =>
              obtain ⟨e, he⟩ := exists_setTypeRandomElement hne (draws 0)
              have hein := setTypeRandomElement_mem he
              obtain ⟨hrem, -⟩ := howf.removed_of_mem hein
              have hin : e.toBytes ∈ A id := by
                rw [← hset, List.mem_toFinset]
                exact List.mem_map_of_mem hein
              simp only [he]
              refine ⟨_, .spop hargs hin, h.put (payloadWf_keepNonempty hrem.wf) ?_⟩
              rw [payloadSet_keepNonempty, hrem.toFinset howf, hset]
          | some count =>
              dsimp only
              by_cases hzero : count = 0
              · rw [if_pos hzero]
                exact ⟨A, specStep_popNothing hargs (by simp [hzero]), h⟩
              obtain ⟨hwf, hsplit, hlen⟩ := spopCount_spec draws count howf
              obtain ⟨hgone, -, hdisj⟩ := List.nodup_append'.mp (hsplit.nodup_iff.mp howf.nodup)
              have hunion : A id = (spopCount draws count o).1.toFinset ∪
                  (payloadMembers (spopCount draws count o).2).toFinset := by
                rw [← hset, List.toFinset_eq_of_perm _ _ hsplit, List.toFinset_append]
              rw [if_neg hzero]
              refine ⟨_, .spopCount hargs hgone ?_ ?_, h.put hwf ?_⟩
              · rw [hunion]
                exact Finset.subset_union_left
              · rw [hlen, ← hset, List.toFinset_card_of_nodup howf.nodup]
              · rw [hunion, Finset.union_sdiff_cancel_left
                  (List.disjoint_toFinset_iff_disjoint.mpr hdisj)]
                cases (spopCount draws count o).2 <;> rfl

/-- **One call** is a step of the specification. -/
theorem set_step {s : Sets} {A : AbsSets} (h : Simulates s A) (call : SetCall ν) :
    StepOk s A call := by
  cases call with
  | sadd args => exact sadd_step h args
  | srem args => exact srem_step h args
  | smove args => exact smove_step h args
  | spop draws args => exact spop_step h draws args

/-! ## What is observed -/

theorem isMember_iff {o : Option SetObj} (h : PayloadWf o) (ele : Bytes) :
    isMember o ele = true ↔ ele ∈ payloadSet o := by
  cases o with
  | none => simp [isMember, payloadSet]
  | some p => rw [isMember, setTypeIsMember_iff (h p rfl).1, payloadSet, List.mem_toFinset]

omit [LuaNumber ν] in
theorem Simulates.isMember {s : Sets} {A : AbsSets} (h : Simulates s A) (id : Nat) (ele : Bytes) :
    (.int (isMember (s id) ele).toNat : Reply ν) = memberReply (A id) ele := by
  have hiff := isMember_iff (h.wf id) ele
  rw [h.abs id] at hiff
  rw [memberReply]
  cases hm : Redis.isMember (s id) ele with
  | false => rw [if_neg (mt hiff.mpr (by simp [hm]))]; rfl
  | true => rw [if_pos (hiff.mp hm)]; rfl

theorem rlMemberValue_eq_ok {v : LuaValue ν} {ele : Bytes} (h : toBytes? v = some ele) :
    rlMemberValue (some v) = .ok ele := by
  rw [rlMemberValue, Option.bind_some, h]

theorem rlMembers_eq_ok {vs : List (LuaValue ν)} {eles : List Bytes}
    (h : vs.mapM toBytes? = some eles) : rlMembers vs = .ok eles := by
  induction vs generalizing eles with
  | nil =>
      obtain rfl := Option.some.inj h
      rfl
  | cons v vs ih =>
      rw [List.mapM_cons] at h
      cases hv : toBytes? v with
      | none => rw [hv] at h; contradiction
      | some ele =>
          cases hvs : vs.mapM toBytes? with
          | none => rw [hv, hvs] at h; contradiction
          | some rest =>
              rw [hv, hvs] at h
              obtain rfl := Option.some.inj h
              have hrest : (vs.mapM fun v => rlMemberValue (some v)) = .ok rest := ih hvs
              rw [rlMembers, List.mapM_cons, rlMemberValue_eq_ok hv, hrest]
              rfl

/-- Under the simulation every reading command replies what the sets say. -/
theorem Simulates.observes {s : Sets} {A : AbsSets} (h : Simulates s A) : Observes ν s A where
  scard id := by
    have hcard : (match s id with | none => 0 | some o => setTypeSize o) = (A id).card := by
      rw [← h.abs id]
      cases hs : s id with
      | none => rfl
      | some o => exact (card_payloadSet_some (h.wf id o hs).1).symm
    simp only [lscard, rlSetarity, rlCheck, luaArg, List.length_singleton, ne_eq, not_true_eq_false,
      if_false, exec_check_ok_bind, Nat.sub_self, List.getElem?_cons_zero, rlCheckValue_handle,
      exec_get_bind, exec_pure, ← hcard]
    cases s id <;> rfl
  sismember id v ele hv := by
    simp only [lsismember, rlSetarity, rlCheck, luaArg, List.length_cons, List.length_nil, ne_eq,
      not_true_eq_false, if_false, exec_check_ok_bind, Nat.sub_self, List.getElem?_cons_zero,
      rlCheckValue_handle, rlMember, Nat.add_one_sub_one, List.getElem?_cons_succ,
      rlMemberValue_eq_ok hv, exec_get_bind, exec_pure, h.isMember id ele]
  smismember id vs eles hne hvs := by
    have hlen : ¬ (.handle .set id :: vs : List (LuaValue ν)).length < 2 := by
      rw [List.length_cons]
      have := List.length_pos_iff.mpr hne
      omega
    simp only [lsmismember, rlSetneed, if_neg hlen, exec_check_ok_bind, rlCheck, luaArg,
      Nat.sub_self, List.getElem?_cons_zero, rlCheckValue_handle, List.drop_succ_cons,
      List.drop_zero, rlMembers_eq_ok hvs, exec_get_bind, exec_pure, h.isMember id]
  smembers id := by
    refine ⟨payloadMembers (s id), ?_, ?_, ?_⟩
    · cases hs : s id with
      | none => exact List.nodup_nil
      | some o => exact (h.wf id o hs).1.nodup
    · rw [← h.abs id]
      cases s id <;> rfl
    · simp only [lsmembers, rlSetarity, rlCheck, luaArg, List.length_singleton, ne_eq,
        not_true_eq_false, if_false, exec_check_ok_bind, Nat.sub_self, List.getElem?_cons_zero,
        rlCheckValue_handle, exec_get_bind, exec_pure]
      cases s id <;> rfl

theorem simulates_newSets : Simulates newSets fun _ => ∅ := ⟨fun _ => payloadWf_none, fun _ => rfl⟩

/-- **The set facade refines finite sets.**  Along every sequence of SADD,
SREM, SMOVE and SPOP calls with any arguments, from handles that were never
written, every call replies and acts as the specification says, and in every
state on the way SCARD, SISMEMBER, SMISMEMBER and SMEMBERS show the sets of
the specification. -/
theorem set_refines (calls : List (SetCall ν)) :
    Refines setStep SpecStep (Observes ν) newSets (fun _ => ∅) calls :=
  refines_of_simulation (R := Simulates) (fun _ _ h => h.observes) (fun _ _ call h => set_step h call)
    simulates_newSets calls

/-! ## SPOP -/

omit [LuaNumber ν] in
/-- What SPOP with a count leaves behind its handle. -/
theorem payloadMembers_spopCount (draws : Nat → Nat) (count : Nat) {o : Option SetObj} (h : PayloadWf o) :
    ∃ eles o', (∀ p, o = some p → count ≠ 0 → Redis.spopCount draws count p = (eles, o')) ∧
      (o = none ∨ count = 0 → eles = [] ∧ o' = o) ∧
      (payloadMembers o).Perm (eles ++ payloadMembers o') ∧
      eles.length = min count (payloadMembers o).length := by
  by_cases hnothing : o = none ∨ count = 0
  · refine ⟨[], o, fun p hp hcount => ?_, fun _ => ⟨rfl, rfl⟩, List.Perm.refl _, ?_⟩
    · simp [hp, hcount] at hnothing
    · rcases hnothing with rfl | rfl <;> simp [payloadMembers]
  · obtain ⟨p, rfl⟩ := Option.ne_none_iff_exists'.mp (not_or.mp hnothing).1
    obtain ⟨-, hperm, hlen⟩ := spopCount_spec draws count (h p rfl).1
    refine ⟨_, _, fun q hq _ => ?_, fun h => absurd h hnothing, hperm, hlen⟩
    obtain rfl := Option.some.inj hq
    rfl

/-- **SPOP with a count** replies that many distinct members, or all there are,
and the reply and what is left are the old set, by whichever strategy and
whatever is drawn. -/
theorem spop_partitions {s : Sets} (hs : ∀ id, PayloadWf (s id)) (draws : Nat → Nat)
    {args : List (LuaValue ν)} {id : Nat} :
    (∀ count, popArgs args = .ok (id, some count) → ∃ eles s',
      exec (lspop draws args) s = (.ok (pushMembers eles), s') ∧
      eles.length = min count (payloadMembers (s id)).length ∧ eles.Nodup ∧
      eles.Disjoint (payloadMembers (s' id)) ∧
      (payloadMembers (s id)).Perm (eles ++ payloadMembers (s' id)) ∧ ∀ j ≠ id, s' j = s j) ∧
    (popArgs args = .ok (id, none) →
      payloadMembers (s id) = [] ∧ exec (lspop draws args) s = (.ok .nilReply, s) ∨
      ∃ ele s', exec (lspop draws args) s = (.ok (.text ele), s') ∧
        (payloadMembers (s id)).Perm (ele :: payloadMembers (s' id)) ∧ ∀ j ≠ id, s' j = s j) := by
  constructor
  · intro count hargs
    obtain ⟨eles, o', hsome, hnothing, hperm, hlen⟩ := payloadMembers_spopCount draws count (hs id)
    have hnodup : (payloadMembers (s id)).Nodup := by
      cases ho : s id with
      | none => exact List.nodup_nil
      | some p => exact (hs id p ho).1.nodup
    obtain ⟨hgone, -, hdisj⟩ := List.nodup_append'.mp (hperm.nodup_iff.mp hnodup)
    have hexec : exec (lspop draws args) s = (.ok (pushMembers eles), s.put id o') := by
      rw [lspop, exec_check_bind, hargs]
      simp only [exec_get_bind]
      cases ho : s id with
      | none =>
          obtain ⟨rfl, rfl⟩ := hnothing (.inl ho)
          simp [Handles.put_eq_self]
      | some p =>
          by_cases hcount : count = 0
          · obtain ⟨rfl, rfl⟩ := hnothing (.inr hcount)
            simp [hcount, Handles.put_eq_self]
          · have hpop := hsome p ho hcount
            simp only [if_neg hcount, hpop]
            rfl
    refine ⟨eles, s.put id o', hexec, hlen, hgone, ?_, ?_, fun j hj => Handles.put_of_ne s o' hj⟩
    · rwa [Handles.put_self]
    · rwa [Handles.put_self]
  · intro hargs
    rw [lspop, exec_check_bind, hargs]
    simp only [exec_get_bind]
    cases ho : s id with
    | none => exact .inl ⟨rfl, rfl⟩
    | some p =>
        obtain ⟨hwf, hne⟩ := hs id p ho
        obtain ⟨e, he⟩ := exists_setTypeRandomElement hne (draws 0)
        obtain ⟨hrem, hfound⟩ := hwf.removed_of_mem (setTypeRandomElement_mem he)
        have hleft : payloadMembers (keepNonempty (setTypeRemoveAux p e).2) =
            (setTypeRemoveAux p e).2.members := by
          unfold keepNonempty
          split
          · next hzero => exact (setTypeSize_eq_zero_iff.mp hzero).symm
          · rfl
        refine .inr ⟨e.toBytes, s.put id (keepNonempty (setTypeRemoveAux p e).2), ?_, ?_,
          fun j hj => Handles.put_of_ne s _ hj⟩
        · simp only [he]
          rfl
        · rw [Handles.put_self, hleft]
          exact hrem.perm hfound

/-- Five numbers behind one handle. -/
def fiveNumbers : Sets := Handles.put newSets 0 (some (.intset ⟨2, [1, 2, 3, 4, 5]⟩))

/-- Four of the five go: the one that stays is moved. -/
theorem spop_partitions_sample : ∃ eles s',
    exec (lspop (fun i => 2 * i + 1) [.handle .set 0, (.number (.fin 4) : LuaValue IntegralDouble)])
      fiveNumbers = (.ok (pushMembers eles), s') ∧
    eles.length = 4 ∧ eles.Nodup ∧ (payloadMembers (fiveNumbers 0)).Perm (eles ++ payloadMembers (s' 0)) := by
  have hwf : ∀ id, PayloadWf (fiveNumbers id) := by
    intro id
    unfold fiveNumbers Handles.put
    split_ifs
    · exact payloadWf_some (wf_intset ⟨by decide, by decide, by decide⟩) (by decide)
    · exact payloadWf_none
  obtain ⟨eles, s', hexec, hlen, hnodup, -, hperm, -⟩ := (spop_partitions hwf (fun i => 2 * i + 1)).1 4
    (show popArgs [.handle .set 0, (.number (.fin 4) : LuaValue IntegralDouble)] = .ok (0, some 4) from rfl)
  exact ⟨eles, s', hexec, hlen, hnodup, hperm⟩

end SkynetJit.Redis
