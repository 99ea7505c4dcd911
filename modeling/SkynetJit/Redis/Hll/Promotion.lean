import SkynetJit.Redis.Hll.Merge

/-!
# SkynetJit.Redis.Hll.Promotion

An HLL is its registers.  The commands of this file work on lists of
registers and know nothing of encodings and caches; `command_regs` says that
the facade computes the same on coherent values.  PFDEBUG, which forces the
dense encoding, does nothing to the registers, so calls of it can be woven
into a sequence of other calls without being noticed: as long as the caches
stay coherent, which a PFADD that raises does not always leave them.
-/

namespace SkynetJit.Redis.HyperLogLog

open Raise

variable {ν : Type}

/-! ## The commands on registers -/

section Abstract

/-- The merged registers of the operands. -/
def absMergeOperands :
    List (LuaValue ν) → List Nat → Command (Handles (List Nat)) (List Nat)
  | [], max => pure max
  | v :: vs, max => do
      let id ← check (rlCheckValue .hll (some v))
      let s ← get
      absMergeOperands vs (List.zipWith Nat.max max (s id))

/-- PFMERGE on registers. -/
def absPfmerge (args : List (LuaValue ν)) : Command (Handles (List Nat)) (Reply ν) := do
  let dest ← check (rlCheck args 1 .hll)
  let merged ← absMergeOperands (hllOperands args) zeroRegisters
  modify fun s => s.put dest merged
  return .text (ascii "OK")

/-- PFCOUNT on registers. -/
def absPfcount (E : Estimator) (args : List (LuaValue ν)) :
    Command (Handles (List Nat)) (Reply ν) :=
  match hllOperands args with
  | [] => throw (arityErr "pfcount")
  | operands => do
      let merged ← absMergeOperands operands zeroRegisters
      return .int (longLong (E.estimate (histogram merged)))

variable [LuaNumber ν]

/-- The elements of PFADD on registers. -/
def absPfaddElements : List (LuaValue ν) → Bool → Command (List Nat) Bool
  | [], updated => pure updated
  | v :: vs, updated => do
      let ele ← check (rlMemberValue (some v))
      let regs ← get
      if regs.getD (hllPatLen ele).1 0 < (hllPatLen ele).2 then
        set (regs.set (hllPatLen ele).1 (hllPatLen ele).2)
        absPfaddElements vs true
      else absPfaddElements vs updated

/-- PFADD on registers. -/
def absPfadd (args : List (LuaValue ν)) : Command (Handles (List Nat)) (Reply ν) := do
  let id ← check (rlCheck args 1 .hll)
  onHandle id do
    let updated ← absPfaddElements (args.drop 1) false
    return .int (if updated then 1 else 0)

end Abstract

/-- The registers behind the handles. -/
def regsOf (s : Handles Hll) : Handles (List Nat) := fun id => (s id).regs

theorem regsOf_put (s : Handles Hll) (id : Nat) (o : Hll) :
    regsOf (s.put id o) = (regsOf s).put id o.regs := by
  funext i
  simp only [regsOf, Handles.put]
  split <;> rfl

/-- A command on the values does what a command on the registers does. -/
def Agree {α : Type} (r : Except LuaError α × Handles Hll)
    (r' : Except LuaError α × Handles (List Nat)) : Prop := r.1 = r'.1 ∧ regsOf r.2 = r'.2

/-! ## The facade on coherent values -/

section Refinement

theorem absMergeOperands_agree {s : Handles Hll} (hs : AllWf s) (vs : List (LuaValue ν))
    (useDense : Bool) {max : List Nat} (hmax : RawOk max) :
    ∃ dense, exec (mergeOperands vs useDense max) s =
        ((exec (absMergeOperands vs max) (regsOf s)).1.map fun merged => (dense, merged), s) ∧
      (exec (absMergeOperands vs max) (regsOf s)).2 = regsOf s := by
  induction vs generalizing useDense max with
  | nil => exact ⟨useDense, rfl, rfl⟩
  | cons v vs ih =>
      rw [mergeOperands, absMergeOperands, exec_check_bind, exec_check_bind]
      cases hv : rlCheckValue .hll (some v) with
      | error e => exact ⟨useDense, rfl, rfl⟩
      | ok id =>
          simp only [exec_get_bind, rlCheckhll_of_wf (hs id), exec_check_ok_bind,
            hllMerge_spec (hs id) hmax.1]
          exact ih _ (hmax.merge (hs id))

/-- What the operands merge to, when all of them are HLLs. -/
theorem exec_absMergeOperands {s : Handles Hll} (hs : AllWf s) (vs : List (LuaValue ν))
    {max merged : List Nat} (hmax : RawOk max)
    (h : (exec (absMergeOperands vs max) (regsOf s)).1 = .ok merged) :
    ∃ ids, vs = ids.map (.handle .hll) ∧ merged = mergedRegs s ids max := by
  obtain ⟨dense, hexec, -⟩ := absMergeOperands_agree hs vs false hmax
  rw [h] at hexec
  exact mergeOperands_ok hs vs false hmax hexec

theorem zipWith_max_of_le {xs ys : List Nat} (hlen : xs.length = ys.length)
    (hle : ∀ j, xs.getD j 0 ≤ ys.getD j 0) : List.zipWith Nat.max xs ys = ys := by
  induction xs generalizing ys with
  | nil => rw [List.length_eq_zero_iff.mp hlen.symm]; rfl
  | cons x xs ih =>
      cases ys with
      | nil => simp at hlen
      | cons y ys =>
          have hxy : x ≤ y := hle 0
          rw [List.zipWith_cons_cons, ih (Nat.succ.inj hlen) fun j => hle (j + 1),
            show Nat.max x y = y from Nat.max_eq_right hxy]

theorem lhllPfmerge_agree {s : Handles Hll} (hs : AllWf s) (args : List (LuaValue ν)) :
    Agree (exec (lhllPfmerge args) s) (exec (absPfmerge args) (regsOf s)) := by
  rw [lhllPfmerge, absPfmerge, exec_check_bind, exec_check_bind]
  cases hdest : rlCheck args 1 .hll with
  | error e => exact ⟨rfl, rfl⟩
  | ok dest =>
      obtain ⟨dense, hmerge, hstate⟩ := absMergeOperands_agree hs (hllOperands args) false
        zeroRegisters_ok
      dsimp only
      cases habs : exec (absMergeOperands (hllOperands args) zeroRegisters) (regsOf s) with
      | mk r A =>
          rw [habs] at hmerge hstate
          dsimp only at hstate
          subst hstate
          cases r with
          | error e =>
              rw [exec_bind_error habs, exec_bind_error hmerge]
              exact ⟨rfl, rfl⟩
          | ok merged =>
              obtain ⟨ids, hids, hmerged⟩ := exec_absMergeOperands hs _ zeroRegisters_ok
                (congrArg Prod.fst habs)
              have hraw := hmerged ▸ rawOk_mergedRegs hs ids zeroRegisters_ok
              obtain ⟨o, hstore, -, hregs⟩ := pfmergeStore_spec (ν := ν) dense hraw (hs dest)
              -- the destination is the first operand
              have hin : dest ∈ ids := by
                cases args with
                | nil => simp [rlCheck, luaArg, rlCheckValue] at hdest
                | cons v rest =>
                    cases v with
                    | handle k i =>
                        simp only [rlCheck, luaArg, rlCheckValue, Nat.sub_self,
                          List.getElem?_cons_zero] at hdest
                        split_ifs at hdest with hk
                        obtain rfl := Except.ok.inj hdest
                        have hmem : (.handle k i : LuaValue ν) ∈ ids.map (.handle .hll) := by
                          rw [← hids, hllOperands, List.flatMap_cons]
                          exact List.mem_cons_self
                        obtain ⟨j, hj, heq⟩ := List.mem_map.mp hmem
                        rw [LuaValue.handle.injEq] at heq
                        rwa [← heq.2]
                    | _ => simp [rlCheck, luaArg, rlCheckValue] at hdest
              have hmax : o.regs = merged := by
                rw [hregs]
                split_ifs
                · rfl
                · apply zipWith_max_of_le (by rw [Hll.length_regs (hs dest), hraw.1])
                  intro j
                  rw [hmerged, getD_mergedRegs hs ids zeroRegisters_ok, getD_zeroRegisters,
                    Nat.zero_max]
                  exact Finset.le_sup (f := fun id => (s id).regs.getD j 0)
                    (List.mem_toFinset.mpr hin)
              rw [exec_bind_ok habs, exec_bind_ok hmerge]
              simp only [onHandle, exec_focus, hstore, exec_modify_bind, exec_pure]
              exact ⟨rfl, by rw [regsOf_put, hmax]⟩

theorem zipWith_max_zeroRegisters {regs : List Nat} (h : regs.length = hllRegisters) :
    List.zipWith Nat.max zeroRegisters regs = regs := by
  apply zipWith_max_of_le
  · rw [zeroRegisters_ok.1, h]
  · intro j
    rw [getD_zeroRegisters]
    exact Nat.zero_le _

theorem pfcountObject_agree {E : Estimator} {o : Hll} (h : Coherent E o) :
    (exec (pfcountObject E : Command Hll (Reply ν)) o).1
        = .ok (.int (longLong (E.estimate (histogram o.regs)))) ∧
      (exec (pfcountObject E : Command Hll (Reply ν)) o).2.regs = o.regs := by
  simp only [pfcountObject, exec_get_bind, rlCheckhll_of_wf h.wf, exec_check_ok_bind]
  cases hv : o.validCache with
  | true =>
      rw [if_pos rfl, h.card hv]
      exact ⟨rfl, rfl⟩
  | false =>
      rw [if_neg Bool.false_ne_true, hllCount_spec E h.wf]
      exact ⟨rfl, rfl⟩

theorem lhllPfcount_agree {E : Estimator} {s : Handles Hll} (hs : AllCoherent E s)
    (args : List (LuaValue ν)) :
    Agree (exec (lhllPfcount E args) s) (exec (absPfcount E args) (regsOf s)) := by
  rw [lhllPfcount, absPfcount]
  cases hops : hllOperands args with
  | nil => exact ⟨rfl, rfl⟩
  | cons v vs =>
      cases vs with
      | nil =>
          simp only [absMergeOperands, bind_assoc, pure_bind, exec_check_bind]
          cases rlCheckValue .hll (some v) with
          | error e => exact ⟨rfl, rfl⟩
          | ok id =>
              obtain ⟨hreply, hregs⟩ := pfcountObject_agree (ν := ν) (hs id)
              simp only [exec_get_bind, exec_pure, onHandle, exec_focus]
              refine ⟨?_, ?_⟩
              · rw [hreply]
                simp only [regsOf, zipWith_max_zeroRegisters (Hll.length_regs (hs id).wf)]
              · rw [regsOf_put, hregs]
                funext i
                simp only [regsOf, Handles.put]
                split
                · next hi => rw [hi]
                · rfl
      | cons w vs =>
          obtain ⟨dense, hmerge, hstate⟩ := absMergeOperands_agree (fun id => (hs id).wf)
            (v :: w :: vs) false zeroRegisters_ok
          dsimp only
          cases habs : exec (absMergeOperands (v :: w :: vs) zeroRegisters) (regsOf s) with
          | mk r A =>
              rw [habs] at hmerge hstate
              dsimp only at hstate
              subst hstate
              cases r with
              | error e =>
                  rw [exec_bind_error habs, exec_bind_error hmerge]
                  exact ⟨rfl, rfl⟩
              | ok merged =>
                  rw [exec_bind_ok habs, exec_bind_ok hmerge]
                  exact ⟨rfl, rfl⟩

variable [LuaNumber ν]

theorem absPfaddElements_agree (vs : List (LuaValue ν)) (updated : Bool) {o : Hll} (h : o.Wf) :
    (exec (pfaddElements vs updated) o).1 = (exec (absPfaddElements vs updated) o.regs).1 ∧
      (exec (pfaddElements vs updated) o).2.regs = (exec (absPfaddElements vs updated) o.regs).2 := by
  induction vs generalizing updated o with
  | nil => exact ⟨rfl, rfl⟩
  | cons v vs ih =>
      rw [absPfaddElements, exec_check_bind]
      cases hb : toBytes? v with
      | none =>
          rw [exec_pfaddElements_bad hb, rlMemberValue_none hb]
          exact ⟨rfl, rfl⟩
      | some ele =>
          rw [rlMemberValue_some hb]
          dsimp only
          rw [exec_get_bind]
          cases hr : raisesRegister o ele with
          | false =>
              obtain ⟨o', hadd, hsame⟩ := hllAdd_same h hr
              rw [raisesRegister, decide_eq_false_iff_not] at hr
              rw [exec_pfaddElements_member hb vs updated hadd, if_neg hr, ← hsame.regs h]
              exact ih updated (hsame.wf h)
          | true =>
              obtain ⟨o', hadd, hwf, hregs, -⟩ := hllAdd_raised h hr
              rw [raisesRegister, decide_eq_true_eq] at hr
              rw [exec_pfaddElements_member hb vs updated hadd, if_pos hr, exec_set_bind, ← hregs]
              exact ih true hwf

theorem lhllPfadd_agree {s : Handles Hll} (hs : AllWf s) (args : List (LuaValue ν)) :
    Agree (exec (lhllPfadd args) s) (exec (absPfadd args) (regsOf s)) := by
  rw [lhllPfadd, absPfadd, exec_check_bind, exec_check_bind]
  cases rlCheck args 1 .hll with
  | error e => exact ⟨rfl, rfl⟩
  | ok id =>
      obtain ⟨hout, hregs⟩ := absPfaddElements_agree (args.drop 1) false (hs id)
      simp only [onHandle, exec_focus, pfaddObject, exec_get_bind, rlCheckhll_of_wf (hs id),
        exec_check_ok_bind]
      cases hloop : exec (pfaddElements (args.drop 1) false) (s id) with
      | mk r o =>
          cases habs : exec (absPfaddElements (args.drop 1) false) (regsOf s id) with
          | mk r' regs =>
              rw [show (s id).regs = regsOf s id from rfl, hloop, habs] at hout hregs
              dsimp only at hout hregs
              subst hout hregs
              cases r with
              | error e =>
                  simp only [exec_bind_error hloop, exec_bind_error habs]
                  exact ⟨rfl, regsOf_put s id o⟩
              | ok u =>
                  simp only [exec_bind_ok hloop, exec_bind_ok habs, exec_modify_bind, exec_pure]
                  refine ⟨rfl, ?_⟩
                  rw [regsOf_put]
                  cases u <;> rfl

/-- The registers are these, and every value is well formed. -/
def HasRegs (A : Handles (List Nat)) (s : Handles Hll) : Prop := AllWf s ∧ regsOf s = A

/-- A command that keeps the registers of well-formed values. -/
def KeepsRegs {α : Type} (x : Command Hll α) : Prop :=
  ∀ regs, Keeps (fun o : Hll => o.Wf ∧ o.regs = regs) x

theorem KeepsRegs.onHandle {α : Type} {x : Command Hll α} (hx : KeepsRegs x) (id : Nat)
    (A : Handles (List Nat)) : Keeps (HasRegs A) (onHandle id x) := by
  rintro s ⟨hs, rfl⟩
  obtain ⟨hwf, hregs⟩ := hx _ (s id) ⟨hs id, rfl⟩
  simp only [Redis.onHandle, exec_focus]
  constructor
  · intro i
    by_cases hi : i = id
    · rwa [hi, Handles.put_self]
    · rw [Handles.put_of_ne _ _ hi]
      exact hs i
  · rw [regsOf_put, hregs]
    funext i
    rw [Handles.put]
    split_ifs with hi
    · rw [hi]
      rfl
    · rfl

theorem forceDense_keepsRegs : KeepsRegs forceDense := by
  rintro regs o ⟨h, hregs⟩
  simp only [forceDense, exec_get_bind]
  cases he : o.encoding with
  | dense => exact ⟨h, hregs⟩
  | sparse =>
      obtain ⟨d, hd, -, hwf, hd', -⟩ := hllSparseToDense_spec h
      simp only [hd, exec_set_bind, exec_pure]
      exact ⟨hwf, hd'.trans hregs⟩

omit [LuaNumber ν] in
theorem pfdebugObject_keepsRegs (sub : DebugSub) :
    KeepsRegs (pfdebugObject sub : Command Hll (Reply ν)) := by
  intro regs
  cases sub with
  | getreg => exact (forceDense_keepsRegs regs).bind fun _ => keeps_get.bind fun _ => keeps_pure _
  | decode =>
      refine keeps_get.bind fun o => ?_
      cases o.encoding with
      | dense => exact keeps_throw _
      | sparse => exact keeps_pure _
  | encoding =>
      refine keeps_get.bind fun o => ?_
      cases o.encoding <;> exact keeps_pure _
  | todense => exact (forceDense_keepsRegs regs).bind fun _ => keeps_pure _

/-- **PFDEBUG** leaves all registers alone. -/
theorem lhllPfdebug_regs {s : Handles Hll} (hs : AllWf s) (args : List (LuaValue ν)) :
    regsOf (exec (lhllPfdebug args) s).2 = regsOf s := by
  have hkeeps : Keeps (HasRegs (regsOf s)) (lhllPfdebug args) := by
    refine (keeps_check _).bind fun id => (keeps_check _).bind fun cmd => ?_
    split
    · exact keeps_check _
    · refine keeps_get.bind fun s => (keeps_check _).bind fun _ => ?_
      split
      · exact keeps_throw _
      · split
        · exact keeps_throw _
        · exact (pfdebugObject_keepsRegs _).onHandle id _
  exact (hkeeps s ⟨hs, rfl⟩).2

end Refinement

/-! ## Weaving in calls of PFDEBUG -/

section Weaving

/-- A call of a sequence, or a PFDEBUG put in between. -/
inductive WovenCall (ν : Type) where
  | pfadd (args : List (LuaValue ν))
  | pfmerge (args : List (LuaValue ν))
  | pfcount (args : List (LuaValue ν))
  | inserted (args : List (LuaValue ν))

/-- The call itself. -/
def WovenCall.call : WovenCall ν → HllCommand × List (LuaValue ν)
  | .pfadd args => (.pfadd, args)
  | .pfmerge args => (.pfmerge, args)
  | .pfcount args => (.pfcount, args)
  | .inserted args => (.pfdebug, args)

/-- The call is one of the sequence. -/
def WovenCall.original : WovenCall ν → Bool
  | .inserted _ => false
  | _ => true

variable [LuaNumber ν]

/-- The replies to the calls of the sequence, and what the handles hold at
its end. -/
def wovenRun (E : Estimator) :
    Handles Hll → List (WovenCall ν) → List (Except LuaError (Reply ν)) × Handles Hll
  | s, [] => ([], s)
  | s, c :: cs =>
      let r := exec (hllCommand E c.call.1 c.call.2) s
      let rest := wovenRun E r.2 cs
      (if c.original then r.1 :: rest.1 else rest.1, rest.2)

/-- The same on registers, where nothing is inserted. -/
def absRun (E : Estimator) :
    Handles (List Nat) → List (WovenCall ν) → List (Except LuaError (Reply ν)) × Handles (List Nat)
  | A, [] => ([], A)
  | A, .pfadd args :: cs =>
      let r := exec (absPfadd args) A
      let rest := absRun E r.2 cs
      (r.1 :: rest.1, rest.2)
  | A, .pfmerge args :: cs =>
      let r := exec (absPfmerge args) A
      let rest := absRun E r.2 cs
      (r.1 :: rest.1, rest.2)
  | A, .pfcount args :: cs =>
      let r := exec (absPfcount E args) A
      let rest := absRun E r.2 cs
      (r.1 :: rest.1, rest.2)
  | A, .inserted _ :: cs => absRun E A cs

/-- The registers do not notice what is inserted. -/
theorem absRun_filter (E : Estimator) (A : Handles (List Nat)) (cs : List (WovenCall ν)) :
    absRun E A (cs.filter WovenCall.original) = absRun E A cs := by
  induction cs generalizing A with
  | nil => rfl
  | cons c cs ih =>
      cases c with
      | inserted args => exact ih A
      | pfadd args =>
          rw [List.filter_cons_of_pos rfl]
          simp only [absRun, ih]
      | pfmerge args =>
          rw [List.filter_cons_of_pos rfl]
          simp only [absRun, ih]
      | pfcount args =>
          rw [List.filter_cons_of_pos rfl]
          simp only [absRun, ih]

/-- **A run on values is the run on their registers**, if every PFADD in it
leaves a coherent cache. -/
theorem wovenRun_agree {E : Estimator} {s : Handles Hll} (hs : AllCoherent E s)
    {cs : List (WovenCall ν)}
    (hkept : Transition.Meets (hllStep E) keepsCache s (cs.map WovenCall.call)) :
    (wovenRun E s cs).1 = (absRun E (regsOf s) cs).1 ∧
      regsOf (wovenRun E s cs).2 = (absRun E (regsOf s) cs).2 ∧
      AllCoherent E (wovenRun E s cs).2 := by
  induction cs generalizing s with
  | nil => exact ⟨rfl, rfl, hs⟩
  | cons c cs ih =>
      have hwf : AllWf s := fun id => (hs id).wf
      have hnext : AllCoherent E (exec (hllCommand E c.call.1 c.call.2) s).2 :=
        hllStep_coherent hs hkept.1 rfl
      obtain ⟨hreplies, hregs, hcoh⟩ := ih hnext (hkept.2 _ rfl)
      cases c with
      | pfadd args =>
          obtain ⟨hout, hstate⟩ := lhllPfadd_agree hwf args
          simp only [wovenRun, absRun, WovenCall.call, hllCommand, WovenCall.original, if_true]
            at hreplies hregs hcoh ⊢
          rw [hout, ← hstate]
          exact ⟨congrArg _ hreplies, hregs, hcoh⟩
      | pfmerge args =>
          obtain ⟨hout, hstate⟩ := lhllPfmerge_agree hwf args
          simp only [wovenRun, absRun, WovenCall.call, hllCommand, WovenCall.original, if_true]
            at hreplies hregs hcoh ⊢
          rw [hout, ← hstate]
          exact ⟨congrArg _ hreplies, hregs, hcoh⟩
      | pfcount args =>
          obtain ⟨hout, hstate⟩ := lhllPfcount_agree hs args
          simp only [wovenRun, absRun, WovenCall.call, hllCommand, WovenCall.original, if_true]
            at hreplies hregs hcoh ⊢
          rw [hout, ← hstate]
          exact ⟨congrArg _ hreplies, hregs, hcoh⟩
      | inserted args =>
          have hstate := lhllPfdebug_regs hwf args
          simp only [wovenRun, absRun, WovenCall.call, hllCommand, WovenCall.original,
            Bool.false_eq_true, if_false] at hreplies hregs hcoh ⊢
          rw [← hstate]
          exact ⟨hreplies, hregs, hcoh⟩

/-- **Promotions are invisible**: calls of PFDEBUG woven into a sequence of
PFADD, PFMERGE and PFCOUNT calls on fresh handles change no reply to these, no
register, and no PFCOUNT afterwards, if every PFADD leaves a coherent cache in
the run with them and in the run without. -/
theorem promotions_invisible_of_kept (E : Estimator) (cs : List (WovenCall ν))
    (hwoven : Transition.Meets (hllStep E) keepsCache newHandles (cs.map WovenCall.call))
    (hplain : Transition.Meets (hllStep E) keepsCache newHandles
      ((cs.filter WovenCall.original).map WovenCall.call)) :
    (wovenRun E newHandles cs).1 = (wovenRun E newHandles (cs.filter WovenCall.original)).1 ∧
      (∀ id, ((wovenRun E newHandles cs).2 id).regs
        = ((wovenRun E newHandles (cs.filter WovenCall.original)).2 id).regs) ∧
      ∀ args : List (LuaValue ν), (exec (lhllPfcount E args) (wovenRun E newHandles cs).2).1
        = (exec (lhllPfcount E args)
            (wovenRun E newHandles (cs.filter WovenCall.original)).2).1 := by
  have hnew : AllCoherent E newHandles := fun _ => createHLLObject_coherent E
  obtain ⟨hreplies, hregs, hcoh⟩ := wovenRun_agree hnew hwoven
  obtain ⟨hreplies', hregs', hcoh'⟩ := wovenRun_agree hnew hplain
  rw [absRun_filter] at hreplies' hregs'
  have hsame := hregs.trans hregs'.symm
  refine ⟨hreplies.trans hreplies'.symm, fun id => congrFun hsame id, fun args => ?_⟩
  rw [(lhllPfcount_agree hcoh args).1, (lhllPfcount_agree hcoh' args).1, hsame]

end Weaving

/-- Elements added before and after a promotion. -/
def keptWeave : List (WovenCall IntegralDouble) :=
  [.pfadd [sampleHll, .string (ascii "a")], .inserted [sampleHll, .string (ascii "todense")],
    .pfadd [sampleHll, .string (ascii "b")]]

theorem promotions_invisible_of_kept_sample :
    (wovenRun usedRegisters newHandles keptWeave).1
        = (wovenRun usedRegisters newHandles (keptWeave.filter WovenCall.original)).1 ∧
      ((wovenRun usedRegisters newHandles keptWeave).2 0).regs
        = ((wovenRun usedRegisters newHandles (keptWeave.filter WovenCall.original)).2 0).regs := by
  have hkept : ∀ (s : Handles Hll) (ele : Bytes),
      keepsCache s (.pfadd, [sampleHll, .string ele]) := by
    intro s ele _ id _
    refine .inl fun v hv => ?_
    rw [List.mem_singleton.mp hv]
    rfl
  obtain ⟨hreplies, hregs, -⟩ := promotions_invisible_of_kept usedRegisters keptWeave
    ⟨hkept _ _, fun _ _ => ⟨nofun, fun _ _ => ⟨hkept _ _, fun _ _ => trivial⟩⟩⟩
    ⟨hkept _ _, fun _ _ => ⟨hkept _ _, fun _ _ => trivial⟩⟩
  exact ⟨hreplies, hregs 0⟩

/-- A promotion in front of a PFADD that raises on its second element. -/
def staleWeave : List (WovenCall IntegralDouble) :=
  [.inserted [sampleHll, .string (ascii "todense")],
    .pfadd [sampleHll, .string (ascii "a"), .table []]]

/-- **A promotion that shows**: in the sparse encoding the PFADD invalidates
the cache before it raises, in the dense one it does not, and PFCOUNT replies
1 in one run and 0 in the other. -/
theorem promotion_shows_after_raising_pfadd :
    ¬ ∀ (E : Estimator) (cs : List (WovenCall IntegralDouble))
        (args : List (LuaValue IntegralDouble)),
        (exec (lhllPfcount E args) (wovenRun E newHandles cs).2).1
          = (exec (lhllPfcount E args)
              (wovenRun E newHandles (cs.filter WovenCall.original)).2).1 := by
  intro h
  have heq := h usedRegisters staleWeave [sampleHll]
  -- the run with the promotion: the cache still says 0
  obtain ⟨d, o', hd, hwf', -, hcard', hpfadd⟩ := exists_stale
  have hstate : (wovenRun usedRegisters newHandles staleWeave).2
      = (newHandles.put 0 d).put 0 o' := by
    simp only [staleWeave, wovenRun, WovenCall.call, hllCommand, exec_todense hd]
    exact hpfadd
  have hzero : (exec (lhllPfcount usedRegisters [sampleHll])
      (wovenRun usedRegisters newHandles staleWeave).2).1 = .ok (.int 0) := by
    have hops : hllOperands [sampleHll] = [sampleHll] := rfl
    have hid : rlCheckValue .hll (some sampleHll) = .ok 0 := rfl
    rw [hstate, lhllPfcount, hops]
    simp only [hid, exec_check_ok_bind, onHandle, exec_focus, Handles.put_self, pfcountObject,
      exec_get_bind, rlCheckhll_of_wf hwf', validCache_of_card_zero hcard', if_true, exec_pure,
      hcard']
    rfl
  -- the run without it: the element was stored in place
  have hplace : storesInPlace createHLLObject (ascii "a") = true := by decide +kernel
  have hkept : Transition.Meets (hllStep usedRegisters) keepsCache newHandles
      ((staleWeave.filter WovenCall.original).map WovenCall.call) := by
    refine ⟨fun _ id _ => .inr (.inr fun e he => ?_), fun _ _ => trivial⟩
    have hlead : leadingMembers [(.string (ascii "a") : LuaValue IntegralDouble), .table []]
        = [ascii "a"] := rfl
    have hfind : (leadingMembers [(.string (ascii "a") : LuaValue IntegralDouble), .table []]).find?
        (raisesRegister createHLLObject) = some e := he
    rw [hlead, List.find?_cons_of_pos (raisesRegister_of_zeros createHLLObject_regs _)] at hfind
    obtain rfl := Option.some.inj hfind
    exact hplace
  have hnew : AllCoherent usedRegisters newHandles := fun _ => createHLLObject_coherent usedRegisters
  obtain ⟨-, hregs, hcoh⟩ := wovenRun_agree hnew hkept
  have hone := lhllPfcount_single (ν := IntegralDouble) hcoh 0
  have hset : ((wovenRun usedRegisters newHandles (staleWeave.filter WovenCall.original)).2 0).regs
      = (List.replicate hllRegisters 0).set (hllPatLen (ascii "a")).1 (hllPatLen (ascii "a")).2 := by
    have hlt := raisesRegister_of_zeros createHLLObject_regs (ascii "a")
    rw [raisesRegister, decide_eq_true_eq] at hlt
    have hmem : rlMemberValue (some (.string (ascii "a") : LuaValue IntegralDouble))
        = .ok (ascii "a") := rfl
    have hbad : rlMemberValue (some (.table [] : LuaValue IntegralDouble))
        = .error (memberErr (some (.table []))) := rfl
    have hid : rlCheck [sampleHll, .string (ascii "a"), .table []] 1 .hll = .ok 0 := rfl
    have hloop : (exec (absPfaddElements [(.string (ascii "a") : LuaValue IntegralDouble),
        .table []] false) createHLLObject.regs)
        = (.error (memberErr (some (.table [] : LuaValue IntegralDouble))),
          createHLLObject.regs.set (hllPatLen (ascii "a")).1 (hllPatLen (ascii "a")).2) := by
      rw [absPfaddElements, hmem, exec_check_ok_bind, exec_get_bind, if_pos hlt, exec_set_bind,
        absPfaddElements, hbad, exec_check_error_bind]
    have hrun := congrFun hregs 0
    rw [absRun_filter] at hrun
    simp only [staleWeave, absRun, absPfadd, hid, exec_check_ok_bind, onHandle, exec_focus,
      Handles.put_self, List.drop_succ_cons, List.drop_zero] at hrun
    refine hrun.trans ?_
    rw [show regsOf newHandles 0 = createHLLObject.regs from rfl,
      exec_bind_error hloop, createHLLObject_regs]
  rw [hllCount_spec _ (hcoh 0).wf, hset, usedRegisters_one] at hone
  rw [hzero] at heq
  have hcontra := heq.trans hone
  rw [Except.ok.injEq, Reply.int.injEq] at hcontra
  exact absurd hcontra (by decide)

end SkynetJit.Redis.HyperLogLog
