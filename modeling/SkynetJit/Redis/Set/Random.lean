import SkynetJit.Redis.Random
import SkynetJit.Redis.Set.Refinement

/-!
# SkynetJit.Redis.Set.Random

SRANDMEMBER (`lsrandmember`).  Its strategies depend on the sign of the count,
the encoding and the sizes, as those of ZRANDMEMBER do, but each of them walks
the set in its own way; `yields_srandmemberCount` says that all of them reply
with members, so many and different ones as the count asks for.

A reply is a list here; how many fields a table of the interpreter can have is
not modelled.
-/

namespace SkynetJit.Redis

open Raise Draw

/-- `setTypeRandomElement` with the number it draws.  An empty set has no
element to read. -/
def drawElement (o : SetObj) : Rand Entry := do
  let r ← next
  expect .access (setTypeRandomElement o r)

/-- `RL_SRAND_SUB_STRATEGY_MUL`. -/
def srandSubStrategyMul : Nat := 3

/-- `RL_SRAND_RANDOM_SAMPLE_LIMIT`. -/
def srandRandomSampleLimit : Nat := 1000

/-- The walk of the case of a listpack, from entry `index` on. -/
def nextEntries (lp : Listpack) : Nat → Nat → Listpack → Rand Listpack
  | 0, _, _ => pure []
  | want + 1, index, p => do
      let (index, p) ← expect .access (← lpNextRandom lp.length (want + 1) 1 index p)
      match p with
      | e :: p => do
          let rest ← nextEntries lp want (index + 1) p
          return e :: rest
      | [] => fault .access

/-- The two cases with a staging dict: take all and drop some, or sample and keep
the new ones. -/
def stagedMembers (o : SetObj) (count : Nat) : Rand (List Bytes) :=
  let size := setTypeSize o
  if count * srandSubStrategyMul % 2 ^ 64 > size then do
    let d ← dictAddAll id o.members []
    require .assertion (d.length = size)
    dropRandom id dictGetFairRandomKey (size - count) d
  else unseen id (Entry.toBytes <$> drawElement o) count

/-- The cases of SRANDMEMBER with a count. -/
def srandmemberCount (set : Option SetObj) (l : Int) : Rand (List Bytes) :=
  let count := l.natAbs
  match set with
  | none => pure []
  | some o =>
      let size := setTypeSize o
      if count = 0 then pure []
      else if size = 0 then pure []
      else if l < 0 ∨ count = 1 then
        match o with
        | .listpack lp =>
            if count > 1 then
              List.map Entry.toBytes <$> batches srandRandomSampleLimit (lpRandomEntries lp) (count + 1) count
            else times (Entry.toBytes <$> drawElement o) count
        | _ => times (Entry.toBytes <$> drawElement o) count
      else if count ≥ size then pure o.members
      else match o with
      | .listpack lp => List.map Entry.toBytes <$> nextEntries lp count 0 lp
      | _ => stagedMembers o count

section Commands

variable {ν : Type} [LuaNumber ν]

/-- `rl_rangelong`. -/
def rlRangelong (args : List (LuaValue ν)) (idx : Nat) (lo hi : Int) : Except LuaError Int := do
  let v ← rlChecklong args idx
  if v < lo ∨ v > hi then
    .error (rlError (ascii "value is out of range, value must between " ++ ll2string lo ++ ascii " and " ++
      ll2string hi))
  else return v

/-- The checks of SRANDMEMBER: a handle, and perhaps a count. -/
def srandArgs (args : List (LuaValue ν)) : Except LuaError (Nat × Option Int) := do
  let id ← rlCheck args 1 .set
  if args.length > 2 then .error syntaxErr
  else if args.length = 1 then return (id, none)
  else
    let l ← rlRangelong args 2 (-longMax) longMax
    return (id, some l)

/-- `lsrandmember`; the numbers that `rand()` returns are an input.  A count that
passes its check has a negation. -/
def lsrandmember (rs : List Nat) (args : List (LuaValue ν)) :
    Command Sets (Except (Stop Crash) (Reply ν × List Nat)) := do
  let (id, count?) ← check (srandArgs args)
  let s ← get
  match count?, s id with
  | none, none => return .ok (.nilReply, rs)
  | none, some o => return ((fun e => .text e.toBytes) <$> drawElement o) rs
  | some l, set => return (pushMembers <$> srandmemberCount set l) rs

end Commands

/-! ## Specifications -/

theorem yields_drawElement {o : SetObj} (hne : o.members ≠ []) :
    Yields (fun s => s ∈ o.members) (Entry.toBytes <$> drawElement o) := by
  refine Yields.map (yields_next.bind fun r _ => ?_)
  obtain ⟨e, he⟩ := exists_setTypeRandomElement hne r
  exact yields_expect ⟨e, he, List.mem_map_of_mem (setTypeRandomElement_mem he)⟩

theorem covers_drawElement (o : SetObj) : Covers o.members (Entry.toBytes <$> drawElement o) := by
  have hlength : setTypeSize o = o.elements.length := by rw [setTypeSize_eq, SetObj.members, List.length_map]
  intro s hs
  obtain ⟨e, he, rfl⟩ := List.mem_map.mp hs
  obtain ⟨i, hi, rfl⟩ := List.mem_iff_getElem.mp he
  refine ⟨i, Runs.map (fun rest => ?_) Entry.toBytes⟩
  show expect Crash.access (setTypeRandomElement o i) rest = _
  rw [setTypeRandomElement, hlength, Nat.mod_eq_of_lt hi, List.getElem?_eq_getElem hi]
  rfl

theorem yields_nextEntries {lp : Listpack} {want index : Nat} (h : want ≤ lp.length - index) :
    Yields (fun es => es.length = want ∧ es.Sublist (lp.drop index)) (nextEntries lp want index (lp.drop index)) := by
  induction want generalizing index with
  | zero => exact yields_pure ⟨rfl, List.nil_sublist _⟩
  | succ want ih =>
      refine (yields_lpNextRandom (Nat.mod_one _) (Nat.succ_pos _) (by rw [List.length_drop]; omega)
        (by rwa [Nat.div_one])).bind ?_
      rintro _ ⟨j, q, rfl, -, hij, rfl, -, hleft⟩
      rw [Nat.div_one] at hleft
      have hj : j < lp.length := by omega
      refine (yields_expect (P := fun r => r = (j, _)) ⟨_, rfl, rfl⟩).bind ?_
      rintro _ rfl
      have hdrop : (lp.drop index).drop (j - index) = lp[j] :: lp.drop (j + 1) := by
        rw [List.drop_drop, Nat.add_sub_cancel' hij, List.drop_eq_getElem_cons hj]
      have hsub := List.drop_sublist (j - index) (lp.drop index)
      rw [hdrop] at hsub ⊢
      refine (ih (by omega)).bind fun es hes => yields_pure ⟨by rw [List.length_cons, hes.1], ?_⟩
      exact (hes.2.cons_cons lp[j]).trans hsub

theorem yields_stagedMembers {o : SetObj} (hwf : o.Wf) (hne : o.members ≠ []) {count : Nat}
    (hcount : count ≤ o.members.length) :
    Yields (fun picked => picked.length = count ∧ (picked.map id).Nodup ∧ ∀ s ∈ picked, s ∈ o.members)
      (stagedMembers o count) := by
  have hnodup : (o.members.map id).Nodup := by
    rw [List.map_id]
    exact hwf.nodup
  refine yields_ite (fun _ => ?_) fun _ =>
    yields_unseen (yields_drawElement hne) (covers_drawElement o) hnodup hcount
  refine (yields_dictAddAll (l := o.members) hnodup).bind fun d hd => ?_
  rw [List.nil_append] at hd
  subst hd
  refine (yields_require (setTypeSize_eq o).symm).bind fun _ _ => ?_
  rw [setTypeSize_eq]
  refine (yields_dropRandom (fun d hd => yields_dictGetFairRandomKey hd) (Nat.sub_le _ _)).mono fun picked hpicked => ?_
  refine ⟨?_, hnodup.sublist (hpicked.2.map id), hpicked.2.subset⟩
  rw [hpicked.1, Nat.sub_sub_self hcount]

/-- **Every strategy** replies with what the count asks for. -/
theorem yields_srandmemberCount {set : Option SetObj} (hwf : ∀ o ∈ set, o.Wf) (l : Int) :
    Yields (Sampled id (payloadMembers set) l) (srandmemberCount set l) := by
  cases set with
  | none => exact yields_pure Sampled.nil
  | some o =>
      have hnodup : (o.members.map id).Nodup := by
        rw [List.map_id]
        exact (hwf o rfl).nodup
      have hsize := setTypeSize_eq o
      unfold srandmemberCount
      refine yields_ite (fun hzero => ?_) fun hzero => yields_ite (fun hempty => ?_) fun hempty => ?_
      · rw [Int.natAbs_eq_zero.mp hzero]
        exact yields_pure Sampled.zero
      · rw [hsize, List.length_eq_zero_iff] at hempty
        rw [payloadMembers, hempty]
        exact yields_pure Sampled.nil
      have hne : o.members ≠ [] := fun h => hempty (by rw [hsize, h, List.length_nil])
      refine yields_ite (fun hrepeats => ?_) fun hdiffers => ?_
      · have hsingle := (yields_times (yields_drawElement hne) l.natAbs).mono fun picked =>
          @Sampled.repeats _ _ id _ picked _ hrepeats hne
        cases o with
        | intset is => exact hsingle
        | ht keys => exact hsingle
        | listpack lp =>
            refine yields_ite (fun _ => ?_) fun _ => hsingle
            have hlp : lp ≠ [] := fun h => hne (by rw [h]; rfl)
            refine Yields.map ((yields_batches (fun n _ _ => yields_lpRandomEntries hlp n) (by decide)
              (Nat.lt_succ_self _)).mono fun es hes => Sampled.repeats hrepeats hne ⟨?_, fun s hs => ?_⟩)
            · rw [List.length_map, hes.1]
            · obtain ⟨e, he, rfl⟩ := List.mem_map.mp hs
              exact List.mem_map_of_mem (hes.2 e he)
      have hnonneg : 0 ≤ l := by omega
      refine yields_ite (fun hall => ?_) fun hsome => ?_
      · refine yields_pure (Sampled.of_sublist hnonneg hnodup ?_ (List.Sublist.refl _))
        rw [payloadMembers]
        omega
      have hlength : l.natAbs = min l.natAbs o.members.length := by omega
      have hstaged := (yields_stagedMembers (hwf o rfl) hne (hlength ▸ Nat.min_le_right _ _)).mono
        fun picked (h : picked.length = l.natAbs ∧ _) =>
          Sampled.differs hnonneg (h.1.trans hlength) h.2.1 h.2.2
      cases o with
      | intset is => exact hstaged
      | ht keys => exact hstaged
      | listpack lp =>
          have hlp : l.natAbs ≤ lp.length - 0 := by
            rw [setTypeSize] at hsome
            omega
          refine Yields.map ((@yields_nextEntries lp _ 0 hlp).mono fun es hes => ?_)
          refine Sampled.of_sublist hnonneg hnodup ?_ (hes.2.map Entry.toBytes)
          rw [List.length_map, hes.1]
          exact hlength

section Commands

variable {ν : Type} [LuaNumber ν]

/-- A call that gets past its checks. -/
theorem exec_lsrandmember {s : Sets} {args : List (LuaValue ν)} {id : Nat} {l : Int}
    (hargs : srandArgs args = .ok (id, some l)) (rs : List Nat) :
    exec (lsrandmember rs args) s = (.ok ((pushMembers <$> srandmemberCount (s id) l) rs), s) := by
  rw [lsrandmember, hargs, exec_check_ok_bind, exec_get_bind]
  rfl

/-- **SRANDMEMBER with a count.**  Every count that the check lets through is
served: whatever is drawn, nothing goes wrong, the sets stay as they are, and
the reply holds what the count asks for; and some draws lead to a reply. -/
theorem srandmember_samples {s : Sets} {args : List (LuaValue ν)} {id : Nat} {l : Int}
    (hwf : ∀ o ∈ s id, o.Wf) (hargs : srandArgs args = .ok (id, some l)) :
    (∀ rs, ∃ r, exec (lsrandmember rs args) s = (.ok r, s) ∧
      Outcome (fun reply => ∃ picked, reply = pushMembers picked ∧
        Sampled (fun e => e) (payloadMembers (s id)) l picked) r) ∧
    ∃ rs reply rest, exec (lsrandmember rs args) s = (.ok (.ok (reply, rest)), s) := by
  have hyields := yields_srandmemberCount hwf l
  constructor
  · exact fun rs => ⟨_, exec_lsrandmember hargs rs,
      (Yields.map (hyields.mono fun picked h => ⟨picked, rfl, h⟩)).outcome rs⟩
  · obtain ⟨rs, picked, hruns⟩ := hyields.ends
    refine ⟨rs ++ [], pushMembers picked, [], ?_⟩
    rw [exec_lsrandmember hargs, hruns.map pushMembers []]

end Commands

/-- Two of the five numbers. -/
def twoNumbers : List (LuaValue IntegralDouble) := [.handle .set 0, .string (ascii "2")]

theorem srandmember_samples_sample : ∃ rs reply rest,
    exec (lsrandmember rs twoNumbers) fiveNumbers = (.ok (.ok (reply, rest)), fiveNumbers) := by
  have hwf : ∀ o ∈ fiveNumbers 0, o.Wf := by
    rintro _ ⟨rfl⟩
    exact wf_intset ⟨by decide, by decide, by decide⟩
  exact (srandmember_samples hwf (show srandArgs twoNumbers = .ok (0, some 2) by rfl)).2

end SkynetJit.Redis
