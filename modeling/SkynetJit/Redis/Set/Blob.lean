import Mathlib.Data.List.Sort
import SkynetJit.Redis.Blob
import SkynetJit.Redis.Number
import SkynetJit.Redis.Set.Refinement

/-!
# SkynetJit.Redis.Set.Blob

The portable form of a set (`rl_dump_set` and `rl_load_set` of
`facade/rl_common.c`): a count, then every member behind its length, in byte
order.

* `rlLoadSet_eq_ok_iff` — the loader accepts the blobs of the format, and
  builds what a SADD of their members builds;
* `rlLoadSet_inside` — it stays inside the blob;
* `set_dump_load` — dumping and loading, in every reachable state.
-/

namespace SkynetJit.Redis

open Raise Transition

/-! ## Dump -/

/-- `rl_cmp_members`, as an order: `a` may stand before `b`. -/
def rlCmpMembers (a b : Bytes) : Prop := sdscmp a b ≠ .gt

instance : DecidableRel rlCmpMembers := fun a b => inferInstanceAs (Decidable (sdscmp a b ≠ .gt))

/-- `rl_set_members`. -/
def rlSetMembers (o : Option SetObj) : List Bytes :=
  match o with
  | none => []
  | some o => o.members

/-- The bytes of a blob with these members, in this order. -/
def setBlob (members : List Bytes) : Bytes :=
  leBytes 4 members.length ++ members.flatMap fun m => leBytes 4 m.length ++ m

/-- `rl_dump_set`.  The members differ, so every sort gives the same. -/
def rlDumpSet (o : Option SetObj) : Bytes := setBlob ((rlSetMembers o).insertionSort rlCmpMembers)

/-! ## Load -/

/-- The loop that walks over the records: where each member starts and how
long it is, and where the walk ended. -/
def memberRefs (buf : Bytes) : Nat → Nat → Loader (List (Nat × Nat) × Nat)
  | 0, p => return ([], p)
  | n + 1, p => do
      if sizeLeft buf p < 4 then bad
      else
        let len ← rlRd32 buf p
        if sizeLeft buf (p + 4) < len then bad
        else
          let r ← memberRefs buf n (p + 4 + len)
          return ((p + 4, len) :: r.1, r.2)

/-- The loop that adds the members.  The first one decides the payload, and a
dict makes room for all of them. -/
def loadElements (buf : Bytes) (count : Nat) :
    List (Nat × Nat) → Option SetObj → Loader (Option SetObj)
  | [], o => return o
  | (p, len) :: refs, o => do
      let ele ← sdsnewlen buf p len
      if o = none then access (.alloc count 4)
      loadElements buf count refs (some (setTypeAdd (o.getD (setTypeCreate ele count)) ele).2)

/-- `rl_load_set`. -/
def rlLoadSet (buf : Bytes) : Loader (Option SetObj) := do
  if buf.length < 4 then bad
  else
    let count ← rlRd32 buf 0
    if count > roomFor buf 4 then bad
    else
      access (.alloc (if count = 0 then 1 else count) 4)
      let r ← memberRefs buf count 4
      if r.2 ≠ buf.length then bad
      else loadElements buf count r.1 none

/-! ## The commands -/

section Commands

variable {ν : Type}

/-- `lset_dump`. -/
def lsetDump (args : List (LuaValue ν)) : Command Sets (Reply ν) := do
  let id ← check (rlCheck args 1 .set)
  let s ← get
  check (pushLstring (rlDumpSet (s id)))

/-- `lset_load`.  The new object takes the handle `id`; it is empty until the
blob is read. -/
def lsetLoad (id : Nat) (args : List (LuaValue ν)) : Command Sets (LuaValue ν) := do
  let buf ← check (rlCheckblob args 1)
  modify fun s => s.put id none
  let o ← check (exec (rlLoadSet buf) []).1
  modify fun s => s.put id o
  return .handle .set id

end Commands

/-! ## The format -/

/-- The record of a member. -/
def memberFrame (m : Bytes) : Frame := ⟨[], m⟩

/-- Members that a blob can hold: the count and the lengths fit their
fields. -/
structure MembersFit (members : List Bytes) : Prop where
  count : members.length < 2 ^ 32
  lens : ∀ m ∈ members, m.length < 2 ^ 32

theorem setBlob_eq (members : List Bytes) :
    setBlob members = leBytes 4 members.length ++ framesBytes (members.map memberFrame) := by
  rw [setBlob, framesBytes, List.flatMap_map]
  rfl

theorem MembersFit.frames {members : List Bytes} (h : MembersFit members) :
    ∀ f ∈ members.map memberFrame, f.Fits 0 := by
  intro f hf
  obtain ⟨m, hm, rfl⟩ := List.mem_map.mp hf
  exact ⟨rfl, h.lens m hm⟩

/-- What fits a string of Lua fits the fields. -/
theorem membersFit_of_length {members : List Bytes} (h : (setBlob members).length < 2 ^ 32) :
    MembersFit members := by
  rw [setBlob_eq, List.length_append, length_leBytes] at h
  have hcount : members.length ≤ (framesBytes (members.map memberFrame)).length := by
    clear h
    induction members with
    | nil => simp
    | cons m members ih =>
        rw [List.map_cons, framesBytes_cons, List.length_append, Frame.length_bytes,
          List.length_cons]
        omega
  refine ⟨by omega, fun m hm => ?_⟩
  have := body_length_le_framesBytes (List.mem_map_of_mem (f := memberFrame) hm)
  change m.length ≤ _ at this
  omega

theorem setBlob_inj {members members' : List Bytes} (h : MembersFit members)
    (h' : MembersFit members') (heq : setBlob members = setBlob members') : members = members' := by
  rw [setBlob_eq, setBlob_eq] at heq
  obtain ⟨hcount, hframes⟩ := List.append_inj heq (by rw [length_leBytes, length_leBytes])
  have hlen : members.length = members'.length := by
    have hnat := congrArg leNat hcount
    rwa [leNat_leBytes_of_lt h.count, leNat_leBytes_of_lt h'.count] at hnat
  have hfs := framesBytes_inj h.frames h'.frames (by simpa using hlen) hframes
  exact (List.map_inj_right fun a b hab => by simpa [memberFrame] using hab).mp hfs

/-! ## The loader accepts the format -/

/-- The bytes behind a reference. -/
def refBytes (buf : Bytes) (ref : Nat × Nat) : Bytes := (buf.drop ref.1).take ref.2

/-- The walk over records that are there. -/
theorem memberRefs_of_frames {buf rest : Bytes} (hlen : buf.length < 2 ^ 64) {members : List Bytes}
    (hfit : ∀ m ∈ members, m.length < 2 ^ 32) {p : Nat} (hp : p ≤ buf.length)
    (hdrop : buf.drop p = framesBytes (members.map memberFrame) ++ rest) (log : List Access) :
    ∃ refs q log', exec (memberRefs buf members.length p) log = (.ok (refs, q), log') ∧
      refs.map (refBytes buf) = members ∧ q + rest.length = buf.length := by
  induction members generalizing p log with
  | nil =>
      have hrest : buf.length - p = rest.length := by rw [← List.length_drop, hdrop]; rfl
      exact ⟨[], p, log, rfl, rfl, by omega⟩
  | cons m members ih =>
      rw [List.map_cons, framesBytes_cons, List.append_assoc] at hdrop
      have hat := drop_frame (k := 0) ⟨rfl, hfit m List.mem_cons_self⟩ hdrop
      have hbody : (memberFrame m).body = m := rfl
      have hlenAt := hat.len
      have hbodyAt := hat.body
      have hrestAt := hat.rest
      have hfits := hat.fits
      simp only [Nat.add_zero, hbody] at hlenAt hbodyAt hrestAt hfits
      have hleft := sizeLeft_eq hp hlen
      have hleft' := sizeLeft_eq (p := p + 4) (by omega) hlen
      obtain ⟨refs, q, log', hexec, hmap, hq⟩ := ih
        (fun m' hm' => hfit m' (List.mem_cons_of_mem m hm')) hfits hrestAt (log ++ [.read p 4])
      refine ⟨(p + 4, m.length) :: refs, q, log', ?_, ?_, hq⟩
      · rw [List.length_cons, memberRefs, if_neg (by omega), exec_rlRd32_bind, hlenAt,
          if_neg (by omega), exec_bind_ok hexec, exec_pure]
      · rw [List.map_cons, hmap, refBytes, hbodyAt]

/-- What the walk accepts are records. -/
theorem memberRefs_sound {buf : Bytes} {n p q : Nat} {refs : List (Nat × Nat)}
    {log log' : List Access} (hp : p ≤ buf.length)
    (h : exec (memberRefs buf n p) log = (.ok (refs, q), log')) :
    q ≤ buf.length ∧ (∀ r ∈ refs, r.1 + r.2 ≤ buf.length) ∧ ∃ members : List Bytes,
      members.length = n ∧ (∀ m ∈ members, m.length < 2 ^ 32) ∧
      buf.drop p = framesBytes (members.map memberFrame) ++ buf.drop q ∧
      refs.map (refBytes buf) = members := by
  induction n generalizing p refs log with
  | zero =>
      rw [memberRefs, exec_pure, Prod.mk.injEq, Except.ok.injEq, Prod.mk.injEq] at h
      obtain ⟨⟨rfl, rfl⟩, -⟩ := h
      exact ⟨hp, nofun, [], rfl, nofun, rfl, rfl⟩
  | succ n ih =>
      rw [memberRefs] at h
      split_ifs at h with hleft
      · simp at h
      rw [exec_rlRd32_bind] at h
      split_ifs at h with hleft'
      · simp at h
      have hroom := sizeLeft_le hp
      have hroom' : p + 4 + sizeLeft buf (p + 4) ≤ buf.length := sizeLeft_le (by omega)
      obtain ⟨f, hf, hbody, hdrop⟩ := split_frame (p := p) (k := 0) rfl
        (show p + 0 + 4 + leNat ((buf.drop (p + 0)).take 4) ≤ buf.length by
          simp only [Nat.add_zero]; omega)
      simp only [Nat.add_zero] at hbody hdrop
      rw [exec_bind] at h
      rcases hrec : exec (memberRefs buf n (p + 4 + leNat ((buf.drop p).take 4)))
        (log ++ [.read p 4]) with ⟨r, log''⟩
      rw [hrec] at h
      cases r with
      | error e => simp at h
      | ok r =>
          obtain ⟨refs', q'⟩ := r
          simp only [exec_pure, Prod.mk.injEq, Except.ok.injEq] at h
          obtain ⟨⟨rfl, rfl⟩, rfl⟩ := h
          obtain ⟨hq, hrefs, members, hn, hfit, hrest, hmap⟩ := ih (by omega) hrec
          have hframe : f = memberFrame f.body := by
            have htag : f.tag = [] := List.length_eq_zero_iff.mp hf.tag
            rw [memberFrame, ← htag]
          have hslice : refBytes buf (p + 4, leNat ((buf.drop p).take 4)) = f.body := by
            have hat := drop_frame hf hdrop
            rw [refBytes, ← hbody]
            exact hat.body
          refine ⟨hq, ?_, f.body :: members, by rw [List.length_cons, hn], ?_, ?_, ?_⟩
          · intro r hr
            rcases List.mem_cons.mp hr with rfl | hin
            · dsimp only
              omega
            · exact hrefs r hin
          · intro m hm
            rcases List.mem_cons.mp hm with rfl | hin
            · exact hf.body
            · exact hfit m hin
          · rw [List.map_cons, framesBytes_cons, List.append_assoc, ← hrest, ← hframe]
            exact hdrop
          · rw [List.map_cons, hmap, hslice]

/-- The members end up in the payload a SADD of them builds. -/
theorem exec_loadElements (buf : Bytes) (count : Nat) (refs : List (Nat × Nat)) (o : Option SetObj)
    (added : Nat) (log : List Access) :
    (exec (loadElements buf count refs o) log).1 =
      .ok (saddElements count (refs.map (refBytes buf)) o added).2 := by
  induction refs generalizing o added log with
  | nil => rfl
  | cons ref refs ih =>
      obtain ⟨p, len⟩ := ref
      rw [loadElements, exec_sdsnewlen_bind, List.map_cons, saddElements]
      cases o with
      | none => exact ih _ _ _
      | some o => exact ih _ _ _

/-- The members a loader finds are those of the blob. -/
theorem rlLoadSet_sound {buf : Bytes} {log : List Access} {o : Option SetObj}
    (h : (exec (rlLoadSet buf) log).1 = .ok o) : ∃ members, MembersFit members ∧
      buf = setBlob members ∧ o = (saddElements members.length members none 0).2 := by
  rw [rlLoadSet] at h
  split_ifs at h with hshort
  · simp at h
  rw [exec_rlRd32_bind, List.drop_zero] at h
  by_cases hroom : leNat (buf.take 4) > roomFor buf 4
  · simp [if_pos hroom] at h
  rw [if_neg hroom, exec_access_bind, exec_bind] at h
  rcases hwalk : exec (memberRefs buf (leNat (buf.take 4)) 4)
    (log ++ [.read 0 4] ++ [.alloc (if leNat (buf.take 4) = 0 then 1 else leNat (buf.take 4)) 4])
    with ⟨r, log'⟩
  rw [hwalk] at h
  cases r with
  | error e => simp at h
  | ok r =>
      obtain ⟨refs, q⟩ := r
      dsimp only at h
      split_ifs at h with hend
      · simp at h
      obtain ⟨-, -, members, hn, hfit, hdrop, hmap⟩ := memberRefs_sound (by omega) hwalk
      have htake : (buf.take 4).length = 4 := by
        rw [List.length_take]
        omega
      have hcount : members.length < 2 ^ 32 := by
        have := leNat_lt (buf.take 4)
        rwa [htake, ← hn] at this
      refine ⟨members, ⟨hcount, hfit⟩, ?_, ?_⟩
      · have hbytes := leBytes_leNat (buf.take 4)
        rw [htake, ← hn] at hbytes
        have hq : q = buf.length := not_not.mp hend
        rw [hq, List.drop_length, List.append_nil] at hdrop
        rw [setBlob_eq, hbytes, ← hdrop, List.take_append_drop]
      · rw [exec_loadElements buf _ refs none 0, hmap, ← hn] at h
        exact (Except.ok.inj h).symm

/-- Every blob of the format is accepted. -/
theorem rlLoadSet_setBlob {members : List Bytes} (hlen : (setBlob members).length < 2 ^ 32)
    (log : List Access) : (exec (rlLoadSet (setBlob members)) log).1 =
      .ok (saddElements members.length members none 0).2 := by
  have hfit := membersFit_of_length hlen
  have heq := setBlob_eq members
  have hframes := length_le_framesBytes hfit.frames
  have hsize : (setBlob members).length =
      4 + (framesBytes (members.map memberFrame)).length := by
    rw [heq, List.length_append, length_leBytes]
  have hcount : leNat ((setBlob members).take 4) = members.length := by
    rw [heq, List.take_left' (length_leBytes 4 _), leNat_leBytes]
    exact Nat.mod_eq_of_lt hfit.count
  have hroom : members.length ≤ roomFor (setBlob members) 4 := by
    refine le_roomFor (by decide) hlen ?_
    rw [List.length_map] at hframes
    omega
  have hdrop : (setBlob members).drop 4 = framesBytes (members.map memberFrame) ++ [] := by
    rw [heq, List.drop_left' (length_leBytes 4 _), List.append_nil]
  obtain ⟨refs, q, log', hwalk, hmap, hq⟩ := memberRefs_of_frames (by omega) hfit.lens
    (by omega) hdrop (log ++ [.read 0 4] ++ [.alloc (if members.length = 0 then 1
      else members.length) 4])
  have hend : q = (setBlob members).length := by simpa using hq
  rw [rlLoadSet, if_neg (by omega), exec_rlRd32_bind, List.drop_zero, hcount, if_neg (by omega),
    exec_access_bind, exec_bind_ok hwalk, if_neg (by simp [hend]),
    exec_loadElements _ _ refs none 0, hmap]

/-- **The loader accepts exactly its format**, and builds what a SADD of the
members builds. -/
theorem rlLoadSet_eq_ok_iff {buf : Bytes} (hlen : buf.length < 2 ^ 32) (log : List Access)
    (o : Option SetObj) : (exec (rlLoadSet buf) log).1 = .ok o ↔
      ∃ members, buf = setBlob members ∧ o = (saddElements members.length members none 0).2 := by
  constructor
  · intro h
    obtain ⟨members, -, hbuf, ho⟩ := rlLoadSet_sound h
    exact ⟨members, hbuf, ho⟩
  · rintro ⟨members, rfl, rfl⟩
    exact rlLoadSet_setBlob hlen log

/-! ## The loader stays inside -/

theorem keeps_memberRefs {buf : Bytes} (n : Nat) {p : Nat} (hp : p ≤ buf.length) :
    Keeps (Inside buf) (memberRefs buf n p) := by
  induction n generalizing p with
  | zero => exact keeps_pure _
  | succ n ih =>
      have hroom := sizeLeft_le hp
      rw [memberRefs]
      split_ifs with hleft
      · exact keeps_bad
      · have hroom' : p + 4 + sizeLeft buf (p + 4) ≤ buf.length := sizeLeft_le (by omega)
        refine (keeps_rlRd32 (by omega)).bind fun len => ?_
        split_ifs with hlen
        · exact keeps_bad
        · exact (ih (by omega)).bind fun r => keeps_pure _

theorem keeps_loadElements {buf : Bytes} {count : Nat} (hcount : count * 4 ≤ buf.length)
    (refs : List (Nat × Nat)) (hrefs : ∀ r ∈ refs, r.1 + r.2 ≤ buf.length) (o : Option SetObj) :
    Keeps (Inside buf) (loadElements buf count refs o) := by
  induction refs generalizing o with
  | nil => exact keeps_pure _
  | cons ref refs ih =>
      obtain ⟨p, len⟩ := ref
      have hrest := fun o => ih (fun r hr => hrefs r (List.mem_cons_of_mem _ hr)) o
      refine (keeps_sdsnewlen (hrefs (p, len) List.mem_cons_self)).bind fun ele => ?_
      cases o with
      | none => exact (keeps_access (a := .alloc count 4) hcount).bind fun _ => hrest _
      | some o => exact hrest _

/-- **The loader stays inside the blob**: it reads no byte outside and makes
room for no more than the blob can hold, whether it accepts or not. -/
theorem rlLoadSet_inside (buf : Bytes) : Inside buf (exec (rlLoadSet buf) []).2 := by
  have hkeeps : Keeps (Inside buf) (rlLoadSet buf) := by
    rw [rlLoadSet]
    split_ifs with hshort
    · exact keeps_bad
    intro log hlog
    rw [exec_rlRd32_bind, List.drop_zero]
    have hlog' := hlog.access (a := .read 0 4) (show 0 + 4 ≤ buf.length by omega)
    by_cases hroom : leNat (buf.take 4) > roomFor buf 4
    · rwa [if_pos hroom]
    rw [if_neg hroom]
    have hcount := roomFor_le (Nat.le_of_not_lt hroom)
    have halloc : (Access.alloc (if leNat (buf.take 4) = 0 then 1 else leNat (buf.take 4)) 4).Within
        buf.length := by
      rw [Access.Within]
      split_ifs <;> omega
    refine ((keeps_access halloc).bind fun _ => Keeps.bind_of (keeps_memberRefs _ (p := 4) (by omega)) ?_
      fun r (hr : ∀ ref ∈ r.1, ref.1 + ref.2 ≤ buf.length) => ?_) _ hlog'
    · intro s a t _ hwalk
      exact (memberRefs_sound (by omega) hwalk).2.1
    · split_ifs
      · exact keeps_bad
      · exact keeps_loadElements (by omega) r.1 hr none
  exact hkeeps [] fun a ha => absurd ha List.not_mem_nil

/-! ## The loader raises one error -/

theorem raisesOnly_memberRefs (buf : Bytes) (n p : Nat) :
    RaisesOnly badFormatErr (memberRefs buf n p) := by
  induction n generalizing p with
  | zero => exact raisesOnly_pure _ _
  | succ n ih =>
      rw [memberRefs]
      split_ifs
      · exact raisesOnly_bad
      · refine (raisesOnly_rlRd32 p).bind fun len => ?_
        split_ifs
        · exact raisesOnly_bad
        · exact (ih _).bind fun r => raisesOnly_pure _ _

theorem raisesOnly_rlLoadSet (buf : Bytes) : RaisesOnly badFormatErr (rlLoadSet buf) := by
  rw [rlLoadSet]
  split_ifs
  · exact raisesOnly_bad
  · refine (raisesOnly_rlRd32 0).bind fun count => ?_
    by_cases hroom : count > roomFor buf 4
    · rw [if_pos hroom]
      exact raisesOnly_bad
    · rw [if_neg hroom]
      refine (raisesOnly_access _).bind fun _ => (raisesOnly_memberRefs buf count 4).bind fun r => ?_
      split_ifs
      · exact raisesOnly_bad
      · -- adding members raises nothing
        intro log e h
        rw [exec_loadElements buf count r.1 none 0] at h
        contradiction

/-! ## The canonical order -/

/-- Strictly ascending in byte order. -/
def Ascending (members : List Bytes) : Prop := members.Pairwise fun a b => sdscmp a b = .lt

theorem rlCmpMembers_iff {a b : Bytes} : rlCmpMembers a b ↔ a < b ∨ a = b := by
  rw [rlCmpMembers, ← sdscmp_eq_lt_iff, ← sdscmp_eq_iff]
  cases sdscmp a b <;> simp

instance : IsTrans Bytes rlCmpMembers where
  trans a b c hab hbc := by
    rw [rlCmpMembers_iff] at hab hbc ⊢
    rcases hab with hab | rfl
    · rcases hbc with hbc | rfl
      · exact .inl (List.lt_trans hab hbc)
      · exact .inl hab
    · exact hbc

instance : Std.Total rlCmpMembers where
  total a b := by
    rw [rlCmpMembers, rlCmpMembers, ← sdscmp_swap a b]
    cases sdscmp a b <;> simp

theorem rlCmpMembers_antisymm {a b : Bytes} (hab : rlCmpMembers a b) (hba : rlCmpMembers b a) :
    a = b := by
  rw [rlCmpMembers, ← sdscmp_swap a b] at hba
  rw [rlCmpMembers] at hab
  apply sdscmp_eq_iff.mp
  cases hc : sdscmp a b <;> simp [hc] at hab hba ⊢

theorem ascending_iff {members : List Bytes} :
    Ascending members ↔ members.Nodup ∧ members.Pairwise rlCmpMembers := by
  rw [Ascending, List.Nodup, ← List.pairwise_and_iff]
  constructor <;> refine List.Pairwise.imp fun {a b} h => ?_
  · rw [sdscmp_eq_lt_iff] at h
    exact ⟨fun heq => List.lt_irrefl b (heq ▸ h), rlCmpMembers_iff.mpr (.inl h)⟩
  · rw [sdscmp_eq_lt_iff]
    exact (rlCmpMembers_iff.mp h.2).resolve_right h.1

/-- Sorting leaves the one ascending list of the members. -/
theorem ascending_insertionSort {members : List Bytes} (h : members.Nodup) :
    Ascending (members.insertionSort rlCmpMembers) :=
  ascending_iff.mpr ⟨(List.perm_insertionSort _ members).nodup_iff.mpr h,
    List.pairwise_insertionSort _ members⟩

theorem Ascending.eq_of_toFinset_eq {xs ys : List Bytes} (hx : Ascending xs) (hy : Ascending ys)
    (h : xs.toFinset = ys.toFinset) : xs = ys := by
  obtain ⟨hxn, hxp⟩ := ascending_iff.mp hx
  obtain ⟨hyn, hyp⟩ := ascending_iff.mp hy
  refine List.Perm.eq_of_pairwise (fun a b _ _ => rlCmpMembers_antisymm) hxp hyp ?_
  exact List.perm_of_nodup_nodup_toFinset_eq hxn hyn h

/-- A dump lists the set of the payload. -/
theorem exists_dump {o : Option SetObj} (h : PayloadWf o) :
    ∃ members, Ascending members ∧ members.toFinset = payloadSet o ∧ rlDumpSet o = setBlob members := by
  have hnodup : (rlSetMembers o).Nodup := by
    cases o with
    | none => exact List.nodup_nil
    | some o => exact (h o rfl).1.nodup
  refine ⟨_, ascending_insertionSort hnodup, ?_, rfl⟩
  rw [List.toFinset_eq_of_perm _ _ (List.perm_insertionSort _ _)]
  cases o <;> rfl

/-! ## Dumping and loading -/

section System

variable {ν : Type} [LuaNumber ν]

/-- A call that changes sets, `set.load` included. -/
inductive SetAction (ν : Type) where
  | call (c : SetCall ν)
  | load (id : Nat) (args : List (LuaValue ν))

/-- A call as a step: what the handles hold afterwards, also when it
raised. -/
def setActionStep (s : Sets) : SetAction ν → Option Sets
  | .call c => some (setStep s c).2
  | .load id args => some (exec (lsetLoad id args) s).2

/-- Every handle holds a well-formed payload. -/
def AllPayloadsWf (s : Sets) : Prop := ∀ id, PayloadWf (s id)

theorem AllPayloadsWf.put {s : Sets} (h : AllPayloadsWf s) (id : Nat) {o : Option SetObj}
    (ho : PayloadWf o) : AllPayloadsWf (s.put id o) := by
  intro i
  by_cases hi : i = id
  · rwa [hi, Handles.put_self]
  · rw [Handles.put_of_ne s o hi]
    exact h i

theorem rlLoadSet_wf {buf : Bytes} {log : List Access} {o : Option SetObj}
    (h : (exec (rlLoadSet buf) log).1 = .ok o) : PayloadWf o := by
  obtain ⟨members, -, -, rfl⟩ := rlLoadSet_sound h
  exact (saddElements_spec members.length members payloadWf_none 0).1

omit [LuaNumber ν] in
/-- What `set.load` leaves behind. -/
theorem exec_lsetLoad (id : Nat) (args : List (LuaValue ν)) (s : Sets) :
    exec (lsetLoad id args) s = match rlCheckblob args 1 with
      | .error e => (.error e, s)
      | .ok buf => match (exec (rlLoadSet buf) []).1 with
        | .error e => (.error e, s.put id none)
        | .ok o => (.ok (.handle .set id), s.put id o) := by
  rw [lsetLoad, exec_check_bind]
  cases rlCheckblob args 1 with
  | error e => rfl
  | ok buf =>
      simp only [exec_modify_bind, exec_check_bind]
      cases (exec (rlLoadSet buf) []).1 with
      | error e => rfl
      | ok o =>
          have hput : (s.put id none).put id o = s.put id o := by
            funext i
            simp only [Handles.put]
            split_ifs <;> rfl
          simp only [exec_pure, hput]

theorem setActionStep_wf {s s' : Sets} {a : SetAction ν} (hs : AllPayloadsWf s)
    (h : setActionStep s a = some s') : AllPayloadsWf s' := by
  cases a with
  | call c =>
      obtain rfl := Option.some.inj h
      obtain ⟨A', -, hsim⟩ := set_step (A := fun id => payloadSet (s id)) ⟨hs, fun _ => rfl⟩ c
      exact hsim.wf
  | load id args =>
      obtain rfl := Option.some.inj h
      rw [exec_lsetLoad]
      cases rlCheckblob args 1 with
      | error e => exact hs
      | ok buf =>
          dsimp only
          cases hload : (exec (rlLoadSet buf) []).1 with
          | error e => exact hs.put id payloadWf_none
          | ok o => exact hs.put id (rlLoadSet_wf hload)

theorem allPayloadsWf_of_run {calls : List (SetAction ν)} {s : Sets}
    (h : run setActionStep newSets calls = some s) : AllPayloadsWf s :=
  run_invariant (fun _ _ _ => setActionStep_wf) (fun _ => payloadWf_none) h

/-- Loading the dump of a payload. -/
theorem rlLoadSet_rlDumpSet {o : Option SetObj} (h : PayloadWf o)
    (hlen : (rlDumpSet o).length < luaMaxString) :
    ∃ o', (exec (rlLoadSet (rlDumpSet o)) []).1 = .ok o' ∧ payloadSet o' = payloadSet o := by
  obtain ⟨members, -, hset, hdump⟩ := exists_dump h
  have hlen' : (setBlob members).length < 2 ^ 32 := by
    rw [hdump, luaMaxString] at hlen
    omega
  refine ⟨_, by rw [hdump]; exact rlLoadSet_setBlob hlen' [], ?_⟩
  rw [(saddElements_spec members.length members payloadWf_none 0).2.1, hset]
  exact Finset.empty_union _

/-- Dumping what was loaded. -/
theorem rlDumpSet_rlLoadSet {b : Bytes} {o : Option SetObj} {members : List Bytes}
    (hfit : MembersFit members) (hb : b = setBlob members)
    (ho : o = (saddElements members.length members none 0).2) :
    rlDumpSet o = b ↔ Ascending members := by
  obtain ⟨hwf, hset, -⟩ := saddElements_spec members.length members payloadWf_none 0
  rw [← ho, payloadSet, Finset.empty_union] at hset
  rw [← ho] at hwf
  obtain ⟨sorted, hasc, hsorted, hdump⟩ := exists_dump hwf
  rw [hset] at hsorted
  constructor
  · intro heq
    have hsfit : MembersFit sorted := by
      have hnodup := (ascending_iff.mp hasc).1
      refine ⟨?_, fun m hm => ?_⟩
      · have hcard : sorted.length ≤ members.length := by
          rw [← List.toFinset_card_of_nodup hnodup, hsorted]
          exact List.toFinset_card_le members
        exact lt_of_le_of_lt hcard hfit.count
      · exact hfit.lens m (List.mem_toFinset.mp (hsorted ▸ List.mem_toFinset.mpr hm))
    rwa [← setBlob_inj hsfit hfit (by rw [← hdump, heq, hb])]
  · intro h
    rw [hdump, hb, hasc.eq_of_toFinset_eq h hsorted]

/-- **Dumping and loading sets.**  In every state that any sequence of set
commands and loads reaches: the dump of a handle, unless it is too long for a
Lua string, loads into a handle with the same members; handles with the same
members have the same dump, whatever their encodings and histories; and an
accepted blob is the dump of what it loads into exactly if its members are
strictly ascending. -/
theorem set_dump_load {calls calls' : List (SetAction ν)} {s s' : Sets}
    (hs : run setActionStep newSets calls = some s)
    (hs' : run setActionStep newSets calls' = some s') :
    (∀ id fresh, exec (lsetDump [(.handle .set id : LuaValue ν)]) s =
        (pushLstring (rlDumpSet (s id)), s) ∧
      ∀ blob, pushLstring (rlDumpSet (s id)) = .ok (.text blob : Reply ν) →
        ∃ o, exec (lsetLoad fresh [(.string blob : LuaValue ν)]) s =
            (.ok (.handle .set fresh), s.put fresh o) ∧
          payloadSet o = payloadSet (s id)) ∧
    (∀ i j, payloadSet (s i) = payloadSet (s' j) → rlDumpSet (s i) = rlDumpSet (s' j)) ∧
    (∀ b o, (exec (rlLoadSet b) []).1 = .ok o → ∃ members, MembersFit members ∧
      b = setBlob members ∧ (∀ others, MembersFit others → b = setBlob others → others = members) ∧
      (rlDumpSet o = b ↔ Ascending members)) := by
  have hwf := allPayloadsWf_of_run hs
  have hwf' := allPayloadsWf_of_run hs'
  refine ⟨fun id fresh => ⟨?_, fun blob hblob => ?_⟩, fun i j hij => ?_, fun b o hload => ?_⟩
  · simp [lsetDump, rlCheck, luaArg, exec_check_bind]
  · rw [pushLstring] at hblob
    split_ifs at hblob with hlen
    obtain rfl := Reply.text.inj (Except.ok.inj hblob)
    obtain ⟨o, hload, hset⟩ := rlLoadSet_rlDumpSet (hwf id) (Nat.lt_of_not_le hlen)
    refine ⟨o, ?_, hset⟩
    rw [exec_lsetLoad]
    simp only [rlCheckblob, luaArg, Nat.sub_self, List.getElem?_cons_zero, hload]
  · obtain ⟨xs, hxs, hxset, hxdump⟩ := exists_dump (hwf i)
    obtain ⟨ys, hys, hyset, hydump⟩ := exists_dump (hwf' j)
    rw [hxdump, hydump, hxs.eq_of_toFinset_eq hys (by rw [hxset, hyset, hij])]
  · obtain ⟨members, hfit, hb, ho⟩ := rlLoadSet_sound hload
    exact ⟨members, hfit, hb, fun others hothers hb' => setBlob_inj hothers hfit (hb'.symm.trans hb),
      rlDumpSet_rlLoadSet hfit hb ho⟩

/-- Two histories of one set: its members added in two orders, and a third
one added and removed. -/
def dumpedCalls : List (SetAction IntegralDouble) :=
  [.call (.sadd [.handle .set 0, .string (ascii "b"), .string (ascii "7")]),
   .call (.sadd [.handle .set 1, .string (ascii "7"), .string (ascii "b"), .string (ascii "c")]),
   .call (.srem [.handle .set 1, .string (ascii "c")])]

theorem set_dump_load_sample : ∃ s, run setActionStep newSets dumpedCalls = some s ∧
    rlDumpSet (s 0) = [2, 0, 0, 0, 1, 0, 0, 0, 55, 1, 0, 0, 0, 98] ∧
    rlDumpSet (s 0) = rlDumpSet (s 1) := by
  refine ⟨_, rfl, by decide +kernel, ?_⟩
  exact (set_dump_load (show run setActionStep newSets dumpedCalls = some _ from rfl)
    (show run setActionStep newSets dumpedCalls = some _ from rfl)).2.1 0 1
    (by decide +kernel)

/-! ## No payload is empty -/

/-- The payloads that taking elements out one at a time draws from. -/
def popDraws (draws : Nat → Nat) : Nat → Nat → SetObj → List SetObj
  | 0, _, _ => []
  | count + 1, i, o =>
      o :: match setTypeRandomElement o (draws i) with
        | none => []
        | some e => popDraws draws count (i + 1) (setTypeRemoveAux o e).2

/-- The payloads that a SPOP draws from: that of the handle, or what is left
of it while elements go, or while elements move to the payload that stays. -/
def spopDraws (draws : Nat → Nat) (count? : Option Nat) (o : SetObj) : List SetObj :=
  match count? with
  | none => [o]
  | some count =>
      let size := setTypeSize o
      if count = 0 ∨ count ≥ size then []
      else if (size - count) * spopMoveStrategyMul > count then popDraws draws count 0 o
      else popDraws draws (size - count) 0 o

/-- As long as no more are drawn than there are, each draw finds a member. -/
theorem popDraws_nonempty (draws : Nat → Nat) (count i : Nat) {o : SetObj} (h : o.Wf)
    (hcount : count ≤ o.members.length) : ∀ p ∈ popDraws draws count i o, p.members ≠ [] := by
  induction count generalizing i o with
  | zero => exact fun p hp => absurd hp List.not_mem_nil
  | succ count ih =>
      have hne : o.members ≠ [] := by
        intro hnil
        rw [hnil] at hcount
        exact absurd hcount (Nat.not_succ_le_zero count)
      obtain ⟨e, he⟩ := exists_setTypeRandomElement hne (draws i)
      obtain ⟨hrem, hfound⟩ := h.removed_of_mem (setTypeRandomElement_mem he)
      have hlen := (hrem.perm hfound).length_eq
      rw [List.length_cons] at hlen
      intro p hp
      rw [popDraws, he, List.mem_cons] at hp
      rcases hp with rfl | hp
      · exact hne
      · exact ih (i + 1) hrem.wf (by omega) p hp

theorem spopDraws_nonempty (draws : Nat → Nat) (count? : Option Nat) {o : SetObj} (h : o.Wf)
    (hne : o.members ≠ []) : ∀ p ∈ spopDraws draws count? o, p.members ≠ [] := by
  have hsize := setTypeSize_eq o
  cases count? with
  | none =>
      intro p hp
      rwa [List.mem_singleton.mp hp]
  | some count =>
      simp only [spopDraws]
      split_ifs with hnone hfew
      · exact fun p hp => absurd hp List.not_mem_nil
      · exact popDraws_nonempty draws count 0 h (by omega)
      · exact popDraws_nonempty draws (setTypeSize o - count) 0 h (by omega)

/-- **No payload is empty.**  In every state that any sequence of set commands
and loads reaches, a handle has no payload exactly if it has no member, and
every payload that a draw can meet, be it the payload of a handle or what a
SPOP has left of it on the way, has a member to draw. -/
theorem payloads_nonempty {calls : List (SetAction ν)} {s : Sets}
    (hrun : run setActionStep newSets calls = some s) (id : Nat) :
    (s id = none ↔ payloadSet (s id) = ∅) ∧
      ∀ o, s id = some o → o.members ≠ [] ∧
        ∀ draws count?, ∀ p ∈ o :: spopDraws draws count? o,
          p.members ≠ [] ∧ ∀ draw, (setTypeRandomElement p draw).isSome := by
  have hwf := allPayloadsWf_of_run hrun id
  constructor
  · cases hs : s id with
    | none => exact iff_of_true rfl rfl
    | some o => exact iff_of_false (Option.some_ne_none o) (payloadSet_ne_empty (hwf o hs).2)
  · intro o hs
    obtain ⟨howf, hne⟩ := hwf o hs
    refine ⟨hne, fun draws count? p hp => ?_⟩
    have hpne : p.members ≠ [] := by
      rcases List.mem_cons.mp hp with rfl | hp
      · exact hne
      · exact spopDraws_nonempty draws count? howf hne p hp
    exact ⟨hpne, fun draw => Option.isSome_iff_exists.mpr (exists_setTypeRandomElement hpne draw)⟩

/-- Calls that empty a payload by SREM, by SMOVE, by SPOP and by a failing
load. -/
def emptyingCalls : List (SetAction IntegralDouble) :=
  [.call (.sadd [.handle .set 0, .string (ascii "a"), .string (ascii "7")]),
   .call (.smove [.handle .set 0, .handle .set 1, .string (ascii "a")]),
   .call (.srem [.handle .set 0, .string (ascii "7")]),
   .call (.sadd [.handle .set 2, .string (ascii "b")]),
   .call (.spop (fun _ => 0) [.handle .set 2]),
   .load 1 [.string (ascii "bad")]]

theorem payloads_nonempty_sample : ∃ s, run setActionStep newSets emptyingCalls = some s ∧
    ∀ id ≤ 2, s id = none ∧ payloadSet (s id) = ∅ := by
  refine ⟨_, rfl, fun id hid => ?_⟩
  have hempty := (payloads_nonempty (show run setActionStep newSets emptyingCalls = some _ from rfl) id).1
  refine (fun hnone => ⟨hnone, hempty.mp hnone⟩) ?_
  obtain rfl | rfl | rfl : id = 0 ∨ id = 1 ∨ id = 2 := by omega
  · decide +kernel
  · decide +kernel
  · decide +kernel

end System

end SkynetJit.Redis
