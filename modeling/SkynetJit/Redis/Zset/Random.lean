import SkynetJit.Redis.Random
import SkynetJit.Redis.Zset.Slice

/-!
# SkynetJit.Redis.Zset.Random

ZRANDMEMBER (`lzrandmember`).  Which of its strategies runs depends on the sign
of the count, the encoding and the sizes; `yields_zrandmemberCount` says that
all of them reply with elements of the sorted set, so many and different ones as
the count asks for.

A reply is a list here; how many fields a table of the interpreter can have is
not modelled.
-/

namespace SkynetJit.Redis

open Raise Draw Scored

/-- The loop of `lpRandomPairs`: the listpack from `lpindex` on. -/
def fetchPairs : List Pick → Nat → Listpack → Rand (List (Nat × Entry × Entry))
  | [], _, _ => pure []
  | _ :: _, _, [] => pure []
  | _ :: _, _, [_] => fault .assertion
  | pick :: picks, lpindex, key :: value :: p => do
      let now := (pick :: picks).takeWhile fun pick => pick.index = lpindex
      let writes ← fetchPairs ((pick :: picks).dropWhile fun pick => pick.index = lpindex) (lpindex + 2) p
      return now.map (fun pick => (pick.order, key, value)) ++ writes
termination_by structural _ _ p => p

/-- `lpRandomPairs`; every caller's tuples are pairs. -/
def lpRandomPairs (lp : Listpack) (count : Nat) : Rand (List (Entry × Entry)) := do
  let total := lp.length / 2
  require .assertion (total ≠ 0)
  let rs ← times next count
  let picks := sortPicks (· % total * 2) rs
  let first ← expect .access picks.head?
  let writes ← fetchPairs picks first.index (lp.drop first.index)
  readCells writes count

/-- `lpRandomPair`. -/
def lpRandomPair (lp : Listpack) (total : Nat) : Rand (Entry × Entry) := do
  require .assertion (total ≠ 0)
  let r ← next
  let key ← expect .assertion lp[r % total * 2]?
  let value ← expect .assertion lp[r % total * 2 + 1]?
  return (key, value)

/-- The loop of `lpRandomPairsUnique`. -/
def uniquePairs (total : Nat) : Nat → Nat → Listpack → Rand (List (Entry × Entry))
  | 0, _, _ => pure []
  | _ + 1, _, [] => pure []
  | remaining + 1, index, p => do
      let (index, p) ← expect .assertion (← lpNextRandom total (remaining + 1) 2 index p)
      match p with
      | key :: value :: p => do
          let rest ← uniquePairs total remaining (index + 2) p
          return (key, value) :: rest
      | _ => fault .assertion

/-- `lpRandomPairsUnique`. -/
def lpRandomPairsUnique (lp : Listpack) (count : Nat) : Rand (List (Entry × Entry)) :=
  uniquePairs lp.length (min count (lp.length / 2)) 0 lp


/-! ## Pairs of a listpack -/

@[simp] theorem flat_cons (p : Entry × Entry) (zl : ZListpack) :
    ZListpack.flat (p :: zl) = p.1 :: p.2 :: ZListpack.flat zl := rfl

theorem flat_drop (zl : ZListpack) (k : Nat) : zl.flat.drop (k * 2) = ZListpack.flat (zl.drop k) := by
  induction k generalizing zl with
  | zero => rfl
  | succ k ih =>
      cases zl with
      | nil => simp [ZListpack.flat]
      | cons p zl => rw [flat_cons, Nat.succ_mul, List.drop_succ_cons, List.drop_succ_cons, List.drop_succ_cons, ih]

/-- The picks after those of one place are further on. -/
theorem lt_of_mem_dropWhile {picks : List Pick} {i : Nat} (hsorted : picks.Pairwise fun a b => a.index ≤ b.index)
    (hi : ∀ pick ∈ picks, i ≤ pick.index) {pick : Pick}
    (h : pick ∈ picks.dropWhile fun pick => pick.index = i) : i < pick.index := by
  have hsub := List.dropWhile_sublist (fun pick : Pick => decide (pick.index = i)) (l := picks)
  have hpairwise := hsorted.sublist hsub
  have hhead := List.head?_dropWhile_not (fun pick : Pick => decide (pick.index = i)) picks
  cases hdrop : picks.dropWhile fun pick => decide (pick.index = i) with
  | nil => rw [hdrop] at h; exact absurd h List.not_mem_nil
  | cons first rest =>
      rw [hdrop] at h hsub hpairwise hhead
      have hfirst : i < first.index :=
        lt_of_le_of_ne (hi first (hsub.mem List.mem_cons_self)) (Ne.symm (by simpa using hhead))
      rcases List.mem_cons.mp h with rfl | h
      · exact hfirst
      · exact hfirst.trans_le ((List.pairwise_cons.mp hpairwise).1 pick h)

theorem yields_fetchPairs {zl : ZListpack} {picks : List Pick} {k : Nat}
    (hsorted : picks.Pairwise fun a b => a.index ≤ b.index)
    (hplace : ∀ pick ∈ picks, ∃ m, pick.index = m * 2 ∧ k ≤ m ∧ m < k + zl.length) :
    Yields (fun writes => writes.map Prod.fst = picks.map Pick.order ∧ ∀ w ∈ writes, w.2 ∈ zl)
      (fetchPairs picks (k * 2) zl.flat) := by
  induction zl generalizing picks k with
  | nil =>
      cases picks with
      | nil => exact yields_pure ⟨rfl, by simp⟩
      | cons pick picks =>
          obtain ⟨m, -, hkm, hlt⟩ := hplace pick List.mem_cons_self
          rw [List.length_nil] at hlt
          omega
  | cons p zl ih =>
      cases hpicks : picks with
      | nil =>
          rw [fetchPairs]
          exact yields_pure ⟨rfl, by simp⟩
      | cons pick rest =>
          rw [← hpicks, flat_cons]
          have hunfold : fetchPairs picks (k * 2) (p.1 :: p.2 :: ZListpack.flat zl) = (do
              let writes ← fetchPairs (picks.dropWhile fun pick => pick.index = k * 2) ((k + 1) * 2)
                (ZListpack.flat zl)
              return (picks.takeWhile fun pick => pick.index = k * 2).map (fun pick => (pick.order, p)) ++ writes) := by
            rw [hpicks, fetchPairs, Nat.succ_mul]
          rw [hunfold]
          refine (ih (hsorted.sublist (List.dropWhile_sublist _)) fun pick' h' => ?_).bind fun writes hwrites =>
            yields_pure ⟨?_, fun w hw => ?_⟩
          · obtain ⟨m, hm, hkm, hlt⟩ := hplace pick' ((List.dropWhile_sublist _).mem h')
            have hlt' : k * 2 < pick'.index := lt_of_mem_dropWhile hsorted (fun pick'' h'' => by
              obtain ⟨m', hm', hkm', -⟩ := hplace pick'' h''
              omega) h'
            rw [List.length_cons] at hlt
            exact ⟨m, hm, by omega, by omega⟩
          · rw [List.map_append, hwrites.1, List.map_map]
            exact List.map_append.symm.trans (congrArg (List.map Pick.order) List.takeWhile_append_dropWhile)
          · rcases List.mem_append.mp hw with hw | hw
            · obtain ⟨pick', -, rfl⟩ := List.mem_map.mp hw
              exact List.mem_cons_self
            · exact List.mem_cons_of_mem _ (hwrites.2 w hw)

theorem yields_lpRandomPairs {zl : ZListpack} (hzl : zl ≠ []) {count : Nat} (hcount : 0 < count) :
    Yields (fun l => l.length = count ∧ ∀ p ∈ l, p ∈ zl) (lpRandomPairs zl.flat count) := by
  have hpos := List.length_pos_of_ne_nil hzl
  have htotal : zl.flat.length / 2 = zl.length := by rw [length_flat]; omega
  rw [lpRandomPairs, htotal]
  refine (yields_require (by omega)).bind fun _ _ => (yields_times yields_next count).bind fun rs hrs => ?_
  have hplace : ∀ pick ∈ sortPicks (· % zl.length * 2) rs, ∃ m, pick.index = m * 2 ∧ m < zl.length := by
    intro pick h
    obtain ⟨r, -, hr⟩ := exists_index_eq h
    exact ⟨r % zl.length, hr, Nat.mod_lt r hpos⟩
  obtain ⟨first, picks, hpicks⟩ : ∃ first picks, sortPicks (· % zl.length * 2) rs = first :: picks := by
    refine List.exists_cons_of_ne_nil fun hnil => ?_
    have horder := @exists_order_eq (· % zl.length * 2) rs 0 (by omega)
    rw [hnil] at horder
    exact absurd horder List.not_mem_nil
  have hsorted := @sortPicks_sorted (· % zl.length * 2) rs
  obtain ⟨k, hk, hlt⟩ := hplace first (by rw [hpicks]; exact List.mem_cons_self)
  refine (yields_expect (P := fun pick => pick = first) ⟨first, by rw [hpicks]; rfl, rfl⟩).bind ?_
  rintro _ rfl
  rw [hk, flat_drop]
  refine (yields_fetchPairs hsorted fun pick h => ?_).bind fun writes hwrites =>
    yields_readCells (fun i hi => ?_) fun w hw => List.mem_of_mem_drop (hwrites.2 w hw)
  · obtain ⟨m, hm, hlt'⟩ := hplace pick h
    rw [hpicks] at h hsorted
    rw [List.length_drop]
    refine ⟨m, hm, ?_, by omega⟩
    rcases List.mem_cons.mp h with rfl | h
    · omega
    · have hle := (List.pairwise_cons.mp hsorted).1 pick h
      omega
  · rw [hwrites.1]
    exact exists_order_eq (by rw [hrs.1]; exact hi)

theorem yields_lpRandomPair {zl : ZListpack} (hzl : zl ≠ []) :
    Yields (fun p => p ∈ zl) (lpRandomPair zl.flat zl.length) := by
  have hpos := List.length_pos_of_ne_nil hzl
  refine (yields_require (by omega)).bind fun _ _ => (yields_mod zl.length hpos).bind fun r hr => ?_
  have hdrop : zl.flat.drop (r % zl.length * 2) = (zl[r % zl.length]).1 :: (zl[r % zl.length]).2 ::
      ZListpack.flat (zl.drop (r % zl.length + 1)) := by
    rw [flat_drop, List.drop_eq_getElem_cons hr, flat_cons]
  have hkey : zl.flat[r % zl.length * 2]? = some (zl[r % zl.length]).1 := by
    rw [← List.head?_drop, hdrop, List.head?_cons]
  have hvalue : zl.flat[r % zl.length * 2 + 1]? = some (zl[r % zl.length]).2 := by
    rw [← List.head?_drop, ← List.drop_drop, hdrop, List.drop_succ_cons, List.drop_zero, List.head?_cons]
  refine (yields_expect (P := fun e => e = (zl[r % zl.length]).1) ⟨_, hkey, rfl⟩).bind fun key hkey' =>
    (yields_expect (P := fun e => e = (zl[r % zl.length]).2) ⟨_, hvalue, rfl⟩).bind fun value hvalue' => ?_
  rw [hkey', hvalue']
  exact yields_pure (List.getElem_mem hr)

theorem yields_uniquePairs {zl : ZListpack} {remaining k : Nat} (h : remaining ≤ zl.length - k) :
    Yields (fun l => l.length = remaining ∧ l.Sublist (zl.drop k))
      (uniquePairs zl.flat.length remaining (k * 2) (ZListpack.flat (zl.drop k))) := by
  induction remaining generalizing k with
  | zero => exact yields_pure ⟨rfl, List.nil_sublist _⟩
  | succ remaining ih =>
      have hk : k < zl.length := by omega
      rw [List.drop_eq_getElem_cons hk, flat_cons, uniquePairs, ← flat_cons, ← List.drop_eq_getElem_cons hk]
      · refine (yields_lpNextRandom (by rw [length_flat]; omega) (Nat.succ_pos _)
          (by rw [length_flat, length_flat, List.length_drop]; omega) (by rw [length_flat]; omega)).bind ?_
        rintro _ ⟨j, q, rfl, heven, hij, rfl, -, hleft⟩
        obtain ⟨m, rfl⟩ := Nat.dvd_of_mod_eq_zero heven
        have hm : m < zl.length := by rw [length_flat] at hleft; omega
        refine (yields_expect (P := fun r => r = (2 * m, _)) ⟨_, rfl, rfl⟩).bind ?_
        rintro _ rfl
        have hdrop : (ZListpack.flat (zl.drop k)).drop (2 * m - k * 2) = zl[m].1 :: zl[m].2 ::
            ZListpack.flat (zl.drop (m + 1)) := by
          rw [show 2 * m - k * 2 = (m - k) * 2 by omega, flat_drop, List.drop_drop, show k + (m - k) = m by omega,
            List.drop_eq_getElem_cons hm, flat_cons]
        rw [hdrop]
        have hrest := ih (k := m + 1) (by rw [length_flat] at hleft; omega)
        rw [show (m + 1) * 2 = 2 * m + 2 by omega] at hrest
        refine hrest.bind fun l hl => yields_pure ⟨by rw [List.length_cons, hl.1], ?_⟩
        have hsub : (zl.drop m).Sublist (zl.drop k) := by
          rw [show m = k + (m - k) by omega, ← List.drop_drop]
          exact List.drop_sublist _ _
        rw [List.drop_eq_getElem_cons hm] at hsub
        exact (hl.2.cons_cons zl[m]).trans hsub
      · exact fun hnil => absurd hnil (by simp)

theorem yields_lpRandomPairsUnique {zl : ZListpack} {count : Nat} (h : count ≤ zl.length) :
    Yields (fun l => l.length = count ∧ l.Sublist zl) (lpRandomPairsUnique zl.flat count) := by
  rw [lpRandomPairsUnique, show zl.flat.length / 2 = zl.length by rw [length_flat]; omega, min_eq_left h]
  exact yields_uniquePairs (k := 0) h

/-! ## The command -/

section Definitions

variable {ν : Type} [Score ν]

/-- `zsetTypeRandomElement`. -/
def zsetTypeRandomElement (zobj : ZsetObj ν) (zsetsize : Nat) : Rand (Scored ν) :=
  match zobj with
  | .skiplist zs => zs.item <$> dictGetFairRandomKey zs.dict
  | .listpack zl => zzlItem <$> lpRandomPair zl.flat zsetsize

/-- `RL_ZRAND_SUB_STRATEGY_MUL`. -/
def zrandSubStrategyMul : Nat := 3

/-- `RL_ZRAND_RANDOM_SAMPLE_LIMIT`. -/
def zrandRandomSampleLimit : Nat := 1000

/-- The cases of ZRANDMEMBER with a count. -/
def zrandmemberCount (zobj : ZsetObj ν) (l : Int) : Rand (List (Scored ν)) :=
  let size := zsetLength zobj
  let count := l.natAbs
  if count = 0 then pure []
  else if size = 0 then pure []
  else if l < 0 ∨ count = 1 then
    match zobj with
    | .skiplist zs => times (zs.item <$> dictGetFairRandomKey zs.dict) count
    | .listpack zl =>
        batches zrandRandomSampleLimit (fun n => List.map zzlItem <$> lpRandomPairs zl.flat n) (count + 1) count
  else
    let count := min count size
    if count ≥ size then pure zobj.items
    else match zobj with
    | .listpack zl => do
        let pairs ← lpRandomPairsUnique zl.flat count
        require .assertion (pairs.length = count)
        return pairs.map zzlItem
    | .skiplist zs =>
        if count * zrandSubStrategyMul % 2 ^ 64 > size then do
          let d ← dictAddAll ele zs.items []
          require .assertion (d.length = size)
          dropRandom ele dictGetFairRandomKey (size - count) d
        else unseen ele (zsetTypeRandomElement zobj size) count

/-- The checks of ZRANDMEMBER: a handle, and perhaps a count and WITHSCORES. -/
def zrandArgs (args : List (LuaValue ν)) : Except LuaError (Nat × Option (Int × Bool)) := do
  let id ← rlCheck args 1 .zset
  if args.length = 1 then return (id, none)
  else
    let l ← rlChecklong args 2
    if args.length = 3 then
      match luaArg args 3 with
      | some (.string opt) => if eqIgnoreCase opt "withscores" then return (id, some (l, true)) else .error syntaxErr
      | _ => .error syntaxErr
    else if args.length > 3 then .error syntaxErr
    else return (id, some (l, false))

/-- The range of a count with scores. -/
def ScoresInRange (l : Int) : Prop := (-longMax).tdiv 2 ≤ l ∧ l ≤ longMax.tdiv 2

instance (l : Int) : Decidable (ScoresInRange l) := inferInstanceAs (Decidable (_ ∧ _))

/-- `lzrandmember`; the numbers that `rand()` returns are an input. -/
def lzrandmember (rs : List Nat) (args : List (LuaValue ν)) :
    Command (Zsets ν) (Except (Stop Crash) (Reply ν × List Nat)) := do
  let (id, count?) ← check (zrandArgs args)
  let s ← get
  let zobj := s .zset id
  match count? with
  | none =>
      if zsetLength zobj = 0 then return .ok (.nilReply, rs)
      else return ((fun a => .text a.ele) <$> zsetTypeRandomElement zobj (zsetLength zobj)) rs
  | some (l, withscores) =>
      -- `-l` is computed before the range is looked at
      if l = longMin then return .error (.fault .overflow)
      else if withscores = true ∧ ¬ ScoresInRange l then throw (rlError (ascii "value is out of range"))
      else return (flatReply withscores <$> zrandmemberCount zobj l) rs

end Definitions

section Specifications

variable {ν : Type} [Score ν]

theorem yields_dict_item {zs : Zset ν} (hwf : (ZsetObj.skiplist zs).Wf) (hne : zs.items ≠ []) :
    Yields (fun a => a ∈ zs.items) (zs.item <$> dictGetFairRandomKey zs.dict) := by
  obtain ⟨L, hL⟩ := hwf
  rw [hL.items_eq] at hne ⊢
  have hdict : zs.dict ≠ [] := by
    rintro hnil
    have hperm := hL.dict
    rw [hnil, List.nil_perm] at hperm
    exact hne (by rw [hperm, List.map_nil])
  refine Yields.map ((yields_dictGetFairRandomKey hdict).mono fun id hid => ?_)
  exact List.mem_map_of_mem (hL.dict.mem_iff.mp hid)

theorem covers_dict_item {zs : Zset ν} (hwf : (ZsetObj.skiplist zs).Wf) :
    Covers zs.items (zs.item <$> dictGetFairRandomKey zs.dict) := by
  obtain ⟨L, hL⟩ := hwf
  intro a ha
  rw [hL.items_eq] at ha
  obtain ⟨id, hid, rfl⟩ := List.mem_map.mp ha
  obtain ⟨r, hr⟩ := covers_dictGetFairRandomKey zs.dict id (hL.dict.mem_iff.mpr hid)
  exact ⟨r, hr.map zs.item⟩

theorem yields_zsetTypeRandomElement {zobj : ZsetObj ν} (hwf : zobj.Wf) (hne : zobj.items ≠ []) :
    Yields (fun a => a ∈ zobj.items) (zsetTypeRandomElement zobj (zsetLength zobj)) := by
  cases zobj with
  | skiplist zs => exact yields_dict_item hwf hne
  | listpack zl =>
      have hzl : zl ≠ [] := fun h => hne (by rw [h]; rfl)
      rw [zsetLength, zzlLength_eq]
      exact Yields.map ((yields_lpRandomPair hzl).mono fun p hp => List.mem_map_of_mem hp)

/-- **Every strategy** replies with what the count asks for. -/
theorem yields_zrandmemberCount {zobj : ZsetObj ν} (hwf : zobj.Wf) (l : Int) :
    Yields (Sampled ele zobj.items l) (zrandmemberCount zobj l) := by
  have hlength := zsetLength_eq hwf
  have hnodup := hwf.sound.nodup
  unfold zrandmemberCount
  refine yields_ite (fun hzero => ?_) fun hzero => yields_ite (fun hempty => ?_) fun hempty => ?_
  · rw [Int.natAbs_eq_zero.mp hzero]
    exact yields_pure Sampled.zero
  · rw [hlength, List.length_eq_zero_iff] at hempty
    rw [hempty]
    exact yields_pure Sampled.nil
  have hne : zobj.items ≠ [] := fun h => hempty (by rw [hlength, h, List.length_nil])
  refine yields_ite (fun hrepeats => ?_) fun hdiffers => ?_
  · cases zobj with
    | skiplist zs => exact (yields_times (yields_dict_item hwf hne) _).mono fun _ => Sampled.repeats hrepeats hne
    | listpack zl =>
        have hzl : zl ≠ [] := fun h => hne (by rw [h]; rfl)
        refine (yields_batches (P := fun a => a ∈ zzlItems zl) (fun n hn _ => ?_) (by decide)
          (Nat.lt_succ_self _)).mono fun _ => Sampled.repeats hrepeats hne
        refine Yields.map ((yields_lpRandomPairs hzl hn).mono fun pairs hpairs => ⟨?_, fun a ha => ?_⟩)
        · rw [List.length_map, hpairs.1]
        · obtain ⟨p, hp, rfl⟩ := List.mem_map.mp ha
          exact List.mem_map_of_mem (hpairs.2 p hp)
  have hnonneg : 0 ≤ l := by omega
  refine yields_ite (fun hall => ?_) fun hsome => ?_
  · refine yields_pure (Sampled.of_sublist hnonneg hnodup ?_ (List.Sublist.refl _))
    rw [hlength] at hall
    omega
  have hcount : min l.natAbs (zsetLength zobj) = min l.natAbs zobj.items.length := by rw [hlength]
  cases zobj with
  | listpack zl =>
      rw [zsetLength, zzlLength_eq] at hcount hsome ⊢
      refine (yields_lpRandomPairsUnique (Nat.min_le_right _ _)).bind fun pairs hpairs =>
        (yields_require hpairs.1).bind fun _ _ => yields_pure ?_
      refine Sampled.of_sublist hnonneg hnodup ?_ (hpairs.2.map zzlItem)
      rw [List.length_map, hpairs.1, hcount]
  | skiplist zs =>
      have hitems : zs.items.length = zsetLength (.skiplist zs) := hlength.symm
      refine yields_ite (fun _ => ?_) fun _ => ?_
      · refine (yields_dictAddAll (l := zs.items) hnodup).bind fun d hd => ?_
        rw [List.nil_append] at hd
        subst hd
        refine (yields_require hitems).bind fun _ _ => ?_
        refine (yields_dropRandom (fun d hd => yields_dictGetFairRandomKey hd) ?_).mono fun picked hpicked => ?_
        · exact (Nat.sub_le _ _).trans hitems.ge
        · refine Sampled.of_sublist hnonneg hnodup ?_ hpicked.2
          rw [hpicked.1, hitems, Nat.sub_sub_self (Nat.min_le_right _ _), hcount]
      · have hcovers : Covers zs.items (zsetTypeRandomElement (.skiplist zs) (zsetLength (.skiplist zs))) :=
          covers_dict_item hwf
        refine (yields_unseen (yields_zsetTypeRandomElement hwf hne) hcovers hnodup
          ((Nat.min_le_right _ _).trans hitems.ge)).mono fun picked hpicked => ?_
        exact Sampled.differs hnonneg (hpicked.1.trans hcount) hpicked.2.1 hpicked.2.2

/-- What a call of ZRANDMEMBER promises: whatever is drawn, nothing goes wrong, the
sorted sets stay as they are, and the reply holds what the count asks for; and
some draws lead to a reply. -/
structure ZrandSamples (s : Zsets ν) (args : List (LuaValue ν)) (id : Nat) (l : Int) (withscores : Bool) : Prop where
  outcome : ∀ rs, ∃ r, exec (lzrandmember rs args) s = (.ok r, s) ∧
    Outcome (fun reply => ∃ picked, reply = flatReply withscores picked ∧
      Sampled ele (s .zset id).items l picked) r
  ends : ∃ rs reply rest, exec (lzrandmember rs args) s = (.ok (.ok (reply, rest)), s)

/-- A call that gets past its checks. -/
theorem exec_lzrandmember {s : Zsets ν} {rs : List Nat} {args : List (LuaValue ν)} {id : Nat} {l : Int}
    {withscores : Bool} (hargs : zrandArgs args = .ok (id, some (l, withscores)))
    (hrange : withscores = true → ScoresInRange l) :
    exec (lzrandmember rs args) s = (.ok (if l = longMin then .error (.fault .overflow)
      else (flatReply withscores <$> zrandmemberCount (s .zset id) l) rs), s) := by
  rw [lzrandmember, hargs, exec_check_ok_bind, exec_get_bind]
  dsimp only
  by_cases hmin : l = longMin
  · rw [if_pos hmin, if_pos hmin]
    rfl
  · rw [if_neg hmin, if_neg hmin, if_neg fun h => h.2 (hrange h.1)]
    rfl

/-- **ZRANDMEMBER with a count.**  Of the counts that the checks let through,
all are served as promised but the one that has no negation. -/
theorem zrandmember_samples_iff {s : Zsets ν} {args : List (LuaValue ν)} {id : Nat} {l : Int} {withscores : Bool}
    (hwf : (s .zset id).Wf) (hargs : zrandArgs args = .ok (id, some (l, withscores)))
    (hrange : withscores = true → ScoresInRange l) :
    ZrandSamples s args id l withscores ↔ l ≠ longMin := by
  constructor
  · intro h hmin
    obtain ⟨r, hr, houtcome⟩ := h.outcome []
    rw [exec_lzrandmember hargs hrange, if_pos hmin] at hr
    obtain rfl := Except.ok.inj (Prod.mk.inj hr).1
    exact houtcome
  · intro hmin
    have hyields := yields_zrandmemberCount hwf l
    constructor
    · intro rs
      refine ⟨_, exec_lzrandmember hargs hrange, ?_⟩
      rw [if_neg hmin]
      exact (Yields.map (hyields.mono fun picked h => ⟨picked, rfl, h⟩)).outcome rs
    · obtain ⟨rs, picked, hruns⟩ := hyields.ends
      refine ⟨rs ++ [], flatReply withscores picked, [], ?_⟩
      rw [exec_lzrandmember hargs hrange, if_neg hmin, hruns.map (flatReply withscores) []]

end Specifications

/-- The least integer there is, as a count. -/
def leastCount : List (LuaValue Double) := [.handle .zset 0, .string (ascii "-9223372036854775808")]

theorem zrandmember_overflows : ¬ ZrandSamples oneTwoThree leastCount 0 longMin false := by
  intro h
  obtain ⟨r, hr, houtcome⟩ := h.outcome []
  rw [exec_lzrandmember (show zrandArgs leastCount = .ok (0, some (longMin, false)) by rfl) nofun, if_pos rfl] at hr
  obtain rfl := Except.ok.inj (Prod.mk.inj hr).1
  exact houtcome

/-- Two members with their scores. -/
def twoMembers : List (LuaValue Double) :=
  [.handle .zset 0, .string (ascii "2"), .string (ascii "WITHSCORES")]

theorem zrandmember_samples_iff_sample : ZrandSamples oneTwoThree twoMembers 0 2 true :=
  have hwf : AllWf oneTwoThree := keeps_lzaddGeneric _ _ _ _ fun _ _ => wf_zsetTypeCreate 0 0
  (zrandmember_samples_iff (hwf .zset 0) rfl fun _ => by decide).mpr (by decide)

end SkynetJit.Redis
