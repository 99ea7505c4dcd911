import Mathlib.Logic.Function.Basic
import SkynetJit.Redis.Zset.Store

/-!
# SkynetJit.Redis.Zset.Sequential

ZADD and ZINCRBY as their pairs applied one by one to a map.

`ZaddFlags.effect` is the rule for one pair, from the score its member has;
`zaddReference` applies the rule along the pairs.  `zadd_sequential` says that
the command does this, in both encodings and across a conversion.  Scores are
compared as numbers: a listpack does not tell the zeros apart.
-/

namespace SkynetJit.Redis

open Raise Scored
open LuaNumber (isNaN)

variable {ν : Type} [Score ν]

/-! ## The rule -/

/-- Scores by member. -/
abbrev ScoreMap (ν : Type) := Bytes → Option ν

/-- Two maps with numerically equal scores. -/
def SameMap (m m' : ScoreMap ν) : Prop := ∀ e, Option.Rel (fun x y => Score.eq x y = true) (m e) (m' e)

/-- What a pair does: nothing, a score stored, or an error. -/
inductive Effect (ν : Type) where
  | nothing
  | store (y : ν)
  | refused

/-- **The rule**: NX only adds, XX only updates, GT and LT update to a greater
or a smaller score, and INCR adds to the score that is there. -/
def ZaddFlags.effect (flags : ZaddFlags) (current : Option ν) (x : ν) : Effect ν :=
  match current with
  | none => if flags.xx then .nothing else .store x
  | some c =>
      let y := if flags.incr then Score.add x c else x
      if flags.nx then .nothing
      else if isNaN y then .refused
      else if (flags.gt = true → Score.lt c y = true) ∧ (flags.lt = true → Score.lt y c = true) then .store y
      else .nothing

/-- The map so far, how many members are new, how many have another score, and
the score that the last pair left, if it was let through. -/
structure ZaddTally (ν : Type) where
  map : ScoreMap ν
  added : Nat := 0
  changed : Nat := 0
  result : Option ν := none

/-- One pair. -/
def ZaddTally.apply (flags : ZaddFlags) (t : ZaddTally ν) (a : Scored ν) : Option (ZaddTally ν) :=
  match flags.effect (t.map a.ele) a.score with
  | .refused => none
  | .nothing => some { t with result := none }
  | .store y => some {
      map := Function.update t.map a.ele (some y)
      added := if (t.map a.ele).isNone then t.added + 1 else t.added
      changed := if (t.map a.ele).any fun c => !Score.eq y c then t.changed + 1 else t.changed
      result := some y }

/-- The pairs, one by one; none if a sum is not a number. -/
def zaddReference (flags : ZaddFlags) (map : ScoreMap ν) (pairs : List (Scored ν)) : Option (ZaddTally ν) :=
  pairs.foldlM (ZaddTally.apply flags) { map }

/-- The reply: the new score with INCR, and a count without. -/
def ZaddTally.reply (o : ZaddOptions) (t : ZaddTally ν) : Reply ν :=
  if o.flags.incr then scoreReply t.result else .int (if o.ch then t.added + t.changed else t.added)

/-! ## One pair -/

/-- What `zsetAdd` replies for an effect. -/
def Effect.out (current : Option ν) : Effect ν → ZaddOut ν
  | .refused => { ok := false, nan := true }
  | .nothing => { nop := true }
  | .store y => { added := current.isNone, updated := current.any fun c => !Score.eq y c, newscore := some y }

/-- The map that an effect leaves. -/
def Effect.write (m : ScoreMap ν) (e : Bytes) : Effect ν → ScoreMap ν
  | .store y => Function.update m e (some y)
  | _ => m

section Lawful

variable [LawfulScore ν]

/-- The code and the rule decide alike. -/
theorem zaddOut_eq_effect (flags : ZaddFlags) {current : Option ν} {x : ν} (hx : isNaN x = false)
    (hcurrent : ∀ c, current = some c → isNaN c = false) :
    zaddOut flags current x = (flags.effect current x).out current := by
  cases current with
  | none => cases hxx : flags.xx <;> simp [zaddOut, ZaddFlags.effect, Effect.out, hx, hxx]
  | some c =>
      have hc := hcurrent c rfl
      simp only [zaddOut, hx, Bool.false_eq_true, if_false, zaddExisting, ZaddFlags.effect]
      have hincr : isNaN (if flags.incr then Score.add x c else x) = true → flags.incr = true := by
        cases flags.incr <;> simp [hx]
      generalize (if flags.incr then Score.add x c else x) = y at hincr ⊢
      cases hnx : flags.nx with
      | true => rfl
      | false =>
          cases hy : isNaN y with
          | true => simp [hincr hy, Effect.out]
          | false =>
              rw [le_eq_not_lt hc hy, le_eq_not_lt hy hc]
              cases hgt : flags.gt <;> cases hlt : flags.lt <;> cases Score.lt c y <;> cases Score.lt y c <;>
                simp [Effect.out]

omit [Score ν] [LawfulScore ν] in
theorem scoreOf_cons (a : Scored ν) (l : List (Scored ν)) :
    scoreOf (a :: l) = Function.update (scoreOf l) a.ele (some a.score) := by
  funext e
  by_cases he : e = a.ele
  · rw [he, scoreOf_cons_self, Function.update_self]
  · rw [scoreOf_cons_of_ne (Ne.symm he), Function.update_of_ne he]

/-- A pair that is added, and what the map is then. -/
theorem zsetAdd_effect {zobj : ZsetObj ν} (h : zobj.Wf) (rand : Draws) {a : Scored ν} (ha : a.IsNumber)
    (flags : ZaddFlags) :
    let effect := flags.effect (scoreOf zobj.items a.ele) a.score
    (zsetAdd rand zobj a flags).1 = effect.out (scoreOf zobj.items a.ele) ∧
      (zsetAdd rand zobj a flags).2.Wf ∧
      SameMap (scoreOf (zsetAdd rand zobj a flags).2.items) (effect.write (scoreOf zobj.items) a.ele) := by
  have hspec := zsetAdd_spec h rand ha flags
  have hcurrent : ∀ c, scoreOf zobj.items a.ele = some c → isNaN c = false := by
    intro c hc
    exact h.sound.number _ ((scoreOf_eq_some_iff h.sound.nodup).mp hc)
  have hout := hspec.out.trans (zaddOut_eq_effect flags ha hcurrent)
  refine ⟨hout, hspec.wf, ?_⟩
  have hwrites := hspec.writes
  have hkeeps := hspec.keeps
  rw [hout] at hwrites hkeeps
  cases heffect : flags.effect (scoreOf zobj.items a.ele) a.score with
  | nothing =>
      rw [heffect] at hkeeps
      rw [hkeeps rfl]
      exact h.sound.scoreOf_refl
  | refused =>
      rw [heffect] at hkeeps
      rw [hkeeps rfl]
      exact h.sound.scoreOf_refl
  | store y =>
      rw [heffect] at hwrites hkeeps
      cases hw : ((Effect.store y).out (scoreOf zobj.items a.ele)).writes with
      | true =>
          obtain ⟨x, hx, -, hsame⟩ := hwrites hw
          obtain rfl := Option.some.inj hx
          rw [SameScores, scoreOf_cons] at hsame
          exact hsame
      | false =>
          -- nothing is written when the score is numerically the one that is there
          rw [hkeeps hw]
          intro e
          by_cases he : e = a.ele
          · subst he
            rw [Effect.write, Function.update_self]
            cases hc : scoreOf zobj.items a.ele with
            | none => simp [Effect.out, ZaddOut.writes, hc] at hw
            | some c => exact .some (Score.eq_symm (by simpa [Effect.out, ZaddOut.writes, hc] using hw))
          · rw [Effect.write, Function.update_of_ne he]
            exact h.sound.scoreOf_refl e

/-! ## All pairs -/

/-- Scores that are numerically equal lead to the same effect, if nothing is
added to them. -/
theorem effect_eq (flags : ZaddFlags) {current current' : Option ν} {x : ν}
    (hcurrent : Option.Rel (fun x y => Score.eq x y = true) current current') (hx : isNaN x = false)
    (hincr : flags.incr = true → current = current') : flags.effect current x = flags.effect current' x := by
  cases hcurrent with
  | none => rfl
  | some hc =>
      cases hflag : flags.incr with
      | true => rw [hincr hflag]
      | false =>
          simp only [ZaddFlags.effect, hflag, Bool.false_eq_true, if_false, Score.lt_congr hc (Score.eq_refl hx),
            Score.lt_congr (Score.eq_refl hx) hc]

omit [LawfulScore ν] in
/-- What is stored is a number. -/
theorem number_of_effect {flags : ZaddFlags} {current : Option ν} {x y : ν} (hx : isNaN x = false)
    (h : flags.effect current x = .store y) : isNaN y = false := by
  cases current with
  | none =>
      simp only [ZaddFlags.effect] at h
      split_ifs at h
      rwa [← Effect.store.inj h]
  | some c =>
      simp only [ZaddFlags.effect] at h
      generalize (if flags.incr = true then Score.add x c else x) = z at h
      split_ifs at h with hnx hnan hcmp
      rw [← Effect.store.inj h]
      exact Bool.not_eq_true _ ▸ hnan

omit [LawfulScore ν] in
/-- Only a sum is refused. -/
theorem effect_ne_refused {flags : ZaddFlags} (hincr : flags.incr = false) (current : Option ν) {x : ν}
    (hx : isNaN x = false) : flags.effect current x ≠ .refused := by
  cases current <;> simp [ZaddFlags.effect, hincr, hx] <;> split_ifs <;> simp

theorem Score.eq_congr_right {x y y' : ν} (h : Score.eq y y' = true) : Score.eq x y = Score.eq x y' :=
  Bool.eq_iff_iff.mpr ⟨fun hx => Score.eq_trans hx h, fun hx => Score.eq_trans hx (Score.eq_symm h)⟩

theorem Score.eq_congr_left {x x' y : ν} (h : Score.eq x x' = true) : Score.eq x y = Score.eq x' y :=
  Bool.eq_iff_iff.mpr ⟨fun hy => Score.eq_trans (Score.eq_symm h) hy, fun hy => Score.eq_trans h hy⟩

/-- The tally of a run of the rule, against the totals of the code and the
object it works on. -/
structure Tallies (t : ZaddTally ν) (totals : ZaddTotals ν) (zobj : ZsetObj ν) : Prop where
  wf : zobj.Wf
  map : SameMap (scoreOf zobj.items) t.map
  added : totals.added = t.added
  updated : totals.updated = t.changed
  score : totals.score = t.result
  processed : t.result ≠ none → totals.processed ≠ 0

omit [LawfulScore ν] in
theorem SameMap.update {m m' : ScoreMap ν} (h : SameMap m m') (e : Bytes) {y y' : ν}
    (hy : Score.eq y y' = true) : SameMap (Function.update m e (some y)) (Function.update m' e (some y')) := by
  intro e'
  by_cases he : e' = e
  · rw [he, Function.update_self, Function.update_self]
    exact .some hy
  · rw [Function.update_of_ne he, Function.update_of_ne he]
    exact h e'

theorem SameMap.trans {m m' m'' : ScoreMap ν} (h : SameMap m m') (h' : SameMap m' m'') : SameMap m m'' := by
  intro e
  have hx := h e
  have hy := h' e
  generalize m e = x, m' e = y, m'' e = z at hx hy
  cases hx with
  | none => exact hy
  | some hxy =>
      cases hy with
      | some hyz => exact .some (Score.eq_trans hxy hyz)

omit [LawfulScore ν] in
theorem SameMap.symm {m m' : ScoreMap ν} (h : SameMap m m') : SameMap m' m := by
  intro e
  have hx := h e
  generalize m e = x, m' e = y at hx
  cases hx with
  | none => exact .none
  | some hxy => exact .some (Score.eq_symm hxy)

theorem SameMap.write {m m' : ScoreMap ν} (h : SameMap m m') (e : Bytes) {effect : Effect ν}
    (hnumber : ∀ y, effect = .store y → isNaN y = false) : SameMap (effect.write m e) (effect.write m' e) := by
  cases effect with
  | nothing => exact h
  | refused => exact h
  | store y => exact h.update e (Score.eq_refl (hnumber y rfl))

/-- What the code replies to a pair, by the rule's map. -/
theorem zsetAdd_out {t : ZaddTally ν} {totals : ZaddTotals ν} {zobj : ZsetObj ν} (h : Tallies t totals zobj)
    (rand : Draws) {a : Scored ν} (ha : a.IsNumber) {flags : ZaddFlags}
    (hincr : flags.incr = true → scoreOf zobj.items a.ele = t.map a.ele) :
    (zsetAdd rand zobj a flags).1 = (flags.effect (t.map a.ele) a.score).out (t.map a.ele) ∧
      SameMap (scoreOf (zsetAdd rand zobj a flags).2.items)
        ((flags.effect (t.map a.ele) a.score).write t.map a.ele) := by
  obtain ⟨hout, -, hmap⟩ := zsetAdd_effect h.wf rand ha flags
  have hcurrent := h.map a.ele
  rw [effect_eq flags hcurrent ha hincr] at hout hmap
  refine ⟨hout.trans ?_, hmap.trans (h.map.write a.ele fun y hy => number_of_effect ha hy)⟩
  generalize scoreOf zobj.items a.ele = current, t.map a.ele = current' at hcurrent
  cases hcurrent with
  | none => rfl
  | some hc => cases flags.effect _ a.score <;> simp [Effect.out, Score.eq_congr_right hc]

/-- A pair that the rule refuses is refused. -/
theorem zsetAdd_refused {t : ZaddTally ν} {totals : ZaddTotals ν} {zobj : ZsetObj ν} (h : Tallies t totals zobj)
    (rand : Draws) {a : Scored ν} (ha : a.IsNumber) {flags : ZaddFlags}
    (hincr : flags.incr = true → scoreOf zobj.items a.ele = t.map a.ele) (hnone : t.apply flags a = none) :
    (zsetAdd rand zobj a flags).1.ok = false ∧ SameMap (scoreOf (zsetAdd rand zobj a flags).2.items) t.map := by
  obtain ⟨hout, hmap⟩ := zsetAdd_out h rand ha hincr
  rw [ZaddTally.apply] at hnone
  cases heffect : flags.effect (t.map a.ele) a.score with
  | refused =>
      rw [heffect] at hout hmap
      exact ⟨congrArg ZaddOut.ok hout, hmap⟩
  | nothing => simp [heffect] at hnone
  | store y => simp [heffect] at hnone

/-- **One pair** keeps the tallies. -/
theorem Tallies.step {t t' : ZaddTally ν} {totals : ZaddTotals ν} {zobj : ZsetObj ν} (h : Tallies t totals zobj)
    (rand : Draws) {a : Scored ν} (ha : a.IsNumber) {flags : ZaddFlags}
    (hincr : flags.incr = true → scoreOf zobj.items a.ele = t.map a.ele) (happly : t.apply flags a = some t') :
    (zsetAdd rand zobj a flags).1.ok = true ∧
      Tallies t' (totals.count (zsetAdd rand zobj a flags).1) (zsetAdd rand zobj a flags).2 := by
  obtain ⟨hout, hmap⟩ := zsetAdd_out h rand ha hincr
  have hwf := (zsetAdd_spec h.wf rand ha flags).wf
  rw [ZaddTally.apply] at happly
  cases heffect : flags.effect (t.map a.ele) a.score with
  | refused => simp [heffect] at happly
  | nothing =>
      rw [heffect] at hout hmap
      simp only [heffect, Option.some.injEq] at happly
      subst happly
      rw [hout]
      exact ⟨rfl, hwf, hmap, h.added, h.updated, rfl, nofun⟩
  | store y =>
      rw [heffect] at hout hmap
      simp only [heffect, Option.some.injEq] at happly
      subst happly
      rw [hout]
      refine ⟨rfl, hwf, hmap, ?_, ?_, rfl, fun _ => Nat.succ_ne_zero _⟩
      · simp [ZaddTotals.count, Effect.out, h.added]
      · simp [ZaddTotals.count, Effect.out, h.updated]

/-- **All pairs**, nothing added to a score. -/
theorem Tallies.run {flags : ZaddFlags} (hincr : flags.incr = false) (rand : Draws) {pairs : List (Scored ν)}
    (hnumber : ∀ a ∈ pairs, a.IsNumber) {t : ZaddTally ν} {totals : ZaddTotals ν} {zobj : ZsetObj ν}
    (h : Tallies t totals zobj) : ∃ t' totals', pairs.foldlM (ZaddTally.apply flags) t = some t' ∧
      (zaddElements rand flags pairs totals zobj).1 = .ok totals' ∧
      Tallies t' totals' (zaddElements rand flags pairs totals zobj).2 := by
  induction pairs generalizing t totals zobj with
  | nil => exact ⟨t, totals, rfl, rfl, h⟩
  | cons a pairs ih =>
      have ha := hnumber a List.mem_cons_self
      have hno : flags.incr = true → scoreOf zobj.items a.ele = t.map a.ele := by simp [hincr]
      cases happly : t.apply flags a with
      | none =>
          have hne := effect_ne_refused hincr (t.map a.ele) ha
          rw [ZaddTally.apply] at happly
          cases heffect : flags.effect (t.map a.ele) a.score <;> simp_all
      | some t' =>
          obtain ⟨hok, hstep⟩ := h.step rand ha hno happly
          obtain ⟨t'', totals'', hfold, hrun, htallies⟩ := ih (fun b hb => hnumber b (List.mem_cons_of_mem a hb)) hstep
          refine ⟨t'', totals'', ?_, ?_, ?_⟩
          · rw [List.foldlM_cons, happly]
            exact hfold
          · rw [zaddElements, if_pos hok]
            exact hrun
          · rw [zaddElements, if_pos hok]
            exact htallies

/-! ## The command -/

omit [LawfulScore ν] in
theorem zaddPairs_spec {args : List (LuaValue ν)} {pairs : List (Scored ν)} (h : zaddPairs args = .ok pairs) :
    (∀ a ∈ pairs, a.IsNumber) ∧ pairs.length = args.length / 2 := by
  fun_induction zaddPairs args generalizing pairs with
  | case1 => contradiction
  | case2 v member rest x hscore ih =>
      obtain ⟨ele, -, h⟩ := except_bind_eq_ok.mp h
      obtain ⟨pairs', hpairs, h⟩ := except_bind_eq_ok.mp h
      obtain rfl := Except.ok.inj h
      obtain ⟨hnumber, hlen⟩ := ih hpairs
      refine ⟨fun a ha => ?_, ?_⟩
      · rcases List.mem_cons.mp ha with rfl | ha
        · exact number_rlTodouble hscore
        · exact hnumber a ha
      · simp only [List.length_cons, hlen]
        omega
  | case3 args hargs =>
      obtain rfl := Except.ok.inj h
      refine ⟨nofun, ?_⟩
      cases args with
      | nil => simp
      | cons v args =>
          cases args with
          | nil => simp
          | cons w rest => exact (hargs v w rest rfl).elim

omit [LawfulScore ν] in
/-- Arguments that are accepted: numbers, and with INCR one pair. -/
theorem zaddArgs_spec {flags : ZaddFlags} {args : List (LuaValue ν)} {id : Nat} {o : ZaddOptions}
    {pairs : List (Scored ν)} (h : zaddArgs flags args = .ok (id, o, pairs)) :
    (∀ a ∈ pairs, a.IsNumber) ∧ (o.flags.incr = true → pairs.length = 1) := by
  rw [zaddArgs] at h
  obtain ⟨id', -, h⟩ := except_bind_eq_ok.mp h
  generalize zaddOptions { flags } (args.drop 1) = r at h
  obtain ⟨o', rest⟩ := r
  simp only at h
  split_ifs at h with hrest hnx hgt hincr
  obtain ⟨pairs', hpairs, hok⟩ := except_bind_eq_ok.mp h
  obtain ⟨-, heq⟩ := Prod.mk.inj (Except.ok.inj hok)
  obtain ⟨rfl, rfl⟩ := Prod.mk.inj heq
  obtain ⟨hnumber, hlen⟩ := zaddPairs_spec hpairs
  refine ⟨hnumber, fun hi => ?_⟩
  rw [not_and, Nat.not_lt] at hincr
  have hle := hincr hi
  rw [not_or] at hrest
  omega

omit [LawfulScore ν] in
/-- The counts and the score that the code has make the reply of the rule. -/
theorem Tallies.reply {t : ZaddTally ν} {totals : ZaddTotals ν} {zobj : ZsetObj ν} (h : Tallies t totals zobj)
    (o : ZaddOptions) : zaddReply o totals = t.reply o := by
  rw [zaddReply, ZaddTally.reply, h.added, h.updated, h.score, scoreReply]
  cases hresult : t.result with
  | none => simp
  | some y => simp [h.processed (by simp [hresult])]

/-- The run of the command on the object, with INCR or without. -/
theorem zaddElements_sequential {o : ZaddOptions} (rand : Draws) {pairs : List (Scored ν)}
    (hnumber : ∀ a ∈ pairs, a.IsNumber) (hincr : o.flags.incr = true → pairs.length = 1) {zobj : ZsetObj ν}
    (hwf : zobj.Wf) :
    (∀ t, zaddReference o.flags (scoreOf zobj.items) pairs = some t → ∃ totals,
      (zaddElements rand o.flags pairs {} zobj).1 = .ok totals ∧
        Tallies t totals (zaddElements rand o.flags pairs {} zobj).2) ∧
    (zaddReference o.flags (scoreOf zobj.items) pairs = none →
      (zaddElements rand o.flags pairs {} zobj).1 = .error nanErr ∧
        SameMap (scoreOf (zaddElements rand o.flags pairs {} zobj).2.items) (scoreOf zobj.items)) := by
  have hstart : Tallies { map := scoreOf zobj.items } {} zobj :=
    ⟨hwf, hwf.sound.scoreOf_refl, rfl, rfl, rfl, fun h => absurd rfl h⟩
  cases hflag : o.flags.incr with
  | false =>
      obtain ⟨t', totals', hfold, hrun, htallies⟩ := Tallies.run hflag rand hnumber hstart
      rw [zaddReference, hfold]
      refine ⟨fun t ht => ?_, nofun⟩
      obtain rfl := Option.some.inj ht
      exact ⟨totals', hrun, htallies⟩
  | true =>
      obtain ⟨a, rfl⟩ := List.length_eq_one_iff.mp (hincr hflag)
      have ha := hnumber a List.mem_cons_self
      have hsingle : zaddReference o.flags (scoreOf zobj.items) [a] =
          ZaddTally.apply o.flags { map := scoreOf zobj.items } a := by simp [zaddReference]
      rw [hsingle, zaddElements]
      refine ⟨fun t ht => ?_, fun hnone => ?_⟩
      · obtain ⟨hok, hstep⟩ := hstart.step rand ha (fun _ => rfl) ht
        rw [if_pos hok]
        exact ⟨_, rfl, hstep⟩
      · obtain ⟨hok, hmap⟩ := zsetAdd_refused hstart rand ha (fun _ => rfl) hnone
        rw [if_neg (by simp [hok])]
        exact ⟨rfl, hmap⟩

/-! ## Encodings -/

/-- Sums with numerically equal scores are numerically equal. -/
def AddRespectsEq (ν : Type) [Score ν] : Prop :=
  ∀ x c c' : ν, Score.eq c c' = true → isNaN (Score.add x c) = isNaN (Score.add x c') ∧
    (isNaN (Score.add x c) = false → Score.eq (Score.add x c) (Score.add x c') = true)

/-- Two effects that differ by numerically equal scores. -/
inductive SameEffect : Effect ν → Effect ν → Prop where
  | nothing : SameEffect .nothing .nothing
  | refused : SameEffect .refused .refused
  | store {y y' : ν} (h : Score.eq y y' = true) : SameEffect (.store y) (.store y')

theorem effect_congr {flags : ZaddFlags} (hadd : flags.incr = true → AddRespectsEq ν) {current current' : Option ν}
    (hcurrent : Option.Rel (fun x y => Score.eq x y = true) current current') {x : ν} (hx : isNaN x = false) :
    SameEffect (flags.effect current x) (flags.effect current' x) := by
  cases hcurrent with
  | none =>
      simp only [ZaddFlags.effect]
      split_ifs
      · exact .nothing
      · exact .store (Score.eq_refl hx)
  | @some c c' hc =>
      have hsum : isNaN (if flags.incr then Score.add x c else x) = isNaN (if flags.incr then Score.add x c' else x) ∧
          (isNaN (if flags.incr then Score.add x c else x) = false →
            Score.eq (if flags.incr then Score.add x c else x) (if flags.incr then Score.add x c' else x) = true) := by
        cases hincr : flags.incr with
        | false => exact ⟨rfl, fun _ => Score.eq_refl hx⟩
        | true => exact hadd hincr x c c' hc
      simp only [ZaddFlags.effect]
      generalize (if flags.incr = true then Score.add x c else x) = y at hsum
      generalize (if flags.incr = true then Score.add x c' else x) = y' at hsum
      obtain ⟨hnan, heq⟩ := hsum
      rw [← hnan]
      cases hy : isNaN y with
      | true =>
          simp only [if_true]
          split_ifs
          · exact .nothing
          · exact .refused
      | false =>
          simp only [Bool.false_eq_true, if_false, Score.lt_congr hc (heq hy), Score.lt_congr (heq hy) hc]
          split_ifs
          · exact .nothing
          · exact .store (heq hy)
          · exact .nothing

/-- Two tallies that differ by numerically equal scores. -/
structure SameTally (t t' : ZaddTally ν) : Prop where
  map : SameMap t.map t'.map
  added : t.added = t'.added
  changed : t.changed = t'.changed
  result : Option.Rel (fun x y => Score.eq x y = true) t.result t'.result

theorem SameTally.apply {flags : ZaddFlags} (hadd : flags.incr = true → AddRespectsEq ν) {t t' : ZaddTally ν}
    (h : SameTally t t') {a : Scored ν} (ha : a.IsNumber) :
    Option.Rel SameTally (t.apply flags a) (t'.apply flags a) := by
  have hcurrent := h.map a.ele
  have heffect := effect_congr hadd hcurrent ha
  rw [ZaddTally.apply, ZaddTally.apply]
  have hnone : (t.map a.ele).isNone = (t'.map a.ele).isNone := by
    generalize t.map a.ele = c, t'.map a.ele = c' at hcurrent
    cases hcurrent <;> rfl
  have hany : ∀ y y' : ν, Score.eq y y' = true → ((t.map a.ele).any fun c => !Score.eq y c) =
      (t'.map a.ele).any fun c => !Score.eq y' c := by
    intro y y' hy
    generalize t.map a.ele = c, t'.map a.ele = c' at hcurrent
    cases hcurrent with
    | none => rfl
    | some hc => simp [Score.eq_congr_right hc, Score.eq_congr_left hy]
  generalize flags.effect (t.map a.ele) a.score = effect, flags.effect (t'.map a.ele) a.score = effect' at heffect
  cases heffect with
  | nothing => exact .some ⟨h.map, h.added, h.changed, .none⟩
  | refused => exact .none
  | store hy =>
      refine .some ⟨h.map.update a.ele hy, ?_, ?_, .some hy⟩
      · simp only [hnone, h.added]
      · simp only [hany _ _ hy, h.changed]

theorem SameTally.run {flags : ZaddFlags} (hadd : flags.incr = true → AddRespectsEq ν) {pairs : List (Scored ν)}
    (hnumber : ∀ a ∈ pairs, a.IsNumber) {t t' : ZaddTally ν} (h : SameTally t t') :
    Option.Rel SameTally (pairs.foldlM (ZaddTally.apply flags) t) (pairs.foldlM (ZaddTally.apply flags) t') := by
  induction pairs generalizing t t' with
  | nil => exact .some h
  | cons a pairs ih =>
      have hstep := h.apply hadd (hnumber a List.mem_cons_self)
      rw [List.foldlM_cons, List.foldlM_cons]
      generalize t.apply flags a = r, t'.apply flags a = r' at hstep
      cases hstep with
      | none => exact .none
      | some hsame => exact ih (fun b hb => hnumber b (List.mem_cons_of_mem a hb)) hsame

/-- Replies that are the same, scores compared as numbers. -/
def SameReply (r r' : Except LuaError (Reply ν)) : Prop :=
  r = r' ∨ ∃ x y, r = .ok (.double x) ∧ r' = .ok (.double y) ∧ Score.eq x y = true

omit [LawfulScore ν] in
theorem SameTally.reply {t t' : ZaddTally ν} (h : SameTally t t') (o : ZaddOptions) :
    SameReply (.ok (t.reply o)) (.ok (t'.reply o)) := by
  have hresult := h.result
  rw [ZaddTally.reply, ZaddTally.reply, h.added, h.changed]
  generalize t.result = r, t'.result = r' at hresult
  split_ifs
  · cases hresult with
    | none => exact .inl rfl
    | some hy => exact .inr ⟨_, _, rfl, rfl, hy⟩
  all_goals exact .inl rfl

/-- The command, on the object that may have been converted ahead of it. -/
theorem exec_lzaddGeneric (rand : Draws) {flags : ZaddFlags} {args : List (LuaValue ν)} {id : Nat}
    {o : ZaddOptions} {pairs : List (Scored ν)} (hargs : zaddArgs flags args = .ok (id, o, pairs)) {s : Zsets ν}
    (hwf : (s .zset id).Wf) :
    ∃ zobj : ZsetObj ν, zobj.Wf ∧ zobj.items = (s .zset id).items ∧
      exec (lzaddGeneric rand flags args) s =
        ((zaddElements rand o.flags pairs {} zobj).1.map (zaddReply o),
          s.put .zset id (zaddElements rand o.flags pairs {} zobj).2) := by
  obtain ⟨hwf', hitems⟩ := wf_zsetTypeMaybeConvert hwf rand pairs.length
  refine ⟨_, hwf', hitems, ?_⟩
  rw [lzaddGeneric, exec_onZset, hargs]

/-- The command does what the rule says. -/
structure FollowsRule (rand : Draws) (flags : ZaddFlags) (args : List (LuaValue ν)) (s : Zsets ν) (id : Nat)
    (o : ZaddOptions) (pairs : List (Scored ν)) : Prop where
  done : ∀ t, zaddReference o.flags (scoreOf (s .zset id).items) pairs = some t →
    (exec (lzaddGeneric rand flags args) s).1 = .ok (t.reply o) ∧
      SameMap (scoreOf ((exec (lzaddGeneric rand flags args) s).2 .zset id).items) t.map
  refused : zaddReference o.flags (scoreOf (s .zset id).items) pairs = none →
    (exec (lzaddGeneric rand flags args) s).1 = .error nanErr ∧
      SameScores ((exec (lzaddGeneric rand flags args) s).2 .zset id).items (s .zset id).items
  wf : ((exec (lzaddGeneric rand flags args) s).2 .zset id).Wf
  others : ∀ kind i, (kind, i) ≠ (.zset, id) → (exec (lzaddGeneric rand flags args) s).2 kind i = s kind i

theorem followsRule {s : Zsets ν} {id : Nat} (hwf : (s .zset id).Wf) (rand : Draws) {flags : ZaddFlags}
    {args : List (LuaValue ν)} {o : ZaddOptions} {pairs : List (Scored ν)}
    (hargs : zaddArgs flags args = .ok (id, o, pairs)) : FollowsRule rand flags args s id o pairs := by
  obtain ⟨hnumber, hincr⟩ := zaddArgs_spec hargs
  obtain ⟨zobj, hzobj, hitems, hexec⟩ := exec_lzaddGeneric rand hargs hwf
  obtain ⟨hdone, hrefused⟩ := zaddElements_sequential rand hnumber hincr hzobj
  rw [hitems] at hdone hrefused
  constructor
  case done =>
    intro t ht
    obtain ⟨totals, hrun, htallies⟩ := hdone t ht
    simp only [hexec, hrun, Zsets.put_self]
    exact ⟨congrArg Except.ok (htallies.reply o), htallies.map⟩
  case refused =>
    intro hnone
    obtain ⟨hrun, hmap⟩ := hrefused hnone
    simp only [hexec, hrun, Zsets.put_self]
    exact ⟨rfl, hmap⟩
  case wf =>
    simp only [hexec, Zsets.put_self]
    exact wf_zaddElements rand o.flags pairs {} hzobj
  case others =>
    intro kind i hne
    rw [hexec]
    exact s.put_of_ne _ hne

/-- **ZADD and ZINCRBY** apply their pairs one by one: the reply is the one of
the rule and the map is the rule's, and neither depends on the encoding, on the
conversions or on the draws. -/
theorem zadd_sequential {s : Zsets ν} {id : Nat} (hwf : (s .zset id).Wf) (rand : Draws) {flags : ZaddFlags}
    {args : List (LuaValue ν)} {o : ZaddOptions} {pairs : List (Scored ν)}
    (hargs : zaddArgs flags args = .ok (id, o, pairs)) :
    FollowsRule rand flags args s id o pairs ∧
      ∀ (rand' : Draws) (s' : Zsets ν), (s' .zset id).Wf →
        SameScores (s .zset id).items (s' .zset id).items →
        (o.flags.incr = true →
          scoreOf (s .zset id).items = scoreOf (s' .zset id).items ∨ AddRespectsEq ν) →
        SameReply (exec (lzaddGeneric rand flags args) s).1 (exec (lzaddGeneric rand' flags args) s').1 ∧
          SameScores ((exec (lzaddGeneric rand flags args) s).2 .zset id).items
            ((exec (lzaddGeneric rand' flags args) s').2 .zset id).items := by
  have hrule := followsRule hwf rand hargs
  refine ⟨hrule, fun rand' s' hwf' hsame hadd => ?_⟩
  have hrule' := followsRule hwf' rand' hargs
  have hcase : scoreOf (s .zset id).items = scoreOf (s' .zset id).items ∨
      (o.flags.incr = true → AddRespectsEq ν) := by
    cases hincr : o.flags.incr with
    | false => exact .inr nofun
    | true => exact (hadd hincr).imp_right fun h _ => h
  rcases hcase with heq | hadd
  · cases href : zaddReference o.flags (scoreOf (s .zset id).items) pairs with
    | none =>
        obtain ⟨hreply, hmap⟩ := hrule.refused href
        obtain ⟨hreply', hmap'⟩ := hrule'.refused (heq ▸ href)
        exact ⟨.inl (hreply.trans hreply'.symm), (hmap.trans hsame).trans hmap'.symm⟩
    | some t =>
        obtain ⟨hreply, hmap⟩ := hrule.done t href
        obtain ⟨hreply', hmap'⟩ := hrule'.done t (heq ▸ href)
        exact ⟨.inl (hreply.trans hreply'.symm), hmap.trans hmap'.symm⟩
  · have hstart : SameTally ({ map := scoreOf (s .zset id).items } : ZaddTally ν)
        { map := scoreOf (s' .zset id).items } := ⟨hsame, rfl, rfl, .none⟩
    have href := hstart.run hadd (zaddArgs_spec hargs).1
    rw [← zaddReference, ← zaddReference] at href
    cases hleft : zaddReference o.flags (scoreOf (s .zset id).items) pairs with
    | none =>
        cases hright : zaddReference o.flags (scoreOf (s' .zset id).items) pairs with
        | none =>
            obtain ⟨hreply, hmap⟩ := hrule.refused hleft
            obtain ⟨hreply', hmap'⟩ := hrule'.refused hright
            exact ⟨.inl (hreply.trans hreply'.symm), (hmap.trans hsame).trans hmap'.symm⟩
        | some t' =>
            rw [hleft, hright] at href
            exact absurd href nofun
    | some t =>
        cases hright : zaddReference o.flags (scoreOf (s' .zset id).items) pairs with
        | none =>
            rw [hleft, hright] at href
            exact absurd href nofun
        | some t' =>
            rw [hleft, hright] at href
            cases href with
            | some htally =>
                obtain ⟨hreply, hmap⟩ := hrule.done t hleft
                obtain ⟨hreply', hmap'⟩ := hrule'.done t' hright
                rw [hreply, hreply']
                exact ⟨htally.reply o, (hmap.trans htally.map).trans hmap'.symm⟩

end Lawful

/-- Three more pairs for one member, the first of them new. -/
def repeated : List (LuaValue Double) :=
  [.handle .zset 0, .string (ascii "gt"), .string (ascii "ch"), .number ⟨0x3ff0000000000000⟩, .string (ascii "d"),
    .number ⟨0x4008000000000000⟩, .string (ascii "d"), .number ⟨0x4000000000000000⟩, .string (ascii "d")]

theorem zadd_sequential_sample : (exec (lzadd (fun _ => 0) repeated) oneTwoThree).1 = .ok (.int 2) := by
  have hwf : AllWf oneTwoThree := keeps_lzaddGeneric _ _ _ _ fun _ _ => wf_zsetTypeCreate 0 0
  have hargs : zaddArgs {} repeated = .ok (0, { flags := { gt := true }, ch := true },
    [⟨ascii "d", ⟨0x3ff0000000000000⟩⟩, ⟨ascii "d", ⟨0x4008000000000000⟩⟩,
      ⟨ascii "d", ⟨0x4000000000000000⟩⟩]) := rfl
  obtain ⟨hrule, -⟩ := zadd_sequential (hwf .zset 0) (fun _ => 0) hargs
  obtain ⟨hreply, -⟩ := hrule.done _ rfl
  exact hreply

end SkynetJit.Redis
