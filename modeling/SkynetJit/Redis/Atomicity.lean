import SkynetJit.Redis.Bitmap.Setbit
import SkynetJit.Redis.Geo.Command
import SkynetJit.Redis.Hll.Cache
import SkynetJit.Redis.Hll.Growth
import SkynetJit.Redis.Set.Refinement
import SkynetJit.Redis.Zset.Agreement
import SkynetJit.Redis.Zset.Sequential
import SkynetJit.Redis.Zset.System

/-!
# SkynetJit.Redis.Atomicity

Commands that raise.  A command that checks all its arguments before it writes
leaves what the handles stand for when it raises.  ZREM and PFADD look at an
argument when its turn comes, so an argument that is refused comes too late for
those before it (`zremElements_torn`, `pfaddObject_torn`).

* `call_atomic_iff` — the calls that raise and leave every handle as it was.
-/

namespace SkynetJit.Redis

open Raise

variable {ν : Type}

/-! ## ZREM -/

section Zrem

variable [Score ν]

/-- The members that are named before the first argument that is refused. -/
def namedFirst : List (LuaValue ν) → List Bytes
  | [] => []
  | v :: vs =>
      match toBytes? v with
      | none => []
      | some ele => ele :: namedFirst vs

/-- An argument is refused, and of the elements some are named before it and
some are not. -/
def zremTears (vs : List (LuaValue ν)) (items : List (Scored ν)) : Prop :=
  (∃ v ∈ vs, toBytes? v = none) ∧ (∃ a ∈ items, a.ele ∈ namedFirst vs) ∧ ∃ a ∈ items, a.ele ∉ namedFirst vs

variable [LawfulScore ν]

/-- The deleting loop raises if it comes to an argument that is refused before
nothing is left, and what was named before is gone then. -/
theorem zremElements_spec (vs : List (LuaValue ν)) (deleted : Nat) {zobj : ZsetObj ν} (h : zobj.Wf) :
    ((∃ e, (zremElements vs deleted zobj).1 = .error e) ↔
      (∃ v ∈ vs, toBytes? v = none) ∧ (namedFirst vs = [] ∨ ∃ a ∈ zobj.items, a.ele ∉ namedFirst vs)) ∧
    ((∃ e, (zremElements vs deleted zobj).1 = .error e) →
      (zremElements vs deleted zobj).2.items = zobj.items.filter fun a => a.ele ∉ namedFirst vs) := by
  induction vs generalizing deleted zobj with
  | nil => exact ⟨by simp [zremElements], by simp [zremElements]⟩
  | cons v vs ih =>
      rw [zremElements]
      cases hv : toBytes? v with
      | none =>
          rw [HyperLogLog.rlMemberValue_none hv]
          exact ⟨by simp [namedFirst, hv], by simp [namedFirst, hv]⟩
      | some ele =>
          rw [HyperLogLog.rlMemberValue_some hv]
          have hitems := items_zsetDel h ele
          have hwf := (zsetDel_spec h ele).wf
          have hnamed : namedFirst (v :: vs) = ele :: namedFirst vs := by simp only [namedFirst, hv]
          have hrefused : (∃ u ∈ v :: vs, toBytes? u = none) ↔ ∃ u ∈ vs, toBytes? u = none := by simp [hv]
          rw [hnamed, hrefused]
          simp only
          generalize (if (zsetDel zobj ele).1 = true then deleted + 1 else deleted) = n
          by_cases hempty : zsetLength (zsetDel zobj ele).2 = 0
          · -- nothing is left: the loop ends here
            rw [if_pos hempty]
            rw [zsetLength_eq hwf, List.length_eq_zero_iff, hitems, List.filter_eq_nil_iff] at hempty
            refine ⟨iff_of_false (by simp) ?_, ?_⟩
            · rintro ⟨-, hnil | ⟨a, ha, hnot⟩⟩
              · exact absurd hnil (List.cons_ne_nil _ _)
              · exact hempty a ha (by simpa using fun heq : a.ele = ele => hnot (heq ▸ List.mem_cons_self))
            · rintro ⟨e, he⟩
              contradiction
          · rw [if_neg hempty]
            obtain ⟨hraise, hleft⟩ := ih n hwf
            have hmem : ∀ a, a ∈ (zsetDel zobj ele).2.items ↔ a ∈ zobj.items ∧ a.ele ≠ ele := by
              intro a
              rw [hitems, List.mem_filter, decide_eq_true_eq]
            have hsome : ∃ a ∈ zobj.items, a.ele ≠ ele := by
              rw [zsetLength_eq hwf, List.length_eq_zero_iff] at hempty
              obtain ⟨a, ha⟩ := List.exists_mem_of_ne_nil _ hempty
              exact ⟨a, (hmem a).mp ha⟩
            refine ⟨hraise.trans (and_congr_right fun _ => ?_), fun he => ?_⟩
            · simp only [hmem, List.mem_cons, not_or]
              constructor
              · rintro (hnil | ⟨a, ⟨ha, hne⟩, hnot⟩)
                · obtain ⟨a, ha, hne⟩ := hsome
                  exact .inr ⟨a, ha, hne, by rw [hnil]; exact List.not_mem_nil⟩
                · exact .inr ⟨a, ha, hne, hnot⟩
              · rintro (hfalse | ⟨a, ha, hne, hnot⟩)
                · exact absurd hfalse (List.cons_ne_nil _ _)
                · exact .inr ⟨a, ⟨ha, hne⟩, hnot⟩
            · rw [hleft he, hitems, List.filter_filter]
              refine List.filter_congr fun a _ => ?_
              simp [Bool.and_comm]

/-- **ZREM** that raises leaves the scores as they were, but for the calls that
tear. -/
theorem zremElements_torn (vs : List (LuaValue ν)) (deleted : Nat) {zobj : ZsetObj ν} (h : zobj.Wf) :
    (∀ e, (zremElements vs deleted zobj).1 = .error e →
      scoreOf (zremElements vs deleted zobj).2.items = scoreOf zobj.items) ↔ ¬ zremTears vs zobj.items := by
  obtain ⟨hraise, hleft⟩ := zremElements_spec vs deleted h
  constructor
  · rintro hkeeps ⟨hrefused, ⟨a, ha, hnamed⟩, hother⟩
    obtain ⟨e, he⟩ := hraise.mpr ⟨hrefused, .inr hother⟩
    have hscore := congrFun (hkeeps e he) a.ele
    have hgone : a.ele ∉ (zremElements vs deleted zobj).2.items.map Scored.ele := by
      rw [hleft ⟨e, he⟩, List.mem_map]
      rintro ⟨b, hb, heq⟩
      rw [List.mem_filter, heq, decide_eq_true_eq] at hb
      exact hb.2 hnamed
    rw [scoreOf_eq_none_iff.mpr hgone] at hscore
    exact scoreOf_eq_none_iff.mp hscore.symm (List.mem_map_of_mem ha)
  · intro hnot e he
    obtain ⟨hrefused, hcases⟩ := hraise.mp ⟨e, he⟩
    have hall : zobj.items.filter (fun a => a.ele ∉ namedFirst vs) = zobj.items := by
      rw [List.filter_eq_self]
      intro a ha
      rw [decide_eq_true_eq]
      intro hnamed
      obtain hnil | hother := hcases
      · rw [hnil] at hnamed
        exact List.not_mem_nil hnamed
      · exact hnot ⟨hrefused, ⟨a, ha, hnamed⟩, hother⟩
    rw [hleft ⟨e, he⟩, hall]

end Zrem

/-! ## PFADD -/

section Pfadd

open HyperLogLog

variable [LuaNumber ν]

/-- The loop of PFADD raises: it comes to an argument that is refused, or finds
the value corrupt. -/
def pfaddRefuses : List (LuaValue ν) → Hll → Bool
  | [], _ => false
  | v :: vs, o =>
      match toBytes? v with
      | none => true
      | some ele =>
          match (hllAdd o ele).1 with
          | .corrupt => true
          | _ => pfaddRefuses vs (hllAdd o ele).2

/-- The loop raises behind an element that has changed a register. -/
def pfaddTears : List (LuaValue ν) → Hll → Bool
  | [], _ => false
  | v :: vs, o =>
      match toBytes? v with
      | none => false
      | some ele =>
          match (hllAdd o ele).1 with
          | .corrupt => false
          | .raised => pfaddRefuses vs (hllAdd o ele).2
          | .same => pfaddTears vs (hllAdd o ele).2

/-- What the loop of PFADD does to the string of a value. -/
structure PfaddLoop (vs : List (LuaValue ν)) (o : Hll) (r : Except LuaError Bool × Hll) : Prop where
  grows : o.measure ≤ r.2.measure
  raises : (∃ e, r.1 = .error e) ↔ pfaddRefuses vs o = true
  tears : pfaddTears vs o = true → pfaddRefuses vs o = true ∧ o.measure < r.2.measure
  keeps : pfaddRefuses vs o = true → pfaddTears vs o = false → r.2.string = o.string

theorem pfaddElements_loop (vs : List (LuaValue ν)) (updated : Bool) {o : Hll} (h : o.Sized) :
    PfaddLoop vs o (exec (pfaddElements vs updated) o) := by
  induction vs generalizing o updated with
  | nil => exact ⟨le_rfl, by simp [pfaddElements, pfaddRefuses], by simp [pfaddTears], by simp [pfaddRefuses]⟩
  | cons v vs ih =>
      cases hv : toBytes? v with
      | none =>
          rw [exec_pfaddElements_bad hv]
          exact ⟨le_rfl, by simp [pfaddRefuses, hv], by simp [pfaddTears, hv], fun _ _ => rfl⟩
      | some ele =>
          have hadd := grows_hllAdd h ele
          cases hr : hllAdd o ele with
          | mk result o' =>
              rw [hr] at hadd
              rw [exec_pfaddElements_member hv vs updated hr]
              cases result with
              | corrupt =>
                  have hsame : o'.string = o.string := hadd.kept (by simp)
                  exact ⟨(Hll.measure_congr hsame).ge, by simp [pfaddRefuses, hv, hr],
                    by simp [pfaddTears, hv, hr], fun _ _ => hsame⟩
              | same =>
                  have hsame : o'.string = o.string := hadd.kept (by simp)
                  obtain ⟨hgrows, hraises, htears, hkeeps⟩ := ih updated hadd.sized
                  rw [Hll.measure_congr hsame] at hgrows htears
                  exact ⟨hgrows, by simpa [pfaddRefuses, hv, hr] using hraises,
                    by simpa [pfaddRefuses, pfaddTears, hv, hr] using htears,
                    by simpa [pfaddRefuses, pfaddTears, hv, hr, hsame] using hkeeps⟩
              | raised =>
                  obtain ⟨hgrows, hraises, -, -⟩ := ih true hadd.sized
                  have hlt := (hadd.raised rfl).trans_le hgrows
                  exact ⟨hlt.le, by simpa [pfaddRefuses, hv, hr] using hraises,
                    by simpa [pfaddRefuses, pfaddTears, hv, hr] using fun href => And.intro href hlt,
                    by simp +contextual [pfaddRefuses, pfaddTears, hv, hr]⟩

theorem pfaddRefuses_iff (vs : List (LuaValue ν)) {o : Hll} (h : o.Wf) :
    pfaddRefuses vs o = true ↔ ∃ v ∈ vs, toBytes? v = none := by
  induction vs generalizing o with
  | nil => simp [pfaddRefuses]
  | cons v vs ih =>
      cases hv : toBytes? v with
      | none => simp [pfaddRefuses, hv]
      | some ele =>
          cases hr : raisesRegister o ele with
          | false =>
              obtain ⟨o', hadd, hs⟩ := hllAdd_same h hr
              simp [pfaddRefuses, hv, hadd, ih (hs.wf h)]
          | true =>
              obtain ⟨o', hadd, hwf, -⟩ := hllAdd_raised h hr
              simp [pfaddRefuses, hv, hadd, ih hwf]

/-- A well-formed value tears if an element in front of the first argument that
is refused raises a register. -/
theorem pfaddTears_iff (vs : List (LuaValue ν)) {o : Hll} (h : o.Wf) :
    pfaddTears vs o = true ↔
      (∃ v ∈ vs, toBytes? v = none) ∧ ∃ ele ∈ leadingMembers vs, raisesRegister o ele = true := by
  induction vs generalizing o with
  | nil => simp [pfaddTears]
  | cons v vs ih =>
      cases hv : toBytes? v with
      | none => simp [pfaddTears, leadingMembers, hv]
      | some ele =>
          cases hr : raisesRegister o ele with
          | false =>
              obtain ⟨o', hadd, hs⟩ := hllAdd_same h hr
              have htail := ih (hs.wf h)
              rw [hs.raisesRegister h] at htail
              simp [pfaddTears, leadingMembers_cons, hv, hadd, hr, htail]
          | true =>
              obtain ⟨o', hadd, hwf, -⟩ := hllAdd_raised h hr
              simp [pfaddTears, leadingMembers_cons, hv, hadd, hr, pfaddRefuses_iff vs hwf]

theorem sized_of_rlCheckhll {o : Hll} (h : rlCheckhll o = .ok ()) : o.Sized := by
  intro he
  rw [rlCheckhll] at h
  split_ifs at h with hsize
  rw [not_and, not_not, Hll.len] at hsize
  exact Nat.add_left_cancel (hsize he)

/-- **PFADD** that raises leaves the string as it was, but for the calls that
tear. -/
theorem pfaddObject_torn (vs : List (LuaValue ν)) (o : Hll) :
    AtomicAt Hll.string (pfaddObject vs) o ↔ ¬ (rlCheckhll o = .ok () ∧ pfaddTears vs o = true) := by
  rw [AtomicAt, pfaddObject, exec_get_bind, exec_check_bind]
  cases hcheck : rlCheckhll o with
  | error e => exact iff_of_true (fun _ _ => rfl) (fun h => absurd h.1 (by simp))
  | ok u =>
      obtain ⟨-, hraises, htears, hkeeps⟩ := pfaddElements_loop vs false (sized_of_rlCheckhll hcheck)
      simp only [true_and, exec_bind]
      cases hloop : exec (pfaddElements vs false) o with
      | mk r o' =>
          rw [hloop] at hraises htears hkeeps
          cases r with
          | ok updated =>
              have hno : ¬ pfaddRefuses vs o = true := fun href => by
                obtain ⟨e, he⟩ := hraises.mpr href
                contradiction
              exact iff_of_true (fun e he => by contradiction) (fun ht => hno (htears ht).1)
          | error e =>
              have href : pfaddRefuses vs o = true := hraises.mp ⟨e, rfl⟩
              constructor
              · intro hsame ht
                have hlt := (htears ht).2
                rw [Hll.measure_congr (hsame e rfl)] at hlt
                exact lt_irrefl _ hlt
              · intro hnot e' he'
                exact hkeeps href (Bool.eq_false_of_not_eq_true hnot)

end Pfadd

/-! ## The sorted sets -/

section Zsets

variable [Score ν]

/-- The scores by member, of every sorted set and geo set. -/
def scoreMaps (s : Zsets ν) (kind : Kind) (id : Nat) : ScoreMap ν := scoreOf (s kind id).items

/-- A command on one object leaves the maps as they were if its function does,
where it raises. -/
theorem scoreMaps_onZset {α : Type} (kind : Kind) {args : Except LuaError (Nat × α)}
    {f : α → ZsetObj ν → Except LuaError (Reply ν) × ZsetObj ν} {s : Zsets ν}
    (hf : ∀ id a, args = .ok (id, a) → ∀ e, (f a (s kind id)).1 = .error e →
      (f a (s kind id)).2.items = (s kind id).items) :
    AtomicAt scoreMaps (onZset kind args f) s := by
  intro e he
  rw [exec_onZset] at he ⊢
  cases args with
  | error e => rfl
  | ok r =>
      obtain ⟨id, a⟩ := r
      have hitems := hf id a rfl e he
      funext k i
      simp only [scoreMaps]
      by_cases hk : (k, i) = (kind, id)
      · obtain ⟨rfl, rfl⟩ := Prod.mk.inj hk
        rw [Zsets.put_self, hitems]
      · rw [Zsets.put_of_ne _ _ hk]

omit [Score ν] in
/-- A command on one object that raises for its arguments only. -/
theorem atomic_onZset {ι : Type} (view : Zsets ν → ι) (kind : Kind) (args : Except LuaError (Nat × α))
    {f : α → ZsetObj ν → Except LuaError (Reply ν) × ZsetObj ν}
    (hf : ∀ a zobj, ∃ reply, (f a zobj).1 = .ok reply) : Atomic view (onZset kind args f) := by
  refine (readOnly_check args).bind_atomic fun arg => ?_
  obtain ⟨id, a⟩ := arg
  refine readOnly_get.bind_atomic fun s => ?_
  obtain ⟨reply, hreply⟩ := hf a (s kind id)
  dsimp only
  rw [hreply]
  exact ((returns_modify _).bind fun _ => returns_check_ok reply).atomic

section Checked

variable {ι : Type} (view : Zsets ν → ι)

theorem atomic_lzremrangeGeneric (rangetype : RangeType) (args : List (LuaValue ν)) :
    Atomic view (lzremrangeGeneric rangetype args) := by
  rw [lzremrangeGeneric]
  exact atomic_onZset view .zset _ fun range zobj => ⟨_, rfl⟩

theorem atomic_lzpopGeneric (side : PopEnd) (args : List (LuaValue ν)) :
    Atomic view (lzpopGeneric side args) := by
  rw [lzpopGeneric]
  exact atomic_onZset view .zset _ fun count zobj => ⟨_, rfl⟩

theorem atomic_lzmpop (args : List (LuaValue ν)) : Atomic view (lzmpop args) := by
  rw [lzmpop]
  refine (readOnly_check _).bind_atomic fun arg => ?_
  obtain ⟨keys, side, count⟩ := arg
  refine readOnly_get.bind_atomic fun s => ?_
  refine (readOnly_check _).bind_atomic fun picked => ?_
  cases picked with
  | none => exact (returns_pure _).atomic
  | some id => exact ((returns_modify _).bind fun _ => returns_pure _).atomic

theorem atomic_lzrangestore (rand : Draws) (args : List (LuaValue ν)) : Atomic view (lzrangestore rand args) := by
  rw [lzrangestore]
  split_ifs
  · exact (readOnly_throw _).atomic
  · refine (readOnly_check _).bind_atomic fun dst => (readOnly_check _).bind_atomic fun arg => ?_
    obtain ⟨src, range, o⟩ := arg
    exact readOnly_get.bind_atomic fun s => ((returns_modify _).bind fun _ => returns_pure _).atomic

theorem atomic_setopStore (qsort : CardinalitySort ν) (rand : Draws) (op : SetOp) (cmdname : String)
    (args : List (LuaValue ν)) : Atomic view (setopStore qsort rand op cmdname args) := by
  rw [setopStore]
  split_ifs
  · exact (readOnly_throw _).atomic
  · refine (readOnly_check _).bind_atomic fun dst => (readOnly_check _).bind_atomic fun arg => ?_
    obtain ⟨ids, o⟩ := arg
    exact readOnly_get.bind_atomic fun s => ((returns_modify _).bind fun _ => returns_pure _).atomic

end Checked

/-- The calls that raise when something is written. -/
def ZsetCall.tears (s : Zsets ν) : ZsetCall ν → Prop
  | .zrem args => ∃ id, rlCheck args 1 .zset = .ok id ∧ zremTears (args.drop 1) (s .zset id).items
  | _ => False

variable [LawfulScore ν]

/-- One pair that is refused leaves everything, and only with INCR is one
refused. -/
theorem zaddElements_refused (rand : Draws) {flags : ZaddFlags} {pairs : List (Scored ν)}
    (hnumber : ∀ a ∈ pairs, a.IsNumber) (hincr : flags.incr = true → pairs.length = 1) {zobj : ZsetObj ν}
    (h : zobj.Wf) {e : LuaError} (he : (zaddElements rand flags pairs {} zobj).1 = .error e) :
    (zaddElements rand flags pairs {} zobj).2 = zobj := by
  cases hflag : flags.incr with
  | false =>
      have hstart : Tallies { map := scoreOf zobj.items } {} zobj :=
        ⟨h, h.sound.scoreOf_refl, rfl, rfl, rfl, fun h => absurd rfl h⟩
      obtain ⟨-, totals, -, hrun, -⟩ := Tallies.run hflag rand hnumber hstart
      rw [hrun] at he
      contradiction
  | true =>
      obtain ⟨a, rfl⟩ := List.length_eq_one_iff.mp (hincr hflag)
      have ha := hnumber a List.mem_cons_self
      have hspec := zsetAdd_spec h rand ha flags
      have hout := (zsetAdd_effect h rand ha flags).1
      rw [zaddElements] at he ⊢
      split_ifs at he ⊢ with hok
      · contradiction
      · refine hspec.keeps ?_
        rw [hout] at hok ⊢
        cases heffect : flags.effect (scoreOf zobj.items a.ele) a.score with
        | refused => rfl
        | nothing => rw [heffect] at hok; exact absurd rfl hok
        | store y => rw [heffect] at hok; exact absurd rfl hok

omit [Score ν] [LawfulScore ν] in
theorem geoaddOptions_incr (o : ZaddOptions) (args : List (LuaValue ν)) :
    (geoaddOptions o args).1.flags.incr = o.flags.incr := by
  induction args generalizing o with
  | nil => rfl
  | cons v rest ih =>
      cases v with
      | string opt =>
          rw [geoaddOptions]
          cases hopt : geoaddOption o opt with
          | none => rfl
          | some o' =>
              have hsame : o'.flags.incr = o.flags.incr := by
                rw [geoaddOption] at hopt
                split_ifs at hopt <;> rw [← Option.some.inj hopt]
              exact (ih o').trans hsame
      | _ => rfl

theorem geoaddTriples_number (geo : GeoCode ν) {args : List (LuaValue ν)} {points : List (Scored ν)}
    (h : geoaddTriples geo args = .ok points) : ∀ a ∈ points, a.IsNumber := by
  fun_induction geoaddTriples geo args generalizing points with
  | case1 x y member rest ih =>
      obtain ⟨⟨long, lat⟩, -, h⟩ := except_bind_eq_ok.mp h
      obtain ⟨ele, -, h⟩ := except_bind_eq_ok.mp h
      obtain ⟨points', hpoints, h⟩ := except_bind_eq_ok.mp h
      obtain rfl := Except.ok.inj h
      rintro a (_ | ⟨_, ha⟩)
      · exact LawfulScore.number_ofLong _
      · exact ih hpoints a ha
  | case2 =>
      obtain rfl := Except.ok.inj h
      simp

theorem geoaddArgs_spec (geo : GeoCode ν) {args : List (LuaValue ν)} {id : Nat} {o : ZaddOptions}
    {points : List (Scored ν)} (h : geoaddArgs geo args = .ok (id, o, points)) :
    (∀ a ∈ points, a.IsNumber) ∧ o.flags.incr = false := by
  rw [geoaddArgs] at h
  obtain ⟨id', -, h⟩ := except_bind_eq_ok.mp h
  have hincr := geoaddOptions_incr {} (args.drop 1)
  generalize geoaddOptions {} (args.drop 1) = r at h hincr
  obtain ⟨o', rest⟩ := r
  simp only at h
  split_ifs at h
  obtain ⟨points', hpoints, hok⟩ := except_bind_eq_ok.mp h
  obtain ⟨-, heq⟩ := Prod.mk.inj (Except.ok.inj hok)
  obtain ⟨rfl, rfl⟩ := Prod.mk.inj heq
  exact ⟨geoaddTriples_number geo hpoints, hincr⟩

/-- ZADD, ZINCRBY and GEOADD. -/
theorem scoreMaps_zaddElements (kind : Kind) (rand : Draws)
    {args : Except LuaError (Nat × ZaddOptions × List (Scored ν))} (reply : ZaddOptions → ZaddTotals ν → Reply ν)
    (hargs : ∀ id o pairs, args = .ok (id, o, pairs) →
      (∀ a ∈ pairs, a.IsNumber) ∧ (o.flags.incr = true → pairs.length = 1)) {s : Zsets ν} (hwf : AllWf s) :
    AtomicAt scoreMaps (onZset kind args fun (o, pairs) zobj =>
      ((zaddElements rand o.flags pairs {} (zsetTypeMaybeConvert rand zobj pairs.length)).1.map (reply o),
        (zaddElements rand o.flags pairs {} (zsetTypeMaybeConvert rand zobj pairs.length)).2)) s := by
  refine scoreMaps_onZset kind fun id (o, pairs) hok e he => ?_
  obtain ⟨hnumber, hincr⟩ := hargs id o pairs hok
  obtain ⟨hconv, hitems⟩ := wf_zsetTypeMaybeConvert (hwf kind id) rand pairs.length
  dsimp only at he ⊢
  cases hrun : (zaddElements rand o.flags pairs {} (zsetTypeMaybeConvert rand (s kind id) pairs.length)).1 with
  | ok totals => rw [hrun] at he; contradiction
  | error e' => rw [zaddElements_refused rand hnumber hincr hconv hrun, hitems]

theorem lzrem_atomic_iff (args : List (LuaValue ν)) {s : Zsets ν} (hwf : AllWf s) :
    AtomicAt scoreMaps (lzrem args) s ↔
      ¬ ∃ id, rlCheck args 1 .zset = .ok id ∧ zremTears (args.drop 1) (s .zset id).items := by
  rw [AtomicAt, lzrem, exec_onZset]
  cases hid : rlCheck args 1 .zset with
  | error e =>
      refine iff_of_true (fun _ _ => rfl) ?_
      rintro ⟨_, h, _⟩
      contradiction
  | ok id =>
      have hwfid := hwf .zset id
      have htorn := zremElements_torn (args.drop 1) 0 (hwf .zset id)
      simp only [Except.map, Except.ok.injEq, exists_eq_left']
      rw [← htorn]
      refine forall_congr' fun e => ?_
      cases hrun : zremElements (args.drop 1) 0 (s .zset id) with
      | mk r o =>
          cases r with
          | ok deleted => exact iff_of_true (fun he => by contradiction) (fun he => by contradiction)
          | error e' =>
              show ((Except.error e' : Except LuaError (Reply ν)) = .error e →
                scoreMaps (s.put .zset id o) = scoreMaps s) ↔ _
              rw [Except.error.injEq, Except.error.injEq]
              refine imp_congr_right fun _ => ⟨fun hmaps => ?_, fun hmap => ?_⟩
              · have hmap := congrFun (congrFun hmaps .zset) id
                rwa [scoreMaps, Zsets.put_self] at hmap
              · funext k i
                simp only [scoreMaps]
                by_cases hk : (k, i) = (.zset, id)
                · obtain ⟨rfl, rfl⟩ := Prod.mk.inj hk
                  rw [Zsets.put_self, hmap]
                · rw [Zsets.put_of_ne _ _ hk]

/-- **The sorted sets**: a call that raises changes no map, but for the calls
that tear. -/
theorem zsetCommand_atomic_iff (call : ZsetCall ν) {s : Zsets ν} (hwf : AllWf s) :
    AtomicAt scoreMaps (zsetCommand call) s ↔ ¬ call.tears s := by
  cases call with
  | zrem args => exact lzrem_atomic_iff args hwf
  | zadd rand args =>
      refine iff_of_true ?_ not_false
      exact scoreMaps_zaddElements .zset rand zaddReply (fun id o pairs h => zaddArgs_spec h) hwf
  | zincrby rand args =>
      refine iff_of_true ?_ not_false
      exact scoreMaps_zaddElements .zset rand zaddReply (fun id o pairs h => zaddArgs_spec h) hwf
  | geoadd geo rand args =>
      refine iff_of_true ?_ not_false
      refine scoreMaps_zaddElements .geo rand zaddReply (fun id o points h => ?_) hwf
      obtain ⟨hnumber, hincr⟩ := geoaddArgs_spec geo h
      exact ⟨hnumber, fun h => absurd (hincr.symm.trans h) Bool.false_ne_true⟩
  | zremrangebyrank args => exact iff_of_true ((atomic_lzremrangeGeneric scoreMaps .rank args).at s) not_false
  | zremrangebyscore args => exact iff_of_true ((atomic_lzremrangeGeneric scoreMaps .score args).at s) not_false
  | zremrangebylex args => exact iff_of_true ((atomic_lzremrangeGeneric scoreMaps .lex args).at s) not_false
  | zpopmin args => exact iff_of_true ((atomic_lzpopGeneric scoreMaps .min args).at s) not_false
  | zpopmax args => exact iff_of_true ((atomic_lzpopGeneric scoreMaps .max args).at s) not_false
  | zmpop args => exact iff_of_true ((atomic_lzmpop scoreMaps args).at s) not_false
  | zrangestore rand args => exact iff_of_true ((atomic_lzrangestore scoreMaps rand args).at s) not_false
  | zunionstore qsort rand args =>
      exact iff_of_true ((atomic_setopStore scoreMaps qsort rand .union _ args).at s) not_false
  | zinterstore qsort rand args =>
      exact iff_of_true ((atomic_setopStore scoreMaps qsort rand .inter _ args).at s) not_false
  | zdiffstore qsort rand args =>
      exact iff_of_true ((atomic_setopStore scoreMaps qsort rand .diff _ args).at s) not_false

end Zsets

/-! ## Geo searches -/

section Geo

variable [Score ν]

/-- A search that does not reply has stored nothing. -/
theorem geoFinish_error (env : GeoSearch ν) (rand : Draws) (q : GeoQuery ν) (s : Zsets ν) {fault : GeoFault}
    (h : (geoFinish env rand q s).1 = .error fault) : (geoFinish env rand q s).2 = s := by
  rw [geoFinish] at h ⊢
  cases hxy : q.centre.position with
  | none =>
      rw [hxy] at h
      cases hkey : q.options.storekey with
      | none => rfl
      | some key => rw [hkey] at h; contradiction
  | some xy =>
      rw [hxy] at h
      cases hkey : q.options.storekey with
      | none => rfl
      | some key =>
          rw [hkey] at h
          dsimp only at h ⊢
          cases hstore : geoStoreResult rand ((geoReturned env q (geoCollect env q xy (s .geo q.source))).map
              (storedScore q.options.storedist)) with
          | ok result => rw [hstore] at h; contradiction
          | error fault' => rfl

/-- **GEOSEARCHSTORE**, and GEORADIUS with STORE or STOREDIST. -/
theorem atomic_rlGeosearchGeneric {ι : Type} (view : Zsets ν → ι) (env : GeoSearch ν) (rand : Draws)
    (form : GeoForm) (args : List (LuaValue ν)) : Atomic view (rlGeosearchGeneric env rand form args) := by
  intro s e he
  rw [rlGeosearchGeneric, exec_get_bind, exec_check_bind] at he ⊢
  cases hquery : (geoQuery env form s args).mapError GeoFault.raised with
  | error e' => rfl
  | ok q =>
      rw [hquery] at he
      exact congrArg view (geoFinish_error env rand q s he)

end Geo

/-! ## Sets, bitmaps and HLLs -/

section Others

variable {ι : Type}

theorem atomic_setCommand [LuaNumber ν] (view : Sets → ι) (call : SetCall ν) : Atomic view (setCommand call) := by
  cases call with
  | sadd args =>
      rw [setCommand, lsadd]
      refine (readOnly_check _).bind_atomic fun arg => ?_
      obtain ⟨id, eles⟩ := arg
      refine readOnly_get.bind_atomic fun s => ?_
      exact ((returns_set _).bind fun _ => returns_pure _).atomic
  | srem args =>
      rw [setCommand, lsrem]
      refine (readOnly_check _).bind_atomic fun arg => ?_
      obtain ⟨id, eles⟩ := arg
      refine readOnly_get.bind_atomic fun s => ?_
      dsimp only
      cases s id with
      | none => exact (returns_pure _).atomic
      | some o => exact ((returns_set _).bind fun _ => returns_pure _).atomic
  | smove args =>
      rw [setCommand, lsmove]
      refine (readOnly_check _).bind_atomic fun src => readOnly_get.bind_atomic fun s => ?_
      cases s src with
      | none => exact (returns_pure _).atomic
      | some o =>
          dsimp only
          split_ifs
          · exact (returns_pure _).atomic
          · refine (readOnly_check _).bind_atomic fun arg => ?_
            obtain ⟨dst, ele⟩ := arg
            dsimp only
            split_ifs
            · exact (returns_pure _).atomic
            · exact ((returns_set _).bind fun _ => (returns_modify _).bind fun _ => returns_pure _).atomic
            · exact ((returns_set _).bind fun _ => returns_pure _).atomic
  | spop draws args =>
      rw [setCommand, lspop]
      refine (readOnly_check _).bind_atomic fun arg => ?_
      obtain ⟨id, count?⟩ := arg
      refine readOnly_get.bind_atomic fun s => ?_
      dsimp only
      cases s id with
      | none => cases count? <;> exact (returns_pure _).atomic
      | some o =>
          cases count? with
          | none =>
              dsimp only
              cases setTypeRandomElement o (draws 0) with
              | none => exact (returns_pure _).atomic
              | some e => exact ((returns_set _).bind fun _ => returns_pure _).atomic
          | some count =>
              dsimp only
              split_ifs
              · exact (returns_pure _).atomic
              · exact ((returns_set _).bind fun _ => returns_pure _).atomic

theorem atomic_lbitmapSetbit [LuaCoercion ν] (view : Handles Bytes → ι) (args : List (LuaValue ν)) :
    Atomic view (lbitmapSetbit args) := by
  rw [lbitmapSetbit]
  refine (readOnly_check _).bind_atomic fun arg => ?_
  obtain ⟨id, bitoffset, on⟩ := arg
  refine readOnly_get.bind_atomic fun s => ?_
  exact ((returns_set _).bind fun _ => returns_pure _).atomic

theorem atomic_lbitmapBitfield [LuaCoercion ν] (view : Handles Bytes → ι) (ro : Bool) (args : List (LuaValue ν)) :
    Atomic view (lbitmapBitfield ro args) := by
  rw [lbitmapBitfield]
  refine (readOnly_check _).bind_atomic fun arg => ?_
  obtain ⟨id, ops⟩ := arg
  refine readOnly_get.bind_atomic fun s => ?_
  exact ((returns_set _).bind fun _ => returns_pure _).atomic

end Others

section Hlls

open HyperLogLog

/-- The string of every HLL. -/
def strings (s : Handles Hll) (id : Nat) : Encoding × Bytes × UInt64 × Bytes := (s id).string

theorem strings_onHandle {α : Type} (id : Nat) (x : Command Hll α) (s : Handles Hll) :
    AtomicAt strings (onHandle id x) s ↔ AtomicAt Hll.string x (s id) := by
  refine forall_congr' fun e => imp_congr_right fun _ => ?_
  change strings (s.put id (exec x (s id)).2) = strings s ↔ _
  constructor
  · intro h
    have hid := congrFun h id
    rwa [strings, Handles.put_self] at hid
  · intro h
    funext i
    rw [strings]
    by_cases hi : i = id
    · rw [hi, Handles.put_self, h, strings]
    · rw [Handles.put_of_ne s _ hi, strings]

theorem readOnly_mergeOperands {ι : Type} (view : Handles Hll → ι) (vs : List (LuaValue ν)) (useDense : Bool)
    (max : List Nat) : ReadOnly view (mergeOperands vs useDense max) :=
  fun s => congrArg view (mergeOperands_readOnly vs useDense max s)

theorem atomic_pfcountObject (E : Estimator) : Atomic Hll.string (pfcountObject E : Command Hll (Reply ν)) := by
  rw [pfcountObject]
  refine readOnly_get.bind_atomic fun o => (readOnly_check _).bind_atomic fun _ => ?_
  split_ifs
  · exact (returns_pure _).atomic
  · obtain ⟨card, invalid⟩ := hllCount E o
    cases invalid with
    | true => exact (readOnly_throw _).atomic
    | false => exact ((returns_set _).bind fun _ => returns_pure _).atomic

theorem atomic_pfmergeStore (useDense : Bool) (max : List Nat) :
    Atomic Hll.string (pfmergeStore useDense max : Command Hll (Reply ν)) := by
  rw [pfmergeStore]
  refine readOnly_get.bind_atomic fun o => ?_
  split_ifs
  · cases hllSparseToDense o with
    | none => exact (readOnly_throw _).atomic
    | some d => exact ((returns_set _).bind fun _ => returns_pure _).atomic
  · exact ((returns_set _).bind fun _ => returns_pure _).atomic

theorem atomic_forceDense : Atomic Hll.string forceDense := by
  rw [forceDense]
  refine readOnly_get.bind_atomic fun o => ?_
  cases o.encoding with
  | dense => exact (returns_pure _).atomic
  | sparse =>
      dsimp only
      cases hllSparseToDense o with
      | none => exact (readOnly_throw _).atomic
      | some d => exact ((returns_set _).bind fun _ => returns_pure _).atomic

theorem atomic_pfdebugObject (sub : DebugSub) : Atomic Hll.string (pfdebugObject sub : Command Hll (Reply ν)) := by
  cases sub with
  | getreg => exact atomic_forceDense.bind_returns fun _ => returns_get.bind fun _ => returns_pure _
  | todense => exact atomic_forceDense.bind_returns fun _ => returns_pure _
  | decode =>
      refine readOnly_get.bind_atomic fun o => ?_
      cases o.encoding with
      | dense => exact (readOnly_throw _).atomic
      | sparse => exact (returns_pure _).atomic
  | encoding =>
      refine readOnly_get.bind_atomic fun o => ?_
      cases o.encoding <;> exact (returns_pure _).atomic

variable [LuaNumber ν]

/-- The calls that raise when a register has been written. -/
def hllTears (s : Handles Hll) (cmd : HllCommand) (args : List (LuaValue ν)) : Prop :=
  cmd = .pfadd ∧ ∃ id, rlCheck args 1 .hll = .ok id ∧ rlCheckhll (s id) = .ok () ∧
    pfaddTears (args.drop 1) (s id) = true

/-- **The HLLs**: a call that raises changes no string, but for the calls that
tear. -/
theorem hllCommand_atomic_iff (E : Estimator) (cmd : HllCommand) (args : List (LuaValue ν)) (s : Handles Hll) :
    AtomicAt strings (hllCommand E cmd args) s ↔ ¬ hllTears s cmd args := by
  have hother : cmd ≠ .pfadd → ¬ hllTears s cmd args := fun hne h => hne h.1
  cases cmd with
  | pfadd =>
      rw [hllCommand, lhllPfadd, atomicAt_check_bind, hllTears]
      simp only [strings_onHandle, pfaddObject_torn, true_and, not_exists, not_and]
  | pfcount =>
      refine iff_of_true ?_ (hother (by simp))
      rw [hllCommand, lhllPfcount]
      cases hllOperands args with
      | nil => exact (readOnly_throw _).atomic.at s
      | cons v vs =>
          cases vs with
          | nil => exact atomicAt_check_bind.mpr fun id _ => (strings_onHandle id _ s).mpr (atomic_pfcountObject E _)
          | cons w vs =>
              exact ((readOnly_mergeOperands _ _ _ _).bind_atomic fun _ => (returns_pure _).atomic).at s
  | pfmerge =>
      refine iff_of_true ?_ (hother (by simp))
      rw [hllCommand, lhllPfmerge]
      refine Atomic.at ((readOnly_check _).bind_atomic fun dest => ?_) s
      refine (readOnly_mergeOperands _ _ _ _).bind_atomic fun merged t => ?_
      exact (strings_onHandle dest _ t).mpr (atomic_pfmergeStore _ _ _)
  | pfdebug =>
      refine iff_of_true ?_ (hother (by simp))
      rw [hllCommand, lhllPfdebug]
      refine Atomic.at ((readOnly_check _).bind_atomic fun id => (readOnly_check _).bind_atomic fun cmd => ?_) s
      by_cases hsimd : eqIgnoreCase cmd "simd" = true
      · rw [if_pos hsimd]
        exact (readOnly_check _).atomic
      · rw [if_neg hsimd]
        refine readOnly_get.bind_atomic fun s => (readOnly_check _).bind_atomic fun _ => ?_
        cases debugSub cmd with
        | none => exact (readOnly_throw _).atomic
        | some sub =>
            dsimp only
            split_ifs
            · exact (readOnly_throw _).atomic
            · exact fun t => (strings_onHandle id _ t).mpr (atomic_pfdebugObject sub _)

end Hlls

/-! ## All facades -/

/-- The objects of all facades. -/
structure Facades (ν : Type) where
  zsets : Zsets ν
  sets : Sets
  hlls : Handles HyperLogLog.Hll
  bitmaps : Handles Bytes

/-- What the objects stand for. -/
structure FacadesValue (ν : Type) where
  scores : Kind → Nat → ScoreMap ν
  members : Nat → Finset Bytes
  hlls : Nat → HyperLogLog.Encoding × Bytes × UInt64 × Bytes
  bitmaps : Nat → Bytes

section Facade

variable [Score ν] [LuaTonumber ν]

local instance : LuaCoercion ν where
  tonumber := LuaTonumber.tonumber

def Facades.value (s : Facades ν) : FacadesValue ν where
  scores := scoreMaps s.zsets
  members id := payloadSet (s.sets id)
  hlls := strings s.hlls
  bitmaps := s.bitmaps

/-- A call of a command that changes an object, or looks at an HLL. -/
inductive FacadeCall (ν : Type) [Score ν] where
  | zset (call : ZsetCall ν)
  | geosearch (env : GeoSearch ν) (rand : Draws) (form : GeoForm) (args : List (LuaValue ν))
  | set (call : SetCall ν)
  | hll (E : HyperLogLog.Estimator) (cmd : HyperLogLog.HllCommand) (args : List (LuaValue ν))
  | setbit (args : List (LuaValue ν))
  | bitfield (ro : Bool) (args : List (LuaValue ν))

/-- How a call ends, and the objects afterwards. -/
def runFacade (s : Facades ν) : FacadeCall ν → Except GeoFault (Reply ν) × Facades ν
  | .zset call =>
      let r := exec (zsetCommand call) s.zsets
      (r.1.mapError .raised, { s with zsets := r.2 })
  | .geosearch env rand form args =>
      let r := exec (rlGeosearchGeneric env rand form args) s.zsets
      (r.1, { s with zsets := r.2 })
  | .set call =>
      let r := exec (setCommand call) s.sets
      (r.1.mapError .raised, { s with sets := r.2 })
  | .hll E cmd args =>
      let r := exec (HyperLogLog.hllCommand E cmd args) s.hlls
      (r.1.mapError .raised, { s with hlls := r.2 })
  | .setbit args =>
      let r := exec (lbitmapSetbit args) s.bitmaps
      (r.1.mapError .raised, { s with bitmaps := r.2 })
  | .bitfield ro args =>
      let r := exec (lbitmapBitfield ro args) s.bitmaps
      (r.1.mapError .raised, { s with bitmaps := r.2 })

/-- The calls that raise when something is written: a ZREM that comes to an
argument that is refused when some of the elements are gone and some are left,
and a PFADD that comes to one when a register has changed. -/
def FacadeCall.tears (s : Facades ν) : FacadeCall ν → Prop
  | .zset call => call.tears s.zsets
  | .hll _ cmd args => hllTears s.hlls cmd args
  | _ => False

theorem mapError_eq_error {α : Type} {r : Except LuaError α} {e : LuaError} :
    r.mapError GeoFault.raised = .error (.raised e) ↔ r = .error e := by
  cases r <;> simp [Except.mapError]

/-- **A call that raises** leaves every object of every facade as it was, if
and only if it is not one of those that tear. -/
theorem call_atomic_iff [LawfulScore ν] (call : FacadeCall ν) {s : Facades ν} (hwf : AllWf s.zsets) :
    (∀ e, (runFacade s call).1 = .error (.raised e) → (runFacade s call).2.value = s.value) ↔ ¬ call.tears s := by
  cases call with
  | zset call =>
      have hiff := zsetCommand_atomic_iff call hwf
      simp only [AtomicAt] at hiff
      simp only [runFacade, mapError_eq_error, FacadeCall.tears, ← hiff, Facades.value, FacadesValue.mk.injEq,
        and_true]
  | geosearch env rand form args =>
      refine iff_of_true (fun e he => ?_) not_false
      have h := atomic_rlGeosearchGeneric scoreMaps env rand form args s.zsets _ he
      simp only [runFacade, Facades.value, h]
  | set call =>
      refine iff_of_true (fun e he => ?_) not_false
      have h := atomic_setCommand (fun s : Sets => fun id => payloadSet (s id)) call s.sets e (mapError_eq_error.mp he)
      simp only [runFacade, Facades.value, h]
  | hll E cmd args =>
      have hiff := hllCommand_atomic_iff E cmd args s.hlls
      simp only [AtomicAt] at hiff
      simp only [runFacade, mapError_eq_error, FacadeCall.tears, ← hiff, Facades.value, FacadesValue.mk.injEq,
        and_true, true_and]
  | setbit args =>
      refine iff_of_true (fun e he => ?_) not_false
      have h := atomic_lbitmapSetbit id args s.bitmaps e (mapError_eq_error.mp he)
      simp only [id] at h
      simp only [runFacade, Facades.value, h]
  | bitfield ro args =>
      refine iff_of_true (fun e he => ?_) not_false
      have h := atomic_lbitmapBitfield id ro args s.bitmaps e (mapError_eq_error.mp he)
      simp only [id] at h
      simp only [runFacade, Facades.value, h]

end Facade

/-- Three elements behind handle 0, and nothing else. -/
def oneTwoThreeFacades : Facades Double := ⟨oneTwoThree, fun _ => none, HyperLogLog.newHandles, fun _ => []⟩

/-- An element, and what is no element. -/
def zremTearing : FacadeCall Double := .zset (.zrem [.handle .zset 0, .string (ascii "a"), .table []])

theorem call_atomic_iff_sample :
    ¬ ∀ e, (runFacade oneTwoThreeFacades zremTearing).1 = .error (.raised e) →
      (runFacade oneTwoThreeFacades zremTearing).2.value = oneTwoThreeFacades.value := by
  rw [call_atomic_iff zremTearing (s := oneTwoThreeFacades) allWf_oneTwoThree, not_not]
  refine ⟨0, rfl, ⟨.table [], ?_, rfl⟩, ?_⟩
  · exact List.mem_cons_of_mem _ List.mem_cons_self
  · decide +kernel

end SkynetJit.Redis
