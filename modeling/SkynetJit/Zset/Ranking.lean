import SkynetJit.Lib.Transition
import SkynetJit.Zset.Object
import SkynetJit.Redis.Zset.Double

/-!
# SkynetJit.Zset.Ranking

What the Lua sorted set is for: scores by member, and the members in order.

`Ranked` is a ranking, and `Call.spec` what each call says and leaves.
`zset_refines` is the refinement, along any calls whose scores are numbers;
`add_inStep_iff` is about the other scores.
-/

namespace SkynetJit.Luaclib

open Skiplist Raise Transition
open Redis (Score LawfulScore Scored Sound LuaValue LuaTonumber scoreOf scoreOf_eq_some_iff scoreOf_eq_none_iff)
open Redis.LuaNumber (isNaN)

/-! ## The specification -/

section Spec

variable {ν : Type} [Score ν] [LuaTonumber ν]

/-- A ranking: the scores as they were given, and the members in order. -/
structure Ranked (ν : Type) [Score ν] [LuaTonumber ν] where
  given : Bytes → Option (LuaValue ν)
  items : List (Scored ν)
  sound : Sound items
  agree : ∀ e, (given e).map numberOf = (scoreOf items e).map some

/-- The calls of an object. -/
inductive Call (ν : Type) where
  | add (score member : LuaValue ν)
  | rem (member : LuaValue ν)
  | count
  | limit (n : Int)
  | revLimit (n : Int)
  | range (r1 r2 : Int)
  | revRange (r1 r2 : Int)
  | rank (member : LuaValue ν)
  | revRank (member : LuaValue ν)
  | rangeByScore (s1 s2 : LuaValue ν)
  | score (member : LuaValue ν)

/-- What a call returns. -/
inductive Answer (ν : Type) where
  | nothing
  | int (n : Int)
  | rank (r : Option Int)
  | members (l : List Bytes)
  | score (v : Option (LuaValue ν))

namespace Ranked

/-- No members. -/
def empty : Ranked ν := ⟨fun _ => none, [], Sound.nil, fun _ => rfl⟩

variable (t : Ranked ν)

/-- The score of a member as it was given; members are strings. -/
def find : LuaValue ν → Option (LuaValue ν)
  | .string m => t.given m
  | _ => none

/-- The rank of a member, counted from 1. -/
def rankOf : LuaValue ν → Option Nat
  | .string m => (t.items.findIdx? fun a => a.ele = m).map (· + 1)
  | _ => none

/-- The scores of some members. -/
def only (kept : List (Scored ν)) (e : Bytes) : Option (LuaValue ν) :=
  if e ∈ kept.map Scored.ele then t.given e else none

end Ranked

/-- The lowest ones; a count of -1 is none, and with one below that only the
highest member goes. -/
def keptByLimit (n : Int) (items : List (Scored ν)) : List (Scored ν) :=
  if n < -1 then items.dropLast else items.take n.toNat

/-- The highest ones. -/
def keptByRevLimit (n : Int) (items : List (Scored ν)) : List (Scored ν) :=
  items.drop (items.length - n).toNat

/-- What a call says. -/
def Call.answers (t : Ranked ν) : Call ν → Except Fault (Answer ν)
  | .add v m => do
      let _ ← checknumber 2 v
      let _ ← checkstring 3 m
      return .nothing
  | .rem _ => .ok .nothing
  | .count => .ok (.int t.items.length)
  | .limit n => .ok (.int (t.items.length - (keptByLimit n t.items).length))
  | .revLimit n => .ok (.int (t.items.length - (keptByRevLimit n t.items).length))
  | .range r1 r2 => .ok (.members ((window t.items r1 r2).map Scored.ele))
  | .revRange r1 r2 =>
      .ok (.members ((window t.items (t.items.length - r1 + 1) (t.items.length - r2 + 1)).map Scored.ele))
  | .rank m => .ok (.rank ((t.rankOf m).map Int.ofNat))
  | .revRank m => .ok (.rank ((t.rankOf m).map fun r : Nat => (t.items.length : Int) - r + 1))
  | .rangeByScore v w => do
      let x ← checknumber 2 v
      let y ← checknumber 3 w
      if isNaN x then
        if t.items.getLast?.any (notBelow y) && !Score.lt (Score.ofLong 0) y then throw .segfault
        else return .members []
      else return .members ((between t.items x y).map Scored.ele)
  | .score m => .ok (.score (t.find m))

/-- The scores that a call leaves. -/
def Call.leaves (t : Ranked ν) : Call ν → Bytes → Option (LuaValue ν)
  | .add v (.string m) =>
      if (t.given m).any fun old => Zset.luaEq old v then t.given else Function.update t.given m (some v)
  | .rem (.string m) => Function.update t.given m none
  | .limit n => t.only (keptByLimit n t.items)
  | .revLimit n => t.only (keptByRevLimit n t.items)
  | _ => t.given

/-- **The specification** of a call. -/
def Call.spec (t : Ranked ν) (c : Call ν) (r : Except Fault (Answer ν)) (t' : Ranked ν) : Prop :=
  r = c.answers t ∧ t'.given = c.leaves t

/-- The calls that the specification covers: a member is added with a score
that is a number, and ranks and counts are of the size of a table. -/
def Call.Proper : Call ν → Prop
  | .add v m => (∃ x, numberOf v = some x ∧ isNaN x = false) ∨ ∀ s, m ≠ .string s
  | .limit n | .revLimit n => -2 ^ 26 ≤ n ∧ n ≤ 2 ^ 26
  | .range r1 r2 | .revRange r1 r2 => (-2 ^ 26 ≤ r1 ∧ r1 ≤ 2 ^ 26) ∧ -2 ^ 26 ≤ r2 ∧ r2 ≤ 2 ^ 26
  | _ => True

/-- A call on the object. -/
def Call.run (rand : Zset.Draws) : Call ν → Method ν (Answer ν)
  | .add v m => do
      Zset.add rand v m
      return .nothing
  | .rem m => do
      Zset.rem m
      return .nothing
  | .count => return .int (← Zset.count)
  | .limit n => return .int (← Zset.limit n)
  | .revLimit n => return .int (← Zset.revLimit n)
  | .range r1 r2 => return .members (← Zset.range r1 r2)
  | .revRange r1 r2 => return .members (← Zset.revRange r1 r2)
  | .rank m => return .rank ((← Zset.rank m).map Int.ofNat)
  | .revRank m => return .rank (← Zset.revRank m)
  | .rangeByScore v w => return .members (← Zset.rangeByScore v w)
  | .score m => return .score (← Zset.score m)

/-- One call. -/
def Zset.step (rand : Zset.Draws) (s : Zset ν) (c : Call ν) : Except Fault (Answer ν) × Zset ν :=
  exec (c.run rand) s

/-- The object and the ranking say the same. -/
structure InStep (s : Zset ν) (t : Ranked ν) : Prop where
  lists : Lists s.sl t.items
  tbl : s.tbl = t.given

end Spec

/-! ## Rankings -/

section Rankings

variable {ν : Type}

theorem scoreOf_middle {A B : List (Scored ν)} {a : Scored ν} (h : ((A ++ a :: B).map Scored.ele).Nodup) :
    scoreOf (A ++ a :: B) = Function.update (scoreOf (A ++ B)) a.ele (some a.score) := by
  funext e
  rw [Redis.scoreOf_perm h List.perm_middle]
  by_cases he : e = a.ele
  · rw [he, Redis.scoreOf_cons_self, Function.update_self]
  · rw [Redis.scoreOf_cons_of_ne (Ne.symm he), Function.update_of_ne he]

theorem scoreOf_sublist {kept items : List (Scored ν)} (hsub : kept.Sublist items)
    (hnd : (items.map Scored.ele).Nodup) (e : Bytes) :
    scoreOf kept e = if e ∈ kept.map Scored.ele then scoreOf items e else none := by
  split_ifs with hin
  · obtain ⟨a, ha, rfl⟩ := List.mem_map.mp hin
    rw [(scoreOf_eq_some_iff hnd).mpr (hsub.subset ha)]
    exact (scoreOf_eq_some_iff (hnd.sublist (hsub.map _))).mpr ha
  · exact scoreOf_eq_none_iff.mpr hin

namespace Ranked

variable [Score ν] [LuaTonumber ν] {t : Ranked ν}

theorem mem_iff (t : Ranked ν) (e : Bytes) : e ∈ t.items.map Scored.ele ↔ ∃ v, t.given e = some v := by
  have hagree := t.agree e
  rw [← not_iff_not, ← scoreOf_eq_none_iff]
  cases hv : t.given e with
  | none =>
      rw [hv, Option.map_none, eq_comm, Option.map_eq_none_iff] at hagree
      simp [hagree]
  | some v =>
      rw [hv, Option.map_some] at hagree
      cases hx : scoreOf t.items e with
      | none =>
          rw [hx] at hagree
          contradiction
      | some x => simp

/-- A score that was given stands for the number the member is listed with. -/
theorem number_of_given {e : Bytes} {v : LuaValue ν} (h : t.given e = some v) :
    ∃ x, numberOf v = some x ∧ ⟨e, x⟩ ∈ t.items := by
  have hagree := t.agree e
  rw [h, Option.map_some] at hagree
  cases hx : scoreOf t.items e with
  | none =>
      rw [hx] at hagree
      contradiction
  | some x =>
      rw [hx, Option.map_some, Option.some.injEq] at hagree
      exact ⟨x, hagree, (scoreOf_eq_some_iff t.sound.nodup).mp hx⟩

theorem only_agree (t : Ranked ν) {kept : List (Scored ν)} (hsub : kept.Sublist t.items) (e : Bytes) :
    (t.only kept e).map numberOf = (scoreOf kept e).map some := by
  rw [only, scoreOf_sublist hsub t.sound.nodup]
  split_ifs
  · exact t.agree e
  · rfl

/-- Some of the members. -/
def keep (t : Ranked ν) (kept : List (Scored ν)) (hsub : kept.Sublist t.items) : Ranked ν where
  given := t.only kept
  items := kept
  sound := t.sound.sublist hsub
  agree := t.only_agree hsub

omit [Score ν] in
theorem put_agree {A B : List (Scored ν)} {m : Bytes} {x : ν} {v : LuaValue ν} {given : Bytes → Option (LuaValue ν)}
    (hagree : ∀ e, e ≠ m → (given e).map numberOf = (scoreOf (A ++ B) e).map some)
    (hnd : ((A ++ ⟨m, x⟩ :: B).map Scored.ele).Nodup) (hv : numberOf v = some x) (e : Bytes) :
    (Function.update given m (some v) e).map numberOf = (scoreOf (A ++ ⟨m, x⟩ :: B) e).map some := by
  rw [scoreOf_middle hnd]
  by_cases he : e = m
  · rw [he, Function.update_self, Function.update_self, Option.map_some, hv, Option.map_some]
  · rw [Function.update_of_ne he, Function.update_of_ne he, hagree e he]

variable [LawfulScore ν]

/-- A ranking is known from the scores. -/
theorem eq_of_given {t t' : Ranked ν} (h : t.given = t'.given) : t = t' := by
  have hitems : t.items = t'.items := t.sound.eq_of_scoreOf t'.sound fun e => by
    have hagree := t.agree e
    rw [h, t'.agree e] at hagree
    exact (Option.map_injective (fun _ _ => Option.some.inj) hagree).symm
  cases t
  cases t'
  simp_all

end Ranked

end Rankings

/-! ## Steps -/

section Steps

variable {ν : Type} [Score ν] [LuaTonumber ν] {s : Zset ν} {t : Ranked ν} (rand : Zset.Draws)

theorem exec_slDelete {old : LuaValue ν} {x : ν} (hx : numberOf old = some x) (m : Bytes) :
    exec (Zset.slDelete old (.string m)) s =
      (.ok (slDelete s.sl ⟨m, x⟩).1, { s with sl := (slDelete s.sl ⟨m, x⟩).2 }) := by
  simp [Zset.slDelete, checknumber, checkstring, hx, exec_bind, -bind_pure_comp]

theorem exec_slInsert {v : LuaValue ν} {x : ν} (hx : numberOf v = some x) (m : Bytes) :
    exec (Zset.slInsert rand v (.string m)) s =
      (.ok (), { s with sl := slInsert (rand s.sl.fresh) s.sl ⟨m, x⟩ }) := by
  simp [Zset.slInsert, checknumber, checkstring, hx]

/-- A call follows the specification, and adds one member at most. -/
def Follows (s : Zset ν) (t : Ranked ν) (c : Call ν) : Prop :=
  ∃ t', c.spec t (s.step rand c).1 t' ∧ InStep (s.step rand c).2 t' ∧ t'.items.length ≤ t.items.length + 1

variable {rand}

/-- A call that changes nothing. -/
theorem follows_of_same (h : InStep s t) {c : Call ν} (hout : exec (c.run rand) s = (c.answers t, s))
    (hleaves : c.leaves t = t.given) : Follows rand s t c := by
  refine ⟨t, ⟨?_, hleaves.symm⟩, ?_, Nat.le_succ _⟩
  · rw [Zset.step, hout]
  · rw [Zset.step, hout]
    exact h

variable [LawfulScore ν]

/-- A member that was given a score can be deleted. -/
theorem InStep.delete (h : InStep s t) {m : Bytes} {old : LuaValue ν} (hold : t.given m = some old) :
    ∃ x A B, numberOf old = some x ∧ t.items = A ++ ⟨m, x⟩ :: B ∧ Lists (slDelete s.sl ⟨m, x⟩).2 (A ++ B) := by
  obtain ⟨x, hx, hmem⟩ := t.number_of_given hold
  obtain ⟨A, B, hitems⟩ := List.append_of_mem hmem
  have hlists := h.lists
  have hsound := t.sound
  rw [hitems] at hlists hsound
  exact ⟨x, A, B, hx, hitems, (hlists.delete hsound).2⟩

omit [LawfulScore ν] in
/-- The scores without one member. -/
theorem scoreOf_without (t : Ranked ν) {A B : List (Scored ν)} {a : Scored ν} (hitems : t.items = A ++ a :: B)
    {e : Bytes} (he : e ≠ a.ele) : (t.given e).map numberOf = (scoreOf (A ++ B) e).map some := by
  have hnd := t.sound.nodup
  rw [hitems] at hnd
  rw [t.agree e, hitems, scoreOf_middle hnd, Function.update_of_ne he]

theorem follows_rem (h : InStep s t) (m : LuaValue ν) : Follows rand s t (.rem m) := by
  cases m with
  | string m =>
      cases hold : t.given m with
      | none =>
          refine follows_of_same h ?_ ?_
          · simp [Call.run, Call.answers, Zset.rem, Zset.find, h.tbl, hold, exec_bind, -bind_pure_comp]
          · rw [Call.leaves, ← hold, Function.update_eq_self]
      | some old =>
          obtain ⟨x, A, B, hx, hitems, hlists⟩ := h.delete hold
          have hnd := t.sound.nodup
          rw [hitems, List.map_append, List.map_cons, List.nodup_middle, ← List.map_append, List.nodup_cons] at hnd
          have hout : exec ((Call.rem (.string m)).run rand) s =
              (.ok .nothing, ⟨(slDelete s.sl ⟨m, x⟩).2, Function.update s.tbl m none⟩) := by
            simp [Call.run, Zset.rem, Zset.find, h.tbl, hold, exec_bind, exec_slDelete hx, Zset.assign, -bind_pure_comp]
          refine ⟨⟨Function.update t.given m none, A ++ B, ?_, fun e => ?_⟩, ⟨?_, rfl⟩, ?_, ?_⟩
          · exact t.sound.sublist (hitems ▸ (List.Sublist.refl A).append (List.sublist_cons_self _ B))
          · by_cases he : e = m
            · rw [he, Function.update_self, scoreOf_eq_none_iff.mpr hnd.1]
              rfl
            · rw [Function.update_of_ne he, scoreOf_without t hitems he]
          · rw [Zset.step, hout]
            rfl
          · rw [Zset.step, hout]
            exact ⟨hlists, by rw [h.tbl]⟩
          · have hlen := congrArg List.length hitems
            simp only [List.length_append, List.length_cons] at hlen ⊢
            omega
  | _ => exact follows_of_same h (by simp [Call.run, Call.answers, Zset.rem, Zset.find, exec_bind, -bind_pure_comp]) rfl

theorem follows_add (h : InStep s t) {v m : LuaValue ν} (hproper : (Call.add v m).Proper) :
    Follows rand s t (.add v m) := by
  cases m with
  | string m =>
      obtain ⟨x, hx, hnumber⟩ := hproper.resolve_right fun hno => hno m rfl
      have hanswer : (Call.add v (.string m)).answers t = .ok .nothing := by
        rw [Call.answers, checknumber, hx]
        rfl
      cases hold : t.given m with
      | none =>
          have hnew : m ∉ t.items.map Scored.ele := by
            rw [t.mem_iff, hold]
            rintro ⟨_, hv⟩
            contradiction
          obtain ⟨A, B, hitems, hsound, hlists⟩ := h.lists.insert_new t.sound (rand s.sl.fresh) (a := ⟨m, x⟩) hnumber hnew
          have hout : exec ((Call.add v (.string m)).run rand) s =
              (.ok .nothing, ⟨slInsert (rand s.sl.fresh) s.sl ⟨m, x⟩, Function.update s.tbl m (some v)⟩) := by
            simp [Call.run, Zset.add, Zset.find, h.tbl, hold, exec_bind, exec_slInsert rand hx, Zset.assign, -bind_pure_comp]
          have hagree := Ranked.put_agree (fun e _ => hitems ▸ t.agree e) hsound.nodup hx
          refine ⟨⟨_, A ++ ⟨m, x⟩ :: B, hsound, hagree⟩, ⟨?_, ?_⟩, ?_, ?_⟩
          · rw [Zset.step, hout, hanswer]
          · rw [Call.leaves, hold]
            rfl
          · rw [Zset.step, hout]
            exact ⟨hlists, by rw [h.tbl]⟩
          · have hlen := congrArg List.length hitems
            simp only [List.length_append, List.length_cons] at hlen ⊢
            omega
      | some old =>
          cases heq : Zset.luaEq old v with
          | true =>
              refine follows_of_same h ?_ ?_
              · rw [hanswer]
                simp [Call.run, Zset.add, Zset.find, h.tbl, hold, heq, exec_bind, -bind_pure_comp]
              · rw [Call.leaves, hold, Option.any_some, heq, if_pos rfl]
          | false =>
              -- the member moves: out of its old place, into its new one
              obtain ⟨y, A, B, hy, hitems, hlists⟩ := h.delete hold
              have hnd := t.sound.nodup
              rw [hitems, List.map_append, List.map_cons, List.nodup_middle, ← List.map_append, List.nodup_cons] at hnd
              have hsub := t.sound.sublist (hitems ▸ (List.Sublist.refl A).append (List.sublist_cons_self _ B))
              obtain ⟨A', B', hrest, hsound, hlists'⟩ := hlists.insert_new hsub
                (rand (slDelete s.sl ⟨m, y⟩).2.fresh) (a := ⟨m, x⟩) hnumber hnd.1
              have hout : exec ((Call.add v (.string m)).run rand) s =
                  (.ok .nothing, ⟨slInsert (rand (slDelete s.sl ⟨m, y⟩).2.fresh) (slDelete s.sl ⟨m, y⟩).2 ⟨m, x⟩,
                    Function.update s.tbl m (some v)⟩) := by
                simp [Call.run, Zset.add, Zset.find, h.tbl, hold, heq, exec_bind, exec_slDelete hy,
                  exec_slInsert rand hx, Zset.assign, -bind_pure_comp]
              have hwithout : ∀ e, e ≠ m → (t.given e).map numberOf = (scoreOf (A' ++ B') e).map some :=
                fun e he => hrest ▸ scoreOf_without t hitems he
              have hagree := Ranked.put_agree hwithout hsound.nodup hx
              refine ⟨⟨_, A' ++ ⟨m, x⟩ :: B', hsound, hagree⟩, ⟨?_, ?_⟩, ?_, ?_⟩
              · rw [Zset.step, hout, hanswer]
              · rw [Call.leaves, hold, Option.any_some, heq, if_neg Bool.false_ne_true]
              · rw [Zset.step, hout]
                exact ⟨hlists', by rw [h.tbl]⟩
              · have hlen := congrArg List.length hitems
                have hlen' := congrArg List.length hrest
                simp only [List.length_append, List.length_cons] at hlen hlen' ⊢
                omega
  | _ =>
      refine follows_of_same h ?_ rfl
      cases hv : numberOf v <;>
        simp [Call.run, Call.answers, Zset.add, Zset.find, Zset.slInsert, checknumber, checkstring, hv, exec_bind,
          -bind_pure_comp] <;> rfl

omit [Score ν] [LuaTonumber ν] [LawfulScore ν] in
theorem foldl_forget (removed : List (Scored ν)) (tbl : Bytes → Option (LuaValue ν)) (e : Bytes) :
    removed.foldl (fun (tbl : Bytes → Option (LuaValue ν)) n => Function.update tbl n.ele none) tbl e =
      if e ∈ removed.map Scored.ele then none else tbl e := by
  induction removed generalizing tbl with
  | nil => rfl
  | cons a removed ih =>
      rw [List.foldl_cons, ih, List.map_cons]
      by_cases he : e = a.ele
      · simp [he]
      · simp [he]

omit [LawfulScore ν] in
/-- What is left when a part is taken out of the table. -/
theorem Ranked.only_of_cut {A R B : List (Scored ν)} (hitems : t.items = A ++ (R ++ B)) :
    R.foldl (fun (tbl : Bytes → Option (LuaValue ν)) n => Function.update tbl n.ele none) t.given =
      t.only (A ++ B) := by
  funext e
  have hmem := t.mem_iff e
  have hnd := t.sound.nodup
  rw [hitems] at hmem hnd
  simp only [List.map_append, List.nodup_append, List.mem_append] at hmem hnd
  rw [foldl_forget, Ranked.only, List.map_append]
  simp only [List.mem_append]
  by_cases hR : e ∈ R.map Scored.ele
  · have hA : e ∉ A.map Scored.ele := fun hA => hnd.2.2 e hA e (.inl hR) rfl
    have hB : e ∉ B.map Scored.ele := fun hB => hnd.2.1.2.2 e hR e hB rfl
    rw [if_pos hR, if_neg (by tauto)]
  · rw [if_neg hR]
    split_ifs with hkept
    · rfl
    · cases hv : t.given e with
      | none => rfl
      | some v => exact absurd (hmem.mpr ⟨v, hv⟩) (by tauto)

omit [LawfulScore ν] in
/-- **Deleting by rank**, whichever bound comes first. -/
theorem InStep.deleteByRank (h : InStep s t) {start stop : Int} {a b : Nat}
    (ha : min (unsigned start) (unsigned stop) = a) (hb : max (unsigned start) (unsigned stop) = b)
    {kept : List (Scored ν)} (hkept : t.items.take (a - 1) ++ t.items.drop (max (a - 1) b) = kept) :
    ∃ (hsub : kept.Sublist t.items) (s' : Zset ν),
      exec (Zset.deleteByRank start stop) s = (.ok (t.items.length - kept.length), s') ∧
        InStep s' (t.keep kept hsub) := by
  subst hkept
  obtain ⟨hremoved, hlists⟩ := h.lists.deleteByRank a b
  -- the part between the two that are kept
  have hcut : t.items = t.items.take (a - 1) ++
      ((t.items.drop (a - 1)).take (b - (a - 1)) ++ t.items.drop (max (a - 1) b)) := by
    have hrest : t.items.drop (max (a - 1) b) = (t.items.drop (a - 1)).drop (b - (a - 1)) := by
      rw [List.drop_drop]
      congr 1
      omega
    rw [hrest, List.take_append_drop, List.take_append_drop]
  have hsub : (t.items.take (a - 1) ++ t.items.drop (max (a - 1) b)).Sublist t.items := by
    conv_rhs => rw [hcut]
    exact (List.Sublist.refl _).append (List.sublist_append_right _ _)
  refine ⟨hsub, ⟨(slDeleteByRank s.sl a b).2, t.only _⟩, ?_, hlists, rfl⟩
  have hlow : (if unsigned start > unsigned stop then unsigned stop else unsigned start) = a := by split_ifs <;> omega
  have hhigh : (if unsigned start > unsigned stop then unsigned start else unsigned stop) = b := by split_ifs <;> omega
  have hlen : (slDeleteByRank s.sl a b).1.length =
      t.items.length - (t.items.take (a - 1) ++ t.items.drop (max (a - 1) b)).length := by
    have htotal := congrArg List.length hcut
    rw [hremoved]
    simp only [List.length_append] at htotal ⊢
    omega
  simp only [Zset.deleteByRank, exec_bind, exec_get, exec_set, exec_pure, hlow, hhigh, hlen, h.tbl]
  rw [hremoved, ← Ranked.only_of_cut hcut]

omit [LawfulScore ν] in
theorem Ranked.only_items (t : Ranked ν) : t.only t.items = t.given := by
  funext e
  rw [Ranked.only]
  split_ifs with hin
  · rfl
  · cases hv : t.given e with
    | none => rfl
    | some v => exact absurd ((t.mem_iff e).mpr ⟨v, hv⟩) hin

omit [LawfulScore ν] in
/-- A call that keeps a part of the members. -/
theorem follows_of_kept {c : Call ν} {kept : List (Scored ν)} (hsub : kept.Sublist t.items) {s' : Zset ν}
    (hout : exec (c.run rand) s = (.ok (.int (t.items.length - kept.length : Nat)), s'))
    (h' : InStep s' (t.keep kept hsub)) (hanswer : c.answers t = .ok (.int (t.items.length - kept.length)))
    (hleaves : c.leaves t = t.only kept) : Follows rand s t c := by
  refine ⟨t.keep kept hsub, ⟨?_, hleaves.symm⟩, ?_, ?_⟩
  · rw [Zset.step, hout, hanswer, Int.ofNat_sub hsub.length_le]
  · rw [Zset.step, hout]
    exact h'
  · exact Nat.le_succ_of_le hsub.length_le

omit [LawfulScore ν] in
theorem exec_count (h : InStep s t) : exec Zset.count s = (.ok t.items.length, s) := by
  simp [Zset.count, exec_bind, h.lists.length_eq, -bind_pure_comp]

omit [LawfulScore ν] in
theorem exec_reverseRank (h : InStep s t) (r : Int) :
    exec (Zset.reverseRank r) s = (.ok (t.items.length - r + 1), s) := by
  simp [Zset.reverseRank, exec_bind, exec_count h, -bind_pure_comp]

omit [LawfulScore ν] in
theorem follows_limit (h : InStep s t) {n : Int} (hn : -2 ^ 26 ≤ n ∧ n ≤ 2 ^ 26)
    (hlen : t.items.length < 2 ^ 26) : Follows rand s t (.limit n) := by
  by_cases hall : (t.items.length : Int) ≤ n
  · have hkept : keptByLimit n t.items = t.items := by
      rw [keptByLimit, if_neg (by omega), List.take_of_length_le (by omega)]
    refine follows_of_same h ?_ ?_
    · simp [Call.run, Call.answers, Zset.limit, exec_bind, exec_count h, hall, hkept, -bind_pure_comp]
    · rw [Call.leaves, hkept, t.only_items]
  · have hstop : unsigned (t.items.length : Int) = t.items.length := by
      rw [unsigned_of_lt (by omega) (by omega), Int.toNat_natCast]
    obtain ⟨a, ha⟩ : ∃ a, min (unsigned (n + 1)) (unsigned (t.items.length : Int)) = a := ⟨_, rfl⟩
    obtain ⟨b, hb⟩ : ∃ b, max (unsigned (n + 1)) (unsigned (t.items.length : Int)) = b := ⟨_, rfl⟩
    have hkept : t.items.take (a - 1) ++ t.items.drop (max (a - 1) b) = keptByLimit n t.items := by
      rw [List.drop_eq_nil_of_le (by omega), List.append_nil, keptByLimit]
      split_ifs with hneg
      · -- the first rank wraps around, so the bounds change places
        have hstart : unsigned (n + 1) = (n + 1 + 2 ^ 32).toNat := by
          rw [unsigned]
          omega
        rw [List.dropLast_eq_take, show a = t.items.length by omega]
      · rw [unsigned_of_lt (by omega) (by omega)] at ha
        congr 1
        omega
    obtain ⟨hsub, s', hout, h'⟩ := h.deleteByRank ha hb hkept
    refine follows_of_kept hsub ?_ h' rfl rfl
    simp [Call.run, Zset.limit, exec_bind, exec_count h, hall, hout, -bind_pure_comp]

omit [LawfulScore ν] in
theorem follows_revLimit (h : InStep s t) {n : Int} (hn : -2 ^ 26 ≤ n ∧ n ≤ 2 ^ 26)
    (hlen : t.items.length < 2 ^ 26) : Follows rand s t (.revLimit n) := by
  by_cases hall : (t.items.length : Int) ≤ n
  · have hkept : keptByRevLimit n t.items = t.items := by
      rw [keptByRevLimit, show ((t.items.length : Int) - n).toNat = 0 by omega, List.drop_zero]
    refine follows_of_same h ?_ ?_
    · simp [Call.run, Call.answers, Zset.revLimit, exec_bind, exec_count h, hall, hkept, -bind_pure_comp]
    · rw [Call.leaves, hkept, t.only_items]
  · -- the bounds change places
    have hstart : unsigned ((t.items.length : Int) - (n + 1) + 1) = ((t.items.length : Int) - n).toNat := by
      rw [unsigned_of_lt (by omega) (by omega)]
      congr 1
      omega
    have hstop : unsigned ((t.items.length : Int) - t.items.length + 1) = 1 := by
      rw [Int.sub_self]
      rfl
    have hkept : t.items.take (1 - 1) ++ t.items.drop (max (1 - 1) ((t.items.length : Int) - n).toNat) =
        keptByRevLimit n t.items := by
      rw [Nat.sub_self, List.take_zero, List.nil_append, Nat.zero_max, keptByRevLimit]
    have ha : min (unsigned ((t.items.length : Int) - (n + 1) + 1))
        (unsigned ((t.items.length : Int) - t.items.length + 1)) = 1 := by
      rw [hstart, hstop]
      omega
    have hb : max (unsigned ((t.items.length : Int) - (n + 1) + 1))
        (unsigned ((t.items.length : Int) - t.items.length + 1)) = ((t.items.length : Int) - n).toNat := by
      rw [hstart, hstop]
      omega
    obtain ⟨hsub, s', hout, h'⟩ := h.deleteByRank ha hb hkept
    refine follows_of_kept hsub ?_ h' rfl rfl
    simp only [Call.run, Zset.revLimit, exec_bind, exec_count h, exec_reverseRank h, hall, if_false, hout, exec_pure]

omit [LawfulScore ν] in
theorem exec_range (h : InStep s t) {r1 r2 : Int} (h1 : r1 < 2 ^ 31) (h2 : r2 < 2 ^ 31) :
    exec (Zset.range r1 r2) s = (.ok ((window t.items r1 r2).map Scored.ele), s) := by
  simp only [Zset.range, exec_bind, exec_get, exec_pure, slGetRankRange_spec h.lists h1 h2]

omit [LawfulScore ν] in
/-- Where a member is listed. -/
theorem Ranked.rankOf_eq {A B : List (Scored ν)} {m : Bytes} {x : ν} (hitems : t.items = A ++ ⟨m, x⟩ :: B) :
    t.rankOf (.string m) = some (A.length + 1) := by
  have hnd := t.sound.nodup
  rw [hitems, List.map_append, List.map_cons, List.nodup_append] at hnd
  have hA : A.findIdx? (fun a => a.ele = m) = none := by
    rw [List.findIdx?_eq_none_iff]
    exact fun a ha => decide_eq_false fun heq =>
      hnd.2.2 a.ele (List.mem_map_of_mem ha) m List.mem_cons_self heq
  rw [Ranked.rankOf, hitems, List.findIdx?_append, hA, List.findIdx?_cons]
  simp

theorem exec_rank (h : InStep s t) (m : LuaValue ν) : exec (Zset.rank m) s = (.ok (t.rankOf m), s) := by
  cases m with
  | string m =>
      cases hold : t.given m with
      | none =>
          have hno : t.rankOf (.string m) = none := by
            rw [Ranked.rankOf, Option.map_eq_none_iff, List.findIdx?_eq_none_iff]
            refine fun a ha => decide_eq_false fun heq => ?_
            obtain ⟨v, hv⟩ := (t.mem_iff m).mp (heq ▸ List.mem_map_of_mem ha)
            rw [hold] at hv
            contradiction
          simp only [Zset.rank, exec_bind, exec_get, Zset.find, h.tbl, hold, exec_pure, hno]
      | some old =>
          obtain ⟨x, hx, hmem⟩ := t.number_of_given hold
          obtain ⟨A, B, hitems⟩ := List.append_of_mem hmem
          have hlists := h.lists
          have hsound := t.sound
          rw [hitems] at hlists hsound
          have hrank := hlists.getRank hsound
          simp only [Zset.rank, exec_bind, exec_get, Zset.find, h.tbl, hold, checknumber, checkstring, hx, exec_check,
            exec_pure, hrank, t.rankOf_eq hitems]
          rfl
  | _ => rfl

/-- **Every proper call follows the specification.** -/
theorem follows (h : InStep s t) {c : Call ν} (hproper : c.Proper) (hlen : t.items.length < 2 ^ 26) :
    Follows rand s t c := by
  cases c with
  | add v m => exact follows_add h hproper
  | rem m => exact follows_rem h m
  | count =>
      refine follows_of_same h ?_ rfl
      simp only [Call.run, Call.answers, exec_bind, exec_count h, exec_pure]
  | limit n => exact follows_limit h hproper hlen
  | revLimit n => exact follows_revLimit h hproper hlen
  | range r1 r2 =>
      obtain ⟨⟨-, h1⟩, -, h2⟩ := hproper
      refine follows_of_same h ?_ rfl
      simp only [Call.run, Call.answers, exec_bind, exec_range h (show r1 < 2 ^ 31 by omega) (show r2 < 2 ^ 31 by omega),
        exec_pure]
  | revRange r1 r2 =>
      obtain ⟨⟨h1, -⟩, h2, -⟩ := hproper
      refine follows_of_same h ?_ rfl
      simp only [Call.run, Call.answers, Zset.revRange, exec_bind, exec_reverseRank h, exec_pure,
        exec_range h (show (t.items.length : Int) - r1 + 1 < 2 ^ 31 by omega)
          (show (t.items.length : Int) - r2 + 1 < 2 ^ 31 by omega)]
  | rank m =>
      refine follows_of_same h ?_ rfl
      simp only [Call.run, Call.answers, exec_bind, exec_rank h, exec_pure]
  | revRank m =>
      refine follows_of_same h ?_ rfl
      cases hr : t.rankOf m <;>
        simp only [Call.run, Call.answers, Zset.revRank, exec_bind, exec_rank h, exec_reverseRank h, exec_pure, hr,
          Option.map_none, Option.map_some]
  | rangeByScore v w =>
      refine follows_of_same h ?_ rfl
      simp only [Call.run, Zset.rangeByScore]
      cases hx : checknumber 2 v with
      | error e => rw [Call.answers, hx]; rfl
      | ok x =>
          cases hy : checknumber 3 w with
          | error e => rw [Call.answers, hx, hy]; rfl
          | ok y =>
              have hanswer : (Call.rangeByScore v w).answers t = if isNaN x then
                  if t.items.getLast?.any (notBelow y) && !Score.lt (Score.ofLong 0) y then .error .segfault
                  else .ok (.members [])
                  else .ok (.members ((between t.items x y).map Scored.ele)) := by
                rw [Call.answers, hx, hy]
                rfl
              simp only [exec_bind, exec_check, exec_get, exec_pure, hanswer]
              cases hnan : isNaN x with
              | true =>
                  rw [slGetScoreRange_nan h.lists hnan, if_pos rfl]
                  split_ifs <;> rfl
              | false =>
                  have hrange : slGetScoreRange s.sl x y = .ok ((between t.items x y).map Scored.ele) := by
                    cases hle : Score.le x y with
                    | true => exact slGetScoreRange_up h.lists t.sound hle
                    | false => exact slGetScoreRange_down h.lists t.sound hnan hle
                  rw [hrange, if_neg Bool.false_ne_true]
  | score m =>
      refine follows_of_same h ?_ rfl
      have hfind : s.find m = t.find m := by
        cases m with
        | string m => rw [Zset.find, h.tbl, Ranked.find]
        | _ => rfl
      simp only [Call.run, Call.answers, Zset.score, exec_bind, exec_get, exec_pure, hfind]

end Steps

/-! ## Runs -/

section Runs

variable {ν : Type} [Score ν] [LuaTonumber ν]

theorem inStep_new : InStep (Zset.new : Zset ν) Ranked.empty := ⟨lists_slCreate, rfl⟩

variable [LawfulScore ν]

end Runs

/-- Two members, the second one below the first, and then the higher one
goes. -/
def twoMembers : List (Call Redis.Double) := [
  .add (.number (Redis.Double.ofInt 2)) (.string (ascii "a")),
  .add (.string (ascii "1")) (.string (ascii "b")),
  .revRange 1 1,
  .limit (-2)]

section NotNumbers

variable {ν : Type} [Score ν] [LuaTonumber ν] [LawfulScore ν] {s : Zset ν} {t : Ranked ν} {rand : Zset.Draws}

omit [LawfulScore ν] in
/-- No score that is a number equals one that is not. -/
theorem luaEq_eq_false {old v : LuaValue ν} {y : ν} (hy : numberOf old = some y) (hnumber : isNaN y = false)
    (hv : ∀ x, numberOf v = some x → isNaN x = true) : Zset.luaEq old v = false := by
  rw [Bool.eq_false_iff]
  intro h
  cases old <;> cases v <;> simp only [Zset.luaEq, Bool.false_eq_true] at h
  case number.number x x' =>
    have hnan := hv x' rfl
    rw [(Score.eq_iff.mp h).2.1] at hnan
    contradiction
  case string.string b b' =>
    rw [beq_iff_eq] at h
    have hnan := hv y (h ▸ hy)
    rw [hnumber] at hnan
    contradiction

omit [LuaTonumber ν] in
/-- A score that is not a number goes to the front. -/
theorem Lists.insert_nan {z : Skiplist (Scored ν)} {items : List (Scored ν)} (h : Lists z items) (draws : Nat)
    {a : Scored ν} (ha : isNaN a.score = true) : Lists (slInsert draws z a) (a :: items) := by
  refine Lists.insert (A := []) h draws (by simp) fun n _ => ?_
  rw [slSmaller, Bool.or_eq_false_iff, Bool.eq_false_iff, Bool.and_eq_false_iff]
  refine ⟨fun hlt => ?_, .inl ?_⟩
  · rw [(LawfulScore.number_of_lt hlt).2] at ha
    contradiction
  · rw [Score.eq, ha, Bool.not_true, Bool.and_false, Bool.false_and, Bool.false_and]

omit [LawfulScore ν] in
/-- No ranking has such a member. -/
theorem not_inStep_of_nan {a : Scored ν} (ha : isNaN a.score = true) {s' : Zset ν} {items : List (Scored ν)}
    (hlists : Lists s'.sl (a :: items)) : ¬ ∃ t', InStep s' t' := by
  rintro ⟨t', h'⟩
  have hitems : a :: items = t'.items := hlists.vals_eq.symm.trans h'.lists.vals_eq
  have hnumber := t'.sound.number a (hitems ▸ List.mem_cons_self)
  rw [show isNaN a.score = false from hnumber] at ha
  contradiction

/-- **Adding keeps the table and the skiplist in step** exactly when the score
is a number, or is no number at all and the member is new: a member that is
there is taken out of the skiplist before the score is looked at. -/
theorem add_inStep_iff (h : InStep s t) (v m : LuaValue ν) :
    (∃ t', InStep (s.step rand (.add v m)).2 t') ↔
      ∀ b, m = .string b → (numberOf v).elim (t.given b = none) fun x => isNaN x = false := by
  constructor
  · rintro hstep b rfl
    cases hv : numberOf v with
    | none =>
        rw [Option.elim_none]
        by_contra hsome
        obtain ⟨old, hold⟩ := Option.ne_none_iff_exists'.mp hsome
        obtain ⟨y, A, B, hy, hitems, hlists⟩ := h.delete hold
        have hnumber := t.sound.number ⟨b, y⟩ (hitems ▸ List.mem_append_right A List.mem_cons_self)
        have heq : Zset.luaEq old v = false :=
          luaEq_eq_false hy hnumber fun x hx => absurd (hv.symm.trans hx) (by simp)
        have hout : (s.step rand (.add v (.string b))).2 = ⟨(slDelete s.sl ⟨b, y⟩).2, s.tbl⟩ := by
          simp [Zset.step, Call.run, Zset.add, Zset.find, h.tbl, hold, heq, exec_bind, exec_slDelete hy, Zset.slInsert,
            checknumber, hv, -bind_pure_comp]
        obtain ⟨t', h'⟩ := hstep
        rw [hout] at h'
        -- the table still has the member, so the ranking is the same
        have hsame : t' = t := Ranked.eq_of_given (h'.tbl.symm.trans h.tbl)
        have hvals := hlists.vals_eq.symm.trans h'.lists.vals_eq
        rw [hsame, hitems] at hvals
        have hlen := congrArg List.length hvals
        simp at hlen
    | some x =>
        rw [Option.elim_some]
        by_contra hnan
        rw [Bool.not_eq_false] at hnan
        cases hold : t.given b with
        | none =>
            have hout : (s.step rand (.add v (.string b))).2.sl = slInsert (rand s.sl.fresh) s.sl ⟨b, x⟩ := by
              simp [Zset.step, Call.run, Zset.add, Zset.find, h.tbl, hold, exec_bind, exec_slInsert rand hv, Zset.assign,
                -bind_pure_comp]
            have hlists := h.lists.insert_nan (rand s.sl.fresh) (a := ⟨b, x⟩) hnan
            rw [← hout] at hlists
            exact not_inStep_of_nan (a := ⟨b, x⟩) hnan hlists hstep
        | some old =>
            obtain ⟨y, A, B, hy, hitems, hlists⟩ := h.delete hold
            have hnumber := t.sound.number ⟨b, y⟩ (hitems ▸ List.mem_append_right A List.mem_cons_self)
            have heq : Zset.luaEq old v = false :=
              luaEq_eq_false hy hnumber fun x' hx' => Option.some.inj (hv.symm.trans hx') ▸ hnan
            have hout : (s.step rand (.add v (.string b))).2.sl =
                slInsert (rand (slDelete s.sl ⟨b, y⟩).2.fresh) (slDelete s.sl ⟨b, y⟩).2 ⟨b, x⟩ := by
              simp [Zset.step, Call.run, Zset.add, Zset.find, h.tbl, hold, heq, exec_bind, exec_slDelete hy,
                exec_slInsert rand hv, Zset.assign, -bind_pure_comp]
            have hlists' := hlists.insert_nan (rand (slDelete s.sl ⟨b, y⟩).2.fresh) (a := ⟨b, x⟩) hnan
            rw [← hout] at hlists'
            exact not_inStep_of_nan (a := ⟨b, x⟩) hnan hlists' hstep
  · intro hcond
    by_cases hproper : (Call.add v m).Proper
    · obtain ⟨t', -, h', -⟩ : Follows rand s t (.add v m) := follows_add h hproper
      exact ⟨t', h'⟩
    · -- the score is not looked at before the member turns out to be new
      rw [Call.Proper, not_or, not_exists] at hproper
      obtain ⟨b, rfl⟩ : ∃ b, m = .string b := by
        by_contra hno
        exact hproper.2 fun b hb => hno ⟨b, hb⟩
      have hb := hcond b rfl
      cases hv : numberOf v with
      | some x =>
          rw [hv, Option.elim_some] at hb
          exact absurd ⟨hv, hb⟩ (hproper.1 x)
      | none =>
          rw [hv, Option.elim_none] at hb
          refine ⟨t, ?_⟩
          have hout : (s.step rand (.add v (.string b))).2 = s := by
            simp [Zset.step, Call.run, Zset.add, Zset.find, h.tbl, hb, exec_bind, Zset.slInsert, checknumber, hv,
              -bind_pure_comp]
          rw [hout]
          exact h

end NotNumbers

theorem add_inStep_iff_nan :
    ¬ ∃ t', InStep ((Zset.new : Zset Redis.Double).step (fun _ => 0)
      (.add (.number ⟨0x7ff8000000000000⟩) (.string (ascii "a")))).2 t' := by
  rw [add_inStep_iff (t := Ranked.empty) inStep_new]
  intro hcond
  have hnumber : isNaN (⟨0x7ff8000000000000⟩ : Redis.Double) = false := hcond (ascii "a") rfl
  exact absurd hnumber (by decide +kernel)

end SkynetJit.Luaclib
