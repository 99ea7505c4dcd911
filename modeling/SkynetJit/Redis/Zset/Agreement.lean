import SkynetJit.Redis.Zset.Slice
import SkynetJit.Redis.Zset.Store

/-!
# SkynetJit.Redis.Zset.Agreement

The commands that count, remove and pop against the ones that list.

Each of them walks a sorted set in a way of its own: counting subtracts ranks
on a skiplist, removal collects the range and then deletes by name, popping
deletes at one end of a structure that shrinks.

* `counts_agree` — ZCOUNT and ZLEXCOUNT count what the range lists;
* `removals_agree` — ZREMRANGEBY* remove what ZRANGE lists;
* `pops_agree`, `zmpop_agrees` — a pop takes a prefix of the listing.
-/

namespace SkynetJit.Redis

open Raise Scored
open ListInterval (limited)

variable {ν : Type} [Score ν]

/-! ## Ranges without options -/

/-- The word that asks ZRANGE for a range of a type. -/
def rangeWord : RangeType → List (LuaValue ν)
  | .score => [.string (ascii "byscore")]
  | .lex => [.string (ascii "bylex")]
  | _ => []

/-- Without a limit a range is all the elements it describes. -/
theorem limitSlice_all {α : Type} (l : List α) : limitSlice 0 (-1) l = l := by
  simp [limitSlice, limited]

omit [Score ν] in
theorem rlCheck_handle (kind : Kind) (id : Nat) (args : List (LuaValue ν)) :
    rlCheck (.handle kind id :: args) 1 kind = .ok id :=
  rlCheckValue_handle kind id

/-- Options without LIMIT, WITHSCORES and REV leave the bounds to be read. -/
theorem zrangeArgs_forward {rangetype : RangeType} {direction : RangeDirection} {args : List (LuaValue ν)}
    {id : Nat} {o : ZrangeOptions} (hid : rlCheck args 1 .zset = .ok id)
    (ho : zrangeOptions false (args.drop 3) { rangetype, direction } = .ok o) (hlimit : o.limit = -1)
    (hwith : o.withscores = false) (hdirection : o.direction ≠ .reverse) :
    zrangeArgs false rangetype direction args =
      (rlCheckrange o.rangetype args 2 3).map fun range => (id, range, o) := by
  cases hrange : rlCheckrange o.rangetype args 2 3 <;>
    simp_all [zrangeArgs, bind, Except.bind, pure, Except.pure, Except.map]

/-- The options that the word leaves. -/
def wordOptions (rangetype : RangeType) : ZrangeOptions where
  rangetype := if rangetype = .rank then .auto else rangetype
  direction := .auto

/-- The arguments of ZRANGE with a handle, two bounds and a type. -/
theorem zrangeArgs_word (rangetype : RangeType) (id : Nat) (v w : LuaValue ν) :
    zrangeArgs false .auto .auto (.handle .zset id :: v :: w :: rangeWord rangetype) =
      (rlCheckrange rangetype [.handle .zset id, v, w] 2 3).map fun range =>
        (id, range, wordOptions rangetype) := by
  have hopts : zrangeOptions false (rangeWord rangetype : List (LuaValue ν))
      { rangetype := .auto, direction := .auto } = .ok (wordOptions rangetype) := by
    cases rangetype <;> rfl
  rw [zrangeArgs_forward (rlCheck_handle .zset id (v :: w :: rangeWord rangetype)) hopts rfl rfl
    (by simp [wordOptions])]
  cases rangetype <;> rfl

/-- The elements that a range describes, the bounds as they are. -/
def Zrange.elements (range : Zrange ν) (items : List (Scored ν)) : List (Scored ν) :=
  range.slice false 0 (-1) items

section Listing

variable [LawfulScore ν] {s : Zsets ν} {id : Nat}

/-- **ZRANGE** without a limit lists the elements of the range. -/
theorem exec_lzrange_word {rangetype : RangeType} {v w : LuaValue ν} {range : Zrange ν}
    (hwf : (s .zset id).Wf) (hlex : rangetype = .lex → EqualScores (s .zset id).items)
    (hrange : rlCheckrange rangetype [.handle .zset id, v, w] 2 3 = .ok range) :
    exec (lzrange (.handle .zset id :: v :: w :: rangeWord rangetype)) s =
      (.ok (flatReply false (range.elements (s .zset id).items)), s) := by
  have hargs := zrangeArgs_word rangetype id v w
  rw [hrange] at hargs
  refine (zrange_replies_slice .auto .auto hargs hwf fun h => hlex ?_).2.2
  cases rangetype <;> simp_all [wordOptions]

omit [LawfulScore ν] in
/-- A range that is refused. -/
theorem exec_lzrange_word_error {rangetype : RangeType} {v w : LuaValue ν} {e : LuaError}
    (hrange : rlCheckrange rangetype [.handle .zset id, v, w] 2 3 = .error e) :
    exec (lzrange (.handle .zset id :: v :: w :: rangeWord rangetype)) s = (.error e, s) := by
  rw [lzrange, zrangeRead, exec_readZset, zrangeArgs_word, hrange]
  rfl

/-- The elements to be removed are those of the range. -/
theorem rlCollectRange_eq {rangetype : RangeType} {args : List (LuaValue ν)} {range : Zrange ν}
    (hrange : rlCheckrange rangetype args 2 3 = .ok range) {zobj : ZsetObj ν} (hwf : zobj.Wf)
    (hlex : rangetype = .lex → EqualScores zobj.items) :
    rlCollectRange zobj range = (range.elements zobj.items).map Scored.ele := by
  obtain ⟨hread, htype⟩ := readsOff_rlCheckrange hrange
  unfold Zrange.elements Zrange.slice
  cases range with
  | rank start stop =>
      simp only [rlCollectRange, zsetLength_eq hwf, directed, Bool.false_eq_true, if_false, rankSlice_eq]
      cases hrank : sanitizeRank zobj.items.length start stop with
      | none => rfl
      | some bounds => exact collectRank_eq hwf (sanitizeRank_lt hrank).1 bounds.2
  | score spec =>
      have hfits := Zrangespec.fits (number_rlRangebound hread.1) (number_rlRangebound hread.2) hwf.sound
      simp [rlCollectRange, RangeTests.collectRange_eq hwf hfits, select_score_eq, limitSlice_all, directed]
  | lex spec =>
      have hfits := spec.fits hwf.sound (hlex htype)
      simp [rlCollectRange, RangeTests.collectRange_eq hwf hfits, select_lex_eq, limitSlice_all, directed]

end Listing

/-! ## Counting -/

/-- Two commands raise the same error, or the second replies with the number of
the elements that the first lists. -/
def CountsListing (list count : Command (Zsets ν) (Reply ν)) (s : Zsets ν) : Prop :=
  (∃ e, exec list s = (.error e, s) ∧ exec count s = (.error e, s)) ∨
    ∃ items, exec list s = (.ok (flatReply false items), s) ∧ exec count s = (.ok (.int items.length), s)

section Counting

variable {s : Zsets ν} {id : Nat}

theorem exec_lzcount (v w : LuaValue ν) :
    exec (lzcount [.handle .zset id, v, w]) s =
      ((rlCheckrangespec [.handle .zset id, v, w] 2 3).map fun spec =>
        .int (spec.tests.countRange (s .zset id)), s) := by
  rw [lzcount, exec_readZset, rlCheck, luaArg]
  cases rlCheckrangespec [.handle .zset id, v, w] 2 3 <;> rfl

theorem exec_lzlexcount (v w : LuaValue ν) :
    exec (lzlexcount [.handle .zset id, v, w]) s =
      ((rlChecklexrange [.handle .zset id, v, w] 2 3).map fun spec =>
        .int (spec.tests.countRange (s .zset id)), s) := by
  rw [lzlexcount, exec_readZset, rlCheck, luaArg]
  cases rlChecklexrange [.handle .zset id, v, w] 2 3 <;> rfl

variable [LawfulScore ν]

/-- ZCOUNT and ZRANGEBYSCORE. -/
theorem countsListing_score (hwf : (s .zset id).Wf) (v w : LuaValue ν) :
    CountsListing (lzrangebyscore [.handle .zset id, v, w]) (lzcount [.handle .zset id, v, w]) s := by
  have hargs : zrangeArgs false .score .forward [.handle .zset id, v, w] = _ :=
    zrangeArgs_forward (rlCheck_handle .zset id _) rfl rfl rfl nofun
  rw [CountsListing, exec_lzcount]
  cases hspec : rlCheckrangespec [.handle .zset id, v, w] 2 3 with
  | error e =>
      rw [rlCheckrange, hspec] at hargs
      refine .inl ⟨e, ?_, rfl⟩
      rw [lzrangebyscore, zrangeRead, exec_readZset, hargs]
      rfl
  | ok spec =>
      have hrange : rlCheckrange .score [.handle .zset id, v, w] 2 3 = .ok (.score spec) := by
        rw [rlCheckrange, hspec]
        rfl
      rw [hrange] at hargs
      obtain ⟨hread, -⟩ := readsOff_rlCheckrange hrange
      have hfits := Zrangespec.fits (number_rlRangebound hread.1) (number_rlRangebound hread.2) hwf.sound
      refine .inr ⟨_, (zrange_replies_slice .score .forward hargs hwf (fun h => by contradiction)).2.2, ?_⟩
      simp [Except.map, RangeTests.countRange_eq hwf hfits, select_score_eq, Zrange.slice, directed,
        limitSlice_all]

/-- ZLEXCOUNT and ZRANGEBYLEX. -/
theorem countsListing_lex (hwf : (s .zset id).Wf) (hlex : EqualScores (s .zset id).items) (v w : LuaValue ν) :
    CountsListing (lzrangebylex [.handle .zset id, v, w]) (lzlexcount [.handle .zset id, v, w]) s := by
  have hargs : zrangeArgs false .lex .forward [.handle .zset id, v, w] = _ :=
    zrangeArgs_forward (rlCheck_handle .zset id _) rfl rfl rfl nofun
  rw [CountsListing, exec_lzlexcount]
  cases hspec : rlChecklexrange [.handle .zset id, v, w] 2 3 with
  | error e =>
      rw [rlCheckrange, hspec] at hargs
      refine .inl ⟨e, ?_, rfl⟩
      rw [lzrangebylex, zrangeRead, exec_readZset, hargs]
      rfl
  | ok spec =>
      have hrange : rlCheckrange .lex [.handle .zset id, v, w] 2 3 = .ok (.lex spec) := by
        rw [rlCheckrange, hspec]
        rfl
      rw [hrange] at hargs
      refine .inr ⟨_, (zrange_replies_slice .lex .forward hargs hwf fun _ => hlex).2.2, ?_⟩
      simp [Except.map, RangeTests.countRange_eq hwf (spec.fits hwf.sound hlex), select_lex_eq, Zrange.slice,
        directed, limitSlice_all]

/-- **Counting** agrees with listing: for all bounds, and for all that are
refused. -/
theorem counts_agree (hwf : (s .zset id).Wf) (v w : LuaValue ν) :
    CountsListing (lzrangebyscore [.handle .zset id, v, w]) (lzcount [.handle .zset id, v, w]) s ∧
      (EqualScores (s .zset id).items →
        CountsListing (lzrangebylex [.handle .zset id, v, w]) (lzlexcount [.handle .zset id, v, w]) s) :=
  ⟨countsListing_score hwf v w, fun hlex => countsListing_lex hwf hlex v w⟩

end Counting

/-- The handle, the first score and the last one. -/
def oneToThree : List (LuaValue Double) :=
  [.handle .zset 0, .number ⟨0x3ff0000000000000⟩, .number ⟨0x4008000000000000⟩]

theorem allWf_oneTwoThree : AllWf oneTwoThree :=
  keeps_lzaddGeneric _ _ _ _ fun _ _ => wf_zsetTypeCreate 0 0

theorem counts_agree_sample : CountsListing (lzrangebyscore oneToThree) (lzcount oneToThree) oneTwoThree :=
  (counts_agree (allWf_oneTwoThree .zset 0) _ _).1

/-! ## Removing -/

section Removing

variable [LawfulScore ν]

omit [Score ν] [LawfulScore ν] in
theorem filter_ele_ne {l : List (Scored ν)} {ele : Bytes} (h : ele ∉ l.map Scored.ele) :
    (l.filter fun a => a.ele ≠ ele) = l := by
  refine List.filter_eq_self.mpr fun a ha => decide_eq_true ?_
  rintro rfl
  exact h (List.mem_map_of_mem ha)

/-- Deleting an element keeps the others as they are. -/
theorem items_zsetDel {zobj : ZsetObj ν} (h : zobj.Wf) (ele : Bytes) :
    (zsetDel zobj ele).2.items = zobj.items.filter fun a => a.ele ≠ ele := by
  have hdel := zsetDel_spec h ele
  cases hscore : scoreOf zobj.items ele with
  | none =>
      rw [hdel.keeps (by rw [hdel.found, hscore]; rfl), filter_ele_ne (scoreOf_eq_none_iff.mp hscore)]
  | some x =>
      have hperm := hdel.perm x hscore
      have hnd := (hperm.map Scored.ele).nodup_iff.mp h.sound.nodup
      refine hdel.wf.sound.eq_of_perm (h.sound.sublist List.filter_sublist) ?_
      have hkeep := hperm.filter fun a => a.ele ≠ ele
      rw [List.filter_cons, if_neg (by simp), filter_ele_ne (List.nodup_cons.mp hnd).1] at hkeep
      exact hkeep.symm

/-- Deleting elements one after the other. -/
theorem items_zsetDelAll (members : List Bytes) {zobj : ZsetObj ν} (h : zobj.Wf) :
    (zsetDelAll zobj members).items = zobj.items.filter fun a => a.ele ∉ members := by
  induction members generalizing zobj with
  | nil => simp [zsetDelAll]
  | cons ele members ih =>
      have hrest := ih (zsetDel_spec h ele).wf
      rw [items_zsetDel h, List.filter_filter] at hrest
      rw [zsetDelAll, List.foldl_cons, ← zsetDelAll, hrest]
      refine List.filter_congr fun a _ => ?_
      simp [Bool.and_comm]

end Removing

/-- Two commands raise the same error and change nothing, or the second removes
the elements that the first lists, keeps all others as they are, and replies
with the number. -/
def RemovesListing (list remove : Command (Zsets ν) (Reply ν)) (s : Zsets ν) (id : Nat) : Prop :=
  (∃ e, exec list s = (.error e, s) ∧ exec remove s = (.error e, s)) ∨
    ∃ items s', items.Sublist (s .zset id).items ∧ exec list s = (.ok (flatReply false items), s) ∧
      exec remove s = (.ok (.int items.length), s') ∧ (s' .zset id).Wf ∧
      (s' .zset id).items = (s .zset id).items.filter (fun a => a.ele ∉ items.map Scored.ele) ∧
      ∀ kind i, (kind, i) ≠ (.zset, id) → s' kind i = s kind i

section Removing

variable [LawfulScore ν] {s : Zsets ν} {id : Nat}

omit [LawfulScore ν] in
theorem exec_lzremrangeGeneric (rangetype : RangeType) (v w : LuaValue ν) :
    exec (lzremrangeGeneric rangetype [.handle .zset id, v, w]) s =
      match rlCheckrange rangetype [.handle .zset id, v, w] 2 3 with
      | .error e => (.error e, s)
      | .ok range =>
          (.ok (.int (rlCollectRange (s .zset id) range).length),
            s.put .zset id (zsetDelAll (s .zset id) (rlCollectRange (s .zset id) range))) := by
  rw [lzremrangeGeneric, exec_onZset, rlCheck, luaArg]
  cases rlCheckrange rangetype [.handle .zset id, v, w] 2 3 <;> rfl

omit [LawfulScore ν] in
theorem Zrange.elements_sublist (range : Zrange ν) (items : List (Scored ν)) :
    (range.elements items).Sublist items := by
  cases range with
  | rank start stop => exact (List.drop_sublist _ _).trans (List.take_sublist _ _)
  | score spec =>
      rw [elements, slice, limitSlice_all]
      exact List.filter_sublist
  | lex spec =>
      rw [elements, slice, limitSlice_all]
      exact List.filter_sublist

/-- **Removing** a range agrees with reading it: by rank, by score and by name,
for all bounds, and for all that are refused. -/
theorem removals_agree (rangetype : RangeType) (hwf : (s .zset id).Wf)
    (hlex : rangetype = .lex → EqualScores (s .zset id).items) (v w : LuaValue ν) :
    RemovesListing (lzrange (.handle .zset id :: v :: w :: rangeWord rangetype))
      (lzremrangeGeneric rangetype [.handle .zset id, v, w]) s id := by
  rw [RemovesListing, exec_lzremrangeGeneric]
  cases hrange : rlCheckrange rangetype [.handle .zset id, v, w] 2 3 with
  | error e => exact .inl ⟨e, exec_lzrange_word_error hrange, rfl⟩
  | ok range =>
      have hcollect := rlCollectRange_eq hrange hwf hlex
      refine .inr ⟨range.elements (s .zset id).items,
        s.put .zset id (zsetDelAll (s .zset id) (rlCollectRange (s .zset id) range)),
        range.elements_sublist _, exec_lzrange_word hwf hlex hrange, ?_, ?_, ?_, ?_⟩
      · simp only [hcollect, List.length_map]
      · rw [Zsets.put_self]
        exact wf_zsetDelAll _ hwf
      · rw [Zsets.put_self, items_zsetDelAll _ hwf, hcollect]
      · exact fun kind i hne => s.put_of_ne _ hne

end Removing

theorem removals_agree_sample :
    RemovesListing (lzrange (oneToThree ++ rangeWord .score)) (lzremrangebyscore oneToThree) oneTwoThree 0 :=
  removals_agree .score (allWf_oneTwoThree .zset 0) nofun _ _

/-! ## Popping -/

/-- ZRANGE for ZPOPMIN, and ZREVRANGE for ZPOPMAX. -/
def listing : PopEnd → List (LuaValue ν) → Command (Zsets ν) (Reply ν)
  | .min => lzrange
  | .max => lzrevrange

/-- Elements popped off a sorted set: they stood in front of what is left. -/
structure Pops (side : PopEnd) (count : Int) (s s' : Zsets ν) (id : Nat) (popped : List (Scored ν)) : Prop where
  wf : (s' .zset id).Wf
  split : directed (side == .max) (s .zset id).items = popped ++ directed (side == .max) (s' .zset id).items
  length : popped.length = min count.toNat (s .zset id).items.length
  others : ∀ kind i, (kind, i) ≠ (.zset, id) → s' kind i = s kind i

section Popping

variable [LawfulScore ν]

omit [Score ν] [LawfulScore ν] in
theorem length_directed {α : Type} (reverse : Bool) (l : List α) : (directed reverse l).length = l.length := by
  cases reverse <;> simp [directed]

omit [LawfulScore ν] in
/-- The end of a sorted set, which each encoding finds in its own way. -/
theorem popEdge_eq (side : PopEnd) {zobj : ZsetObj ν} (h : zobj.Wf) :
    popEdge side zobj = (directed (side == .max) zobj.items).head? := by
  cases zobj with
  | listpack zl => cases side <;> simp [popEdge, directed, ZsetObj.items, zzlItems]
  | skiplist zs =>
      obtain ⟨L, hL⟩ := h
      have hitems : (ZsetObj.skiplist zs).items = L.map zs.item := hL.items_eq
      have hnext : (zs.zsl.header 0).forward = L.head? := hL.rep.next_eq (A := [])
      cases side <;> simp [popEdge, directed, hitems, hnext, hL.rep.tail]

/-- Without the element at its end, the rest of the list is left. -/
theorem directed_zsetDel (reverse : Bool) {zobj : ZsetObj ν} (h : zobj.Wf) {a : Scored ν}
    {rest : List (Scored ν)} (hedge : directed reverse zobj.items = a :: rest) :
    directed reverse (zsetDel zobj a.ele).2.items = rest := by
  have hnd : ((directed reverse zobj.items).map Scored.ele).Nodup := by
    cases reverse
    · exact h.sound.nodup
    · simpa [directed] using h.sound.nodup
  have hfilter : directed reverse (zobj.items.filter fun a' => a'.ele ≠ a.ele) =
      (directed reverse zobj.items).filter fun a' => a'.ele ≠ a.ele := by
    cases reverse <;> simp [directed, List.filter_reverse]
  rw [hedge, List.map_cons, List.nodup_cons] at hnd
  rw [items_zsetDel h, hfilter, hedge, List.filter_cons, if_neg (by simp), filter_ele_ne hnd.1]

/-- The popping loop takes elements off one end. -/
theorem popLoop_eq (side : PopEnd) (n : Nat) {zobj : ZsetObj ν} (h : zobj.Wf) :
    (popLoop side n zobj).1 = (directed (side == .max) zobj.items).take n ∧
      directed (side == .max) (popLoop side n zobj).2.items = (directed (side == .max) zobj.items).drop n := by
  induction n generalizing zobj with
  | zero => simp [popLoop]
  | succ n ih =>
      rw [popLoop, popEdge_eq side h]
      cases hedge : directed (side == .max) zobj.items with
      | nil => simp [hedge]
      | cons a rest =>
          obtain ⟨hpopped, hrest⟩ := ih (zsetDel_spec h a.ele).wf
          rw [directed_zsetDel _ h hedge] at hpopped hrest
          simp [hpopped, hrest]

/-- **Popping** from the object behind a handle. -/
theorem pops_rlPopCollect (side : PopEnd) (count : Int) {s : Zsets ν} {id : Nat} (hwf : (s .zset id).Wf) :
    Pops side count s (s.put .zset id (rlPopCollect side count (s .zset id)).2) id
      (rlPopCollect side count (s .zset id)).1 := by
  have hlen := zsetLength_eq hwf
  obtain ⟨hpopped, hrest⟩ := popLoop_eq side
    (if count > zsetLength (s .zset id) then zsetLength (s .zset id) else count.toNat) hwf
  constructor
  case wf =>
    rw [Zsets.put_self]
    exact wf_popLoop side _ hwf
  case split => rw [Zsets.put_self, rlPopCollect, hpopped, hrest, List.take_append_drop]
  case length =>
    rw [rlPopCollect, hpopped, List.length_take, length_directed, hlen]
    split_ifs <;> omega
  case others => exact fun kind i hne => s.put_of_ne _ hne

omit [LawfulScore ν] in
/-- From the first rank to the last, with the scores. -/
theorem zrangeArgs_whole {rangetype : RangeType} (hrank : rangetype = .auto ∨ rangetype = .rank)
    (direction : RangeDirection) (id : Nat) {v w : LuaValue ν} (hv : rlTolong (some v) = some 0)
    (hw : rlTolong (some w) = some (-1)) :
    zrangeArgs false rangetype direction [.handle .zset id, v, w, .string (ascii "withscores")] =
      .ok (id, .rank 0 (-1), { rangetype, direction, withscores := true }) := by
  refine zrangeArgs_eq_ok_iff.mpr ⟨rlCheck_handle .zset id _, rfl, by simp, ?_, ?_⟩
  · rcases hrank with rfl | rfl <;> simp
  · rcases hrank with rfl | rfl <;> simp [rlCheckrange, rlChecklong, luaArg, hv, hw, bind, Except.bind, pure, Except.pure]

/-- The whole of a sorted set, with the scores. -/
theorem exec_listing (side : PopEnd) {s : Zsets ν} {id : Nat} (hwf : (s .zset id).Wf) {v w : LuaValue ν}
    (hv : rlTolong (some v) = some 0) (hw : rlTolong (some w) = some (-1)) :
    exec (listing side [.handle .zset id, v, w, .string (ascii "withscores")]) s =
      (.ok (flatReply true (directed (side == .max) (s .zset id).items)), s) := by
  have hwhole : ∀ l : List (Scored ν), rankSlice 0 (-1) l = l := by simp [rankSlice]
  cases side with
  | min =>
      have hargs := zrangeArgs_whole (.inl rfl) .auto id hv hw
      rw [listing, lzrange, (zrange_replies_slice .auto .auto hargs hwf (fun h => by contradiction)).2.2, Zrange.slice, hwhole]
      rfl
  | max =>
      have hargs := zrangeArgs_whole (.inr rfl) .reverse id hv hw
      rw [listing, lzrevrange, (zrange_replies_slice .rank .reverse hargs hwf (fun h => by contradiction)).2.2, Zrange.slice, hwhole]
      rfl

omit [LawfulScore ν] in
theorem exec_lzpopGeneric (side : PopEnd) {s : Zsets ν} {id : Nat} {v : LuaValue ν} {n : Int}
    (hv : rlTolong (some v) = some n) (hn : 0 ≤ n) :
    exec (lzpopGeneric side [.handle .zset id, v]) s =
      (.ok (flatReply true (rlPopCollect side n (s .zset id)).1),
        s.put .zset id (rlPopCollect side n (s .zset id)).2) := by
  have hargs : zpopArgs [.handle .zset id, v] = .ok (id, n) := by
    simp [zpopArgs, rlCheck, luaArg, hv, bind, Except.bind, not_lt.mpr hn, pure, Except.pure]
  rw [lzpopGeneric, exec_onZset, hargs]

omit [LawfulScore ν] in
/-- ZMPOP looks for the first sorted set with elements. -/
theorem zmpopPick_eq {s : Zsets ν} (hs : AllWf s) (ids : List Nat) :
    zmpopPick s (ids.map (.handle .zset)) = .ok (ids.find? fun id => (s .zset id).items ≠ []) := by
  induction ids with
  | nil => rfl
  | cons id ids ih =>
      rw [List.map_cons, zmpopPick, rlCheckValue_handle, List.find?_cons]
      simp only [bind, Except.bind, zsetLength_eq (hs .zset id), List.length_eq_zero_iff, ih]
      split_ifs with hempty <;> simp [hempty, pure, Except.pure]

/-- One reply of ZMPOP: the sorted set, and its elements with their scores. -/
def zmpopReply (id : Nat) (popped : List (Scored ν)) : Reply ν :=
  .array [.object .zset id, .array (popped.map fun a => .array [.text a.ele, .double a.score])]

omit [LawfulScore ν] in
/-- **ZMPOP** pops from the first sorted set that is not empty. -/
theorem exec_lzmpop {s : Zsets ν} (hs : AllWf s) {args : List (LuaValue ν)} {ids : List Nat} {side : PopEnd}
    {count : Int} (hargs : zmpopArgs args = .ok (ids.map (.handle .zset), side, count)) :
    exec (lzmpop args) s = match ids.find? fun id => (s .zset id).items ≠ [] with
      | none => (.ok .nilReply, s)
      | some id => (.ok (zmpopReply id (rlPopCollect side count (s .zset id)).1),
          s.put .zset id (rlPopCollect side count (s .zset id)).2) := by
  rw [lzmpop, exec_check_bind, hargs]
  simp only [exec_get_bind, exec_check_bind, zmpopPick_eq hs]
  cases ids.find? fun id => (s .zset id).items ≠ [] <;> rfl

/-- **Pops agree with ranges**: ZPOPMIN and ZPOPMAX take what stands first in
the listing, and ZMPOP does so with the first sorted set that is not empty. -/
theorem pops_agree {s : Zsets ν} (hs : AllWf s) (side : PopEnd) :
    (∀ id v w, rlTolong (some v) = some 0 → rlTolong (some w) = some (-1) →
      exec (listing side [.handle .zset id, v, w, .string (ascii "withscores")]) s =
        (.ok (flatReply true (directed (side == .max) (s .zset id).items)), s)) ∧
    (∀ id v n, rlTolong (some v) = some n → 0 ≤ n → ∃ popped s',
      exec (lzpopGeneric side [.handle .zset id, v]) s = (.ok (flatReply true popped), s') ∧
        Pops side n s s' id popped) ∧
    ∀ args ids count, zmpopArgs args = .ok (ids.map (.handle .zset), side, count) →
      ((∀ id ∈ ids, (s .zset id).items = []) ∧ exec (lzmpop args) s = (.ok .nilReply, s)) ∨
        ∃ before id after popped s', ids = before ++ id :: after ∧
          (∀ i ∈ before, (s .zset i).items = []) ∧ (s .zset id).items ≠ [] ∧
          exec (lzmpop args) s = (.ok (zmpopReply id popped), s') ∧ Pops side count s s' id popped := by
  refine ⟨fun id v w hv hw => exec_listing side (hs .zset id) hv hw, fun id v n hv hn => ?_,
    fun args ids count hargs => ?_⟩
  · exact ⟨_, _, exec_lzpopGeneric side hv hn, pops_rlPopCollect side n (hs .zset id)⟩
  · have hexec := exec_lzmpop hs hargs
    cases hfind : ids.find? fun id => (s .zset id).items ≠ [] with
    | none =>
        rw [hfind] at hexec
        exact .inl ⟨by simpa using hfind, hexec⟩
    | some id =>
        rw [hfind] at hexec
        obtain ⟨hne, before, after, hids, hempty⟩ := List.find?_eq_some_iff_append.mp hfind
        refine .inr ⟨before, id, after, _, _, hids, fun i hi => ?_, by simpa using hne, hexec,
          pops_rlPopCollect side count (hs .zset id)⟩
        simpa using hempty i hi

end Popping

theorem pops_agree_sample :
    (∃ popped s', exec (lzpopmax [.handle .zset 0, .number (⟨0x4000000000000000⟩ : Double)]) oneTwoThree =
      (.ok (flatReply true popped), s') ∧ Pops .max 2 oneTwoThree s' 0 popped) ∧
    exec (lzmpop [.table [.handle .zset 1], .string (ascii "max")]) oneTwoThree = (.ok .nilReply, oneTwoThree) := by
  obtain ⟨-, hpop, hmpop⟩ := pops_agree allWf_oneTwoThree .max
  refine ⟨hpop 0 (.number ⟨0x4000000000000000⟩) 2 rfl (by decide), ?_⟩
  obtain ⟨-, hexec⟩ | ⟨before, id, after, popped, s', hids, -, hne, -⟩ :=
    hmpop [.table [.handle .zset 1], .string (ascii "max")] [1] 1 rfl
  · exact hexec
  · have hid : id ∈ [1] := hids ▸ List.mem_append_right before List.mem_cons_self
    rw [List.mem_singleton.mp hid] at hne
    exact absurd rfl hne

end SkynetJit.Redis
