import SkynetJit.Redis.Zset.Slice

/-!
# SkynetJit.Redis.Zset.Store

The forms that store and the forms that reply.

ZRANGESTORE and the three set operations that store read the same arguments as
the forms that reply, behind the destination and without WITHSCORES, and leave
in the destination what these reply with (`stores_agree`).
-/

namespace SkynetJit.Redis

open Raise Scored

variable {ν : Type} [Score ν]

/-! ## The options -/

/-- A form that stores has no WITHSCORES. -/
theorem setopOptions_store_withscores {op : SetOp} {cardinalityOnly : Bool} {setnum : Nat}
    {args : List (LuaValue ν)} {o o' : SetopOptions ν}
    (h : setopOptions op true cardinalityOnly setnum args o = .ok o') : o'.withscores = o.withscores := by
  fun_induction setopOptions op true cardinalityOnly setnum args o
  case case1 => rw [Except.ok.inj h]
  case case3 ih => exact ih h
  case case6 ih => exact ih h
  case case9 hopt _ => exact absurd hopt.1.symm Bool.false_ne_true
  case case11 ih => exact ih h
  all_goals contradiction

theorem setopOptions_withscores_mono {op : SetOp} {store cardinalityOnly : Bool} {setnum : Nat}
    {args : List (LuaValue ν)} {o o' : SetopOptions ν}
    (h : setopOptions op store cardinalityOnly setnum args o = .ok o') (ho : o.withscores = true) :
    o'.withscores = true := by
  fun_induction setopOptions op store cardinalityOnly setnum args o
  case case1 => rwa [← Except.ok.inj h]
  case case3 ih => exact ih h ho
  case case6 ih => exact ih h ho
  case case9 ih => exact ih h rfl
  case case11 ih => exact ih h ho
  all_goals contradiction

/-- Without WITHSCORES a form that stores has the options of the other. -/
theorem setopOptions_to_store {op : SetOp} {store cardinalityOnly : Bool} {setnum : Nat}
    {args : List (LuaValue ν)} {o o' : SetopOptions ν}
    (h : setopOptions op store cardinalityOnly setnum args o = .ok o') (ho' : o'.withscores = false) :
    setopOptions op true cardinalityOnly setnum args o = .ok o' := by
  fun_induction setopOptions op store cardinalityOnly setnum args o
  case case1 => exact h
  case case3 hlen ws hws hopt ih =>
    rw [setopOptions.eq_def]
    simp only
    rw [if_pos hopt, if_neg hlen, hws]
    exact ih h
  case case6 hagg hnot hopt ih =>
    rw [setopOptions.eq_def]
    simp only
    rw [if_neg hnot, if_pos hopt, hagg]
    exact ih h
  case case9 =>
    rw [setopOptions_withscores_mono h rfl] at ho'
    contradiction
  case case11 hopt _ _ _ hlong hlimit hnot hnot' ih =>
    rw [setopOptions.eq_def]
    simp only
    rw [if_neg hnot, if_neg hnot', if_neg fun hw => Bool.false_ne_true hw.1.symm, if_pos hopt, hlong]
    simp only
    rw [if_neg hlimit]
    exact ih h
  all_goals contradiction

/-- An option word is one word. -/
theorem eqIgnoreCase_ne {opt : Bytes} {word word' : String}
    (hne : (ascii word).map lowerByte ≠ (ascii word').map lowerByte) (h : eqIgnoreCase opt word = true) :
    eqIgnoreCase opt word' = false := by
  rw [eqIgnoreCase, beq_iff_eq] at h
  rw [eqIgnoreCase, h, beq_eq_false_iff_ne]
  exact hne

/-- WITHSCORES may stand behind the other options. -/
theorem setopOptions_append_withscores {op : SetOp} {setnum : Nat} {args : List (LuaValue ν)}
    {o o' : SetopOptions ν} (h : setopOptions op false false setnum args o = .ok o') :
    setopOptions op false false setnum (args ++ [.string (ascii "withscores")]) o =
      .ok { o' with withscores := true } := by
  -- the word itself, whatever follows it
  have hword : ∀ {opt : Bytes} (rest : List (LuaValue ν)) (o : SetopOptions ν),
      eqIgnoreCase opt "withscores" = true →
      setopOptions op false false setnum (.string opt :: rest) o =
        setopOptions op false false setnum rest { o with withscores := true } := by
    intro opt rest o hopt
    have hweights : eqIgnoreCase opt "weights" = false := eqIgnoreCase_ne (by decide) hopt
    have haggregate : eqIgnoreCase opt "aggregate" = false := eqIgnoreCase_ne (by decide) hopt
    rw [setopOptions.eq_def]
    simp [hweights, haggregate, hopt]
  fun_induction setopOptions op false false setnum args o
  case case1 =>
    obtain rfl := Except.ok.inj h
    exact hword [] _ (by decide)
  case case3 hlen ws hws hopt ih =>
    rw [List.cons_append, List.cons_append, setopOptions.eq_def]
    simp only
    rw [if_pos ⟨hopt.1, trivial, List.cons_ne_nil _ _, hopt.2.2.2⟩, if_neg hlen, hws]
    exact ih h
  case case6 hagg hnot hopt ih =>
    rw [List.cons_append, List.cons_append, setopOptions.eq_def]
    simp only
    rw [if_neg fun hw => hnot ⟨hw.1, rfl, List.cons_ne_nil _ _, hw.2.2.2⟩,
      if_pos ⟨hopt.1, trivial, List.cons_ne_nil _ _, hopt.2.2.2⟩, hagg]
    exact ih h
  case case9 hopt ih =>
    rw [List.cons_append, hword _ _ hopt.2.2]
    exact ih h
  case case11 hopt _ _ _ _ _ _ _ _ => exact absurd hopt.1 Bool.false_ne_true
  all_goals contradiction

theorem zrangeOptions_of_store {args : List (LuaValue ν)} {o o' : ZrangeOptions}
    (h : zrangeOptions true args o = .ok o') :
    zrangeOptions false args o = .ok o' ∧ o'.withscores = o.withscores := by
  -- a word that the form takes for something else is not WITHSCORES
  have hother : ∀ {opt : Bytes} {word : String}, (ascii word).map lowerByte ≠ (ascii "withscores").map lowerByte →
      eqIgnoreCase opt word = true → ¬ (True ∧ eqIgnoreCase opt "withscores" = true) := by
    intro opt word hne hopt hwith
    rw [eqIgnoreCase_ne hne hopt] at hwith
    exact Bool.false_ne_true hwith.2
  fun_induction zrangeOptions true args o
  case case1 =>
    obtain rfl := Except.ok.inj h
    exact ⟨rfl, rfl⟩
  case case2 hwith _ => exact absurd hwith.1.symm Bool.false_ne_true
  case case3 hopt ih =>
    obtain ⟨offset, hoffset, h⟩ := except_bind_eq_ok.mp h
    obtain ⟨limit, hlimit, h⟩ := except_bind_eq_ok.mp h
    obtain ⟨hrest, hwith⟩ := ih offset limit h
    refine ⟨?_, hwith⟩
    rw [zrangeOptions.eq_def]
    simp only
    rw [if_neg (hother (by decide) hopt.1), if_pos hopt, hoffset, hlimit]
    exact hrest
  case case5 hlimit hopt ih =>
    obtain ⟨hrest, hwith⟩ := ih h
    refine ⟨?_, hwith⟩
    rw [zrangeOptions.eq_def]
    simp only
    rw [if_neg (hother (by decide) hopt.2), if_neg hlimit, if_pos hopt]
    exact hrest
  case case6 hlimit hrev hopt ih =>
    obtain ⟨hrest, hwith⟩ := ih h
    refine ⟨?_, hwith⟩
    rw [zrangeOptions.eq_def]
    simp only
    rw [if_neg (hother (by decide) hopt.2), if_neg hlimit, if_neg hrev, if_pos hopt]
    exact hrest
  case case7 hlimit hrev hlex hopt ih =>
    obtain ⟨hrest, hwith⟩ := ih h
    refine ⟨?_, hwith⟩
    rw [zrangeOptions.eq_def]
    simp only
    rw [if_neg (hother (by decide) hopt.2), if_neg hlimit, if_neg hrev, if_neg hlex, if_pos hopt]
    exact hrest
  all_goals contradiction

theorem zrangeOptions_withscores_mono {store : Bool} {args : List (LuaValue ν)} {o o' : ZrangeOptions}
    (h : zrangeOptions store args o = .ok o') (ho : o.withscores = true) : o'.withscores = true := by
  fun_induction zrangeOptions store args o
  case case1 => rwa [← Except.ok.inj h]
  case case2 ih => exact ih h rfl
  case case3 ih =>
    obtain ⟨offset, -, h⟩ := except_bind_eq_ok.mp h
    obtain ⟨limit, -, h⟩ := except_bind_eq_ok.mp h
    exact ih offset limit h ho
  case case5 ih => exact ih h ho
  case case6 ih => exact ih h ho
  case case7 ih => exact ih h ho
  all_goals contradiction

theorem zrangeOptions_to_store {store : Bool} {args : List (LuaValue ν)} {o o' : ZrangeOptions}
    (h : zrangeOptions store args o = .ok o') (ho' : o'.withscores = false) :
    zrangeOptions true args o = .ok o' := by
  fun_induction zrangeOptions store args o
  case case1 => exact h
  case case2 =>
    rw [zrangeOptions_withscores_mono h rfl] at ho'
    contradiction
  case case3 hopt ih =>
    obtain ⟨offset, hoffset, h⟩ := except_bind_eq_ok.mp h
    obtain ⟨limit, hlimit, h⟩ := except_bind_eq_ok.mp h
    rw [zrangeOptions.eq_def]
    simp only
    rw [if_neg fun hw => Bool.false_ne_true hw.1.symm, if_pos hopt, hoffset, hlimit]
    exact ih offset limit h
  case case5 hlimit hopt ih =>
    rw [zrangeOptions.eq_def]
    simp only
    rw [if_neg fun hw => Bool.false_ne_true hw.1.symm, if_neg hlimit, if_pos hopt]
    exact ih h
  case case6 hlimit hrev hopt ih =>
    rw [zrangeOptions.eq_def]
    simp only
    rw [if_neg fun hw => Bool.false_ne_true hw.1.symm, if_neg hlimit, if_neg hrev, if_pos hopt]
    exact ih h
  case case7 hlimit hrev hlex hopt ih =>
    rw [zrangeOptions.eq_def]
    simp only
    rw [if_neg fun hw => Bool.false_ne_true hw.1.symm, if_neg hlimit, if_neg hrev, if_neg hlex, if_pos hopt]
    exact ih h
  all_goals contradiction

/-! ## The arguments -/

/-- The arguments of a form that stores are those of the form that replies,
behind the destination and without WITHSCORES. -/
theorem setopArgs_store_iff {op : SetOp} {cmdname cmdname' : String} (v : LuaValue ν)
    {args : List (LuaValue ν)} {ids : List Nat} {o : SetopOptions ν} :
    setopArgs 2 op false cmdname' (v :: args) = .ok (ids, o) ↔
      setopArgs 1 op false cmdname args = .ok (ids, o) ∧ o.withscores = false := by
  constructor
  · intro h
    obtain ⟨keys, -, -, -, ho⟩ := setopArgs_eq_ok_iff.mp h
    exact ⟨setopArgs_of_store h, setopOptions_store_withscores ho⟩
  · rintro ⟨h, hwith⟩
    obtain ⟨keys, hlist, hkeys, hids, ho⟩ := setopArgs_eq_ok_iff.mp h
    obtain ⟨hlen, harg⟩ := rlChecklist_eq_ok_iff.mp hlist
    refine setopArgs_eq_ok_iff.mpr ⟨keys, rlChecklist_eq_ok_iff.mpr ⟨?_, harg⟩, hkeys, hids,
      setopOptions_to_store ho hwith⟩
    exact fun hlt => hlen (Nat.lt_of_succ_lt_succ hlt)

theorem setopArgs_append_withscores {op : SetOp} {cmdname : String} {args : List (LuaValue ν)}
    {ids : List Nat} {o : SetopOptions ν} (h : setopArgs 1 op false cmdname args = .ok (ids, o)) :
    setopArgs 1 op false cmdname (args ++ [.string (ascii "withscores")]) =
      .ok (ids, { o with withscores := true }) := by
  obtain ⟨keys, hlist, hkeys, hids, ho⟩ := setopArgs_eq_ok_iff.mp h
  obtain ⟨hlen, harg⟩ := rlChecklist_eq_ok_iff.mp hlist
  cases args with
  | nil => exact absurd Nat.one_pos hlen
  | cons v args =>
      refine setopArgs_eq_ok_iff.mpr ⟨keys, rlChecklist_eq_ok_iff.mpr ⟨?_, harg⟩, hkeys, hids,
        setopOptions_append_withscores ho⟩
      exact Nat.not_lt.mpr (Nat.le_add_left 1 _)

omit [Score ν] in
/-- Behind one more argument. -/
theorem luaArg_cons (v : LuaValue ν) (args : List (LuaValue ν)) {idx : Nat} (h : idx ≠ 0) :
    luaArg (v :: args) (idx + 1) = luaArg args idx := by
  obtain ⟨idx, rfl⟩ := Nat.exists_eq_succ_of_ne_zero h
  rfl

theorem rlCheckrange_cons (rangetype : RangeType) (v : LuaValue ν) (args : List (LuaValue ν))
    {imin imax : Nat} (hmin : imin ≠ 0) (hmax : imax ≠ 0) :
    rlCheckrange rangetype (v :: args) (imin + 1) (imax + 1) = rlCheckrange rangetype args imin imax := by
  cases rangetype <;>
    simp only [rlCheckrange, rlCheckrangespec, rlChecklexrange, rlChecklong, rlMember, luaArg_cons v args hmin,
      luaArg_cons v args hmax]

theorem zrangeArgs_store_iff (v : LuaValue ν) {args : List (LuaValue ν)} {id : Nat} {range : Zrange ν}
    {o : ZrangeOptions} : zrangeArgs true .auto .auto (v :: args) = .ok (id, range, o) ↔
      zrangeArgs false .auto .auto args = .ok (id, range, o) ∧ o.withscores = false := by
  have hrange : ∀ swapped : Prop, ∀ _ : Decidable swapped,
      rlCheckrange o.rangetype (v :: args) (if swapped then 4 else 3) (if swapped then 3 else 4) =
        rlCheckrange o.rangetype args (if swapped then 3 else 2) (if swapped then 2 else 3) := by
    intro swapped _
    split_ifs
    · exact rlCheckrange_cons _ v args (by decide) (by decide)
    · exact rlCheckrange_cons _ v args (by decide) (by decide)
  rw [zrangeArgs_eq_ok_iff, zrangeArgs_eq_ok_iff]
  simp only [if_true, Bool.false_eq_true, if_false, hrange]
  constructor
  · rintro ⟨hid, ho, hlimit, -, hread⟩
    obtain ⟨ho', hwith⟩ := zrangeOptions_of_store ho
    refine ⟨⟨hid, ho', hlimit, fun hlex => ?_, hread⟩, hwith⟩
    rw [hwith] at hlex
    exact Bool.false_ne_true hlex.1
  · rintro ⟨⟨hid, ho, hlimit, hlex, hread⟩, hwith⟩
    exact ⟨hid, zrangeOptions_to_store ho hwith, hlimit, hlex, hread⟩

/-! ## What is stored -/

/-- The forms that reply. -/
def readForm (qsort : CardinalitySort ν) (rand : Draws) : SetOp → List (LuaValue ν) → Command (Zsets ν) (Reply ν)
  | .union => lzunion qsort rand
  | .inter => lzinter qsort rand
  | .diff => lzdiff qsort rand

/-- The forms that store. -/
def storeForm (qsort : CardinalitySort ν) (rand : Draws) : SetOp → List (LuaValue ν) → Command (Zsets ν) (Reply ν)
  | .union => lzunionstore qsort rand
  | .inter => lzinterstore qsort rand
  | .diff => lzdiffstore qsort rand

/-- The name under which an operation reports. -/
def SetOp.cmdname : SetOp → String
  | .union => "zunion"
  | .inter => "zinter"
  | .diff => "zdiff"

/-- The destination has the elements, each with a numerically equal score, and
no other object is changed. -/
structure StoredAt (s s' : Zsets ν) (dst : Nat) (items : List (Scored ν)) : Prop where
  scores : SameScores (s' .zset dst).items items
  card : (s' .zset dst).items.length = items.length
  frame : ∀ kind id, (kind, id) ≠ (Kind.zset, dst) → s' kind id = s kind id

theorem readForm_eq (qsort : CardinalitySort ν) (rand : Draws) (op : SetOp) (args : List (LuaValue ν)) :
    readForm qsort rand op args = setopRead qsort rand op op.cmdname args := by cases op <;> rfl

theorem storeForm_eq (qsort : CardinalitySort ν) (rand : Draws) (op : SetOp) (args : List (LuaValue ν)) :
    ∃ cmdname, storeForm qsort rand op args = setopStore qsort rand op cmdname args := by
  cases op with
  | union => exact ⟨_, rfl⟩
  | inter => exact ⟨_, rfl⟩
  | diff => exact ⟨_, rfl⟩

omit [Score ν] in
theorem Zsets.put_of_ne (s : Zsets ν) {kind k : Kind} {id i : Nat} (o : ZsetObj ν) (h : (k, i) ≠ (kind, id)) :
    s.put kind id o k i = s k i := by
  rw [Zsets.put]
  split_ifs with hk
  · exact Handles.put_of_ne (s k) o fun hi => h (by rw [hk, hi])
  · rfl

theorem exec_setopStore (qsort : CardinalitySort ν) (rand : Draws) (op : SetOp) (cmdname : String) (dst : Nat)
    (args : List (LuaValue ν)) (s : Zsets ν) :
    (∃ ids o, setopArgs 2 op false cmdname (.handle .zset dst :: args) = .ok (ids, o) ∧
      exec (setopStore qsort rand op cmdname (.handle .zset dst :: args)) s =
        let dstobj := setopStored rand (setopMembers qsort op o.aggregate (setopSources s ids o.weights))
        (.ok (.int (zsetLength dstobj)), s.put .zset dst dstobj)) ∨
    (∃ e, setopArgs 2 op false cmdname (.handle .zset dst :: args) = .error e) ∧
      ∃ e, exec (setopStore qsort rand op cmdname (.handle .zset dst :: args)) s = (.error e, s) := by
  have hdst : rlCheck (LuaValue.handle .zset dst :: args) 1 .zset = .ok dst := rfl
  rw [setopStore]
  cases hargs : setopArgs 2 op false cmdname (.handle .zset dst :: args) with
  | error e =>
      refine .inr ⟨⟨e, rfl⟩, ?_⟩
      split_ifs
      · exact ⟨_, rfl⟩
      · rw [hdst]
        exact ⟨e, rfl⟩
  | ok r =>
      obtain ⟨keys, hlist, -⟩ := setopArgs_eq_ok_iff.mp hargs
      refine .inl ⟨r.1, r.2, rfl, ?_⟩
      rw [if_neg (rlChecklist_eq_ok_iff.mp hlist).1, hdst]
      rfl

theorem exec_lzrangestore (rand : Draws) (dst : Nat) (args : List (LuaValue ν)) (s : Zsets ν) :
    (∃ src range o, zrangeArgs true .auto .auto (.handle .zset dst :: args) = .ok (src, range, o) ∧
      exec (lzrangestore rand (.handle .zset dst :: args)) s =
        let items := zrangeItems (s .zset src) range o
        (.ok (.int items.length), s.put .zset dst (zrangeStored rand range items))) ∨
    (∃ e, zrangeArgs true .auto .auto (.handle .zset dst :: args) = .error e) ∧
      ∃ e, exec (lzrangestore rand (.handle .zset dst :: args)) s = (.error e, s) := by
  have hdst : rlCheck (LuaValue.handle .zset dst :: args) 1 .zset = .ok dst := rfl
  rw [lzrangestore]
  cases hargs : zrangeArgs true .auto .auto (.handle .zset dst :: args) with
  | error e =>
      refine .inr ⟨⟨e, rfl⟩, ?_⟩
      split_ifs
      · exact ⟨_, rfl⟩
      · rw [hdst]
        exact ⟨e, rfl⟩
  | ok r =>
      refine .inl ⟨r.1, r.2.1, r.2.2, rfl, ?_⟩
      cases args with
      | nil =>
          have hid : Except.error wrongTypeErr = Except.ok r.1 := (zrangeArgs_eq_ok_iff.mp hargs).1
          contradiction
      | cons v args => rfl

theorem SameScores.length_eq {l l' : List (Scored ν)} (h : SameScores l l') (hnd : (l.map Scored.ele).Nodup)
    (hnd' : (l'.map Scored.ele).Nodup) : l.length = l'.length := by
  have hperm := (List.perm_ext_iff_of_nodup hnd hnd').mpr h.mem_iff
  rw [← List.length_map (f := Scored.ele), hperm.length_eq, List.length_map]

section Lawful

variable [LawfulScore ν]

/-- The elements of a range, stored. -/
theorem storedAt_zrangeStored {s : Zsets ν} (dst : Nat) (rand : Draws) {zobj : ZsetObj ν} (hwf : zobj.Wf)
    (range : Zrange ν) (o : ZrangeOptions) :
    StoredAt s (s.put .zset dst (zrangeStored rand range (zrangeItems zobj range o))) dst
      (zrangeItems zobj range o) := by
  have hnumber : ∀ a ∈ zrangeItems zobj range o, a.IsNumber := fun a ha =>
    hwf.sound.number a (mem_of_mem_zrangeItems hwf ha)
  have hnd : ((zrangeItems zobj range o).map Scored.ele).Nodup := by
    refine ((zrangeItems_sublist hwf range o).map Scored.ele).nodup ?_
    split_ifs
    · rw [List.map_reverse, List.nodup_reverse]
      exact hwf.sound.nodup
    · exact hwf.sound.nodup
  obtain ⟨hwf', hsame⟩ := zrangeStored_spec rand range hnumber
  have hperm := List.reverse_perm (zrangeItems zobj range o)
  have hsame : SameScores (zrangeStored rand range (zrangeItems zobj range o)).items
      (zrangeItems zobj range o) := fun e => by
    rw [← scoreOf_perm ((hperm.map _).nodup_iff.mpr hnd) hperm]
    exact hsame e
  refine ⟨?_, ?_, fun kind id hne => Zsets.put_of_ne s _ hne⟩
  · rwa [Zsets.put_self]
  · rw [Zsets.put_self]
    exact hsame.length_eq hwf'.sound.nodup hnd

/-- What a set operation inserts, stored. -/
theorem storedAt_setopStored {s : Zsets ν} (dst : Nat) (rand : Draws) {members : List (Scored ν)}
    (h : Fit members) : StoredAt s (s.put .zset dst (setopStored rand members)) dst
      (Zset.create.addAll rand members).items := by
  obtain ⟨hwf, hnear⟩ := h.stored rand
  refine ⟨?_, ?_, fun kind id hne => Zsets.put_of_ne s _ hne⟩
  · rw [Zsets.put_self]
    exact (sameScores_of_near hnear).symm
  · rw [Zsets.put_self]
    exact hnear.length_eq.symm

/-- **Storing and replying.**  A call of a form that replies, without
WITHSCORES, is a call of the form that stores; this one leaves what the other
replies with in the destination and replies with its cardinality, whatever the
destination was.  A form that stores raises on every other call. -/
theorem stores_agree {s : Zsets ν} (hs : AllWf s) (qsort : CardinalitySort ν) (rand : Draws) (dst : Nat)
    (args : List (LuaValue ν)) :
    (∀ op ids o, setopArgs 1 op false op.cmdname args = .ok (ids, o) → o.withscores = false →
      ∃ items s', exec (readForm qsort rand op args) s = (.ok (flatReply false items), s) ∧
        exec (readForm qsort rand op (args ++ [.string (ascii "withscores")])) s =
          (.ok (flatReply true items), s) ∧
        exec (storeForm qsort rand op (.handle .zset dst :: args)) s = (.ok (.int items.length), s') ∧
        StoredAt s s' dst items) ∧
    (∀ src range o, zrangeArgs false .auto .auto args = .ok (src, range, o) → o.withscores = false →
      ∃ items s', exec (lzrange args) s = (.ok (flatReply false items), s) ∧
        (∀ a ∈ items, a ∈ (s .zset src).items) ∧
        exec (lzrangestore rand (.handle .zset dst :: args)) s = (.ok (.int items.length), s') ∧
        StoredAt s s' dst items) ∧
    (∀ op, (∀ ids o, setopArgs 1 op false op.cmdname args = .ok (ids, o) → o.withscores = true) →
      ∃ e, exec (storeForm qsort rand op (.handle .zset dst :: args)) s = (.error e, s)) ∧
    ((∀ src range o, zrangeArgs false .auto .auto args = .ok (src, range, o) → o.withscores = true) →
      ∃ e, exec (lzrangestore rand (.handle .zset dst :: args)) s = (.error e, s)) := by
  refine ⟨fun op ids o hargs hwith => ?_, fun src range o hargs hwith => ?_, fun op hnone => ?_, fun hnone => ?_⟩
  · have hfit := setopMembers_fit qsort op o.aggregate (wf_setopSources (hs .zset) ids o.weights)
      (sameObject_setopSources s ids o.weights)
    have hstored := storedAt_setopStored (s := s) dst rand hfit
    have hlen : zsetLength (setopStored rand (setopMembers qsort op o.aggregate
        (setopSources s ids o.weights))) = (Zset.create.addAll rand (setopMembers qsort op o.aggregate
        (setopSources s ids o.weights))).items.length := by
      rw [zsetLength_eq (hfit.stored rand).1, ← hstored.card, Zsets.put_self]
    obtain ⟨cmdname, hform⟩ := storeForm_eq qsort rand op (.handle .zset dst :: args)
    have hstore : setopArgs 2 op false cmdname (.handle .zset dst :: args) = .ok (ids, o) :=
      (setopArgs_store_iff _).mpr ⟨hargs, hwith⟩
    refine ⟨_, _, ?_, ?_, ?_, hstored⟩
    · rw [readForm_eq, exec_setopRead, hargs, ← hwith]
    · rw [readForm_eq, exec_setopRead, setopArgs_append_withscores hargs]
    · rw [hform]
      rcases exec_setopStore qsort rand op cmdname dst args s with ⟨ids', o', hstore', hexec⟩ | ⟨⟨e, herr⟩, -⟩
      · rw [hstore] at hstore'
        obtain ⟨rfl, rfl⟩ := Prod.mk.inj (Except.ok.inj hstore')
        rw [hexec]
        simp only [hlen]
      · rw [hstore] at herr
        contradiction
  · have hwf := hs .zset src
    have hstore := (zrangeArgs_store_iff (.handle .zset dst)).mpr ⟨hargs, hwith⟩
    refine ⟨zrangeItems (s .zset src) range o, _, ?_, fun a ha => mem_of_mem_zrangeItems hwf ha, ?_,
      storedAt_zrangeStored dst rand hwf range o⟩
    · rw [lzrange, zrangeRead, exec_readZset, hargs, ← hwith]
      rfl
    · rcases exec_lzrangestore rand dst args s with ⟨src', range', o', hstore', hexec⟩ | ⟨⟨e, herr⟩, -⟩
      · rw [hstore] at hstore'
        obtain ⟨rfl, heq⟩ := Prod.mk.inj (Except.ok.inj hstore')
        obtain ⟨rfl, rfl⟩ := Prod.mk.inj heq
        exact hexec
      · rw [hstore] at herr
        contradiction
  · obtain ⟨cmdname, hform⟩ := storeForm_eq qsort rand op (.handle .zset dst :: args)
    rw [hform]
    rcases exec_setopStore qsort rand op cmdname dst args s with ⟨ids, o, hstore, -⟩ | ⟨-, hraise⟩
    · obtain ⟨hargs, hwith⟩ := (setopArgs_store_iff _).mp hstore
      rw [hnone ids o hargs] at hwith
      contradiction
    · exact hraise
  · rcases exec_lzrangestore rand dst args s with ⟨src, range, o, hstore, -⟩ | ⟨-, hraise⟩
    · obtain ⟨hargs, hwith⟩ := (zrangeArgs_store_iff _).mp hstore
      rw [hnone src range o hargs] at hwith
      contradiction
    · exact hraise

end Lawful

/-- The lowest of a sorted set. -/
def lowest : List (LuaValue Double) := [.handle .zset 0, .number ⟨0⟩, .number ⟨0⟩]

/-- A sorted set keeps its lowest element only. -/
theorem stores_agree_sample : ∃ s',
    exec (lzrangestore (fun _ => 0) (.handle .zset 0 :: lowest)) oneTwoThree = (.ok (.int 1), s') ∧
    SameScores (s' .zset 0).items [⟨ascii "a", ⟨0x3ff0000000000000⟩⟩] ∧ (s' .zset 0).items.length = 1 := by
  have hwf : AllWf oneTwoThree := keeps_lzaddGeneric _ _ _ _ fun _ _ => wf_zsetTypeCreate 0 0
  have hargs : zrangeArgs false .auto .auto lowest =
      .ok (0, .rank 0 0, { rangetype := .auto, direction := .auto }) := rfl
  obtain ⟨items, s', hread, hmem, hexec, hstored⟩ :=
    (stores_agree hwf insertionCardinalitySort (fun _ => 0) 0 lowest).2.1 _ _ _ hargs rfl
  have hrank : zrangeItems (oneTwoThree .zset 0) (.rank 0 0) { rangetype := .auto, direction := .auto } =
      [⟨ascii "a", ⟨0x3ff0000000000000⟩⟩] := by decide +kernel
  have hitems : (oneTwoThree .zset 0).items = [⟨ascii "a", ⟨0x3ff0000000000000⟩⟩,
      ⟨List.replicate 65 98, ⟨0x4000000000000000⟩⟩, ⟨ascii "c", ⟨0x4008000000000000⟩⟩] := by decide +kernel
  rw [lzrange, zrangeRead, exec_readZset, hargs] at hread
  have hnames := Except.ok.inj (Prod.mk.inj hread).1
  simp only [zrangeReply, hrank, flatReply, Reply.array.injEq] at hnames
  obtain rfl : items = [⟨ascii "a", ⟨0x3ff0000000000000⟩⟩] := by
    cases items with
    | nil => contradiction
    | cons a rest =>
        obtain ⟨hele, hrest⟩ := List.cons.inj hnames
        obtain rfl : rest = [] := by
          cases rest with
          | nil => rfl
          | cons b rest => contradiction
        have hele : a.ele = ascii "a" := (Reply.text.inj hele).symm
        have ha := hmem a List.mem_cons_self
        rw [hitems] at ha
        rcases List.mem_cons.mp ha with rfl | ha
        · rfl
        · rcases List.mem_cons.mp ha with rfl | ha
          · exact absurd hele (by decide)
          · rw [List.mem_singleton.mp ha] at hele
            exact absurd hele (by decide)
  exact ⟨s', hexec, hstored.scores, hstored.card⟩

end SkynetJit.Redis
