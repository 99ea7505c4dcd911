import SkynetJit.Sharetable.CodecEncode

/-!
# SkynetJit.Sharetable.CodecRoundTrip

Decoding what `encode` wrote.  `decode` is followed on any document that
describes a graph: it succeeds, gives every named table a new table of its
own and every named function a function of its own, and fills the new tables
with the images of the old entries.  With `encode_describes` this makes the
round trip an isomorphism of rooted graphs, `decode_encode_isomorphic`.
-/

namespace SkynetJit.Sharetable

variable {F : Type}

/-- A value with its table and function references renamed. -/
def Value.rename (τ φ : Nat → Nat) : Value F → Value F
  | .table t => .table (τ t)
  | .func f => .func (φ f)
  | v => v

/-- Rooted graph isomorphism.  Tables and functions correspond one to one,
the roots correspond, corresponding tables have the same entries up to the
renaming (so the same scalars under the same keys), and corresponding
functions are made of the same code. -/
def Isomorphic (h : Heap F) (root : Value F) (h' : Heap F) (root' : Value F) : Prop :=
  ∃ τ φ : Nat → Nat,
    (∀ t t', Reach h root (.table t) → Reach h root (.table t') → τ t = τ t' → t = t') ∧
    (∀ f f', Reach h root (.func f) → Reach h root (.func f') → φ f = φ f' → f = f') ∧
    root' = root.rename τ φ ∧
    (∀ t, Reach h root (.table t) → ∃ obj obj', h.tables[t]? = some obj ∧
      h'.tables[τ t]? = some obj' ∧ obj'.hasMeta = obj.hasMeta ∧
      obj'.entries.Perm (obj.entries.map fun e => (e.1.rename τ φ, e.2.rename τ φ))) ∧
    (∀ f, Reach h root (.func f) → ∃ fn fn', h.funcs[f]? = some fn ∧
      h'.funcs[φ f]? = some fn' ∧ fn'.kind = fn.kind ∧ fn'.upvalues = fn.upvalues)

/-! ## The names of functions -/

variable {h : Heap F} {tableIds functionIds : Nat → Option Bytes}

section Decode

variable [BEq F] {env : Env F} {doc : Document F} {h₀ : Heap F}

/-- What `function_encoding` writes for a function. -/
theorem functionEncoding_cases {f : Nat} {code : FuncCode}
    (hcode : functionEncoding env h f = .ok code) :
    ∃ fn, h.funcs[f]? = some fn ∧ fn.upvalues = 0 ∧
      ((∃ c, fn.kind = .lua c ∧ code = .lua (env.dump c)) ∨
       (∃ r, functionReference h f = some r ∧ code = .ref r) ∨
       (∃ e, fn.kind = .cfunction e ∧ code = .c (packPointer e))) := by
  rw [functionEncoding] at hcode
  cases hfn : h.funcs[f]? with
  | none => simp [hfn] at hcode
  | some fn =>
      simp only [hfn] at hcode
      split at hcode
      · simp at hcode
      · rename_i hup
        refine ⟨fn, rfl, by simpa using hup, ?_⟩
        cases hk : fn.kind with
        | lua c =>
            simp only [hk, Except.ok.injEq] at hcode
            exact .inl ⟨c, rfl, hcode.symm⟩
        | cfunction e =>
            simp only [hk] at hcode
            cases hr : functionReference h f with
            | some r =>
                simp only [hr, Except.ok.injEq] at hcode
                exact .inr (.inl ⟨r, rfl, hcode.symm⟩)
            | none =>
                simp only [hr, Except.ok.injEq] at hcode
                exact .inr (.inr ⟨e, rfl, hcode.symm⟩)
        | fast =>
            simp only [hk] at hcode
            cases hr : functionReference h f with
            | some r =>
                simp only [hr, Except.ok.injEq] at hcode
                exact .inr (.inl ⟨r, rfl, hcode.symm⟩)
            | none => simp [hr] at hcode

/-- The service that decodes can resolve the names of functions: each leads
to a function of the same kind, and different functions to different ones. -/
structure Resolvable (env : Env F) (h h₀ : Heap F) (shared : Nat → Prop) : Prop where
  resolves : ∀ f r, shared f → functionEncoding env h f = .ok (.ref r) →
    ∃ n fn fn', h₀.resolve r = .ok n ∧ h.funcs[f]? = some fn ∧ h₀.funcs[n]? = some fn' ∧
      fn'.kind = fn.kind ∧ fn'.upvalues = 0
  distinct : ∀ f g r r' n, shared f → shared g → functionEncoding env h f = .ok (.ref r) →
    functionEncoding env h g = .ok (.ref r') → h₀.resolve r = .ok n → h₀.resolve r' = .ok n →
    f = g

/-- The service that encoded can resolve them. -/
theorem Resolvable.self (env : Env F) (h : Heap F) (shared : Nat → Prop) :
    Resolvable env h h shared := by
  have hresolve : ∀ f r, functionEncoding env h f = .ok (.ref r) → h.resolve r = .ok f ∧
      ∃ fn, h.funcs[f]? = some fn ∧ fn.upvalues = 0 := by
    intro f r hcode
    obtain ⟨fn, hfn, hup, ⟨c, -, heq⟩ | ⟨r', hr, heq⟩ | ⟨e, -, heq⟩⟩ := functionEncoding_cases hcode
    · exact absurd heq (by simp)
    · obtain rfl := FuncCode.ref.inj heq
      exact ⟨resolve_functionReference hr, fn, hfn, hup⟩
    · exact absurd heq (by simp)
  refine ⟨fun f r _ hcode => ?_, fun f g r r' n _ _ hf hg hn hn' => ?_⟩
  · obtain ⟨hr, fn, hfn, hup⟩ := hresolve f r hcode
    exact ⟨f, fn, fn, hr, hfn, hfn, rfl, hup⟩
  · have heq := Except.ok.inj ((hresolve f r hf).1.symm.trans hn)
    have heq' := Except.ok.inj ((hresolve g r' hg).1.symm.trans hn')
    exact heq.trans heq'.symm

/-! ## The state of the decoder -/

omit [BEq F] in
/-- What the decoder has made of a value of the source graph. -/
def imageOf (tableIds functionIds : Nat → Option Bytes) (s : DecState F) :
    Value F → Option (Value F)
  | .table t => ((tableIds t).bind s.tables).map .table
  | .func f => ((functionIds f).bind s.functions).map .func
  | v => some v

/-- The invariant of the decoder, relative to the heap `h` of the source and
the heap `h₀` it started in: old objects are in place, made tables are new and
distinct, and made functions are distinct and made of the code they stand
for. -/
structure DecInv (env : Env F) (h h₀ : Heap F) (functionIds : Nat → Option Bytes)
    (s : DecState F) : Prop where
  grows : h₀.Grows s.heap
  table_new : ∀ id n, s.tables id = some n →
    h₀.tables.length ≤ n ∧ n < s.heap.tables.length
  table_inj : ∀ id id' n, s.tables id = some n → s.tables id' = some n → id = id'
  funcs_le : h₀.funcs.length ≤ s.heap.funcs.length
  func_made : ∀ id n, s.functions id = some n → ∃ f fn fn', functionIds f = some id ∧
    h.funcs[f]? = some fn ∧ s.heap.funcs[n]? = some fn' ∧ fn'.kind = fn.kind ∧
    fn'.upvalues = 0 ∧ ((∃ r, functionEncoding env h f = .ok (.ref r) ∧ h₀.resolve r = .ok n) ∨
      h₀.funcs.length ≤ n)
  func_inj : ∀ id id' n, s.functions id = some n → s.functions id' = some n → id = id'

/-- What a call may change: it adds tables and functions and leaves every
table that was there alone, except the one being filled. -/
structure DecLe (hole : Option Nat) (s s' : DecState F) : Prop where
  table : ∀ id n, s.tables id = some n → s'.tables id = some n
  func : ∀ id n, s.functions id = some n → s'.functions id = some n
  length : s.heap.tables.length ≤ s'.heap.tables.length
  keep : ∀ n < s.heap.tables.length, some n ≠ hole → s'.heap.tables[n]? = s.heap.tables[n]?

namespace DecLe

omit [BEq F]

theorem refl (hole : Option Nat) (s : DecState F) : DecLe hole s s :=
  ⟨fun _ _ h => h, fun _ _ h => h, Nat.le_refl _, fun _ _ _ => rfl⟩

theorem trans {hole : Option Nat} {s₁ s₂ s₃ : DecState F} (h₁ : DecLe hole s₁ s₂)
    (h₂ : DecLe hole s₂ s₃) : DecLe hole s₁ s₃ where
  table id n h := h₂.table id n (h₁.table id n h)
  func id n h := h₂.func id n (h₁.func id n h)
  length := Nat.le_trans h₁.length h₂.length
  keep n hn hne :=
    (h₂.keep n (Nat.lt_of_lt_of_le hn h₁.length) hne).trans (h₁.keep n hn hne)

theorem weaken {hole : Option Nat} {s s' : DecState F} (h : DecLe none s s') : DecLe hole s s' :=
  ⟨h.table, h.func, h.length, fun n hn _ => h.keep n hn (by simp)⟩

/-- Images stay what they are. -/
theorem image {hole : Option Nat} {s s' : DecState F} (hle : DecLe hole s s') {v v' : Value F}
    (hv : imageOf tableIds functionIds s v = some v') :
    imageOf tableIds functionIds s' v = some v' := by
  cases v with
  | table t =>
      obtain ⟨n, hn, rfl⟩ := Option.map_eq_some_iff.mp hv
      obtain ⟨id, hid, hs⟩ := Option.bind_eq_some_iff.mp hn
      simp [imageOf, hid, hle.table id n hs]
  | func f =>
      obtain ⟨n, hn, rfl⟩ := Option.map_eq_some_iff.mp hv
      obtain ⟨id, hid, hs⟩ := Option.bind_eq_some_iff.mp hn
      simp [imageOf, hid, hle.func id n hs]
  | _ => exact hv

end DecLe

/-- The new table made for `t` holds the images of the entries of `t`. -/
def Filled (h : Heap F) (tableIds functionIds : Nat → Option Bytes) (s : DecState F)
    (t : Nat) : Prop :=
  ∃ n obj obj' entries, (tableIds t).bind s.tables = some n ∧ h.tables[t]? = some obj ∧
    s.heap.tables[n]? = some obj' ∧ obj'.hasMeta = false ∧ entries.Perm obj.entries ∧
    List.Forall₂ (fun (e e' : Value F × Value F) =>
      imageOf tableIds functionIds s e.1 = some e'.1 ∧
      imageOf tableIds functionIds s e.2 = some e'.2) entries obj'.entries

omit [BEq F] in
/-- A table is made and then filled: no table that was there has changed. -/
theorem DecLe.of_open {s s₁ s' : DecState F} (hopen : DecLe none s s₁)
    (hle : DecLe (some s.heap.tables.length) s₁ s') : DecLe none s s' := by
  refine ⟨fun i n h => hle.table i n (hopen.table i n h),
    fun i n h => hle.func i n (hopen.func i n h), Nat.le_trans hopen.length hle.length,
    fun m hm _ => ?_⟩
  rw [hle.keep m (Nat.lt_of_lt_of_le hm hopen.length) (by simp; omega)]
  exact hopen.keep m hm (by simp)

/-- A filled table stays filled, unless it is the one being filled. -/
theorem DecLe.filled {hole : Option Nat} {s s' : DecState F} (hle : DecLe hole s s')
    (inv : DecInv env h h₀ functionIds s) {t : Nat} (ht : (tableIds t).bind s.tables ≠ hole)
    (hf : Filled h tableIds functionIds s t) : Filled h tableIds functionIds s' t := by
  obtain ⟨n, obj, obj', entries, hn, hobj, hobj', hmeta, hperm, hall⟩ := hf
  obtain ⟨id, hid, hs⟩ := Option.bind_eq_some_iff.mp hn
  refine ⟨n, obj, obj', entries, by simp [hid, hle.table id n hs], hobj, ?_, hmeta, hperm, ?_⟩
  · rw [hle.keep n (inv.table_new id n hs).2 (hn ▸ ht)]
    exact hobj'
  · exact hall.imp fun _ _ he => ⟨hle.image he.1, hle.image he.2⟩

/-- The number of tables of the source that have no image yet. -/
def unmade (h : Heap F) (tableIds : Nat → Option Bytes) (s : DecState F) : Nat :=
  (List.range h.tables.length).countP fun t => ((tableIds t).bind s.tables).isNone

omit [BEq F] in
theorem DecLe.unmade_le {hole : Option Nat} {s s' : DecState F} (hle : DecLe hole s s') :
    unmade h tableIds s' ≤ unmade h tableIds s := by
  refine List.countP_mono_left fun t _ ht => ?_
  cases hs : (tableIds t).bind s.tables with
  | none => rfl
  | some n =>
      obtain ⟨id, hid, hn⟩ := Option.bind_eq_some_iff.mp hs
      simp [hid, hle.table id n hn] at ht

omit [BEq F] in
/-- Making a table for `t` leaves fewer tables without one. -/
theorem unmade_lt {s s' : DecState F} {t : Nat} {id : Bytes} (ht : t < h.tables.length)
    (hid : tableIds t = some id) (hnone : s.tables id = none) (hmade : (s'.tables id).isSome)
    (hkeep : ∀ i n, s.tables i = some n → s'.tables i = some n) :
    unmade h tableIds s' < unmade h tableIds s := by
  have hsplit : (List.range h.tables.length).Perm (t :: (List.range h.tables.length).erase t) :=
    List.perm_cons_erase (List.mem_range.mpr ht)
  rw [unmade, unmade, hsplit.countP_eq, hsplit.countP_eq, List.countP_cons, List.countP_cons]
  have hle : ((List.range h.tables.length).erase t).countP
      (fun t' => ((tableIds t').bind s'.tables).isNone) ≤
      ((List.range h.tables.length).erase t).countP
        fun t' => ((tableIds t').bind s.tables).isNone := by
    refine List.countP_mono_left fun t' _ ht' => ?_
    cases hs : (tableIds t').bind s.tables with
    | none => rfl
    | some n =>
        obtain ⟨i, hi, hn⟩ := Option.bind_eq_some_iff.mp hs
        simp [hi, hkeep i n hn] at ht'
  have hmade' : ((tableIds t).bind s'.tables).isNone = false := by
    rw [hid, Option.bind_some, Option.isNone_eq_false_iff]
    exact hmade
  have hwas : ((tableIds t).bind s.tables).isNone = true := by simp [hid, hnone]
  simp only [hmade', hwas, Bool.false_eq_true, if_false, if_true]
  omega

omit [BEq F] in
/-- The image of a value: a made table, a made function, or the value
itself. -/
theorem imageOf_cases {s : DecState F} {v v' : Value F}
    (hv : imageOf tableIds functionIds s v = some v') :
    (∃ t n id, v = .table t ∧ v' = .table n ∧ tableIds t = some id ∧ s.tables id = some n) ∨
    (∃ f n id, v = .func f ∧ v' = .func n ∧ functionIds f = some id ∧ s.functions id = some n) ∨
    (v' = v ∧ (∀ t, v ≠ .table t) ∧ ∀ f, v ≠ .func f) := by
  cases v with
  | table t =>
      obtain ⟨n, hn, rfl⟩ := Option.map_eq_some_iff.mp hv
      obtain ⟨id, hid, hs⟩ := Option.bind_eq_some_iff.mp hn
      exact .inl ⟨t, n, id, rfl, rfl, hid, hs⟩
  | func f =>
      obtain ⟨n, hn, rfl⟩ := Option.map_eq_some_iff.mp hv
      obtain ⟨id, hid, hs⟩ := Option.bind_eq_some_iff.mp hn
      exact .inr (.inl ⟨f, n, id, rfl, rfl, hid, hs⟩)
  | _ => exact .inr (.inr ⟨(Option.some.inj hv).symm, by simp, by simp⟩)

omit [BEq F] in
theorem imageOf_ne_nil {s : DecState F} {v v' : Value F}
    (hv : imageOf tableIds functionIds s v = some v') (hne : v ≠ .nil) : v' ≠ .nil := by
  obtain ⟨_, _, _, _, rfl, _⟩ | ⟨_, _, _, _, rfl, _⟩ | ⟨rfl, _⟩ := imageOf_cases hv
  · simp
  · simp
  · exact hne

/-! ## Images of keys -/

/-- Different sources have different images, so equality of keys is kept. -/
theorem imageOf_rawEqual (hdoc : Describes env h doc tableIds functionIds) {s : DecState F}
    (inv : DecInv env h h₀ functionIds s) {v w v' w' : Value F}
    (hv : imageOf tableIds functionIds s v = some v')
    (hw : imageOf tableIds functionIds s w = some w') : v'.rawEqual w' = v.rawEqual w := by
  obtain ⟨t, n, id, rfl, rfl, hid, hs⟩ | ⟨f, n, id, rfl, rfl, hid, hs⟩ | ⟨rfl, hvt, hvf⟩ :=
    imageOf_cases hv
  · obtain ⟨t', n', id', rfl, rfl, hid', hs'⟩ | ⟨_, _, _, rfl, rfl, _, _⟩ | ⟨rfl, hwt, _⟩ :=
      imageOf_cases hw
    · have hiff : n = n' ↔ t = t' := by
        constructor
        · rintro rfl
          obtain rfl := inv.table_inj id id' n hs hs'
          exact hdoc.table_inj t t' id hid hid'
        · rintro rfl
          obtain rfl : id = id' := Option.some.inj (hid.symm.trans hid')
          exact Option.some.inj (hs.symm.trans hs')
      simp [Value.rawEqual, BEq.beq, hiff]
    · rfl
    · cases w' <;> first | rfl | exact absurd rfl (hwt _)
  · obtain ⟨_, _, _, rfl, rfl, _, _⟩ | ⟨f', n', id', rfl, rfl, hid', hs'⟩ | ⟨rfl, _, hwf⟩ :=
      imageOf_cases hw
    · rfl
    · have hiff : n = n' ↔ f = f' := by
        constructor
        · rintro rfl
          obtain rfl := inv.func_inj id id' n hs hs'
          exact hdoc.func_inj f f' id hid hid'
        · rintro rfl
          obtain rfl : id = id' := Option.some.inj (hid.symm.trans hid')
          exact Option.some.inj (hs.symm.trans hs')
      simp [Value.rawEqual, BEq.beq, hiff]
    · cases w' <;> first | rfl | exact absurd rfl (hwf _)
  · obtain ⟨_, _, _, rfl, rfl, _, _⟩ | ⟨_, _, _, rfl, rfl, _, _⟩ | ⟨rfl, _, _⟩ :=
      imageOf_cases hw
    · cases v' <;> first | rfl | exact absurd rfl (hvt _)
    · cases v' <;> first | rfl | exact absurd rfl (hvf _)
    · rfl

/-- Assigning to a new key appends an entry. -/
theorem TableObj.rawset_new {obj : TableObj F} {k v : Value F} (hk : k ≠ .nil) (hv : v ≠ .nil)
    (hrefl : k.rawEqual k = true) (hnew : ∀ e ∈ obj.entries, e.1.rawEqual k = false) :
    obj.rawset k v = .ok { obj with entries := obj.entries ++ [(k, v)] } := by
  have hany : (obj.entries.any fun e => e.1.rawEqual k) = false := by
    simpa using hnew
  rw [TableObj.rawset.eq_def]
  split
  · exact absurd rfl hk
  · exact absurd rfl hv
  · rw [hany, hrefl]
    rfl

/-! ## Steps of a walk that builds tables -/

/-- A step of a walk: what it makes is new, and it fills the tables it
makes. -/
structure DecStep (env : Env F) (h h₀ : Heap F) (tableIds functionIds : Nat → Option Bytes)
    (hole : Option Nat) (s s' : DecState F) : Prop where
  inv : DecInv env h h₀ functionIds s'
  le : DecLe hole s s'
  filled : ∀ t, ((tableIds t).bind s'.tables).isSome → ((tableIds t).bind s.tables).isSome ∨
    Filled h tableIds functionIds s' t

namespace DecStep

variable {hole : Option Nat} {s s₁ s₂ : DecState F}

theorem refl (inv : DecInv env h h₀ functionIds s) :
    DecStep env h h₀ tableIds functionIds hole s s :=
  ⟨inv, DecLe.refl hole s, fun _ ht => .inl ht⟩

theorem weaken (hstep : DecStep env h h₀ tableIds functionIds none s s₁) :
    DecStep env h h₀ tableIds functionIds hole s s₁ :=
  ⟨hstep.inv, hstep.le.weaken, hstep.filled⟩

/-- No table is made: the filled ones are those that were there. -/
theorem of_tables (inv : DecInv env h h₀ functionIds s₁) (hle : DecLe hole s s₁)
    (htables : s₁.tables = s.tables) : DecStep env h h₀ tableIds functionIds hole s s₁ :=
  ⟨inv, hle, fun _ ht => .inl (htables ▸ ht)⟩

/-- Two steps after another.  The table that is being filled was there before
both, so the tables the first one fills stay filled. -/
theorem trans (hstep : DecStep env h h₀ tableIds functionIds hole s s₁)
    (hstep' : DecStep env h h₀ tableIds functionIds hole s₁ s₂)
    (hhole : ∀ n, hole = some n → ∃ id, s.tables id = some n) :
    DecStep env h h₀ tableIds functionIds hole s s₂ := by
  refine ⟨hstep'.inv, hstep.le.trans hstep'.le, fun t ht => ?_⟩
  by_cases hs : ((tableIds t).bind s.tables).isSome
  · exact .inl hs
  · refine .inr ?_
    obtain hold | hfilled := hstep'.filled t ht
    · obtain hold | hfilled := hstep.filled t hold
      · exact absurd hold hs
      · refine hstep'.le.filled hstep.inv (fun heq => hs ?_) hfilled
        obtain ⟨n, -, -, -, hn, -⟩ := hfilled
        obtain ⟨id, hid⟩ := hhole n (heq.symm.trans hn)
        obtain ⟨id', hid', hn'⟩ := Option.bind_eq_some_iff.mp hn
        obtain rfl := hstep.inv.table_inj id' id n hn' (hstep.le.table id n hid)
        simp [hid', hid]
    · exact hfilled

end DecStep

/-! ## One spec for each function of the decoder -/

/-- A call of `decode_value` or `decode_table` at the descriptor of a value:
it succeeds with the value's image and is a step. -/
def DecOk (env : Env F) (h h₀ : Heap F) (tableIds functionIds : Nat → Option Bytes)
    (s : DecState F) (v : Value F) (result : Except Fault (Value F × DecState F)) : Prop :=
  ∃ v' s', result = .ok (v', s') ∧ DecStep env h h₀ tableIds functionIds none s s' ∧
    imageOf tableIds functionIds s' v = some v'

/-- A call that leaves the state alone. -/
theorem DecOk.of_same {s : DecState F} {v v' : Value F} (inv : DecInv env h h₀ functionIds s)
    (hv : imageOf tableIds functionIds s v = some v') :
    DecOk env h h₀ tableIds functionIds s v (.ok (v', s)) :=
  ⟨v', s, rfl, DecStep.refl inv, hv⟩

/-- Recording the function made for `f` keeps the invariant. -/
theorem DecInv.record (hres : Resolvable env h h₀ fun f => (functionIds f).isSome)
    {s : DecState F} (inv : DecInv env h h₀ functionIds s) {f n : Nat} {id : Bytes}
    {fn fn' : FuncObj} {heap : Heap F} (hinj : ∀ g, functionIds g = some id → g = f)
    (hid : functionIds f = some id) (hnew : s.functions id = none)
    (hfn : h.funcs[f]? = some fn) (hgrow : h₀.Grows heap)
    (htables : heap.tables = s.heap.tables) (hlen : s.heap.funcs.length ≤ heap.funcs.length)
    (hkeep : ∀ (m : Nat) (obj : FuncObj), s.heap.funcs[m]? = some obj → heap.funcs[m]? = some obj)
    (hn : heap.funcs[n]? = some fn') (hkind : fn'.kind = fn.kind) (hup : fn'.upvalues = 0)
    (hwhich : (∃ r, functionEncoding env h f = .ok (.ref r) ∧ h₀.resolve r = .ok n ∧
      n < h₀.funcs.length) ∨ n = s.heap.funcs.length) :
    DecInv env h h₀ functionIds
      { s with heap, functions := Function.update s.functions id (some n) } := by
  have hupd : ∀ i m, Function.update s.functions id (some n) i = some m →
      (i = id ∧ m = n) ∨ (i ≠ id ∧ s.functions i = some m) := by
    intro i m hm
    by_cases hi : i = id
    · subst hi
      rw [Function.update_self] at hm
      exact .inl ⟨rfl, (Option.some.inj hm).symm⟩
    · rw [Function.update_of_ne hi] at hm
      exact .inr ⟨hi, hm⟩
  -- a function made earlier is not `n`: it is older, or it has another name
  have hother : ∀ i, i ≠ id → s.functions i ≠ some n := by
    intro i hi hs
    obtain ⟨g, gn, gn', hg, hgn, hgn', -, -, hwhere⟩ := inv.func_made i n hs
    have hlt := (List.getElem?_eq_some_iff.mp hgn').1
    obtain ⟨r, hcode, hr, hold⟩ | rfl := hwhich
    · obtain ⟨r', hcode', hr'⟩ | hge := hwhere
      · obtain rfl := hres.distinct f g r r' n (by simp [hid]) (by simp [hg]) hcode hcode' hr hr'
        exact hi (Option.some.inj (hg.symm.trans hid))
      · omega
    · omega
  constructor
  · exact hgrow
  · intro i m hm
    simpa [htables] using inv.table_new i m hm
  · exact inv.table_inj
  · exact Nat.le_trans inv.funcs_le hlen
  · intro i m hm
    obtain ⟨rfl, rfl⟩ | ⟨-, hm⟩ := hupd i m hm
    · refine ⟨f, fn, fn', hid, hfn, hn, hkind, hup, ?_⟩
      obtain ⟨r, hcode, hr, -⟩ | rfl := hwhich
      · exact .inl ⟨r, hcode, hr⟩
      · exact .inr inv.funcs_le
    · obtain ⟨g, gn, gn', hg, hgn, hgn', hk, hu, hwhere⟩ := inv.func_made i m hm
      exact ⟨g, gn, gn', hg, hgn, hkeep m gn' hgn', hk, hu, hwhere⟩
  · intro i i' m hm hm'
    obtain ⟨rfl, rfl⟩ | ⟨hi, hold⟩ := hupd i m hm
    · obtain ⟨rfl, -⟩ | ⟨hi', hold'⟩ := hupd i' m hm'
      · rfl
      · exact absurd hold' (hother i' hi')
    · obtain ⟨-, rfl⟩ | ⟨-, hold'⟩ := hupd i' m hm'
      · exact absurd hold (hother i hi)
      · exact inv.func_inj i i' m hold hold'

omit [BEq F] in
theorem Heap.Grows.refl (h : Heap F) : h.Grows h :=
  ⟨fun _ _ ht => ht, fun _ _ hf => hf, rfl, rfl⟩

omit [BEq F] in
theorem Heap.Grows.trans {h₁ h₂ h₃ : Heap F} (hg : h₁.Grows h₂) (hg' : h₂.Grows h₃) :
    h₁.Grows h₃ :=
  ⟨fun t obj ht => hg'.tables t obj (hg.tables t obj ht),
    fun f obj hf => hg'.funcs f obj (hg.funcs f obj hf),
    hg'.globals.trans hg.globals, hg'.loaded.trans hg.loaded⟩

omit [BEq F] in
theorem Heap.grows_newFunction (h : Heap F) (fn : FuncObj) : h.Grows (h.newFunction fn).2 := by
  refine ⟨fun _ _ ht => ht, fun m obj hm => ?_, rfl, rfl⟩
  exact (List.getElem?_append_left (List.getElem?_eq_some_iff.mp hm).1).trans hm

/-- Unpacking a function the walk has not made yet gives the function its
name leads to, or a new one made of the same code. -/
theorem DecInv.unpack (henv : env.Lawful)
    (hres : Resolvable env h h₀ fun f => (functionIds f).isSome)
    (hdoc : Describes env h doc tableIds functionIds) {s : DecState F} {f : Nat} {id : Bytes}
    (hid : functionIds f = some id) (hnone : s.functions id = none)
    (inv : DecInv env h h₀ functionIds s) :
    ∃ code n heap, doc.functions id = some code ∧
      unpackFunction env s.heap code = .ok (n, heap) ∧ s.heap.Grows heap ∧
      heap.tables = s.heap.tables ∧
      DecInv env h h₀ functionIds
        { s with heap, functions := Function.update s.functions id (some n) } := by
  obtain ⟨code, hcode, hfun⟩ := hdoc.code f id hid
  have hinj : ∀ g, functionIds g = some id → g = f := fun g hg => hdoc.func_inj g f id hg hid
  have hnew : ∀ fn : FuncObj, h.funcs[f]? = some fn →
      DecInv env h h₀ functionIds { s with
        heap := (s.heap.newFunction { kind := fn.kind, upvalues := 0 }).2
        functions := Function.update s.functions id (some s.heap.funcs.length) } := by
    intro fn hfn
    have hgrow := s.heap.grows_newFunction { kind := fn.kind, upvalues := 0 }
    have hlast : (s.heap.newFunction { kind := fn.kind, upvalues := 0 }).2.funcs[s.heap.funcs.length]? =
        some { kind := fn.kind, upvalues := 0 } := by simp [Heap.newFunction]
    exact inv.record hres hinj hid hnone hfn (inv.grows.trans hgrow) rfl
      (by simp [Heap.newFunction]) hgrow.funcs hlast rfl rfl (.inr rfl)
  obtain ⟨fn, hfn, hup, ⟨c, hk, rfl⟩ | ⟨r, hr, rfl⟩ | ⟨e, hk, rfl⟩⟩ := functionEncoding_cases hcode
  · refine ⟨_, _, _, hfun, ?_, s.heap.grows_newFunction _, rfl, hnew fn hfn⟩
    simp only [unpackFunction, henv.loadstring_dump, hk]
    rfl
  · obtain ⟨n, fn₁, fn', hn, hfn₁, hfn', hkind, hup'⟩ :=
      hres.resolves f r (by simp [hid]) hcode
    obtain rfl : fn = fn₁ := Option.some.inj (hfn.symm.trans hfn₁)
    refine ⟨_, n, s.heap, hfun, ?_, Heap.Grows.refl _, rfl, ?_⟩
    · simp only [unpackFunction, inv.grows.resolve hn]
    · exact inv.record hres hinj hid hnone hfn inv.grows rfl (Nat.le_refl _) (fun _ _ h => h)
        (inv.grows.funcs n fn' hfn') hkind hup'
        (.inl ⟨r, hcode, hn, (List.getElem?_eq_some_iff.mp hfn').1⟩)
  · refine ⟨_, _, _, hfun, ?_, s.heap.grows_newFunction _, rfl, hnew fn hfn⟩
    simp only [unpackFunction, unpackPointer_packPointer, hk]
    rfl

omit [BEq F] in
theorem DecLe.unpack {s : DecState F} {id : Bytes} {n : Nat} {heap : Heap F}
    (hnone : s.functions id = none) (htables : heap.tables = s.heap.tables) :
    DecLe none s { s with heap, functions := Function.update s.functions id (some n) } := by
  refine ⟨fun _ _ h => h, fun i m hm => ?_, by simp [htables], fun m _ _ => by simp [htables]⟩
  have hne : i ≠ id := by
    rintro rfl
    simp [hnone] at hm
  exact (Function.update_of_ne hne ..).trans hm

theorem decodeFunction_ok (henv : env.Lawful)
    (hres : Resolvable env h h₀ fun f => (functionIds f).isSome)
    (hdoc : Describes env h doc tableIds functionIds)
    {s : DecState F} {f : Nat} {id : Bytes} (hid : functionIds f = some id)
    (inv : DecInv env h h₀ functionIds s) :
    DecOk env h h₀ tableIds functionIds s (.func f) (decodeFunction env doc s id) := by
  cases hs : s.functions id with
  | some n =>
      simp only [decodeFunction, hs]
      exact DecOk.of_same inv (by simp [imageOf, hid, hs])
  | none =>
      obtain ⟨code, n, heap, hfun, hun, -, htables, inv'⟩ := inv.unpack henv hres hdoc hid hs
      simp only [decodeFunction, hs, hfun, hun, bind, Except.bind, pure, Except.pure]
      exact ⟨_, _, rfl, DecStep.of_tables inv' (DecLe.unpack hs htables) rfl, by simp [imageOf, hid]⟩

/-- `decode_value` meets its spec wherever `decode_table` does. -/
theorem decodeValue_ok (henv : env.Lawful)
    (hres : Resolvable env h h₀ fun f => (functionIds f).isSome)
    (hdoc : Describes env h doc tableIds functionIds)
    {s : DecState F} {v : Value F} {d : Desc F} {decodeTable : Decoder F Bytes}
    (hd : descOf tableIds functionIds v = some d) (inv : DecInv env h h₀ functionIds s)
    (htable : ∀ t id, tableIds t = some id →
      DecOk env h h₀ tableIds functionIds s (.table t) (decodeTable s id)) :
    DecOk env h h₀ tableIds functionIds s v (decodeValue env doc decodeTable s d) := by
  cases v with
  | table t =>
      obtain ⟨id, hid, rfl⟩ := Option.map_eq_some_iff.mp hd
      exact htable t id hid
  | func f =>
      obtain ⟨id, hid, rfl⟩ := Option.map_eq_some_iff.mp hd
      exact decodeFunction_ok henv hres hdoc hid inv
  | lightuserdata p =>
      obtain rfl := Option.some.inj hd
      simp only [decodeValue, unpackPointer_packPointer]
      exact DecOk.of_same inv rfl
  | userdata u => simp [descOf] at hd
  | thread t => simp [descOf] at hd
  | nil | number n | string b | boolean b =>
      obtain rfl := Option.some.inj hd
      exact DecOk.of_same inv rfl

/-- Replacing a new table keeps the invariant. -/
theorem DecInv.setTable {s : DecState F} (inv : DecInv env h h₀ functionIds s) {n : Nat}
    (hn : h₀.tables.length ≤ n) (obj : TableObj F) :
    DecInv env h h₀ functionIds
      { s with heap := { s.heap with tables := s.heap.tables.set n obj } } := by
  refine ⟨⟨?_, inv.grows.funcs, inv.grows.globals, inv.grows.loaded⟩, ?_, inv.table_inj,
    inv.funcs_le, inv.func_made, inv.func_inj⟩
  · intro t old ht
    have hlt := (List.getElem?_eq_some_iff.mp ht).1
    rw [List.getElem?_set_ne (by omega)]
    exact inv.grows.tables t old ht
  · intro id m hm
    simpa using inv.table_new id m hm

omit [BEq F] in
theorem DecLe.setTable (s : DecState F) (n : Nat) (obj : TableObj F) :
    DecLe (some n) s { s with heap := { s.heap with tables := s.heap.tables.set n obj } } := by
  refine ⟨fun _ _ h => h, fun _ _ h => h, by simp, fun m _ hne => ?_⟩
  exact List.getElem?_set_ne fun he => hne (congrArg some he.symm)

omit [BEq F] in
/-- Every member on the right of a pointwise relation has a partner. -/
theorem exists_of_mem_right_of_forall₂ {α β : Type} {R : α → β → Prop} {xs : List α}
    {ys : List β} (hall : List.Forall₂ R xs ys) {y : β} (hy : y ∈ ys) : ∃ x ∈ xs, R x y := by
  induction hall with
  | nil => simp at hy
  | cons hab _ ih =>
      obtain rfl | hy := List.mem_cons.mp hy
      · exact ⟨_, List.mem_cons_self, hab⟩
      · obtain ⟨x, hx, hr⟩ := ih hy
        exact ⟨x, List.mem_cons_of_mem _ hx, hr⟩

/-- What holds of the entries of a node: no nil, no NaN key, distinct keys. -/
structure EntriesOk (entries : List (Value F × Value F)) : Prop where
  ne_nil : ∀ e ∈ entries, e.1 ≠ .nil ∧ e.2 ≠ .nil ∧ e.1.rawEqual e.1 = true
  distinct : entries.Pairwise fun a b => a.1.rawEqual b.1 = false

theorem EntriesOk.of_perm {obj : TableObj F} (wf : obj.WellFormed)
    {entries : List (Value F × Value F)} (hperm : entries.Perm obj.entries) :
    EntriesOk entries := by
  refine ⟨fun e he => ?_, ?_⟩
  · have he' := hperm.mem_iff.mp he
    exact ⟨wf.key_ne_nil e he', wf.value_ne_nil e he', wf.key_refl e he'⟩
  · have hboth : entries.Pairwise fun a b =>
        a.1.rawEqual b.1 = false ∧ b.1.rawEqual a.1 = false :=
      (hperm.symm.pairwise_iff (fun hab => ⟨hab.2, hab.1⟩)).mp wf.distinct
    exact hboth.imp fun hab => hab.1

/-- The table at `n` holds the images of the entries `done`, and no other
entry. -/
def Filling (tableIds functionIds : Nat → Option Bytes) (s : DecState F) (n : Nat)
    (done : List (Value F × Value F)) : Prop :=
  ∃ obj, s.heap.tables[n]? = some obj ∧ obj.hasMeta = false ∧
    List.Forall₂ (fun (e e' : Value F × Value F) =>
      imageOf tableIds functionIds s e.1 = some e'.1 ∧
      imageOf tableIds functionIds s e.2 = some e'.2) done obj.entries

omit [BEq F] in
/-- The table that is being filled is left alone by the walk below it. -/
theorem Filling.of_le {s s' : DecState F} {n : Nat} {done : List (Value F × Value F)}
    (hf : Filling tableIds functionIds s n done) (hle : DecLe none s s') :
    Filling tableIds functionIds s' n done := by
  obtain ⟨obj, hobj, hmeta, hall⟩ := hf
  refine ⟨obj, ?_, hmeta, hall.imp fun _ _ he => ⟨hle.image he.1, hle.image he.2⟩⟩
  rw [hle.keep n (List.getElem?_eq_some_iff.mp hobj).1 (by simp)]
  exact hobj

/-- The next entry is assigned: its key differs from those that are there, so
the assignment overwrites nothing. -/
theorem Filling.assign (hdoc : Describes env h doc tableIds functionIds) {s : DecState F}
    (inv : DecInv env h h₀ functionIds s) {n : Nat} (hn : h₀.tables.length ≤ n)
    {done rest : List (Value F × Value F)} {e : Value F × Value F} {k v : Value F}
    (hok : EntriesOk (done ++ e :: rest)) (hf : Filling tableIds functionIds s n done)
    (hk : imageOf tableIds functionIds s e.1 = some k)
    (hv : imageOf tableIds functionIds s e.2 = some v) :
    ∃ heap, s.heap.assign n k v = .ok heap ∧
      DecStep env h h₀ tableIds functionIds (some n) s { s with heap } ∧
      Filling tableIds functionIds { s with heap } n (done ++ [e]) := by
  obtain ⟨obj, hobj, hmeta, hall⟩ := hf
  obtain ⟨hknil, hvnil, hkrefl⟩ := hok.ne_nil e (by simp)
  have hnew : ∀ e' ∈ obj.entries, e'.1.rawEqual k = false := by
    intro e' he'
    obtain ⟨a, ha, hae⟩ := exists_of_mem_right_of_forall₂ hall he'
    rw [imageOf_rawEqual hdoc inv hae.1 hk]
    exact (List.pairwise_append.mp hok.distinct).2.2 a ha e (by simp)
  have hkrefl' : k.rawEqual k = true := by
    rw [imageOf_rawEqual hdoc inv hk hk]
    exact hkrefl
  have hset := TableObj.rawset_new (imageOf_ne_nil hk hknil) (imageOf_ne_nil hv hvnil)
    hkrefl' hnew
  have hle := DecLe.setTable s n { obj with entries := obj.entries ++ [(k, v)] }
  refine ⟨_, ?_, DecStep.of_tables (inv.setTable hn _) hle rfl,
    { obj with entries := obj.entries ++ [(k, v)] }, ?_, hmeta, ?_⟩
  · simp only [Heap.assign, hobj, hset]
  · simp [(List.getElem?_eq_some_iff.mp hobj).1]
  · exact List.rel_append (hall.imp fun _ _ he => ⟨hle.image he.1, hle.image he.2⟩)
      (.cons ⟨hle.image hk, hle.image hv⟩ .nil)

/-- The loop over a node's entries appends their images to the open table
`n`, which holds those of the entries `done`. -/
theorem decodeEntries_ok (hdoc : Describes env h doc tableIds functionIds)
    {decode : Decoder F (Desc F)} {n : Nat} {id : Bytes} (bound : Nat)
    (hdecode : ∀ s v d, descOf tableIds functionIds v = some d → DecInv env h h₀ functionIds s →
      unmade h tableIds s < bound → DecOk env h h₀ tableIds functionIds s v (decode s d)) :
    ∀ (entries : List (Value F × Value F)) (descs : List (Desc F × Desc F))
      (done : List (Value F × Value F)) (s : DecState F),
      List.Forall₂ (fun (e : Value F × Value F) (d : Desc F × Desc F) =>
        descOf tableIds functionIds e.1 = some d.1 ∧
        descOf tableIds functionIds e.2 = some d.2) entries descs →
      EntriesOk (done ++ entries) →
      DecInv env h h₀ functionIds s → unmade h tableIds s < bound → s.tables id = some n →
      Filling tableIds functionIds s n done →
      ∃ s', decodeEntries decode n descs s = .ok s' ∧
        DecStep env h h₀ tableIds functionIds (some n) s s' ∧
        Filling tableIds functionIds s' n (done ++ entries) := by
  intro entries
  induction entries with
  | nil =>
      intro descs done s hdescs _ inv _ _ hf
      cases hdescs
      exact ⟨s, rfl, DecStep.refl inv, by simpa using hf⟩
  | cons e entries ih =>
      intro descs done s hdescs hok inv hbound hn hf
      obtain _ | ⟨hd, hrestd⟩ := hdescs
      rename_i d descs
      obtain ⟨k, s₁, hk, step₁, hik⟩ := hdecode s e.1 d.1 hd.1 inv hbound
      obtain ⟨v, s₂, hv, step₂, hiv⟩ := hdecode s₁ e.2 d.2 hd.2 step₁.inv
        (Nat.lt_of_le_of_lt step₁.le.unmade_le hbound)
      have step₁₂ := step₁.trans step₂ (fun m hm => absurd hm (by simp))
      obtain ⟨heap, hassign, step₃, hf₃⟩ := Filling.assign hdoc step₂.inv
        (inv.table_new id n hn).1 hok (hf.of_le step₁₂.le) (step₂.le.image hik) hiv
      have hhole : ∀ m, some n = some m → ∃ id, s.tables id = some m := by
        rintro m ⟨⟩
        exact ⟨id, hn⟩
      have step := step₁₂.weaken.trans step₃ hhole
      obtain ⟨s', hrest, step', hf'⟩ := ih descs (done ++ [e]) { s₂ with heap } hrestd
        (by simpa using hok) step.inv (Nat.lt_of_le_of_lt step.le.unmade_le hbound)
        (step.le.table id n hn) hf₃
      refine ⟨s', ?_, step.trans step' hhole, by simpa using hf'⟩
      simp only [decodeEntries, hk, hv, hassign, bind, Except.bind]
      exact hrest

/-- A table is made and takes a name. -/
theorem DecInv.newTable {s : DecState F} (inv : DecInv env h h₀ functionIds s) {id : Bytes}
    (obj : TableObj F) (hlen : h₀.tables.length ≤ s.heap.tables.length) :
    DecInv env h h₀ functionIds
      { s with
        heap := { s.heap with tables := s.heap.tables ++ [obj] }
        tables := Function.update s.tables id (some s.heap.tables.length) } := by
  have hupd : ∀ i n, Function.update s.tables id (some s.heap.tables.length) i = some n →
      (i = id ∧ n = s.heap.tables.length) ∨ (i ≠ id ∧ s.tables i = some n) := by
    intro i n hn
    by_cases hi : i = id
    · subst hi
      rw [Function.update_self, Option.some.injEq] at hn
      exact .inl ⟨rfl, hn.symm⟩
    · rw [Function.update_of_ne hi] at hn
      exact .inr ⟨hi, hn⟩
  constructor
  · refine ⟨fun t obj ht => ?_, inv.grows.funcs, inv.grows.globals, inv.grows.loaded⟩
    have hs := inv.grows.tables t obj ht
    exact (List.getElem?_append_left (List.getElem?_eq_some_iff.mp hs).1).trans hs
  · intro i n hn
    simp only [List.length_append, List.length_singleton]
    obtain ⟨-, rfl⟩ | ⟨-, hold⟩ := hupd i n hn
    · omega
    · have := inv.table_new i n hold
      omega
  · intro i i' n hn hn'
    obtain ⟨rfl, rfl⟩ | ⟨-, hold⟩ := hupd i n hn
    · obtain ⟨rfl, -⟩ | ⟨-, hold'⟩ := hupd i' _ hn'
      · rfl
      · have := inv.table_new i' _ hold'
        omega
    · obtain ⟨-, rfl⟩ | ⟨-, hold'⟩ := hupd i' n hn'
      · have := inv.table_new i _ hold
        omega
      · exact inv.table_inj i i' n hold hold'
  · exact inv.funcs_le
  · exact inv.func_made
  · exact inv.func_inj

omit [BEq F] in
theorem DecLe.openTable {s : DecState F} {id : Bytes} (hnone : s.tables id = none) :
    DecLe none s (s.openTable id) := by
  refine ⟨fun i n hn => ?_, fun _ _ h => h, by simp [DecState.openTable], fun n hn _ => ?_⟩
  · have hne : i ≠ id := by rintro rfl; simp [hnone] at hn
    exact (Function.update_of_ne hne ..).trans hn
  · exact List.getElem?_append_left hn

/-- A table is made for `t` and filled: a step that leaves no table open. -/
theorem DecStep.close (hdoc : Describes env h doc tableIds functionIds) {s s₁ s' : DecState F}
    {t : Nat} {id : Bytes} {obj : TableObj F} {entries : List (Value F × Value F)}
    (hid : tableIds t = some id) (hopen : DecLe none s s₁)
    (htables : s₁.tables = Function.update s.tables id (some s.heap.tables.length))
    (hstep : DecStep env h h₀ tableIds functionIds (some s.heap.tables.length) s₁ s')
    (hobj : h.tables[t]? = some obj) (hperm : entries.Perm obj.entries)
    (hf : Filling tableIds functionIds s' s.heap.tables.length entries) :
    DecStep env h h₀ tableIds functionIds none s s' := by
  have hn : s₁.tables id = some s.heap.tables.length := by simp [htables]
  refine ⟨hstep.inv, hopen.of_open hstep.le, fun t' ht' => ?_⟩
  obtain hold | hfilled := hstep.filled t' ht'
  · obtain ⟨m, hm⟩ := Option.isSome_iff_exists.mp hold
    obtain ⟨i, hi, htab⟩ := Option.bind_eq_some_iff.mp hm
    by_cases heq : i = id
    · subst heq
      obtain rfl := hdoc.table_inj t' t i hi hid
      obtain ⟨obj', hobj', hmeta', hall'⟩ := hf
      exact .inr ⟨_, obj, obj', entries, by simp [hid, hstep.le.table i _ hn], hobj, hobj', hmeta',
        hperm, hall'⟩
    · refine .inl ?_
      rw [htables, Function.update_of_ne heq] at htab
      simp [hi, htab]
  · exact .inr hfilled

theorem DecInv.length_le {s : DecState F} (inv : DecInv env h h₀ functionIds s) :
    h₀.tables.length ≤ s.heap.tables.length := by
  by_contra hlt
  have hlt : s.heap.tables.length < h₀.tables.length := by omega
  have := inv.grows.tables _ _ (List.getElem?_eq_getElem hlt)
  simp at this

/-- **`decode_table` on a document that describes a graph** terminates and
fills what it makes.  The induction is on the fuel; every recursive call sees
one more made table. -/
theorem decodeTable_ok (henv : env.Lawful)
    (hres : Resolvable env h h₀ fun f => (functionIds f).isSome)
    (hdoc : Describes env h doc tableIds functionIds) :
    ∀ (fuel : Nat) (s : DecState F) (t : Nat) (id : Bytes), tableIds t = some id →
      DecInv env h h₀ functionIds s → unmade h tableIds s < fuel →
      DecOk env h h₀ tableIds functionIds s (.table t) (decodeTable env doc fuel s id) := by
  intro fuel
  induction fuel with
  | zero => intro s t id _ _ hlt; omega
  | succ fuel ih =>
      intro s t id hid inv hlt
      cases hs : s.tables id with
      | some n =>
          simp only [decodeTable, hs]
          exact DecOk.of_same inv (by simp [imageOf, hid, hs])
      | none =>
          obtain ⟨id', node, obj, entries, hid', hnode, hobj, wf, hperm, hall⟩ :=
            hdoc.node t (by simp [hid])
          obtain rfl : id = id' := Option.some.inj (hid.symm.trans hid')
          have hn : (s.openTable id).tables id = some s.heap.tables.length := by
            simp [DecState.openTable]
          have hopen : Filling tableIds functionIds (s.openTable id) s.heap.tables.length [] :=
            ⟨{ hasMeta := false, length := 0, entries := [] }, by simp [DecState.openTable], rfl,
              .nil⟩
          have leOpen := DecLe.openTable hs
          have hlt' : unmade h tableIds (s.openTable id) < unmade h tableIds s :=
            unmade_lt (List.getElem?_eq_some_iff.mp hobj).1 hid hs (by simp [hn]) leOpen.table
          obtain ⟨s', hloop, step, hf⟩ := decodeEntries_ok hdoc fuel
            (fun s₁ v d hd inv₁ hbound => decodeValue_ok henv hres hdoc hd inv₁
              fun t' i hi => ih s₁ t' i hi inv₁ hbound)
            entries node.entries [] (s.openTable id) hall (EntriesOk.of_perm wf hperm)
            (inv.newTable _ inv.length_le) (by omega) hn hopen
          have hn' := step.le.table id _ hn
          simp only [decodeTable, hs, hnode, hloop, bind, Except.bind, pure, Except.pure]
          exact ⟨_, s', rfl, DecStep.close hdoc hid leOpen rfl step hobj hperm hf,
            by simp [imageOf, hid, hn']⟩

/-! ## The round trip -/

omit [BEq F] in
/-- When every made table is filled and the root is made, everything
reachable from the root has an image. -/
theorem imageOf_of_reach {s : DecState F} {root : Value F}
    (hroot : ∃ v', imageOf tableIds functionIds s root = some v')
    (hfilled : ∀ t, ((tableIds t).bind s.tables).isSome → Filled h tableIds functionIds s t)
    {v : Value F} (hv : Reach h root v) : ∃ v', imageOf tableIds functionIds s v = some v' := by
  have hentry : ∀ {t obj} {e : Value F × Value F},
      (∃ v', imageOf tableIds functionIds s (.table t) = some v') → h.tables[t]? = some obj →
      e ∈ obj.entries → (∃ v', imageOf tableIds functionIds s e.1 = some v') ∧
        ∃ v', imageOf tableIds functionIds s e.2 = some v' := by
    rintro t obj e ⟨v', hv'⟩ hobj he
    obtain ⟨n, hn, -⟩ := Option.map_eq_some_iff.mp hv'
    obtain ⟨_, obj₁, obj', entries, _, hobj₁, _, _, hperm, hall⟩ := hfilled t (by simp [hn])
    obtain rfl : obj = obj₁ := Option.some.inj (hobj.symm.trans hobj₁)
    obtain ⟨e', -, he'⟩ := exists_of_mem_right_of_forall₂ hall.flip (hperm.mem_iff.mpr he)
    exact ⟨⟨_, he'.1⟩, ⟨_, he'.2⟩⟩
  induction hv with
  | root => exact hroot
  | key _ hobj he ih => exact (hentry ih hobj he).1
  | value _ hobj he ih => exact (hentry ih hobj he).2

/-- When every made table is filled, the walk has built a copy of the
graph. -/
theorem isomorphic_of_filled (hdoc : Describes env h doc tableIds functionIds) {root : Value F}
    (hg : ShareableGraph h root) {s : DecState F} (inv : DecInv env h h₀ functionIds s)
    {root' : Value F} (hroot : imageOf tableIds functionIds s root = some root')
    (hfilled : ∀ t, ((tableIds t).bind s.tables).isSome → Filled h tableIds functionIds s t) :
    Isomorphic h root s.heap root' := by
  have himages : ∀ v, Reach h root v → ∃ v', imageOf tableIds functionIds s v = some v' :=
    fun v hv => imageOf_of_reach ⟨root', hroot⟩ hfilled hv
  let τ : Nat → Nat := fun t => ((tableIds t).bind s.tables).getD 0
  let φ : Nat → Nat := fun f => ((functionIds f).bind s.functions).getD 0
  have hrename : ∀ v v', imageOf tableIds functionIds s v = some v' → v' = v.rename τ φ := by
    intro v v' hv
    obtain ⟨t, n, id, rfl, rfl, hid, hs⟩ | ⟨f, n, id, rfl, rfl, hid, hs⟩ | ⟨rfl, hvt, hvf⟩ :=
      imageOf_cases hv
    · simp [Value.rename, τ, hid, hs]
    · simp [Value.rename, φ, hid, hs]
    · cases v' <;> first | rfl | exact absurd rfl (hvt _) | exact absurd rfl (hvf _)
  refine ⟨τ, φ, ?_, ?_, hrename _ _ hroot, ?_, ?_⟩
  · intro t₁ t₂ h₁ h₂ heq
    obtain ⟨v₁, hv₁⟩ := himages _ h₁
    obtain ⟨v₂, hv₂⟩ := himages _ h₂
    have hraw := imageOf_rawEqual hdoc inv hv₁ hv₂
    rw [hrename _ _ hv₁, hrename _ _ hv₂] at hraw
    simp only [Value.rename, heq, Value.rawEqual, beq_self_eq_true] at hraw
    simpa using hraw.symm
  · intro f₁ f₂ h₁ h₂ heq
    obtain ⟨v₁, hv₁⟩ := himages _ h₁
    obtain ⟨v₂, hv₂⟩ := himages _ h₂
    have hraw := imageOf_rawEqual hdoc inv hv₁ hv₂
    rw [hrename _ _ hv₁, hrename _ _ hv₂] at hraw
    simp only [Value.rename, heq, Value.rawEqual, beq_self_eq_true] at hraw
    simpa using hraw.symm
  · intro t ht
    obtain ⟨v', hv'⟩ := himages _ ht
    obtain ⟨n, hn, -⟩ := Option.map_eq_some_iff.mp hv'
    obtain ⟨n', obj, obj', entries, hn', hobj, hobj', hmeta, hperm, hall⟩ :=
      hfilled t (by simp [hn])
    obtain ⟨obj₁, hobj₁, hmeta₁, -⟩ := hg _ ht
    obtain rfl : obj = obj₁ := Option.some.inj (hobj.symm.trans hobj₁)
    refine ⟨obj, obj', hobj, by simpa [τ, hn'] using hobj', hmeta.trans hmeta₁.symm, ?_⟩
    have hentries : entries.map (fun e => (e.1.rename τ φ, e.2.rename τ φ)) = obj'.entries := by
      rw [← List.forall₂_eq_eq_eq, List.forall₂_map_left_iff]
      refine hall.imp fun e e' he => ?_
      exact Prod.ext (hrename _ _ he.1).symm (hrename _ _ he.2).symm
    rw [← hentries]
    exact hperm.map _
  · intro f hf
    obtain ⟨v', hv'⟩ := himages _ hf
    obtain ⟨n, hn, -⟩ := Option.map_eq_some_iff.mp hv'
    obtain ⟨id, hid, hs⟩ := Option.bind_eq_some_iff.mp hn
    obtain ⟨g, fn, fn', hg', hfn, hfn', hkind, hup, -⟩ := inv.func_made id n hs
    obtain rfl := hdoc.func_inj g f id hg' hid
    obtain ⟨fn₁, hfn₁, hup₁, -⟩ := hg _ hf
    obtain rfl : fn = fn₁ := Option.some.inj (hfn.symm.trans hfn₁)
    exact ⟨fn, fn', hfn, by simpa [φ, hn] using hfn', hkind, hup.trans hup₁.symm⟩

/-- The invariant holds where `decode` starts. -/
theorem DecInv.start (env : Env F) (h h₀ : Heap F) (functionIds : Nat → Option Bytes) :
    DecInv env h h₀ functionIds (DecState.start h₀) := by
  constructor
  · exact Heap.Grows.refl h₀
  · simp [DecState.start]
  · simp [DecState.start]
  · exact Nat.le_refl _
  · simp [DecState.start]
  · simp [DecState.start]

/-- Decoding a document that describes a graph builds a copy of it, in any
service that can resolve the names of its functions. -/
theorem decode_describes (henv : env.Lawful)
    (hres : Resolvable env h h₀ fun f => (functionIds f).isSome)
    (hdoc : Describes env h doc tableIds functionIds) (hformat : doc.format = 2) {root : Value F}
    (hg : ShareableGraph h root) (hroot : descOf tableIds functionIds root = some doc.root)
    {fuel : Nat} (hfuel : h.tables.length < fuel) :
    ∃ root' h', decode env h₀ fuel doc = .ok (root', h') ∧ Isomorphic h root h' root' := by
  have hbound : unmade h tableIds (DecState.start h₀) < fuel := by
    refine Nat.lt_of_le_of_lt ?_ hfuel
    exact Nat.le_trans List.countP_le_length (by simp)
  have inv := DecInv.start env h h₀ functionIds
  obtain ⟨root', s, hdec, step, himage⟩ := decodeValue_ok henv hres hdoc hroot inv
    fun t' id hid => decodeTable_ok henv hres hdoc fuel _ t' id hid inv hbound
  have hfilled : ∀ t', ((tableIds t').bind s.tables).isSome →
      Filled h tableIds functionIds s t' := by
    intro t' ht'
    obtain hold | hfill := step.filled t' ht'
    · cases hid : tableIds t' <;> simp [hid, DecState.start] at hold
    · exact hfill
  refine ⟨root', s.heap, ?_, isomorphic_of_filled hdoc hg step.inv himage hfilled⟩
  simp only [decode, hformat, ne_eq, not_true_eq_false, if_false, hdec, bind, Except.bind, pure,
    Except.pure]

/-- **Round trip**: for every graph of supported values, and with any fuel
above the number of tables, encoding succeeds, decoding the document
succeeds, and the result is isomorphic to the graph. -/
theorem decode_encode_isomorphic (henv : env.Lawful) {t : Nat}
    (hg : ShareableGraph h (.table t)) {fuel : Nat} (hfuel : h.tables.length < fuel) :
    ∃ doc root' h', encode env h fuel (.table t) = .ok doc ∧
      decode env h fuel doc = .ok (root', h') ∧ Isomorphic h (.table t) h' root' := by
  obtain ⟨doc, tableIds, functionIds, henc, hformat, hdoc, hroot⟩ :=
    encode_describes henv hg hfuel
  obtain ⟨root', h', hdec, hiso⟩ :=
    decode_describes henv (Resolvable.self env h _) hdoc hformat hg hroot hfuel
  exact ⟨doc, root', h', henc, hdec, hiso⟩

end Decode

/-! ### A graph with cycles, sharing and identity keys -/

/-- A runtime whose numbers are integers: dumps carry LuaJIT's signature,
numbers print with their sign, tables print their address. -/
def sampleEnv : Env Int where
  dump code := ascii "\x1bLJ" ++ code
  loadstring dumped := if dumped.take 3 = ascii "\x1bLJ" then some (dumped.drop 3) else none
  formatNumber n := (if n < 0 then ascii "-" else ascii "+") ++ natDec n.natAbs
  tableAddress t := ascii "table: 0x" ++ hex (leBytes 8 t)
  tableSort keys := keys.mergeSort fun a b => bytesLe a.1 b.1

theorem sampleEnv_lawful : sampleEnv.Lawful where
  loadstring_dump code := by simp [sampleEnv, ascii]
  tableSort_perm keys := List.mergeSort_perm keys _

/-- `_G` names one fast function; the shared root (table 2) holds itself, a
subtable under three keys, one of them a function and one the subtable
itself, the named function, and a pointer. -/
def sampleHeap : Heap Int where
  tables := [
    { hasMeta := false, length := 0, entries := [(.string (ascii "print"), .func 0)] },
    { hasMeta := false, length := 0, entries := [(.string (ascii "_G"), .table 0)] },
    { hasMeta := false, length := 1, entries := [
        (.number 1, .table 3), (.string (ascii "self"), .table 2), (.func 1, .table 3),
        (.boolean true, .lightuserdata 4096), (.table 3, .func 0)] },
    { hasMeta := false, length := 0, entries := [(.string (ascii "up"), .table 2)] }]
  funcs := [{ kind := .fast, upvalues := 0 }, { kind := .lua [1, 2, 3], upvalues := 0 }]
  globals := 0
  loaded := .table 1

theorem sampleHeap_reach {v : Value Int} (hv : Reach sampleHeap (.table 2) v) :
    v ∈ ([.table 2, .table 3, .number 1, .string (ascii "self"), .func 1, .boolean true,
      .lightuserdata 4096, .func 0, .string (ascii "up")] : List (Value Int)) := by
  induction hv with
  | root => simp
  | key _ hobj he ih | value _ hobj he ih =>
      simp only [List.mem_cons, reduceCtorEq, Value.table.injEq, List.not_mem_nil, or_false] at ih
      obtain rfl | rfl := ih
      all_goals
        simp only [sampleHeap, List.getElem?_cons_succ, List.getElem?_cons_zero,
          Option.some.injEq] at hobj
        subst hobj
        simp only [List.mem_cons, List.not_mem_nil, or_false] at he
        rcases he with rfl | rfl | rfl | rfl | rfl <;> simp

theorem sampleHeap_print : (functionReference sampleHeap 0).isSome := by
  simp [functionReference, findPath, findPathVisit, sampleHeap, TableObj.stringKeys,
    TableObj.rawget, Value.rawEqual]

theorem sampleHeap_shareable : ShareableGraph sampleHeap (.table 2) := by
  intro v hv
  have hmem := sampleHeap_reach hv
  simp only [List.mem_cons, List.not_mem_nil, or_false] at hmem
  obtain rfl | rfl | rfl | rfl | rfl | rfl | rfl | rfl | rfl := hmem
  · exact ⟨_, rfl, rfl, by constructor <;> decide⟩
  · exact ⟨_, rfl, rfl, by constructor <;> decide⟩
  · trivial
  · trivial
  · exact ⟨_, rfl, rfl, by simp⟩
  · trivial
  · trivial
  · exact ⟨_, rfl, rfl, fun _ => sampleHeap_print⟩
  · trivial

/-- The round trip on the sample graph. -/
theorem decode_encode_isomorphic_sample :
    ∃ doc root' h', encode sampleEnv sampleHeap 5 (.table 2) = .ok doc ∧
      decode sampleEnv sampleHeap 5 doc = .ok (root', h') ∧
      Isomorphic sampleHeap (.table 2) h' root' :=
  decode_encode_isomorphic sampleEnv_lawful sampleHeap_shareable (by decide)

end SkynetJit.Sharetable
