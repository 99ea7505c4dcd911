import Mathlib.Data.List.Forall2
import SkynetJit.Sharetable.Accepts
import SkynetJit.Sharetable.ProxyCopy

/-!
# SkynetJit.Sharetable.Faithful

What a program sees of a shared graph.  Along every run of a `Reader` the view
keeps its invariant and everything the program holds is the image of a value
of the graph (`run_shown`), so the reads of `ProxyRead` and the copy of
`ProxyCopy` apply in every state a program can bring a view into.
-/

namespace SkynetJit.Sharetable

variable {F : Type} {h : Heap F} {tableIds functionIds : Nat → Option Bytes}

section Naming

variable [BEq F] {env : Env F} {doc : Document F}

/-- Names of what cannot be reached may be forgotten. -/
theorem Describes.restrict (hdoc : Describes env h doc tableIds functionIds) {root : Value F}
    {d : Desc F} (hroot : descOf tableIds functionIds root = some d) :
    ∃ tableIds functionIds, Describes env h doc tableIds functionIds ∧
      descOf tableIds functionIds root = some d ∧
      (∀ t, (tableIds t).isSome → Reach h root (.table t)) ∧
      ∀ f, (functionIds f).isSome → Reach h root (.func f) := by
  classical
  let tableIds' : Nat → Option Bytes := fun t => if Reach h root (.table t) then tableIds t else none
  let functionIds' : Nat → Option Bytes := fun f =>
    if Reach h root (.func f) then functionIds f else none
  have htable : ∀ t id, tableIds' t = some id → Reach h root (.table t) ∧ tableIds t = some id := by
    intro t id hid
    by_cases hreach : Reach h root (.table t)
    · exact ⟨hreach, by simpa [tableIds', hreach] using hid⟩
    · simp [tableIds', hreach] at hid
  have hfunc : ∀ f id, functionIds' f = some id →
      Reach h root (.func f) ∧ functionIds f = some id := by
    intro f id hid
    by_cases hreach : Reach h root (.func f)
    · exact ⟨hreach, by simpa [functionIds', hreach] using hid⟩
    · simp [functionIds', hreach] at hid
  have hdesc : ∀ v, Reach h root v → descOf tableIds' functionIds' v = descOf tableIds functionIds v := by
    intro v hv
    cases v with
    | table t => simp [descOf, tableIds', hv]
    | func f => simp [descOf, functionIds', hv]
    | _ => rfl
  refine ⟨tableIds', functionIds', ⟨fun t t' id ht ht' => ?_, fun f f' id hf hf' => ?_,
    fun t ht => ?_, fun f id hf => ?_⟩, (hdesc root .root).trans hroot, fun t ht => ?_,
    fun f hf => ?_⟩
  · exact hdoc.table_inj t t' id (htable t id ht).2 (htable t' id ht').2
  · exact hdoc.func_inj f f' id (hfunc f id hf).2 (hfunc f' id hf').2
  · obtain ⟨id, hid⟩ := Option.isSome_iff_exists.mp ht
    obtain ⟨hreach, hid'⟩ := htable t id hid
    obtain ⟨id', node, obj, entries, hid'', hnode, hobj, wf, hperm, hall⟩ :=
      hdoc.node t (by simp [hid'])
    obtain rfl : id = id' := Option.some.inj (hid'.symm.trans hid'')
    refine ⟨id, node, obj, entries, hid, hnode, hobj, wf, hperm, ?_⟩
    have hentry : ∀ e ∈ entries, Reach h root e.1 ∧ Reach h root e.2 := fun e he =>
      ⟨.key hreach hobj (hperm.mem_iff.mp he), .value hreach hobj (hperm.mem_iff.mp he)⟩
    refine ((List.forall₂_and_left _ _).mpr ⟨hentry, hall⟩).imp fun e d he => ?_
    exact ⟨(hdesc _ he.1.1).trans he.2.1, (hdesc _ he.1.2).trans he.2.2⟩
  · exact hdoc.code f id (hfunc f id hf).2
  · obtain ⟨id, hid⟩ := Option.isSome_iff_exists.mp ht
    exact (htable t id hid).1
  · obtain ⟨id, hid⟩ := Option.isSome_iff_exists.mp hf
    exact (hfunc f id hid).1

theorem Resolvable.mono {h₀ : Heap F} {shared shared' : Nat → Prop}
    (hres : Resolvable env h h₀ shared) (hsub : ∀ f, shared' f → shared f) :
    Resolvable env h h₀ shared' :=
  ⟨fun f r hf => hres.resolves f r (hsub f hf),
    fun f g r r' n hf hg => hres.distinct f g r r' n (hsub f hf) (hsub g hg)⟩

end Naming

/-! ## Runs -/

section Runs

variable [BEq F] {env : Env F} {h₀ : Heap F} {doc : Document F} {root : Value F} {r r' : Reader F}

/-- A value of the graph, or nil. -/
def OfGraph (h : Heap F) (root v : Value F) : Prop := v = .nil ∨ Reach h root v

/-- The invariant of a reader: that of its view, and everything the program
holds is the image of a value of the graph. -/
structure ReaderInv (env : Env F) (h h₀ : Heap F) (root : Value F) (doc : Document F)
    (tableIds functionIds : Nat → Option Bytes) (r : Reader F) : Prop where
  view : ReadInv env h h₀ functionIds r.view
  document : r.view.document = doc
  shown : ∀ w ∈ r.held, ∃ v, OfGraph h root v ∧ r.view.image tableIds functionIds v = some w

/-- A held proxy stands for a table of the graph. -/
theorem ReaderInv.table (inv : ReaderInv env h h₀ root doc tableIds functionIds r) {object : Nat}
    (hheld : r.holds (.table object)) : ∃ t id, Reach h root (.table t) ∧ tableIds t = some id ∧
      r.view.record object = some id := by
  obtain ⟨v, hv, himage⟩ := inv.shown _ (Reader.holds_table.mp hheld)
  obtain ⟨t, n, id, rfl, heq, hid, hp⟩ | ⟨_, _, _, _, heq, _, _⟩ | ⟨rfl, ht, -⟩ :=
    imageOf_cases himage
  · obtain rfl := Value.table.inj heq
    obtain hnil | hreach := hv
    · contradiction
    · exact ⟨t, id, hreach, hid, (inv.view.record_iff id object).mp hp⟩
  · contradiction
  · exact absurd rfl (ht object)

/-- A call that gives the program values keeps the invariant. -/
theorem ReaderInv.of_read (inv : ReaderInv env h h₀ root doc tableIds functionIds r)
    {view : ViewState F} (given : List (Value F))
    (hread : ReadStep env h h₀ functionIds r.view view)
    (hgiven : ∀ w ∈ given, ∃ v, OfGraph h root v ∧ view.image tableIds functionIds v = some w) :
    ReaderInv env h h₀ root doc tableIds functionIds { view, held := given ++ r.held } := by
  refine ⟨hread.inv, hread.le.document.trans inv.document, fun w hw => ?_⟩
  obtain hw | hw := List.mem_append.mp hw
  · exact hgiven w hw
  · obtain ⟨v, hv, himage⟩ := inv.shown w hw
    exact ⟨v, hv, hread.le.image himage⟩

omit [BEq F] in
/-- What `next` returns is of the graph. -/
theorem Shows.ofGraph {s : ViewState F} {t : Nat} {obj : TableObj F}
    {entries : List (Value F × Value F)} {i : Nat} {shown : Value F × Value F}
    (hshows : Shows tableIds functionIds s entries[i]? shown) (hreach : Reach h root (.table t))
    (hobj : h.tables[t]? = some obj) (hperm : entries.Perm obj.entries) :
    ∀ w ∈ [shown.1, shown.2], ∃ v, OfGraph h root v ∧ s.image tableIds functionIds v = some w := by
  intro w hw
  obtain ⟨e, he, hk, hv⟩ | ⟨-, rfl⟩ := hshows
  · have hmem := hperm.mem_iff.mp (List.mem_of_getElem? he)
    obtain rfl | hw := List.mem_cons.mp hw
    · exact ⟨e.1, .inr (.key hreach hobj hmem), hk⟩
    · obtain rfl := List.mem_singleton.mp hw
      exact ⟨e.2, .inr (.value hreach hobj hmem), hv⟩
  · obtain rfl : w = .nil := by simpa using hw
    exact ⟨.nil, .inl rfl, rfl⟩

/-- The collector takes a proxy. -/
theorem ReadInv.collectProxy {s : ViewState F} (inv : ReadInv env h h₀ functionIds s) (id : Bytes) :
    ReadInv env h h₀ functionIds (s.collectProxy id) := by
  rw [ViewState.collectProxy]
  cases hp : s.proxies id with
  | none => exact inv
  | some object =>
      refine ⟨inv.made.forget (fun i n hn => ?_) fun _ _ hf => hf,
        erase_record_iff inv.record_iff hp⟩
      have hne : i ≠ id := by
        rintro rfl
        exact Option.some_ne_none n (hn.symm.trans (Function.update_self ..))
      exact (Function.update_of_ne hne ..).symm.trans hn

/-- The collector takes a function. -/
theorem ReadInv.collectFunction {s : ViewState F} (inv : ReadInv env h h₀ functionIds s)
    (id : Bytes) : ReadInv env h h₀ functionIds (s.collectFunction id) := by
  refine ⟨inv.made.forget (fun _ _ hp => hp) fun i n hn => ?_, inv.record_iff⟩
  have hne : i ≠ id := by
    rintro rfl
    exact Option.some_ne_none n (hn.symm.trans (Function.update_self ..))
  exact (Function.update_of_ne hne ..).symm.trans hn

omit [BEq F] in
/-- What is not collected stays shown. -/
theorem image_collectProxy {s : ViewState F} {id : Bytes} {object : Nat} {v w : Value F}
    (hp : s.proxies id = some object) (hv : s.image tableIds functionIds v = some w)
    (hne : w ≠ .table object) : (s.collectProxy id).image tableIds functionIds v = some w := by
  simp only [ViewState.collectProxy, hp]
  refine ViewState.image_keep hv (fun i n hw hn => ?_) fun _ _ _ hf => hf
  have hi : i ≠ id := by
    rintro rfl
    exact hne (hw.trans (congrArg Value.table (Option.some.inj (hn.symm.trans hp))))
  exact (Function.update_of_ne hi ..).trans hn

omit [BEq F] in
theorem image_collectFunction {s : ViewState F} {id : Bytes} {f : Nat} {v w : Value F}
    (hf : s.functions id = some f) (hv : s.image tableIds functionIds v = some w)
    (hne : w ≠ .func f) : (s.collectFunction id).image tableIds functionIds v = some w := by
  refine ViewState.image_keep hv (fun _ _ _ hp => hp) fun i n hw hn => ?_
  have hi : i ≠ id := by
    rintro rfl
    exact hne (hw.trans (congrArg Value.func (Option.some.inj (hn.symm.trans hf))))
  exact (Function.update_of_ne hi ..).trans hn

/-- A descriptor of a node describes a value of the graph. -/
theorem descriptorAt_ofGraph (hdoc : Describes env h doc tableIds functionIds)
    (inv : ReaderInv env h h₀ root doc tableIds functionIds r) {object index : Nat} {side : Side}
    {d : Desc F} (hheld : r.holds (.table object))
    (hd : r.view.descriptorAt object index side = some d) :
    ∃ v, descOf tableIds functionIds v = some d := by
  obtain ⟨t, id, -, hid, hrec⟩ := inv.table hheld
  obtain ⟨node, entries, hn⟩ := hdoc.nodeEntries hid
  have hnode : r.view.document.nodes id = some node := inv.document ▸ hn.node_eq
  simp only [ViewState.descriptorAt, hrec, hnode, bind, Option.bind_some] at hd
  obtain ⟨entry, hentry, hd⟩ := Option.bind_eq_some_iff.mp hd
  obtain ⟨e, -, he⟩ := exists_of_mem_right_of_forall₂ hn.described (List.mem_of_getElem? hentry)
  cases side with
  | key => exact ⟨e.1, he.1.trans hd⟩
  | value => exact ⟨e.2, he.2.trans hd⟩

/-- One step keeps the invariant. -/
theorem step_shown (henv : env.Lawful)
    (hres : Resolvable env h h₀ fun f => (functionIds f).isSome)
    (hdoc : Describes env h doc tableIds functionIds)
    (inv : ReaderInv env h h₀ root doc tableIds functionIds r) {a : ReadAction F}
    (hstep : r.step env a = some r') : ReaderInv env h h₀ root doc tableIds functionIds r' := by
  cases a with
  | index object key =>
      rw [Reader.step] at hstep
      split at hstep
      · rename_i hheld
        obtain ⟨t, id, hreach, hid, hrec⟩ := inv.table hheld
        obtain ⟨node, entries, hn⟩ := hdoc.nodeEntries hid
        obtain ⟨obj, hobj, -, hperm⟩ := hn.entries_ok
        obtain ⟨v, view, hindex, hread, hwhich⟩ := proxyIndex_reads henv hres
          (inv.document.symm ▸ hdoc) inv.view hrec (inv.document.symm ▸ hn) key
        simp only [hindex, Option.some.injEq] at hstep
        subst hstep
        refine inv.of_read [v] hread fun w hw => ?_
        obtain rfl := List.mem_singleton.mp hw
        obtain ⟨e, he, -, himage⟩ | ⟨rfl, -⟩ := hwhich
        · exact ⟨e.2, .inr (.value hreach hobj (hperm.mem_iff.mp he)), himage⟩
        · exact ⟨.nil, .inl rfl, rfl⟩
      · contradiction
  | next object key =>
      rw [Reader.step] at hstep
      split at hstep
      · rename_i hheld
        obtain ⟨t, id, hreach, hid, hrec⟩ := inv.table hheld
        obtain ⟨node, entries, hn⟩ := hdoc.nodeEntries hid
        obtain ⟨obj, hobj, -, hperm⟩ := hn.entries_ok
        obtain ⟨i, shown, view, hnext, hread, hshows, -⟩ | ⟨-, hnext, -⟩ := proxyNext_cases henv hres
          (inv.document.symm ▸ hdoc) inv.view hrec (inv.document.symm ▸ hn) key
        · simp only [hnext, Option.some.injEq] at hstep
          subst hstep
          exact inv.of_read [shown.1, shown.2] hread (hshows.ofGraph hreach hobj hperm)
        · simp only [hnext, Option.some.injEq] at hstep
          exact hstep ▸ inv
      · contradiction
  | drop value =>
      obtain rfl := Option.some.inj hstep
      exact ⟨inv.view, inv.document, fun w hw => inv.shown w (List.mem_filter.mp hw).1⟩
  | leave object index side =>
      rw [Reader.step] at hstep
      split at hstep
      · rename_i hheld
        cases hd : r.view.descriptorAt object index side with
        | none => simp [hd] at hstep
        | some d =>
            obtain ⟨v, hv⟩ := descriptorAt_ofGraph hdoc inv hheld hd
            obtain ⟨w, view, hdec, hread, -⟩ := decode_reads henv hres (inv.document.symm ▸ hdoc)
              inv.view hv
            simp only [hd, hdec, Option.some.injEq] at hstep
            subst hstep
            exact inv.of_read [] hread (by simp)
      · contradiction
  | collectProxy id =>
      rw [Reader.step] at hstep
      cases hp : r.view.proxies id with
      | none => simp [hp] at hstep
      | some object =>
          simp only [hp] at hstep
          split at hstep
          · contradiction
          · rename_i hheld
            obtain rfl := Option.some.inj hstep
            refine ⟨inv.view.collectProxy id, ?_, fun w hw => ?_⟩
            · rw [← inv.document]
              simp only [ViewState.collectProxy, hp]
            · obtain ⟨v, hv, himage⟩ := inv.shown w hw
              refine ⟨v, hv, image_collectProxy hp himage ?_⟩
              rintro rfl
              exact hheld (Reader.holds_table.mpr hw)
  | collectFunction id =>
      rw [Reader.step] at hstep
      cases hf : r.view.functions id with
      | none => simp [hf] at hstep
      | some f =>
          simp only [hf] at hstep
          split at hstep
          · contradiction
          · rename_i hheld
            obtain rfl := Option.some.inj hstep
            refine ⟨inv.view.collectFunction id, inv.document, fun w hw => ?_⟩
            obtain ⟨v, hv, himage⟩ := inv.shown w hw
            refine ⟨v, hv, image_collectFunction hf himage ?_⟩
            rintro rfl
            exact hheld (List.any_eq_true.mpr ⟨_, hw, beq_self_eq_true f⟩)

/-- **Along every run** everything the program holds is the image of a value
of the graph. -/
theorem run_shown (henv : env.Lawful)
    (hres : Resolvable env h h₀ fun f => (functionIds f).isSome)
    (hdoc : Describes env h doc tableIds functionIds)
    (inv : ReaderInv env h h₀ root doc tableIds functionIds r) {actions : List (ReadAction F)}
    (hrun : Transition.run (Reader.step env) r actions = some r') :
    ReaderInv env h h₀ root doc tableIds functionIds r' :=
  Transition.run_invariant (fun _ _ _ inv hstep => step_shown henv hres hdoc inv hstep) inv hrun

/-- A table is shown as the object that stands for its name. -/
theorem image_table_iff {s : ViewState F} (inv : ReadInv env h h₀ functionIds s) {t object : Nat} :
    s.image tableIds functionIds (.table t) = some (.table object) ↔
      ∃ id, tableIds t = some id ∧ s.record object = some id := by
  constructor
  · intro himage
    obtain ⟨n, hn, heq⟩ := Option.map_eq_some_iff.mp himage
    obtain ⟨id, hid, hp⟩ := Option.bind_eq_some_iff.mp hn
    obtain rfl := Value.table.inj heq
    exact ⟨id, hid, (inv.record_iff id n).mp hp⟩
  · rintro ⟨id, hid, hrec⟩
    rw [ViewState.image_table hid, (inv.record_iff id object).mpr hrec]
    rfl

theorem ReaderInv.proxies (inv : ReaderInv env h h₀ root doc tableIds functionIds r) : r.Inv := by
  refine ⟨⟨inv.view.record_iff, fun object id hrec => ?_⟩, fun v hv object ho => ?_⟩
  · exact (inv.view.made.table_new id object ((inv.view.record_iff id object).mpr hrec)).2
  · obtain ⟨t, id, -, -, hrec⟩ := inv.table (Reader.holds_table.mpr (ho ▸ hv))
    exact ⟨id, hrec⟩

/-- **A proxy that is held** stays the image of its table. -/
theorem image_of_held (henv : env.Lawful)
    (hres : Resolvable env h h₀ fun f => (functionIds f).isSome)
    (hdoc : Describes env h doc tableIds functionIds)
    (inv : ReaderInv env h h₀ root doc tableIds functionIds r) {actions : List (ReadAction F)}
    (hrun : Transition.run (Reader.step env) r actions = some r') {t object : Nat}
    (himage : r.view.image tableIds functionIds (.table t) = some (.table object))
    (hheld : r'.holds (.table object)) :
    r'.view.image tableIds functionIds (.table t) = some (.table object) := by
  obtain ⟨id, hid, hrec⟩ := (image_table_iff inv.view).mp himage
  have inv' := run_shown henv hres hdoc inv hrun
  exact (image_table_iff inv'.view).mpr ⟨id, hid, Reader.run_record inv.proxies hrun hrec hheld⟩

/-- A new view shows the root. -/
theorem newView_shown (h₀ : Heap F) {t : Nat} (hformat : doc.format = 2)
    (hroot : descOf tableIds functionIds (.table t) = some doc.root) :
    ∃ object s, ViewState.newView env h₀ doc = .ok (.table object, s) ∧
      ReaderInv env h h₀ (.table t) doc tableIds functionIds
        { view := s, held := [.table object] } ∧
      s.image tableIds functionIds (.table t) = some (.table object) := by
  obtain ⟨id, hid, hdesc⟩ := Option.map_eq_some_iff.mp hroot
  let unread := ViewState.unread h₀ doc
  have inv₀ : ReadInv env h h₀ functionIds unread :=
    ⟨DecInv.start env h h₀ functionIds, (ProxyInv.unread h₀ doc).record_iff⟩
  obtain ⟨hread, hp⟩ := proxyFor_reads inv₀ id
  refine ⟨(unread.proxyFor id).1, (unread.proxyFor id).2, ?_, ⟨hread.inv, hread.le.document, fun w hw => ?_⟩, ?_⟩
  · simp only [ViewState.newView, hformat, ← hdesc, ViewState.decode, ne_eq, not_true_eq_false,
      if_false, bind, Except.bind, pure, Except.pure]
    rfl
  · obtain rfl := List.mem_singleton.mp hw
    refine ⟨.table t, .inr .root, ?_⟩
    rw [ViewState.image_table hid, hp]
    rfl
  · rw [ViewState.image_table hid, hp]
    rfl

/-! ## Faithful views -/

/-- What reading through a view shows, whatever has been read before.  `order t`
lists the entries of the table `t` in the order of its node. -/
structure Faithful [NatCast F] (env : Env F) (h : Heap F) (tableIds functionIds : Nat → Option Bytes)
    (order : Nat → List (Value F × Value F)) (s : ViewState F) : Prop where
  /-- Two values that are shown are equal if the values of the graph are. -/
  same : ∀ v w v' w', s.image tableIds functionIds v = some v' →
    s.image tableIds functionIds w = some w' → v'.rawEqual w' = v.rawEqual w
  /-- Indexing shows the value under a key, and nil when the key is not there. -/
  index : ∀ t object obj key, s.image tableIds functionIds (.table t) = some (.table object) →
    h.tables[t]? = some obj → ∃ v s', s.proxyIndex env object key = .ok (v, s') ∧
      ((∃ e ∈ obj.entries, Matches tableIds functionIds s' e.1 key ∧
        s'.image tableIds functionIds e.2 = some v) ∨
       (v = .nil ∧ ∀ e ∈ obj.entries, Missing tableIds functionIds s' e.1 key))
  /-- `next` shows the entry behind its key. -/
  next : ∀ t object key i, s.image tableIds functionIds (.table t) = some (.table object) →
    NextFrom tableIds functionIds s (order t) key i →
    ∃ shown s', s.proxyNext env object key = .ok (shown, s') ∧
      Shows tableIds functionIds s' (order t)[i]? shown
  /-- A traversal shows every entry once and ends. -/
  traverse : ∀ t object rounds, s.image tableIds functionIds (.table t) = some (.table object) →
    (order t).length < rounds → ∃ shown s', s.traverse env object rounds .nil = .ok (shown, s') ∧
      List.Forall₂ (fun (e w : Value F × Value F) =>
        s'.image tableIds functionIds e.1 = some w.1 ∧
        s'.image tableIds functionIds e.2 = some w.2) (order t) shown
  /-- `ipairs` shows the values under the numbers from one on. -/
  ipairs : ∀ t object obj i, s.image tableIds functionIds (.table t) = some (.table object) →
    h.tables[t]? = some obj → ∃ next s', s.proxyIpairsIterator env object i = .ok (next, s') ∧
      ((∃ e ∈ obj.entries, (Value.number ((i + 1 : Nat) : F)).rawEqual e.1 = true ∧
        ∃ w, s'.image tableIds functionIds e.2 = some w ∧ next = some (i + 1, w)) ∨
       (next = none ∧
        ∀ e ∈ obj.entries, (Value.number ((i + 1 : Nat) : F)).rawEqual e.1 = false))

theorem ReadInv.faithful [NatCast F] (henv : env.Lawful)
    (hres : Resolvable env h h₀ fun f => (functionIds f).isSome) {s : ViewState F}
    (hdoc : Describes env h s.document tableIds functionIds) (inv : ReadInv env h h₀ functionIds s)
    {order : Nat → List (Value F × Value F)}
    (horder : ∀ t id, tableIds t = some id →
      ∃ node, NodeEntries h s.document tableIds functionIds t id node (order t)) :
    Faithful env h tableIds functionIds order s := by
  have hproxy : ∀ {t object}, s.image tableIds functionIds (.table t) = some (.table object) →
      ∃ id node, s.record object = some id ∧
        NodeEntries h s.document tableIds functionIds t id node (order t) := by
    intro t object himage
    obtain ⟨id, hid, hrec⟩ := (image_table_iff inv).mp himage
    obtain ⟨node, hnode⟩ := horder t id hid
    exact ⟨id, node, hrec, hnode⟩
  have hmem : ∀ {t id node obj}, NodeEntries h s.document tableIds functionIds t id node (order t) →
      h.tables[t]? = some obj → ∀ e, e ∈ order t ↔ e ∈ obj.entries := by
    intro t id node obj hn hobj e
    obtain ⟨obj', hobj', -, hperm⟩ := hn.entries_ok
    obtain rfl := Option.some.inj (hobj.symm.trans hobj')
    exact hperm.mem_iff
  constructor
  · intro v w v' w' hv hw
    exact image_rawEqual hdoc inv hv hw
  · intro t object obj key himage hobj
    obtain ⟨id, node, hrec, hn⟩ := hproxy himage
    obtain ⟨v, s', hindex, -, hwhich⟩ := proxyIndex_reads henv hres hdoc inv hrec hn key
    simp only [hmem hn hobj] at hwhich
    exact ⟨v, s', hindex, hwhich⟩
  · intro t object key i himage hfrom
    obtain ⟨id, node, hrec, hn⟩ := hproxy himage
    obtain ⟨shown, s', hnext, -, hshows⟩ := proxyNext_reads henv hres hdoc inv hrec hn hfrom
    exact ⟨shown, s', hnext, hshows⟩
  · intro t object rounds himage hrounds
    obtain ⟨id, node, hrec, hn⟩ := hproxy himage
    obtain ⟨shown, s', htraverse, -, hall⟩ := traverse_reads henv hres (order t) [] rounds s .nil rfl
      hrounds hdoc inv hrec hn (.inl ⟨rfl, rfl⟩)
    exact ⟨shown, s', htraverse, hall⟩
  · intro t object obj i himage hobj
    obtain ⟨id, node, hrec, hn⟩ := hproxy himage
    obtain ⟨next, s', hipairs, -, hwhich⟩ := proxyIpairsIterator_reads henv hres hdoc inv hrec hn i
    simp only [hmem hn hobj] at hwhich
    exact ⟨next, s', hipairs, hwhich⟩

/-- **Proxies are faithful.**  For every graph that `encode` accepts there is a
view of the document, and in every state a program and the collector can bring
it into: everything the program holds is the image of a value of the graph,
reading any proxy shows the entries of its table, a proxy that stays held
stays the image of its table, and the copy of the root is isomorphic to the
graph, as is what `decode` builds. -/
theorem proxies_faithful [NatCast F] (henv : env.Lawful) (hheap : h.WellFormed) {t : Nat}
    {fuel : Nat} (hfuel : h.tables.length < fuel)
    (henc : encode env h fuel (.table t) = .ok doc)
    (hres : Resolvable env h h₀ fun f => Reach h (.table t) (.func f)) :
    ∃ (tableIds functionIds : Nat → Option Bytes) (order : Nat → List (Value F × Value F)),
      (∀ x obj, (tableIds x).isSome → h.tables[x]? = some obj → (order x).Perm obj.entries) ∧
      (∃ object s, ViewState.newView env h₀ doc = .ok (.table object, s)) ∧
      (∃ root' h', decode env h₀ fuel doc = .ok (root', h') ∧ Isomorphic h (.table t) h' root') ∧
      ∀ object s actions r, ViewState.newView env h₀ doc = .ok (.table object, s) →
        Transition.run (Reader.step env) { view := s, held := [.table object] } actions = some r →
        Faithful env h tableIds functionIds order r.view ∧
        (∀ w ∈ r.held, ∃ v, OfGraph h (.table t) v ∧
          r.view.image tableIds functionIds v = some w) ∧
        (r.holds (.table object) →
          r.view.image tableIds functionIds (.table t) = some (.table object) ∧
          ∀ rounds, (∀ (x : Nat) (obj : TableObj F), h.tables[x]? = some obj →
            obj.entries.length < rounds) →
            ∃ root' h', r.view.copy env rounds fuel (.table object) = .ok (root', h') ∧
              Isomorphic h (.table t) h' root') ∧
        ∀ actions' r', Transition.run (Reader.step env) r actions' = some r' →
          ∀ x o, r.view.image tableIds functionIds (.table x) = some (.table o) →
            r'.holds (.table o) →
            r'.view.image tableIds functionIds (.table x) = some (.table o) := by
  have hg := shareable_of_encode henv hheap henc
  obtain ⟨doc', ids, fids, henc', hformat, hdoc, hroot⟩ := encode_describes henv hg hfuel
  obtain rfl := Except.ok.inj (henc'.symm.trans henc)
  obtain ⟨tableIds, functionIds, hdoc, hroot, -, hfuncs⟩ := hdoc.restrict hroot
  have hres := hres.mono hfuncs
  have hentries : ∀ x, ∃ entries, ∀ id, tableIds x = some id →
      ∃ node, NodeEntries h doc' tableIds functionIds x id node entries := by
    intro x
    cases hid : tableIds x with
    | none => exact ⟨[], fun id hid => absurd hid (Option.some_ne_none id).symm⟩
    | some id =>
        obtain ⟨node, entries, hn⟩ := hdoc.nodeEntries hid
        refine ⟨entries, fun id' hid' => ⟨node, ?_⟩⟩
        obtain rfl := Option.some.inj hid'
        exact hn
  choose order horder using hentries
  obtain ⟨object₀, s₀, hview, inv₀, himage₀⟩ :
      ∃ object s, ViewState.newView env h₀ doc' = .ok (.table object, s) ∧
        ReaderInv env h h₀ (.table t) doc' tableIds functionIds
          { view := s, held := [.table object] } ∧
        s.image tableIds functionIds (.table t) = some (.table object) :=
    newView_shown h₀ hformat hroot
  refine ⟨tableIds, functionIds, order, fun x obj hx hobj => ?_, ⟨object₀, s₀, hview⟩,
    decode_describes henv hres hdoc hformat hg hroot hfuel, fun object s actions r hview' hrun => ?_⟩
  · obtain ⟨id, hid⟩ := Option.isSome_iff_exists.mp hx
    obtain ⟨node, hn⟩ := horder x id hid
    obtain ⟨obj', hobj', -, hperm⟩ := hn.entries_ok
    obtain rfl := Option.some.inj (hobj.symm.trans hobj')
    exact hperm
  · obtain ⟨heq, rfl⟩ := Prod.mk.inj (Except.ok.inj (hview.symm.trans hview'))
    obtain rfl := Value.table.inj heq
    have inv := run_shown henv hres hdoc inv₀ hrun
    have hdoc' : Describes env h r.view.document tableIds functionIds := inv.document.symm ▸ hdoc
    refine ⟨inv.view.faithful henv hres hdoc' fun x id hid => inv.document.symm ▸ horder x id hid,
      inv.shown, fun hheld => ?_, fun actions' r' hrun' x o himage hheld =>
        image_of_held henv hres hdoc inv hrun' himage hheld⟩
    have himage := image_of_held henv hres hdoc inv₀ hrun himage₀ hheld
    exact ⟨himage, fun rounds hrounds =>
      copy_isomorphic henv hres hdoc' inv.view hg himage hrounds hfuel⟩

end Runs

/-! ### The sample graph -/

theorem sampleHeap_wellFormed : sampleHeap.WellFormed := by
  intro t obj hobj
  have hmem := List.mem_of_getElem? hobj
  simp only [sampleHeap, List.mem_cons, List.not_mem_nil, or_false] at hmem
  obtain rfl | rfl | rfl | rfl := hmem
  all_goals constructor <;> decide

/-- The sample graph read in the service that encoded it. -/
theorem proxies_faithful_sample :
    ∃ doc object s tableIds functionIds order,
      encode sampleEnv sampleHeap 5 (.table 2) = .ok doc ∧
      ViewState.newView sampleEnv sampleHeap doc = .ok (.table object, s) ∧
      Faithful sampleEnv sampleHeap tableIds functionIds order s ∧
      s.image tableIds functionIds (.table 2) = some (.table object) ∧
      ∃ root' h', s.copy sampleEnv 6 5 (.table object) = .ok (root', h') ∧
        Isomorphic sampleHeap (.table 2) h' root' := by
  obtain ⟨doc, -, -, henc, -⟩ := encode_describes sampleEnv_lawful sampleHeap_shareable
    (show sampleHeap.tables.length < 5 by decide)
  obtain ⟨tableIds, functionIds, order, -, ⟨object, s, hview⟩, -, hruns⟩ :=
    proxies_faithful sampleEnv_lawful sampleHeap_wellFormed (by decide) henc
      (Resolvable.self sampleEnv sampleHeap _)
  obtain ⟨hfaithful, -, hroot, -⟩ := hruns object s [] _ hview rfl
  obtain ⟨himage, hcopy⟩ := hroot (Reader.holds_table.mpr (List.mem_singleton.mpr rfl))
  refine ⟨doc, object, s, tableIds, functionIds, order, henc, hview, hfaithful, himage,
    hcopy 6 fun x obj hobj => ?_⟩
  have hmem := List.mem_of_getElem? hobj
  simp only [sampleHeap, List.mem_cons, List.not_mem_nil, or_false] at hmem
  obtain rfl | rfl | rfl | rfl := hmem
  all_goals decide

end SkynetJit.Sharetable
