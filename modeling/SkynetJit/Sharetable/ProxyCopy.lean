import SkynetJit.Sharetable.ProxyRead

/-!
# SkynetJit.Sharetable.ProxyCopy

`sharetable.copy`.  It walks the proxies with `next` and makes a table for
each, so it is a decoder in its own right: what it has made of a table of the
graph is the copy of that table's proxy.  The loop over the entries assigns
as `decode_table` does, and the recursion makes one table more at each level.
-/

namespace SkynetJit.Sharetable

variable {F : Type} {h : Heap F} {tableIds functionIds : Nat → Option Bytes}

/-- A copy in progress as a decoder. -/
def CopyState.made (s : CopyState F) : DecState F :=
  { heap := s.view.heap, tables := fun id => (s.view.proxies id).bind s.copies
    functions := s.view.functions }

section Copy

variable [BEq F] {env : Env F} {h₀ : Heap F} {s s₁ s₂ : CopyState F} {hole : Option Nat}

/-- The invariant of a copy in progress: its view is one, it is a decoder, and
only proxies have copies. -/
structure CopyInv (env : Env F) (h h₀ : Heap F) (functionIds : Nat → Option Bytes)
    (s : CopyState F) : Prop where
  view : ReadInv env h h₀ functionIds s.view
  made : DecInv env h h₀ functionIds s.made
  copied : ∀ object n, s.copies object = some n → ∃ id, s.view.proxies id = some object

/-- A step of the copy.  The table that is being filled may change. -/
structure CopyStep (env : Env F) (h h₀ : Heap F) (tableIds functionIds : Nat → Option Bytes)
    (hole : Option Nat) (s s' : CopyState F) : Prop where
  inv : CopyInv env h h₀ functionIds s'
  document : s'.view.document = s.view.document
  proxies : ∀ id object, s.view.proxies id = some object → s'.view.proxies id = some object
  made : DecStep env h h₀ tableIds functionIds hole s.made s'.made

namespace CopyStep

theorem refl (inv : CopyInv env h h₀ functionIds s) :
    CopyStep env h h₀ tableIds functionIds hole s s :=
  ⟨inv, rfl, fun _ _ hp => hp, DecStep.refl inv.made⟩

theorem weaken (hstep : CopyStep env h h₀ tableIds functionIds none s s₁) :
    CopyStep env h h₀ tableIds functionIds hole s s₁ :=
  ⟨hstep.inv, hstep.document, hstep.proxies, hstep.made.weaken⟩

theorem trans (hstep : CopyStep env h h₀ tableIds functionIds hole s s₁)
    (hstep' : CopyStep env h h₀ tableIds functionIds hole s₁ s₂)
    (hhole : ∀ n, hole = some n → ∃ id, s.made.tables id = some n) :
    CopyStep env h h₀ tableIds functionIds hole s s₂ :=
  ⟨hstep'.inv, hstep'.document.trans hstep.document,
    fun id o hp => hstep'.proxies id o (hstep.proxies id o hp), hstep.made.trans hstep'.made hhole⟩

/-- What the view has shown stays shown. -/
theorem image (hstep : CopyStep env h h₀ tableIds functionIds hole s s₁) {v w : Value F}
    (hv : s.view.image tableIds functionIds v = some w) :
    s₁.view.image tableIds functionIds v = some w :=
  ViewState.image_keep hv (fun id object _ hp => hstep.proxies id object hp)
    fun id f _ hf => hstep.made.le.func id f hf

/-- Reading makes proxies and functions, and no copy. -/
theorem of_read (inv : CopyInv env h h₀ functionIds s) {view : ViewState F}
    (hread : ReadStep env h h₀ functionIds s.view view) :
    CopyStep env h h₀ tableIds functionIds hole s { s with view } := by
  have htables : (CopyState.made { s with view }).tables = s.made.tables := by
    funext id
    change (view.proxies id).bind s.copies = (s.view.proxies id).bind s.copies
    cases hp : s.view.proxies id with
    | some object => rw [hread.le.proxies id object hp]
    | none =>
        cases hp' : view.proxies id with
        | none => rfl
        | some object =>
            cases hc : s.copies object with
            | none => simp [hc]
            | some n =>
                -- an object that has a copy was a proxy before
                obtain ⟨i, hi⟩ := inv.copied object n hc
                have hrec := (hread.inv.record_iff i object).mp (hread.le.proxies i object hi)
                rw [(hread.inv.record_iff id object).mp hp', Option.some.injEq] at hrec
                simp [hrec, hi] at hp
  have hle : DecLe hole s.made (CopyState.made { s with view }) :=
    ⟨fun id n hn => htables ▸ hn, hread.le.functions, hread.le.grows.length_le,
      fun n hn _ => hread.le.made.keep n hn (by simp)⟩
  have hdec : DecInv env h h₀ functionIds (CopyState.made { s with view }) := by
    refine ⟨hread.inv.made.grows, fun id n hn => ?_, fun id id' n hn hn' => ?_,
      hread.inv.made.funcs_le, hread.inv.made.func_made, hread.inv.made.func_inj⟩
    · have hnew := inv.made.table_new id n (htables ▸ hn)
      exact ⟨hnew.1, Nat.lt_of_lt_of_le hnew.2 hle.length⟩
    · exact inv.made.table_inj id id' n (htables ▸ hn) (htables ▸ hn')
  refine ⟨⟨hread.inv, hdec, fun object n hc => ?_⟩, hread.le.document, hread.le.proxies,
    DecStep.of_tables hdec hle htables⟩
  obtain ⟨id, hid⟩ := inv.copied object n hc
  exact ⟨id, hread.le.proxies id object hid⟩

end CopyStep

/-! ## Opening and filling a copy -/

theorem made_openCopy (inv : CopyInv env h h₀ functionIds s) {id : Bytes} {object : Nat}
    (hp : s.view.proxies id = some object) : (s.openCopy object).made = s.made.openTable id := by
  have htables : (s.openCopy object).made.tables = (s.made.openTable id).tables := by
    funext i
    change (s.view.proxies i).bind (Function.update s.copies object (some s.view.heap.tables.length)) =
      Function.update s.made.tables id (some s.view.heap.tables.length) i
    by_cases hi : i = id
    · subst hi
      simp [hp]
    · rw [Function.update_of_ne hi]
      cases hpi : s.view.proxies i with
      | none => simp [CopyState.made, hpi]
      | some o =>
          have hne : o ≠ object := by
            rintro rfl
            have hrec := (inv.view.record_iff i o).mp hpi
            rw [(inv.view.record_iff id o).mp hp, Option.some.injEq] at hrec
            exact hi hrec.symm
          simp [CopyState.made, hpi, Function.update_of_ne hne]
  rw [DecState.mk.injEq]
  exact ⟨rfl, htables, rfl⟩

theorem CopyInv.openCopy (inv : CopyInv env h h₀ functionIds s) {id : Bytes} {object : Nat}
    (hp : s.view.proxies id = some object) :
    CopyInv env h h₀ functionIds (s.openCopy object) := by
  have hgrow : s.view.made.heap.Grows (s.openCopy object).view.heap :=
    ⟨fun t obj ht => (List.getElem?_append_left (List.getElem?_eq_some_iff.mp ht).1).trans ht,
      fun _ _ hf => hf, rfl, rfl⟩
  refine ⟨⟨inv.view.made.grow hgrow, inv.view.record_iff⟩, ?_, fun o n hc => ?_⟩
  · rw [made_openCopy inv hp]
    exact inv.made.newTable _ inv.made.length_le
  · by_cases ho : o = object
    · exact ⟨id, ho ▸ hp⟩
    · exact inv.copied o n ((Function.update_of_ne ho ..).symm.trans hc)

/-- Assigning to a copy replaces it. -/
theorem Heap.assign_cases {h h' : Heap F} {t : Nat} {k v : Value F} (hok : h.assign t k v = .ok h') :
    ∃ obj, h' = { h with tables := h.tables.set t obj } := by
  rw [Heap.assign] at hok
  cases ht : h.tables[t]? with
  | none => simp [ht] at hok
  | some obj =>
      cases hset : obj.rawset k v with
      | error e => simp [ht, hset] at hok
      | ok obj' =>
          simp only [ht, hset, Except.ok.injEq] at hok
          exact ⟨obj', hok.symm⟩

/-- An entry is assigned to the copy that is being filled. -/
theorem CopyStep.of_assign (inv : CopyInv env h h₀ functionIds s) {n : Nat} {k v : Value F}
    {heap : Heap F} (hn : h₀.tables.length ≤ n) (hassign : s.view.heap.assign n k v = .ok heap)
    (hstep : DecStep env h h₀ tableIds functionIds (some n) s.made { s.made with heap }) :
    CopyStep env h h₀ tableIds functionIds (some n) s
      { s with view := { s.view with heap } } := by
  obtain ⟨obj, rfl⟩ := Heap.assign_cases hassign
  exact ⟨⟨⟨inv.view.made.setTable hn obj, inv.view.record_iff⟩, hstep.inv, inv.copied⟩, rfl,
    fun _ _ hp => hp, hstep⟩

/-! ## One spec for each function of the copy -/

/-- A call of `copy_proxy` at what the view shows for a value: it succeeds with
the value's copy and is a step. -/
def CopyOk (env : Env F) (h h₀ : Heap F) (tableIds functionIds : Nat → Option Bytes)
    (s : CopyState F) (v : Value F) (result : Except Fault (Value F × CopyState F)) : Prop :=
  ∃ w s', result = .ok (w, s') ∧ CopyStep env h h₀ tableIds functionIds none s s' ∧
    imageOf tableIds functionIds s'.made v = some w

/-- The loop goes through the entries in the order of the node and fills the
table `result` with the copies.  The induction is on the entries that are
left. -/
theorem copyLoop_ok (henv : env.Lawful)
    (hres : Resolvable env h h₀ fun f => (functionIds f).isSome)
    {copy : CopyState F → Value F → Except Fault (Value F × CopyState F)} {t object result : Nat}
    {id : Bytes} {node : Node F} {entries : List (Value F × Value F)} (bound : Nat)
    (hcopy : ∀ s v w, Describes env h s.view.document tableIds functionIds →
      CopyInv env h h₀ functionIds s → unmade h tableIds s.made < bound →
      s.view.image tableIds functionIds v = some w →
      CopyOk env h h₀ tableIds functionIds s v (copy s w)) :
    ∀ (rest done : List (Value F × Value F)) (rounds : Nat) (s : CopyState F) (key : Value F),
      entries = done ++ rest → rest.length < rounds →
      Describes env h s.view.document tableIds functionIds →
      CopyInv env h h₀ functionIds s → unmade h tableIds s.made < bound →
      s.view.proxies id = some object →
      NodeEntries h s.view.document tableIds functionIds t id node entries →
      s.made.tables id = some result →
      NextFrom tableIds functionIds s.view entries key done.length →
      Filling tableIds functionIds s.made result done →
      ∃ s', CopyState.copyLoop env copy object result rounds s key = .ok s' ∧
        CopyStep env h h₀ tableIds functionIds (some result) s s' ∧
        Filling tableIds functionIds s'.made result entries := by
  intro rest
  induction rest with
  | nil =>
      intro done rounds s key hsplit hrounds hdoc inv _ hp hn _ hfrom hf
      obtain ⟨rounds, rfl⟩ := Nat.exists_eq_succ_of_ne_zero (Nat.ne_of_gt hrounds)
      obtain ⟨shown, view, hnext, hread, hshows⟩ := proxyNext_reads henv hres hdoc inv.view
        ((inv.view.record_iff id object).mp hp) hn hfrom
      have hend : entries[done.length]? = none := by simp [hsplit]
      obtain ⟨e, he, -⟩ | ⟨-, rfl⟩ := hshows
      · exact absurd (hend.symm.trans he) (Option.some_ne_none e).symm
      · have step : CopyStep env h h₀ tableIds functionIds none s { s with view } :=
          CopyStep.of_read inv hread
        refine ⟨{ s with view }, ?_, step.weaken, ?_⟩
        · simp only [CopyState.copyLoop, hnext, bind, Except.bind, pure, Except.pure]
        · rw [hsplit, List.append_nil]
          exact hf.of_le step.made.le
  | cons e rest ih =>
      intro done rounds s key hsplit hrounds hdoc inv hbound hp hn hresult hfrom hf
      obtain ⟨rounds, rfl⟩ := Nat.exists_eq_succ_of_ne_zero (Nat.ne_of_gt (Nat.zero_lt_of_lt hrounds))
      obtain ⟨shown, view, hnext, hread, hshows⟩ := proxyNext_reads henv hres hdoc inv.view
        ((inv.view.record_iff id object).mp hp) hn hfrom
      have hentry : entries[done.length]? = some e := by simp [hsplit]
      obtain ⟨e', he', hki, hvi⟩ | ⟨hnone, -⟩ := hshows
      · obtain rfl : e = e' := Option.some.inj (hentry.symm.trans he')
        have hmem : e ∈ entries := List.mem_of_getElem? hentry
        have hnone : ∀ m, none = some m → ∃ id, s.made.tables id = some m :=
          fun m hm => absurd hm (Option.some_ne_none m).symm
        have step₁ : CopyStep env h h₀ tableIds functionIds none s { s with view } :=
          CopyStep.of_read inv hread
        obtain ⟨k, s₂, hk, step₂, hik⟩ := hcopy { s with view } e.1 shown.1
          (step₁.document ▸ hdoc) step₁.inv (Nat.lt_of_le_of_lt step₁.made.le.unmade_le hbound) hki
        have step₁₂ := step₁.trans step₂ hnone
        obtain ⟨v, s₃, hv, step₃, hiv⟩ := hcopy s₂ e.2 shown.2 (step₁₂.document ▸ hdoc) step₂.inv
          (Nat.lt_of_le_of_lt step₁₂.made.le.unmade_le hbound) (step₂.image hvi)
        have step₁₃ := step₁₂.trans step₃ hnone
        have hresult₃ := step₁₃.made.le.table id result hresult
        obtain ⟨heap, hassign, hset, hf₄⟩ := Filling.assign (step₁₃.document ▸ hdoc) step₃.inv.made
          (step₃.inv.made.table_new id result hresult₃).1 (hsplit ▸ hn.ok) (hf.of_le step₁₃.made.le)
          (step₃.made.le.image hik) hiv
        have step₄ := CopyStep.of_assign step₃.inv
          (step₃.inv.made.table_new id result hresult₃).1 hassign hset
        have hhole : ∀ m, some result = some m → ∃ id, s.made.tables id = some m := by
          rintro m ⟨⟩
          exact ⟨id, hresult⟩
        have step := step₁₃.weaken.trans step₄ hhole
        obtain ⟨s', hrest, step', hf'⟩ := ih (done ++ [e]) rounds
          { s₃ with view := { s₃.view with heap } } shown.1 (by simp [hsplit])
          (Nat.lt_of_succ_lt_succ hrounds) (step.document ▸ hdoc) step.inv
          (Nat.lt_of_le_of_lt step.made.le.unmade_le hbound) (step.proxies id object hp)
          (step.document ▸ hn) (step.made.le.table id result hresult)
          (.inr ⟨done.length, e, hentry, step₄.image (step₃.image (step₂.image hki)), by simp⟩) hf₄
        refine ⟨s', ?_, step.trans step' hhole, hf'⟩
        have hne : shown.1 ≠ .nil := imageOf_ne_nil hki (hn.ok.ne_nil e hmem).1
        simp only [CopyState.copyLoop, hnext, bind, Except.bind]
        cases hkey : shown.1 with
        | nil => exact absurd hkey hne
        | _ =>
            rw [hkey] at hk hrest
            have hassign : s₃.view.heap.assign result k v = .ok heap := hassign
            simp only [hk, hv, hassign]
            exact hrest
      · exact absurd (hentry.symm.trans hnone) (Option.some_ne_none e)

/-- **`copy_proxy`** terminates and copies what the view shows.  The induction
is on the fuel; every recursive call sees one more copy. -/
theorem copyProxy_ok (henv : env.Lawful)
    (hres : Resolvable env h h₀ fun f => (functionIds f).isSome) {rounds : Nat}
    (hrounds : ∀ (t : Nat) (obj : TableObj F), h.tables[t]? = some obj →
      obj.entries.length < rounds) :
    ∀ (fuel : Nat) (s : CopyState F) (v w : Value F),
      Describes env h s.view.document tableIds functionIds → CopyInv env h h₀ functionIds s →
      unmade h tableIds s.made < fuel → s.view.image tableIds functionIds v = some w →
      CopyOk env h h₀ tableIds functionIds s v (CopyState.copyProxy env rounds fuel s w) := by
  intro fuel
  induction fuel with
  | zero => intro s v w _ _ hlt; omega
  | succ fuel ih =>
      intro s v w hdoc inv hlt hv
      obtain ⟨t, object, id, rfl, rfl, hid, hp⟩ | ⟨f, n, id, rfl, rfl, hid, hf⟩ | ⟨rfl, ht, hf⟩ :=
        imageOf_cases hv
      · have hp : s.view.proxies id = some object := hp
        have hrec := (inv.view.record_iff id object).mp hp
        cases hc : s.copies object with
        | some result =>
            have hmade : s.made.tables id = some result := by simp [CopyState.made, hp, hc]
            simp only [CopyState.copyProxy, hrec, hc]
            exact ⟨_, s, rfl, CopyStep.refl inv, by simp [imageOf, hid, hmade]⟩
        | none =>
            obtain ⟨node, entries, hn⟩ := hdoc.nodeEntries hid
            obtain ⟨obj, hobj, wf, hperm⟩ := hn.entries_ok
            have hmade := made_openCopy inv hp
            have invOpen := inv.openCopy hp
            have hnew : s.made.tables id = none := by simp [CopyState.made, hp, hc]
            have leOpen : DecLe none s.made (s.openCopy object).made :=
              hmade ▸ DecLe.openTable hnew
            have hresult : (s.openCopy object).made.tables id = some s.made.heap.tables.length := by
              simp [hmade, DecState.openTable]
            have hlt' : unmade h tableIds (s.openCopy object).made < unmade h tableIds s.made :=
              unmade_lt (List.getElem?_eq_some_iff.mp hobj).1 hid hnew (by simp [hresult])
                leOpen.table
            have hfill : Filling tableIds functionIds (s.openCopy object).made
                s.made.heap.tables.length [] :=
              ⟨{ hasMeta := false, length := 0, entries := [] },
                by simp [CopyState.made, CopyState.openCopy], rfl, .nil⟩
            obtain ⟨s', hloop, step, hf⟩ := copyLoop_ok henv hres fuel
              (fun s₁ v₁ w₁ hdoc₁ inv₁ hbound himage => ih s₁ v₁ w₁ hdoc₁ inv₁ hbound himage)
              entries [] rounds (s.openCopy object) .nil rfl
              (hperm.length_eq ▸ hrounds t obj hobj) hdoc invOpen (by omega) hp hn hresult
              (.inl ⟨rfl, rfl⟩) hfill
            have hstep := DecStep.close hdoc hid leOpen (by rw [hmade]; rfl) step.made hobj hperm hf
            simp only [CopyState.copyProxy, hrec, hc, bind, Except.bind]
            have hloop : CopyState.copyLoop env (CopyState.copyProxy env rounds fuel) object
                s.view.heap.tables.length rounds (s.openCopy object) .nil = .ok s' := hloop
            simp only [hloop]
            refine ⟨_, s', rfl, ⟨step.inv, step.document, step.proxies, hstep⟩, ?_⟩
            have hdone := step.made.le.table id _ hresult
            simp only [imageOf, hid, Option.bind_some, hdone]
            rfl
      · refine ⟨_, s, rfl, CopyStep.refl inv, ?_⟩
        have hf : s.made.functions id = some n := hf
        simp [imageOf, hid, hf]
      · cases w with
        | table t => exact absurd rfl (ht t)
        | func f => exact absurd rfl (hf f)
        | _ => exact ⟨_, s, rfl, CopyStep.refl inv, rfl⟩

/-- **Copying a proxy builds a copy of the graph** below its table, whatever has
been read through the view before. -/
theorem copy_isomorphic (henv : env.Lawful)
    (hres : Resolvable env h h₀ fun f => (functionIds f).isSome) {s : ViewState F}
    (hdoc : Describes env h s.document tableIds functionIds) (inv : ReadInv env h h₀ functionIds s)
    {t object : Nat} (hg : ShareableGraph h (.table t))
    (hroot : s.image tableIds functionIds (.table t) = some (.table object)) {rounds fuel : Nat}
    (hrounds : ∀ (t : Nat) (obj : TableObj F), h.tables[t]? = some obj →
      obj.entries.length < rounds) (hfuel : h.tables.length < fuel) :
    ∃ root h', s.copy env rounds fuel (.table object) = .ok (root, h') ∧
      Isomorphic h (.table t) h' root := by
  let start : CopyState F := { view := s, copies := fun _ => none }
  have hnone : ∀ id, start.made.tables id = none := fun id => by
    cases hp : s.proxies id <;> simp [start, CopyState.made]
  have invStart : CopyInv env h h₀ functionIds start := by
    refine ⟨inv, ?_, fun o n hc => absurd hc (Option.some_ne_none n).symm⟩
    exact inv.made.forget (fun id n hn => absurd ((hnone id).symm.trans hn) (Option.some_ne_none n).symm)
      fun _ _ hf => hf
  have hbound : unmade h tableIds start.made < fuel := by
    refine Nat.lt_of_le_of_lt ?_ hfuel
    exact Nat.le_trans List.countP_le_length (by simp)
  obtain ⟨root, s', hcopy, step, himage⟩ := copyProxy_ok henv hres hrounds fuel start (.table t)
    (.table object) hdoc invStart hbound hroot
  have hfilled : ∀ t', ((tableIds t').bind s'.made.tables).isSome →
      Filled h tableIds functionIds s'.made t' := by
    intro t' ht'
    obtain hold | hfill := step.made.filled t' ht'
    · cases hid : tableIds t' <;> simp [hid, hnone] at hold
    · exact hfill
  have hrec : (s.record object).isSome := by
    obtain ⟨n, hn, heq⟩ := Option.map_eq_some_iff.mp hroot
    obtain ⟨id, -, hp⟩ := Option.bind_eq_some_iff.mp hn
    obtain rfl := Value.table.inj heq
    simp [(inv.record_iff id n).mp hp]
  refine ⟨root, s'.view.heap, ?_, isomorphic_of_filled hdoc hg step.inv.made himage hfilled⟩
  have hcopy : CopyState.copyProxy env rounds fuel { view := s, copies := fun _ => none }
      (.table object) = .ok (root, s') := hcopy
  simp only [ViewState.copy, hrec, hcopy, if_true, bind, Except.bind, pure, Except.pure]

end Copy

end SkynetJit.Sharetable
