import SkynetJit.Sharetable.CodecRoundTrip
import SkynetJit.Sharetable.ProxyRun

/-!
# SkynetJit.Sharetable.ProxyRead

What reading through proxies shows.  A view is a decoder that makes a proxy
for each table it meets and fills none, so what it has shown of a value is the
`imageOf` of the decoder, and its invariant is the decoder's with
`proxy_record` as the inverse of the cache.  `proxyIndex_reads` and
`proxyNext_reads` say that indexing and traversal show the entries of the
table, in the order of its node.
-/

namespace SkynetJit.Sharetable

variable {F : Type} {h : Heap F} {tableIds functionIds : Nat → Option Bytes}

/-! ## What a view has shown -/

/-- A view as a decoder. -/
def ViewState.made (s : ViewState F) : DecState F :=
  { heap := s.heap, tables := s.proxies, functions := s.functions }

/-- What the view has shown for a value of the shared graph. -/
def ViewState.image (tableIds functionIds : Nat → Option Bytes) (s : ViewState F) :
    Value F → Option (Value F) :=
  imageOf tableIds functionIds s.made

theorem ViewState.image_table {s : ViewState F} {t : Nat} {id : Bytes}
    (hid : tableIds t = some id) :
    s.image tableIds functionIds (.table t) = (s.proxies id).map .table := by
  rw [ViewState.image, imageOf, hid]
  rfl

theorem ViewState.image_func {s : ViewState F} {f : Nat} {id : Bytes}
    (hid : functionIds f = some id) :
    s.image tableIds functionIds (.func f) = (s.functions id).map .func := by
  rw [ViewState.image, imageOf, hid]
  rfl

/-- What is shown stays shown as long as its cache entry is there. -/
theorem ViewState.image_keep {s s' : ViewState F} {v w : Value F}
    (hv : s.image tableIds functionIds v = some w)
    (hproxies : ∀ id object, w = .table object → s.proxies id = some object →
      s'.proxies id = some object)
    (hfunctions : ∀ id f, w = .func f → s.functions id = some f → s'.functions id = some f) :
    s'.image tableIds functionIds v = some w := by
  obtain ⟨t, object, id, rfl, rfl, hid, hp⟩ | ⟨f, n, id, rfl, rfl, hid, hf⟩ | ⟨rfl, ht, hf⟩ :=
    imageOf_cases hv
  · rw [image_table hid, hproxies id object rfl hp]
    rfl
  · rw [image_func hid, hfunctions id n rfl hf]
    rfl
  · cases w with
    | table t => exact absurd rfl (ht t)
    | func f => exact absurd rfl (hf f)
    | _ => rfl

theorem Heap.Grows.length_le {h h' : Heap F} (hg : h.Grows h') :
    h.tables.length ≤ h'.tables.length := by
  by_contra hlt
  have hlt : h'.tables.length < h.tables.length := by omega
  have := hg.tables _ _ (List.getElem?_eq_getElem hlt)
  simp at this

/-- What a call may change in a view: it adds proxies and functions. -/
structure ReadLe (s s' : ViewState F) : Prop where
  document : s'.document = s.document
  proxies : ∀ id object, s.proxies id = some object → s'.proxies id = some object
  functions : ∀ id f, s.functions id = some f → s'.functions id = some f
  grows : s.heap.Grows s'.heap

namespace ReadLe

variable {s s₁ s₂ : ViewState F}

theorem refl (s : ViewState F) : ReadLe s s :=
  ⟨rfl, fun _ _ hp => hp, fun _ _ hf => hf, Heap.Grows.refl _⟩

theorem trans (hle : ReadLe s s₁) (hle' : ReadLe s₁ s₂) : ReadLe s s₂ :=
  ⟨hle'.document.trans hle.document, fun id o hp => hle'.proxies id o (hle.proxies id o hp),
    fun id f hf => hle'.functions id f (hle.functions id f hf), hle.grows.trans hle'.grows⟩

theorem made (hle : ReadLe s s₁) : DecLe none s.made s₁.made := by
  refine ⟨hle.proxies, hle.functions, hle.grows.length_le, fun n hn _ => ?_⟩
  have hget : s.made.heap.tables[n]? = some s.made.heap.tables[n] := List.getElem?_eq_getElem hn
  rw [hget]
  exact hle.grows.tables n _ hget

theorem image (hle : ReadLe s s₁) {v w : Value F}
    (hv : s.image tableIds functionIds v = some w) : s₁.image tableIds functionIds v = some w :=
  hle.made.image hv

end ReadLe

section Reads

variable [BEq F] {env : Env F} {h₀ : Heap F} {s s' : ViewState F}

/-- Objects are added to the heap. -/
theorem DecInv.grow {d : DecState F} (inv : DecInv env h h₀ functionIds d) {heap : Heap F}
    (hgrow : d.heap.Grows heap) : DecInv env h h₀ functionIds { d with heap } := by
  refine ⟨inv.grows.trans hgrow, fun id n hn => ?_, inv.table_inj, ?_, fun id n hn => ?_,
    inv.func_inj⟩
  · have hnew := inv.table_new id n hn
    exact ⟨hnew.1, Nat.lt_of_lt_of_le hnew.2 hgrow.length_le⟩
  · refine Nat.not_lt.mp fun hlt => ?_
    have := (inv.grows.trans hgrow).funcs _ _ (List.getElem?_eq_getElem hlt)
    simp at this
  · obtain ⟨f, fn, fn', hf, hfn, hfn', hmade⟩ := inv.func_made id n hn
    exact ⟨f, fn, fn', hf, hfn, hgrow.funcs n fn' hfn', hmade⟩

/-- Names are forgotten. -/
theorem DecInv.forget {d : DecState F} (inv : DecInv env h h₀ functionIds d)
    {tables functions : Bytes → Option Nat}
    (htables : ∀ id n, tables id = some n → d.tables id = some n)
    (hfunctions : ∀ id n, functions id = some n → d.functions id = some n) :
    DecInv env h h₀ functionIds { heap := d.heap, tables, functions } :=
  ⟨inv.grows, fun id n hn => inv.table_new id n (htables id n hn),
    fun id id' n hn hn' => inv.table_inj id id' n (htables id n hn) (htables id' n hn'),
    inv.funcs_le, fun id n hn => inv.func_made id n (hfunctions id n hn),
    fun id id' n hn hn' => inv.func_inj id id' n (hfunctions id n hn) (hfunctions id' n hn')⟩

/-- The invariant of a view: that of a decoder, and `proxy_record` tells for
each proxy in the cache which table it stands for. -/
structure ReadInv (env : Env F) (h h₀ : Heap F) (functionIds : Nat → Option Bytes)
    (s : ViewState F) : Prop where
  made : DecInv env h h₀ functionIds s.made
  record_iff : ∀ id object, s.proxies id = some object ↔ s.record object = some id

/-- A call on a view. -/
structure ReadStep (env : Env F) (h h₀ : Heap F) (functionIds : Nat → Option Bytes)
    (s s' : ViewState F) : Prop where
  inv : ReadInv env h h₀ functionIds s'
  le : ReadLe s s'

theorem ReadStep.refl (inv : ReadInv env h h₀ functionIds s) :
    ReadStep env h h₀ functionIds s s := ⟨inv, ReadLe.refl s⟩

theorem ReadStep.trans {s₁ s₂ : ViewState F} (hstep : ReadStep env h h₀ functionIds s s₁)
    (hstep' : ReadStep env h h₀ functionIds s₁ s₂) : ReadStep env h h₀ functionIds s s₂ :=
  ⟨hstep'.inv, hstep.le.trans hstep'.le⟩

/-- The proxy of a table: the one in the cache, or a new one. -/
theorem proxyFor_reads (inv : ReadInv env h h₀ functionIds s) (id : Bytes) :
    ReadStep env h h₀ functionIds s (s.proxyFor id).2 ∧
      (s.proxyFor id).2.proxies id = some (s.proxyFor id).1 := by
  rw [ViewState.proxyFor]
  cases hp : s.proxies id with
  | some object => exact ⟨ReadStep.refl inv, hp⟩
  | none =>
      dsimp only
      have hfresh : s.record s.heap.tables.length = none := by
        cases hrec : s.record s.heap.tables.length with
        | none => rfl
        | some i =>
            have hnew := inv.made.table_new i _ ((inv.record_iff i _).mpr hrec)
            exact absurd hnew.2 (Nat.lt_irrefl _)
      have hrecord := update_record_iff inv.record_iff hp hfresh
      refine ⟨⟨⟨inv.made.newTable _ inv.made.length_le, hrecord⟩, rfl, fun i object hi => ?_,
        fun _ _ hf => hf, fun t obj ht => ?_, fun _ _ hf => hf, rfl, rfl⟩,
        Function.update_self ..⟩
      · have hne : i ≠ id := by
          rintro rfl
          simp [hp] at hi
        exact (Function.update_of_ne hne ..).trans hi
      · exact (List.getElem?_append_left (List.getElem?_eq_some_iff.mp ht).1).trans ht

theorem decodeFunction_reads (henv : env.Lawful)
    (hres : Resolvable env h h₀ fun f => (functionIds f).isSome)
    (hdoc : Describes env h s.document tableIds functionIds)
    (inv : ReadInv env h h₀ functionIds s) {f : Nat} {id : Bytes} (hid : functionIds f = some id) :
    ∃ n s', s.decodeFunction env id = .ok (n, s') ∧ ReadStep env h h₀ functionIds s s' ∧
      s'.functions id = some n ∧ s'.proxies = s.proxies := by
  cases hf : s.functions id with
  | some n => exact ⟨n, s, by simp only [ViewState.decodeFunction, hf], ReadStep.refl inv, hf, rfl⟩
  | none =>
      obtain ⟨code, n, heap, hfun, hun, hgrow, -, inv'⟩ := inv.made.unpack henv hres hdoc hid hf
      have hun : unpackFunction env s.heap code = .ok (n, heap) := hun
      refine ⟨n, { s with heap, functions := Function.update s.functions id (some n) }, ?_,
        ⟨⟨inv', inv.record_iff⟩, rfl, fun _ _ hp => hp, fun i m hm => ?_, hgrow⟩,
        Function.update_self .., rfl⟩
      · simp only [ViewState.decodeFunction, hf, hfun, hun, bind, Except.bind, pure, Except.pure]
      · have hne : i ≠ id := by
          rintro rfl
          simp [hf] at hm
        exact (Function.update_of_ne hne ..).trans hm

/-- Decoding a descriptor shows the value it describes. -/
theorem decode_reads (henv : env.Lawful)
    (hres : Resolvable env h h₀ fun f => (functionIds f).isSome)
    (hdoc : Describes env h s.document tableIds functionIds)
    (inv : ReadInv env h h₀ functionIds s) {v : Value F} {d : Desc F}
    (hd : descOf tableIds functionIds v = some d) :
    ∃ w s', s.decode env d = .ok (w, s') ∧ ReadStep env h h₀ functionIds s s' ∧
      s'.image tableIds functionIds v = some w := by
  cases v with
  | table t =>
      obtain ⟨id, hid, rfl⟩ := Option.map_eq_some_iff.mp hd
      obtain ⟨hstep, hp⟩ := proxyFor_reads inv id
      refine ⟨.table (s.proxyFor id).1, (s.proxyFor id).2, rfl, hstep, ?_⟩
      rw [ViewState.image_table hid, hp]
      rfl
  | func f =>
      obtain ⟨id, hid, rfl⟩ := Option.map_eq_some_iff.mp hd
      obtain ⟨n, s', hdec, hstep, hf, -⟩ := decodeFunction_reads henv hres hdoc inv hid
      refine ⟨.func n, s', ?_, hstep, ?_⟩
      · simp only [ViewState.decode, hdec, bind, Except.bind, pure, Except.pure]
      rw [ViewState.image_func hid, hf]
      rfl
  | lightuserdata p =>
      obtain rfl := Option.some.inj hd
      exact ⟨_, s, by simp only [ViewState.decode, unpackPointer_packPointer], ReadStep.refl inv, rfl⟩
  | userdata u => simp [descOf] at hd
  | thread t => simp [descOf] at hd
  | nil | number n | string b | boolean b =>
      obtain rfl := Option.some.inj hd
      exact ⟨_, s, rfl, ReadStep.refl inv, rfl⟩

/-! ## Keys -/

/-- The view has shown a key of the graph, and it equals the value that is
looked for. -/
def Matches (tableIds functionIds : Nat → Option Bytes) (s : ViewState F) (k key : Value F) :
    Prop :=
  ∃ w, s.image tableIds functionIds k = some w ∧ key.rawEqual w = true

theorem packPointer_injective {p p' : UInt64} (heq : packPointer p = packPointer p') : p = p' := by
  have hun := unpackPointer_packPointer p
  rw [heq, unpackPointer_packPointer] at hun
  exact (Option.some.inj hun).symm

/-- What a comparison of a stored key with `key` found out.  It makes no proxy,
so the answer stays right as long as none is made; a function is decoded to
compare it. -/
structure Compared (tableIds functionIds : Nat → Option Bytes) (s s' : ViewState F)
    (k key : Value F) (found : Bool) : Prop where
  proxies : s'.proxies = s.proxies
  found_iff : ∀ s₂, ReadLe s' s₂ → s₂.proxies = s'.proxies →
    (found = true ↔ Matches tableIds functionIds s₂ k key)
  shown : ∀ f g, k = .func f → key = .func g → (s'.image tableIds functionIds k).isSome

/-- A scalar is its own image. -/
theorem Compared.scalar {k key : Value F}
    (himage : ∀ s : ViewState F, s.image tableIds functionIds k = some k) (hk : ∀ f, k ≠ .func f) :
    Compared tableIds functionIds s s k key (key.rawEqual k) := by
  refine ⟨rfl, fun s₂ _ _ => ⟨fun hraw => ⟨k, himage s₂, hraw⟩, ?_⟩, fun f _ hf => absurd hf (hk f)⟩
  rintro ⟨w, hw, hraw⟩
  obtain rfl : k = w := Option.some.inj ((himage s₂).symm.trans hw)
  exact hraw

theorem descriptorMatches_reads (henv : env.Lawful)
    (hres : Resolvable env h h₀ fun f => (functionIds f).isSome)
    (hdoc : Describes env h s.document tableIds functionIds)
    (inv : ReadInv env h h₀ functionIds s) {k : Value F} {d : Desc F}
    (hd : descOf tableIds functionIds k = some d) (hne : k ≠ .nil) (key : Value F) :
    ∃ found s', s.descriptorMatches env d key = .ok (found, s') ∧
      ReadStep env h h₀ functionIds s s' ∧ Compared tableIds functionIds s s' k key found := by
  cases k with
  | nil => exact absurd rfl hne
  | number n =>
      obtain rfl := Option.some.inj hd
      have hcompared : Compared tableIds functionIds s s (.number n) key (key.rawEqual (.number n)) :=
        Compared.scalar (fun _ => rfl) (by simp)
      cases key <;> exact ⟨_, s, rfl, ReadStep.refl inv, hcompared⟩
  | string b =>
      obtain rfl := Option.some.inj hd
      have hcompared : Compared tableIds functionIds s s (.string b) key (key.rawEqual (.string b)) :=
        Compared.scalar (fun _ => rfl) (by simp)
      cases key <;> exact ⟨_, s, rfl, ReadStep.refl inv, hcompared⟩
  | boolean b =>
      obtain rfl := Option.some.inj hd
      have hcompared : Compared tableIds functionIds s s (.boolean b) key (key.rawEqual (.boolean b)) :=
        Compared.scalar (fun _ => rfl) (by simp)
      cases key <;> exact ⟨_, s, rfl, ReadStep.refl inv, hcompared⟩
  | lightuserdata p =>
      obtain rfl := Option.some.inj hd
      have hcompared : Compared tableIds functionIds s s (.lightuserdata p) key (key.rawEqual (.lightuserdata p)) :=
        Compared.scalar (fun _ => rfl) (by simp)
      have hencoded : (pointerEncoding key == some (packPointer p)) =
          key.rawEqual (.lightuserdata p) := by
        cases key with
        | lightuserdata p' =>
            rw [Bool.eq_iff_iff]
            simp only [pointerEncoding, Value.rawEqual, beq_iff_eq, Option.some.injEq]
            exact ⟨packPointer_injective, fun heq => heq ▸ rfl⟩
        | _ => rfl
      exact ⟨_, s, rfl, ReadStep.refl inv, hencoded ▸ hcompared⟩
  | userdata u => simp [descOf] at hd
  | thread t => simp [descOf] at hd
  | table t =>
      obtain ⟨id, hid, rfl⟩ := Option.map_eq_some_iff.mp hd
      have himage : ∀ (s : ViewState F) w, s.image tableIds functionIds (.table t) = some w ↔
          ∃ object, s.proxies id = some object ∧ w = .table object := by
        intro s w
        rw [ViewState.image_table hid, Option.map_eq_some_iff]
        simp only [eq_comm]
      cases key with
      | table object =>
          refine ⟨_, s, rfl, ReadStep.refl inv, rfl, fun s₂ _ hsame => ?_, fun f g hf => by simp at hf⟩
          rw [beq_iff_eq, ← inv.record_iff, ← hsame]
          constructor
          · exact fun hp => ⟨_, (himage _ _).mpr ⟨object, hp, rfl⟩, beq_self_eq_true object⟩
          · rintro ⟨w, hw, hraw⟩
            obtain ⟨object', hp, rfl⟩ := (himage _ w).mp hw
            obtain rfl : object = object' := beq_iff_eq.mp hraw
            exact hp
      | _ =>
          refine ⟨false, s, rfl, ReadStep.refl inv, rfl, fun s₂ _ _ =>
            iff_of_false Bool.false_ne_true ?_, fun f g hf => by simp at hf⟩
          rintro ⟨w, hw, hraw⟩
          obtain ⟨object', -, rfl⟩ := (himage _ w).mp hw
          exact Bool.false_ne_true hraw
  | func f =>
      obtain ⟨id, hid, rfl⟩ := Option.map_eq_some_iff.mp hd
      have himage : ∀ (s : ViewState F) w, s.image tableIds functionIds (.func f) = some w ↔
          ∃ n, s.functions id = some n ∧ w = .func n := by
        intro s w
        rw [ViewState.image_func hid, Option.map_eq_some_iff]
        simp only [eq_comm]
      cases key with
      | func g =>
          obtain ⟨n, s', hdec, hstep, hn, hsame⟩ := decodeFunction_reads henv hres hdoc inv hid
          refine ⟨n == g, s', ?_, hstep, hsame, fun s₂ hle _ => ?_, fun f' g' hf' _ => ?_⟩
          · simp only [ViewState.descriptorMatches, hdec, bind, Except.bind, pure, Except.pure]
          · have hn₂ := hle.functions id n hn
            rw [beq_iff_eq]
            constructor
            · rintro rfl
              exact ⟨_, (himage s₂ _).mpr ⟨n, hn₂, rfl⟩, beq_self_eq_true n⟩
            · rintro ⟨w, hw, hraw⟩
              obtain ⟨n', hn', rfl⟩ := (himage s₂ w).mp hw
              obtain rfl : n = n' := Option.some.inj (hn₂.symm.trans hn')
              exact (beq_iff_eq.mp hraw).symm
          · simp [(himage s' (.func n)).mpr ⟨n, hn, rfl⟩]
      | _ =>
          refine ⟨false, s, rfl, ReadStep.refl inv, rfl, fun s₂ _ _ =>
            iff_of_false Bool.false_ne_true ?_, fun f g _ hg => by simp at hg⟩
          rintro ⟨w, hw, hraw⟩
          obtain ⟨n, -, rfl⟩ := (himage _ w).mp hw
          exact Bool.false_ne_true hraw

/-- Different values of the graph are shown as different values. -/
theorem image_rawEqual (hdoc : Describes env h s.document tableIds functionIds)
    (inv : ReadInv env h h₀ functionIds s) {v w v' w' : Value F}
    (hv : s.image tableIds functionIds v = some v')
    (hw : s.image tableIds functionIds w = some w') : v'.rawEqual w' = v.rawEqual w :=
  imageOf_rawEqual hdoc inv.made hv hw

/-! ## Entries -/

/-- The entries of a table in the order of its node. -/
structure NodeEntries (h : Heap F) (doc : Document F) (tableIds functionIds : Nat → Option Bytes)
    (t : Nat) (id : Bytes) (node : Node F) (entries : List (Value F × Value F)) : Prop where
  named : tableIds t = some id
  node_eq : doc.nodes id = some node
  entries_ok : ∃ obj, h.tables[t]? = some obj ∧ obj.WellFormed ∧ entries.Perm obj.entries
  described : List.Forall₂ (fun (e : Value F × Value F) (d : Desc F × Desc F) =>
    descOf tableIds functionIds e.1 = some d.1 ∧
    descOf tableIds functionIds e.2 = some d.2) entries node.entries

theorem Describes.nodeEntries {doc : Document F} (hdoc : Describes env h doc tableIds functionIds)
    {t : Nat} {id : Bytes} (hid : tableIds t = some id) :
    ∃ node entries, NodeEntries h doc tableIds functionIds t id node entries := by
  obtain ⟨id', node, obj, entries, hid', hnode, hobj, wf, hperm, hall⟩ :=
    hdoc.node t (by simp [hid])
  obtain rfl : id = id' := Option.some.inj (hid.symm.trans hid')
  exact ⟨node, entries, hid, hnode, ⟨obj, hobj, wf, hperm⟩, hall⟩

theorem NodeEntries.ok {doc : Document F} {t : Nat} {id : Bytes} {node : Node F}
    {entries : List (Value F × Value F)}
    (hn : NodeEntries h doc tableIds functionIds t id node entries) : EntriesOk entries := by
  obtain ⟨obj, -, wf, hperm⟩ := hn.entries_ok
  exact EntriesOk.of_perm wf hperm

/-- Nothing is stored under `k` for the reader's `key`; if both are functions,
`k` has been decoded. -/
structure Missing (tableIds functionIds : Nat → Option Bytes) (s : ViewState F)
    (k key : Value F) : Prop where
  not_matches : ¬ Matches tableIds functionIds s k key
  shown : ∀ f g, k = .func f → key = .func g → (s.image tableIds functionIds k).isSome

/-- The search stops at an entry whose key matches; when it finds none, no key
does. -/
theorem findFrom_reads (henv : env.Lawful)
    (hres : Resolvable env h h₀ fun f => (functionIds f).isSome) (key : Value F) :
    ∀ (entries : List (Value F × Value F)) (descs : List (Desc F × Desc F)) (index : Nat)
      (s : ViewState F), Describes env h s.document tableIds functionIds →
      ReadInv env h h₀ functionIds s →
      List.Forall₂ (fun (e : Value F × Value F) (d : Desc F × Desc F) =>
        descOf tableIds functionIds e.1 = some d.1 ∧
        descOf tableIds functionIds e.2 = some d.2) entries descs →
      (∀ e ∈ entries, e.1 ≠ .nil) →
      ∃ found s', ViewState.findFrom env key index descs s = .ok (found, s') ∧
        ReadStep env h h₀ functionIds s s' ∧ s'.proxies = s.proxies ∧
        (∀ d i, found = some (d, i) → ∃ j e, i = index + j ∧ descs[j]? = some d ∧
          entries[j]? = some e ∧ Matches tableIds functionIds s' e.1 key) ∧
        (found = none → ∀ e ∈ entries, Missing tableIds functionIds s' e.1 key) := by
  intro entries
  induction entries with
  | nil =>
      intro descs index s _ inv hall _
      cases hall
      exact ⟨none, s, rfl, ReadStep.refl inv, rfl,
        fun _ _ heq => absurd heq (Option.some_ne_none _).symm,
        fun _ e he => absurd he List.not_mem_nil⟩
  | cons e entries ih =>
      intro descs index s hdoc inv hall hne
      obtain _ | ⟨hd, hrestd⟩ := hall
      rename_i d descs
      obtain ⟨found, s₁, hmatch, step₁, hcompared⟩ := descriptorMatches_reads henv hres hdoc inv
        hd.1 (hne e List.mem_cons_self) key
      cases found with
      | true =>
          refine ⟨some (d, index), s₁, ?_, step₁, hcompared.proxies, ?_,
            fun heq => absurd heq (Option.some_ne_none _)⟩
          · simp only [ViewState.findFrom, hmatch, bind, Except.bind, pure, Except.pure, if_true]
          · rintro d' i heq
            obtain ⟨rfl, rfl⟩ := Prod.mk.inj (Option.some.inj heq)
            exact ⟨0, e, rfl, rfl, rfl, (hcompared.found_iff s₁ (ReadLe.refl s₁) rfl).mp rfl⟩
      | false =>
          obtain ⟨found, s₂, hrest, step₂, hsame, hsome, hnone⟩ := ih descs (index + 1) s₁
            (step₁.le.document ▸ hdoc) step₁.inv hrestd
            (fun e' he' => hne e' (List.mem_cons_of_mem _ he'))
          refine ⟨found, s₂, ?_, step₁.trans step₂, hsame.trans hcompared.proxies, ?_, ?_⟩
          · simp only [ViewState.findFrom, hmatch, bind, Except.bind, Bool.false_eq_true, if_false]
            exact hrest
          · intro d' i heq
            obtain ⟨j, e', rfl, hdj, hej, hm⟩ := hsome d' i heq
            exact ⟨j + 1, e', by omega, hdj, hej, hm⟩
          · intro heq e' he'
            obtain rfl | he' := List.mem_cons.mp he'
            · refine ⟨fun hm => ?_, fun f g hf hg => ?_⟩
              · exact Bool.false_ne_true ((hcompared.found_iff s₂ step₂.le hsame).mpr hm)
              · obtain ⟨w, hw⟩ := Option.isSome_iff_exists.mp (hcompared.shown f g hf hg)
                simp [step₂.le.image hw]
            · exact hnone heq e' he'

/-- The search in the node of a table. -/
theorem findEntry_reads (henv : env.Lawful)
    (hres : Resolvable env h h₀ fun f => (functionIds f).isSome)
    (hdoc : Describes env h s.document tableIds functionIds)
    (inv : ReadInv env h h₀ functionIds s) {t : Nat} {id : Bytes} {node : Node F}
    {entries : List (Value F × Value F)}
    (hn : NodeEntries h s.document tableIds functionIds t id node entries) (key : Value F) :
    ∃ found s', s.findEntry env id key = .ok (found, s') ∧
      ReadStep env h h₀ functionIds s s' ∧
      (∀ d i, found = some (d, i) → ∃ e, node.entries[i]? = some d ∧ entries[i]? = some e ∧
        Matches tableIds functionIds s' e.1 key) ∧
      (found = none → ∀ e ∈ entries, Missing tableIds functionIds s' e.1 key) := by
  obtain ⟨found, s₁, hfind, step₁, -, hsome, hnone⟩ := findFrom_reads henv hres key entries
    node.entries 0 s hdoc inv hn.described fun e he => (hn.ok.ne_nil e he).1
  refine ⟨found, s₁, ?_, step₁, fun d i hf => ?_, hnone⟩
  · simp only [ViewState.findEntry, ViewState.nodeFor, hn.node_eq, bind, Except.bind]
    exact hfind
  · obtain ⟨j, e, rfl, hdj, hej, hm⟩ := hsome d i hf
    exact ⟨e, by simpa using hdj, by simpa using hej, hm⟩

/-- **Indexing** shows the value of an entry whose key matches, and nil when
there is none. -/
theorem proxyIndex_reads (henv : env.Lawful)
    (hres : Resolvable env h h₀ fun f => (functionIds f).isSome)
    (hdoc : Describes env h s.document tableIds functionIds)
    (inv : ReadInv env h h₀ functionIds s) {t object : Nat} {id : Bytes} {node : Node F}
    {entries : List (Value F × Value F)} (hrec : s.record object = some id)
    (hn : NodeEntries h s.document tableIds functionIds t id node entries) (key : Value F) :
    ∃ v s', s.proxyIndex env object key = .ok (v, s') ∧ ReadStep env h h₀ functionIds s s' ∧
      ((∃ e ∈ entries, Matches tableIds functionIds s' e.1 key ∧
        s'.image tableIds functionIds e.2 = some v) ∨
       (v = .nil ∧ ∀ e ∈ entries, Missing tableIds functionIds s' e.1 key)) := by
  obtain ⟨found, s₁, hentry, step₁, hsome, hnone⟩ := findEntry_reads henv hres hdoc inv hn key
  cases found with
  | none =>
      refine ⟨.nil, s₁, ?_, step₁, .inr ⟨rfl, hnone rfl⟩⟩
      simp only [ViewState.proxyIndex, hrec, hentry, bind, Except.bind, pure, Except.pure]
  | some result =>
      obtain ⟨e, hdi, hei, hm⟩ := hsome result.1 result.2 rfl
      have hd : descOf tableIds functionIds e.2 = some result.1.2 := by
        obtain ⟨hlen, hget⟩ := List.forall₂_iff_get.mp hn.described
        obtain ⟨hil, rfl⟩ := List.getElem?_eq_some_iff.mp hei
        obtain ⟨hir, hdi⟩ := List.getElem?_eq_some_iff.mp hdi
        exact hdi ▸ (hget result.2 hil hir).2
      obtain ⟨v, s₂, hdec, step₂, himage⟩ := decode_reads henv hres
        (step₁.le.document ▸ hdoc) step₁.inv hd
      obtain ⟨w, hw, hraw⟩ := hm
      refine ⟨v, s₂, ?_, step₁.trans step₂,
        .inl ⟨e, List.mem_of_getElem? hei, ⟨w, step₂.le.image hw, hraw⟩, himage⟩⟩
      simp only [ViewState.proxyIndex, hrec, hentry, bind, Except.bind]
      exact hdec

/-- The position `next` goes on from: the start for nil, and the entry behind
the key that it is given. -/
def NextFrom (tableIds functionIds : Nat → Option Bytes) (s : ViewState F)
    (entries : List (Value F × Value F)) (key : Value F) (i : Nat) : Prop :=
  (key = .nil ∧ i = 0) ∨
    ∃ j e, entries[j]? = some e ∧ s.image tableIds functionIds e.1 = some key ∧ i = j + 1

/-- What `next` returns at a position: the entry there, or nil at the end. -/
def Shows (tableIds functionIds : Nat → Option Bytes) (s : ViewState F)
    (entry : Option (Value F × Value F)) (shown : Value F × Value F) : Prop :=
  (∃ e, entry = some e ∧ s.image tableIds functionIds e.1 = some shown.1 ∧
    s.image tableIds functionIds e.2 = some shown.2) ∨ (entry = none ∧ shown = (.nil, .nil))

/-- Decoding the entry at a position. -/
theorem decodeEntry_reads (henv : env.Lawful)
    (hres : Resolvable env h h₀ fun f => (functionIds f).isSome)
    (hdoc : Describes env h s.document tableIds functionIds)
    (inv : ReadInv env h h₀ functionIds s) {t : Nat} {id : Bytes} {node : Node F}
    {entries : List (Value F × Value F)}
    (hn : NodeEntries h s.document tableIds functionIds t id node entries) (i : Nat) :
    ∃ shown s', s.decodeEntry env node.entries[i]? = .ok (shown, s') ∧
      ReadStep env h h₀ functionIds s s' ∧
      Shows tableIds functionIds s' entries[i]? shown := by
  obtain ⟨hlen, hget⟩ := List.forall₂_iff_get.mp hn.described
  by_cases hi : i < entries.length
  · have hi' : i < node.entries.length := hlen ▸ hi
    obtain ⟨hkd, hvd⟩ := hget i hi hi'
    obtain ⟨k, s₁, hk, step₁, hki⟩ := decode_reads henv hres hdoc inv hkd
    obtain ⟨v, s₂, hv, step₂, hvi⟩ := decode_reads henv hres
      (step₁.le.document ▸ hdoc) step₁.inv hvd
    refine ⟨(k, v), s₂, ?_, step₁.trans step₂,
      .inl ⟨entries[i], List.getElem?_eq_getElem hi, step₂.le.image hki, hvi⟩⟩
    rw [List.getElem?_eq_getElem hi']
    simp only [ViewState.decodeEntry, List.get_eq_getElem] at hk hv ⊢
    simp only [hk, hv, bind, Except.bind, pure, Except.pure]
  · have hi' : ¬ i < node.entries.length := hlen ▸ hi
    refine ⟨(.nil, .nil), s, ?_, ReadStep.refl inv, .inr ⟨List.getElem?_eq_none (by omega), rfl⟩⟩
    rw [List.getElem?_eq_none (by omega)]
    rfl

/-- `next` on any key: it returns an entry of the table, or it raises because
the key is not there. -/
theorem proxyNext_cases (henv : env.Lawful)
    (hres : Resolvable env h h₀ fun f => (functionIds f).isSome)
    (hdoc : Describes env h s.document tableIds functionIds)
    (inv : ReadInv env h h₀ functionIds s) {t object : Nat} {id : Bytes} {node : Node F}
    {entries : List (Value F × Value F)} (hrec : s.record object = some id)
    (hn : NodeEntries h s.document tableIds functionIds t id node entries) (key : Value F) :
    (∃ i shown s', s.proxyNext env object key = .ok (shown, s') ∧
      ReadStep env h h₀ functionIds s s' ∧ Shows tableIds functionIds s' entries[i]? shown ∧
      ((key = .nil ∧ i = 0) ∨ ∃ j e, i = j + 1 ∧ entries[j]? = some e ∧
        Matches tableIds functionIds s' e.1 key)) ∨
    (key ≠ .nil ∧ s.proxyNext env object key = .error (.raised "invalid key to 'next'") ∧
      ∃ s', ReadStep env h h₀ functionIds s s' ∧
        ∀ e ∈ entries, Missing tableIds functionIds s' e.1 key) := by
  by_cases hnil : key = .nil
  · subst hnil
    obtain ⟨shown, s', hdec, hstep, hshows⟩ := decodeEntry_reads henv hres hdoc inv hn 0
    refine .inl ⟨0, shown, s', ?_, hstep, hshows, .inl ⟨rfl, rfl⟩⟩
    simp only [ViewState.proxyNext, hrec, ViewState.nodeFor, hn.node_eq, bind, Except.bind]
    exact hdec
  · obtain ⟨found, s₁, hentry, step₁, hsome, hnone⟩ := findEntry_reads henv hres hdoc inv hn key
    have hnext : s.proxyNext env object key = (s.findEntry env id key >>= fun result =>
        result.1.elim (.error (.raised "invalid key to 'next'"))
          fun entry => result.2.decodeEntry env node.entries[entry.2 + 1]?) := by
      simp only [ViewState.proxyNext, hrec, ViewState.nodeFor, hn.node_eq, hentry, bind,
        Except.bind]
      cases key with
      | nil => exact absurd rfl hnil
      | _ => cases found <;> rfl
    cases found with
    | none =>
        refine .inr ⟨hnil, ?_, s₁, step₁, hnone rfl⟩
        simp only [hnext, hentry, bind, Except.bind, Option.elim]
    | some result =>
        obtain ⟨e, -, hei, w, hw, hraw⟩ := hsome result.1 result.2 rfl
        obtain ⟨shown, s₂, hdec, step₂, hshows⟩ := decodeEntry_reads henv hres
          (step₁.le.document ▸ hdoc) step₁.inv (step₁.le.document ▸ hn) (result.2 + 1)
        refine .inl ⟨result.2 + 1, shown, s₂, ?_, step₁.trans step₂, hshows,
          .inr ⟨result.2, e, rfl, hei, w, step₂.le.image hw, hraw⟩⟩
        simp only [hnext, hentry, bind, Except.bind, Option.elim]
        exact hdec

/-- The keys of a table are distinct, so a match tells the position. -/
theorem NodeEntries.eq_of_rawEqual {doc : Document F} {t : Nat} {id : Bytes} {node : Node F}
    {entries : List (Value F × Value F)}
    (hn : NodeEntries h doc tableIds functionIds t id node entries) {i j : Nat}
    {e e' : Value F × Value F} (hi : entries[i]? = some e) (hj : entries[j]? = some e')
    (heq : e.1.rawEqual e'.1 = true) : i = j := by
  obtain ⟨hi', rfl⟩ := List.getElem?_eq_some_iff.mp hi
  obtain ⟨hj', rfl⟩ := List.getElem?_eq_some_iff.mp hj
  obtain ⟨obj, -, wf, hperm⟩ := hn.entries_ok
  have hboth : entries.Pairwise fun a b =>
      a.1.rawEqual b.1 = false ∧ b.1.rawEqual a.1 = false :=
    (hperm.symm.pairwise_iff (fun hab => ⟨hab.2, hab.1⟩)).mp wf.distinct
  have hpair := List.pairwise_iff_getElem.mp hboth
  obtain hlt | hsame | hlt := Nat.lt_trichotomy i j
  · exact absurd heq (by simp [(hpair i j hi' hj' hlt).1])
  · exact hsame
  · exact absurd heq (by simp [(hpair j i hj' hi' hlt).2])

/-- **Traversal**: `next` returns the entry behind its key, in the order of
the node. -/
theorem proxyNext_reads (henv : env.Lawful)
    (hres : Resolvable env h h₀ fun f => (functionIds f).isSome)
    (hdoc : Describes env h s.document tableIds functionIds)
    (inv : ReadInv env h h₀ functionIds s) {t object : Nat} {id : Bytes} {node : Node F}
    {entries : List (Value F × Value F)} (hrec : s.record object = some id)
    (hn : NodeEntries h s.document tableIds functionIds t id node entries) {key : Value F} {i : Nat}
    (hfrom : NextFrom tableIds functionIds s entries key i) :
    ∃ shown s', s.proxyNext env object key = .ok (shown, s') ∧
      ReadStep env h h₀ functionIds s s' ∧ Shows tableIds functionIds s' entries[i]? shown := by
  obtain ⟨i', shown, s', hnext, hstep, hshows, hwhere⟩ | ⟨hne, -, s', hstep, hmissing⟩ :=
    proxyNext_cases henv hres hdoc inv hrec hn key
  · obtain rfl : i' = i := by
      obtain ⟨rfl, rfl⟩ | ⟨j, e, hej, hkey, rfl⟩ := hfrom
      · obtain ⟨-, hi⟩ | ⟨j, e, -, hej, w, hw, hraw⟩ := hwhere
        · exact hi
        · have hwne : w ≠ .nil := imageOf_ne_nil hw (hn.ok.ne_nil e (List.mem_of_getElem? hej)).1
          cases w <;> simp_all [Value.rawEqual]
      · obtain ⟨rfl, -⟩ | ⟨j', e', rfl, hej', w, hw, hraw⟩ := hwhere
        · exact absurd rfl (imageOf_ne_nil hkey (hn.ok.ne_nil e (List.mem_of_getElem? hej)).1)
        · have heq : e.1.rawEqual e'.1 = true := by
            rw [← image_rawEqual (hstep.le.document ▸ hdoc) hstep.inv (hstep.le.image hkey) hw]
            exact hraw
          rw [hn.eq_of_rawEqual hej hej' heq]
    exact ⟨shown, s', hnext, hstep, hshows⟩
  · obtain ⟨rfl, -⟩ | ⟨j, e, hej, hkey, -⟩ := hfrom
    · exact absurd rfl hne
    · have hmem := List.mem_of_getElem? hej
      have hrefl : key.rawEqual key = true := by
        rw [image_rawEqual hdoc inv hkey hkey]
        exact (hn.ok.ne_nil e hmem).2.2
      exact absurd ⟨key, hstep.le.image hkey, hrefl⟩ (hmissing e hmem).not_matches

/-- **A traversal** visits the entries that are left in their order, each
once, and ends.  The induction is on these entries. -/
theorem traverse_reads (henv : env.Lawful)
    (hres : Resolvable env h h₀ fun f => (functionIds f).isSome) {t object : Nat} {id : Bytes}
    {node : Node F} {entries : List (Value F × Value F)} :
    ∀ (rest done : List (Value F × Value F)) (rounds : Nat) (s : ViewState F) (key : Value F),
      entries = done ++ rest → rest.length < rounds →
      Describes env h s.document tableIds functionIds → ReadInv env h h₀ functionIds s →
      s.record object = some id →
      NodeEntries h s.document tableIds functionIds t id node entries →
      NextFrom tableIds functionIds s entries key done.length →
      ∃ shown s', s.traverse env object rounds key = .ok (shown, s') ∧
        ReadStep env h h₀ functionIds s s' ∧
        List.Forall₂ (fun (e w : Value F × Value F) =>
          s'.image tableIds functionIds e.1 = some w.1 ∧
          s'.image tableIds functionIds e.2 = some w.2) rest shown := by
  intro rest
  induction rest with
  | nil =>
      intro done rounds s key hsplit hrounds hdoc inv hrec hn hfrom
      obtain ⟨rounds, rfl⟩ := Nat.exists_eq_succ_of_ne_zero (Nat.ne_of_gt hrounds)
      obtain ⟨shown, s', hnext, hstep, hshows⟩ := proxyNext_reads henv hres hdoc inv hrec hn hfrom
      obtain ⟨e, he, -⟩ | ⟨-, rfl⟩ := hshows
      · simp [hsplit] at he
      · refine ⟨[], s', ?_, hstep, .nil⟩
        simp only [ViewState.traverse, hnext, bind, Except.bind, pure, Except.pure]
  | cons e rest ih =>
      intro done rounds s key hsplit hrounds hdoc inv hrec hn hfrom
      obtain ⟨rounds, rfl⟩ := Nat.exists_eq_succ_of_ne_zero (Nat.ne_of_gt (Nat.zero_lt_of_lt hrounds))
      obtain ⟨shown, s₁, hnext, step₁, hshows⟩ := proxyNext_reads henv hres hdoc inv hrec hn hfrom
      have hentry : entries[done.length]? = some e := by simp [hsplit]
      obtain ⟨e', he', hki, hvi⟩ | ⟨hnone, -⟩ := hshows
      · obtain rfl : e = e' := Option.some.inj (hentry.symm.trans he')
        have hrec₁ : s₁.record object = some id :=
          (step₁.inv.record_iff id object).mp
            (step₁.le.proxies id object ((inv.record_iff id object).mpr hrec))
        obtain ⟨others, s₂, hrest, step₂, hall⟩ := ih (done ++ [e]) rounds s₁ shown.1
          (by simp [hsplit]) (Nat.lt_of_succ_lt_succ hrounds) (step₁.le.document ▸ hdoc) step₁.inv
          hrec₁ (step₁.le.document ▸ hn) (.inr ⟨done.length, e, hentry, hki, by simp⟩)
        refine ⟨shown :: others, s₂, ?_, step₁.trans step₂,
          .cons ⟨step₂.le.image hki, step₂.le.image hvi⟩ hall⟩
        have hne : shown.1 ≠ .nil :=
          imageOf_ne_nil hki (hn.ok.ne_nil e (List.mem_of_getElem? hentry)).1
        simp only [ViewState.traverse, hnext, bind, Except.bind]
        cases hkey : shown.1 with
        | nil => exact absurd hkey hne
        | _ =>
            rw [hkey] at hrest
            simp only [hrest, pure, Except.pure]
      · exact absurd (hentry.symm.trans hnone) (Option.some_ne_none e)

/-- A number key is its own image. -/
theorem matches_number {k : Value F} {n : F} :
    Matches tableIds functionIds s k (.number n) ↔ (Value.number n).rawEqual k = true := by
  constructor
  · rintro ⟨w, hw, hraw⟩
    obtain ⟨t, o, id, rfl, rfl, -, -⟩ | ⟨f, m, id, rfl, rfl, -, -⟩ | ⟨rfl, -, -⟩ := imageOf_cases hw
    · exact hraw
    · exact hraw
    · exact hraw
  · intro hraw
    cases k with
    | number m => exact ⟨.number m, rfl, hraw⟩
    | _ => exact absurd hraw Bool.false_ne_true

/-- **`ipairs`** shows the value under the next number, and ends where there is
none. -/
theorem proxyIpairsIterator_reads [NatCast F] (henv : env.Lawful)
    (hres : Resolvable env h h₀ fun f => (functionIds f).isSome)
    (hdoc : Describes env h s.document tableIds functionIds)
    (inv : ReadInv env h h₀ functionIds s) {t object : Nat} {id : Bytes} {node : Node F}
    {entries : List (Value F × Value F)} (hrec : s.record object = some id)
    (hn : NodeEntries h s.document tableIds functionIds t id node entries) (i : Nat) :
    ∃ next s', s.proxyIpairsIterator env object i = .ok (next, s') ∧
      ReadStep env h h₀ functionIds s s' ∧
      ((∃ e ∈ entries, (Value.number ((i + 1 : Nat) : F)).rawEqual e.1 = true ∧
        ∃ w, s'.image tableIds functionIds e.2 = some w ∧ next = some (i + 1, w)) ∨
       (next = none ∧
        ∀ e ∈ entries, (Value.number ((i + 1 : Nat) : F)).rawEqual e.1 = false)) := by
  obtain ⟨v, s', hindex, hstep, ⟨e, he, hm, himage⟩ | ⟨rfl, hmissing⟩⟩ := proxyIndex_reads henv hres
    hdoc inv hrec hn (.number ((i + 1 : Nat) : F))
  · refine ⟨some (i + 1, v), s', ?_, hstep, .inl ⟨e, he, matches_number.mp hm, v, himage, rfl⟩⟩
    have hne : v ≠ .nil := imageOf_ne_nil himage (hn.ok.ne_nil e he).2.1
    simp only [ViewState.proxyIpairsIterator, hindex, bind, Except.bind, pure, Except.pure]
  · refine ⟨none, s', ?_, hstep, .inr ⟨rfl, fun e he => ?_⟩⟩
    · simp only [ViewState.proxyIpairsIterator, hindex, bind, Except.bind, pure, Except.pure]
    · by_contra hraw
      exact (hmissing e he).not_matches (matches_number.mpr (by simpa using hraw))

end Reads

end SkynetJit.Sharetable
