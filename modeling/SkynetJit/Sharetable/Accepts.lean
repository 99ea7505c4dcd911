import SkynetJit.Lib.Raise
import SkynetJit.Sharetable.CodecRoundTrip

/-!
# SkynetJit.Sharetable.Accepts

The graphs `encode` accepts are the shareable ones.  `encode` raises on every
value it does not support, and it visits everything: when it returns, each
table that has a name has passed the check on metatables and all its entries
have been encoded (`Accepts`).  So nothing unsupported is reachable from the
root (`shareable_of_encode`), which is the converse of `encode_describes`.
-/

namespace SkynetJit.Sharetable

variable {F : Type} [BEq F] {env : Env F} {h : Heap F}

/-- The tables of a heap are Lua tables. -/
def Heap.WellFormed (h : Heap F) : Prop :=
  ∀ (t : Nat) (obj : TableObj F), h.tables[t]? = some obj → obj.WellFormed

/-- A value that has been encoded: a table has its name, any other value is
supported. -/
def Encoded (h : Heap F) (tableIds : Nat → Option Bytes) : Value F → Prop
  | .table t => (tableIds t).isSome
  | v => Shareable h v

/-- A table all of whose entries have been encoded. -/
def Passed (h : Heap F) (tableIds : Nat → Option Bytes) (t : Nat) : Prop :=
  ∃ obj, h.tables[t]? = some obj ∧ obj.hasMeta = false ∧
    ∀ e ∈ obj.entries, Encoded h tableIds e.1 ∧ Encoded h tableIds e.2

/-- The functions that have a name are supported. -/
def FuncsOk (h : Heap F) (s : EncState F) : Prop :=
  ∀ f, (s.functionIds f).isSome → Shareable h (.func f)

/-- What a call of the encoder that went through has found out. -/
structure Accepts (h : Heap F) (s s' : EncState F) : Prop where
  keep : ∀ t, (s.tableIds t).isSome → (s'.tableIds t).isSome
  funcs : FuncsOk h s'
  passed : ∀ t, (s'.tableIds t).isSome → (s.tableIds t).isSome ∨ Passed h s'.tableIds t

theorem Encoded.mono {ids ids' : Nat → Option Bytes} {v : Value F}
    (hkeep : ∀ t, (ids t).isSome → (ids' t).isSome) (hv : Encoded h ids v) : Encoded h ids' v := by
  cases v with
  | table t => exact hkeep t hv
  | _ => exact hv

theorem Passed.mono {ids ids' : Nat → Option Bytes} {t : Nat}
    (hkeep : ∀ t, (ids t).isSome → (ids' t).isSome) (ht : Passed h ids t) : Passed h ids' t := by
  obtain ⟨obj, hobj, hmeta, hentries⟩ := ht
  exact ⟨obj, hobj, hmeta, fun e he =>
    ⟨(hentries e he).1.mono hkeep, (hentries e he).2.mono hkeep⟩⟩

theorem Accepts.refl {s : EncState F} (hs : FuncsOk h s) : Accepts h s s :=
  ⟨fun _ ht => ht, hs, fun _ ht => .inl ht⟩

theorem Accepts.trans {s s₁ s₂ : EncState F} (h₁ : Accepts h s s₁) (h₂ : Accepts h s₁ s₂) :
    Accepts h s s₂ := by
  refine ⟨fun t ht => h₂.keep t (h₁.keep t ht), h₂.funcs, fun t ht => ?_⟩
  obtain hold | hpassed := h₂.passed t ht
  · exact (h₁.passed t hold).imp_right (Passed.mono h₂.keep)
  · exact .inr hpassed

/-! ## One spec for each function of the encoder -/

/-- A function with an encoding is supported. -/
theorem shareable_of_functionEncoding {f : Nat} {code : FuncCode}
    (hcode : functionEncoding env h f = .ok code) : Shareable h (.func f) := by
  obtain ⟨fn, hfn, hup, ⟨c, hk, -⟩ | ⟨r, hr, -⟩ | ⟨e, hk, -⟩⟩ := functionEncoding_cases hcode
  · exact ⟨fn, hfn, hup, fun hfast => by simp [hk] at hfast⟩
  · exact ⟨fn, hfn, hup, fun _ => by simp [hr]⟩
  · exact ⟨fn, hfn, hup, fun hfast => by simp [hk] at hfast⟩

theorem encodeFunction_accepts {s s' : EncState F} {f : Nat} {position : Bytes} {d : Desc F}
    (hs : FuncsOk h s) (hok : encodeFunction env h s f position = .ok (d, s')) :
    Accepts h s s' ∧ Shareable h (.func f) := by
  rw [encodeFunction] at hok
  cases hf : s.functionIds f with
  | some id =>
      simp only [hf, Except.ok.injEq, Prod.mk.injEq] at hok
      obtain ⟨-, rfl⟩ := hok
      exact ⟨Accepts.refl hs, hs f (by simp [hf])⟩
  | none =>
      simp only [hf] at hok
      obtain ⟨code, hcode, hok⟩ := Raise.except_bind_eq_ok.mp hok
      obtain ⟨-, rfl⟩ := Prod.mk.inj (Except.ok.inj hok)
      have hshare := shareable_of_functionEncoding hcode
      refine ⟨⟨fun _ ht => ht, fun g hg => ?_, fun _ ht => .inl ht⟩, hshare⟩
      by_cases heq : g = f
      · exact heq ▸ hshare
      · exact hs g ((congrArg Option.isSome (Function.update_of_ne heq ..)).symm.trans hg)

/-- `encode_value` meets its spec wherever `encode_table` does. -/
theorem encodeValue_accepts {s s' : EncState F} {v : Value F} {position : Bytes} {d : Desc F}
    {encodeTable : Encoder F Nat} (hs : FuncsOk h s) (hne : v ≠ .nil)
    (htable : ∀ t, v = .table t → encodeTable s t position = .ok (d, s') →
      Accepts h s s' ∧ (s'.tableIds t).isSome)
    (hok : encodeValue env h encodeTable s v position = .ok (d, s')) :
    Accepts h s s' ∧ Encoded h s'.tableIds v := by
  have hsame : ∀ {d' : Desc F}, Except.ok (d', s) = Except.ok (ε := Fault) (d, s') →
      Accepts h s s' := by
    intro d' heq
    obtain ⟨-, rfl⟩ := Prod.mk.inj (Except.ok.inj heq)
    exact Accepts.refl hs
  cases v with
  | nil => exact absurd rfl hne
  | table t => exact htable t rfl hok
  | func f => exact encodeFunction_accepts hs hok
  | userdata u => exact absurd hok (by simp [encodeValue, pointerEncoding])
  | thread t => exact absurd hok (by simp [encodeValue, pointerEncoding])
  | _ => exact ⟨hsame hok, trivial⟩

/-- The loop encodes every key and every value. -/
theorem encodeEntries_accepts {encode : Encoder F (Value F)} {obj : TableObj F} {id : Bytes} :
    ∀ (ks : List (Value F)) (index : Nat) (s s' : EncState F),
      (∀ k ∈ ks, ∀ s d s' position, FuncsOk h s →
        (encode s k position = .ok (d, s') → Accepts h s s' ∧ Encoded h s'.tableIds k) ∧
        (encode s (obj.rawget k) position = .ok (d, s') →
          Accepts h s s' ∧ Encoded h s'.tableIds (obj.rawget k))) →
      FuncsOk h s → encodeEntries env encode obj id index ks s = .ok s' →
      Accepts h s s' ∧
        ∀ k ∈ ks, Encoded h s'.tableIds k ∧ Encoded h s'.tableIds (obj.rawget k) := by
  intro ks
  induction ks with
  | nil =>
      intro index s s' _ hs hok
      obtain rfl := Except.ok.inj hok
      exact ⟨Accepts.refl hs, fun k hk => absurd hk List.not_mem_nil⟩
  | cons k ks ih =>
      intro index s s' hencode hs hok
      rw [encodeEntries] at hok
      obtain ⟨⟨key, s₁⟩, hkey, hok⟩ := Raise.except_bind_eq_ok.mp hok
      obtain ⟨⟨value, s₂⟩, hvalue, hok⟩ := Raise.except_bind_eq_ok.mp hok
      obtain ⟨acc₁, hk⟩ := (hencode k List.mem_cons_self s key s₁ _ hs).1 hkey
      obtain ⟨acc₂, hv⟩ := (hencode k List.mem_cons_self s₁ value s₂ _ acc₁.funcs).2 hvalue
      obtain ⟨acc₃, hrest⟩ := ih (index + 1) (s₂.appendEntry id (key, value)) s'
        (fun k' hk' => hencode k' (List.mem_cons_of_mem _ hk')) acc₂.funcs hok
      have acc₃ : Accepts h s₂ s' := ⟨acc₃.keep, acc₃.funcs, acc₃.passed⟩
      refine ⟨(acc₁.trans acc₂).trans acc₃, fun k' hk' => ?_⟩
      obtain rfl | hk' := List.mem_cons.mp hk'
      · exact ⟨(hk.mono acc₂.keep).mono acc₃.keep, hv.mono acc₃.keep⟩
      · exact hrest k' hk'

theorem map_snd_of_keyed {keys : List (Value F)} {keyed : List (Bytes × Value F)}
    (hok : (keys.mapM fun k => return (← keyOrder env h k, k)) = Except.ok (ε := Fault) keyed) :
    keyed.map Prod.snd = keys := by
  induction keys generalizing keyed with
  | nil =>
      obtain rfl := Except.ok.inj hok
      rfl
  | cons k keys ih =>
      rw [List.mapM_cons] at hok
      obtain ⟨entry, hentry, hok⟩ := Raise.except_bind_eq_ok.mp hok
      obtain ⟨rest, hrest, hok⟩ := Raise.except_bind_eq_ok.mp hok
      obtain ⟨order, -, hentry⟩ := Raise.except_bind_eq_ok.mp hentry
      obtain rfl := Except.ok.inj hok
      obtain rfl := Except.ok.inj hentry
      rw [List.map_cons, ih hrest]

/-- Sorting permutes. -/
theorem sortKeys_perm (henv : env.Lawful) {keys sorted : List (Value F)}
    (hok : sortKeys env h keys = .ok sorted) : sorted.Perm keys := by
  rw [sortKeys] at hok
  split at hok
  · obtain rfl := Except.ok.inj hok
    exact List.Perm.refl _
  · obtain ⟨keyed, hkeyed, hok⟩ := Raise.except_bind_eq_ok.mp hok
    obtain rfl := Except.ok.inj hok
    rw [← map_snd_of_keyed hkeyed]
    exact (henv.tableSort_perm keyed).map _

/-- **`encode_table` goes through** only if everything below the table does.
The induction is on the fuel. -/
theorem encodeTable_accepts (henv : env.Lawful) (hheap : h.WellFormed) :
    ∀ (fuel : Nat) (s s' : EncState F) (t : Nat) (position : Bytes) (d : Desc F),
      FuncsOk h s → encodeTable env h fuel s t position = .ok (d, s') →
      Accepts h s s' ∧ (s'.tableIds t).isSome := by
  intro fuel
  induction fuel with
  | zero =>
      intro s s' t position d _ hok
      simp [encodeTable] at hok
  | succ fuel ih =>
      intro s s' t position d hs hok
      rw [encodeTable] at hok
      cases hid : s.tableIds t with
      | some id =>
          simp only [hid, Except.ok.injEq, Prod.mk.injEq] at hok
          obtain ⟨-, rfl⟩ := hok
          exact ⟨Accepts.refl hs, by simp [hid]⟩
      | none =>
          cases hobj : h.tables[t]? with
          | none => simp [hid, hobj] at hok
          | some obj =>
              simp only [hid, hobj] at hok
              split at hok
              · contradiction
              · rename_i hmeta
                obtain ⟨keys, hsorted, hok⟩ := Raise.except_bind_eq_ok.mp hok
                obtain ⟨s₁, hloop, hok⟩ := Raise.except_bind_eq_ok.mp hok
                obtain ⟨-, rfl⟩ := Prod.mk.inj (Except.ok.inj hok)
                have hperm := sortKeys_perm henv hsorted
                have wf := hheap t obj hobj
                have hentry : ∀ k ∈ keys, ∃ e ∈ obj.entries, e.1 = k ∧ obj.rawget k = e.2 := by
                  intro k hk
                  obtain ⟨e, he, rfl⟩ := List.mem_map.mp (hperm.mem_iff.mp hk)
                  exact ⟨e, he, rfl, wf.rawget_eq he⟩
                have hencode : ∀ k ∈ keys, ∀ s d s' position, FuncsOk h s →
                    (encodeValue env h (encodeTable env h fuel) s k position = .ok (d, s') →
                      Accepts h s s' ∧ Encoded h s'.tableIds k) ∧
                    (encodeValue env h (encodeTable env h fuel) s (obj.rawget k) position =
                      .ok (d, s') → Accepts h s s' ∧ Encoded h s'.tableIds (obj.rawget k)) := by
                  intro k hk s d s' position hs
                  obtain ⟨e, he, rfl, hvalue⟩ := hentry k hk
                  have hne : obj.rawget e.1 ≠ .nil := hvalue ▸ wf.value_ne_nil e he
                  exact ⟨encodeValue_accepts hs (wf.key_ne_nil e he) fun t' _ => ih s s' t' position d hs,
                    encodeValue_accepts hs hne fun t' _ => ih s s' t' position d hs⟩
                obtain ⟨acc, hencoded⟩ := encodeEntries_accepts keys 1
                  (s.openNode t (uniquePath s.allocated position) obj.length) s₁ hencode hs hloop
                have hopen : ((s.openNode t (uniquePath s.allocated position) obj.length).tableIds
                    t).isSome := by simp [EncState.openNode]
                have hpassed : Passed h s₁.tableIds t := by
                  refine ⟨obj, hobj, by simpa using hmeta, fun e he => ?_⟩
                  have hboth := hencoded e.1 (hperm.mem_iff.mpr (List.mem_map_of_mem he))
                  exact ⟨hboth.1, wf.rawget_eq he ▸ hboth.2⟩
                refine ⟨⟨fun x hx => acc.keep x ?_, acc.funcs, fun x hx => ?_⟩, acc.keep t hopen⟩
                · by_cases hxt : x = t
                  · exact hxt ▸ hopen
                  · exact (congrArg Option.isSome (Function.update_of_ne hxt ..)).trans hx
                · by_cases hxt : x = t
                  · exact .inr (hxt ▸ hpassed)
                  · refine (acc.passed x hx).imp_left fun hold => ?_
                    exact (congrArg Option.isSome (Function.update_of_ne hxt ..)).symm.trans hold

/-- **A graph that `encode` accepts is shareable.** -/
theorem shareable_of_encode (henv : env.Lawful) (hheap : h.WellFormed) {fuel : Nat} {root : Value F}
    {doc : Document F} (henc : encode env h fuel root = .ok doc) : ShareableGraph h root := by
  cases root with
  | table t =>
      obtain ⟨⟨d, s⟩, hok, -⟩ := Raise.except_bind_eq_ok.mp henc
      have hempty : FuncsOk h (EncState.empty : EncState F) := fun f hf => by
        simp [EncState.empty] at hf
      obtain ⟨acc, hroot⟩ := encodeTable_accepts henv hheap fuel EncState.empty s t _ d hempty hok
      have hpassed : ∀ x, (s.tableIds x).isSome → Passed h s.tableIds x := fun x hx =>
        (acc.passed x hx).resolve_left (by simp [EncState.empty])
      have hreach : ∀ v, Reach h (.table t) v → Encoded h s.tableIds v := by
        intro v hv
        induction hv with
        | root => exact hroot
        | key _ hobj he ih =>
            obtain ⟨obj', hobj', -, hentries⟩ := hpassed _ ih
            obtain rfl := Option.some.inj (hobj'.symm.trans hobj)
            exact (hentries _ he).1
        | value _ hobj he ih =>
            obtain ⟨obj', hobj', -, hentries⟩ := hpassed _ ih
            obtain rfl := Option.some.inj (hobj'.symm.trans hobj)
            exact (hentries _ he).2
      intro v hv
      have hencoded := hreach v hv
      cases v with
      | table x =>
          obtain ⟨obj, hobj, hmeta, -⟩ := hpassed x hencoded
          exact ⟨obj, hobj, hmeta, hheap x obj hobj⟩
      | _ => exact hencoded
  | _ => contradiction

end SkynetJit.Sharetable
