import SkynetJit.Redis.Listpack
import SkynetJit.Redis.Set.Intset

/-!
# SkynetJit.Redis.Set.Kernel

The set object (`kernel/t_set.c`): an intset, a listpack or a dict, and the
conversions between them.  Whatever the encoding, an element comes in and
goes out as an integer or as a string, and `members` says which byte string
each element stands for.

* `setTypeAddAux_spec`, `setTypeRemoveAux_spec` — what adding and removing do
  to the members, in every encoding;
* `setTypeIsMemberAux_iff` — looking up is membership.
-/

namespace SkynetJit.Redis

/-- A set object.  The keys of a dict come in an order nobody promises; the
model keeps them as they were added. -/
inductive SetObj where
  | intset (is : Intset)
  | listpack (lp : Listpack)
  | ht (keys : List Bytes)
deriving DecidableEq, Repr

/-- `server.set_max_intset_entries`. -/
def setMaxIntsetEntries : Nat := 512

/-- `server.set_max_listpack_entries`. -/
def setMaxListpackEntries : Nat := 128

/-- `server.set_max_listpack_value`. -/
def setMaxListpackValue : Nat := 64

/-- The walk of `setTypeNext`. -/
def SetObj.elements : SetObj → List Entry
  | .intset is => is.contents.map .int
  | .listpack lp => lp
  | .ht keys => keys.map .str

/-- The byte strings the elements stand for (`setTypeNextObject`). -/
def SetObj.members (o : SetObj) : List Bytes := o.elements.map Entry.toBytes

/-- `setTypeSize`. -/
def setTypeSize : SetObj → Nat
  | .intset is => is.contents.length
  | .listpack lp => lp.length
  | .ht keys => keys.length

/-- `setTypeCreate`. -/
def setTypeCreate (value : Bytes) (sizeHint : Nat) : SetObj :=
  if (string2ll value).isSome ∧ sizeHint ≤ setMaxIntsetEntries then .intset intsetNew
  else if sizeHint ≤ setMaxListpackEntries then .listpack []
  else .ht []

/-- `setTypeConvertAndExpand` to a dict. -/
def convertToHt (o : SetObj) : SetObj := .ht o.members

/-- How an element enters a listpack: `lpAppendInteger` or `lpAppend`. -/
def Entry.append : Entry → Entry
  | .int n => .int n
  | .str s => lpEntry s

/-- `setTypeConvertAndExpand` to a listpack. -/
def convertToListpack (o : SetObj) : Listpack := o.elements.map Entry.append

/-- `setTypeMaybeConvert`. -/
def setTypeMaybeConvert (o : SetObj) (sizeHint : Nat) : SetObj :=
  match o with
  | .listpack _ => if sizeHint > setMaxListpackEntries then convertToHt o else o
  | .intset _ => if sizeHint > setMaxIntsetEntries then convertToHt o else o
  | .ht _ => o

/-- `intsetMaxEntries`. -/
def intsetMaxEntries : Nat := min setMaxIntsetEntries (2 ^ 30)

/-- `maybeConvertIntset`. -/
def maybeConvertIntset (is : Intset) : SetObj :=
  if is.contents.length > intsetMaxEntries then convertToHt (.intset is) else .intset is

/-- `lpFind` from the first entry. -/
def lpFind (lp : Listpack) (s : Bytes) : Bool := lp.any (lpFindCmp s)

/-- The integer an intset is asked for: the element itself, or what its text
stands for. -/
def Entry.toInt? : Entry → Option Int
  | .int n => some n
  | .str s => string2ll s

/-- Whether an intset that gets an element of another kind still fits a
listpack. -/
def intsetFitsListpack (is : Intset) (len : Nat) : Bool :=
  let n := is.contents.length
  let intsetMin := is.get 0
  let intsetMax := is.get (n - 1)
  let maxelelen := if n = 0 then 0
    else max (ll2string intsetMax).length (ll2string intsetMin).length
  let totsize := if n = 0 then 0
    else max (lpEstimateBytesRepeatedInteger intsetMax n) (lpEstimateBytesRepeatedInteger intsetMin n)
  decide (n < setMaxListpackEntries) && decide (len ≤ setMaxListpackValue) &&
    decide (maxelelen ≤ setMaxListpackValue) && lpSafeToAdd none (totsize + len)

/-- `setTypeAddAux`, and whether the element was new.  An integer element
reaches a listpack or a dict as its text. -/
def setTypeAddAux (o : SetObj) (e : Entry) : Bool × SetObj :=
  match o with
  | .ht keys =>
      if e.toBytes ∈ keys then (false, o) else (true, .ht (keys ++ [e.toBytes]))
  | .listpack lp =>
      if lpFind lp e.toBytes then (false, o)
      else if lp.length < setMaxListpackEntries ∧ e.toBytes.length ≤ setMaxListpackValue ∧
          lpSafeToAdd (some lp) e.toBytes.length = true then
        (true, .listpack (lp ++ [e.append]))
      else (true, .ht (o.members ++ [e.toBytes]))
  | .intset is =>
      match e.toInt? with
      | some n =>
          match intsetAdd is n with
          | (true, is') => (true, maybeConvertIntset is')
          | (false, is') => (false, .intset is')
      | none =>
          if intsetFitsListpack is e.toBytes.length then
            (true, .listpack (convertToListpack o ++ [e.append]))
          else (true, .ht (o.members ++ [e.toBytes]))

/-- `setTypeAdd`. -/
def setTypeAdd (o : SetObj) (value : Bytes) : Bool × SetObj := setTypeAddAux o (.str value)

/-- `setTypeRemoveAux`, and whether the element was there. -/
def setTypeRemoveAux (o : SetObj) (e : Entry) : Bool × SetObj :=
  match o with
  | .ht keys =>
      if e.toBytes ∈ keys then (true, .ht (keys.erase e.toBytes)) else (false, o)
  | .listpack lp =>
      if lpFind lp e.toBytes then (true, .listpack (lp.eraseP (lpFindCmp e.toBytes)))
      else (false, o)
  | .intset is =>
      match e.toInt? with
      | some n => let r := intsetRemove is n; (r.1, .intset r.2)
      | none => (false, o)

/-- `setTypeRemove`. -/
def setTypeRemove (o : SetObj) (value : Bytes) : Bool × SetObj := setTypeRemoveAux o (.str value)

/-- `setTypeIsMemberAux`. -/
def setTypeIsMemberAux (o : SetObj) (e : Entry) : Bool :=
  match o with
  | .ht keys => decide (e.toBytes ∈ keys)
  | .listpack lp => lpFind lp e.toBytes
  | .intset is =>
      match e.toInt? with
      | some n => intsetFind is n
      | none => false

/-- `setTypeIsMember`. -/
def setTypeIsMember (o : SetObj) (value : Bytes) : Bool := setTypeIsMemberAux o (.str value)

/-- `setTypeRandomElement` of a set that is not empty; `draw` is the random
number. -/
def setTypeRandomElement (o : SetObj) (draw : Nat) : Option Entry :=
  o.elements[draw % setTypeSize o]?

/-! ## Members -/

/-- What the encodings rely on: an intset ascends, a listpack holds machine
integers, and nothing is held twice. -/
structure SetObj.Wf (o : SetObj) : Prop where
  nodup : o.members.Nodup
  valid : ∀ e ∈ o.elements, e.Valid
  intset : ∀ is, o = .intset is → is.Wf

theorem setTypeSize_eq (o : SetObj) : setTypeSize o = o.members.length := by
  cases o <;> simp [setTypeSize, SetObj.members, SetObj.elements]

@[simp] theorem members_ht (keys : List Bytes) : (SetObj.ht keys).members = keys := by
  rw [SetObj.members, SetObj.elements, List.map_map]
  exact List.map_id keys

@[simp] theorem members_listpack (lp : Listpack) :
    (SetObj.listpack lp).members = lp.map Entry.toBytes := rfl

theorem members_intset (is : Intset) :
    (SetObj.intset is).members = is.contents.map ll2string := by
  rw [SetObj.members, SetObj.elements, List.map_map]
  rfl

theorem Entry.append_toBytes (e : Entry) : e.append.toBytes = e.toBytes := by
  cases e with
  | int n => rfl
  | str s => exact lpEntry_toBytes s

theorem Entry.append_valid {e : Entry} (h : e.Valid) : e.append.Valid := by
  cases e with
  | int n => exact h
  | str s => exact lpEntry_valid s

theorem map_append_toBytes (es : List Entry) :
    (es.map Entry.append).map Entry.toBytes = es.map Entry.toBytes := by
  rw [List.map_map]
  exact List.map_congr_left fun e _ => e.append_toBytes

/-- Asking an intset for an element asks for its bytes. -/
theorem Entry.toInt?_eq_some_iff {e : Entry} (h : e.Valid) (n : Int) :
    e.toInt? = some n ↔ IsInt64 n ∧ ll2string n = e.toBytes := by
  cases e with
  | str s => exact string2ll_eq_some_iff
  | int m =>
      rw [Entry.toInt?, Option.some.injEq, Entry.toBytes]
      constructor
      · rintro rfl
        exact ⟨h, rfl⟩
      · rintro ⟨hn, heq⟩
        exact (ll2string_injective hn h heq).symm

theorem Entry.eq_of_toBytes_eq_ll2string {e : Entry} (h : e.Valid) {n : Int} (hn : IsInt64 n)
    (heq : e.toBytes = ll2string n) : e.toInt? = some n :=
  (Entry.toInt?_eq_some_iff h n).mpr ⟨hn, heq.symm⟩

theorem wf_ht {keys : List Bytes} (h : keys.Nodup) : (SetObj.ht keys).Wf := by
  refine ⟨by rwa [members_ht], ?_, nofun⟩
  intro e he
  obtain ⟨s, -, rfl⟩ := List.mem_map.mp he
  exact True.intro

theorem wf_listpack {lp : Listpack} (hnodup : (lp.map Entry.toBytes).Nodup)
    (hvalid : ∀ e ∈ lp, e.Valid) : (SetObj.listpack lp).Wf := ⟨hnodup, hvalid, nofun⟩

theorem wf_intset {is : Intset} (h : is.Wf) : (SetObj.intset is).Wf := by
  refine ⟨?_, ?_, ?_⟩
  · rw [members_intset]
    refine List.Nodup.map_on ?_ (h.sorted.imp fun hlt => Int.ne_of_lt hlt)
    intro m hm n hn heq
    exact ll2string_injective (h.int64 m hm) (h.int64 n hn) heq
  · intro e he
    obtain ⟨n, hn, rfl⟩ := List.mem_map.mp he
    exact h.int64 n hn
  · intro is' heq
    obtain rfl := SetObj.intset.inj heq
    exact h

theorem wf_setTypeCreate (value : Bytes) (sizeHint : Nat) : (setTypeCreate value sizeHint).Wf := by
  rw [setTypeCreate]
  split_ifs
  · exact wf_intset intsetNew_wf
  · exact wf_listpack .nil nofun
  · exact wf_ht .nil

@[simp] theorem members_setTypeCreate (value : Bytes) (sizeHint : Nat) :
    (setTypeCreate value sizeHint).members = [] := by
  rw [setTypeCreate]
  split_ifs <;> rfl

@[simp] theorem members_convertToHt (o : SetObj) : (convertToHt o).members = o.members :=
  members_ht _

theorem SetObj.Wf.convertToHt {o : SetObj} (h : o.Wf) : (convertToHt o).Wf := wf_ht h.nodup

@[simp] theorem members_setTypeMaybeConvert (o : SetObj) (sizeHint : Nat) :
    (setTypeMaybeConvert o sizeHint).members = o.members := by
  cases o with
  | intset is => rw [setTypeMaybeConvert]; split_ifs <;> simp
  | listpack lp => rw [setTypeMaybeConvert]; split_ifs <;> simp
  | ht keys => rfl

theorem SetObj.Wf.setTypeMaybeConvert {o : SetObj} (h : o.Wf) (sizeHint : Nat) :
    (setTypeMaybeConvert o sizeHint).Wf := by
  cases o with
  | intset is => rw [Redis.setTypeMaybeConvert]; split_ifs; exacts [h.convertToHt, h]
  | listpack lp => rw [Redis.setTypeMaybeConvert]; split_ifs; exacts [h.convertToHt, h]
  | ht keys => exact h

@[simp] theorem members_maybeConvertIntset (is : Intset) :
    (maybeConvertIntset is).members = (SetObj.intset is).members := by
  rw [maybeConvertIntset]
  split_ifs <;> simp

theorem wf_maybeConvertIntset {is : Intset} (h : is.Wf) : (maybeConvertIntset is).Wf := by
  rw [maybeConvertIntset]
  split_ifs
  · exact (wf_intset h).convertToHt
  · exact wf_intset h

theorem lpFind_iff {lp : Listpack} (h : ∀ e ∈ lp, e.Valid) (s : Bytes) :
    lpFind lp s = true ↔ s ∈ lp.map Entry.toBytes := by
  rw [lpFind, List.any_eq_true, List.mem_map]
  constructor
  · rintro ⟨e, he, hcmp⟩
    exact ⟨e, he, (lpFindCmp_iff (h e he) s).mp hcmp⟩
  · rintro ⟨e, he, heq⟩
    exact ⟨e, he, (lpFindCmp_iff (h e he) s).mpr heq⟩

/-- An intset holds a member exactly if it holds the integer it stands for. -/
theorem mem_members_intset_iff {is : Intset} (h : is.Wf) {e : Entry} (he : e.Valid) :
    e.toBytes ∈ (SetObj.intset is).members ↔ ∃ n, e.toInt? = some n ∧ n ∈ is.contents := by
  rw [members_intset, List.mem_map]
  constructor
  · rintro ⟨n, hn, heq⟩
    exact ⟨n, (Entry.toInt?_eq_some_iff he n).mpr ⟨h.int64 n hn, heq⟩, hn⟩
  · rintro ⟨n, hn, hin⟩
    exact ⟨n, hin, ((Entry.toInt?_eq_some_iff he n).mp hn).2⟩

/-! ## Looking up, adding and removing -/

/-- **Looking up** an element is membership of its bytes. -/
theorem setTypeIsMemberAux_iff {o : SetObj} (h : o.Wf) {e : Entry} (he : e.Valid) :
    setTypeIsMemberAux o e = true ↔ e.toBytes ∈ o.members := by
  cases o with
  | ht keys => rw [setTypeIsMemberAux, decide_eq_true_eq, members_ht]
  | listpack lp => exact lpFind_iff h.valid _
  | intset is =>
      have his := h.intset is rfl
      rw [mem_members_intset_iff his he, setTypeIsMemberAux]
      cases hn : e.toInt? with
      | none => simp
      | some n => simp [intsetFind_iff his]

theorem setTypeIsMember_iff {o : SetObj} (h : o.Wf) (value : Bytes) :
    setTypeIsMember o value = true ↔ value ∈ o.members :=
  setTypeIsMemberAux_iff h (e := .str value) True.intro

/-- What adding a member does. -/
structure Added (o : SetObj) (x : Bytes) (r : Bool × SetObj) : Prop where
  wf : r.2.Wf
  new : r.1 = true ↔ x ∉ o.members
  same : r.1 = false → r.2.members = o.members
  perm : r.1 = true → r.2.members.Perm (x :: o.members)

/-- What removing a member does. -/
structure Removed (o : SetObj) (x : Bytes) (r : Bool × SetObj) : Prop where
  wf : r.2.Wf
  found : r.1 = true ↔ x ∈ o.members
  same : r.1 = false → r.2.members = o.members
  perm : r.1 = true → o.members.Perm (x :: r.2.members)

theorem added_of_mem {o : SetObj} (h : o.Wf) {x : Bytes} (hx : x ∈ o.members) :
    Added o x (false, o) := ⟨h, by simp [hx], fun _ => rfl, nofun⟩

theorem removed_of_not_mem {o : SetObj} (h : o.Wf) {x : Bytes} (hx : x ∉ o.members) :
    Removed o x (false, o) := ⟨h, by simp [hx], fun _ => rfl, nofun⟩

theorem added_of_not_mem {o o' : SetObj} (hwf : o'.Wf) {x : Bytes} (hx : x ∉ o.members)
    (hperm : o'.members.Perm (x :: o.members)) : Added o x (true, o') :=
  ⟨hwf, by simp [hx], nofun, fun _ => hperm⟩

/-- The branches that end in a dict: the old members and the new one. -/
theorem added_ht {o : SetObj} (h : o.Wf) {x : Bytes} (hx : x ∉ o.members) :
    Added o x (true, .ht (o.members ++ [x])) := by
  refine added_of_not_mem (wf_ht ?_) hx ?_
  · exact List.nodup_append_comm.mp (List.nodup_cons.mpr ⟨hx, h.nodup⟩)
  · rw [members_ht]
    exact List.perm_append_singleton x o.members

/-- The branches that end in a listpack. -/
theorem added_listpack {o : SetObj} {lp : Listpack} (h : o.Wf) (hlp : ∀ e ∈ lp, e.Valid)
    (hmem : lp.map Entry.toBytes = o.members) {e : Entry} (he : e.Valid)
    (hx : e.toBytes ∉ o.members) :
    Added o e.toBytes (true, .listpack (lp ++ [e.append])) := by
  have hmembers : (SetObj.listpack (lp ++ [e.append])).members = o.members ++ [e.toBytes] := by
    rw [members_listpack, List.map_append, hmem, List.map_singleton, e.append_toBytes]
  refine added_of_not_mem (wf_listpack ?_ ?_) hx ?_
  · rw [← members_listpack, hmembers]
    exact List.nodup_append_comm.mp (List.nodup_cons.mpr ⟨hx, h.nodup⟩)
  · intro e' he'
    rcases List.mem_append.mp he' with hin | hin
    · exact hlp e' hin
    · obtain rfl := List.mem_singleton.mp hin
      exact Entry.append_valid he
  · rw [hmembers]
    exact List.perm_append_singleton _ o.members

theorem setTypeAddAux_intset {is : Intset} (his : is.Wf) {e : Entry} (he : e.Valid) {n : Int}
    (hn : e.toInt? = some n) :
    Added (.intset is) e.toBytes (setTypeAddAux (.intset is) e) := by
  obtain ⟨hint, hbytes⟩ := (Entry.toInt?_eq_some_iff he n).mp hn
  have hmem : e.toBytes ∈ (SetObj.intset is).members ↔ n ∈ is.contents := by
    rw [mem_members_intset_iff his he, hn]
    simp
  have hadd := intsetAdd_spec his hint
  simp only [setTypeAddAux, hn]
  rcases hr : intsetAdd is n with ⟨b, is'⟩
  rw [hr] at hadd
  cases b with
  | false =>
      refine ⟨wf_intset hadd.wf, ?_, fun _ => ?_, nofun⟩
      · rw [hmem]
        exact hadd.new
      · rw [show is' = is from hadd.same rfl]
  | true =>
      refine ⟨wf_maybeConvertIntset hadd.wf, ?_, nofun, fun _ => ?_⟩
      · rw [hmem]
        exact hadd.new
      · have hperm := (hadd.perm rfl).map ll2string
        rw [List.map_cons, hbytes] at hperm
        rwa [members_maybeConvertIntset, members_intset, members_intset]

/-- **Adding** an element adds its bytes, in every encoding and through every
conversion. -/
theorem setTypeAddAux_spec {o : SetObj} (h : o.Wf) {e : Entry} (he : e.Valid) :
    Added o e.toBytes (setTypeAddAux o e) := by
  cases o with
  | ht keys =>
      rw [setTypeAddAux]
      split_ifs with hin
      · exact added_of_mem h (by rwa [members_ht])
      · have hadd := added_ht h (x := e.toBytes) (by rwa [members_ht])
        rwa [members_ht] at hadd
  | listpack lp =>
      have hfind := lpFind_iff h.valid e.toBytes
      rw [setTypeAddAux]
      split_ifs with hin hfits
      · exact added_of_mem h (hfind.mp hin)
      · exact added_listpack h h.valid rfl he (mt hfind.mpr hin)
      · exact added_ht h (mt hfind.mpr hin)
  | intset is =>
      have his := h.intset is rfl
      cases hn : e.toInt? with
      | some n => exact setTypeAddAux_intset his he hn
      | none =>
          have hx : e.toBytes ∉ (SetObj.intset is).members := by
            rw [mem_members_intset_iff his he, hn]
            simp
          simp only [setTypeAddAux, hn]
          split_ifs
          · refine added_listpack h ?_ (map_append_toBytes _) he hx
            intro e' he'
            obtain ⟨e'', hin, rfl⟩ := List.mem_map.mp he'
            exact Entry.append_valid (h.valid e'' hin)
          · exact added_ht h hx

theorem setTypeAdd_spec {o : SetObj} (h : o.Wf) (value : Bytes) :
    Added o value (setTypeAdd o value) := setTypeAddAux_spec h (e := .str value) True.intro

/-- **Removing** an element removes its bytes. -/
theorem setTypeRemoveAux_spec {o : SetObj} (h : o.Wf) {e : Entry} (he : e.Valid) :
    Removed o e.toBytes (setTypeRemoveAux o e) := by
  cases o with
  | ht keys =>
      have hnodup := h.nodup
      rw [members_ht] at hnodup
      rw [setTypeRemoveAux]
      split_ifs with hin
      · refine ⟨wf_ht (hnodup.erase _), by simp [hin], nofun, fun _ => ?_⟩
        rw [members_ht, members_ht]
        exact List.perm_cons_erase hin
      · exact removed_of_not_mem h (by rwa [members_ht])
  | listpack lp =>
      have hfind := lpFind_iff h.valid e.toBytes
      rw [setTypeRemoveAux]
      split_ifs with hin
      · have hsub : (lp.eraseP (lpFindCmp e.toBytes)).Sublist lp := List.eraseP_sublist
        refine ⟨wf_listpack (h.nodup.sublist (hsub.map _)) fun e' he' => h.valid e' (hsub.subset he'),
          iff_of_true rfl (hfind.mp hin), nofun, fun _ => ?_⟩
        obtain ⟨e₀, he₀, hcmp₀⟩ := List.any_eq_true.mp hin
        obtain ⟨e', pre, post, -, hcmp, hlp, herase⟩ := List.exists_of_eraseP he₀ hcmp₀
        have hbytes : e'.toBytes = e.toBytes :=
          (lpFindCmp_iff (h.valid e' (hlp ▸ List.mem_append_right _ List.mem_cons_self)) _).mp hcmp
        rw [members_listpack, members_listpack, herase, hlp, List.map_append, List.map_cons, hbytes,
          List.map_append]
        exact List.perm_middle
      · exact removed_of_not_mem h (mt hfind.mpr hin)
  | intset is =>
      have his := h.intset is rfl
      have hmem := mem_members_intset_iff his he
      cases hn : e.toInt? with
      | none =>
          simp only [setTypeRemoveAux, hn]
          exact removed_of_not_mem h (by rw [hmem, hn]; simp)
      | some n =>
          have hrem := intsetRemove_spec his n
          have hbytes := ((Entry.toInt?_eq_some_iff he n).mp hn).2
          simp only [setTypeRemoveAux, hn]
          refine ⟨wf_intset hrem.wf, ?_, fun hf => ?_, fun ht => ?_⟩
          · rw [hmem, hn]
            simpa using hrem.found
          · rw [hrem.same hf]
          · have hperm := (hrem.perm ht).map ll2string
            rw [List.map_cons, hbytes] at hperm
            rwa [members_intset, members_intset]

theorem setTypeRemove_spec {o : SetObj} (h : o.Wf) (value : Bytes) :
    Removed o value (setTypeRemove o value) :=
  setTypeRemoveAux_spec h (e := .str value) True.intro

/-- A random element is one of the elements. -/
theorem setTypeRandomElement_mem {o : SetObj} {draw : Nat} {e : Entry}
    (h : setTypeRandomElement o draw = some e) : e ∈ o.elements := List.mem_of_getElem? h

theorem exists_setTypeRandomElement {o : SetObj} (h : o.members ≠ []) (draw : Nat) :
    ∃ e, setTypeRandomElement o draw = some e := by
  have hlen : o.elements.length = setTypeSize o := by
    rw [setTypeSize_eq, SetObj.members, List.length_map]
  have hpos : 0 < setTypeSize o := by
    rw [setTypeSize_eq]
    exact List.length_pos_iff.mpr h
  have hlt := Nat.mod_lt draw hpos
  exact ⟨_, List.getElem?_eq_getElem (by rwa [hlen])⟩

end SkynetJit.Redis
