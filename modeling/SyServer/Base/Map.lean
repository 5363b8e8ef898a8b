import SyServer.Base.Str

/-! # The chained string map

`base/map.c` with the string functions of `base/string.c` it calls.  A map is an array of slots:
the first `size` slots are the heads of the chains, the slots from `size` on form an overflow
area that `mapPut` hands out in order (`cur`).  A colliding key goes into a fresh overflow slot
linked in right behind its head.

`stringHash` reads exactly the bytes of the slice `(data, len)`.  `stringCmp` runs over two C
strings up to their NUL bytes and looks at the lengths only to recognise one and the same slice.

* `stringEq_iff`: a literal equals a query exactly when the C string *at the query's pointer* is
  the literal, whatever the query's length is.
* `MapRepr`: every chain is a finite path over the slots of exactly the put keys of its bucket.
* `mapGet_eq_some_iff`: what a lookup in a map built by `mapPut` returns. -/

namespace SyServer

/-! ### `base/string.c` -/

/-- `char` promoted to `int` and added to an `unsigned int`: the sign is extended. -/
def charToHash (c : UInt8) : UInt32 := c.toInt8.toInt32.toUInt32

/-- `sy_string_hash`. -/
def stringHash (m : Mem) (s : Str) : UInt32 :=
  (s.bytes m).foldl (fun hash c => hash * 31 + charToHash c) 0

/-- The loop of `sy_string_cmp` and the tests behind it, for `n` rounds at most. -/
def cmpLoop (m : Mem) : ℕ → Ptr → Ptr → ℤ
  | 0, _, _ => 1
  | n + 1, lptr, rptr =>
      if m lptr ≠ 0 ∧ m rptr ≠ 0 then
        if m lptr ≠ m rptr then
          if (m lptr).toInt8 > (m rptr).toInt8 then 1 else -1
        else cmpLoop m n (lptr.add 1) (rptr.add 1)
      else if m rptr = 0 ∧ m lptr = 0 then 0
      else if m rptr = 0 then 1 else -1

/-- `sy_string_cmp`.  The left operand is always a key of the map, a literal of `lhs.len` bytes
and a NUL, so `lhs.len + 1` rounds are enough (`cmpLoop_fuel`). -/
def stringCmp (m : Mem) (lhs rhs : Str) : ℤ :=
  if lhs.len = rhs.len ∧ lhs.data = rhs.data then 0
  else if lhs.data = .NULL then -1
  else if rhs.data = .NULL then 1
  else cmpLoop m (lhs.len.toNat + 1) lhs.data rhs.data

/-- `sy_string_eq`. -/
def stringEq (m : Mem) (lhs rhs : Str) : Bool := stringCmp m lhs rhs = 0

/-- The C string at `p` is `l`: its bytes, then a NUL. -/
def CStrAt (m : Mem) (p : Ptr) (l : List UInt8) : Prop :=
  (∀ i, (h : i < l.length) → m (p.add i) = l[i]) ∧ m (p.add l.length) = 0

theorem cStrAt_cons (m : Mem) (p : Ptr) (a : UInt8) (l : List UInt8) :
    CStrAt m p (a :: l) ↔ m p = a ∧ CStrAt m (p.add 1) l := by
  unfold CStrAt
  constructor
  · rintro ⟨h, h0⟩
    refine ⟨?_, fun i hi => ?_, ?_⟩
    · have := h 0 (by simp)
      rwa [Ptr.add_zero] at this
    · rw [Ptr.add_add, Nat.add_comm]
      exact h (i + 1) (by simpa using hi)
    · rw [Ptr.add_add, Nat.add_comm]
      simpa using h0
  · rintro ⟨ha, h, h0⟩
    refine ⟨fun i hi => ?_, ?_⟩
    · cases i with
      | zero => simpa using ha
      | succ i =>
          have := h i (by simpa using hi)
          rw [Ptr.add_add, Nat.add_comm] at this
          simpa using this
    · rw [Ptr.add_add, Nat.add_comm] at h0
      simpa using h0

instance (m : Mem) (p : Ptr) (l : List UInt8) : Decidable (CStrAt m p l) :=
  inferInstanceAs (Decidable ((∀ i, (h : i < l.length) → m (p.add i) = l[i]) ∧
    m (p.add l.length) = 0))

/-- Against a literal the loop decides whether the right operand is that C string, for every
number of rounds that reaches the literal's NUL. -/
theorem cmpLoop_eq_zero_iff (m : Mem) {l : List UInt8} (hl : ∀ b ∈ l, b ≠ 0) :
    ∀ {n : ℕ} {p : Ptr} (q : Ptr), l.length < n → CStrAt m p l →
      (cmpLoop m n p q = 0 ↔ CStrAt m q l) := by
  induction l with
  | nil =>
      intro n p q hn hp
      obtain ⟨n, rfl⟩ : ∃ k, n = k + 1 := ⟨n - 1, by simp at hn; omega⟩
      have hp0 : m p = 0 := by simpa [CStrAt] using hp
      have hq : CStrAt m q [] ↔ m q = 0 := by simp [CStrAt]
      simp only [cmpLoop, hp0, ne_eq, not_true_eq_false, false_and, if_false, and_true, hq]
      split_ifs <;> simp_all
  | cons a l ih =>
      intro n p q hn hp
      obtain ⟨n, rfl⟩ : ∃ k, n = k + 1 := ⟨n - 1, by simp at hn; omega⟩
      rw [cStrAt_cons] at hp ⊢
      have ha : a ≠ 0 := hl a (by simp)
      obtain ⟨hpa, hp'⟩ := hp
      have key := ih (fun b hb => hl b (by simp [hb])) (p := p.add 1) (q.add 1)
        (by simpa using hn) hp'
      simp only [cmpLoop, hpa, ne_eq, ha, not_false_eq_true, true_and, and_false, if_false]
      by_cases hq0 : m q = 0
      · simp only [hq0, not_true_eq_false, if_false, if_true]
        have : ¬ (0 = a) := fun h => ha h.symm
        simp [this]
      · simp only [hq0, not_false_eq_true, if_true, if_false]
        by_cases hqa : a = m q
        · simp [hqa, key]
        · have hqa' : ¬ m q = a := fun h => hqa h.symm
          simp only [hqa, not_false_eq_true, if_true, hqa', false_and, iff_false]
          split_ifs <;> decide

/-- The result against a literal does not depend on the number of rounds once it is enough. -/
theorem cmpLoop_fuel (m : Mem) {l : List UInt8} (hl : ∀ b ∈ l, b ≠ 0) :
    ∀ {n k : ℕ} {p : Ptr} (q : Ptr), l.length < n → l.length < k → CStrAt m p l →
      cmpLoop m n p q = cmpLoop m k p q := by
  induction l with
  | nil =>
      intro n k p q hn hk hp
      obtain ⟨n, rfl⟩ : ∃ j, n = j + 1 := ⟨n - 1, by simp at hn; omega⟩
      obtain ⟨k, rfl⟩ : ∃ j, k = j + 1 := ⟨k - 1, by simp at hk; omega⟩
      have hp0 : m p = 0 := by simpa [CStrAt] using hp
      simp [cmpLoop, hp0]
  | cons a l ih =>
      intro n k p q hn hk hp
      obtain ⟨n, rfl⟩ : ∃ j, n = j + 1 := ⟨n - 1, by simp at hn; omega⟩
      obtain ⟨k, rfl⟩ : ∃ j, k = j + 1 := ⟨k - 1, by simp at hk; omega⟩
      rw [cStrAt_cons] at hp
      have := ih (fun b hb => hl b (by simp [hb])) (n := n) (k := k) (p := p.add 1) (q.add 1)
        (by simpa using hn) (by simpa using hk) hp.2
      simp only [cmpLoop, this]

theorem Str.IsLiteral.cStrAt {m : Mem} {k : Str} (h : k.IsLiteral m) :
    CStrAt m k.data (k.bytes m) := by
  refine ⟨fun i hi => ?_, ?_⟩
  · simp [Str.bytes]
  · rw [Str.length_bytes]; exact h.terminated

/-- **What `sy_string_eq` decides** for a literal on the left: the C string at the right
operand's pointer is the literal.  The right operand's length plays no part. -/
theorem stringEq_iff {m : Mem} {k q : Str} (hk : k.IsLiteral m) :
    stringEq m k q = true ↔ q.data ≠ .NULL ∧ CStrAt m q.data (k.bytes m) := by
  unfold stringEq stringCmp
  rw [decide_eq_true_eq]
  by_cases hid : k.len = q.len ∧ k.data = q.data
  · rw [if_pos hid]
    simp only [true_iff]
    exact ⟨hid.2 ▸ hk.notNull, hid.2 ▸ hk.cStrAt⟩
  · rw [if_neg hid, if_neg hk.notNull]
    by_cases hq : q.data = .NULL
    · simp [hq]
    · rw [if_neg hq, cmpLoop_eq_zero_iff m hk.nulFree q.data (by simp) hk.cStrAt]
      simp [hq]

/-! ### `base/map.c` -/

/-- `sy_map_slot_t`. -/
structure Slot (ν : Type) where
  key : Str
  val : ν
  next : Option ℕ

/-- `sy_map_t`: `data` is the array of slots, `cur` the index of the next overflow slot. -/
structure Map (ν : Type) where
  size : ℕ
  maxSize : ℕ
  data : ℕ → Slot ν
  cur : ℕ

variable {ν : Type}

/-- A map whose slots are zeroed, as the static arrays of the program are. -/
def Map.zeroed [Inhabited ν] (size maxSize : ℕ) : Map ν :=
  ⟨size, maxSize, fun _ => ⟨Str.init, default, none⟩, size⟩

/-- `hash % map->size`. -/
def bucket (m : Mem) (size : ℕ) (key : Str) : ℕ := (stringHash m key).toNat % size

/-- The chain walk of `sy_map_get`, over `n` slots at most. -/
def chainFind (m : Mem) (map : Map ν) (key : Str) : ℕ → Option ℕ → Option ℕ
  | 0, _ => none
  | _ + 1, none => none
  | n + 1, some i =>
      if stringEq m (map.data i).key key then some i
      else chainFind m map key n (map.data i).next

/-- `sy_map_get`: the index of the slot found.  A chain visits no slot twice (`MapRepr.chain`), so
it has at most `cur` slots. -/
def mapGet (m : Mem) (map : Map ν) (key : Str) : Option ℕ :=
  let slot := bucket m map.size key
  if (map.data slot).key.data = .NULL then none
  else chainFind m map key map.cur (some slot)

/-- Store a slot. -/
def Map.set (map : Map ν) (i : ℕ) (s : Slot ν) : Map ν :=
  { map with data := Function.update map.data i s }

@[simp] theorem Map.set_size (map : Map ν) (i : ℕ) (s : Slot ν) : (map.set i s).size = map.size := rfl
@[simp] theorem Map.set_cur (map : Map ν) (i : ℕ) (s : Slot ν) : (map.set i s).cur = map.cur := rfl
@[simp] theorem Map.set_same (map : Map ν) (i : ℕ) (s : Slot ν) : (map.set i s).data i = s := by
  simp [Map.set]
theorem Map.set_ne (map : Map ν) {i j : ℕ} (s : Slot ν) (h : j ≠ i) :
    (map.set i s).data j = map.data j := by
  simp [Map.set, h]

/-- `sy_map_put`. -/
def mapPut (m : Mem) (map : Map ν) (key : Str) (val : ν) : Map ν :=
  let slot := bucket m map.size key
  if (map.data slot).key.data = .NULL then
    map.set slot { map.data slot with key := key, val := val }
  else
    let newSlot := map.cur
    let linked := map.set newSlot ⟨key, val, (map.data slot).next⟩
    let linked := linked.set slot { linked.data slot with next := some newSlot }
    { linked with cur := map.cur + 1 }

/-- A sequence of `sy_map_put` calls. -/
def mapPuts (m : Mem) (map : Map ν) (puts : List (Str × ν)) : Map ν :=
  puts.foldl (fun map p => mapPut m map p.1 p.2) map

/-- The slots `l`, in order, are the `next` path from `o`. -/
def Path (map : Map ν) : Option ℕ → List ℕ → Prop
  | o, [] => o = none
  | o, i :: l => o = some i ∧ Path map (map.data i).next l

/-- The puts that go to bucket `h`. -/
def inBucket (m : Mem) (size h : ℕ) (puts : List (Str × ν)) : List (Str × ν) :=
  puts.filter fun p => bucket m size p.1 = h

/-- The key and the value of a slot. -/
def entry (map : Map ν) (i : ℕ) : Str × ν := ((map.data i).key, (map.data i).val)

/-- What a map built by the calls `puts` looks like: a bucket nobody was put into has an unused
head, every other bucket is a path from its head over distinct slots that hold exactly its puts. -/
structure MapRepr (m : Mem) (map : Map ν) (puts : List (Str × ν)) : Prop where
  pos : 0 < map.size
  cur_ge : map.size ≤ map.cur
  unused : ∀ h, h < map.size → inBucket m map.size h puts = [] →
    (map.data h).key.data = .NULL ∧ (map.data h).next = none
  chain : ∀ h, h < map.size → inBucket m map.size h puts ≠ [] →
    (map.data h).key.data ≠ .NULL ∧
      ∃ l, Path map (some h) (h :: l) ∧ (h :: l).Nodup ∧ (∀ i ∈ l, map.size ≤ i ∧ i < map.cur) ∧
        ((h :: l).map (entry map)).Perm (inBucket m map.size h puts)

/-! ### The representation through a sequence of puts -/

theorem Path.congr {map map' : Map ν} {l : List ℕ}
    (h : ∀ i ∈ l, (map'.data i).next = (map.data i).next) :
    ∀ {o : Option ℕ}, Path map o l → Path map' o l := by
  induction l with
  | nil => intro o hp; exact hp
  | cons i l ih =>
      intro o hp
      refine ⟨hp.1, ?_⟩
      rw [h i (by simp)]
      exact ih (fun j hj => h j (by simp [hj])) hp.2

theorem bucket_lt (m : Mem) {size : ℕ} (h : 0 < size) (key : Str) : bucket m size key < size :=
  Nat.mod_lt _ h

theorem inBucket_append (m : Mem) (size h : ℕ) (puts : List (Str × ν)) (p : Str × ν) :
    inBucket m size h (puts ++ [p]) =
      inBucket m size h puts ++ if bucket m size p.1 = h then [p] else [] := by
  unfold inBucket
  rw [List.filter_append]
  by_cases hb : bucket m size p.1 = h <;> simp [hb]

theorem repr_zeroed [Inhabited ν] (m : Mem) {size : ℕ} (maxSize : ℕ) (h : 0 < size) :
    MapRepr m (Map.zeroed (ν := ν) size maxSize) [] where
  pos := h
  cur_ge := le_rfl
  unused := by
    intro i _ _
    exact ⟨rfl, rfl⟩
  chain := by
    intro i _ hne
    exact absurd rfl hne

@[simp] theorem mapPut_size (m : Mem) (map : Map ν) (key : Str) (val : ν) :
    (mapPut m map key val).size = map.size := by
  unfold mapPut
  dsimp only
  split_ifs <;> rfl

/-- A put into a free head fills it and changes nothing else. -/
theorem mapPut_free {m : Mem} {map : Map ν} {key : Str} (val : ν) {b : ℕ}
    (hb : bucket m map.size key = b) (h : (map.data b).key.data = .NULL) :
    (mapPut m map key val).cur = map.cur ∧
      (mapPut m map key val).data b = ⟨key, val, (map.data b).next⟩ ∧
      ∀ i, i ≠ b → (mapPut m map key val).data i = map.data i := by
  subst hb
  have e : mapPut m map key val = map.set (bucket m map.size key)
      { map.data (bucket m map.size key) with key := key, val := val } := by
    unfold mapPut
    dsimp only
    rw [if_pos h]
  rw [e]
  exact ⟨rfl, by rw [Map.set_same], fun i hi => Map.set_ne _ _ hi⟩

/-- A put into a used bucket takes the next overflow slot and links it in behind the head. -/
theorem mapPut_used {m : Mem} {map : Map ν} {key : Str} (val : ν) {b : ℕ}
    (hb : bucket m map.size key = b) (h : (map.data b).key.data ≠ .NULL) (hlt : b < map.cur) :
    (mapPut m map key val).cur = map.cur + 1 ∧
      (mapPut m map key val).data b = { map.data b with next := some map.cur } ∧
      (mapPut m map key val).data map.cur = ⟨key, val, (map.data b).next⟩ ∧
      ∀ i, i ≠ b → i ≠ map.cur → (mapPut m map key val).data i = map.data i := by
  subst hb
  unfold mapPut
  dsimp only
  rw [if_neg h]
  have hne : bucket m map.size key ≠ map.cur := by omega
  refine ⟨rfl, ?_, ?_, fun i h1 h2 => ?_⟩
  · dsimp only
    rw [Map.set_same, Map.set_ne _ _ hne]
  · dsimp only
    rw [Map.set_ne _ _ hne.symm, Map.set_same]
  · dsimp only
    rw [Map.set_ne _ _ h1, Map.set_ne _ _ h2]

theorem map_entry_congr {map map' : Map ν} {l : List ℕ}
    (h : ∀ i ∈ l, map'.data i = map.data i) : l.map (entry map') = l.map (entry map) :=
  List.map_congr_left fun i hi => by
    unfold entry
    rw [h i hi]

theorem mapRepr_put_head {m : Mem} {map : Map ν} {puts : List (Str × ν)} (hr : MapRepr m map puts)
    {key : Str} (val : ν) (hkey : key.data ≠ .NULL)
    (hfree : (map.data (bucket m map.size key)).key.data = .NULL) :
    MapRepr m (mapPut m map key val) (puts ++ [(key, val)]) := by
  have hb := bucket_lt m hr.pos key
  have hge := hr.cur_ge
  have hsize := mapPut_size m map key val
  generalize hbk : bucket m map.size key = b at hb hfree
  have hnil : inBucket m map.size b puts = [] := by
    by_contra hne
    exact (hr.chain _ hb hne).1 hfree
  have hnext := (hr.unused _ hb hnil).2
  obtain ⟨hcur, hhead, hother⟩ := mapPut_free val hbk hfree
  generalize mapPut m map key val = map' at *
  constructor
  · rw [hsize]; exact hr.pos
  · rw [hsize, hcur]; exact hge
  · intro h hh hne
    rw [hsize] at hh hne
    rw [inBucket_append, hbk] at hne
    obtain ⟨h1, h2⟩ := List.append_eq_nil_iff.mp hne
    have hbh : h ≠ b := by
      rintro rfl
      simp at h2
    rw [hother h hbh]
    exact hr.unused h hh h1
  · intro h hh hne
    rw [hsize] at hh hne
    rw [hsize, hcur]
    rw [inBucket_append, hbk] at hne ⊢
    by_cases hbh : h = b
    · subst hbh
      refine ⟨by rw [hhead]; exact hkey, [], ⟨rfl, ?_⟩, by simp, by simp, ?_⟩
      · rw [hhead]; exact hnext
      · simp [hnil, entry, hhead]
    · have hbh' : ¬ b = h := fun e => hbh e.symm
      rw [if_neg hbh', List.append_nil] at hne ⊢
      obtain ⟨h1, l, hp, hnd, hl, hperm⟩ := hr.chain h hh hne
      have hsame : ∀ i ∈ h :: l, map'.data i = map.data i := by
        intro i hi
        refine hother i ?_
        rcases List.mem_cons.mp hi with rfl | hi
        · exact hbh
        · have := (hl i hi).1
          omega
      refine ⟨by rw [hsame h (by simp)]; exact h1, l, ?_, hnd, hl, ?_⟩
      · exact hp.congr fun i hi => by rw [hsame i hi]
      · rw [map_entry_congr hsame]; exact hperm

theorem mapRepr_put_chain {m : Mem} {map : Map ν} {puts : List (Str × ν)} (hr : MapRepr m map puts)
    {key : Str} (val : ν) (hused : (map.data (bucket m map.size key)).key.data ≠ .NULL) :
    MapRepr m (mapPut m map key val) (puts ++ [(key, val)]) := by
  have hb := bucket_lt m hr.pos key
  have hge := hr.cur_ge
  have hsize := mapPut_size m map key val
  generalize hbk : bucket m map.size key = b at hb hused
  obtain ⟨hcur, hhead, hfresh, hother⟩ := mapPut_used val hbk hused (by omega)
  generalize mapPut m map key val = map' at *
  constructor
  · rw [hsize]; exact hr.pos
  · omega
  · intro h hh hne
    rw [hsize] at hh hne
    rw [inBucket_append, hbk] at hne
    obtain ⟨h1, h2⟩ := List.append_eq_nil_iff.mp hne
    have hbh : h ≠ b := by
      rintro rfl
      simp at h2
    rw [hother h hbh (by omega)]
    exact hr.unused h hh h1
  · intro h hh hne
    rw [hsize] at hh hne
    rw [hsize, hcur]
    rw [inBucket_append, hbk] at hne ⊢
    by_cases hbh : h = b
    · subst hbh
      have hne' : inBucket m map.size h puts ≠ [] := fun hnil => hused (hr.unused h hh hnil).1
      obtain ⟨_, l, hp, hnd, hl, hperm⟩ := hr.chain h hh hne'
      obtain ⟨hhl, hnd⟩ := List.nodup_cons.mp hnd
      have hcl : map.cur ∉ l := fun hm => by have := (hl _ hm).2; omega
      have hsame : ∀ i ∈ l, map'.data i = map.data i :=
        fun i hi => hother i (fun e => hhl (e ▸ hi)) (fun e => hcl (e ▸ hi))
      refine ⟨by rw [hhead]; exact hused, map.cur :: l, ⟨rfl, ?_⟩, ?_, ?_, ?_⟩
      · -- the head now points at the fresh slot, the fresh slot at the old second slot
        rw [hhead]
        refine ⟨rfl, ?_⟩
        rw [hfresh]
        exact Path.congr (fun i hi => by rw [hsame i hi]) hp.2
      · refine List.nodup_cons.mpr ⟨?_, List.nodup_cons.mpr ⟨hcl, hnd⟩⟩
        rw [List.mem_cons, not_or]
        exact ⟨by omega, hhl⟩
      · intro i hi
        rcases List.mem_cons.mp hi with rfl | hi
        · omega
        · have := hl i hi
          omega
      · rw [if_pos rfl, List.map_cons, List.map_cons, map_entry_congr hsame]
        have e1 : entry map' h = entry map h := by simp [entry, hhead]
        have e2 : entry map' map.cur = (key, val) := by simp [entry, hfresh]
        rw [e1, e2]
        refine (List.Perm.swap _ _ _).trans ?_
        exact (hperm.cons _).trans (List.perm_append_singleton _ _).symm
    · have hbh' : ¬ b = h := fun e => hbh e.symm
      rw [if_neg hbh', List.append_nil] at hne ⊢
      obtain ⟨h1, l, hp, hnd, hl, hperm⟩ := hr.chain h hh hne
      have hsame : ∀ i ∈ h :: l, map'.data i = map.data i := by
        intro i hi
        rcases List.mem_cons.mp hi with rfl | hi
        · exact hother i hbh (by omega)
        · have := hl i hi
          exact hother i (by omega) (by omega)
      refine ⟨by rw [hsame h (by simp)]; exact h1, l, ?_, hnd, ?_, ?_⟩
      · exact hp.congr fun i hi => by rw [hsame i hi]
      · intro i hi
        have := hl i hi
        omega
      · rw [map_entry_congr hsame]; exact hperm

theorem mapRepr_put {m : Mem} {map : Map ν} {puts : List (Str × ν)} (hr : MapRepr m map puts)
    {key : Str} (val : ν) (hkey : key.data ≠ .NULL) :
    MapRepr m (mapPut m map key val) (puts ++ [(key, val)]) := by
  by_cases h : (map.data (bucket m map.size key)).key.data = .NULL
  · exact mapRepr_put_head hr val hkey h
  · exact mapRepr_put_chain hr val h

theorem mapRepr_puts {m : Mem} (puts : List (Str × ν)) (hkeys : ∀ p ∈ puts, p.1.data ≠ .NULL) :
    ∀ {map : Map ν} {done : List (Str × ν)}, MapRepr m map done →
      MapRepr m (mapPuts m map puts) (done ++ puts) := by
  induction puts with
  | nil => intro map done hr; simpa [mapPuts] using hr
  | cons p puts ih =>
      intro map done hr
      have := ih (fun q hq => hkeys q (by simp [hq])) (mapRepr_put hr p.2 (hkeys p (by simp)))
      simpa [mapPuts] using this

/-! ### Lookups -/

theorem chainFind_eq (m : Mem) (map : Map ν) (q : Str) {l : List ℕ} :
    ∀ {n : ℕ} {o : Option ℕ}, Path map o l → l.length ≤ n →
      chainFind m map q n o = l.find? fun i => stringEq m (map.data i).key q := by
  induction l with
  | nil =>
      rintro (_ | n) o hp _
      · rfl
      · rw [show o = none from hp]; rfl
  | cons i l ih =>
      rintro (_ | n) o hp hn
      · simp at hn
      · obtain ⟨rfl, hp⟩ := hp
        rw [chainFind, List.find?_cons]
        cases stringEq m (map.data i).key q with
        | true => rfl
        | false =>
            simp only [Bool.false_eq_true, if_false]
            exact ih hp (by simpa using hn)

theorem MapRepr.length_le {m : Mem} {map : Map ν} {puts : List (Str × ν)} (hr : MapRepr m map puts)
    {h : ℕ} {l : List ℕ} (hnd : (h :: l).Nodup) (hl : ∀ i ∈ l, map.size ≤ i ∧ i < map.cur) :
    (h :: l).length ≤ map.cur := by
  have hsub : l ⊆ List.range' map.size (map.cur - map.size) := by
    intro i hi
    have := hl i hi
    rw [List.mem_range'_1]
    omega
  have hlen := ((List.nodup_cons.mp hnd).2.subperm hsub).length_le
  rw [List.length_range'] at hlen
  have := hr.pos
  have := hr.cur_ge
  simp only [List.length_cons]
  omega

/-- A lookup walks the chain of the query's bucket. -/
theorem MapRepr.mapGet {m : Mem} {map : Map ν} {puts : List (Str × ν)} (hr : MapRepr m map puts)
    (q : Str) :
    ∃ l : List ℕ, (l.map (entry map)).Perm (inBucket m map.size (bucket m map.size q) puts) ∧
      mapGet m map q = l.find? fun i => stringEq m (map.data i).key q := by
  have hb := bucket_lt m hr.pos q
  by_cases hnil : inBucket m map.size (bucket m map.size q) puts = []
  · refine ⟨[], by simp [hnil], ?_⟩
    unfold SyServer.mapGet
    dsimp only
    rw [if_pos (hr.unused _ hb hnil).1]
    rfl
  · obtain ⟨hk, l, hp, hnd, hl, hperm⟩ := hr.chain _ hb hnil
    refine ⟨_, hperm, ?_⟩
    unfold SyServer.mapGet
    dsimp only
    rw [if_neg hk]
    exact chainFind_eq m map q hp (hr.length_le hnd hl)

/-- Two NUL-free C strings at one pointer are the same. -/
theorem CStrAt.unique {m : Mem} {p : Ptr} {l l' : List UInt8} (h : CStrAt m p l)
    (h' : CStrAt m p l') (hl : ∀ b ∈ l, b ≠ 0) (hl' : ∀ b ∈ l', b ≠ 0) : l = l' := by
  induction l generalizing p l' with
  | nil =>
      cases l' with
      | nil => rfl
      | cons a l' =>
          have h0 : m p = 0 := by simpa [CStrAt] using h
          have ha := ((cStrAt_cons m p a l').mp h').1
          exact absurd (ha.symm.trans h0) (hl' a (by simp))
  | cons a l ih =>
      have ha := (cStrAt_cons m p a l).mp h
      cases l' with
      | nil =>
          have h0 : m p = 0 := by simpa [CStrAt] using h'
          exact absurd (ha.1.symm.trans h0) (hl a (by simp))
      | cons a' l' =>
          have ha' := (cStrAt_cons m p a' l').mp h'
          rw [← ha.1, ← ha'.1,
            ih ha.2 ha'.2 (fun b hb => hl b (by simp [hb])) (fun b hb => hl' b (by simp [hb]))]

section lookup
variable {m : Mem} {map : Map ν} {puts : List (Str × ν)} (hr : MapRepr m map puts)
  (hlit : ∀ p ∈ puts, p.1.IsLiteral m) {q : Str}
include hr hlit

/-- A slot that is found holds a put of the query's bucket whose key is the C string at the
query's pointer. -/
theorem mapGet_some {i : ℕ} (h : mapGet m map q = some i) :
    entry map i ∈ puts ∧ bucket m map.size (entry map i).1 = bucket m map.size q ∧
      CStrAt m q.data ((entry map i).1.bytes m) := by
  obtain ⟨l, hperm, hget⟩ := hr.mapGet q
  rw [hget] at h
  have hmem : entry map i ∈ inBucket m map.size (bucket m map.size q) puts :=
    hperm.subset (List.mem_map_of_mem (List.mem_of_find?_eq_some h))
  unfold inBucket at hmem
  rw [List.mem_filter, decide_eq_true_eq] at hmem
  have heq : stringEq m (map.data i).key q = true := by simpa using List.find?_some h
  exact ⟨hmem.1, hmem.2, ((stringEq_iff (hlit _ hmem.1)).mp heq).2⟩

/-- Nothing is found only if no key of the query's bucket is the C string at the query's
pointer. -/
theorem mapGet_none (hq : q.data ≠ .NULL) (h : mapGet m map q = none) (p : Str × ν) (hp : p ∈ puts)
    (hb : bucket m map.size p.1 = bucket m map.size q) : ¬ CStrAt m q.data (p.1.bytes m) := by
  intro hc
  obtain ⟨l, hperm, hget⟩ := hr.mapGet q
  have hmem : p ∈ inBucket m map.size (bucket m map.size q) puts :=
    List.mem_filter.mpr ⟨hp, decide_eq_true hb⟩
  obtain ⟨i, hi, rfl⟩ := List.mem_map.mp (hperm.symm.subset hmem)
  rw [hget, List.find?_eq_none] at h
  exact h i hi ((stringEq_iff (hlit _ hp)).mpr ⟨hq, hc⟩)

end lookup

/-! ### Exactness of lookups -/

/-- The lookup law for one query: it finds the slot of a put key exactly when the bytes of the
query's slice are the bytes of that key, and finds nothing when they are no key's. -/
def LookupExact (m : Mem) (map : Map ν) (puts : List (Str × ν)) (q : Str) : Prop :=
  (∀ p ∈ puts, (∃ i, mapGet m map q = some i ∧ entry map i = p) ↔ p.1.bytes m = q.bytes m) ∧
    ((∀ p ∈ puts, p.1.bytes m ≠ q.bytes m) → mapGet m map q = none)

/-- What the bytes behind the query's slice must be: a NUL if the slice is a key; and if a key
of the query's bucket can be read there up to a NUL, that key is the slice. -/
def QueryTerminated (m : Mem) (size : ℕ) (puts : List (Str × ν)) (q : Str) : Prop :=
  (∀ p ∈ puts, p.1.bytes m = q.bytes m → m (q.data.add q.len.toNat) = 0) ∧
    ∀ p ∈ puts, bucket m size p.1 = bucket m size q → CStrAt m q.data (p.1.bytes m) →
      p.1.bytes m = q.bytes m

theorem cStrAt_bytes_iff (m : Mem) (q : Str) :
    CStrAt m q.data (q.bytes m) ↔ m (q.data.add q.len.toNat) = 0 := by
  constructor
  · intro h
    rw [← Str.length_bytes m q]
    exact h.2
  · intro h
    refine ⟨fun i hi => by simp [Str.bytes], ?_⟩
    rw [Str.length_bytes]
    exact h

theorem bucket_congr {m : Mem} {k q : Str} (size : ℕ) (h : k.bytes m = q.bytes m) :
    bucket m size k = bucket m size q := by
  unfold bucket stringHash
  rw [h]

theorem lookupExact_iff_of_repr {m : Mem} {map : Map ν} {puts : List (Str × ν)}
    (hr : MapRepr m map puts) (hlit : ∀ p ∈ puts, p.1.IsLiteral m)
    (hdist : (puts.map fun p => p.1.bytes m).Nodup) {q : Str} (hq : q.data ≠ .NULL) :
    LookupExact m map puts q ↔ QueryTerminated m map.size puts q := by
  have hinj : ∀ p ∈ puts, ∀ p' ∈ puts, p.1.bytes m = p'.1.bytes m → p = p' :=
    fun p hp p' hp' h => List.inj_on_of_nodup_map hdist hp hp' h
  have hsame : ∀ p ∈ puts, ∀ p' ∈ puts, CStrAt m q.data (p.1.bytes m) →
      CStrAt m q.data (p'.1.bytes m) → p = p' := fun p hp p' hp' h h' =>
    hinj p hp p' hp' (h.unique h' (hlit p hp).nulFree (hlit p' hp').nulFree)
  constructor
  · rintro ⟨hfind, hnone⟩
    refine ⟨fun p hp hpq => ?_, fun p hp hb hc => ?_⟩
    · obtain ⟨i, hi, hip⟩ := (hfind p hp).mpr hpq
      have := (mapGet_some hr hlit hi).2.2
      rw [hip, hpq] at this
      exact (cStrAt_bytes_iff m q).mp this
    · cases hget : mapGet m map q with
      | none => exact absurd hc (mapGet_none hr hlit hq hget p hp hb)
      | some i =>
          obtain ⟨hmem, _, hc'⟩ := mapGet_some hr hlit hget
          exact (hfind p hp).mp ⟨i, hget, hsame _ hmem p hp hc' hc⟩
  · rintro ⟨hterm, honly⟩
    refine ⟨fun p hp => ⟨?_, fun hpq => ?_⟩, fun hno => ?_⟩
    · rintro ⟨i, hi, rfl⟩
      obtain ⟨hmem, hb, hc⟩ := mapGet_some hr hlit hi
      exact honly _ hmem hb hc
    · have hc : CStrAt m q.data (p.1.bytes m) := by
        rw [hpq, cStrAt_bytes_iff]
        exact hterm p hp hpq
      cases hget : mapGet m map q with
      | none => exact absurd hc (mapGet_none hr hlit hq hget p hp (bucket_congr _ hpq))
      | some i =>
          obtain ⟨hmem, _, hc'⟩ := mapGet_some hr hlit hget
          exact ⟨i, rfl, hsame _ hmem p hp hc' hc⟩
    · cases hget : mapGet m map q with
      | none => rfl
      | some i =>
          obtain ⟨hmem, hb, hc⟩ := mapGet_some hr hlit hget
          exact absurd (honly _ hmem hb hc) (hno _ hmem)

theorem repr_of_puts [Inhabited ν] {m : Mem} {size : ℕ} (maxSize : ℕ) (hsize : 0 < size)
    {puts : List (Str × ν)} (hlit : ∀ p ∈ puts, p.1.IsLiteral m) :
    MapRepr m (mapPuts m (Map.zeroed size maxSize) puts) puts := by
  have := mapRepr_puts puts (fun p hp => (hlit p hp).notNull) (repr_zeroed m maxSize hsize)
  simpa using this

theorem mapPuts_size (m : Mem) (puts : List (Str × ν)) :
    ∀ map : Map ν, (mapPuts m map puts).size = map.size := by
  induction puts with
  | nil => intro map; rfl
  | cons p puts ih => intro map; exact (ih _).trans (mapPut_size m map p.1 p.2)

/-- **When lookups are exact.**  For every map built by puts of distinct literals and every
query that is a slice of the read buffer, the lookup law holds exactly when the bytes behind the
slice are terminated as the NUL-driven comparison needs them. -/
theorem lookupExact_iff [Inhabited ν] (m : Mem) {size : ℕ} (maxSize : ℕ) (hsize : 0 < size)
    (puts : List (Str × ν)) (hlit : ∀ p ∈ puts, p.1.IsLiteral m)
    (hdist : (puts.map fun p => p.1.bytes m).Nodup) (off len : ℕ) :
    LookupExact m (mapPuts m (Map.zeroed size maxSize) puts) puts ⟨.rb off, len⟩ ↔
      QueryTerminated m size puts ⟨.rb off, len⟩ := by
  have := lookupExact_iff_of_repr (repr_of_puts maxSize hsize hlit) hlit hdist
    (q := ⟨.rb off, len⟩) (by simp)
  rwa [mapPuts_size] at this

/-- A read buffer that holds `host: a`, next to the literal `host`. -/
def hostMem : Mem
  | .rb i => (bytes "host: a").getD i 0
  | .lit _ i => (bytes "host").getD i 0
  | .null _ => 0

def hostPuts : List (Str × ℕ) := [(⟨.lit 0 0, 4⟩, 1)]

/-- The slice `host` of `host: a` is a put key and is not found. -/
theorem host_not_found :
    (Str.mk (.rb 0) 4).bytes hostMem = bytes "host" ∧
      ¬ LookupExact hostMem (mapPuts hostMem (Map.zeroed 131 262) hostPuts) hostPuts
        ⟨.rb 0, 4⟩ := by
  refine ⟨by decide, ?_⟩
  rintro ⟨hfind, -⟩
  obtain ⟨i, hi, -⟩ := (hfind (⟨.lit 0 0, 4⟩, 1) (by decide)).mpr (by decide)
  have hnone : mapGet hostMem (mapPuts hostMem (Map.zeroed 131 262) hostPuts) ⟨.rb 0, 4⟩ = none := by
    decide
  rw [hnone] at hi
  cases hi

/-- The same name in a buffer where a NUL stands behind it. -/
def namedMem : Mem
  | .rb i => (bytes "host").getD i 0
  | .lit _ i => (bytes "host").getD i 0
  | .null _ => 0

theorem hostPuts_literal : ∀ p ∈ hostPuts, p.1.IsLiteral namedMem := by
  intro p hp
  simp only [hostPuts, List.mem_singleton] at hp
  subst hp
  exact ⟨by decide, by decide +kernel, by decide⟩

/-- A terminated query is found. -/
theorem lookupExact_iff_host :
    LookupExact namedMem (mapPuts namedMem (Map.zeroed 131 262) hostPuts) hostPuts ⟨.rb 0, 4⟩ := by
  refine (lookupExact_iff namedMem 262 (by decide) hostPuts hostPuts_literal (by decide) 0 4).mpr ?_
  constructor
  · intro _ _ _
    decide
  · intro p hp _ _
    simp only [hostPuts, List.mem_singleton] at hp
    subst hp
    decide

end SyServer
