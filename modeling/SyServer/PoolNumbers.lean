import SyServer.Pools
import SyServer.Session

/-! # The pool of a worker, in memory

The worker of `Server.lean` goes by the numbers of its connections and requests (`Pool`); the pool of
`base/mempool.c` hands out addresses.  `PoolPair` makes each call on both: a number is given back with the
block that was handed out with it.

* `Placed`: every number has a slot for its address; the blocks handed out, and the free list, are those
  of the numbers.  Kept by every call, where a new chunk has the addresses for the next numbers
  (`placed_call`).
* `pool_numbered`: over a whole run behind `sy_pool_init`, one address for each number, until a holder
  writes behind its slot; none can exactly when the objects are no wider than the slots. -/

namespace SyServer

open Calls Cells

/-- A pool in memory, and the pool of a worker with the numbers it has handed out, the last one first. -/
structure PoolPair where
  run : PoolRun
  pool : Pool
  numbers : List ℕ

/-- A call on both.  Where `sy_pool_alloc` answers `NULL`, the worker's pool is left alone. -/
def PoolOp.both (op : PoolOp) (b : PoolPair) : Except Halt PoolPair := do
  let run ← op.apply b.run
  match op with
  | alloc _ _ =>
      if run.handed = b.run.handed then pure { b with run := run }
      else
        let (n, pool) := b.pool.alloc
        pure ⟨run, pool, n :: b.numbers⟩
  | free x =>
      let n := b.numbers.getD (b.run.handed.idxOf x) 0
      pure ⟨run, b.pool.release n, b.numbers.erase n⟩
  | write _ _ => pure { b with run := run }

/-- The address of a number. -/
def addressIn (place : List ℕ) (n : ℕ) : ℕ := place.getD n 0

/-- The numbers have these addresses. -/
structure Placed (place : List ℕ) (b : PoolPair) : Prop where
  laid : b.run.Laid
  size : b.run.p.chunkSize = CHUNK_SIZE
  next : b.pool.next = place.length
  slots : ∀ a ∈ place, ∃ c ∈ b.run.created, a ∈ c.slots
  numbers : (b.numbers ++ b.pool.free).Perm (List.range place.length)
  handed : b.run.handed = b.numbers.map (addressIn place)
  free : Chain b.run.w.mem b.run.p.cur (b.pool.free.map (addressIn place)) 0

theorem addressIn_mem {place : List ℕ} {n : ℕ} (h : n < place.length) : addressIn place n ∈ place := by
  unfold addressIn
  rw [List.getD_eq_getElem _ _ h]
  exact List.getElem_mem h

theorem addressIn_grown {place place' : List ℕ} (h : place <+: place') {n : ℕ} (hn : n < place.length) :
    addressIn place' n = addressIn place n := by
  obtain ⟨more, rfl⟩ := h
  unfold addressIn
  rw [List.getD_append _ _ _ _ hn]

theorem map_addressIn_range (place : List ℕ) : (List.range place.length).map (addressIn place) = place := by
  apply List.ext_getElem
  · simp
  · intro n h1 h2
    simp [addressIn, h2]

namespace Placed

variable {place : List ℕ} {b b' : PoolPair}

theorem lt (h : Placed place b) {n : ℕ} (hn : n ∈ b.numbers ++ b.pool.free) : n < place.length :=
  List.mem_range.mp (h.numbers.mem_iff.mp hn)

theorem slot (h : Placed place b) {n : ℕ} (hn : n ∈ b.numbers ++ b.pool.free) :
    ∃ c ∈ b.run.created, addressIn place n ∈ c.slots :=
  h.slots _ (addressIn_mem (h.lt hn))

theorem ne_zero (h : Placed place b) {n : ℕ} (hn : n ∈ b.numbers ++ b.pool.free) :
    addressIn place n ≠ 0 := by
  obtain ⟨c, hc, hslot⟩ := h.slot hn
  exact h.laid.slot_ne_zero hc hslot

theorem nodup_numbers (h : Placed place b) : (b.numbers ++ b.pool.free).Nodup :=
  h.numbers.nodup_iff.mpr List.nodup_range

/-- The blocks handed out and those on the free list. -/
theorem nodup_blocks (h : Placed place b) :
    (b.run.handed ++ b.pool.free.map (addressIn place)).Nodup := by
  obtain ⟨free, hchain, hnodup, hslots⟩ := h.laid.blocks
  have h0 : 0 ∉ b.pool.free.map (addressIn place) := by
    intro hmem
    obtain ⟨n, hn, hzero⟩ := List.mem_map.mp hmem
    exact h.ne_zero (List.mem_append_right _ hn) hzero
  have h0' : 0 ∉ free := h.laid.zero_notMem fun x hx => hslots x (List.mem_append_right _ hx)
  rw [h.free.unique hchain h0 h0']
  exact hnodup

/-- No two numbers have one address. -/
theorem nodup (h : Placed place b) : place.Nodup := by
  have hblocks := h.nodup_blocks
  rw [h.handed, ← List.map_append] at hblocks
  rw [← map_addressIn_range place]
  exact (h.numbers.map _).nodup_iff.mp hblocks

theorem live_iff (h : Placed place b) (n : ℕ) : b.pool.Live n ↔ n ∈ b.numbers := by
  unfold Pool.Live
  rw [h.next, ← List.mem_range, ← h.numbers.mem_iff, List.mem_append]
  have hdisjoint := List.disjoint_of_nodup_append h.nodup_numbers
  constructor
  · rintro ⟨hn | hn, hfree⟩
    · exact hn
    · exact absurd hn hfree
  · exact fun hn => ⟨.inl hn, fun hfree => hdisjoint hn hfree⟩

theorem free_nil (h : Placed place b) (hcur : b.run.p.cur = 0) : b.pool.free = [] := by
  have hfree := h.free
  cases hlist : b.pool.free with
  | nil => rfl
  | cons n rest =>
      rw [hlist, List.map_cons, chain_cons] at hfree
      have hn : n ∈ b.numbers ++ b.pool.free := by simp [hlist]
      exact absurd (hfree.1.symm.trans hcur) (h.ne_zero hn)

/-! ### One call -/

/-- A call that hands nothing out, and leaves the free list alone. -/
theorem unchanged (h : Placed place b) {run : PoolRun} (hlaid : run.Laid)
    (hsize : run.p.chunkSize = b.run.p.chunkSize) (hcreated : run.created = b.run.created)
    (hhanded : run.handed = b.run.handed)
    (hfree : Chain run.w.mem run.p.cur (b.pool.free.map (addressIn place)) 0) :
    Placed place { b with run := run } where
  laid := hlaid
  size := hsize.trans h.size
  next := h.next
  slots := by
    rw [show PoolPair.run { b with run := run } = run from rfl, hcreated]
    exact h.slots
  numbers := h.numbers
  handed := hhanded.trans h.handed
  free := hfree

/-- The first block of the free list. -/
theorem taken (h : Placed place b) (hcur : b.run.p.cur ≠ 0) {run : PoolRun} (hlaid : run.Laid)
    (hsize : run.p.chunkSize = b.run.p.chunkSize) (hcreated : run.created = b.run.created)
    (hhanded : run.handed = b.run.p.cur :: b.run.handed) (hmem : run.w.mem = b.run.w.mem)
    (hnext : run.p.cur = b.run.w.mem b.run.p.cur) :
    Placed place ⟨run, b.pool.alloc.2, b.pool.alloc.1 :: b.numbers⟩ := by
  have hfree := h.free
  have hnumbers := h.numbers
  unfold Pool.alloc
  cases hlist : b.pool.free with
  | nil =>
      rw [hlist] at hfree
      exact absurd hfree hcur
  | cons n rest =>
      rw [hlist, List.map_cons, chain_cons] at hfree
      rw [hlist] at hnumbers
      refine ⟨hlaid, hsize.trans h.size, h.next, ?_, List.perm_middle.symm.trans hnumbers, ?_, ?_⟩
      · rw [hcreated]
        exact h.slots
      · rw [hhanded, h.handed, hfree.1, List.map_cons]
      · rw [hmem, hnext, hfree.1]
        exact hfree.2

/-- The addresses of the numbers behind the last one. -/
theorem addressIn_new (a width : ℕ) {k i : ℕ} (hi : i < k) :
    addressIn (place ++ List.range' a k width) (place.length + i) = a + width * i := by
  unfold addressIn
  rw [List.getD_append_right _ _ _ _ (Nat.le_add_right _ _), Nat.add_sub_cancel_left,
    List.getD_eq_getElem _ _ (by rw [List.length_range']; exact hi), List.getElem_range']

/-- The first block of a new chunk. -/
theorem grew (h : Placed place b) {vec : Vec} {w : World} {a : ℕ} (hcur : b.run.p.cur = 0)
    (hlaid : (b.run.grow vec w a).Laid)
    (hchain : Chain w.mem a (List.range' a b.run.p.chunkSize.toNat b.run.p.width.toNat) 0) :
    Placed (place ++ List.range' a CHUNK_SIZE b.run.p.width.toNat)
      ⟨b.run.grow vec w a, b.pool.alloc.2, b.pool.alloc.1 :: b.numbers⟩ := by
  have hnil := h.free_nil hcur
  have hnumbers := h.numbers
  rw [hnil, List.append_nil] at hnumbers
  have hcount : b.run.p.chunkSize.toNat = CHUNK_SIZE := by rw [h.size]; rfl
  rw [hcount] at hchain
  have hsplit : (List.range CHUNK_SIZE).map (place.length + ·) =
      place.length :: (List.range (CHUNK_SIZE - 1)).map (place.length + 1 + ·) := by
    rw [show CHUNK_SIZE = (CHUNK_SIZE - 1) + 1 from rfl, List.range_succ_eq_map, List.map_cons,
      List.map_map]
    simp [Function.comp_def, Nat.add_assoc, Nat.add_comm 1]
  unfold Pool.alloc
  rw [hnil, h.next]
  refine ⟨hlaid, h.size, ?_, ?_, ?_, ?_, ?_⟩
  · rw [List.length_append, List.length_range']
  · refine List.forall_mem_append.mpr ⟨fun x hx => ?_, fun x hx => ?_⟩
    · obtain ⟨c, hc, hslot⟩ := h.slots x hx
      exact ⟨c, List.mem_append_left _ hc, hslot⟩
    · refine ⟨_, List.mem_append_right _ (List.mem_singleton_self _), ?_⟩
      rw [Chunk.slots, hcount]
      exact hx
  · show (place.length :: b.numbers ++ _).Perm _
    rw [List.length_append, List.length_range', List.range_add, hsplit]
    exact List.perm_middle.symm.trans (hnumbers.append_right _)
  · show a :: b.run.handed = _
    have hold : b.numbers.map (addressIn (place ++ List.range' a CHUNK_SIZE b.run.p.width.toNat)) =
        b.numbers.map (addressIn place) := by
      refine List.map_congr_left fun n hn => addressIn_grown (List.prefix_append _ _) ?_
      exact h.lt (List.mem_append_left _ hn)
    have hfirst : addressIn (place ++ List.range' a CHUNK_SIZE b.run.p.width.toNat) (place.length + 0) = _ :=
      addressIn_new a b.run.p.width.toNat (show 0 < CHUNK_SIZE by decide)
    rw [List.map_cons, hold, h.handed]
    simpa using hfirst.symm
  · show Chain w.mem (w.mem a) _ 0
    have hrest : ((List.range (CHUNK_SIZE - 1)).map (place.length + 1 + ·)).map
        (addressIn (place ++ List.range' a CHUNK_SIZE b.run.p.width.toNat)) =
        List.range' (a + b.run.p.width.toNat) (CHUNK_SIZE - 1) b.run.p.width.toNat := by
      refine List.ext_getElem (by simp) fun i hi _ => ?_
      have hi : i < CHUNK_SIZE - 1 := by simpa using hi
      rw [List.getElem_range', List.getElem_map, List.getElem_map, List.getElem_range, Nat.add_assoc,
        addressIn_new a _ (by omega)]
      ring
    rw [hrest]
    exact hchain.2

/-- A block, and its number, are given back. -/
theorem freed (h : Placed place b) {x : ℕ} (hx : x ∈ b.run.handed) {run : PoolRun} (hlaid : run.Laid)
    (hsize : run.p.chunkSize = b.run.p.chunkSize) (hcreated : run.created = b.run.created)
    (hhanded : run.handed = b.run.handed.erase x)
    (hmem : run.w.mem = Function.update b.run.w.mem x b.run.p.cur) (hcur : run.p.cur = x) :
    Placed place ⟨run, b.pool.release (b.numbers.getD (b.run.handed.idxOf x) 0),
      b.numbers.erase (b.numbers.getD (b.run.handed.idxOf x) 0)⟩ := by
  obtain ⟨n, hget, hblock⟩ : ∃ n, b.numbers[b.run.handed.idxOf x]? = some n ∧ addressIn place n = x := by
    have hget := List.getElem?_idxOf hx
    generalize b.run.handed.idxOf x = i at hget ⊢
    rw [h.handed, List.getElem?_map] at hget
    exact Option.map_eq_some_iff.mp hget
  have hn : n ∈ b.numbers := List.mem_of_getElem? hget
  have hnumber : b.numbers.getD (b.run.handed.idxOf x) 0 = n := by
    rw [List.getD_eq_getElem?_getD, hget, Option.getD_some]
  have hidx : b.numbers.idxOf n = b.run.handed.idxOf x := by
    obtain ⟨hi, rfl⟩ := List.getElem?_eq_some_iff.mp hget
    exact (List.nodup_append.mp h.nodup_numbers).1.idxOf_getElem _ hi
  have herase : b.run.handed.erase x = (b.numbers.erase n).map (addressIn place) := by
    rw [← List.eraseIdx_idxOf_eq_erase, ← List.eraseIdx_idxOf_eq_erase, hidx, ← List.eraseIdx_map,
      ← h.handed]
  have hblocks : x ∉ b.pool.free.map (addressIn place) :=
    List.disjoint_of_nodup_append h.nodup_blocks hx
  rw [hnumber]
  refine ⟨hlaid, hsize.trans h.size, h.next, ?_, ?_, hhanded.trans herase, ?_⟩
  · rw [hcreated]
    exact h.slots
  · calc (b.numbers.erase n ++ n :: b.pool.free).Perm (n :: b.numbers.erase n ++ b.pool.free) :=
          List.perm_middle
      _ |>.Perm (b.numbers ++ b.pool.free) := (List.perm_cons_erase hn).symm.append_right _
      _ |>.Perm (List.range place.length) := h.numbers
  · show Chain run.w.mem run.p.cur ((n :: b.pool.free).map (addressIn place)) 0
    rw [hmem, hcur, List.map_cons, hblock]
    refine ⟨rfl, ?_⟩
    rw [Function.update_self]
    exact h.free.update hblocks _

/-- **One call.**  The addresses stay, and a new chunk has those of more numbers. -/
theorem placed_call (h : Placed place b) {op : PoolOp} (hcall : op.both b = .ok b') :
    ∃ place', place <+: place' ∧ Placed place' b' := by
  unfold PoolOp.both at hcall
  cases hop : op.apply b.run with
  | error e =>
      rw [hop] at hcall
      cases hcall
  | ok run =>
      have hlaid := PoolRun.laid_call h.laid hop
      obtain ⟨-, hsize⟩ := h.laid.constants hop
      rw [hop] at hcall
      dsimp only [bind, Except.bind] at hcall
      cases op with
      | alloc grown answer =>
          have hends := h.laid.alloc_ends grown answer
          rw [show b.run.alloc grown answer = .ok run from hop] at hends
          dsimp only at hcall
          cases hends with
          | taken hcur =>
              rw [if_neg (List.cons_ne_self _ _)] at hcall
              cases hcall
              exact ⟨place, List.prefix_rfl, h.taken hcur hlaid rfl rfl rfl rfl rfl⟩
          | noVector hcur hfull hgrown =>
              rw [if_pos rfl] at hcall
              cases hcall
              exact ⟨place, List.prefix_rfl, h.unchanged hlaid rfl rfl rfl h.free⟩
          | noChunk hcur hgrown hanswer hpushed hmem hregions =>
              rw [if_pos rfl] at hcall
              cases hcall
              refine ⟨place, List.prefix_rfl, h.unchanged hlaid rfl rfl rfl ?_⟩
              rw [h.free_nil hcur]
              exact hcur
          | @grew vec w₁ w a hcur hgrown hanswer hfits hpushed hnew =>
              have hne : (b.run.grow vec w a).handed ≠ b.run.handed := List.cons_ne_self _ _
              rw [if_neg hne] at hcall
              cases hcall
              exact ⟨_, List.prefix_append _ _, h.grew hcur hlaid hnew.chain⟩
      | free x =>
          by_cases hx : x ∈ b.run.handed
          · rw [show PoolOp.apply (.free x) b.run = _ from h.laid.free_eq hx] at hop
            cases hop
            cases hcall
            exact ⟨place, List.prefix_rfl, h.freed hx hlaid rfl rfl rfl rfl rfl⟩
          · change b.run.free x = _ at hop
            unfold PoolRun.free at hop
            rw [if_neg hx] at hop
            cases hop
      | write a v =>
          obtain ⟨ha, rfl⟩ := PoolRun.Laid.write_ok (show b.run.write a v = .ok run from hop)
          cases hcall
          refine ⟨place, List.prefix_rfl, h.unchanged hlaid rfl rfl rfl (h.free.update ?_ v)⟩
          refine h.laid.inSlot_ne ha h.nodup_blocks fun x hx => ?_
          rw [h.handed, ← List.map_append] at hx
          obtain ⟨n, hn, rfl⟩ := List.mem_map.mp hx
          exact h.slot hn

end Placed

/-! ### The start -/

theorem Pool.Ok.free_perm {q : Pool} (hq : q.Ok) (hnone : ∀ n, ¬ q.Live n) :
    q.free.Perm (List.range q.next) := by
  rw [List.perm_ext_iff_of_nodup hq.nodup List.nodup_range]
  intro n
  rw [List.mem_range]
  constructor
  · exact hq.lt n
  · intro hn
    by_contra hfree
    exact hnone n ⟨hn, hfree⟩

/-- The numbers that are free get the addresses on the free list, in the order of the two lists. -/
theorem placed_start {s : PoolRun} {q : Pool} {free : List ℕ} (hlaid : s.Laid) (hhanded : s.handed = [])
    (hsize : s.p.chunkSize = CHUNK_SIZE) (hchain : Chain s.w.mem s.p.cur free 0) (h0 : 0 ∉ free) (hq : q.Ok)
    (hnone : ∀ n, ¬ q.Live n) (hlen : q.free.length = free.length) : ∃ place, Placed place ⟨s, q, []⟩ := by
  have hperm := hq.free_perm hnone
  obtain ⟨free', hchain', hnodup, hslots⟩ := hlaid.blocks
  have h0' : 0 ∉ free' := hlaid.zero_notMem fun x hx => hslots x (List.mem_append_right _ hx)
  obtain rfl := hchain.unique hchain' h0 h0'
  let place := (List.range q.next).map fun n => free.getD (q.free.idxOf n) 0
  have hlength : place.length = q.next := by simp [place]
  have haddress : ∀ n < q.next, addressIn place n = free.getD (q.free.idxOf n) 0 := by
    intro n hn
    simp [place, addressIn, hn]
  have hmap : q.free.map (addressIn place) = free := by
    refine List.ext_getElem (by rw [List.length_map, hlen]) fun i hi hi' => ?_
    have hi : i < q.free.length := by rwa [List.length_map] at hi
    rw [List.getElem_map, haddress _ (hq.lt _ (List.getElem_mem hi)), hq.nodup.idxOf_getElem _ hi,
      List.getD_eq_getElem _ _ hi']
  refine ⟨place, hlaid, hsize, hlength.symm, fun a ha => ?_, ?_, hhanded, ?_⟩
  · obtain ⟨n, hn, rfl⟩ := List.mem_map.mp ha
    have hidx := List.idxOf_lt_length_of_mem (hperm.mem_iff.mpr hn)
    rw [hlen] at hidx
    rw [List.getD_eq_getElem _ _ hidx]
    exact hslots _ (List.mem_append_right _ (List.getElem_mem hidx))
  · rw [hlength]
    exact hperm
  · show Chain s.w.mem s.p.cur (q.free.map (addressIn place)) 0
    rw [hmap]
    exact hchain

/-! ### Runs -/

/-- The pool in memory is the worker's: each number has one address, no two the same; the blocks handed out
are the addresses of the numbers handed out, in the same order, and the free list is that of the free
numbers; a number is handed out exactly when the worker's pool says so. -/
structure PoolPair.Numbered (address : ℕ → ℕ) (b : PoolPair) : Prop where
  one : Set.InjOn address (Set.Iio b.pool.next)
  handed : b.run.handed = b.numbers.map address
  free : Chain b.run.w.mem b.run.p.cur (b.pool.free.map address) 0
  live : ∀ n, b.pool.Live n ↔ n ∈ b.numbers

/-- The addresses that have come later are those of other numbers. -/
theorem Placed.numbered {now place : List ℕ} {b : PoolPair} (h : Placed now b) (hgrown : now <+: place) :
    b.Numbered (addressIn place) := by
  have hsame : ∀ l : List ℕ, (∀ n ∈ l, n ∈ b.numbers ++ b.pool.free) →
      l.map (addressIn place) = l.map (addressIn now) := fun l hl =>
    List.map_congr_left fun n hn => addressIn_grown hgrown (h.lt (hl n hn))
  refine ⟨?_, ?_, ?_, h.live_iff⟩
  · intro n hn m hm heq
    have hn : n < now.length := h.next ▸ hn
    have hm : m < now.length := h.next ▸ hm
    rw [addressIn_grown hgrown hn, addressIn_grown hgrown hm] at heq
    unfold addressIn at heq
    rw [List.getD_eq_getElem _ _ hn, List.getD_eq_getElem _ _ hm] at heq
    exact (h.nodup.getElem_inj_iff).mp heq
  · rw [hsame _ fun n hn => List.mem_append_left _ hn]
    exact h.handed
  · rw [hsame _ fun n hn => List.mem_append_right _ hn]
    exact h.free

theorem PoolOp.both_error {op : PoolOp} {b : PoolPair} {e : Halt} :
    op.both b = .error e ↔ op.apply b.run = .error e := by
  unfold both
  cases hop : op.apply b.run with
  | error e' =>
      constructor
      all_goals
        intro h
        cases h
        rfl
  | ok run =>
      refine iff_of_false (fun h => ?_) (fun h => by cases h)
      cases op with
      | alloc grown answer =>
          dsimp only [bind, Except.bind] at h
          split_ifs at h
          all_goals cases h
      | free x => cases h
      | write a v => cases h

/-- A call on the pool in memory leaves the worker's with it. -/
theorem PoolOp.both_run {op : PoolOp} {b b' : PoolPair} (h : op.both b = .ok b') :
    op.apply b.run = .ok b'.run := by
  unfold both at h
  cases hop : op.apply b.run with
  | error e =>
      rw [hop] at h
      cases h
  | ok run =>
      rw [hop] at h
      cases op with
      | alloc grown answer =>
          dsimp only [bind, Except.bind] at h
          split_ifs at h
          all_goals cases h; rfl
      | free x =>
          cases h
          rfl
      | write a v =>
          cases h
          rfl

section runs

variable {w w' w₁ : World} {p : MemPool} {width chunkSize nchunks : ℤ} {answer : Option ℕ}
  {answers : List (Option ℕ)} {data b : ℕ} {bases : List ℕ}

/-- The holder of the first block writes a word that ends one byte behind its slot. -/
theorem PoolOpened.first_write (h : PoolOpened width chunkSize nchunks p w' data b bases w₁)
    (hwidth : WORD < width) (hwidth' : width < 2 ^ 31) (hchunk : 1 ≤ chunkSize) (hn : 1 ≤ nchunks) (q : Pool) :
    ∃ x, PoolOp.both (.alloc none none) ⟨.start p w' ((b :: bases).map some), q, []⟩ = .ok x ∧
      PoolOp.both (.write (b + 1) 0) x = .error .undefined := by
  have hlaid := h.laid hwidth' hchunk hn
  have hends := hlaid.alloc_ends none none
  have hb : b ≠ 0 := w'.notNull _ (h.made.there b List.mem_cons_self)
  have hcur : p.cur = b := by rw [h.pool]
  have hpool : p.width = width := by
    rw [h.pool]
    exact max_eq_left hwidth.le
  have hcreated := h.created
  generalize hs : (PoolRun.start p w' ((b :: bases).map some)).alloc none none = out at hends
  cases hends with
  | taken =>
      have hboth : ∃ x, PoolOp.both (.alloc none none) ⟨.start p w' ((b :: bases).map some), q, []⟩ = .ok x ∧
          x.run.handed = [b] ∧ x.run.p.width = p.width ∧
          x.run.created = (PoolRun.start p w' ((b :: bases).map some)).created := by
        unfold PoolOp.both
        rw [show PoolOp.apply (.alloc none none) (.start p w' ((b :: bases).map some)) = _ from hs]
        dsimp only [bind, Except.bind]
        rw [if_neg (List.cons_ne_self _ _)]
        exact ⟨_, rfl, congrArg (fun a => [a]) hcur, rfl, rfl⟩
      obtain ⟨x, hx, hhanded, hw, hc⟩ := hboth
      refine ⟨x, hx, PoolOp.both_error.mpr ?_⟩
      have howned : x.run.Owned (b + 1) := by
        refine ⟨b, hhanded ▸ List.mem_cons_self, Nat.le_succ b, ?_⟩
        rw [hw, hpool]
        unfold WORD at hwidth
        omega
      have hslot : ¬ x.run.InSlot (b + 1) := by
        rintro ⟨c, hmem, y, hy, -, -, hhigh⟩
        rw [hc, hcreated] at hmem
        rw [hhanded, List.mem_singleton] at hy
        obtain ⟨a, -, rfl⟩ := List.mem_map.mp hmem
        unfold WORD at hhigh
        dsimp only at hhigh
        omega
      show x.run.write (b + 1) 0 = _
      unfold PoolRun.write
      rw [if_pos howned, if_neg hslot]
  | unanswered hzero => exact absurd (hcur.symm.trans hzero) hb
  | noVector hzero => exact absurd (hcur.symm.trans hzero) hb
  | noChunk hzero => exact absurd (hcur.symm.trans hzero) hb
  | wrapped hzero => exact absurd (hcur.symm.trans hzero) hb
  | grew hzero => exact absurd (hcur.symm.trans hzero) hb

/-- **The worker's pool is the pool in memory.**  Behind a `sy_pool_init` with the chunks of the worker's
pools, next to a pool of the worker of which nothing is handed out and as much is free: over every run of
calls, whatever the width of an object, the two are one up to a map from numbers to addresses in every
state up to the first undefined call; and no run has one exactly when the objects are no wider than the
slots of the first chunks. -/
theorem pool_numbered {q : Pool} (hwidth : width < 2 ^ 31) (hn : 1 ≤ nchunks) (hlen : answers.length = nchunks)
    (hinit : poolInit w width CHUNK_SIZE nchunks answer answers = .ok (.ok, p, w')) (hq : q.Ok)
    (hnone : ∀ n, ¬ q.Live n) (hfree : q.free.length = CHUNK_SIZE) :
    (∀ ops, ∃ address : ℕ → ℕ, ∀ b ∈ states PoolOp.both ⟨.start p w' answers, q, []⟩ ops,
      b.Numbered address) ∧
    ((∀ ops, ∀ b ∈ states PoolOp.both ⟨.start p w' answers, q, []⟩ ops,
      ∀ op : PoolOp, op.both b ≠ .error .undefined) ↔ width ≤ WORD) := by
  have hchunk : (1 : ℤ) ≤ CHUNK_SIZE := by decide
  obtain ⟨data, b, bases, w₁, rfl, hopened⟩ := poolInit_ok hchunk hn hlen hinit
  have hlaid := hopened.laid hwidth hchunk hn
  have hsize : p.chunkSize = CHUNK_SIZE := by rw [hopened.pool]
  refine ⟨fun ops => ?_, ?_⟩
  · have hslots : ∀ x ∈ List.range' b (CHUNK_SIZE : ℤ).toNat WORD, x ≠ 0 := by
      intro x hx
      have hb : b ≠ 0 := w'.notNull _ (hopened.made.there b List.mem_cons_self)
      have hlow := (slot_bounds hx).1
      omega
    have hcount : q.free.length = (List.range' b (CHUNK_SIZE : ℤ).toNat WORD).length := by
      rw [hfree, List.length_range', Int.toNat_natCast]
    obtain ⟨start, hstart⟩ := placed_start (s := .start p w' ((b :: bases).map some)) hlaid rfl hsize
      hopened.chain (fun h0 => hslots 0 h0 rfl) hq hnone hcount
    obtain ⟨place, -, hall⟩ := states_growing (· <+: ·) Placed (fun _ => List.prefix_rfl)
      (fun _ _ _ => List.IsPrefix.trans) (fun op b b' place hb hcall => hb.placed_call hcall) hstart ops
    refine ⟨addressIn place, fun x hx => ?_⟩
    obtain ⟨now, hgrown, hplaced⟩ := hall x hx
    exact hplaced.numbered hgrown
  · constructor
    · intro hall
      by_contra hwide
      obtain ⟨x, hx, hbad⟩ := hopened.first_write (not_le.mp hwide) hwidth hchunk hn q
      refine hall [.alloc none none] x ?_ _ hbad
      rw [states_ok hx]
      exact List.mem_cons_of_mem _ (mem_states x [])
    · intro hnarrow ops x hx op hbad
      have hinv := states_invariant
        (fun x : PoolPair => x.run.Laid ∧ x.run.p.width = WORD ∧ x.run.p.chunkSize = CHUNK_SIZE) ?_ ?_ ops x hx
      · obtain ⟨hlaid, hw, hc⟩ := hinv
        refine hlaid.defined hw ?_ op (PoolOp.both_error.mp hbad)
        rw [hw, hc]
        decide
      · rintro op x x' ⟨hlaid, hw, hc⟩ hcall
        have hrun := PoolOp.both_run hcall
        obtain ⟨hw', hc'⟩ := hlaid.constants hrun
        exact ⟨PoolRun.laid_call hlaid hrun, hw'.trans hw, hc'.trans hc⟩
      · refine ⟨hlaid, ?_, hsize⟩
        show p.width = _
        rw [hopened.pool]
        exact max_eq_right hnarrow

end runs

/-- Two blocks are handed out, the first one is given back, and the second one's holder writes to it. -/
def reusedRun : List PoolOp := [.alloc none none, .alloc none none, .free 8192, .write 8200 5]

/-- A pool for objects of 8 bytes with one chunk, and the worker's with its numbers free. -/
theorem pool_numbered_reused :
    ∃ p w', poolInit .empty 8 CHUNK_SIZE 1 (some 4096) [some 8192] = .ok (.ok, p, w') ∧
      (states PoolOp.both ⟨.start p w' [some 8192], ⟨List.range 8, 8⟩, []⟩ reusedRun).map (·.numbers) =
        [[], [0], [1, 0], [1], [1]] ∧
      (∀ ops, ∃ address : ℕ → ℕ,
        ∀ b ∈ states PoolOp.both ⟨.start p w' [some 8192], ⟨List.range 8, 8⟩, []⟩ ops, b.Numbered address) ∧
      ∀ ops, ∀ b ∈ states PoolOp.both ⟨.start p w' [some 8192], ⟨List.range 8, 8⟩, []⟩ ops,
        ∀ op : PoolOp, op.both b ≠ .error .undefined := by
  have hq : (⟨List.range 8, 8⟩ : Pool).Ok := ⟨List.nodup_range, fun a ha => List.mem_range.mp ha⟩
  have hnone : ∀ n, ¬ (⟨List.range 8, 8⟩ : Pool).Live n := fun n hn => hn.2 (List.mem_range.mpr hn.1)
  have h1 : (1 : ℤ) ≤ 1 := le_rfl
  obtain ⟨p, w', hinit, hrun⟩ : ∃ p w',
      poolInit .empty 8 CHUNK_SIZE 1 (some 4096) [some 8192] = .ok (.ok, p, w') ∧
      (states PoolOp.both ⟨.start p w' [some 8192], ⟨List.range 8, 8⟩, []⟩ reusedRun).map (·.numbers) =
        [[], [0], [1, 0], [1], [1]] := ⟨_, _, rfl, by decide +kernel⟩
  obtain ⟨hnumbered, hdefined⟩ := pool_numbered (by decide) h1 rfl hinit hq hnone rfl
  exact ⟨p, w', hinit, hrun, hnumbered, hdefined.mpr (by decide)⟩

end SyServer
