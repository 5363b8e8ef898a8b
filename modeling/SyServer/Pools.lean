import SyServer.Lib.Calls
import SyServer.Vectors

/-! # The blocks of a pool

`PoolRun` is a pool between two calls, with the chunks that were created and the blocks that are handed
out; their holders write to them, over the whole width of an object.  What a write does that leaves the
slot of its block is not followed.

* `PoolRun.Laid`: the free list links slots of the chunks, and none of them is handed out; kept by every
  call (`laid_call`).
* `pool_disjoint_iff`: no two blocks overlap exactly when the pool is used for objects of at most
  `sizeof(sy_chunk_slot_t)` bytes, since `sy_pool_init` cuts the first chunks into slots of that width. -/

namespace SyServer

open Calls Cells

/-- A chunk: its address, and the width and the number of its slots. -/
structure Chunk where
  base : ℕ
  stride : ℕ
  count : ℕ

def Chunk.slots (c : Chunk) : List ℕ := List.range' c.base c.count c.stride

/-- The object that `malloc` has returned for it. -/
def Chunk.region (c : Chunk) : ℕ × ℕ := (c.base, c.stride * c.count)

/-- A pool between two calls: the chunks created so far, and the blocks handed out. -/
structure PoolRun where
  w : World
  p : MemPool
  created : List Chunk
  handed : List ℕ

inductive PoolOp where
  /-- `sy_pool_alloc`, with the answers of `realloc` and `malloc`. -/
  | alloc (grown answer : Option ℕ)
  /-- `sy_pool_free` for a block that is handed out. -/
  | free (x : ℕ)
  /-- The holder of a block writes a word of its object. -/
  | write (a v : ℕ)

namespace PoolRun

/-- The state behind a successful `sy_pool_init`. -/
def start (p : MemPool) (w : World) (answers : List (Option ℕ)) : PoolRun :=
  ⟨w, p, (answers.filterMap id).map fun a => ⟨a, WORD, p.chunkSize.toNat⟩, []⟩

/-- The word at `a` is one of an object that is handed out. -/
def Owned (s : PoolRun) (a : ℕ) : Prop := ∃ x ∈ s.handed, x ≤ a ∧ a + 8 ≤ x + s.p.width.toNat

instance (s : PoolRun) (a : ℕ) : Decidable (s.Owned a) := inferInstanceAs (Decidable (∃ x ∈ s.handed, _))

/-- The word at `a` is one of a slot that is handed out. -/
def InSlot (s : PoolRun) (a : ℕ) : Prop :=
  ∃ c ∈ s.created, ∃ x ∈ s.handed, x ∈ c.slots ∧ x ≤ a ∧ a + 8 ≤ x + c.stride

instance (s : PoolRun) (a : ℕ) : Decidable (s.InSlot a) :=
  inferInstanceAs (Decidable (∃ c ∈ s.created, ∃ x ∈ s.handed, _))

/-- A chunk is created when `sy_pool_alloc` finds the free list empty and returns a block. -/
def alloc (s : PoolRun) (grown answer : Option ℕ) : Except Halt PoolRun := do
  let (x, p, w) ← poolAlloc s.w s.p grown answer
  let new : List Chunk := if s.p.cur = 0 ∧ x ≠ 0 then [⟨x, p.width.toNat, p.chunkSize.toNat⟩] else []
  pure ⟨w, p, s.created ++ new, if x = 0 then s.handed else x :: s.handed⟩

def free (s : PoolRun) (x : ℕ) : Except Halt PoolRun :=
  if x ∈ s.handed then
    let (mem, p) := poolFree s.w.mem s.p x
    .ok ⟨{ s.w with mem := mem }, p, s.created, s.handed.erase x⟩
  else .error .impossible

/-- A write that leaves the slots that are handed out runs over the link of a free slot, over another
block or out of the chunk. -/
def write (s : PoolRun) (a v : ℕ) : Except Halt PoolRun :=
  if s.Owned a then
    if s.InSlot a then .ok { s with w := { s.w with mem := Function.update s.w.mem a v } }
    else .error .undefined
  else .error .impossible

end PoolRun

def PoolOp.apply : PoolOp → PoolRun → Except Halt PoolRun
  | alloc grown answer, s => s.alloc grown answer
  | free x, s => s.free x
  | write a v, s => s.write a v

/-! ### The free list -/

/-- The chunks lie in their objects, next to the vector's, and the free list links slots that are not
handed out. -/
structure PoolRun.Laid (s : PoolRun) : Prop where
  width : WORD ≤ s.p.width
  narrow : s.p.width < 2 ^ 31
  chunkSize : 1 ≤ s.p.chunkSize
  vec : s.p.chunks.Fits s.w
  stride : ∀ c ∈ s.created, c.stride = WORD ∨ c.stride = s.p.width.toNat
  there : ∀ c ∈ s.created, c.region ∈ s.w.regions ∧ c.base ≠ s.p.chunks.data
  bases : (s.created.map Chunk.base).Nodup
  blocks : ∃ free, Chain s.w.mem s.p.cur free 0 ∧ (s.handed ++ free).Nodup ∧
    ∀ x ∈ s.handed ++ free, ∃ c ∈ s.created, x ∈ c.slots

namespace PoolRun.Laid

variable {s : PoolRun}

theorem stride_pos (h : s.Laid) {c : Chunk} (hc : c ∈ s.created) : 8 ≤ c.stride := by
  have hw : 8 ≤ s.p.width.toNat := by
    have hwidth := h.width
    unfold WORD at hwidth
    omega
  rcases h.stride c hc with heq | heq
  all_goals rw [heq]
  · exact le_rfl
  · exact hw

theorem base_pos (h : s.Laid) {c : Chunk} (hc : c ∈ s.created) : c.base ≠ 0 :=
  s.w.notNull _ (h.there c hc).1

theorem slot_ne_zero (h : s.Laid) {c : Chunk} (hc : c ∈ s.created) {x : ℕ} (hx : x ∈ c.slots) : x ≠ 0 := by
  have hb := h.base_pos hc
  have hlow := (slot_bounds hx).1
  omega

/-- Two slots are one, or one ends before the other begins. -/
theorem slots_apart (h : s.Laid) {c c' : Chunk} (hc : c ∈ s.created) (hc' : c' ∈ s.created) {x y : ℕ}
    (hx : x ∈ c.slots) (hy : y ∈ c'.slots) (hne : x ≠ y) : NoOverlap (x, c.stride) (y, c'.stride) := by
  have hxb := slot_bounds hx
  have hyb := slot_bounds hy
  by_cases heq : c.base = c'.base
  · obtain rfl : c = c' := List.inj_on_of_nodup_map h.bases hc hc' heq
    obtain ⟨i, -, rfl⟩ := List.mem_range'.mp hx
    obtain ⟨j, -, rfl⟩ := List.mem_range'.mp hy
    rcases lt_trichotomy i j with hlt | rfl | hlt
    · have hmul := Nat.mul_le_mul_left c.stride (show i + 1 ≤ j from hlt)
      rw [Nat.mul_succ] at hmul
      exact .inl (by dsimp only; omega)
    · exact absurd rfl hne
    · have hmul := Nat.mul_le_mul_left c.stride (show j + 1 ≤ i from hlt)
      rw [Nat.mul_succ] at hmul
      exact .inr (by dsimp only; omega)
  · rcases (World.distinct_of_mem (h.there c hc).1 (h.there c' hc').1 heq).2 with hapart | hapart
    · left
      simp only [Chunk.region] at hapart
      dsimp only
      omega
    · right
      simp only [Chunk.region] at hapart
      dsimp only
      omega

/-- The free list does not go through 0. -/
theorem zero_notMem (h : s.Laid) {l : List ℕ} (hl : ∀ x ∈ l, ∃ c ∈ s.created, x ∈ c.slots) : 0 ∉ l := by
  intro h0
  obtain ⟨c, hc, hx⟩ := hl 0 h0
  exact h.slot_ne_zero hc hx rfl

/-- A word of a slot that is handed out is the link of none on the free list. -/
theorem inSlot_ne (h : s.Laid) {a : ℕ} (ha : s.InSlot a) {free : List ℕ} (hnodup : (s.handed ++ free).Nodup)
    (hslots : ∀ x ∈ s.handed ++ free, ∃ c ∈ s.created, x ∈ c.slots) : a ∉ free := by
  intro hfree
  obtain ⟨c, hc, x, hx, hxc, hlow, hhigh⟩ := ha
  obtain ⟨c', hc', hac'⟩ := hslots a (List.mem_append_right _ hfree)
  have hne : x ≠ a := fun e => List.disjoint_of_nodup_append hnodup hx (e ▸ hfree)
  have hpos := h.stride_pos hc'
  rcases h.slots_apart hc hc' hxc hac' hne with hapart | hapart
  all_goals dsimp only at hapart; omega

/-- Where the slots are as wide as the objects, no write leaves its slot. -/
theorem owned_inSlot (h : s.Laid) (hwidth : s.p.width = WORD) {a : ℕ} (ha : s.Owned a) : s.InSlot a := by
  obtain ⟨x, hx, hlow, hhigh⟩ := ha
  obtain ⟨free, -, -, hslots⟩ := h.blocks
  obtain ⟨c, hc, hxc⟩ := hslots x (List.mem_append_left _ hx)
  have hpos := h.stride_pos hc
  rw [hwidth] at hhigh
  exact ⟨c, hc, x, hx, hxc, hlow, hhigh.trans (Nat.add_le_add_left hpos x)⟩

/-- What a write leaves, if it is followed. -/
theorem write_ok {a v : ℕ} {s' : PoolRun} (hs : s.write a v = .ok s') :
    s.InSlot a ∧ s' = { s with w := { s.w with mem := Function.update s.w.mem a v } } := by
  unfold PoolRun.write at hs
  split_ifs at hs with hown hin
  cases hs
  exact ⟨hin, rfl⟩

/-- Another heap, in which the chunks are as before and the vector has another place for its object. -/
theorem moved (h : s.Laid) {w' : World} {vec' : Vec} (hkept : s.w.Kept w' s.p.chunks.data)
    (hfits : vec'.Fits w') (hfresh : ∀ c ∈ s.created, c.base ≠ vec'.data) :
    Laid { s with w := w', p := { s.p with chunks := vec' } } := by
  obtain ⟨free, hchain, hnodup, hslots⟩ := h.blocks
  refine ⟨h.width, h.narrow, h.chunkSize, hfits, h.stride, fun c hc => ?_, h.bases,
    free, hchain.congr fun x hx => ?_, hnodup, hslots⟩
  · exact ⟨(hkept _ (h.there c hc).1 (h.there c hc).2).1, hfresh c hc⟩
  · obtain ⟨c, hc, hxc⟩ := hslots x (List.mem_append_right _ hx)
    obtain ⟨hlow, hhigh⟩ := slot_bounds hxc
    have hpos := h.stride_pos hc
    exact (hkept _ (h.there c hc).1 (h.there c hc).2).2 x hlow (by simp only [Chunk.region]; omega)

end PoolRun.Laid

/-! ### The calls -/

theorem Vec.Fits.mono {w w' : World} {vec : Vec} (h : vec.Fits w) (hr : ∀ r ∈ w.regions, r ∈ w'.regions) :
    vec.Fits w' :=
  ⟨h.width, h.size, h.le, h.small, h.full, fun hd => hr _ (h.object hd)⟩

theorem Vec.Pushed.kept_after {w w₁ w' : World} {vec vec' : Vec} (h : vec.Pushed w w₁ vec')
    (h' : w₁.Kept w' vec'.data) : w.Kept w' vec.data := by
  intro r hr hne
  obtain ⟨hr₁, hmem⟩ := h.kept r hr hne
  obtain ⟨hr', hmem'⟩ := h' r hr₁ (h.fresh r hr hne)
  exact ⟨hr', fun x hlow hhigh => (hmem' x hlow hhigh).trans (hmem x hlow hhigh)⟩

namespace PoolRun

variable {s : PoolRun} {grown answer : Option ℕ}

/-- The new chunk at `a`, and its first slot handed out. -/
def grow (s : PoolRun) (vec : Vec) (w : World) (a : ℕ) : PoolRun :=
  ⟨w, { s.p with chunks := vec, nallocated := wrap32 (s.p.nallocated + 1), cur := w.mem a },
    s.created ++ [⟨a, s.p.width.toNat, s.p.chunkSize.toNat⟩], a :: s.handed⟩

/-- How `sy_pool_alloc` ends. -/
inductive AllocEnds (s : PoolRun) (grown answer : Option ℕ) : Except Halt PoolRun → Prop
  /-- The first block of the free list. -/
  | taken (hcur : s.p.cur ≠ 0) : AllocEnds s grown answer
      (.ok ⟨s.w, { s.p with nallocated := wrap32 (s.p.nallocated + 1), cur := s.w.mem s.p.cur },
        s.created, s.p.cur :: s.handed⟩)
  /-- `realloc` or `malloc` cannot answer so. -/
  | unanswered (hcur : s.p.cur = 0) : AllocEnds s grown answer (.error .impossible)
  /-- `realloc` fails. -/
  | noVector (hcur : s.p.cur = 0) (hfull : s.p.chunks.capacity = s.p.chunks.size) (hgrown : grown = none) :
      AllocEnds s grown answer (.ok { s with p := { s.p with chunks := { s.p.chunks with data := 0 } } })
  /-- `malloc` fails. -/
  | noChunk {vec : Vec} {w₁ w : World} (hcur : s.p.cur = 0)
      (hgrown : s.p.chunks.size < s.p.chunks.capacity ∨ grown ≠ none) (hanswer : answer = none)
      (hpushed : s.p.chunks.Pushed s.w w₁ vec)
      (hmem : w.mem = Function.update w₁.mem (vec.entry s.p.chunks.size.toNat) 0)
      (hregions : w.regions = w₁.regions) :
      AllocEnds s grown answer (.ok { s with w := w, p := { s.p with chunks := vec } })
  /-- The size of the chunk is no `int`. -/
  | wrapped (hcur : s.p.cur = 0) (hanswer : answer ≠ none)
      (hgrown : s.p.chunks.size < s.p.chunks.capacity ∨ grown ≠ none)
      (hsize : ¬ s.p.width * s.p.chunkSize < 2 ^ 31) : AllocEnds s grown answer (.error .undefined)
  /-- The first block of a new chunk. -/
  | grew {vec : Vec} {w₁ w : World} {a : ℕ} (hcur : s.p.cur = 0)
      (hgrown : s.p.chunks.size < s.p.chunks.capacity ∨ grown ≠ none)
      (hanswer : answer = some a) (hsize : s.p.width * s.p.chunkSize < 2 ^ 31)
      (hpushed : s.p.chunks.Pushed s.w w₁ vec)
      (hnew : w₁.Grew w vec.data (vec.entry s.p.chunks.size.toNat) a s.p.width.toNat s.p.chunkSize.toNat) :
      AllocEnds s grown answer (.ok (s.grow vec w a))

theorem Laid.alloc_ends (h : s.Laid) (grown answer : Option ℕ) :
    AllocEnds s grown answer (s.alloc grown answer) := by
  unfold alloc poolAlloc
  by_cases hcur : s.p.cur = 0
  · rw [if_pos hcur]
    unfold poolGrow
    rcases vectorPush_cases h.vec grown with hbad | ⟨hfull, hnone, hok⟩ | ⟨vec, w₁, hgrown, hok, hpushed⟩
    · rw [hbad]
      exact .unanswered hcur
    · rw [hok]
      have hends : AllocEnds s grown answer _ := .noVector hcur hfull hnone
      simpa [pure, Except.pure, bind, Except.bind] using hends
    · have hsize := h.vec.size
      have hle : vec.size ≤ vec.capacity := hpushed.fits.le
      have hobj := hpushed.fits.object hpushed.data
      have hroom := hpushed.fits.entry_room (i := s.p.chunks.size.toNat) (by rw [hpushed.size]; omega)
      have hentry : vec.entry s.p.chunks.size.toNat ≠ 0 := by
        have hdata := hpushed.data
        unfold Vec.entry
        omega
      rw [hok]
      dsimp only [bind, Except.bind]
      rw [if_neg hentry]
      rcases chunkInit_cases answer hobj (vec.le_entry _) hroom h.width h.narrow h.chunkSize with
        hbad | ⟨hnone, w, hchunk, hmem, hregions⟩ | ⟨a, hsome, hchunk⟩
      · rw [hbad]
        exact .unanswered hcur
      · rw [hchunk]
        have hends := AllocEnds.noChunk hcur hgrown hnone hpushed hmem hregions
        simpa [pure, Except.pure] using hends
      · split_ifs at hchunk with hfits
        · obtain ⟨w, hchunk, hnew⟩ := hchunk
          rw [hchunk]
          have hends := AllocEnds.grew hcur hgrown hsome hfits hpushed hnew
          have ha : a ≠ 0 := hnew.free.1
          simpa [pure, Except.pure, hcur, hnew.entry, poolTake, ha, grow] using hends
        · rw [hchunk]
          exact .wrapped hcur (by simp [hsome]) hgrown hfits
  · have hends : AllocEnds s grown answer _ := .taken hcur
    simpa [pure, Except.pure, bind, Except.bind, hcur, poolTake] using hends

/-- The same slots, handed out and free in another way. -/
theorem Laid.rearranged (h : s.Laid) {mem : ℕ → ℕ} {cur : ℕ} {n : ℤ} {handed : List ℕ}
    (hblocks : ∀ free, Chain s.w.mem s.p.cur free 0 → (s.handed ++ free).Nodup →
      (∀ x ∈ s.handed ++ free, ∃ c ∈ s.created, x ∈ c.slots) →
      ∃ free', Chain mem cur free' 0 ∧ (handed ++ free').Perm (s.handed ++ free)) :
    Laid ⟨{ s.w with mem := mem }, { s.p with cur := cur, nallocated := n }, s.created, handed⟩ := by
  obtain ⟨free, hchain, hnodup, hslots⟩ := h.blocks
  obtain ⟨free', hchain', hperm⟩ := hblocks free hchain hnodup hslots
  exact ⟨h.width, h.narrow, h.chunkSize, h.vec.mono fun _ hr => hr, h.stride, h.there, h.bases,
    free', hchain', hperm.nodup_iff.mpr hnodup, fun x hx => hslots x (hperm.mem_iff.mp hx)⟩

/-- The first block goes from the free list to the blocks that are handed out. -/
theorem take_chain {mem : ℕ → ℕ} {cur : ℕ} {free : List ℕ} (handed : List ℕ) (hcur : cur ≠ 0)
    (hchain : Chain mem cur free 0) :
    ∃ free', Chain mem (mem cur) free' 0 ∧ (cur :: handed ++ free').Perm (handed ++ free) := by
  cases free with
  | nil => exact absurd hchain hcur
  | cons y free =>
      obtain ⟨rfl, hrest⟩ := hchain
      exact ⟨free, hrest, List.perm_middle.symm⟩

/-- A block goes back to the front of the free list. -/
theorem free_chain {mem : ℕ → ℕ} {cur x : ℕ} {free handed : List ℕ} (hx : x ∈ handed)
    (hnodup : (handed ++ free).Nodup) (hchain : Chain mem cur free 0) :
    ∃ free', Chain (Function.update mem x cur) x free' 0 ∧
      (handed.erase x ++ free').Perm (handed ++ free) := by
  have hfree : x ∉ free := List.disjoint_of_nodup_append hnodup hx
  refine ⟨x :: free, ⟨rfl, ?_⟩, ?_⟩
  · rw [Function.update_self]
    exact hchain.update hfree cur
  · calc (handed.erase x ++ x :: free).Perm (x :: handed.erase x ++ free) := List.perm_middle
      _ |>.Perm (handed ++ free) := (List.perm_cons_erase hx).symm.append_right free

theorem Laid.free_empty (h : s.Laid) (hcur : s.p.cur = 0) {free : List ℕ}
    (hchain : Chain s.w.mem s.p.cur free 0)
    (hslots : ∀ x ∈ s.handed ++ free, ∃ c ∈ s.created, x ∈ c.slots) : free = [] := by
  cases free with
  | nil => rfl
  | cons y free =>
      have hy : y = 0 := by rw [← hcur]; exact hchain.1.symm
      exact absurd (hy ▸ List.mem_append_right _ List.mem_cons_self) (h.zero_notMem hslots)

/-- The new element of the vector is written. -/
theorem Laid.entry_kept {vec : Vec} {w₁ w : World} {v : ℕ} (h : s.Laid)
    (hpushed : s.p.chunks.Pushed s.w w₁ vec)
    (hmem : w.mem = Function.update w₁.mem (vec.entry s.p.chunks.size.toNat) v)
    (hregions : w.regions = w₁.regions) : w₁.Kept w vec.data := by
  have hsize := h.vec.size
  have hroom := hpushed.fits.entry_room (i := s.p.chunks.size.toNat) (by rw [hpushed.size]; omega)
  exact .of_update (hpushed.fits.object hpushed.data) (vec.le_entry _) hroom hmem hregions

/-- A new chunk, when the free list is empty. -/
theorem Laid.grow {vec : Vec} {w₁ w : World} {a : ℕ} (h : s.Laid) (hcur : s.p.cur = 0)
    (hpushed : s.p.chunks.Pushed s.w w₁ vec)
    (hnew : w₁.Grew w vec.data (vec.entry s.p.chunks.size.toNat) a s.p.width.toNat s.p.chunkSize.toNat) :
    (s.grow vec w a).Laid := by
  have hwidth := h.width
  have hsize := h.chunkSize
  have hvec := h.vec.size
  have hle : vec.size ≤ vec.capacity := hpushed.fits.le
  have hobj := hpushed.fits.object hpushed.data
  have hroom := hpushed.fits.entry_room (i := s.p.chunks.size.toNat) (by rw [hpushed.size]; omega)
  have hkept₁ := hnew.kept hobj (vec.le_entry _) hroom (by unfold WORD at hwidth; omega)
  have hkept := hpushed.kept_after hkept₁
  have hfits : vec.Fits w := hpushed.fits.mono fun r hr => hnew.regions ▸ List.mem_cons_of_mem _ hr
  have hfresh : ∀ c ∈ s.created, c.base ≠ vec.data := fun c hc =>
    hpushed.fresh _ (h.there c hc).1 (h.there c hc).2
  have hold := h.moved hkept hfits hfresh
  obtain ⟨free, hchain, hnodup, hslots⟩ := hold.blocks
  obtain rfl := hold.free_empty hcur hchain hslots
  rw [List.append_nil] at hnodup hslots
  have hdistinct : ∀ c ∈ s.created, Distinct (a, s.p.width.toNat * s.p.chunkSize.toNat) c.region :=
    fun c hc => hnew.free.2.2 _ (hpushed.kept _ (h.there c hc).1 (h.there c hc).2).1
  obtain ⟨k, hk⟩ : ∃ k, s.p.chunkSize.toNat = k + 1 := ⟨s.p.chunkSize.toNat - 1, by omega⟩
  have hslot : ∀ x ∈ List.range' a (k + 1) s.p.width.toNat, x ∉ s.handed := by
    intro x hx hhanded
    obtain ⟨c, hc, hxc⟩ := hslots x hhanded
    have hxb := slot_bounds hx
    have hxcb := slot_bounds hxc
    have hpos := h.stride_pos hc
    unfold WORD at hwidth
    rcases (hdistinct c hc).2 with hapart | hapart
    all_goals simp only [Chunk.region, hk] at hapart; omega
  have hperm : (a :: s.handed ++ List.range' (a + s.p.width.toNat) k s.p.width.toNat).Perm
      (s.handed ++ List.range' a (k + 1) s.p.width.toNat) := by
    rw [List.range'_succ]
    exact List.perm_middle.symm
  refine ⟨h.width, h.narrow, h.chunkSize, hfits, ?_, ?_, ?_,
    List.range' (a + s.p.width.toNat) k s.p.width.toNat, ?_, ?_, ?_⟩
  · exact List.forall_mem_append.mpr ⟨h.stride, List.forall_mem_singleton.mpr (.inr rfl)⟩
  · refine List.forall_mem_append.mpr ⟨hold.there, List.forall_mem_singleton.mpr ⟨?_, ?_⟩⟩
    · exact hnew.regions ▸ List.mem_cons_self
    · exact (hnew.free.2.2 _ hobj).1
  · show ((s.created ++ [_]).map Chunk.base).Nodup
    rw [List.map_append, List.nodup_append]
    refine ⟨h.bases, List.nodup_singleton _, fun b hb b' hb' => ?_⟩
    obtain ⟨c, hc, rfl⟩ := List.mem_map.mp hb
    rw [List.mem_singleton.mp hb']
    exact (hdistinct c hc).1.symm
  · have hchain' := hnew.chain
    rw [hk, List.range'_succ] at hchain'
    exact hchain'.2
  · refine hperm.nodup_iff.mpr (List.nodup_append.mpr ⟨hnodup, List.nodup_range' _ ?_, ?_⟩)
    · unfold WORD at hwidth
      omega
    · rintro x hx y hy rfl
      exact hslot x hy hx
  · intro x hx
    rcases List.mem_append.mp (hperm.mem_iff.mp hx) with hx | hx
    · obtain ⟨c, hc, hxc⟩ := hslots x hx
      exact ⟨c, List.mem_append_left _ hc, hxc⟩
    · exact ⟨_, List.mem_append_right _ (List.mem_singleton_self _), by rw [Chunk.slots, hk]; exact hx⟩

/-- A call of `sy_pool_alloc`. -/
theorem Laid.alloc {s' : PoolRun} (h : s.Laid) (hs : s.alloc grown answer = .ok s') : s'.Laid := by
  have hends := h.alloc_ends grown answer
  rw [hs] at hends
  cases hends with
  | taken hcur => exact h.rearranged fun free hchain _ _ => take_chain s.handed hcur hchain
  | noVector hcur hfull =>
      refine h.moved (.refl _ _) ⟨h.vec.width, h.vec.size, h.vec.le, h.vec.small, fun _ => hfull.symm, ?_⟩
        fun c hc => h.base_pos hc
      exact fun h0 => absurd rfl h0
  | noChunk hcur hgrown hanswer hpushed hmem hregions =>
      exact h.moved (hpushed.kept_after (h.entry_kept hpushed hmem hregions))
        (hpushed.fits.mono fun _ hr => hregions ▸ hr)
        fun c hc => hpushed.fresh _ (h.there c hc).1 (h.there c hc).2
  | grew hcur hgrown hanswer hsize hpushed hnew => exact h.grow hcur hpushed hnew

/-- A block that is handed out is a slot. -/
theorem Laid.handed_slot (h : s.Laid) {x : ℕ} (hx : x ∈ s.handed) : ∃ c ∈ s.created, x ∈ c.slots := by
  obtain ⟨free, -, -, hslots⟩ := h.blocks
  exact hslots x (List.mem_append_left _ hx)

/-- What `sy_pool_free` leaves. -/
theorem Laid.free_eq (h : s.Laid) {x : ℕ} (hx : x ∈ s.handed) :
    s.free x = .ok ⟨{ s.w with mem := Function.update s.w.mem x s.p.cur },
      { s.p with cur := x, nallocated := wrap32 (s.p.nallocated - 1) }, s.created, s.handed.erase x⟩ := by
  obtain ⟨c, hc, hxc⟩ := h.handed_slot hx
  unfold free poolFree
  rw [if_pos hx, if_neg (h.slot_ne_zero hc hxc)]

/-- Every call keeps the slots and the free list. -/
theorem laid_call {op : PoolOp} {s' : PoolRun} (h : s.Laid) (hs : op.apply s = .ok s') : s'.Laid := by
  cases op with
  | alloc grown answer => exact h.alloc hs
  | free x =>
      change s.free x = _ at hs
      by_cases hx : x ∈ s.handed
      · rw [h.free_eq hx] at hs
        cases hs
        exact h.rearranged fun free hchain hnodup _ => free_chain hx hnodup hchain
      · unfold free at hs
        rw [if_neg hx] at hs
        cases hs
  | write a v =>
      obtain ⟨ha, rfl⟩ := Laid.write_ok (show s.write a v = _ from hs)
      have hlaid : Laid ⟨_, { s.p with cur := s.p.cur, nallocated := s.p.nallocated }, s.created,
          s.handed⟩ := h.rearranged fun free hchain hnodup hslots =>
          ⟨free, hchain.update (h.inSlot_ne ha hnodup hslots) v, .refl _⟩
      exact hlaid

end PoolRun

/-! ### The start -/

section init

variable {w w' : World} {width chunkSize nchunks : ℤ} {answer : Option ℕ} {answers : List (Option ℕ)}
  {p : MemPool}

/-- What a successful `sy_pool_init` leaves. -/
structure PoolOpened (width chunkSize nchunks : ℤ) (p : MemPool) (w' : World) (data b : ℕ) (bases : List ℕ)
    (w₁ : World) : Prop where
  pool : p = ⟨max width WORD, chunkSize, 0, b, ⟨nchunks, nchunks, WORD, data⟩⟩
  found : data ≠ 0
  small : nchunks < 2 ^ 28
  object : (data, WORD * nchunks.toNat) ∈ w₁.regions
  fits : WORD * chunkSize < 2 ^ 31
  made : w₁.Made w' data 0 chunkSize.toNat (b :: bases)

theorem poolInit_ok (hchunk : 1 ≤ chunkSize) (hn : 1 ≤ nchunks) (hlen : answers.length = nchunks)
    (h : poolInit w width chunkSize nchunks answer answers = .ok (.ok, p, w')) :
    ∃ data b bases w₁, answers = (b :: bases).map some ∧
      PoolOpened width chunkSize nchunks p w' data b bases w₁ := by
  unfold poolInit vectorInit at h
  rw [if_neg (by omega), if_neg (by decide), if_neg (by omega)] at h
  rcases World.malloc_cases w (toSize (wrap32 (nchunks * WORD))) answer with
    hbad | ⟨-, hok⟩ | ⟨data, w₁, -, hok, hfree, -, hregions⟩
  · rw [hbad] at h
    cases h
  · rw [hok] at h
    cases h
  · rw [hok] at h
    have hobj : (data, toSize (wrap32 (nchunks * WORD))) ∈ w₁.regions := hregions ▸ List.mem_cons_self
    have hdata : data ≠ 0 := hfree.1
    dsimp only [bind, Except.bind, pure, Except.pure] at h
    rw [if_neg hdata, if_neg (by simp)] at h
    cases hloop : initChunks data chunkSize 0 answers w₁ with
    | error e =>
        rw [hloop] at h
        cases h
    | ok x =>
        obtain ⟨rc, w₂⟩ := x
        rw [hloop] at h
        dsimp only at h
        by_cases hrc : rc = .ok
        swap
        · rw [if_pos hrc] at h
          cases h
          exact absurd rfl hrc
        subst hrc
        rw [if_neg (not_not.mpr rfl)] at h
        cases h
        obtain ⟨bases, rfl, hlast, hmade⟩ := initChunks_ok hchunk hobj hloop
        cases bases with
        | nil => simp at hlen; omega
        | cons b bases =>
            obtain ⟨hfits, hroom⟩ := hlast (List.cons_ne_nil _ _)
            have hlen' : nchunks = bases.length + 1 := by
              rw [← hlen, List.length_map, List.length_cons]
              norm_cast
            have hsmall : nchunks * WORD < 2 ^ 31 := by
              by_contra hbig
              have hwrapped := toSize_wrapped (not_lt.mp hbig) hfree.2.1
              rw [List.length_cons] at hroom
              unfold WORD at *
              omega
            have hbytes : toSize (wrap32 (nchunks * WORD)) = WORD * nchunks.toNat := by
              rw [toSize_wrap32 (by unfold WORD; omega) hsmall]
              unfold WORD
              omega
            rw [hbytes] at hobj
            have hb : w'.mem data = b := by
              have helements := hmade.elements
              rw [List.length_cons, List.range'_succ, List.map_cons] at helements
              exact (List.cons.inj helements).1
            refine ⟨data, b, bases, w₁, rfl, ?_, hdata, ?_, hobj, hfits, hmade⟩
            · rw [hb]
            · unfold WORD at hsmall
              omega

variable {data b : ℕ} {bases : List ℕ} {w₁ : World}

/-- The chunks that a successful `sy_pool_init` has created. -/
theorem PoolOpened.created (h : PoolOpened width chunkSize nchunks p w' data b bases w₁) :
    (PoolRun.start p w' ((b :: bases).map some)).created =
      (b :: bases).map fun a => ⟨a, WORD, chunkSize.toNat⟩ := by
  unfold PoolRun.start
  rw [h.pool]
  dsimp only
  rw [List.filterMap_map, Function.id_comp, List.filterMap_some]

theorem PoolOpened.vec_fits (h : PoolOpened width chunkSize nchunks p w' data b bases w₁)
    (hn : 1 ≤ nchunks) : p.chunks.Fits w' := by
  rw [h.pool]
  exact ⟨rfl, by dsimp only; omega, le_rfl, h.small, fun h0 => absurd h0 h.found,
    fun _ => h.made.regions _ h.object⟩

/-- The first free list is that of the first chunk. -/
theorem PoolOpened.chain (h : PoolOpened width chunkSize nchunks p w' data b bases w₁) :
    Chain w'.mem p.cur (List.range' b chunkSize.toNat WORD) 0 := by
  rw [h.pool]
  exact h.made.chain b List.mem_cons_self

theorem PoolOpened.laid (h : PoolOpened width chunkSize nchunks p w' data b bases w₁)
    (hwidth : width < 2 ^ 31) (hchunk : 1 ≤ chunkSize) (hn : 1 ≤ nchunks) : (PoolRun.start p w' ((b :: bases).map some)).Laid := by
  have hslots : ∀ c ∈ (PoolRun.start p w' ((b :: bases).map some)).created,
      c.stride = WORD ∧ c.base ∈ b :: bases ∧ c.count = chunkSize.toNat := by
    rw [h.created, List.forall_mem_map]
    exact fun a ha => ⟨rfl, ha, rfl⟩
  refine ⟨?_, ?_, ?_, h.vec_fits hn, fun c hc => .inl (hslots c hc).1, fun c hc => ?_, ?_,
    List.range' b chunkSize.toNat WORD, h.chain, ?_, ?_⟩
  · show WORD ≤ p.width
    rw [h.pool]
    exact le_max_right _ _
  · show p.width < 2 ^ 31
    rw [h.pool]
    exact max_lt hwidth (by decide)
  · show 1 ≤ p.chunkSize
    rw [h.pool]
    exact hchunk
  · obtain ⟨hstride, hbase, hcount⟩ := hslots c hc
    unfold Chunk.region
    rw [hstride, hcount]
    refine ⟨h.made.there _ hbase, ?_⟩
    show c.base ≠ p.chunks.data
    rw [h.pool]
    exact h.made.fresh _ hbase _ h.object
  · rw [h.created, List.map_map]
    show ((b :: bases).map fun a => a).Nodup
    rw [List.map_id']
    exact h.made.nodup
  · exact List.nodup_range' _ (by decide)
  · intro x hx
    refine ⟨⟨b, WORD, chunkSize.toNat⟩, ?_, hx⟩
    rw [h.created]
    exact List.mem_map_of_mem List.mem_cons_self

theorem poolInit_defined (w : World) (width : ℤ) (answer : Option ℕ) (hchunk : 1 ≤ chunkSize)
    (hn : 1 ≤ nchunks) (hlen : answers.length = nchunks) (hfits : WORD * chunkSize < 2 ^ 31)
    (hfits' : WORD * nchunks < 2 ^ 31) :
    poolInit w width chunkSize nchunks answer answers ≠ .error .undefined := by
  unfold poolInit vectorInit
  rw [if_neg (by omega), if_neg (by decide), if_neg (by omega)]
  rcases World.malloc_cases w (toSize (wrap32 (nchunks * WORD))) answer with
    hbad | ⟨-, hok⟩ | ⟨data, w₁, -, hok, hfree, -, hregions⟩
  · rw [hbad]
    exact fun h => by cases h
  · rw [hok]
    exact fun h => by cases h
  · rw [hok]
    have hobj : (data, toSize (wrap32 (nchunks * WORD))) ∈ w₁.regions := hregions ▸ List.mem_cons_self
    have hbytes : toSize (wrap32 (nchunks * WORD)) = WORD * answers.length := by
      rw [toSize_wrap32 (by unfold WORD; omega) (by rw [mul_comm]; exact hfits')]
      unfold WORD
      omega
    have hdefined := initChunks_defined (i := 0) hchunk hfits hobj (by rw [hbytes, zero_add])
    dsimp only [bind, Except.bind, pure, Except.pure]
    rw [if_neg hfree.1, if_neg (by simp)]
    cases hloop : initChunks data chunkSize 0 answers w₁ with
    | error e =>
        rw [hloop] at hdefined
        exact fun h => hdefined (by rw [Except.error.inj h])
    | ok x =>
        dsimp only
        split_ifs
        all_goals exact fun h => by cases h

end init

/-! ### No two blocks overlap -/

/-- The blocks, of `width` bytes each, have no byte in common, lie each in the object of a chunk, and
have no byte in common with a slot on the free list. -/
structure PoolRun.Disjointed (width : ℕ) (s : PoolRun) : Prop where
  blocks : s.handed.Pairwise fun x y => NoOverlap (x, width) (y, width)
  within : ∀ x ∈ s.handed, ∃ c ∈ s.created, c.region ∈ s.w.regions ∧ c.base ≤ x ∧
    x + width ≤ c.base + c.region.2
  free : ∃ free, Chain s.w.mem s.p.cur free 0 ∧ 0 ∉ free ∧
    ∀ x ∈ s.handed, ∀ y ∈ free, NoOverlap (x, width) (y, WORD)

namespace PoolRun

variable {s s' : PoolRun} {width : ℕ}

/-- Blocks that are no wider than their slots. -/
theorem Laid.disjointed (h : s.Laid) (hpool : s.p.width = WORD) (hwidth : width ≤ WORD) :
    s.Disjointed width := by
  have hstride : ∀ c ∈ s.created, c.stride = WORD := by
    intro c hc
    rcases h.stride c hc with heq | heq
    · exact heq
    · rw [heq, hpool, Int.toNat_natCast]
  obtain ⟨free, hchain, hnodup, hslots⟩ := h.blocks
  have hslot := fun x hx => hslots x (List.mem_append_left free hx)
  have hapart : ∀ x ∈ s.handed ++ free, ∀ y ∈ s.handed ++ free, x ≠ y → NoOverlap (x, WORD) (y, WORD) := by
    intro x hx y hy hne
    obtain ⟨c, hc, hxc⟩ := hslots x hx
    obtain ⟨c', hc', hyc'⟩ := hslots y hy
    have hslots' := h.slots_apart hc hc' hxc hyc' hne
    rw [hstride c hc, hstride c' hc'] at hslots'
    exact hslots'
  refine ⟨?_, fun x hx => ?_, free, hchain, h.zero_notMem fun x hx => hslots x (List.mem_append_right _ hx),
    fun x hx y hy => ?_⟩
  · refine (List.nodup_append.mp hnodup).1.imp_of_mem fun {x y} hx hy hne => ?_
    rcases hapart x (List.mem_append_left _ hx) y (List.mem_append_left _ hy) hne with hlt | hlt
    · exact .inl (by dsimp only at hlt ⊢; omega)
    · exact .inr (by dsimp only at hlt ⊢; omega)
  · obtain ⟨c, hc, hxc⟩ := hslot x hx
    obtain ⟨hlow, hhigh⟩ := slot_bounds hxc
    rw [hstride c hc] at hhigh
    refine ⟨c, hc, (h.there c hc).1, hlow, ?_⟩
    simp only [Chunk.region, hstride c hc]
    omega
  · have hne : x ≠ y := fun e => List.disjoint_of_nodup_append hnodup hx (e ▸ hy)
    rcases hapart x (List.mem_append_left _ hx) y (List.mem_append_right _ hy) hne with hlt | hlt
    · exact .inl (by dsimp only at hlt ⊢; omega)
    · exact .inr hlt

/-- The calls leave the width and the number of slots alone. -/
theorem Laid.constants (h : s.Laid) {op : PoolOp} (hs : op.apply s = .ok s') :
    s'.p.width = s.p.width ∧ s'.p.chunkSize = s.p.chunkSize := by
  cases op with
  | alloc grown answer =>
      have hends := h.alloc_ends grown answer
      rw [show s.alloc grown answer = _ from hs] at hends
      cases hends <;> exact ⟨rfl, rfl⟩
  | free x =>
      change s.free x = _ at hs
      unfold free poolFree at hs
      split_ifs at hs
      all_goals cases hs; exact ⟨rfl, rfl⟩
  | write a v =>
      obtain ⟨-, rfl⟩ := Laid.write_ok (show s.write a v = _ from hs)
      exact ⟨rfl, rfl⟩

/-- No call writes behind an object, and no holder behind its slot, when the size of a chunk is an `int`
and the objects are as wide as the slots. -/
theorem Laid.defined (h : s.Laid) (hwidth : s.p.width = WORD) (hfits : s.p.width * s.p.chunkSize < 2 ^ 31)
    (op : PoolOp) : op.apply s ≠ .error .undefined := by
  intro hs
  cases op with
  | alloc grown answer =>
      have hends := h.alloc_ends grown answer
      rw [show s.alloc grown answer = _ from hs] at hends
      cases hends with
      | wrapped hcur hanswer hgrown hsize => exact hsize hfits
  | free x =>
      change s.free x = _ at hs
      unfold free at hs
      split_ifs at hs
      cases hs
  | write a v =>
      change s.write a v = _ at hs
      unfold write at hs
      split_ifs at hs with hown hin
      · exact hin (h.owned_inSlot hwidth hown)
      · cases hs

end PoolRun

section disjoint

variable {w w' w₁ : World} {width chunkSize nchunks : ℤ} {answer : Option ℕ} {answers : List (Option ℕ)}
  {p : MemPool} {data b : ℕ} {bases : List ℕ}

/-- The first block, if it is wider than the slots of the first chunk: it runs into the second one, or out
of the chunk. -/
theorem PoolOpened.first_block (h : PoolOpened width chunkSize nchunks p w' data b bases w₁)
    (hwidth : WORD < width) (hwidth' : width < 2 ^ 31) (hchunk : 1 ≤ chunkSize) (hn : 1 ≤ nchunks) :
    ∃ s, PoolOp.apply (.alloc none none) (.start p w' ((b :: bases).map some)) = .ok s ∧
      ¬ s.Disjointed width.toNat := by
  have hlaid := h.laid hwidth' hchunk hn
  have hb : b ≠ 0 := by
    have hthere := h.made.there b List.mem_cons_self
    exact w'.notNull _ hthere
  have hends := hlaid.alloc_ends none none
  have hcur : p.cur = b := by rw [h.pool]
  have hcreated := h.created
  generalize hs : (PoolRun.start p w' ((b :: bases).map some)).alloc none none = out at hends
  cases hends with
  | taken =>
      refine ⟨_, hs, fun hd => ?_⟩
      obtain ⟨c, hc, hregion, hlow, hhigh⟩ := hd.within b (hcur ▸ List.mem_cons_self)
      have hc' : c ∈ (b :: bases).map fun a => (⟨a, WORD, chunkSize.toNat⟩ : Chunk) := hcreated ▸ hc
      obtain ⟨a, ha, rfl⟩ := List.mem_map.mp hc'
      have hthere := h.made.there b List.mem_cons_self
      simp only [Chunk.region] at hregion hlow hhigh
      have ha : a = b := by
        by_contra hne
        rcases (World.distinct_of_mem hregion hthere hne).2 with hapart | hapart
        all_goals dsimp only at hapart; omega
      subst ha
      -- the first slot is linked with the second one
      have hchain := h.made.chain a List.mem_cons_self
      obtain ⟨k, hk⟩ : ∃ k, chunkSize.toNat = k + 2 := by
        refine ⟨chunkSize.toNat - 2, ?_⟩
        unfold WORD at hhigh hwidth
        omega
      rw [hk, List.range'_succ, List.range'_succ] at hchain
      obtain ⟨free, hfree, -, hall⟩ := hd.free
      change Chain w'.mem (w'.mem p.cur) free 0 at hfree
      rw [hcur, hchain.2.1] at hfree
      cases free with
      | nil => exact absurd (show a + WORD = 0 from hfree) (by omega)
      | cons y free =>
          have hapart := hall a (hcur ▸ List.mem_cons_self) y List.mem_cons_self
          rw [← hfree.1] at hapart
          rcases hapart with hapart | hapart
          all_goals dsimp only at hapart; unfold WORD at *; omega
  | unanswered hzero => exact absurd (hcur.symm.trans hzero) hb
  | noVector hzero => exact absurd (hcur.symm.trans hzero) hb
  | noChunk hzero => exact absurd (hcur.symm.trans hzero) hb
  | wrapped hzero => exact absurd (hcur.symm.trans hzero) hb
  | grew hzero => exact absurd (hcur.symm.trans hzero) hb

/-- **Blocks do not overlap**: over every run from a successful `sy_pool_init`, exactly when its objects
are no wider than the slots of the first chunks. -/
theorem pool_disjoint_iff (w : World) (answer : Option ℕ) (hwidth : 1 ≤ width) (hwidth' : width < 2 ^ 31)
    (hchunk : 1 ≤ chunkSize) (hn : 1 ≤ nchunks) (hlen : answers.length = nchunks) :
    (WORD * chunkSize < 2 ^ 31 → WORD * nchunks < 2 ^ 31 →
      poolInit w width chunkSize nchunks answer answers ≠ .error .undefined) ∧
    ∀ p w', poolInit w width chunkSize nchunks answer answers = .ok (.ok, p, w') →
      ((∀ ops, ∀ s ∈ states PoolOp.apply (.start p w' answers) ops,
        s.Disjointed width.toNat ∧ ∀ op : PoolOp, op.apply s ≠ .error .undefined) ↔ width ≤ WORD) := by
  refine ⟨fun h8 hn8 => poolInit_defined w width answer hchunk hn hlen h8 hn8, fun p w' hinit => ?_⟩
  obtain ⟨data, b, bases, w₁, rfl, hopened⟩ := poolInit_ok hchunk hn hlen hinit
  constructor
  · intro hall
    by_contra hwide
    obtain ⟨s, hs, hnot⟩ := hopened.first_block (not_le.mp hwide) hwidth' hchunk hn
    refine hnot (hall [.alloc none none] s ?_).1
    rw [states_ok hs]
    exact List.mem_cons_of_mem _ (mem_states s [])
  · intro hnarrow ops s hs
    have hpool : max width (WORD : ℤ) = WORD := max_eq_right hnarrow
    have hinv := states_invariant
      (fun s : PoolRun => s.Laid ∧ s.p.width = WORD ∧ s.p.chunkSize = chunkSize) ?_ ?_ ops s hs
    · obtain ⟨hlaid, hw, hc⟩ := hinv
      refine ⟨hlaid.disjointed hw (by omega), hlaid.defined hw ?_⟩
      rw [hw, hc]
      exact hopened.fits
    · rintro op s s' ⟨hlaid, hw, hc⟩ hcall
      obtain ⟨hw', hc'⟩ := hlaid.constants hcall
      exact ⟨PoolRun.laid_call hlaid hcall, hw'.trans hw, hc'.trans hc⟩
    · refine ⟨hopened.laid hwidth' hchunk hn, ?_, ?_⟩
      · show p.width = _
        rw [hopened.pool]
        exact hpool
      · show p.chunkSize = _
        rw [hopened.pool]

end disjoint

/-- A pool for objects of 24 bytes, with one chunk of four. -/
theorem wide_blocks_overlap :
    ∃ p w', poolInit .empty 24 4 1 (some 4096) [some 8192] = .ok (.ok, p, w') ∧
      ¬ ∀ ops, ∀ s ∈ states PoolOp.apply (.start p w' [some 8192]) ops, s.Disjointed 24 := by
  have hinit : ∃ p w', poolInit .empty 24 4 1 (some 4096) [some 8192] = .ok (.ok, p, w') := ⟨_, _, rfl⟩
  obtain ⟨p, w', hinit⟩ := hinit
  refine ⟨p, w', hinit, fun hall => ?_⟩
  have h4 : (1 : ℤ) ≤ 4 := by decide
  have h1 : (1 : ℤ) ≤ 1 := le_rfl
  obtain ⟨data, b, bases, w₁, hanswers, hopened⟩ := poolInit_ok h4 h1 rfl hinit
  obtain ⟨s, hs, hnot⟩ := hopened.first_block (by decide) (by decide) h4 h1
  refine hnot (hall [.alloc none none] s ?_)
  rw [hanswers, states_ok hs]
  exact List.mem_cons_of_mem _ (mem_states s [])

/-- A pool for objects of 8 bytes, with two chunks of four. -/
theorem pool_disjoint_iff_word :
    ∃ p w', poolInit .empty 8 4 2 (some 4096) [some 8192, some 16384] = .ok (.ok, p, w') ∧
      ∀ ops, ∀ s ∈ states PoolOp.apply (.start p w' [some 8192, some 16384]) ops,
        s.Disjointed 8 ∧ ∀ op : PoolOp, op.apply s ≠ .error .undefined := by
  have hinit : ∃ p w', poolInit .empty 8 4 2 (some 4096) [some 8192, some 16384] = .ok (.ok, p, w') :=
    ⟨_, _, rfl⟩
  obtain ⟨p, w', hinit⟩ := hinit
  have h8 : (1 : ℤ) ≤ 8 := by decide
  have h4 : (1 : ℤ) ≤ 4 := by decide
  have h2 : (1 : ℤ) ≤ 2 := by decide
  have hiff := (pool_disjoint_iff .empty (some 4096) h8 (by decide) h4 h2 rfl).2 p w' hinit
  exact ⟨p, w', hinit, hiff.mpr (by decide)⟩

end SyServer
