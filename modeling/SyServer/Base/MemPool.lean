import SyServer.Base.Str

/-! # Vectors and pools

`base/vector.c` and `base/mempool.c`.  A pool hands out blocks of one width.  Its memory comes in chunks
of `chunk_size` slots; a slot that is not handed out holds, in its first word, the address of the next
one, and the vector `chunks` holds the address of every chunk.

* **Memory.** `World` is the heap of the process: the word at every address, and the regions that
  `malloc` has handed out.  Two regions never overlap.  What `malloc` and `realloc` answer is given with
  each call; an answer they cannot give is `Halt.impossible`.
* **Undefined behaviour.** A store through a pointer into an object, behind its end, is
  `Halt.undefined`.
* **Integers.** The sizes are `int` products, cut to 32 bits and taken as a `size_t`.

`mempool.c` does not compile as it stands (`chunk0->data`, `sy_sy_pool_t`, `! =OK`, a cast of `*cur`
for a cast of `cur`); the names and the operators are read as what they must stand for. -/

namespace SyServer

/-- Why a call does not return: an `assert` fails, an object is written behind its end or a slot of a pool
behind its own, the answer given is not one of the allocator, or the rounds given to a loop are too few. -/
inductive Halt where
  | assertion
  | undefined
  | impossible
  | unfinished
deriving DecidableEq, Repr

/-! ### The allocator -/

/-- Two regions without a byte in common. -/
def NoOverlap (r r' : ℕ × ℕ) : Prop := r.1 + r.2 ≤ r'.1 ∨ r'.1 + r'.2 ≤ r.1

instance (r r' : ℕ × ℕ) : Decidable (NoOverlap r r') := inferInstanceAs (Decidable (_ ∨ _))

theorem NoOverlap.symm {r r' : ℕ × ℕ} (h : NoOverlap r r') : NoOverlap r' r := Or.symm h

/-- Two regions of the allocator: different pointers, and apart. -/
def Distinct (r r' : ℕ × ℕ) : Prop := r.1 ≠ r'.1 ∧ NoOverlap r r'

instance (r r' : ℕ × ℕ) : Decidable (Distinct r r') := inferInstanceAs (Decidable (_ ∧ _))

/-- The word at every address, and the regions, each with its address and its size. -/
structure World where
  mem : ℕ → ℕ
  regions : List (ℕ × ℕ)
  apart : regions.Pairwise Distinct
  notNull : ∀ r ∈ regions, r.1 ≠ 0

namespace World

/-- No object. -/
def empty : World := ⟨fun _ => 0, [], .nil, fun _ h => absurd h List.not_mem_nil⟩

/-- What may be answered for `n` bytes next to the regions `rs`; there is no object of more than
`PTRDIFF_MAX` bytes. -/
def Free (rs : List (ℕ × ℕ)) (a n : ℕ) : Prop := a ≠ 0 ∧ n < 2 ^ 63 ∧ ∀ r ∈ rs, Distinct (a, n) r

instance (rs : List (ℕ × ℕ)) (a n : ℕ) : Decidable (Free rs a n) :=
  inferInstanceAs (Decidable (_ ∧ _ ∧ _))

/-- `malloc(n)`: 0 for `NULL`. -/
def malloc (w : World) (n : ℕ) : Option ℕ → Except Halt (ℕ × World)
  | none => .ok (0, w)
  | some a =>
      if h : Free w.regions a n then
        .ok (a, { w with
          regions := (a, n) :: w.regions
          apart := List.pairwise_cons.mpr ⟨h.2.2, w.apart⟩
          notNull := List.forall_mem_cons.mpr ⟨h.1, w.notNull⟩ })
      else .error .impossible

/-- The regions but the one at `p`. -/
def others (w : World) (p : ℕ) : List (ℕ × ℕ) := w.regions.filter (·.1 ≠ p)

/-- The size of the region at `p`. -/
def sizeAt (w : World) (p : ℕ) : ℕ := ((w.regions.find? (·.1 = p)).map Prod.snd).getD 0

/-- `realloc(p, n)`: the bytes are copied, as many as both objects have; the old object stays where the
call fails. -/
def realloc (w : World) (p n : ℕ) : Option ℕ → Except Halt (ℕ × World)
  | none => .ok (0, w)
  | some a =>
      if h : Free (w.others p) a n then
        .ok (a, {
          mem := fun x => if a ≤ x ∧ x < a + min (w.sizeAt p) n then w.mem (p + (x - a)) else w.mem x
          regions := (a, n) :: w.others p
          apart := List.pairwise_cons.mpr ⟨h.2.2, w.apart.filter _⟩
          notNull := List.forall_mem_cons.mpr
            ⟨h.1, fun r hr => w.notNull r (List.mem_of_mem_filter hr)⟩ })
      else .error .impossible

/-- A word is written at the address `a`, through a pointer into the object at `obj`. -/
def store (w : World) (obj a v : ℕ) : Except Halt World :=
  if ∃ r ∈ w.regions, r.1 = obj ∧ obj ≤ a ∧ a + 8 ≤ obj + r.2 then
    .ok { w with mem := Function.update w.mem a v }
  else .error .undefined

end World

/-! ### Vectors -/

/-- `sy_vector_t`. -/
structure Vec where
  size : ℤ
  capacity : ℤ
  width : ℤ
  data : ℕ

/-- `sy_vector_init`; where it fails, the vector is not set. -/
def vectorInit (w : World) (width size : ℤ) (answer : Option ℕ) : Except Halt (Rc × Vec × World) := do
  if width = 0 then throw .assertion
  if size = 0 then pure (.ok, ⟨size, size, width, 0⟩, w)
  else do
    let (data, w) ← w.malloc (toSize (wrap32 (size * width))) answer
    pure (if data = 0 then .error else .ok, ⟨size, size, width, data⟩, w)

/-- `sy_vector_resize`: `vec->data` is `NULL` where `realloc` has failed. -/
def vectorResize (w : World) (vec : Vec) (newSize : ℤ) (answer : Option ℕ) :
    Except Halt (Rc × Vec × World) :=
  if newSize > vec.capacity then do
    let newCapacity := max newSize (wrap32 (vec.capacity * 2 + 1))
    let (data, w) ← w.realloc vec.data (toSize (wrap32 (vec.width * newCapacity))) answer
    if data = 0 then pure (.error, { vec with data := data }, w)
    else pure (.ok, { vec with data := data, capacity := newCapacity, size := newSize }, w)
  else .ok (.ok, { vec with size := newSize }, w)

/-- `sy_vector_at`: 0 for `NULL`. -/
def Vec.at (vec : Vec) (i : ℤ) : ℕ :=
  if i ≥ vec.size then 0 else (vec.data + wrap32 (i * vec.width)).toNat

/-- `sy_vector_push`: the address of the new element, or 0. -/
def vectorPush (w : World) (vec : Vec) (answer : Option ℕ) : Except Halt (ℕ × Vec × World) := do
  let (err, vec, w) ← vectorResize w vec (wrap32 (vec.size + 1)) answer
  if err ≠ .ok then pure (0, vec, w) else pure (vec.at (wrap32 (vec.size - 1)), vec, w)

/-! ### Pools -/

/-- `sizeof(sy_chunk_slot_t)`, and `sizeof(sy_chunk_t)`: both are one pointer. -/
def WORD : ℕ := 8

/-- `sy_pool_t`. -/
structure MemPool where
  width : ℤ
  chunkSize : ℤ
  nallocated : ℤ
  cur : ℕ
  chunks : Vec

/-- The loop of `sy_chunk_init`, with `n` rounds to go, and the `NULL` behind it. -/
def linkSlots (obj width : ℕ) : ℕ → ℕ → World → Except Halt World
  | 0, addr, w => w.store obj addr 0
  | n + 1, addr, w => do
      let w ← w.store obj addr (addr + width)
      linkSlots obj width n (addr + width) w

/-- `sy_chunk_init` for the `sy_chunk_t` at `chunk`, an element of the vector at `obj`. -/
def chunkInit (w : World) (obj chunk : ℕ) (width size : ℤ) (answer : Option ℕ) :
    Except Halt (Rc × World) := do
  if width = 0 ∨ size = 0 then throw .assertion
  let (data, w) ← w.malloc (toSize (wrap32 (width * size))) answer
  let w ← w.store obj chunk data
  if data = 0 then pure (.error, w)
  else do
    let w ← linkSlots data width.toNat (size - 1).toNat data w
    pure (.ok, w)

/-- The loop of `sy_pool_init` from the chunk `i` on, with the answers for the chunks to come. -/
def initChunks (data : ℕ) (chunkSize : ℤ) : ℕ → List (Option ℕ) → World → Except Halt (Rc × World)
  | _, [], w => .ok (.ok, w)
  | i, answer :: answers, w => do
      let (err, w) ← chunkInit w data (data + WORD * i) WORD chunkSize answer
      if err ≠ .ok then pure (err, w) else initChunks data chunkSize (i + 1) answers w

/-- `sy_pool_init`, with the answer for the vector, and those for the `nchunks` chunks. -/
def poolInit (w : World) (width chunkSize nchunks : ℤ) (answer : Option ℕ) (answers : List (Option ℕ)) :
    Except Halt (Rc × MemPool × World) := do
  if chunkSize = 0 ∨ nchunks = 0 then throw .assertion
  let (err, chunks, w) ← vectorInit w WORD nchunks answer
  let p : MemPool := ⟨max width WORD, chunkSize, 0, 0, chunks⟩
  if err ≠ .ok then pure (err, p, w)
  else do
    let (err, w) ← initChunks chunks.data chunkSize 0 answers w
    if err ≠ .ok then pure (err, p, w) else pure (.ok, { p with cur := w.mem chunks.data }, w)

/-- The new chunk of `sy_pool_alloc`, with the answers of `realloc` and of `malloc`. -/
def poolGrow (w : World) (p : MemPool) (grown answer : Option ℕ) : Except Halt (Rc × MemPool × World) := do
  let (chunk, chunks, w) ← vectorPush w p.chunks grown
  let p := { p with chunks := chunks }
  if chunk = 0 then pure (.error, p, w)
  else do
    let (err, w) ← chunkInit w chunks.data chunk p.width p.chunkSize answer
    if err ≠ .ok then pure (err, p, w) else pure (.ok, { p with cur := w.mem chunk }, w)

/-- The end of `sy_pool_alloc`: the first block of the free list is taken off. -/
def poolTake (mem : ℕ → ℕ) (p : MemPool) : ℕ × MemPool :=
  if p.cur ≠ 0 then (p.cur, { p with nallocated := wrap32 (p.nallocated + 1), cur := mem p.cur })
  else (p.cur, p)

/-- `sy_pool_alloc`: the block, or 0. -/
def poolAlloc (w : World) (p : MemPool) (grown answer : Option ℕ) :
    Except Halt (ℕ × MemPool × World) :=
  if p.cur = 0 then do
    let (err, p, w) ← poolGrow w p grown answer
    if err ≠ .ok then pure (0, p, w)
    else
      let (x, p) := poolTake w.mem p
      pure (x, p, w)
  else
    let (x, p) := poolTake w.mem p
    .ok (x, p, w)

/-- `sy_pool_free`, on the words of the memory. -/
def poolFree (mem : ℕ → ℕ) (p : MemPool) (x : ℕ) : (ℕ → ℕ) × MemPool :=
  if x = 0 then (mem, p)
  else (Function.update mem x p.cur, { p with nallocated := wrap32 (p.nallocated - 1), cur := x })

/-- The loop of `sy_pool_clear`: the pointers it gives to `free`; it reads the vector's memory. -/
def poolClear (w : World) (p : MemPool) : Except Halt (List ℕ) :=
  if ∀ i < p.chunks.size.toNat, ∃ r ∈ w.regions, r.1 = p.chunks.data ∧ WORD * i + WORD ≤ r.2 then
    .ok ((List.range p.chunks.size.toNat).map fun i => w.mem (p.chunks.data + WORD * i))
  else .error .undefined

end SyServer
