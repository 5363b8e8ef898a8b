import SyServer.Base.MemPool

/-! # Lists and queues

`base/list.c`, `base/list.h` and `base/queue.h`.  A node is a block of a pool; its first two words are
`next` and `prev`, and its data come behind them.  The list holds a node of its own, `dummy`: the first
node is `dummy.next`, the last one `dummy.prev`; the last `next` is `NULL`, and the first `prev` is
`&dummy`. -/

namespace SyServer

/-- `sy_list_t`, with the memory in which its nodes are: `dummy` is the address of its own node. -/
structure NodeList where
  mem : ℕ → ℕ
  dummy : ℕ
  size : ℤ
  pool : MemPool

namespace NodeList

/-- `x->next`. -/
def next (s : NodeList) (x : ℕ) : ℕ := s.mem x

/-- `x->prev`. -/
def prev (s : NodeList) (x : ℕ) : ℕ := s.mem (x + WORD)

def setNext (s : NodeList) (x v : ℕ) : NodeList := { s with mem := Function.update s.mem x v }

def setPrev (s : NodeList) (x v : ℕ) : NodeList := { s with mem := Function.update s.mem (x + WORD) v }

/-- `sy_list_head`. -/
def listHead (s : NodeList) : ℕ := s.next s.dummy

/-- `sy_list_tail`. -/
def listTail (s : NodeList) : ℕ := s.prev s.dummy

/-- `sy_list_init`. -/
def listInit (mem : ℕ → ℕ) (dummy : ℕ) (pool : MemPool) : NodeList :=
  ((⟨mem, dummy, 0, pool⟩ : NodeList).setNext dummy 0).setPrev dummy dummy

/-- `sy_list_free`. -/
def listFree (s : NodeList) (x : ℕ) : NodeList :=
  { s with mem := (poolFree s.mem s.pool x).1, pool := (poolFree s.mem s.pool x).2 }

/-- `sy_list_insert`. -/
def listInsert (s : NodeList) (pos n : ℕ) : Except Halt NodeList :=
  if pos = 0 then .error .assertion
  else
    let s := s.setNext n (s.next pos)
    let s := if s.next n ≠ 0 then s.setPrev (s.next n) n else s.setPrev s.dummy n
    let s := s.setPrev n pos
    let s := s.setNext pos n
    .ok { s with size := wrap32 (s.size + 1) }

/-- `sy_list_delete`. -/
def listDelete (s : NodeList) (x : ℕ) : Except Halt NodeList :=
  if s.size > 0 ∧ x ≠ s.dummy then
    let s := s.setNext (s.prev x) (s.next x)
    let s := if s.next x ≠ 0 then s.setPrev (s.next x) (s.prev x) else s.setPrev s.dummy (s.prev x)
    let s := s.listFree x
    .ok { s with size := wrap32 (s.size - 1) }
  else .error .assertion

/-- `sy_list_clear`, for so many rounds of its loop. -/
def listClear : ℕ → NodeList → Except Halt NodeList
  | 0, s => if s.listHead = 0 then .ok s else .error .unfinished
  | rounds + 1, s =>
      if s.listHead = 0 then .ok s
      else do
        let s ← s.listDelete s.listHead
        listClear rounds s

/-! ### Queues -/

/-- `sy_queue_push`, for the data at `x`. -/
def queuePush (s : NodeList) (x : ℕ) : Except Halt NodeList := s.listInsert s.listTail (x - 2 * WORD)

/-- `sy_queue_pop`. -/
def queuePop (s : NodeList) : Except Halt NodeList := s.listDelete s.listHead

/-- `&node->data`. -/
def dataOf (x : ℕ) : ℕ := x + 2 * WORD

/-- `sy_queue_front`: 0 for `NULL`. -/
def queueFront (s : NodeList) : ℕ := if s.listHead = 0 then 0 else dataOf s.listHead

/-- `sy_queue_back`: 0 for `NULL`. -/
def queueBack (s : NodeList) : ℕ := if s.listTail = s.dummy then 0 else dataOf s.listTail

/-- `sy_queue_empty`. -/
def queueEmpty (s : NodeList) : Bool := s.size = 0

end NodeList

end SyServer
