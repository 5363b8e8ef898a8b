import SyServer.Base.Str

/-! # Buffers

`base/buffer.c` and `base/buffer.h`: a fixed array `data` of `BUF_SIZE + 1` bytes with the
cursors `begin`, `end` and the constant `limit = data + BUF_SIZE`.  Cursors are offsets from
`data`; `mem` gives the bytes from `data` on, stale ones included.

The two socket loops take the results of the successive `recv` and `send` calls as a list; the
end of the list stands for `EAGAIN`.  They also return the bytes that crossed the socket.

* `recv_spec`, `send_spec`: what a whole receive or send loop does to the buffer.
* `slice_put`: appended bytes come behind the bytes that were there. -/

namespace SyServer

/-- `BUF_SIZE`. -/
def BUF_SIZE : ℕ := 2048

/-- `sy_buffer_t`. -/
structure Buffer where
  addr : ℕ
  mem : ℕ → UInt8
  begin : ℕ
  end_ : ℕ

/-- One result of `recv`: some bytes (none at the end of the stream), `EAGAIN`, or an error. -/
inductive RecvResult where
  | got (d : List UInt8)
  | eagain
  | err
deriving DecidableEq, Repr

/-- One result of `send`: a number of bytes taken, `EAGAIN`, or an error. -/
inductive SendResult where
  | sent (n : ℕ)
  | eagain
  | err
deriving DecidableEq, Repr

namespace Buffer

/-- `sy_buffer_init`, and `sy_buffer_clear`: the bytes stay in the array. -/
def clear (b : Buffer) : Buffer := { b with begin := 0, end_ := 0 }

/-- `sy_buffer_size`. -/
def size (b : Buffer) : ℕ := b.end_ - b.begin

/-- `sy_buffer_full`. -/
def full (b : Buffer) : Bool := b.end_ ≥ BUF_SIZE

/-- `sy_buffer_margin`. -/
def margin (b : Buffer) : ℤ := (BUF_SIZE : ℤ) - b.end_

/-- The bytes at the offsets `i ≤ k < j`. -/
def slice (b : Buffer) (i j : ℕ) : List UInt8 := (List.range (j - i)).map fun k => b.mem (i + k)

/-- The unread bytes. -/
def pending (b : Buffer) : List UInt8 := b.slice b.begin b.end_

/-- Copy `d` behind the last byte and move `end` over it. -/
def put (b : Buffer) (d : List UInt8) : Buffer :=
  { b with
    mem := fun i => if b.end_ ≤ i ∧ i < b.end_ + d.length then d.getD (i - b.end_) 0 else b.mem i
    end_ := b.end_ + d.length }

/-- Overwrite the byte at offset `i`. -/
def write (b : Buffer) (i : ℕ) (c : UInt8) : Buffer :=
  { b with mem := Function.update b.mem i c }

/-- `sy_buffer_recv`: the return code, the buffer, and the bytes received. -/
def recv : List RecvResult → Buffer → Rc × Buffer × List UInt8
  | [], b => (.again, b, [])
  | r :: rs, b =>
      if b.full then (.again, b, [])
      else match r with
        | .eagain => (.again, b, [])
        | .err => (.error, b, [])
        | .got d =>
            let d := d.take b.margin.toNat
            if d = [] then (.ok, b, [])
            else
              let (rc, b', d') := recv rs (b.put d)
              (rc, b', d ++ d')

/-- `sy_buffer_send`: the return code, the buffer, and the bytes sent. -/
def send : List SendResult → Buffer → Rc × Buffer × List UInt8
  | [], b => if b.size = 0 then (.ok, b.clear, []) else (.again, b, [])
  | r :: rs, b =>
      if b.size = 0 then (.ok, b.clear, [])
      else match r with
        | .eagain => (.again, b, [])
        | .err => (.error, b, [])
        | .sent n =>
            let len := min n b.size
            let (rc, b', d') := send rs { b with begin := b.begin + len }
            (rc, b', b.slice b.begin (b.begin + len) ++ d')

/-- `sy_buffer_append_string`. -/
def appendString (b : Buffer) (str : List UInt8) : Except Fault Buffer :=
  if b.margin > 0 then .ok (b.put (str.take b.margin.toNat)) else .error .appendMargin

/-- What `sy_buffer_append_string` answers: the number of bytes appended. -/
def appended (b : Buffer) (str : List UInt8) : ℕ := min b.margin.toNat str.length

/-- `sy_buffer_append_u8`: the number of bytes appended, and the buffer. -/
def appendU8 (b : Buffer) (val : UInt8) : ℕ × Buffer :=
  if BUF_SIZE ≤ b.end_ then (0, b) else (1, b.put [val])

/-- `sy_buffer_append_u16le`. -/
def appendU16le (b : Buffer) (val : UInt16) : ℕ × Buffer :=
  let (len, b) := b.appendU8 (val &&& 0xff).toUInt8
  let (n, b) := b.appendU8 ((val >>> 8) &&& 0xff).toUInt8
  (len + n, b)

/-- `sy_buffer_append_u32le`. -/
def appendU32le (b : Buffer) (val : UInt32) : ℕ × Buffer :=
  let (len, b) := b.appendU16le (val &&& 0xffff).toUInt16
  let (n, b) := b.appendU16le ((val >>> 16) &&& 0xffff).toUInt16
  (len + n, b)

/-- `sy_buffer_print` of a format that yields `text`: `vsnprintf` stores at most `margin - 1`
bytes and a NUL, and returns the whole length. -/
def print (b : Buffer) (text : List UInt8) : Except Fault Buffer :=
  if b.margin > 0 then
    let stored := text.take (b.margin.toNat - 1)
    .ok { b.put (stored ++ [0]) with end_ := b.end_ + text.length }
  else .error .printMargin

/-! ### Bytes of a buffer -/

@[simp] theorem length_slice (b : Buffer) (i j : ℕ) : (b.slice i j).length = j - i := by
  simp [slice]

@[simp] theorem length_pending (b : Buffer) : b.pending.length = b.size := by
  simp [pending, size]

@[simp] theorem slice_self (b : Buffer) (i : ℕ) : b.slice i i = [] := by simp [slice]

theorem getElem_slice (b : Buffer) (i j k : ℕ) (h : k < (b.slice i j).length) :
    (b.slice i j)[k] = b.mem (i + k) := by
  simp [slice]

theorem slice_congr {b b' : Buffer} {i j : ℕ} (h : ∀ k, i ≤ k → k < j → b'.mem k = b.mem k) :
    b'.slice i j = b.slice i j := by
  unfold slice
  refine List.map_congr_left fun k hk => ?_
  rw [List.mem_range] at hk
  exact h _ (by omega) (by omega)

theorem slice_append (b : Buffer) {i j k : ℕ} (hij : i ≤ j) (hjk : j ≤ k) :
    b.slice i j ++ b.slice j k = b.slice i k := by
  apply List.ext_getElem
  · simp only [List.length_append, length_slice]; omega
  · intro n h1 h2
    rw [getElem_slice]
    simp only [List.length_append, length_slice] at h1
    rcases Nat.lt_or_ge n (j - i) with hn | hn
    · rw [List.getElem_append_left (by simpa using hn), getElem_slice]
    · rw [List.getElem_append_right (by simpa using hn), getElem_slice]
      simp only [length_slice]
      congr 1
      omega

@[simp] theorem put_begin (b : Buffer) (d : List UInt8) : (b.put d).begin = b.begin := rfl
@[simp] theorem put_end (b : Buffer) (d : List UInt8) : (b.put d).end_ = b.end_ + d.length := rfl
@[simp] theorem put_addr (b : Buffer) (d : List UInt8) : (b.put d).addr = b.addr := rfl
@[simp] theorem clear_begin (b : Buffer) : b.clear.begin = 0 := rfl
@[simp] theorem clear_end (b : Buffer) : b.clear.end_ = 0 := rfl
@[simp] theorem clear_mem (b : Buffer) : b.clear.mem = b.mem := rfl

theorem put_mem_lt (b : Buffer) (d : List UInt8) {i : ℕ} (h : i < b.end_) :
    (b.put d).mem i = b.mem i := by
  unfold put
  dsimp only
  rw [if_neg (by omega)]

theorem put_mem_ge (b : Buffer) (d : List UInt8) (i : ℕ) (h : i < d.length) :
    (b.put d).mem (b.end_ + i) = d[i] := by
  unfold put
  dsimp only
  rw [if_pos (by omega), show b.end_ + i - b.end_ = i by omega, List.getD_eq_getElem _ _ h]

@[simp] theorem put_nil (b : Buffer) : b.put [] = b := by
  unfold put
  cases b
  simp only [List.length_nil, Nat.add_zero]
  congr
  funext i
  rw [if_neg (by omega)]

theorem put_put (b : Buffer) (d e : List UInt8) : (b.put d).put e = b.put (d ++ e) := by
  unfold put
  simp only [List.length_append, Buffer.mk.injEq, true_and]
  refine ⟨?_, by omega⟩
  funext i
  by_cases h1 : b.end_ + d.length ≤ i ∧ i < b.end_ + d.length + e.length
  · rw [if_pos h1, if_pos (by omega), List.getD_append_right _ _ _ _ (by omega)]
    congr 1
    omega
  · rw [if_neg h1]
    by_cases h2 : b.end_ ≤ i ∧ i < b.end_ + d.length
    · rw [if_pos h2, if_pos (by omega), List.getD_append _ _ _ _ (by omega)]
    · rw [if_neg h2, if_neg (by omega)]

/-- Appended bytes come behind the bytes that were there. -/
theorem slice_put (b : Buffer) (d : List UInt8) {i : ℕ} (h : i ≤ b.end_) :
    (b.put d).slice i (b.end_ + d.length) = b.slice i b.end_ ++ d := by
  rw [← slice_append (b.put d) h (Nat.le_add_right _ _)]
  congr 1
  · exact slice_congr fun k _ hk => put_mem_lt b d hk
  · apply List.ext_getElem
    · simp
    · intro n h1 h2
      rw [getElem_slice, put_mem_ge b d n h2]

/-! ### The socket loops -/

/-- **A receive loop** appends what it received, never past `limit`, and answers `OK` (end of
stream), `ERROR` or `AGAIN`. -/
theorem recv_spec (rs : List RecvResult) (b : Buffer) :
    ∃ rc d, recv rs b = (rc, b.put d, d) ∧ (rc = .ok ∨ rc = .again ∨ rc = .error) ∧
      (b.end_ ≤ BUF_SIZE → b.end_ + d.length ≤ BUF_SIZE) := by
  induction rs generalizing b with
  | nil => exact ⟨.again, [], by simp [recv], by simp, by simp⟩
  | cons r rs ih =>
      unfold recv
      by_cases hf : b.full = true
      · exact ⟨.again, [], by simp [hf], by simp, by simp⟩
      rw [if_neg hf]
      cases r with
      | eagain => exact ⟨.again, [], by simp, by simp, by simp⟩
      | err => exact ⟨.error, [], by simp, by simp, by simp⟩
      | got d =>
          dsimp only
          generalize hd : d.take b.margin.toNat = e
          by_cases he : e = []
          · exact ⟨.ok, [], by simp [he], by simp, by simp⟩
          · rw [if_neg he]
            obtain ⟨rc, d', h1, h2, h3⟩ := ih (b.put e)
            rw [h1]
            refine ⟨rc, e ++ d', by rw [put_put], h2, fun hle => ?_⟩
            have hlen : e.length ≤ b.margin.toNat := by
              rw [← hd, List.length_take]; exact min_le_left _ _
            unfold margin at hlen
            have := h3 (by rw [put_end]; omega)
            rw [put_end] at this
            rw [List.length_append]
            omega

/-- A receive loop that answers something else than `AGAIN` leaves room. -/
theorem recv_not_full (rs : List RecvResult) (b : Buffer) (h : (recv rs b).1 ≠ .again) :
    (recv rs b).2.1.end_ < BUF_SIZE := by
  induction rs generalizing b with
  | nil => exact absurd rfl h
  | cons r rs ih =>
      unfold recv at h ⊢
      by_cases hf : b.full = true
      · rw [if_pos hf] at h
        exact absurd rfl h
      have hroom : b.end_ < BUF_SIZE := by
        unfold full at hf
        simpa using hf
      rw [if_neg hf] at h ⊢
      cases r with
      | eagain => exact hroom
      | err => exact hroom
      | got d =>
          dsimp only at h ⊢
          by_cases he : d.take b.margin.toNat = []
          · rw [if_pos he]
            exact hroom
          · rw [if_neg he] at h ⊢
            exact ih _ h

/-- **A send loop** takes a prefix of the unread bytes; it answers `OK` exactly when nothing is
left, and then it has reset the buffer. -/
theorem send_spec (rs : List SendResult) (b : Buffer) (hb : b.begin ≤ b.end_) :
    ∃ rc n, b.begin + n ≤ b.end_ ∧
      send rs b = (rc, if rc = .ok then b.clear else { b with begin := b.begin + n },
        b.slice b.begin (b.begin + n)) ∧
      (rc = .ok ∧ b.begin + n = b.end_ ∨ (rc = .again ∨ rc = .error) ∧ b.begin + n < b.end_) := by
  have hzero : b.size = 0 → b.begin + 0 = b.end_ := by
    unfold size; omega
  have hpos : b.size ≠ 0 → b.begin + 0 < b.end_ := by
    unfold size; omega
  induction rs generalizing b with
  | nil =>
      unfold send
      by_cases hs : b.size = 0
      · exact ⟨.ok, 0, by omega, by simp [hs], by simp [hzero hs]⟩
      · exact ⟨.again, 0, by omega, by simp [hs], by have := hpos hs; simp; omega⟩
  | cons r rs ih =>
      unfold send
      by_cases hs : b.size = 0
      · exact ⟨.ok, 0, by omega, by simp [hs], by simp [hzero hs]⟩
      have := hpos hs
      rw [if_neg hs]
      cases r with
      | eagain => exact ⟨.again, 0, by omega, by simp, by simp; omega⟩
      | err => exact ⟨.error, 0, by omega, by simp, by simp; omega⟩
      | sent n =>
          dsimp only
          generalize hlen : min n b.size = len
          have hle : b.begin + len ≤ b.end_ := by unfold size at hlen; omega
          have hsz : ∀ c : Buffer, c = { b with begin := b.begin + len } →
              (c.size = 0 → c.begin + 0 = c.end_) ∧ (c.size ≠ 0 → c.begin + 0 < c.end_) := by
            rintro c rfl
            unfold size
            dsimp only
            omega
          obtain ⟨rc, k, h1, h2, h3⟩ := ih { b with begin := b.begin + len } hle
            (hsz _ rfl).1 (hsz _ rfl).2
          rw [h2]
          dsimp only at h1 h3 ⊢
          refine ⟨rc, len + k, by omega, ?_, by rwa [Nat.add_assoc] at h3⟩
          have e : ({ b with begin := b.begin + len } : Buffer).slice (b.begin + len)
              (b.begin + len + k) = b.slice (b.begin + len) (b.begin + len + k) := rfl
          rw [e, slice_append b (by omega) (by omega)]
          simp only [Nat.add_assoc]
          rfl

end Buffer

end SyServer
