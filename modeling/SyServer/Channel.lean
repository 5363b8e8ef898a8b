import SyServer.Lib.Fifo
import SyServer.Lib.Transition
import SyServer.Base.Buffer

/-! # A buffer as a channel

Any calls of the functions of `base/buffer.c` on one buffer: receives, appends and sends, in any order
and with any answers of the kernel.  `Channel` is the buffer next to the bytes it has accepted and the
bytes it has sent, both in order.

* `Buffer.*_passes`: what one call does to the unread bytes.
* `buffer_fifo`: in every run the bytes accepted are the bytes sent and then the unread ones. -/

namespace SyServer

open Fifo (Passes)
open Transition (Reach exec along_true exists_of_any)

/-- A call on the buffer, with what the kernel answers in its loop. -/
inductive BufferOp where
  | recv (rs : List RecvResult)
  | send (rs : List SendResult)
  | appendString (str : List UInt8)
  | appendU8 (val : UInt8)
  | appendU16le (val : UInt16)
  | appendU32le (val : UInt32)

/-- A buffer, the bytes that it has accepted, and the bytes that it has sent. -/
structure Channel where
  buffer : Buffer
  accepted : List UInt8
  sent : List UInt8

/-- The bytes of a value, the least first. -/
def le16 (val : UInt16) : List UInt8 := [(val &&& 0xff).toUInt8, ((val >>> 8) &&& 0xff).toUInt8]

def le32 (val : UInt32) : List UInt8 :=
  le16 (val &&& 0xffff).toUInt16 ++ le16 ((val >>> 16) &&& 0xffff).toUInt16

namespace Channel

/-- `d` is accepted, and `b` is the buffer behind it. -/
def accept (c : Channel) (b : Buffer) (d : List UInt8) : Channel :=
  ⟨b, c.accepted ++ d, c.sent⟩

/-- An append of some of the bytes `d`, with the number it answers. -/
def append (c : Channel) (d : List UInt8) (r : ℕ × Buffer) : Channel := c.accept r.2 (d.take r.1)

/-- One call; `none` where an assertion fails. -/
def step (c : Channel) : BufferOp → Option Channel
  | .recv rs =>
      let (_, b, d) := c.buffer.recv rs
      some (c.accept b d)
  | .send rs =>
      let (_, b, d) := c.buffer.send rs
      some ⟨b, c.accepted, c.sent ++ d⟩
  | .appendString str =>
      match c.buffer.appendString str with
      | .ok b => some (c.append str (c.buffer.appended str, b))
      | .error _ => none
  | .appendU8 val => some (c.append [val] (c.buffer.appendU8 val))
  | .appendU16le val => some (c.append (le16 val) (c.buffer.appendU16le val))
  | .appendU32le val => some (c.append (le32 val) (c.buffer.appendU32le val))

/-- `sy_buffer_init`: nothing is in the buffer, whatever its bytes are. -/
def Init (c : Channel) : Prop :=
  c.buffer.begin = 0 ∧ c.buffer.end_ = 0 ∧ c.accepted = [] ∧ c.sent = []

/-- The cursors are in order, and the bytes accepted are the bytes sent and the unread ones. -/
structure Sound (c : Channel) : Prop where
  le : c.buffer.begin ≤ c.buffer.end_
  limit : c.buffer.end_ ≤ BUF_SIZE
  passes : Passes [] c.accepted c.sent c.buffer.pending

end Channel

/-! ### One call -/

namespace Buffer

variable {b b' : Buffer} {d : List UInt8}

/-- The cursors are in order. -/
def InOrder (b : Buffer) : Prop := b.begin ≤ b.end_ ∧ b.end_ ≤ BUF_SIZE

/-- `b'` is `b` with `d` behind its last byte, as far as there is room. -/
structure Took (b : Buffer) (d : List UInt8) (n : ℕ) (b' : Buffer) : Prop where
  put : b' = b.put (d.take n)
  room : b.end_ ≤ BUF_SIZE → n = min (BUF_SIZE - b.end_) d.length

theorem put_passes (hb : b.begin ≤ b.end_) (d : List UInt8) :
    Passes b.pending d [] (b.put d).pending := by
  unfold pending
  rw [put_begin, put_end, slice_put b d hb]
  exact .put _ _

theorem Took.length {n : ℕ} (h : Took b d n b') (hb : b.end_ ≤ BUF_SIZE) : (d.take n).length = n := by
  rw [List.length_take, h.room hb]
  omega

theorem Took.inOrder {n : ℕ} (h : Took b d n b') (hb : b.InOrder) : b'.InOrder := by
  have hn := h.room hb.2
  have hlen := h.length hb.2
  have hle := hb.1
  have hlimit := hb.2
  unfold InOrder
  rw [h.put, put_begin, put_end, hlen]
  omega

/-- Where the first part did not fit whole, nothing of the second does. -/
theorem Took.append {e : List UInt8} {n m : ℕ} {b'' : Buffer} (hb : b.end_ ≤ BUF_SIZE)
    (h : Took b d n b') (h' : Took b' e m b'') : Took b (d ++ e) (n + m) b'' := by
  have hn := h.room hb
  have hend : b'.end_ = b.end_ + n := by rw [h.put, put_end, h.length hb]
  have hm := h'.room (by omega)
  have htake : (d ++ e).take (n + m) = d.take n ++ e.take m := by
    by_cases hfull : n = d.length
    · rw [hfull, List.take_length_add_append, List.take_length]
    · have hzero : m = 0 := by omega
      rw [hzero, Nat.add_zero, List.take_zero, List.append_nil, List.take_append_of_le_length (by omega)]
  refine ⟨?_, fun _ => ?_⟩
  · rw [htake, h'.put, h.put, put_put]
  · rw [List.length_append]
    omega

theorem appendU8_took (b : Buffer) (val : UInt8) :
    Took b [val] (b.appendU8 val).1 (b.appendU8 val).2 := by
  unfold appendU8
  split_ifs with hfull
  · exact ⟨by simp, fun _ => by simp; omega⟩
  · exact ⟨rfl, fun _ => by simp; omega⟩

theorem appendU16le_took (hb : b.end_ ≤ BUF_SIZE) (val : UInt16) :
    Took b (le16 val) (b.appendU16le val).1 (b.appendU16le val).2 :=
  (appendU8_took b _).append hb (appendU8_took _ _)

theorem appendU32le_took (hb : b.InOrder) (val : UInt32) :
    Took b (le32 val) (b.appendU32le val).1 (b.appendU32le val).2 := by
  have hfirst := appendU16le_took hb.2 (val &&& 0xffff).toUInt16
  exact hfirst.append hb.2 (appendU16le_took (hfirst.inOrder hb).2 _)

theorem appendString_took {str : List UInt8} (h : b.appendString str = .ok b') :
    Took b str (b.appended str) b' := by
  unfold appendString at h
  split_ifs at h
  cases h
  unfold appended margin
  refine ⟨?_, fun _ => by omega⟩
  congr 1
  by_cases hle : ((BUF_SIZE : ℤ) - b.end_).toNat ≤ str.length
  · rw [min_eq_left hle]
  · rw [min_eq_right (by omega), List.take_of_length_le (by omega), List.take_length]

/-- `sy_buffer_append_string` fails its assertion exactly where there is no room. -/
theorem appendString_isOk (str : List UInt8) (hb : b.end_ < BUF_SIZE) :
    ∃ b', b.appendString str = .ok b' := by
  unfold appendString margin
  rw [if_pos (by omega)]
  exact ⟨_, rfl⟩

/-- A send takes a prefix of the unread bytes. -/
theorem send_passes (rs : List SendResult) (hb : b.InOrder) :
    (b.send rs).2.1.InOrder ∧ Passes b.pending [] (b.send rs).2.2 (b.send rs).2.1.pending := by
  obtain ⟨rc, n, hn, hsend, hrc⟩ := send_spec rs b hb.1
  have hlimit := hb.2
  rw [hsend]
  dsimp only
  have hsplit : b.slice b.begin (b.begin + n) ++ b.slice (b.begin + n) b.end_ = b.pending :=
    slice_append b (Nat.le_add_right _ _) hn
  rcases hrc with ⟨rfl, hend⟩ | ⟨hrc, -⟩
  · -- all is sent, and the buffer is reset
    rw [if_pos rfl]
    refine ⟨⟨le_rfl, Nat.zero_le _⟩, .take ?_⟩
    rw [hend, slice_self, List.append_nil] at hsplit
    rw [hend, hsplit]
    simp [pending]
  · have hne : rc ≠ .ok := by rcases hrc with rfl | rfl <;> simp
    rw [if_neg hne]
    exact ⟨⟨hn, hlimit⟩, .take hsplit⟩

end Buffer

/-! ### Every run -/

namespace Channel

variable {c c' : Channel}

/-- Some of the bytes `d` are appended, and the call answers how many. -/
theorem Sound.append (h : c.Sound) {d : List UInt8} {r : ℕ × Buffer} (ht : c.buffer.Took d r.1 r.2) :
    (c.append d r).Sound := by
  obtain ⟨hle, hlimit⟩ := ht.inOrder ⟨h.le, h.limit⟩
  refine ⟨hle, hlimit, ?_⟩
  have := h.passes.trans (Buffer.put_passes h.le (d.take r.1))
  rw [List.append_nil, ← ht.put] at this
  exact this

theorem Sound.recv (h : c.Sound) (rs : List RecvResult) :
    (c.accept (c.buffer.recv rs).2.1 (c.buffer.recv rs).2.2).Sound := by
  obtain ⟨rc, d, hrecv, -, hroom⟩ := Buffer.recv_spec rs c.buffer
  have hle := h.le
  rw [hrecv]
  refine ⟨?_, hroom h.limit, ?_⟩
  · show c.buffer.begin ≤ c.buffer.end_ + d.length
    omega
  · have := h.passes.trans (Buffer.put_passes h.le d)
    rwa [List.append_nil] at this

theorem Sound.send (h : c.Sound) (rs : List SendResult) :
    (⟨(c.buffer.send rs).2.1, c.accepted, c.sent ++ (c.buffer.send rs).2.2⟩ : Channel).Sound := by
  obtain ⟨⟨hle, hlimit⟩, hpass⟩ := Buffer.send_passes rs ⟨h.le, h.limit⟩
  refine ⟨hle, hlimit, ?_⟩
  have := h.passes.trans hpass
  rwa [List.append_nil] at this

theorem Sound.step (h : c.Sound) {op : BufferOp} (hstep : c.step op = some c') : c'.Sound := by
  cases op with
  | recv rs => cases hstep; exact h.recv rs
  | send rs => cases hstep; exact h.send rs
  | appendString str =>
      simp only [Channel.step] at hstep
      split at hstep
      · rename_i b hok
        cases hstep
        exact h.append (Buffer.appendString_took hok)
      · cases hstep
  | appendU8 val => cases hstep; exact h.append (Buffer.appendU8_took _ _)
  | appendU16le val => cases hstep; exact h.append (Buffer.appendU16le_took h.limit _)
  | appendU32le val => cases hstep; exact h.append (Buffer.appendU32le_took ⟨h.le, h.limit⟩ _)

theorem Init.sound (h : c.Init) : c.Sound := by
  obtain ⟨hb, he, ha, hs⟩ := h
  refine ⟨by omega, by omega, ?_⟩
  rw [ha, hs, Buffer.pending, hb, he, Buffer.slice_self]
  exact .refl []

end Channel

/-- **A buffer is a lossless channel**: in every run of calls the bytes accepted are the bytes sent
followed by the unread ones, and the cursors stay in order; only an append of a string to a full buffer
fails. -/
theorem buffer_fifo {c : Channel} (h : Reach Channel.Init Channel.step (fun _ _ => True) c) :
    c.accepted = c.sent ++ c.buffer.pending ∧ 0 ≤ c.buffer.begin ∧ c.buffer.begin ≤ c.buffer.end_ ∧
      c.buffer.end_ ≤ BUF_SIZE ∧
      ∀ op, (∀ str, op = .appendString str → c.buffer.end_ < BUF_SIZE) → ∃ c', c.step op = some c' := by
  have hs := h.invariant Channel.Sound (fun _ hi => hi.sound) fun _ _ _ hs _ hstep => hs.step hstep
  refine ⟨hs.passes, Nat.zero_le _, hs.le, hs.limit, fun op hop => ?_⟩
  cases op with
  | appendString str =>
      obtain ⟨b, hb⟩ := Buffer.appendString_isOk str (hop str rfl)
      exact ⟨c.append str (c.buffer.appended str, b), by simp [Channel.step, hb]⟩
  | _ => exact ⟨_, rfl⟩

/-- Two bytes are received and two appended; then three of them are sent. -/
def partialRun : List BufferOp :=
  [.recv [.got (bytes "ab"), .eagain], .appendU16le 0x6463, .send [.sent 3, .eagain]]

theorem buffer_fifo_partial : ∃ c,
    exec Channel.step ⟨⟨0, fun _ => 0, 0, 0⟩, [], []⟩ partialRun = some c ∧
      c.accepted = bytes "abcd" ∧ c.sent = bytes "abc" ∧ c.accepted = c.sent ++ c.buffer.pending := by
  have hrun : (exec Channel.step ⟨⟨0, fun _ => 0, 0, 0⟩, [], []⟩ partialRun).any
      (fun c => decide (c.accepted = bytes "abcd" ∧ c.sent = bytes "abc")) := by decide +kernel
  obtain ⟨c, hc, hend⟩ := exists_of_any hrun
  obtain ⟨haccepted, hsent⟩ := of_decide_eq_true hend
  exact ⟨c, hc, haccepted, hsent,
    (buffer_fifo (.exec (.start ⟨rfl, rfl, rfl, rfl⟩) (along_true _ _) hc)).1⟩

end SyServer
