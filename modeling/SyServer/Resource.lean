import SyServer.Types

/-! # The path of a static resource

The part of `sy_request_handle_uri` between the location match and `openat`: the path is
terminated in place by a NUL written over the byte behind it, and opened without its leading
slash. -/

namespace SyServer

/-- The C string that starts at offset `i`.  A string without a NUL in the array would run on
behind it; it is cut there. -/
def Buffer.cString (b : Buffer) (i : ℕ) : List UInt8 :=
  (b.slice i (BUF_SIZE + 1)).takeWhile (· ≠ 0)

/-- `uri->abs_path.data[uri->abs_path.len] = 0;` and the choice of `rel_path`: the request
after the write, and the path given to `openat`. -/
def relPath (r : Request) : Except Fault (Request × List UInt8) :=
  match r.uri.absPath.data with
  | .rb off =>
      let r' := { r with rb := r.rb.write (off + r.uri.absPath.len.toNat) 0 }
      .ok (r', if r.uri.absPath.len = 1 then bytes "./" else r'.rb.cString (off + 1))
  | _ => .error .wildRead

theorem Buffer.write_mem_ne (b : Buffer) {i j : ℕ} (c : UInt8) (h : j ≠ i) :
    (b.write i c).mem j = b.mem j := by
  simp [Buffer.write, h]

@[simp] theorem Buffer.write_mem_same (b : Buffer) (i : ℕ) (c : UInt8) :
    (b.write i c).mem i = c := by
  simp [Buffer.write]

/-- A C string is the bytes before its first NUL. -/
theorem Buffer.cString_eq {b : Buffer} {i n : ℕ} (h : i + n ≤ BUF_SIZE)
    (hnul : b.mem (i + n) = 0) (hbytes : ∀ c ∈ b.slice i (i + n), c ≠ 0) :
    b.cString i = b.slice i (i + n) := by
  unfold Buffer.cString
  rw [← b.slice_append (i := i) (j := i + n) (k := BUF_SIZE + 1) (by omega) (by omega)]
  rw [List.takeWhile_append_of_pos (by simpa using hbytes)]
  have e : BUF_SIZE + 1 - (i + n) = (BUF_SIZE - (i + n)) + 1 := by omega
  rw [show b.slice (i + n) (BUF_SIZE + 1) =
      b.mem (i + n) :: (List.range (BUF_SIZE - (i + n))).map fun k => b.mem (i + n + (k + 1)) by
    unfold Buffer.slice
    rw [e, List.range_succ_eq_map]
    simp]
  rw [hnul]
  simp

end SyServer
