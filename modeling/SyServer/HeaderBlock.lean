import SyServer.HeaderLines
import SyServer.Response

/-! # Header blocks

The calls of `sy_parse_header_line` on a block of lines, one after another.  `blockAnswers` is what
they should answer: each line by its own report, up to the empty line.

* `headerCalls_lines`: lines that are no bare names are answered by their reports, and leave the
  parser at the begin of a line.
* `headers_framed_iff`: the block is framed by its line feeds exactly when no line in front of the
  empty one is a bare name.
* `headers_roundTrip`: a serialised list of fields is parsed back. -/

namespace SyServer

open Scan

/-! ### The calls -/

/-- The calls of `sy_parse_header_line`, `n` at most, up to the first that does not answer `OK`:
the return code and the request behind each. -/
def headerCalls : ℕ → Request → List (Rc × Request)
  | 0, _ => []
  | n + 1, r =>
      match parseHeaderLine r with
      | .ok (.ok, r₁) => (.ok, r₁) :: headerCalls n r₁
      | .ok (rc, r₁) => [(rc, r₁)]
      | .error _ => []

/-- All calls that the bytes in `rb` allow: each but the last consumes a byte. -/
def allCalls (r : Request) : List (Rc × Request) := headerCalls (r.rb.size + 1) r

/-- The bytes of the lines. -/
def blockText (lines : List (List UInt8)) : List UInt8 := lines.flatMap (· ++ [cLf])

/-- The lines have arrived. -/
def Request.received (r : Request) (lines : List (List UInt8)) : Request :=
  { r with rb := r.rb.put (blockText lines) }

/-- What a call answers: the return code, for a field the two slices and their bytes, and
`rb.begin`. -/
structure Answer where
  rc : Rc
  name : Str
  nameBytes : List UInt8
  value : Str
  valueBytes : List UInt8
  next : ℕ
deriving DecidableEq, Repr

def answer (p : Rc × Request) : Answer :=
  if p.1 = .ok then
    ⟨p.1, p.2.headerName, p.2.headerName.bytes p.2.mem, p.2.headerValue,
      p.2.headerValue.bytes p.2.mem, p.2.rb.begin⟩
  else ⟨p.1, Str.init, [], Str.init, [], p.2.rb.begin⟩

/-- An answer without slices. -/
def Answer.plain (rc : Rc) (next : ℕ) : Answer := ⟨rc, Str.init, [], Str.init, [], next⟩

/-- The bytes of a value in its line. -/
def valueBytes (l : List UInt8) : Option (ℕ × ℕ) → List UInt8
  | none => []
  | some (k, n) => (l.drop k).take n

/-- What the calls should answer to a block at offset `i`: each line by its own report. -/
def blockAnswers : ℕ → List (List UInt8) → List Answer
  | i, [] => [.plain .again i]
  | i, l :: ls =>
      match lineReport l with
      | .empty => [.plain .emptyLine (i + (l.length + 1))]
      | .skip => blockAnswers (i + (l.length + 1)) ls
      | .field n v =>
          ⟨.ok, ⟨.rb i, n⟩, (l.take n).map lowered, valueStr i v, valueBytes l v, i + (l.length + 1)⟩ ::
            blockAnswers (i + (l.length + 1)) ls

/-- The read buffer behind the calls: the names are rewritten, up to the empty line. -/
def blockBuffer : Buffer → ℕ → List (List UInt8) → Buffer
  | b, _, [] => b
  | b, i, l :: ls =>
      if EmptyLine l then b
      else blockBuffer (b.lowerName i (nameLength l)) (i + (l.length + 1)) ls

/-- **Framing**: after each line of the block, the calls have answered to every line by its own
report, have rewritten the names only, and are at the begin of a line. -/
def Framed (r : Request) (lines : List (List UInt8)) : Prop :=
  ∀ k, (allCalls (r.received (lines.take k))).map answer = blockAnswers r.rb.end_ (lines.take k) ∧
    ∀ p ∈ (allCalls (r.received (lines.take k))).getLast?, p.2.state = .hlBegin ∧
      p.2.rb.mem = (blockBuffer (r.received (lines.take k)).rb r.rb.end_ (lines.take k)).mem

/-! ### One line of a call -/

section line

variable {r : Request} {b : Buffer} {i m n : ℕ} {t u : Str} {l x : List UInt8}

theorem str_bytes_rb (r : Request) (i n : ℕ) :
    (⟨.rb i, (n : ℤ)⟩ : Str).bytes r.mem = r.rb.slice i (i + n) := by
  unfold Str.bytes Buffer.slice
  simp [Request.mem, Ptr.add]

/-- A part of the bytes held. -/
theorem Buffer.Holds.slice_take {k : ℕ} (h : b.Holds i x) (hk : k + n ≤ x.length) :
    b.slice (i + k) (i + k + n) = (x.drop k).take n := by
  have hx : x = x.take k ++ ((x.drop k).take n ++ (x.drop k).drop n) := by
    simp
  rw [hx, Buffer.holds_append, Buffer.holds_append] at h
  have hslice := h.2.1.slice_eq
  rw [List.length_take, List.length_take, List.length_drop, min_eq_left (by omega),
    min_eq_left (by omega)] at hslice
  exact hslice

/-- The parts of a field lie in its line, the value behind the name. -/
theorem trimmed_bounds {k : ℕ} {w : List UInt8} {p : ℕ × ℕ} (h : trimmed k w = some p) :
    k ≤ p.1 ∧ p.1 + p.2 ≤ k + w.length := by
  have hle := (List.dropWhile_suffix (p := fun c => decide (c = cSp)) (l := w)).length_le
  unfold trimmed at h
  cases hd : w.dropWhile (fun c => decide (c = cSp)) with
  | nil => rw [hd] at h; cases h
  | cons c v =>
      rw [hd] at h hle
      cases h
      have hr := (List.rdropWhile_prefix (fun c => decide (c = cSp)) (l := c :: v)).length_le
      simp only [List.length_cons] at hle hr ⊢
      omega

theorem beforeCr_length {v w : List UInt8} (h : beforeCr v = some w) : w.length ≤ v.length := by
  induction v generalizing w with
  | nil => cases h; rfl
  | cons c v ih =>
      unfold beforeCr at h
      split_ifs at h
      · cases h
        exact Nat.zero_le _
      · obtain ⟨w', hw', rfl⟩ := Option.map_eq_some_iff.mp h
        exact Nat.succ_le_succ (ih hw')

theorem lineReport_bounds {v : Option (ℕ × ℕ)} (h : lineReport l = .field n v) :
    n ≤ nameLength l ∧ nameLength l ≤ l.length ∧
      ∀ p ∈ v, nameLength l ≤ p.1 ∧ p.1 + p.2 ≤ l.length := by
  have hlen : l.length = nameLength l + (l.dropWhile nameByte).length := by
    rw [nameLength, ← List.length_append, List.takeWhile_append_dropWhile]
  unfold lineReport at h
  split_ifs at h
  change restReport (nameLength l) _ = _ at h
  cases hd : l.dropWhile nameByte with
  | nil => rw [hd] at h; cases h
  | cons c rest =>
      rw [hd] at h hlen
      rw [List.length_cons] at hlen
      unfold restReport at h
      dsimp only at h
      split_ifs at h with hcol hcr
      · cases hcut : beforeCr rest with
        | none => rw [hcut] at h; cases h
        | some w =>
            have hw := beforeCr_length hcut
            rw [hcut] at h
            obtain ⟨rfl, rfl⟩ := Report.field.inj h
            refine ⟨le_rfl, by omega, fun p hp => ?_⟩
            have := trimmed_bounds hp
            omega
      · obtain ⟨rfl, rfl⟩ := Report.field.inj h
        exact ⟨Nat.zero_le _, by omega, fun p hp => nomatch hp⟩

/-- What a field's line leaves is what it should answer. -/
theorem answer_field {v : Option (ℕ × ℕ)} (hl : lineReport l = .field n v) (hb : b.Holds i l)
    (j : ℕ) (s : PState) :
    answer (.ok, r.onLine { b.lowerName i (nameLength l) with begin := j } ⟨.rb i, n⟩
        (valueStr i v) s) =
      ⟨.ok, ⟨.rb i, n⟩, (l.take n).map lowered, valueStr i v, valueBytes l v, j⟩ := by
  obtain ⟨hn, hlen, hv⟩ := lineReport_bounds hl
  set q := r.onLine { b.lowerName i (nameLength l) with begin := j } ⟨.rb i, n⟩ (valueStr i v) s
  have hmem : ∀ k, q.rb.mem k = (b.lowerName i (nameLength l)).mem k := fun _ => rfl
  have hname : q.rb.slice i (i + n) = (l.take n).map lowered := by
    have hslice := hb.slice_take (k := 0) (n := n) (by omega)
    rw [List.drop_zero, Nat.add_zero] at hslice
    rw [← hslice]
    unfold Buffer.slice
    rw [List.map_map]
    refine List.map_congr_left fun k hk => ?_
    rw [List.mem_range] at hk
    rw [hmem, Buffer.lowerName_mem, if_pos (by omega)]
    rfl
  have hvalue : (valueStr i v).bytes q.mem = valueBytes l v := by
    cases v with
    | none => rfl
    | some p =>
        obtain ⟨k, m⟩ := p
        have hp := hv (k, m) rfl
        dsimp only at hp
        rw [valueStr, str_bytes_rb, valueBytes, ← hb.slice_take (by omega)]
        refine Buffer.slice_congr fun j hj _ => ?_
        rw [hmem, Buffer.lowerName_mem, if_neg (by omega)]
  unfold answer
  rw [if_pos rfl, Answer.mk.injEq]
  refine ⟨rfl, rfl, ?_, rfl, hvalue, rfl⟩
  rw [← hname]
  exact str_bytes_rb q i n

end line

/-! ### The lines of a block -/

/-- The rest of a call that has come to the offset `i`, with `m` bytes in front of it, and the
calls behind it. -/
def callsFrom (n m i : ℕ) (q : Request) : List (Rc × Request) :=
  match headerLineExit (scan headerLineByte m i q) with
  | .ok (.ok, r₁) => (.ok, r₁) :: headerCalls n r₁
  | .ok (rc, r₁) => [(rc, r₁)]
  | .error _ => []

section calls

variable {r q : Request} {b b' : Buffer} {i k m n : ℕ} {t u : Str} {l x : List UInt8}
  {ls : List (List UInt8)}

theorem headerCalls_succ (n : ℕ) (r : Request) :
    headerCalls (n + 1) r = callsFrom n r.rb.size r.rb.begin r := rfl

theorem callsFrom_skip (h : HeaderLine r q i k b' none) :
    ∃ t v, callsFrom n (k + m) i q = callsFrom n m (i + k) (r.onLine b' t v .hlBegin) := by
  obtain ⟨t, v, h⟩ := h
  refine ⟨t, v, ?_⟩
  unfold callsFrom
  rw [scan_add, h, Step.bind_more]

theorem callsFrom_stop (h : HeaderLine r q i (k + 1) b' (some (t, u))) :
    callsFrom n (k + 1 + m) i q =
      if t.data = .NULL then
        [(.emptyLine, r.onLine { b' with begin := i + (k + 1) } t u .hlBegin)]
      else
        (.ok, r.onLine { b' with begin := i + (k + 1) } t u .hlBegin) ::
          headerCalls n (r.onLine { b' with begin := i + (k + 1) } t u .hlBegin) := by
  obtain ⟨s, h⟩ := h
  unfold callsFrom
  rw [scan_add, h, Step.bind_stop, headerLineExit]
  have hnm : (r.onLine b' t u s).headerName = t := rfl
  have hnext : { rbAfter (i + (k + 1) - 1) (r.onLine b' t u s) with state := PState.hlBegin } =
      r.onLine { b' with begin := i + (k + 1) } t u .hlBegin := by
    unfold rbAfter
    rw [show i + (k + 1) - 1 + 1 = i + (k + 1) by omega]
    rfl
  rw [hnm, hnext]
  split_ifs <;> rfl

@[simp] theorem blockText_nil : blockText [] = [] := rfl
@[simp] theorem blockText_cons : blockText (l :: ls) = l ++ cLf :: blockText ls := by
  simp [blockText]

theorem blockText_length_cons : (blockText (l :: ls)).length = l.length + 1 + (blockText ls).length := by
  rw [blockText_cons, List.length_append, List.length_cons]
  omega

theorem length_le_blockText (ls : List (List UInt8)) : ls.length ≤ (blockText ls).length := by
  induction ls with
  | nil => exact le_rfl
  | cons l ls ih =>
      rw [blockText_length_cons, List.length_cons]
      omega

/-- Behind the last line. -/
theorem callsFrom_nil : callsFrom n 0 i q = [(.again, rbConsumed q)] := rfl

theorem restReport_ne_empty (n : ℕ) (x : List UInt8) : restReport n x ≠ .empty := by
  cases x with
  | nil => exact Report.noConfusion
  | cons c v =>
      unfold restReport
      dsimp only
      split_ifs
      · cases beforeCr v <;> exact Report.noConfusion
      · exact Report.noConfusion
      · exact Report.noConfusion

theorem lineReport_empty_iff : lineReport l = .empty ↔ EmptyLine l := by
  unfold lineReport
  split_ifs with h1 h2
  · exact iff_of_true rfl h1
  · exact iff_of_false (by simp) h1
  · exact iff_of_false (restReport_ne_empty _ _) h1

/-- The cursors have no part in the bytes. -/
theorem blockBuffer_mem (h : b'.mem = b.mem) (i : ℕ) (ls : List (List UInt8)) :
    (blockBuffer b' i ls).mem = (blockBuffer b i ls).mem := by
  induction ls generalizing b b' i with
  | nil => exact h
  | cons l ls ih =>
      unfold blockBuffer
      split_ifs
      · exact h
      · refine ih ?_ _
        funext j
        rw [Buffer.lowerName_mem, Buffer.lowerName_mem, h]

/-- **Lines that are neither empty nor bare names**: the calls answer to each by its report, and
are then at the begin of the next line. -/
theorem callsFrom_lines (hlf : ∀ l ∈ ls, cLf ∉ l) (hgood : ∀ l ∈ ls, ¬ EmptyLine l ∧ ¬ BareName l)
    (hb : b.Holds i (blockText ls ++ x)) (hend : b.end_ = i + ((blockText ls).length + x.length))
    (hn : ls.length ≤ n) :
    ∃ pre n' b' nm' val', callsFrom n ((blockText ls).length + x.length) i
          (r.onLine b t u .hlBegin) =
        pre ++ callsFrom n' x.length (i + (blockText ls).length) (r.onLine b' nm' val' .hlBegin) ∧
      (∀ rest, pre.map answer ++ blockAnswers (i + (blockText ls).length) rest =
        blockAnswers i (ls ++ rest)) ∧
      (∀ rest, (blockBuffer b i (ls ++ rest)).mem =
        (blockBuffer b' (i + (blockText ls).length) rest).mem) ∧
      b'.Holds (i + (blockText ls).length) x ∧ b'.end_ = b.end_ ∧ n ≤ n' + ls.length := by
  induction ls generalizing i b n t u with
  | nil =>
      refine ⟨[], n, b, t, u, ?_, fun _ => rfl, fun _ => rfl, hb, rfl, le_rfl⟩
      simp
  | cons l ls ih =>
      obtain ⟨hl, hls⟩ := List.forall_mem_cons.mp hlf
      obtain ⟨⟨hne, hbare⟩, hgood'⟩ := List.forall_mem_cons.mp hgood
      rw [blockText_length_cons] at hend
      have hb' : b.Holds i (l ++ [cLf]) ∧ b.Holds (i + (l.length + 1)) (blockText ls ++ x) := by
        rw [blockText_cons, List.append_assoc, List.cons_append, List.append_cons,
          Buffer.holds_append] at hb
        simpa using hb
      have hline := headerLine_begin (r := r) (t := t) (u := u) hb'.1 hl hbare
      set b₁ := b.lowerName i (nameLength l) with hb₁
      have hheld : b₁.Holds (i + (l.length + 1)) (blockText ls ++ x) := by
        have hlen : nameLength l ≤ l.length := (List.takeWhile_prefix _).length_le
        refine hb'.2.congr fun j hj => ?_
        rw [hb₁, Buffer.lowerName_mem, if_neg (by omega)]
      have hlen : (blockText (l :: ls)).length + x.length =
          l.length + 1 + ((blockText ls).length + x.length) := by
        rw [blockText_length_cons]
        omega
      have hpos : i + (blockText (l :: ls)).length = i + (l.length + 1) + (blockText ls).length := by
        rw [blockText_length_cons]
        omega
      have hbuf : ∀ rest, blockBuffer b i (l :: ls ++ rest) =
          blockBuffer b₁ (i + (l.length + 1)) (ls ++ rest) := by
        intro rest
        rw [List.cons_append, blockBuffer, if_neg hne]
      rw [List.length_cons] at hn
      rw [hlen, hpos]
      cases hrep : lineReport l with
      | empty => exact absurd (lineReport_empty_iff.mp hrep) hne
      | skip =>
          rw [hrep] at hline
          obtain ⟨nm₁, v₁, hcall⟩ := callsFrom_skip (n := n) (m := (blockText ls).length + x.length) hline
          obtain ⟨pre, n', b', nm', val', h1, h2, h3, h4, h5, h6⟩ :=
            ih (t := nm₁) (u := v₁) hls hgood' hheld (by rw [hb₁, Buffer.lowerName_end]; omega)
              (by omega : ls.length ≤ n)
          refine ⟨pre, n', b', nm', val', hcall.trans h1, fun rest => ?_, fun rest => ?_, h4, h5,
            by rw [List.length_cons]; omega⟩
          · rw [h2, List.cons_append, blockAnswers, hrep]
          · rw [hbuf, h3]
      | field k v =>
          obtain ⟨n₀, rfl⟩ : ∃ n₀, n = n₀ + 1 := ⟨n - 1, by omega⟩
          rw [hrep] at hline
          set b₂ : Buffer := { b₁ with begin := i + (l.length + 1) } with hb₂
          set q := r.onLine b₂ ⟨.rb i, k⟩ (valueStr i v) .hlBegin with hq
          have hcall := callsFrom_stop (n := n₀ + 1) (m := (blockText ls).length + x.length) hline
          rw [if_neg Ptr.noConfusion, headerCalls_succ] at hcall
          have hsize : q.rb.size = (blockText ls).length + x.length := by
            have : q.rb.size = b.end_ - (i + (l.length + 1)) := rfl
            omega
          obtain ⟨pre, n', b', nm', val', h1, h2, h3, h4, h5, h6⟩ :=
            ih (n := n₀) (b := b₂) (t := ⟨.rb i, k⟩) (u := valueStr i v) hls hgood'
              (hheld.congr fun _ _ => rfl)
              (by rw [show b₂.end_ = b.end_ from rfl]; omega) (by omega)
          have hanswer := answer_field (r := r) hrep ((Buffer.holds_append.mp hb'.1).1)
            (i + (l.length + 1)) .hlBegin
          refine ⟨(.ok, q) :: pre, n', b', nm', val', ?_, fun rest => ?_, fun rest => ?_, h4, h5,
            by rw [List.length_cons]; omega⟩
          · rw [hcall, List.cons_append, ← h1, ← hsize]
            rfl
          · rw [List.map_cons, List.cons_append, h2, List.cons_append, blockAnswers, hrep, hanswer]
          · rw [hbuf, ← h3]
            exact blockBuffer_mem (show b₁.mem = b₂.mem from rfl) _ _

theorem EmptyLine.not_bare (h : EmptyLine l) : ¬ BareName l := by
  rcases h with rfl | rfl
  · exact fun hb => hb.1 rfl
  · exact fun hb => absurd (hb.2 cCr (by simp)) (by decide)

theorem EmptyLine.nameLength (h : EmptyLine l) : nameLength l = 0 := by
  rcases h with rfl | rfl <;> rfl

/-- The end of a block: nothing more, or the empty line and what may follow it. -/
theorem callsFrom_end {rest : List (List UInt8)} (hlf : ∀ l ∈ rest, cLf ∉ l)
    (hrest : ∀ l ∈ rest.head?, EmptyLine l) (hb : b.Holds i (blockText rest))
    (hend : b.end_ = i + (blockText rest).length) :
    ∃ p, callsFrom n (blockText rest).length i (r.onLine b t u .hlBegin) = [p] ∧
      blockAnswers i rest = [answer p] ∧ p.2.state = .hlBegin ∧
        p.2.rb.mem = (blockBuffer b i rest).mem := by
  cases rest with
  | nil =>
      refine ⟨_, callsFrom_nil, ?_, rfl, rfl⟩
      have hnext : (rbConsumed (r.onLine b t u .hlBegin)).rb.begin = i := hend
      unfold answer
      rw [if_neg (by simp), hnext]
      rfl
  | cons l ls =>
      have hempty : EmptyLine l := hrest l rfl
      have hb' : b.Holds i (l ++ [cLf]) := by
        rw [blockText_cons, List.append_cons, Buffer.holds_append] at hb
        exact hb.1
      have hline := headerLine_begin (r := r) (t := t) (u := u) hb' (hlf l (by simp))
        hempty.not_bare
      rw [lineReport_empty_iff.mpr hempty, hempty.nameLength, Buffer.lowerName_zero] at hline
      have hcall := callsFrom_stop (n := n) (m := (blockText ls).length) hline
      rw [if_pos (show Str.init.data = .NULL from rfl), ← blockText_length_cons] at hcall
      refine ⟨_, hcall, ?_, rfl, ?_⟩
      · rw [blockAnswers, lineReport_empty_iff.mpr hempty]
        rfl
      · rw [blockBuffer, if_pos hempty]
        rfl

/-- A bare name at the end of a block leaves the parser inside a line. -/
theorem callsFrom_bare (hbare : BareName l) (hb : b.Holds i (l ++ [cLf])) :
    ∃ p, callsFrom n (l.length + 1) i (r.onLine b t u .hlBegin) = [p] ∧ p.2.state = .hlIgnore := by
  refine ⟨(.again, rbConsumed (r.onLine (b.lowerName i l.length) ⟨.rb i, 0⟩ Str.init .hlIgnore)),
    ?_, rfl⟩
  unfold callsFrom
  rw [headerLine_bare hbare hb]
  rfl

end calls

/-! ### A block that has arrived -/

section block

variable {r : Request} {lines : List (List UInt8)}

theorem received_eq (hs : r.state = .hlBegin) (lines : List (List UInt8)) :
    r.received lines = r.onLine (r.rb.put (blockText lines)) r.headerName r.headerValue .hlBegin := by
  unfold Request.received Request.onLine
  rw [← hs]

/-- The calls on a block whose lines are neither empty nor bare names up to `rest`. -/
theorem allCalls_lines (hs : r.state = .hlBegin) (hr : r.rb.begin = r.rb.end_)
    {ls : List (List UInt8)} (rest : List (List UInt8)) (hlf : ∀ l ∈ ls, cLf ∉ l)
    (hgood : ∀ l ∈ ls, ¬ EmptyLine l ∧ ¬ BareName l) :
    ∃ pre n b t u, allCalls (r.received (ls ++ rest)) =
        pre ++ callsFrom n (blockText rest).length (r.rb.end_ + (blockText ls).length)
          (r.onLine b t u .hlBegin) ∧
      pre.map answer ++ blockAnswers (r.rb.end_ + (blockText ls).length) rest =
        blockAnswers r.rb.end_ (ls ++ rest) ∧
      (blockBuffer (r.received (ls ++ rest)).rb r.rb.end_ (ls ++ rest)).mem =
        (blockBuffer b (r.rb.end_ + (blockText ls).length) rest).mem ∧
      b.Holds (r.rb.end_ + (blockText ls).length) (blockText rest) ∧
      b.end_ = r.rb.end_ + (blockText ls).length + (blockText rest).length := by
  have htext : blockText (ls ++ rest) = blockText ls ++ blockText rest := List.flatMap_append
  have hsize : (r.received (ls ++ rest)).rb.size = (blockText ls).length + (blockText rest).length := by
    unfold Request.received Buffer.size
    dsimp only [Buffer.put_begin, Buffer.put_end]
    rw [hr, htext, List.length_append]
    omega
  have hend : (r.rb.put (blockText (ls ++ rest))).end_ =
      r.rb.end_ + ((blockText ls).length + (blockText rest).length) := by
    rw [Buffer.put_end, htext, List.length_append]
  have hheld := r.rb.holds_put (blockText (ls ++ rest))
  rw [htext] at hheld
  rw [← htext] at hheld
  obtain ⟨pre, n, b, t, u, h1, h2, h3, h4, h5, -⟩ :=
    callsFrom_lines (r := r) (t := r.headerName) (u := r.headerValue)
      (n := (r.received (ls ++ rest)).rb.size) (b := r.rb.put (blockText (ls ++ rest)))
      (x := blockText rest) hlf hgood (htext ▸ hheld) hend
      (by have := length_le_blockText ls; omega)
  refine ⟨pre, n, b, t, u, ?_, h2 rest, h3 rest, h4, by omega⟩
  rw [← h1, allCalls, headerCalls_succ, hsize, ← received_eq hs]
  have hbegin : (r.received (ls ++ rest)).rb.begin = r.rb.end_ := hr
  rw [hbegin]

/-- The lines in front of the empty one. -/
def beforeEmpty (lines : List (List UInt8)) : List (List UInt8) :=
  lines.takeWhile fun l => decide (¬ EmptyLine l)

theorem beforeEmpty_ne {l : List UInt8} (h : l ∈ beforeEmpty lines) : ¬ EmptyLine l := by
  simpa using List.mem_takeWhile_imp h

/-- A block without bare names in front of the empty line is answered line by line. -/
theorem allCalls_framed (hs : r.state = .hlBegin) (hr : r.rb.begin = r.rb.end_)
    (hlf : ∀ l ∈ lines, cLf ∉ l) (hgood : ∀ l ∈ beforeEmpty lines, ¬ BareName l) :
    (allCalls (r.received lines)).map answer = blockAnswers r.rb.end_ lines ∧
      ∀ p ∈ (allCalls (r.received lines)).getLast?, p.2.state = .hlBegin ∧
        p.2.rb.mem = (blockBuffer (r.received lines).rb r.rb.end_ lines).mem := by
  obtain ⟨ls, rest, rfl, hls, hrest⟩ : ∃ ls rest, lines = ls ++ rest ∧
      (∀ l ∈ ls, ¬ EmptyLine l ∧ ¬ BareName l) ∧ ∀ l ∈ rest.head?, EmptyLine l := by
    refine ⟨beforeEmpty lines, lines.dropWhile fun l => decide (¬ EmptyLine l),
      List.takeWhile_append_dropWhile.symm, fun l hl => ⟨beforeEmpty_ne hl, hgood l hl⟩, ?_⟩
    intro l hl
    have := List.head?_dropWhile_not (fun l => decide (¬ EmptyLine l)) lines
    rw [Option.mem_def.mp hl] at this
    simpa using this
  rw [List.forall_mem_append] at hlf
  obtain ⟨pre, n, b, t, u, h1, h2, h3, h4, h5⟩ := allCalls_lines hs hr rest hlf.1 hls
  obtain ⟨p, hp, ha, hstate, hmem⟩ :=
    callsFrom_end (r := r) (n := n) (t := t) (u := u) hlf.2 hrest h4 h5
  rw [hp] at h1
  rw [h1]
  refine ⟨?_, ?_⟩
  · rw [List.map_append, ← h2, ha]
    rfl
  · intro p' hp'
    rw [List.getLast?_concat, Option.mem_some] at hp'
    obtain rfl := hp'
    exact ⟨hstate, hmem.trans h3.symm⟩

theorem beforeEmpty_take (k : ℕ) {l : List UInt8} (h : l ∈ beforeEmpty (lines.take k)) :
    l ∈ beforeEmpty lines := by
  have hpre : beforeEmpty (lines.take k) <+: beforeEmpty lines := by
    unfold beforeEmpty
    conv_rhs => rw [← List.take_append_drop k lines]
    rw [List.takeWhile_append]
    split_ifs
    · exact List.takeWhile_prefix _ |>.trans (List.prefix_append _ _)
    · exact List.prefix_refl _
  exact hpre.subset h

/-- **Framing**: the parser treats each line feed as the end of one line exactly when no line in
front of the empty one is a name and nothing else. -/
theorem headers_framed_iff (hs : r.state = .hlBegin) (hr : r.rb.begin = r.rb.end_)
    (hlf : ∀ l ∈ lines, cLf ∉ l) :
    Framed r lines ↔ ∀ l ∈ beforeEmpty lines, ¬ BareName l := by
  constructor
  · intro h
    by_contra hbad
    push Not at hbad
    obtain ⟨l₀, hmem, hbare₀⟩ := hbad
    -- the first bare name, as the last line that has arrived
    obtain ⟨ls, l, rest, hsplit, hls, hbare⟩ : ∃ ls l rest, beforeEmpty lines = ls ++ l :: rest ∧
        (∀ l ∈ ls, ¬ BareName l) ∧ BareName l := by
      have hsome : ((beforeEmpty lines).find? fun l => decide (BareName l)).isSome = true :=
        List.find?_isSome.mpr ⟨l₀, hmem, decide_eq_true hbare₀⟩
      obtain ⟨l, hl⟩ := Option.isSome_iff_exists.mp hsome
      obtain ⟨hbare, ls, rest, hsplit, hls⟩ := List.find?_eq_some_iff_append.mp hl
      exact ⟨ls, l, rest, hsplit, fun x hx => by simpa using hls x hx, of_decide_eq_true hbare⟩
    obtain ⟨tail, htail⟩ : ∃ tail, lines = ls ++ l :: tail := by
      refine ⟨rest ++ lines.dropWhile fun l => decide (¬ EmptyLine l), ?_⟩
      conv_lhs => rw [← List.takeWhile_append_dropWhile (p := fun l => decide (¬ EmptyLine l)) (l := lines)]
      rw [show List.takeWhile (fun l => decide (¬ EmptyLine l)) lines = ls ++ l :: rest from hsplit]
      simp
    have hgood : ∀ x ∈ ls, ¬ EmptyLine x ∧ ¬ BareName x := fun x hx =>
      ⟨beforeEmpty_ne (hsplit ▸ List.mem_append_left _ hx), hls x hx⟩
    have htake : lines.take (ls.length + 1) = ls ++ [l] := by
      rw [htail, List.take_append]
      simp
    have hlfs : ∀ x ∈ ls, cLf ∉ x := fun x hx => hlf x (htail ▸ List.mem_append_left _ hx)
    obtain ⟨pre, n, b, t, u, h1, -, -, h4, -⟩ := allCalls_lines hs hr [l] hlfs hgood
    obtain ⟨p, hp, hstate⟩ := callsFrom_bare (r := r) (n := n) (t := t) (u := u) hbare
      (by simpa using h4)
    have hlen : (blockText [l]).length = l.length + 1 := by simp
    rw [hlen, hp] at h1
    have hlast := (h (ls.length + 1)).2 p (by rw [htake, h1, List.getLast?_concat]; rfl)
    rw [hstate] at hlast
    exact PState.noConfusion hlast.1
  · intro h k
    exact allCalls_framed hs hr (fun l hl => hlf l (List.mem_of_mem_take hl))
      fun l hl => h l (beforeEmpty_take k hl)

/-- A parser at the first header line. -/
def atHeaders : Request := { Request.zeroed with state := .hlBegin }

theorem headers_framed_iff_host : Framed atHeaders [bytes "Host: a", bytes "bad line", []] :=
  (headers_framed_iff rfl rfl (by decide)).mpr (by decide +kernel)

/-- The return codes of the calls on a block. -/
def blockCodes (lines : List (List UInt8)) : List Rc :=
  (allCalls (atHeaders.received lines)).map Prod.fst

/-- A bare name swallows the field behind it. -/
theorem bareName_swallows :
    blockCodes [bytes "ab", bytes "X: y", []] = [.emptyLine] ∧
      ¬ Framed atHeaders [bytes "ab", bytes "X: y", []] := by
  have hcodes : blockCodes [bytes "ab", bytes "X: y", []] = [.emptyLine] := by decide +kernel
  refine ⟨hcodes, fun h => ?_⟩
  have hanswers := congrArg (List.map Answer.rc) (h 3).1
  rw [List.map_map, show (Answer.rc ∘ answer) = Prod.fst by
    funext p; unfold answer; dsimp only [Function.comp]; split_ifs <;> rfl] at hanswers
  change blockCodes [bytes "ab", bytes "X: y", []] = _ at hanswers
  rw [hcodes] at hanswers
  exact absurd hanswers (by decide +kernel)

end block

/-! ### Serialised fields -/

/-- A field as it is written: any spaces around the value, and a line end with or without `CR`. -/
structure Field where
  name : List UInt8
  value : List UInt8
  spaces : ℕ
  spaces' : ℕ
  cr : Bool
  name_ne : name ≠ []
  name_ok : ∀ c ∈ name, nameByte c = true
  value_ok : ∀ c ∈ value, c ≠ cCr ∧ c ≠ cLf
  first_ok : ∀ c ∈ value.head?, c ≠ cSp
  last_ok : ∀ c ∈ value.getLast?, c ≠ cSp

/-- The `CR` of a line end. -/
def optionalCr (cr : Bool) : List UInt8 := if cr then [cCr] else []

namespace Field

/-- The value with the spaces around it. -/
def padded (f : Field) : List UInt8 :=
  List.replicate f.spaces cSp ++ (f.value ++ List.replicate f.spaces' cSp)

/-- The line, without its line feed. -/
def line (f : Field) : List UInt8 := f.name ++ cColon :: (f.padded ++ optionalCr f.cr)

/-- What the parser should answer to a field at offset `i`. -/
def answer (i : ℕ) (f : Field) : Answer where
  rc := .ok
  name := ⟨.rb i, f.name.length⟩
  nameBytes := f.name.map lowered
  value := if f.value = [] then Str.init else
    ⟨.rb (i + (f.name.length + 1 + f.spaces)), f.value.length⟩
  valueBytes := f.value
  next := i + (f.line.length + 1)

end Field

/-- The answers to fields from offset `i` on. -/
def fieldAnswers : ℕ → List Field → List Answer
  | _, [] => []
  | i, f :: fs => f.answer i :: fieldAnswers (i + (f.line.length + 1)) fs

/-- The offset `j` is in a name. -/
def InNames : ℕ → List Field → ℕ → Prop
  | _, [], _ => False
  | i, f :: fs, j =>
      i ≤ j ∧ j < i + f.name.length ∨ InNames (i + (f.line.length + 1)) fs j

section field

variable {f : Field} {w : List UInt8} {c : UInt8}

theorem beforeCr_optional (h : cCr ∉ w) (cr : Bool) : beforeCr (w ++ optionalCr cr) = some w := by
  induction w with
  | nil => cases cr <;> rfl
  | cons c w ih =>
      rw [List.mem_cons, not_or] at h
      rw [List.cons_append, beforeCr, if_neg (Ne.symm h.1), ih h.2]
      rfl

theorem trimmed_spaces (k n : ℕ) (w : List UInt8) :
    trimmed k (List.replicate n cSp ++ w) = trimmed (k + n) w := by
  induction n generalizing k with
  | zero => rfl
  | succ n ih =>
      rw [List.replicate_succ, List.cons_append, trimmed_space, ih, Nat.add_assoc, Nat.add_comm 1]

theorem rdropWhile_spaces (n : ℕ) (w : List UInt8) :
    (w ++ List.replicate n cSp).rdropWhile (· = cSp) = w.rdropWhile (· = cSp) := by
  induction n with
  | zero => rw [List.replicate_zero, List.append_nil]
  | succ n ih => rw [List.replicate_succ', ← List.append_assoc, rdropWhile_space, ih]

theorem Field.trimmed_padded (f : Field) (k : ℕ) :
    trimmed k f.padded = if f.value = [] then none else some (k + f.spaces, f.value.length) := by
  have hlast : f.value.rdropWhile (· = cSp) = f.value := by
    rw [List.rdropWhile_eq_self_iff]
    intro hne
    simpa using f.last_ok _ (List.getLast?_eq_getLast_of_ne_nil hne)
  unfold Field.padded
  rw [trimmed_spaces]
  split_ifs with hv
  · have := trimmed_spaces (k + f.spaces) f.spaces' []
    rw [List.append_nil] at this
    rw [hv, List.nil_append, this]
    rfl
  · obtain ⟨c, v, hcv⟩ := List.exists_cons_of_ne_nil hv
    have hc : c ≠ cSp := f.first_ok c (by rw [hcv]; rfl)
    have htrim := trimmed_other (k + f.spaces) (v ++ List.replicate f.spaces' cSp) hc
    rw [← List.cons_append, ← hcv, rdropWhile_spaces, hlast] at htrim
    exact htrim

theorem Field.name_take (f : Field) : f.line.takeWhile nameByte = f.name ∧
    f.line.dropWhile nameByte = cColon :: (f.padded ++ optionalCr f.cr) := by
  have hcol : ¬ nameByte cColon = true := by decide
  constructor
  · rw [Field.line, List.takeWhile_append_of_pos f.name_ok, List.takeWhile_cons_of_neg hcol,
      List.append_nil]
  · rw [Field.line, List.dropWhile_append_of_pos f.name_ok, List.dropWhile_cons_of_neg hcol]

theorem Field.mem_line (hc : c ∈ f.line) :
    nameByte c = true ∨ c = cColon ∨ c = cSp ∨ c ∈ f.value ∨ c = cCr := by
  have hcr : c ∈ optionalCr f.cr → c = cCr := by
    unfold optionalCr
    split <;> simp
  have hsp : ∀ n, c ∈ List.replicate n cSp → c = cSp := fun n hm => List.eq_of_mem_replicate hm
  unfold Field.line Field.padded at hc
  simp only [List.mem_append, List.mem_cons] at hc
  rcases hc with hc | hc | (hc | hc | hc) | hc
  · exact .inl (f.name_ok c hc)
  · exact .inr (.inl hc)
  · exact .inr (.inr (.inl (hsp _ hc)))
  · exact .inr (.inr (.inr (.inl hc)))
  · exact .inr (.inr (.inl (hsp _ hc)))
  · exact .inr (.inr (.inr (.inr (hcr hc))))

theorem Field.line_noLf (f : Field) : cLf ∉ f.line := by
  intro h
  rcases Field.mem_line h with h | h | h | h | h
  · exact absurd h (by decide)
  · exact absurd h (by decide)
  · exact absurd h (by decide)
  · exact (f.value_ok _ h).2 rfl
  · exact absurd h (by decide)

theorem Field.line_notBare (f : Field) : ¬ BareName f.line := fun h =>
  absurd (h.2 cColon (by simp [Field.line])) (by decide)

theorem Field.line_notEmpty (f : Field) : ¬ EmptyLine f.line := by
  have hname := f.name_take.1
  rintro (h | h) <;> rw [h] at hname <;> exact f.name_ne hname.symm

theorem Field.padded_noCr (f : Field) : cCr ∉ f.padded := by
  have hsp : ∀ n, cCr ∉ List.replicate n cSp := fun n hm =>
    absurd (List.eq_of_mem_replicate hm) (by decide)
  unfold Field.padded
  simp only [List.mem_append, not_or]
  exact ⟨hsp _, fun hm => (f.value_ok _ hm).1 rfl, hsp _⟩

theorem Field.report (f : Field) : lineReport f.line = .field f.name.length
    (if f.value = [] then none else some (f.name.length + 1 + f.spaces, f.value.length)) := by
  unfold lineReport
  rw [if_neg f.line_notEmpty, f.name_take.1, f.name_take.2, if_neg f.name_ne, restReport, if_pos rfl,
    beforeCr_optional f.padded_noCr, ← f.trimmed_padded]

theorem Field.value_take (f : Field) :
    (f.line.drop (f.name.length + 1 + f.spaces)).take f.value.length = f.value := by
  have hline : f.line = (f.name ++ cColon :: List.replicate f.spaces cSp) ++
      (f.value ++ (List.replicate f.spaces' cSp ++ optionalCr f.cr)) := by
    simp [Field.line, Field.padded]
  rw [hline, List.drop_left' (by simp; omega), List.take_left]

/-- The answers to serialised fields. -/
theorem blockAnswers_fields (i : ℕ) (fs : List Field) (rest : List (List UInt8)) :
    blockAnswers i (fs.map Field.line ++ rest) =
      fieldAnswers i fs ++ blockAnswers (i + (blockText (fs.map Field.line)).length) rest := by
  induction fs generalizing i with
  | nil => rfl
  | cons f fs ih =>
      have hpos : i + (blockText ((f :: fs).map Field.line)).length =
          i + (f.line.length + 1) + (blockText (fs.map Field.line)).length := by
        rw [List.map_cons, blockText_length_cons]
        omega
      rw [hpos, List.map_cons, List.cons_append, blockAnswers, f.report, fieldAnswers, List.cons_append,
        ← ih]
      dsimp only
      congr 1
      unfold Field.answer
      rw [Answer.mk.injEq]
      refine ⟨rfl, rfl, ?_, ?_, ?_, rfl⟩
      · rw [Field.line, List.take_left]
      · split_ifs <;> rfl
      · split_ifs with hv
        · exact hv.symm
        · exact f.value_take

/-- The bytes outside of the names. -/
theorem blockBuffer_fields (b : Buffer) (i : ℕ) (fs : List Field) {rest : List (List UInt8)}
    (hrest : ∀ l ∈ rest.head?, EmptyLine l) {j : ℕ} (hj : ¬ InNames i fs j) :
    (blockBuffer b i (fs.map Field.line ++ rest)).mem j = b.mem j := by
  induction fs generalizing b i with
  | nil =>
      cases rest with
      | nil => rfl
      | cons l ls => rw [List.map_nil, List.nil_append, blockBuffer, if_pos (hrest l rfl)]
  | cons f fs ih =>
      rw [InNames, not_or] at hj
      rw [List.map_cons, List.cons_append, blockBuffer, if_neg f.line_notEmpty, ih _ _ hj.2,
        Buffer.lowerName_mem, nameLength, f.name_take.1, if_neg hj.1]

end field

/-- **Round trip**: the calls on serialised fields and the empty line behind them answer `OK` for
each field, with its name rewritten and its value, and then `EMPTY_LINE`; the names are the only
bytes of the buffer that they change. -/
theorem headers_roundTrip {r : Request} (hs : r.state = .hlBegin) (hr : r.rb.begin = r.rb.end_)
    (fs : List Field) (cr : Bool) :
    (allCalls (r.received (fs.map Field.line ++ [optionalCr cr]))).map answer =
        fieldAnswers r.rb.end_ fs ++
          [.plain .emptyLine (r.received (fs.map Field.line ++ [optionalCr cr])).rb.end_] ∧
      ∀ p ∈ (allCalls (r.received (fs.map Field.line ++ [optionalCr cr]))).getLast?,
        ∀ j, ¬ InNames r.rb.end_ fs j →
          p.2.rb.mem j = (r.received (fs.map Field.line ++ [optionalCr cr])).rb.mem j := by
  have hempty : EmptyLine (optionalCr cr) := by
    cases cr
    · exact .inl rfl
    · exact .inr rfl
  have hlf : ∀ l ∈ fs.map Field.line ++ [optionalCr cr], cLf ∉ l := by
    rw [List.forall_mem_append]
    refine ⟨fun l hl => ?_, fun l hl => ?_⟩
    · obtain ⟨f, -, rfl⟩ := List.mem_map.mp hl
      exact f.line_noLf
    · rw [List.mem_singleton.mp hl]
      cases cr <;> decide
  have hgood : ∀ l ∈ beforeEmpty (fs.map Field.line ++ [optionalCr cr]), ¬ BareName l := by
    intro l hl
    rcases List.mem_append.mp ((List.takeWhile_prefix _).subset hl) with hl | hl
    · obtain ⟨f, -, rfl⟩ := List.mem_map.mp hl
      exact f.line_notBare
    · rw [List.mem_singleton.mp hl]
      exact hempty.not_bare
  have hrest : ∀ l ∈ [optionalCr cr].head?, EmptyLine l := by
    rintro l ⟨⟩
    exact hempty
  obtain ⟨hanswers, hlast⟩ := allCalls_framed hs hr hlf hgood
  refine ⟨?_, fun p hp j hj => ?_⟩
  · have hend : (r.received (fs.map Field.line ++ [optionalCr cr])).rb.end_ =
        r.rb.end_ + (blockText (fs.map Field.line)).length + ((optionalCr cr).length + 1) := by
      simp [Request.received, blockText, Nat.add_assoc]
    rw [hanswers, blockAnswers_fields, blockAnswers, lineReport_empty_iff.mpr hempty, hend]
  · rw [(hlast p hp).2]
    exact blockBuffer_fields _ _ fs hrest hj

/-- `Content-Length:  12` with a `CR`. -/
def lengthField : Field where
  name := bytes "Content-Length"
  value := bytes "12"
  spaces := 2
  spaces' := 0
  cr := true
  name_ne := by decide
  name_ok := List.all_eq_true.mp (by decide)
  value_ok := by simp [show bytes "12" = [49, 50] by decide, cCr, cLf]
  first_ok := by simp [show bytes "12" = [49, 50] by decide, cSp]
  last_ok := by simp [show bytes "12" = [49, 50] by decide, cSp]

theorem headers_roundTrip_length :
    (allCalls (atHeaders.received [bytes "Content-Length:  12\r", []])).map answer =
      [⟨.ok, ⟨.rb 0, 14⟩, bytes "content_length", ⟨.rb 17, 2⟩, bytes "12", 21⟩, .plain .emptyLine 22] :=
  (headers_roundTrip (r := atHeaders) rfl rfl [lengthField] false).1

end SyServer
