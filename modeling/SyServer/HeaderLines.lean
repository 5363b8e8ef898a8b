import Mathlib.Data.List.DropRight
import SyServer.ParseSpec

/-! # What a header line says

`sy_parse_header_line` over the bytes of one line.  `lineReport` says what a line is, from its own
bytes: a field, the empty line, or nothing.  `HeaderLine` says what the loop makes of the bytes of
a line from `HL_S_BEGIN` on: it stops at the line feed and reports, or it goes on behind it in
`HL_S_BEGIN` again.

* `Buffer.Holds`, `Buffer.lowerName`: the bytes in the read buffer, and the name rewritten in place.
* `headerLine_*`: one lemma for each state, about the rest of the line.
* `headerLine_begin`: the loop does what `lineReport` says, unless the line is a name and nothing
  else (`headerLine_bare`: that one is left in `HL_S_IGNORE`). -/

namespace SyServer

open Scan

/-! ### Bytes in the read buffer -/

namespace Buffer

/-- The bytes `x` stand at offset `i`. -/
def Holds (b : Buffer) : ℕ → List UInt8 → Prop
  | _, [] => True
  | i, c :: x => b.mem i = c ∧ b.Holds (i + 1) x

theorem Holds.congr {b b' : Buffer} {i : ℕ} {x : List UInt8} (h : b.Holds i x)
    (hb : ∀ j, i ≤ j → b'.mem j = b.mem j) : b'.Holds i x := by
  induction x generalizing i with
  | nil => trivial
  | cons c x ih => exact ⟨(hb i le_rfl).trans h.1, ih h.2 fun j hj => hb j (by omega)⟩

theorem holds_append {b : Buffer} {i : ℕ} {x y : List UInt8} :
    b.Holds i (x ++ y) ↔ b.Holds i x ∧ b.Holds (i + x.length) y := by
  induction x generalizing i with
  | nil => simp [Holds]
  | cons c x ih =>
      simp only [List.cons_append, Holds, ih, and_assoc, List.length_cons]
      rw [Nat.add_assoc, Nat.add_comm 1]

theorem holds_put (b : Buffer) (d : List UInt8) : (b.put d).Holds b.end_ d := by
  suffices h : ∀ x k, (∀ j (hj : j < x.length), (b.put d).mem (k + j) = x[j]) → (b.put d).Holds k x by
    exact h d b.end_ fun j hj => b.put_mem_ge d j hj
  intro x
  induction x with
  | nil => exact fun _ _ => trivial
  | cons c x ih =>
      intro k hk
      refine ⟨hk 0 (Nat.succ_pos _), ih (k + 1) fun j hj => ?_⟩
      have := hk (j + 1) (Nat.succ_lt_succ hj)
      rwa [Nat.add_assoc, Nat.add_comm 1]

/-- The bytes held are those of the slice. -/
theorem Holds.slice_eq {b : Buffer} {i : ℕ} {x : List UInt8} (h : b.Holds i x) :
    b.slice i (i + x.length) = x := by
  induction x generalizing i with
  | nil => simp
  | cons c x ih =>
      have hone : b.slice i (i + 1) = [c] := by
        simp [slice, h.1]
      rw [← slice_append b (j := i + 1) (by omega) (by simp only [List.length_cons]; omega), hone,
        List.length_cons, Nat.add_comm x.length, ← Nat.add_assoc, ih h.2]
      rfl

end Buffer

/-- The bytes of a header name: letters, digits, `-`. -/
def nameByte (c : UInt8) : Bool := isUpper c || isDigit c || isLower c || c = cDash

/-- What the parser makes of a byte of a name. -/
def lowered (c : UInt8) : UInt8 :=
  if isUpper c then toLower c else if c = cDash then toUnderscore c else c

/-- The `n` bytes from `i` on, rewritten. -/
def Buffer.lowerName (b : Buffer) (i n : ℕ) : Buffer :=
  { b with mem := fun j => if i ≤ j ∧ j < i + n then lowered (b.mem j) else b.mem j }

namespace Buffer

variable {b : Buffer} {i j n : ℕ}

@[simp] theorem lowerName_end : (b.lowerName i n).end_ = b.end_ := rfl

theorem lowerName_mem : (b.lowerName i n).mem j =
    if i ≤ j ∧ j < i + n then lowered (b.mem j) else b.mem j := rfl

@[simp] theorem lowerName_zero : b.lowerName i 0 = b := by
  have : (b.lowerName i 0).mem = b.mem := by
    funext j
    rw [lowerName_mem, if_neg (by omega)]
  exact congrArg (fun m => { b with mem := m }) this

theorem lowerName_succ : (b.lowerName i 1).lowerName (i + 1) n = b.lowerName i (n + 1) := by
  have : ((b.lowerName i 1).lowerName (i + 1) n).mem = (b.lowerName i (n + 1)).mem := by
    funext j
    simp only [lowerName_mem]
    split_ifs <;> first | rfl | omega
  exact congrArg (fun m => { b with mem := m }) this

/-- One byte of a name, as the source writes it. -/
theorem write_lowered {c : UInt8} (h : lowered (b.mem i) = c) : b.write i c = b.lowerName i 1 := by
  have : Function.update b.mem i c = (b.lowerName i 1).mem := by
    funext j
    rw [lowerName_mem, Function.update_apply]
    by_cases hj : j = i
    · rw [if_pos hj, if_pos (by omega), hj, h]
    · rw [if_neg hj, if_neg (by omega)]
  exact congrArg (fun m => { b with mem := m }) this

theorem lowerName_one (h : lowered (b.mem i) = b.mem i) : b.lowerName i 1 = b := by
  rw [← write_lowered h]
  unfold write
  rw [Function.update_eq_self]

end Buffer

/-! ### The report of a line -/

/-- The bytes in front of a line end `CR`; none if a `CR` stands elsewhere. -/
def beforeCr : List UInt8 → Option (List UInt8)
  | [] => some []
  | c :: v => if c = cCr then (if v = [] then some [] else none) else (beforeCr v).map (c :: ·)

/-- A value without the spaces around it: its offset and its length, for the bytes `w` at `k`. -/
def trimmed (k : ℕ) (w : List UInt8) : Option (ℕ × ℕ) :=
  match w.dropWhile (· = cSp) with
  | [] => none
  | c :: v => some (k + (w.length - (v.length + 1)), ((c :: v).rdropWhile (· = cSp)).length)

/-- What a line is: the empty line, nothing, or a field, whose name has a length and whose value
has an offset in the line and a length. -/
inductive Report where
  | empty
  | skip
  | field (name : ℕ) (value : Option (ℕ × ℕ))
deriving DecidableEq, Repr

/-- The empty line, with its `CR` if it has one. -/
def EmptyLine (l : List UInt8) : Prop := l = [] ∨ l = [cCr]

instance (l : List UInt8) : Decidable (EmptyLine l) := inferInstanceAs (Decidable (_ ∨ _))

/-- A name and nothing else. -/
def BareName (l : List UInt8) : Prop := l ≠ [] ∧ ∀ c ∈ l, nameByte c = true

instance (l : List UInt8) : Decidable (BareName l) := inferInstanceAs (Decidable (_ ∧ _))

/-- What follows the name. -/
def restReport (name : ℕ) : List UInt8 → Report
  | [] => .skip
  | c :: v =>
      if c = cColon then
        match beforeCr v with
        | some w => .field name (trimmed (name + 1) w)
        | none => .skip
      else if c = cCr ∧ v = [] then .field 0 none
      else .skip

/-- What a line says. -/
def lineReport (l : List UInt8) : Report :=
  if EmptyLine l then .empty
  else if (l.takeWhile nameByte) = [] then .skip
  else restReport (l.takeWhile nameByte).length (l.dropWhile nameByte)

/-- The slice of a value in a line at offset `i`. -/
def valueStr (i : ℕ) : Option (ℕ × ℕ) → Str
  | none => Str.init
  | some (k, n) => ⟨.rb (i + k), n⟩

/-- The two slices that a line at offset `i` leaves when it stops the loop. -/
def Report.strs (i : ℕ) : Report → Option (Str × Str)
  | empty => some (Str.init, Str.init)
  | skip => none
  | field n v => some (⟨.rb i, n⟩, valueStr i v)

/-! ### The loop over a line -/

/-- What the header loop changes. -/
def Request.onLine (r : Request) (b : Buffer) (nm v : Str) (s : PState) : Request :=
  { r with rb := b, headerName := nm, headerValue := v, state := s }

/-- The loop in `q` over the `n` bytes from `i` on: it stops at the last of them, with these
slices, or it goes on behind it in `HL_S_BEGIN`; the buffer is then `b`. -/
def HeaderLine (r q : Request) (i n : ℕ) (b : Buffer) : Option (Str × Str) → Prop
  | some (nm, v) => ∃ s, scan headerLineByte n i q = .stop (.done (i + n - 1) (r.onLine b nm v s))
  | none => ∃ nm v, scan headerLineByte n i q = .more (r.onLine b nm v .hlBegin)

section line

variable {r q q' : Request} {i n : ℕ} {b b' : Buffer} {x v w : List UInt8} {e : Option (Str × Str)}
  {t u : Str}

/-- One byte before the end of the line. -/
theorem HeaderLine.cons (hb : headerLineByte i q = .more q') (h : HeaderLine r q' (i + 1) n b e) :
    HeaderLine r q i (n + 1) b e := by
  cases e with
  | none =>
      obtain ⟨t, v, h⟩ := h
      exact ⟨t, v, by rw [scan_succ, hb]; exact h⟩
  | some p =>
      obtain ⟨s, h⟩ := h
      refine ⟨s, ?_⟩
      rw [scan_succ, hb, show i + (n + 1) - 1 = i + 1 + n - 1 by omega]
      exact h

/-- The line feed, where it ends the call. -/
theorem HeaderLine.stop {s : PState} (hb : headerLineByte i q = .stop (.done i (r.onLine b t u s))) :
    HeaderLine r q i 1 b (some (t, u)) :=
  ⟨s, by rw [scan_one, hb]; rfl⟩

theorem headerLine_ignore (hx : b.Holds i (x ++ [cLf])) (hlf : cLf ∉ x) :
    HeaderLine r (r.onLine b t u .hlIgnore) i (x.length + 1) b none := by
  induction x generalizing i with
  | nil =>
      refine ⟨t, u, ?_⟩
      rw [List.length_nil, scan_one]
      exact if_pos hx.1
  | cons c x ih =>
      obtain ⟨rfl, hx'⟩ := hx
      rw [List.mem_cons, not_or] at hlf
      exact HeaderLine.cons (if_neg (Ne.symm hlf.1)) (ih hx' hlf.2)

theorem headerLine_almostDone (hx : b.Holds i (x ++ [cLf])) (hlf : cLf ∉ x) :
    HeaderLine r (r.onLine b t u .hlAlmostDone) i (x.length + 1) b
      (if x = [] then some (t, u) else none) := by
  cases x with
  | nil => exact HeaderLine.stop (s := .hlAlmostDone) (if_pos hx.1)
  | cons c x =>
      obtain ⟨rfl, hx'⟩ := hx
      rw [List.mem_cons, not_or] at hlf
      rw [if_neg (List.cons_ne_nil _ _)]
      exact HeaderLine.cons (if_neg (Ne.symm hlf.1)) (headerLine_ignore hx' hlf.2)

/-! ### The value -/

/-- What is known of a value that began at `j`, when its bytes `x` have been read. -/
def ValueSeen (x : List UInt8) (len : ℤ) (s : PState) : Prop :=
  s = .hlValue ∧ x.rdropWhile (· = cSp) = x ∨
    s = .hlSpAfterValue ∧ len = (x.rdropWhile (· = cSp)).length

theorem rdropWhile_space (x : List UInt8) :
    (x ++ [cSp]).rdropWhile (· = cSp) = x.rdropWhile (· = cSp) := by
  rw [List.rdropWhile_concat_pos]
  rfl

theorem rdropWhile_other (x : List UInt8) {c : UInt8} (hc : c ≠ cSp) :
    (x ++ [c]).rdropWhile (· = cSp) = x ++ [c] := by
  rw [List.rdropWhile_concat_neg]
  simpa using hc

/-- One byte of a value, or the `CR` behind it. -/
theorem headerByte_value {j : ℕ} {len : ℤ} {s : PState} {c : UInt8} (hs : ValueSeen x len s)
    (hb : b.mem (j + x.length) = c) (hlf : c ≠ cLf) :
    ∃ len' s', headerLineByte (j + x.length) (r.onLine b t ⟨.rb j, len⟩ s) =
        .more (r.onLine b t ⟨.rb j, len'⟩ s') ∧
      (c = cCr → s' = .hlAlmostDone ∧ len' = (x.rdropWhile (· = cSp)).length) ∧
        (c ≠ cCr → ValueSeen (x ++ [c]) len' s') := by
  have hdiff : ptrDiff b.addr (j + x.length) (.rb j) = (x.length : ℤ) := by
    simp [ptrDiff]
  rcases hs with ⟨rfl, hx⟩ | ⟨rfl, hlen⟩
  · by_cases hsp : c = cSp
    · refine ⟨x.length, .hlSpAfterValue, ?_, fun hcr => absurd (hsp.symm.trans hcr) (by decide),
        fun _ => .inr ⟨rfl, ?_⟩⟩
      · simp [headerLineByte, Request.onLine, endHeaderValue, hb, hsp, hdiff]
      · rw [hsp, rdropWhile_space, hx]
    · by_cases hcr : c = cCr
      · refine ⟨x.length, .hlAlmostDone, ?_, fun _ => ⟨rfl, by rw [hx]⟩, fun h => absurd hcr h⟩
        simp [headerLineByte, Request.onLine, endHeaderValue, hb, hcr, hdiff]
      · refine ⟨len, .hlValue, ?_, fun h => absurd h hcr, fun _ => .inl ⟨rfl, rdropWhile_other x hsp⟩⟩
        simp only [cSp, cCr, cLf] at hsp hcr hlf
        simp [headerLineByte, Request.onLine, hb, hsp, hcr, hlf]
  · by_cases hsp : c = cSp
    · refine ⟨len, .hlSpAfterValue, ?_, fun hcr => absurd (hsp.symm.trans hcr) (by decide),
        fun _ => .inr ⟨rfl, ?_⟩⟩
      · simp [headerLineByte, Request.onLine, hb, hsp]
      · rw [hsp, rdropWhile_space, hlen]
    · by_cases hcr : c = cCr
      · refine ⟨len, .hlAlmostDone, ?_, fun _ => ⟨rfl, hlen⟩, fun h => absurd hcr h⟩
        simp [headerLineByte, Request.onLine, hb, hcr]
      · refine ⟨len, .hlValue, ?_, fun h => absurd h hcr, fun _ => .inl ⟨rfl, rdropWhile_other x hsp⟩⟩
        simp only [cSp, cCr, cLf] at hsp hcr hlf
        simp [headerLineByte, Request.onLine, hb, hsp, hcr, hlf]

/-- The rest of a value. -/
theorem headerLine_value {j : ℕ} {len : ℤ} {s : PState} (hs : ValueSeen x len s)
    (hv : b.Holds (j + x.length) (v ++ [cLf])) (hlf : cLf ∉ v) :
    HeaderLine r (r.onLine b t ⟨.rb j, len⟩ s) (j + x.length) (v.length + 1) b
      ((beforeCr v).map fun w => (t, ⟨.rb j, ((x ++ w).rdropWhile (· = cSp)).length⟩)) := by
  induction v generalizing x len s with
  | nil =>
      obtain ⟨hb, -⟩ := hv
      have hdiff : ptrDiff b.addr (j + x.length) (.rb j) = (x.length : ℤ) := by
        simp [ptrDiff]
      refine HeaderLine.stop (s := s) ?_
      rw [List.append_nil]
      rcases hs with ⟨rfl, hx⟩ | ⟨rfl, hlen⟩
      · rw [hx]
        simp [headerLineByte, Request.onLine, endHeaderValue, hb, hdiff]
      · rw [← hlen]
        simp [headerLineByte, Request.onLine, hb]
  | cons c v ih =>
      obtain ⟨hb, hv'⟩ := hv
      rw [List.mem_cons, not_or] at hlf
      obtain ⟨len', s', hstep, hcr, hother⟩ := headerByte_value (r := r) (t := t) hs hb (Ne.symm hlf.1)
      refine HeaderLine.cons hstep ?_
      by_cases hc : c = cCr
      · obtain ⟨rfl, rfl⟩ := hcr hc
        have hend := headerLine_almostDone (r := r) (t := t)
          (u := ⟨.rb j, (x.rdropWhile (· = cSp)).length⟩) hv' hlf.2
        rw [beforeCr, if_pos hc]
        split_ifs with hnil
        · rw [if_pos hnil] at hend
          simpa using hend
        · rw [if_neg hnil] at hend
          exact hend
      · have hnext := ih (hother hc) (by simpa [Nat.add_assoc] using hv') hlf.2
        rw [beforeCr, if_neg hc, Option.map_map]
        simpa [Function.comp_def, Nat.add_assoc] using hnext

/-! ### Behind the colon -/

theorem valueStr_trimmed (i k : ℕ) (w : List UInt8) :
    valueStr i (trimmed k w) = valueStr 0 (trimmed (i + k) w) := by
  unfold trimmed
  cases w.dropWhile (· = cSp) with
  | nil => rfl
  | cons c v => simp [valueStr, Nat.add_assoc]

theorem trimmed_space (k : ℕ) (w : List UInt8) : trimmed k (cSp :: w) = trimmed (k + 1) w := by
  have hle := (List.dropWhile_suffix (p := fun c => decide (c = cSp)) (l := w)).length_le
  unfold trimmed
  rw [List.dropWhile_cons_of_pos (by decide)]
  cases hd : w.dropWhile (fun c => decide (c = cSp)) with
  | nil => rfl
  | cons c v =>
      rw [hd, List.length_cons] at hle
      dsimp only
      rw [List.length_cons, show k + (w.length + 1 - (v.length + 1)) = k + 1 + (w.length - (v.length + 1)) by omega]

theorem trimmed_other (k : ℕ) {c : UInt8} (w : List UInt8) (hc : c ≠ cSp) :
    trimmed k (c :: w) = some (k, ((c :: w).rdropWhile (· = cSp)).length) := by
  unfold trimmed
  rw [List.dropWhile_cons_of_neg (by simpa using hc)]
  simp

theorem headerLine_colon {s : PState} (hs : s = .hlColon ∨ s = .hlSpBeforeValue)
    (hv : b.Holds i (v ++ [cLf])) (hlf : cLf ∉ v) :
    HeaderLine r (r.onLine b t Str.init s) i (v.length + 1) b
      ((beforeCr v).map fun w => (t, valueStr 0 (trimmed i w))) := by
  induction v generalizing i s with
  | nil =>
      obtain ⟨hb, -⟩ := hv
      refine HeaderLine.stop (s := s) ?_
      rcases hs with rfl | rfl <;>
        simp [headerLineByte, Request.onLine, hb, trimmed, valueStr]
  | cons c v ih =>
      obtain ⟨hb, hv'⟩ := hv
      rw [List.mem_cons, not_or] at hlf
      by_cases hsp : c = cSp
      · have hstep : headerLineByte i (r.onLine b t Str.init s) =
            .more (r.onLine b t Str.init .hlSpBeforeValue) := by
          rcases hs with rfl | rfl <;> simp [headerLineByte, Request.onLine, hb, hsp]
        refine HeaderLine.cons hstep ?_
        have hnext := ih (.inr rfl) hv' hlf.2
        rw [hsp, beforeCr, if_neg (by decide), Option.map_map]
        simp only [Function.comp_def, trimmed_space]
        exact hnext
      by_cases hcr : c = cCr
      · have hstep : headerLineByte i (r.onLine b t Str.init s) =
            .more (r.onLine b t Str.init .hlAlmostDone) := by
          rcases hs with rfl | rfl <;> simp [headerLineByte, Request.onLine, hb, hcr]
        refine HeaderLine.cons hstep ?_
        have hend := headerLine_almostDone (r := r) (t := t) (u := Str.init) hv' hlf.2
        rw [beforeCr, if_pos hcr]
        split_ifs with hnil
        · rw [if_pos hnil] at hend
          exact hend
        · rw [if_neg hnil] at hend
          exact hend
      · have hstep : headerLineByte i (r.onLine b t Str.init s) =
            .more (r.onLine b t ⟨.rb i, 0⟩ .hlValue) := by
          have hlf' := hlf.1
          simp only [cSp, cCr, cLf] at hsp hcr hlf'
          rcases hs with rfl | rfl <;>
            simp [headerLineByte, Request.onLine, hb, hsp, hcr, Ne.symm hlf', Str.init]
        refine HeaderLine.cons hstep ?_
        have hseen : ValueSeen [c] 0 .hlValue := .inl ⟨rfl, rdropWhile_other [] hsp⟩
        have hrest := headerLine_value (r := r) (t := t) (j := i) hseen hv' hlf.2
        rw [beforeCr, if_neg hcr, Option.map_map]
        simpa [Function.comp_def, trimmed_other _ _ hsp, valueStr] using hrest

/-! ### The name -/

/-- Behind the name. -/
theorem headerLine_rest {j : ℕ} (hx : b.Holds i (x ++ [cLf])) (hlf : cLf ∉ x) (hne : x ≠ [])
    (hname : ∀ c ∈ x.head?, nameByte c = false) (hj : i = j + n) :
    HeaderLine r (r.onLine b ⟨.rb j, 0⟩ Str.init .hlName) i (x.length + 1) b
      ((restReport n x).strs j) := by
  cases x with
  | nil => exact absurd rfl hne
  | cons c v =>
      obtain ⟨hb, hv⟩ := hx
      rw [List.mem_cons, not_or] at hlf
      have hc : nameByte c = false := hname c rfl
      obtain ⟨hup, hdig, hlow, hdash⟩ : isUpper c = false ∧ isDigit c = false ∧ isLower c = false ∧
          c ≠ cDash := by
        simpa [nameByte, and_assoc] using hc
      have hstep : headerLineByte i (r.onLine b ⟨.rb j, 0⟩ Str.init .hlName) =
          if c = cColon then .more (r.onLine b ⟨.rb j, n⟩ Str.init .hlColon)
          else if c = cCr then .more (r.onLine b ⟨.rb j, 0⟩ Str.init .hlAlmostDone)
          else .more (r.onLine b ⟨.rb j, 0⟩ Str.init .hlIgnore) := by
        have hdiff : ptrDiff b.addr i (.rb j) = (n : ℤ) := by
          simp [ptrDiff, hj]
        simp only [cDash] at hdash
        simp [headerLineByte, Request.onLine, hb, hup, hdash, hdig, hlow, hdiff]
      unfold restReport
      dsimp only
      by_cases hcol : c = cColon
      · rw [if_pos hcol] at hstep ⊢
        refine HeaderLine.cons hstep ?_
        have hrest := headerLine_colon (r := r) (t := ⟨.rb j, n⟩) (.inl rfl) hv hlf.2
        cases hcut : beforeCr v with
        | none =>
            rw [hcut] at hrest
            exact hrest
        | some w =>
            rw [hcut] at hrest
            dsimp only [Report.strs]
            rw [valueStr_trimmed, ← Nat.add_assoc, ← hj]
            exact hrest
      · rw [if_neg hcol] at hstep ⊢
        by_cases hcr : c = cCr
        · rw [if_pos hcr] at hstep
          refine HeaderLine.cons hstep ?_
          have hend := headerLine_almostDone (r := r) (t := ⟨.rb j, 0⟩) (u := Str.init) hv hlf.2
          by_cases hnil : v = []
          · rw [if_pos hnil] at hend
            rw [if_pos ⟨hcr, hnil⟩]
            exact hend
          · rw [if_neg hnil] at hend
            rw [if_neg fun h => hnil h.2]
            exact hend
        · rw [if_neg hcr] at hstep
          rw [if_neg fun h => hcr h.1]
          exact HeaderLine.cons hstep (headerLine_ignore hv hlf.2)

/-- A scan in front of the rest of the line. -/
theorem HeaderLine.append {m : ℕ} (hb : scan headerLineByte m i q = .more q')
    (h : HeaderLine r q' (i + m) n b e) : HeaderLine r q i (m + n) b e := by
  cases e with
  | none =>
      obtain ⟨t, v, h⟩ := h
      exact ⟨t, v, by rw [scan_add, hb]; exact h⟩
  | some p =>
      obtain ⟨s, h⟩ := h
      refine ⟨s, ?_⟩
      rw [scan_add, hb, ← Nat.add_assoc]
      exact h

/-- A byte of a name in each of the two states. -/
theorem headerByte_name {c : UInt8} (hb : b.mem i = c) (hc : nameByte c = true) :
    headerLineByte i (r.onLine b t u .hlName) =
        .more (r.onLine (b.lowerName i 1) t u .hlName) ∧
      headerLineByte i (r.onLine b t u .hlBegin) =
        .more (r.onLine (b.lowerName i 1) ⟨.rb i, 0⟩ Str.init .hlName) := by
  by_cases hup : isUpper c = true
  · have hw : b.write i (toLower c) = b.lowerName i 1 :=
      Buffer.write_lowered (by rw [hb, lowered, if_pos hup])
    constructor <;> simp [headerLineByte, Request.onLine, headerNameAt, hb, hup, hw, Str.init]
  by_cases hdash : c = cDash
  · have hw : b.write i (toUnderscore c) = b.lowerName i 1 :=
      Buffer.write_lowered (by rw [hb, lowered, if_neg hup, if_pos hdash])
    simp only [cDash] at hdash
    constructor <;>
      simp [headerLineByte, Request.onLine, headerNameAt, hb, hdash, ← hw, Str.init, isUpper]
  · have hw : b.lowerName i 1 = b :=
      Buffer.lowerName_one (by rw [hb, lowered, if_neg hup, if_neg hdash])
    have hrest : isDigit c = true ∨ isLower c = true := by
      simpa [nameByte, hup, hdash] using hc
    simp only [cDash] at hdash
    constructor <;>
      simp [headerLineByte, Request.onLine, headerNameAt, hb, hup, hdash, hrest, hw, Str.init]

theorem scan_name {y : List UInt8} (hx : ∀ c ∈ x, nameByte c = true) (hb : b.Holds i (x ++ y)) :
    scan headerLineByte x.length i (r.onLine b t u .hlName) =
      .more (r.onLine (b.lowerName i x.length) t u .hlName) := by
  induction x generalizing i b with
  | nil => rw [List.length_nil, Buffer.lowerName_zero]; rfl
  | cons c x ih =>
      obtain ⟨hc, hx⟩ := List.forall_mem_cons.mp hx
      rw [List.length_cons, scan_succ, (headerByte_name hb.1 hc).1, Step.bind_more,
        ← Buffer.lowerName_succ (n := x.length)]
      refine ih hx (hb.2.congr fun j hj => ?_)
      rw [Buffer.lowerName_mem, if_neg (by omega)]

/-- The name at the begin of a line. -/
theorem scan_begin_name {y : List UInt8} (hne : x ≠ []) (hx : ∀ c ∈ x, nameByte c = true)
    (hb : b.Holds i (x ++ y)) :
    scan headerLineByte x.length i (r.onLine b t u .hlBegin) =
      .more (r.onLine (b.lowerName i x.length) ⟨.rb i, 0⟩ Str.init .hlName) := by
  cases x with
  | nil => exact absurd rfl hne
  | cons c x =>
      obtain ⟨hc, hx⟩ := List.forall_mem_cons.mp hx
      rw [List.length_cons, scan_succ, (headerByte_name hb.1 hc).2, Step.bind_more,
        ← Buffer.lowerName_succ (n := x.length)]
      refine scan_name hx (hb.2.congr fun j hj => ?_)
      rw [Buffer.lowerName_mem, if_neg (by omega)]

/-! ### A whole line -/

/-- The length of the name that a line begins with. -/
def nameLength (l : List UInt8) : ℕ := (l.takeWhile nameByte).length

/-- **A line that is a name and nothing else** leaves the parser in `HL_S_IGNORE` behind its line
feed. -/
theorem headerLine_bare {l : List UInt8} (hl : BareName l) (hb : b.Holds i (l ++ [cLf])) :
    scan headerLineByte (l.length + 1) i (r.onLine b t u .hlBegin) =
      .more (r.onLine (b.lowerName i l.length) ⟨.rb i, 0⟩ Str.init .hlIgnore) := by
  have hlf : ((b.lowerName i l.length).mem (i + l.length)) = cLf := by
    rw [Buffer.lowerName_mem, if_neg (by omega)]
    exact (Buffer.holds_append.mp hb).2.1
  rw [scan_add, scan_begin_name hl.1 hl.2 hb, Step.bind_more, scan_one]
  simp [headerLineByte, Request.onLine, hlf, isUpper, isDigit, isLower]

/-- A line without a name: it is empty, or nothing is reported of it. -/
theorem headerLine_unnamed {l : List UInt8} (hb : b.Holds i (l ++ [cLf])) (hlf : cLf ∉ l)
    (hname : l.takeWhile nameByte = []) :
    HeaderLine r (r.onLine b t u .hlBegin) i (l.length + 1) b ((lineReport l).strs i) := by
  unfold lineReport
  rw [if_pos hname]
  cases l with
  | nil =>
      refine HeaderLine.stop (s := .hlBegin) ?_
      simp [headerLineByte, Request.onLine, hb.1, isUpper, isDigit, isLower]
  | cons c v =>
      obtain ⟨hc, hv⟩ := hb
      rw [List.mem_cons, not_or] at hlf
      have hnot : nameByte c = false := by
        by_contra h
        rw [List.takeWhile_cons_of_pos (by simpa using h)] at hname
        cases hname
      obtain ⟨hup, hdig, hlow, hdash⟩ : isUpper c = false ∧ isDigit c = false ∧ isLower c = false ∧
          c ≠ cDash := by
        simpa [nameByte, and_assoc] using hnot
      have hlf' := hlf.1
      simp only [cDash, cLf] at hdash hlf'
      by_cases hcr : c = cCr
      · have hstep : headerLineByte i (r.onLine b t u .hlBegin) =
            .more (r.onLine b Str.init Str.init .hlAlmostDone) := by
          simp only [cCr] at hcr
          simp [headerLineByte, Request.onLine, hc, hcr, isUpper, isDigit, isLower]
        refine HeaderLine.cons hstep ?_
        have hend := headerLine_almostDone (r := r) (t := Str.init) (u := Str.init) hv hlf.2
        by_cases hnil : v = []
        · rw [if_pos hnil] at hend
          rw [if_pos (.inr (by rw [hcr, hnil]))]
          exact hend
        · rw [if_neg hnil] at hend
          rw [if_neg (by simp [EmptyLine, hnil])]
          exact hend
      · have hstep : headerLineByte i (r.onLine b t u .hlBegin) =
            .more (r.onLine b Str.init Str.init .hlIgnore) := by
          simp only [cCr] at hcr
          simp [headerLineByte, Request.onLine, hc, hup, hdash, hdig, hlow, hcr, Ne.symm hlf']
        rw [if_neg (by simp [EmptyLine, hcr])]
        exact HeaderLine.cons hstep (headerLine_ignore hv hlf.2)

/-- A line with a name that something follows. -/
theorem headerLine_named {l : List UInt8} (hb : b.Holds i (l ++ [cLf])) (hlf : cLf ∉ l)
    (hl : ¬ BareName l) (hname : l.takeWhile nameByte ≠ []) :
    HeaderLine r (r.onLine b t u .hlBegin) i (l.length + 1) (b.lowerName i (nameLength l))
      ((lineReport l).strs i) := by
  unfold nameLength lineReport
  have hall : ∀ c ∈ l.takeWhile nameByte, nameByte c = true := fun c hc => List.mem_takeWhile_imp hc
  have hne : l.dropWhile nameByte ≠ [] := by
    intro h
    refine hl ⟨fun h0 => hname (by rw [h0]; rfl), fun c hc => hall c ?_⟩
    rw [← List.takeWhile_append_dropWhile (p := nameByte) (l := l), h, List.append_nil] at hc
    exact hc
  have hsplit := List.takeWhile_append_dropWhile (p := nameByte) (l := l)
  have hempty : ¬ EmptyLine l := by
    rintro (rfl | rfl)
    · exact hname rfl
    · exact hname rfl
  rw [if_neg hempty, if_neg hname]
  rw [← hsplit, List.append_assoc] at hb
  have hscan := scan_begin_name (r := r) (t := t) (u := u) hname hall hb
  have hlen : l.length + 1 = (l.takeWhile nameByte).length + ((l.dropWhile nameByte).length + 1) := by
    rw [← Nat.add_assoc, ← List.length_append, hsplit]
  rw [hlen]
  refine HeaderLine.append hscan (headerLine_rest ?_ ?_ hne ?_ rfl)
  · refine (Buffer.holds_append.mp hb).2.congr fun j hj => ?_
    rw [Buffer.lowerName_mem, if_neg (by omega)]
  · exact fun hm => hlf ((List.dropWhile_suffix _).subset hm)
  · intro c hc
    have := List.head?_dropWhile_not nameByte l
    rw [Option.mem_def.mp hc] at this
    simpa using this

/-- **A line**: the parser does what its report says. -/
theorem headerLine_begin {l : List UInt8} (hb : b.Holds i (l ++ [cLf])) (hlf : cLf ∉ l)
    (hl : ¬ BareName l) :
    HeaderLine r (r.onLine b t u .hlBegin) i (l.length + 1) (b.lowerName i (nameLength l))
      ((lineReport l).strs i) := by
  by_cases hname : l.takeWhile nameByte = []
  · have hnone := headerLine_unnamed (r := r) (t := t) (u := u) hb hlf hname
    unfold nameLength
    rwa [hname, List.length_nil, Buffer.lowerName_zero]
  · exact headerLine_named hb hlf hl hname

end line

end SyServer
