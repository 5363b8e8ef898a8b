import Mathlib.Tactic

/-! # Messages of lines and a body

The head of a message is a block of lines, each with a CR and an LF behind it, and an empty line
ends it; the rest is the body.

* `readBlock_block`: the lines and the body of a message are read back as they were written.
* `readStream_messages`: so are the messages of a stream.
* `readNat_digits`: and so is a number in digits. -/

namespace Message

/-- CR and LF. -/
def eol : List UInt8 := [13, 10]

/-- The lines of a block, and the empty line that ends it. -/
def block (lines : List (List UInt8)) : List UInt8 := (lines.map (· ++ eol)).flatten ++ eol

/-- Read the lines up to an empty line, and what is behind it; `line` has been read of the first,
last byte first. -/
def readLines (line : List UInt8) : List UInt8 → Option (List (List UInt8) × List UInt8)
  | 13 :: 10 :: bs =>
      if line = [] then some ([], bs)
      else (readLines [] bs).map fun p => (line.reverse :: p.1, p.2)
  | c :: bs => readLines (c :: line) bs
  | [] => none

/-- Read a block of lines. -/
def readBlock (bs : List UInt8) : Option (List (List UInt8) × List UInt8) := readLines [] bs

variable {line l bs body : List UInt8} {lines : List (List UInt8)}

theorem readLines_eol (hline : line ≠ []) :
    readLines line (eol ++ bs) = (readLines [] bs).map fun p => (line.reverse :: p.1, p.2) := by
  show readLines line (13 :: 10 :: bs) = _
  rw [readLines, if_neg hline]

theorem readLines_cons {c : UInt8} (hc : c ≠ 13) : readLines line (c :: bs) = readLines (c :: line) bs := by
  rw [readLines]
  intro bs' h
  exact absurd h hc

/-- What is read of a line is put before the rest of it. -/
theorem readLines_append (hl : 13 ∉ l) : readLines line (l ++ bs) = readLines (l.reverse ++ line) bs := by
  induction l generalizing line with
  | nil => rfl
  | cons c l ih =>
      obtain ⟨hc, hl⟩ := not_or.mp (mt List.mem_cons.mpr hl)
      rw [List.cons_append, readLines_cons (Ne.symm hc), ih hl]
      simp

/-- **A block is read as it was written**, if no line is empty or has a CR in it. -/
theorem readBlock_block (hlines : ∀ l ∈ lines, l ≠ [] ∧ 13 ∉ l) :
    readBlock (block lines ++ body) = some (lines, body) := by
  unfold readBlock block
  induction lines with
  | nil => rfl
  | cons l lines ih =>
      obtain ⟨⟨hne, hcr⟩, hrest⟩ := List.forall_mem_cons.mp hlines
      have hread : readLines [] (l ++ (eol ++ (((lines.map (· ++ eol)).flatten ++ eol) ++ body))) =
          some (l :: lines, body) := by
        rw [readLines_append hcr, List.append_nil, readLines_eol (by simpa using hne), ih hrest]
        simp
      simpa only [List.map_cons, List.flatten_cons, List.append_assoc] using hread

/-- What is behind a block does not matter for the block. -/
theorem readLines_stable {rest : List UInt8} (h : readLines line bs = some (lines, body)) :
    readLines line (bs ++ rest) = some (lines, body ++ rest) := by
  fun_induction readLines line bs generalizing lines with
  | case1 bs =>
      cases h
      rfl
  | case2 line bs hline ih =>
      obtain ⟨p, hp, he⟩ := Option.map_eq_some_iff.mp h
      cases he
      show readLines line (13 :: 10 :: (bs ++ rest)) = _
      rw [readLines, if_neg hline, ih hp]
      rfl
  | case3 line c bs hother ih =>
      rw [List.cons_append, readLines]
      · exact ih h
      · -- an LF behind a last CR would not be part of the block
        intro bs' hc hbs
        cases bs with
        | nil => cases h
        | cons d bs =>
            rw [List.cons_append] at hbs
            exact hother bs hc (by rw [(List.cons.inj hbs).1])
  | case4 line => cases h

/-! ### Streams -/

/-- Read `k` messages off a stream, and what is behind them; `read` says how long the body of the first
message is, and what is behind its head. -/
def readStream (read : List UInt8 → Option (ℕ × List UInt8)) :
    ℕ → List UInt8 → Option (List (List UInt8) × List UInt8)
  | 0, bs => some ([], bs)
  | k + 1, bs =>
      (read bs).bind fun p =>
        if p.1 ≤ p.2.length then
          (readStream read k (p.2.drop p.1)).map fun q => (p.2.take p.1 :: q.1, q.2)
        else none

/-- **Messages are read back one by one**, if each is read the same way whatever follows it. -/
theorem readStream_messages {read : List UInt8 → Option (ℕ × List UInt8)} {ms bodies : List (List UInt8)}
    (h : List.Forall₂ (fun m b => ∀ rest, read (m ++ rest) = some (b.length, b ++ rest)) ms bodies)
    (tail : List UInt8) : readStream read ms.length (ms.flatten ++ tail) = some (bodies, tail) := by
  induction h with
  | nil => rfl
  | cons hm _ ih =>
      rw [List.length_cons, readStream, List.flatten_cons, List.append_assoc, hm, Option.bind_some,
        if_pos (by simp), List.drop_left, List.take_left, ih]
      rfl

/-! ### Numbers -/

/-- The value of a byte that is a digit. -/
def digit (c : UInt8) : Option ℕ := if 48 ≤ c.toNat ∧ c.toNat ≤ 57 then some (c.toNat - 48) else none

/-- Read digits behind a number. -/
def readDigits (n : ℕ) : List UInt8 → Option ℕ
  | [] => some n
  | c :: bs => (digit c).bind fun d => readDigits (10 * n + d) bs

/-- Read a number in digits. -/
def readNat : List UInt8 → Option ℕ
  | [] => none
  | bs => readDigits 0 bs

theorem digit_char {c : Char} (hc : c.isDigit = true) : digit c.toUInt8 = some (c.toNat - 48) := by
  have hrange : 48 ≤ c.toNat ∧ c.toNat ≤ 57 := by
    have := hc
    unfold Char.isDigit at this
    rw [Bool.and_eq_true, decide_eq_true_eq, decide_eq_true_eq] at this
    exact ⟨UInt32.le_iff_toNat_le.mp this.1, UInt32.le_iff_toNat_le.mp this.2⟩
  have hbyte : c.toUInt8.toNat = c.toNat := by
    show c.val.toUInt8.toNat = c.val.toNat
    rw [UInt32.toNat_toUInt8]
    exact Nat.mod_eq_of_lt (by have : c.val.toNat ≤ 57 := hrange.2; omega)
  unfold digit
  rw [hbyte, if_pos hrange]

theorem readDigits_chars {cs : List Char} (hcs : ∀ c ∈ cs, c.isDigit = true) (n : ℕ) :
    readDigits n (cs.map Char.toUInt8) = some (Nat.ofDigitChars 10 cs n) := by
  induction cs generalizing n with
  | nil => rw [Nat.ofDigitChars_nil]; rfl
  | cons c cs ih =>
      obtain ⟨hc, hcs⟩ := List.forall_mem_cons.mp hcs
      rw [List.map_cons, readDigits, digit_char hc, Option.bind_some, ih hcs, Nat.ofDigitChars_cons]
      rfl

/-- **A number is read as it was written.** -/
theorem readNat_digits (n : ℕ) : readNat ((Nat.toDigits 10 n).map Char.toUInt8) = some n := by
  have hread := readDigits_chars
    (fun c hc => Nat.isDigit_of_mem_toDigits (b := 10) (n := n) (by decide) (by decide) hc) 0
  rw [Nat.ofDigitChars_toDigits (by decide) (by decide)] at hread
  cases hd : (Nat.toDigits 10 n).map Char.toUInt8 with
  | nil =>
      have hlen := congrArg List.length hd
      rw [List.length_map, List.length_nil] at hlen
      have := Nat.length_toDigits_pos (b := 10) (n := n)
      omega
  | cons c bs =>
      rw [hd] at hread
      exact hread

/-- What is no digit is not among the digits of a number. -/
theorem not_mem_digits {b : UInt8} (hb : digit b = none) (n : ℕ) :
    b ∉ (Nat.toDigits 10 n).map Char.toUInt8 := by
  intro hmem
  obtain ⟨c, hc, rfl⟩ := List.mem_map.mp hmem
  have hdigit := digit_char (Nat.isDigit_of_mem_toDigits (by decide) (by decide) hc)
  rw [hb] at hdigit
  cases hdigit

end Message
