import SyServer.Lib.Message
import SyServer.Texts

/-! # One response, as a client reads it

`readResponse` reads a status line, a block of header lines with one `Content-Length`, and a body.
Both responses that the server makes are read so, the local one with an empty body behind its head
(`readResponse_local`), an error page with as many bytes as its length says (`readResponse_page`). -/

namespace SyServer

open Message (eol block readBlock readNat readBlock_block)

/-- The name of the header with the length of the body. -/
def lengthKey : List UInt8 := bytes "Content-Length: "

/-- The `Content-Length` of one response, and what is behind its head. -/
def readResponse (bs : List UInt8) : Option (ℕ × List UInt8) :=
  match readBlock bs with
  | some (status :: fields, body) =>
      if (bytes "HTTP/1.").isPrefixOf status then
        match fields.filter (lengthKey.isPrefixOf ·) with
        | [field] => (readNat (field.drop lengthKey.length)).map fun n => (n, body)
        | _ => none
      else none
  | _ => none

/-- A line that `strftime` makes of `"Date: %a, %d %b %Y %H:%M:%S GMT" CRLF` in the C locale. -/
def DateLine (d : List UInt8) : Prop :=
  d.length = DATE_LENGTH ∧ (bytes "Date: ").isPrefixOf d = true ∧ 13 ∉ d.take (DATE_LENGTH - 2) ∧
    d.drop (DATE_LENGTH - 2) = eol

instance (d : List UInt8) : Decidable (DateLine d) := inferInstanceAs (Decidable (_ ∧ _ ∧ _ ∧ _))

/-- A line of a head: it is not empty, and has no CR. -/
def HeadLine (l : List UInt8) : Prop := l ≠ [] ∧ 13 ∉ l

instance (l : List UInt8) : Decidable (HeadLine l) := inferInstanceAs (Decidable (_ ∧ _))

section lines

variable {s t : String} {l : List UInt8} {n : ℕ}

theorem bytes_append (s t : String) : bytes (s ++ t) = bytes s ++ bytes t := by
  unfold bytes
  rw [String.toList_append, List.map_append]

theorem bytes_line (s : String) : bytes (s ++ CRLF) = bytes s ++ eol := bytes_append s CRLF

theorem HeadLine.append (hs : HeadLine (bytes s)) (hl : 13 ∉ l) : HeadLine (bytes s ++ l) :=
  ⟨fun h => hs.1 (List.append_eq_nil_iff.mp h).1, fun h => (List.mem_append.mp h).elim hs.2 hl⟩

/-- The digits of a number. -/
def digits (n : ℕ) : List UInt8 := (Nat.toDigits 10 n).map Char.toUInt8

theorem bytes_repr (n : ℕ) : bytes n.repr = digits n := by
  show n.repr.toList.map Char.toUInt8 = _
  rw [Nat.toList_repr]
  rfl

theorem contentLengthLine_eq (z : ℤ) : contentLengthLine z = lengthKey ++ bytes (toString z) ++ eol := by
  unfold contentLengthLine lengthKey
  rw [bytes_append, bytes_append]
  rfl

theorem contentLengthLine_nat (n : ℕ) : contentLengthLine n = lengthKey ++ digits n ++ eol := by
  rw [contentLengthLine_eq, show bytes (toString (n : ℤ)) = digits n from bytes_repr n]

theorem DateLine.eq (h : DateLine l) : l = l.take (DATE_LENGTH - 2) ++ eol := by
  rw [← h.2.2.2, List.take_append_drop]

theorem DateLine.length (h : DateLine l) : l.length ≤ DATE_LENGTH := h.1.le

/-- The line without its end begins with its name. -/
theorem DateLine.take (h : DateLine l) : ∃ t, l.take (DATE_LENGTH - 2) = bytes "Date: " ++ t := by
  obtain ⟨t, ht⟩ := List.isPrefixOf_iff_prefix.mp h.2.1
  refine ⟨t.take (DATE_LENGTH - 2 - (bytes "Date: ").length), ?_⟩
  rw [← ht, List.take_append, List.take_of_length_le (by decide)]

theorem readResponse_block {status body : List UInt8} {fields : List (List UInt8)}
    (hhttp : (bytes "HTTP/1.").isPrefixOf status = true) (hlines : ∀ l ∈ status :: fields, HeadLine l)
    (hlength : fields.filter (lengthKey.isPrefixOf ·) = [lengthKey ++ digits n]) :
    readResponse (block (status :: fields) ++ body) = some (n, body) := by
  unfold readResponse
  rw [readBlock_block hlines]
  dsimp only
  rw [if_pos hhttp, hlength]
  dsimp only
  rw [List.drop_left, show readNat (digits n) = some n from Message.readNat_digits n]
  rfl

end lines

/-! ### The two responses -/

/-- The status line. -/
def statusLine (minor status : ℕ) : List UInt8 :=
  bytes (if minor = 1 then "HTTP/1.1 " else "HTTP/1.0 ") ++ statusText status

theorem statusText_cr (status : ℕ) : 13 ∉ statusText status := by
  unfold statusText statusRepr
  split
  · rename_i h
    split at h <;> cases h <;> decide
  · simp

theorem statusLine_head (minor status : ℕ) :
    (bytes "HTTP/1.").isPrefixOf (statusLine minor status) = true ∧ HeadLine (statusLine minor status) := by
  unfold statusLine
  split_ifs
  · exact ⟨rfl, .append (by decide) (statusText_cr status)⟩
  · exact ⟨rfl, .append (by decide) (statusText_cr status)⟩

theorem contentType_cr (r : Request) : 13 ∉ contentType r := by
  unfold contentType
  cases h : mimeFound r.mem r.uri.extension with
  | none => decide
  | some v =>
      obtain ⟨i, -, rfl⟩ := Option.map_eq_some_iff.mp h
      have hvalues : ∀ t ∈ ([] : List UInt8) :: (tablePuts headerTb.length mimeTb).map Prod.snd, 13 ∉ t := by
        decide
      exact hvalues _ (mapPuts_val literalMem _ (Map.zeroed TABLE_SIZE (2 * TABLE_SIZE)) i)

theorem headText_lines {date : List UInt8} (hdate : DateLine date) (minor status : ℕ) :
    headText date minor status = statusLine minor status ++ eol ++
      (date.take (DATE_LENGTH - 2) ++ eol ++ (bytes ("Server: " ++ SERVER_NAME) ++ eol)) := by
  unfold headText statusLine
  rw [← hdate.eq, bytes_line, show bytes CRLF = eol from rfl]
  simp only [List.append_assoc]

/-- A name that no `Content-Length` begins with. -/
theorem lengthKey_other {x : List UInt8} (l : List UInt8) (h : ¬ lengthKey <+: x ∧ ¬ x <+: lengthKey) :
    lengthKey.isPrefixOf (x ++ l) = false := by
  apply Bool.eq_false_of_not_eq_true
  intro hp
  rcases List.prefix_or_prefix_of_prefix (List.isPrefixOf_iff_prefix.mp hp) (List.prefix_append x l) with
    hx | hx
  · exact h.1 hx
  · exact h.2 hx

/-- The head of a response of which `n` bytes of a body are to follow. -/
def IsHead (h : List UInt8) (n : ℕ) : Prop := ∀ body, readResponse (h ++ body) = some (n, body)

/-- The lines that both functions begin with, and the line with the length. -/
theorem isHead_block {date : List UInt8} (hdate : DateLine date) (minor status n : ℕ)
    (fields : List (List UInt8)) (hlines : ∀ l ∈ fields, HeadLine l)
    (hother : ∀ l ∈ fields, lengthKey.isPrefixOf l = false) :
    IsHead (headText date minor status ++ ((fields.map (· ++ eol)).flatten ++
      (contentLengthLine n ++ eol))) n := by
  intro body
  obtain ⟨t, ht⟩ := hdate.take
  have hblock : headText date minor status ++ ((fields.map (· ++ eol)).flatten ++
      (contentLengthLine n ++ eol)) = block (statusLine minor status :: (date.take (DATE_LENGTH - 2) ::
        bytes ("Server: " ++ SERVER_NAME) :: (fields ++ [lengthKey ++ digits n]))) := by
    rw [headText_lines hdate, contentLengthLine_nat]
    simp [block]
  have hhead := statusLine_head minor status
  rw [hblock]
  apply readResponse_block hhead.1
  · intro l hl
    simp only [List.mem_cons, List.mem_append, List.not_mem_nil, or_false] at hl
    rcases hl with rfl | rfl | rfl | hl | rfl
    · exact hhead.2
    · exact ⟨by rw [ht]; simp [bytes], hdate.2.2.1⟩
    · decide
    · exact hlines l hl
    · exact .append (by decide) (Message.not_mem_digits rfl n)
  · have hserver : lengthKey.isPrefixOf (bytes ("Server: " ++ SERVER_NAME)) = false := by decide
    have hfields : fields.filter (lengthKey.isPrefixOf ·) = [] :=
      List.filter_eq_nil_iff.mpr fun l hl => by rw [hother l hl]; simp
    have hlen : lengthKey.isPrefixOf (lengthKey ++ digits n) = true :=
      List.isPrefixOf_iff_prefix.mpr (List.prefix_append _ _)
    rw [ht, List.filter_cons_of_neg (by rw [lengthKey_other t (by decide)]; simp),
      List.filter_cons_of_neg (by rw [hserver]; simp), List.filter_append, hfields]
    simp [hlen]

/-- **A local response** is a head, and the file is to follow. -/
theorem localText_head {date : List UInt8} {r : Request} (hdate : DateLine date)
    (hstatus : r.status = 200) {n : ℕ} (hlen : r.resourceLen = n) :
    IsHead (localText date r ++ bytes CRLF) n := by
  have h := isHead_block hdate r.version.minor r.status n [bytes "Content-Type: " ++ contentType r]
    (by simpa using HeadLine.append (by decide) (contentType_cr r))
    (by simpa using lengthKey_other (contentType r) (by decide))
  unfold localText
  rw [if_neg (by rw [hstatus]; decide), hlen, show bytes CRLF = eol from rfl]
  simpa using h

/-- **An error response** is a head, and the page it announces. -/
theorem pageText_head {date : List UInt8} (hdate : DateLine date) (minor status : ℕ) :
    ∃ h, pageText date minor status ++ errPageTail = h ++ (statusPage status ++ errPageTail) ∧
      IsHead h (statusPage status ++ errPageTail).length := by
  have h := isHead_block hdate minor status (statusPage status ++ errPageTail).length
    [bytes "Connection: close", bytes "Content-Type: text/html"] (by decide) (by decide)
  refine ⟨_, ?_, h⟩
  unfold pageText
  rw [bytes_line, bytes_line, show bytes CRLF = eol from rfl, List.length_append]
  simp

end SyServer
