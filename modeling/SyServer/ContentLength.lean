import SyServer.CloseHeader
import SyServer.HeaderBlock
import SyServer.RequestLines
import SyServer.Texts

/-! # The number of a Content-Length

`sy_header_handle_content_length` hands the value to `atoi`, which knows nothing of its length and
answers with 32 bits.  What it reads is decided by the value alone, for behind a value stands no
digit (`Valued`, kept by the header loop), unless the value is white space; what it answers is the
number of the value only where that is an `int`.

* `blockLines_valued`: what stands behind the values that the parser delivers.
* `numberAt_value`: the number is that of the value.
* `contentLength_iff`: when the value is answered by a page or is a number that is stored. -/

namespace SyServer

open Scan

/-! ### Values in the header loop -/

/-- The bytes that end a value. -/
def endsValue (c : UInt8) : Prop := c = cSp ∨ c = cCr ∨ c = cLf

/-- A value that ends before `i`. -/
def ValueBefore (i : ℕ) (r : Request) : Prop :=
  ∃ j n : ℕ, r.headerValue = ⟨.rb j, n⟩ ∧ j + n < i ∧ endsValue (r.rb.mem (j + n))

/-- The header loop at position `i`: in front of a value, within it, or behind it. -/
structure Valued (i : ℕ) (r : Request) : Prop where
  front : r.state = .hlName ∨ r.state = .hlColon ∨ r.state = .hlSpBeforeValue →
    r.headerValue = Str.init
  within : r.state = .hlValue → ∃ j, r.headerValue.data = .rb j ∧ j < i
  behind : r.state = .hlSpAfterValue → ValueBefore i r
  ended : r.state = .hlAlmostDone → r.headerValue = Str.init ∨ ValueBefore i r

section loop

variable {i : ℕ} {r r' : Request}

theorem Valued.of_begin (h : r.state = .hlBegin ∨ r.state = .hlIgnore) : Valued i r := by
  rcases h with h | h <;> constructor <;> rw [h] <;> simp

theorem ValueBefore.congr (h : ValueBefore i r) {k : ℕ} (hk : i ≤ k)
    (hv : r'.headerValue = r.headerValue) (hmem : ∀ j, j < i → r'.rb.mem j = r.rb.mem j) :
    ValueBefore k r' := by
  obtain ⟨j, n, hs, hlt, hend⟩ := h
  exact ⟨j, n, hv.trans hs, by omega, by rwa [hmem _ hlt]⟩

theorem Valued.congr (h : Valued i r) (hst : r'.state = r.state) (hv : r'.headerValue = r.headerValue)
    (hmem : ∀ j, j < i → r'.rb.mem j = r.rb.mem j) : Valued i r' where
  front hs := hv.trans (h.front (hst ▸ hs))
  within hs := by
    rw [hv]
    exact h.within (hst ▸ hs)
  behind hs := (h.behind (hst ▸ hs)).congr le_rfl hv hmem
  ended hs := (h.ended (hst ▸ hs)).imp hv.trans fun hb => hb.congr le_rfl hv hmem

/-- In front of a value. -/
theorem Valued.none (hst : r.state = .hlName ∨ r.state = .hlColon ∨ r.state = .hlSpBeforeValue ∨
    r.state = .hlAlmostDone) (hv : r.headerValue = Str.init) : Valued i r where
  front _ := hv
  within hs := by
    rw [hs] at hst
    simp at hst
  behind hs := by
    rw [hs] at hst
    simp at hst
  ended _ := .inl hv

/-- The byte at `i` ends the value. -/
theorem ValueBefore.here {j : ℕ} (hd : r.headerValue.data = .rb j) (hj : j < i)
    (hc : endsValue (r.rb.mem i)) (hrb : r'.rb = r.rb)
    (hv : r'.headerValue = (endHeaderValue i r).headerValue) : ValueBefore (i + 1) r' := by
  have hi : j + (i - j) = i := by omega
  refine ⟨j, i - j, ?_, by omega, ?_⟩
  · rw [hv, endHeaderValue]
    dsimp only
    rw [hd, ptrDiff, Nat.cast_sub hj.le]
  · rw [hi, hrb]
    exact hc

/-- One byte of the header loop. -/
theorem Valued.step (h : Valued i r) (hm : headerLineByte i r = .more r') : Valued (i + 1) r' := by
  unfold headerLineByte at hm
  cases hs : r.state <;> rw [hs] at hm <;> dsimp only at hm
  case hlBegin =>
      split_ifs at hm <;> cases hm
      · exact .none (.inl rfl) rfl
      · exact .none (.inl rfl) rfl
      · exact .none (.inl rfl) rfl
      · exact .none (.inr (.inr (.inr rfl))) rfl
      · exact .of_begin (.inr rfl)
  case hlIgnore =>
      split_ifs at hm <;> cases hm
      · exact .of_begin (.inl rfl)
      · exact .of_begin (.inr hs)
  case hlName =>
      have hv := h.front (.inl hs)
      split_ifs at hm <;> cases hm
      · exact .none (.inl rfl) hv
      · exact .none (.inl rfl) hv
      · exact .none (.inl hs) hv
      · exact .none (.inr (.inl rfl)) hv
      · exact .none (.inr (.inr (.inr rfl))) hv
      · exact .of_begin (.inr rfl)
  case hlColon | hlSpBeforeValue =>
      have hv : r.headerValue = Str.init := h.front (by rw [hs]; simp)
      split_ifs at hm <;> cases hm
      · exact .none (.inr (.inr (.inl rfl))) hv
      · exact .none (.inr (.inr (.inr rfl))) hv
      · exact ⟨by simp, fun _ => ⟨i, rfl, Nat.lt_succ_self i⟩, by simp, by simp⟩
  case hlValue =>
      obtain ⟨j, hd, hj⟩ := h.within hs
      split_ifs at hm with h1 h2 <;> cases hm
      · exact ⟨by simp, by simp, fun _ => ValueBefore.here hd hj (.inl h1) rfl rfl, by simp⟩
      · exact ⟨by simp, by simp, by simp, fun _ => .inr (.here hd hj (.inr (.inl h2)) rfl rfl)⟩
      · exact ⟨by simp [hs], fun _ => ⟨j, hd, by omega⟩, by simp [hs], by simp [hs]⟩
  case hlSpAfterValue =>
      have hb := h.behind hs
      have hkeep : ∀ {q : Request}, q.rb = r.rb → q.headerValue = r.headerValue →
          ValueBefore (i + 1) q := fun hrb hv => hb.congr (Nat.le_succ i) hv fun _ _ => by rw [hrb]
      split_ifs at hm <;> cases hm
      · exact ⟨by simp [hs], by simp [hs], fun _ => hkeep rfl rfl, by simp [hs]⟩
      · exact ⟨by simp, by simp, by simp, fun _ => .inr (hkeep rfl rfl)⟩
      · obtain ⟨j, n, hv, hlt, -⟩ := hb
        exact ⟨by simp, fun _ => ⟨j, by rw [hv], by omega⟩, by simp, by simp⟩
  case hlAlmostDone =>
      split_ifs at hm
      cases hm
      exact .of_begin (.inr rfl)
  all_goals cases hm

/-- Where the loop is left, there is no value, or it has ended. -/
theorem Valued.stop {p : ℕ} (h : Valued i r) (hm : headerLineByte i r = .stop (.done p r')) :
    r'.headerValue = Str.init ∨ ValueBefore (i + 1) r' := by
  unfold headerLineByte at hm
  cases hs : r.state <;> rw [hs] at hm <;> dsimp only at hm
  case hlBegin =>
      split_ifs at hm
      cases hm
      exact .inl rfl
  case hlColon | hlSpBeforeValue =>
      split_ifs at hm
      cases hm
      exact .inl (h.front (by rw [hs]; simp))
  case hlValue =>
      obtain ⟨j, hd, hj⟩ := h.within hs
      split_ifs at hm with h1 h2 h3
      cases hm
      exact .inr (.here hd hj (.inr (.inr h3)) rfl rfl)
  case hlSpAfterValue =>
      split_ifs at hm
      cases hm
      exact .inr ((h.behind hs).congr (Nat.le_succ i) rfl fun _ _ => rfl)
  case hlAlmostDone =>
      split_ifs at hm
      cases hm
      exact (h.ended hs).imp_right fun hb => hb.congr (Nat.le_succ i) rfl fun _ _ => rfl
  case hlIgnore | hlName => split_ifs at hm
  all_goals cases hm

/-- A call of `sy_parse_header_line`. -/
theorem Valued.parse {rc : Rc} (h : Valued r.rb.begin r) (hb : r.rb.begin ≤ r.rb.end_)
    (hp : parseHeaderLine r = .ok (rc, r')) :
    Valued r'.rb.begin r' ∧ r'.rb.begin ≤ r'.rb.end_ ∧
      (rc = .ok → r'.headerValue = Str.init ∨ ValueBefore r'.rb.begin r') := by
  have hscan : ∀ {n : ℕ} {r₁ : Request}, scan headerLineByte n r.rb.begin r = .more r₁ →
      Valued (r.rb.begin + n) r₁ := fun {n r₁} hs =>
    scan_inv Valued (r.rb.begin + n) (fun _ _ _ _ hn hm => hn.step hm) le_rfl h hs
  have hbounds : r'.rb.begin ≤ r'.rb.end_ := by
    obtain ⟨_, _, _, _, rfl, h1, h2⟩ := parseHeaderLine_frame hp
    exact (h2 hb).trans h1.ge
  rcases parseHeaderLine_cases hp with ⟨rfl, r₁, hf, rfl, hs⟩ | ⟨k, r₁, r₂, -, hk, hf, hs, hstop, rfl⟩
  · refine ⟨?_, hbounds, fun h => by cases h⟩
    obtain ⟨_, _, _, b, rfl, -, -, hend⟩ := hf
    have hn := hscan hs
    unfold Buffer.size at hn
    have hpos : r.rb.begin + (r.rb.end_ - r.rb.begin) = b.end_ := by omega
    rw [hpos] at hn
    exact hn.congr rfl rfl fun _ _ => rfl
  · refine ⟨.of_begin (.inl rfl), hbounds, fun _ => ?_⟩
    exact ((hscan hs).stop hstop).imp_right fun hb => hb.congr le_rfl rfl fun _ _ => rfl

/-- What stands behind the value of a line that the parser has delivered. -/
def ValueDelivered (l : Request) : Prop :=
  l.headerValue = Str.init ∨ ValueBefore l.rb.begin l

theorem parseLines_valued (n : ℕ) (h : Valued r.rb.begin r) (hb : r.rb.begin ≤ r.rb.end_) :
    (∀ l ∈ (parseLines n r).1, ValueDelivered l) ∧
      Valued (parseLines n r).2.rb.begin (parseLines n r).2 ∧
        (parseLines n r).2.rb.begin ≤ (parseLines n r).2.rb.end_ := by
  induction n generalizing r with
  | zero => exact ⟨by simp [parseLines], h, hb⟩
  | succ n ih =>
      unfold parseLines
      cases hp : parseHeaderLine r with
      | error f => exact ⟨by simp, h, hb⟩
      | ok p =>
          obtain ⟨rc, r₁⟩ := p
          obtain ⟨h1, h2, h3⟩ := h.parse hb hp
          cases rc with
          | ok =>
              obtain ⟨h4, h5⟩ := ih h1 h2
              exact ⟨List.forall_mem_cons.mpr ⟨h3 rfl, h4⟩, h5⟩
          | _ => exact ⟨by simp, h1, h2⟩

/-- **The lines of a block in any chunks.** -/
theorem blockLines_valued {ds : List (List UInt8)} (h : Valued r.rb.begin r)
    (hb : r.rb.begin ≤ r.rb.end_) : ∀ l ∈ blockLines r ds, ValueDelivered l := by
  induction ds generalizing r with
  | nil => exact (parseLines_valued _ h hb).1
  | cons d ds ih =>
      obtain ⟨h1, h2, h3⟩ := parseLines_valued (r.rb.size + 1) h hb
      rw [blockLines_cons, List.forall_mem_append]
      refine ⟨h1, ih ?_ ?_⟩
      · refine Valued.congr (r := (callLines r).2) h2 rfl rfl fun j hj => ?_
        exact Buffer.put_mem_lt _ _ (lt_of_lt_of_le hj h3)
      · exact h3.trans (Nat.le_add_right _ _)

end loop

/-! ### The number in a text -/

/-- The integer that a text begins with, behind white space and with its sign. -/
def numberAt (s : List UInt8) : ℤ :=
  match s.dropWhile isSpace with
  | 45 :: s => -digitsValue s
  | 43 :: s => digitsValue s
  | s => digitsValue s

/-- `strtol` saturates, and the cut to 32 bits is then negative. -/
def WrapsNegative (z : ℤ) : Prop := -2 ^ 63 ≤ z ∧ (2 ^ 63 ≤ z ∨ 2 ^ 31 ≤ z % 2 ^ 32)

instance (z : ℤ) : Decidable (WrapsNegative z) := inferInstanceAs (Decidable (_ ∧ (_ ∨ _)))

section number

variable {s v y : List UInt8} {c d : UInt8}

theorem strtol_eq (s : List UInt8) : strtol s = max (-2 ^ 63) (min (numberAt s) (2 ^ 63 - 1)) := rfl

theorem strtol_negative_iff : wrap32 (strtol s) < 0 ↔ WrapsNegative (numberAt s) := by
  rw [wrap32_neg_iff, strtol_eq, WrapsNegative]
  omega

theorem numberAt_cons (h : s.dropWhile isSpace = c :: y) :
    numberAt s = if c = 45 then -digitsValue y else if c = 43 then digitsValue y
      else digitsValue (c :: y) := by
  unfold numberAt
  rw [h]
  split_ifs with h1 h2
  · subst h1
    rfl
  · subst h2
    rfl
  · split
    · next e => exact absurd (List.cons.inj e).1 h1
    · next e => exact absurd (List.cons.inj e).1 h2
    · rfl

/-- A byte that is no digit ends a number. -/
theorem digitsValue_append (hd : isDigit d = false) : digitsValue (v ++ d :: y) = digitsValue v := by
  have htake : (v ++ d :: y).takeWhile isDigit = v.takeWhile isDigit := by
    induction v with
    | nil => simp [hd]
    | cons c v ih =>
        rw [List.cons_append, List.takeWhile_cons, List.takeWhile_cons, ih]
  unfold digitsValue
  rw [htake]

/-- **The number of a value** that is not white space: what follows it has no part in it. -/
theorem numberAt_value (hd : isDigit d = false) (hv : ¬ ∀ c ∈ v, isSpace c = true) :
    numberAt (v ++ d :: y) = numberAt v := by
  obtain ⟨c, w, hw⟩ : ∃ c w, v.dropWhile isSpace = c :: w := by
    refine List.exists_cons_of_ne_nil fun e => hv ?_
    exact List.dropWhile_eq_nil_iff.mp e
  have hw' : (v ++ d :: y).dropWhile isSpace = c :: (w ++ d :: y) := by
    rw [List.dropWhile_append, hw]
    rfl
  rw [numberAt_cons hw, numberAt_cons hw', digitsValue_append hd, ← List.cons_append,
    digitsValue_append hd]

theorem digitsValue_digits (h : ∀ c ∈ v, isDigit c = true) : digitsValue v = decimalFrom 0 v := by
  have hfold : ∀ n : ℕ, v.foldl (fun (z : ℤ) c => z * 10 + (c.toNat - 48)) n = decimalFrom n v := by
    induction v with
    | nil => exact fun _ => rfl
    | cons c v ih =>
        obtain ⟨hc, hv⟩ := List.forall_mem_cons.mp h
        intro n
        have hrange : 48 ≤ c.toNat := by
          have : 48 ≤ c.toNat ∧ c.toNat ≤ 57 := by
            simpa [isDigit, UInt8.le_iff_toNat_le] using hc
          exact this.1
        have hstep : (n : ℤ) * 10 + (c.toNat - 48) = (n * 10 + (c.toNat - 48) : ℕ) := by
          push_cast [hrange]
          rfl
        rw [List.foldl_cons, hstep]
        exact ih hv _
  unfold digitsValue
  rw [List.takeWhile_eq_self_iff.mpr h]
  exact hfold 0

theorem not_space_of_digit (h : isDigit c = true) : isSpace c = false ∧ c ≠ 45 ∧ c ≠ 43 := by
  have hall : ∀ n : Fin 256, isDigit (.ofFin n) = true →
      isSpace (.ofFin n) = false ∧ UInt8.ofFin n ≠ 45 ∧ UInt8.ofFin n ≠ 43 := by
    decide +kernel
  exact hall c.toFin h

/-- The number of a value that consists of digits. -/
theorem numberAt_digits (hne : v ≠ []) (h : ∀ c ∈ v, isDigit c = true) :
    numberAt v = decimalFrom 0 v := by
  obtain ⟨c, w, rfl⟩ := List.exists_cons_of_ne_nil hne
  obtain ⟨hsp, h1, h2⟩ := not_space_of_digit (h c List.mem_cons_self)
  have hdrop : (c :: w).dropWhile isSpace = c :: w := by
    rw [List.dropWhile_cons, hsp]
    rfl
  rw [numberAt_cons hdrop, if_neg h1, if_neg h2, digitsValue_digits h]

end number

/-! ### What the handler makes of a value -/

/-- The bytes of the value. -/
def Request.value (r : Request) : List UInt8 := r.headerValue.bytes r.mem

/-- The bytes from the value on, as `atoi` reads them. -/
def Request.valueText (r : Request) : List UInt8 :=
  (List.range (BUF_SIZE + 1)).map fun i => r.mem (r.headerValue.data.add i)

/-- The number of the value, or of what stands behind white space. -/
def Request.lengthNumber (r : Request) : ℤ :=
  if r.value.all isSpace then numberAt r.valueText else numberAt r.value

/-- The value is answered by the page 400, or it is a number and this number is stored. -/
def LengthExact (date : List UInt8) (offset : HeaderField) (s : Session) : Prop :=
  (∃ s', headerHandleContentLength date offset s = .ok (.ok, s') ∧
      responseBuildErr date 400 { s with r := headerHandleGeneric offset s.r } = .ok (.ok, s')) ∨
    (∀ c ∈ s.r.value, isDigit c = true) ∧ ∃ s',
      headerHandleContentLength date offset s = .ok (.ok, s') ∧
        s'.r.contentLength = decimalFrom 0 s.r.value

/-- There is room in `sb` for the page 400. -/
def RoomFor400 (date : List UInt8) (r : Request) : Prop :=
  r.sb.end_ + (pageText date r.version.minor 400).length < BUF_SIZE

/-- The value is a number that is an `int`, or `atoi` makes a negative one of what stands there and
the page has room. -/
def LengthFits (date : List UInt8) (r : Request) : Prop :=
  (∀ c ∈ r.value, isDigit c = true) ∧ decimalFrom 0 r.value < 2 ^ 31 ∨
    WrapsNegative r.lengthNumber ∧ RoomFor400 date r

instance (date : List UInt8) (r : Request) : Decidable (LengthFits date r) :=
  inferInstanceAs (Decidable ((∀ c ∈ _, _ = _) ∧ _ < _ ∨ _ ∧ _ < _))

section handler

variable {date : List UInt8} {offset : HeaderField} {s : Session} {l r : Request}

/-- The handler, by the number that `atoi` answers. -/
theorem headerHandleContentLength_eq (date : List UInt8) (offset : HeaderField) {n : ℤ}
    (h : atoi s.r.mem s.r.headerValue.data = .ok n) :
    headerHandleContentLength date offset s =
      if n < 0 then responseBuildErr date 400 { s with r := headerHandleGeneric offset s.r }
      else .ok (.ok, { s with r := { headerHandleGeneric offset s.r with contentLength := n } }) := by
  unfold headerHandleContentLength
  dsimp only
  rw [show atoi (headerHandleGeneric offset s.r).mem (headerHandleGeneric offset s.r).headerValue.data =
    .ok n from h]
  rfl

/-- The page 400 is built exactly where there is room for it. -/
theorem page400_iff (hdate : date.length ≤ DATE_LENGTH) (t : Session) :
    (∃ s', responseBuildErr date 400 t = .ok (.ok, s')) ↔ RoomFor400 date t.r := by
  constructor
  · rintro ⟨s', h⟩
    exact responseBuildErr_needs hdate (by decide) h
  · intro hroom
    obtain ⟨b, h, -⟩ := responseBuildErr_room (by decide) hroom
    exact ⟨_, h⟩

/-- The page is built for a negative number, and a number that is not negative is stored. -/
theorem lengthExact_iff (hdate : date.length ≤ DATE_LENGTH) {n : ℤ}
    (h : atoi s.r.mem s.r.headerValue.data = .ok n) :
    LengthExact date offset s ↔
      n < 0 ∧ RoomFor400 date s.r ∨ (∀ c ∈ s.r.value, isDigit c = true) ∧ n = decimalFrom 0 s.r.value := by
  have hpage := page400_iff hdate { s with r := headerHandleGeneric offset s.r }
  have hrun := headerHandleContentLength_eq date offset h
  unfold LengthExact
  by_cases hn : n < 0
  · rw [if_pos hn] at hrun
    rw [hrun]
    constructor
    · rintro (⟨s', hs, -⟩ | ⟨-, s', hs, -⟩)
      · exact .inl ⟨hn, hpage.mp ⟨s', hs⟩⟩
      · exact .inl ⟨hn, hpage.mp ⟨s', hs⟩⟩
    · rintro (⟨-, hroom⟩ | ⟨-, hlen⟩)
      · obtain ⟨s', hs⟩ := hpage.mpr hroom
        exact .inl ⟨s', hs, hs⟩
      · omega
  · rw [if_neg hn] at hrun
    rw [hrun]
    constructor
    · rintro (⟨s', hs, hpage⟩ | ⟨hdigits, s', hs, hlen⟩)
      · -- the page is noted, and a number that is stored is not
        cases hs
        obtain ⟨-, b, -, hb⟩ := responseBuildErr_spec hpage
        have hlog := congrArg (fun t : Session => t.log.length) hb
        simp [Session.errored] at hlog
      · cases hs
        exact .inr ⟨hdigits, hlen⟩
    · rintro (⟨hneg, -⟩ | ⟨hdigits, hlen⟩)
      · exact absurd hneg hn
      · exact .inr ⟨hdigits, _, rfl, hlen⟩

/-- What `atoi` reads: the value, and a byte behind it that is no digit. -/
theorem valueText_eq (hv : ValueBefore l.rb.begin l) (hb : l.rb.begin ≤ BUF_SIZE) :
    ∃ d y, isDigit d = false ∧ l.valueText = l.value ++ d :: y := by
  obtain ⟨j, n, hs, hlt, hend⟩ := hv
  have hd : isDigit (l.rb.mem (j + n)) = false := by
    rcases hend with h | h | h <;> rw [h] <;> decide
  obtain ⟨k, hk⟩ := Nat.exists_eq_add_of_le (show n + 1 ≤ BUF_SIZE + 1 by omega)
  refine ⟨_, (List.range k).map fun i => l.mem (.rb (j + (n + 1 + i))), hd, ?_⟩
  unfold Request.valueText Request.value Str.bytes
  rw [hs, hk, List.range_add, List.range_succ]
  simp [Ptr.add, Request.mem, Function.comp_def]

/-- What `atoi` answers. -/
theorem atoi_value (hv : ValueBefore l.rb.begin l) (hb : l.rb.begin ≤ BUF_SIZE) :
    atoi l.mem l.headerValue.data = .ok (wrap32 (strtol l.valueText)) ∧
      numberAt l.valueText = l.lengthNumber := by
  obtain ⟨d, y, hd, htext⟩ := valueText_eq hv hb
  obtain ⟨j, n, hs, -⟩ := hv
  refine ⟨?_, ?_⟩
  · unfold Request.valueText
    rw [hs]
    rfl
  · unfold Request.lengthNumber
    split_ifs with hsp
    · rfl
    · rw [List.all_eq_true] at hsp
      rw [htext, numberAt_value hd hsp]

end handler

/-- **The number of a Content-Length**: a value that the parser delivers is answered by the page
400, or it is a number and that number is stored, exactly when it is a number below `2 ^ 31` or
`atoi` makes a negative one of it and there is room for the page. -/
theorem contentLength_iff {date : List UInt8} {offset : HeaderField} {s : Session} {r l : Request}
    {ds : List (List UInt8)} (hst : r.state = .hlBegin) (hb : r.rb.begin ≤ r.rb.end_)
    (hl : l ∈ blockLines r ds) (hlen : 0 < l.headerValue.len) (hfit : l.rb.begin ≤ BUF_SIZE)
    (hsame : SameParse l s.r) (hdate : date.length ≤ DATE_LENGTH) :
    LengthExact date offset s ↔ LengthFits date s.r := by
  have hv : ValueBefore l.rb.begin l := by
    refine (blockLines_valued (.of_begin (.inl hst)) hb l hl).resolve_left fun h => ?_
    rw [h] at hlen
    exact absurd hlen (by decide)
  have hv' : ValueBefore s.r.rb.begin s.r := by
    rw [hsame.rb]
    exact hv.congr le_rfl hsame.value fun _ _ => by rw [hsame.rb]
  have hne : s.r.value ≠ [] := by
    refine List.ne_nil_of_length_pos ?_
    rw [Request.value, Str.length_bytes, hsame.value]
    omega
  obtain ⟨hatoi, hnum⟩ := atoi_value hv' (by rwa [hsame.rb])
  rw [lengthExact_iff hdate hatoi, strtol_negative_iff, hnum, LengthFits, or_comm]
  refine or_congr_left (and_congr_right fun hdigits => ?_)
  have hn : s.r.lengthNumber = decimalFrom 0 s.r.value := by
    obtain ⟨c, w, hcw⟩ := List.exists_cons_of_ne_nil hne
    have hc : c ∈ s.r.value := by
      rw [hcw]
      exact List.mem_cons_self
    rw [Request.lengthNumber, if_neg fun h => ?_, numberAt_digits hne hdigits]
    have hspace := List.all_eq_true.mp h c hc
    exact absurd hspace (by simp [(not_space_of_digit (hdigits c hc)).1])
  rw [strtol_eq, hnum, hn]
  constructor
  · intro h
    have hlt := (wrap32_range (max (-2 ^ 63) (min (decimalFrom 0 s.r.value : ℤ) (2 ^ 63 - 1)))).2
    omega
  · intro h
    have hclamp : max (-2 ^ 63) (min (decimalFrom 0 s.r.value : ℤ) (2 ^ 63 - 1)) =
        decimalFrom 0 s.r.value := by
      omega
    rw [hclamp]
    exact wrap32_of_lt (by omega) (by omega)

/-- A line with this value, and the session for which the parser has delivered it. -/
def lengthLine (v : List UInt8) : Request := atHeaders.received [bytes "Content-Length: " ++ v ++ [cCr]]

def lengthSession (l : Request) : Session := { freshSession [] with r := l }

/-- The length that is stored for a line. -/
def lengthStored (l : Request) : Option ℤ :=
  match headerHandleContentLength [] .contentLength (lengthSession l) with
  | .ok (_, s) => some s.r.contentLength
  | .error _ => none

/-- `4294967301`, which is `2 ^ 32 + 5`, becomes 5. -/
theorem wideLength_cut : ∃ l ∈ blockLines (lengthLine (bytes "4294967301")) [],
    l.value = bytes "4294967301" ∧ lengthStored l = some 5 ∧
      ¬ LengthExact [] .contentLength (lengthSession l) := by
  have hany : ((blockLines (lengthLine (bytes "4294967301")) []).any fun l =>
      decide (l.value = bytes "4294967301") && decide (lengthStored l = some 5) &&
        decide (atoi l.mem l.headerValue.data = .ok 5)) = true := by decide +kernel
  obtain ⟨l, hl, hp⟩ := List.any_eq_true.mp hany
  simp only [Bool.and_eq_true, decide_eq_true_eq] at hp
  obtain ⟨⟨hv, hstored⟩, hatoi⟩ := hp
  refine ⟨l, hl, hv, hstored, fun h => ?_⟩
  rcases (lengthExact_iff (s := lengthSession l) (by decide) hatoi).mp h with ⟨hneg, -⟩ | ⟨-, hlen⟩
  · exact absurd hneg (by decide)
  · rw [show (lengthSession l).r.value = _ from hv] at hlen
    exact absurd hlen (by decide)

/-- A value of three digits is stored, and a negative number is answered by the page. -/
theorem contentLength_iff_both :
    (∃ l ∈ blockLines (lengthLine (bytes "512")) [], LengthExact [] .contentLength (lengthSession l)) ∧
      ∃ l ∈ blockLines (lengthLine (bytes "-1")) [], LengthExact [] .contentLength (lengthSession l) := by
  have hstored : ((blockLines (lengthLine (bytes "512")) []).any fun l =>
      decide (0 < l.headerValue.len) && decide (l.rb.begin ≤ BUF_SIZE) && decide (LengthFits [] l)) = true := by
    decide +kernel
  have hpage : ((blockLines (lengthLine (bytes "-1")) []).any fun l =>
      decide (0 < l.headerValue.len) && decide (l.rb.begin ≤ BUF_SIZE) && decide (LengthFits [] l)) = true := by
    decide +kernel
  obtain ⟨l, hl, hp⟩ := List.any_eq_true.mp hstored
  obtain ⟨l', hl', hp'⟩ := List.any_eq_true.mp hpage
  simp only [Bool.and_eq_true, decide_eq_true_eq] at hp hp'
  obtain ⟨⟨hlen, hfit⟩, hfits⟩ := hp
  obtain ⟨⟨hlen', hfit'⟩, hfits'⟩ := hp'
  refine ⟨⟨l, hl, ?_⟩, ⟨l', hl', ?_⟩⟩
  · exact (contentLength_iff (s := lengthSession l) rfl (by decide) hl hlen hfit (.refl l) (by decide)).mpr hfits
  · exact (contentLength_iff (s := lengthSession l') rfl (by decide) hl' hlen' hfit' (.refl l')
      (by decide)).mpr hfits'

end SyServer
