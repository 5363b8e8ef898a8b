import SyServer.Response
import SyServer.ParseCalls

/-! # No header is ever looked up with success

The header parser hands `sy_map_get` a name that a `':'` or a CR follows.  The comparison with the
keys of `header_map` runs to a NUL byte, and the keys hold neither of the two, so the lookup finds
nothing (`parsedName_not_found`): no header processor ever runs.

* `NameEnds`: what is behind such a name.
* `Named`: the header loop's invariant that leads to it. -/

namespace SyServer

open Scan (Step scan)

/-! ### Lookups in the real table -/

/-- The bytes of a header name behind the parser's rewriting. -/
def nameChar (c : UInt8) : Bool := isDigit c || isLower c || c = cUnderscore

/-- A byte that ends a name. -/
def nameEnd (c : UInt8) : Prop := c = cColon ∨ c = cCr

instance (c : UInt8) : Decidable (nameEnd c) := inferInstanceAs (Decidable (_ ∨ _))

/-- The bytes at `p` are a name, followed by a byte that ends it. -/
def NameEnds (m : Mem) (p : Ptr) : Prop :=
  ∃ k, (∀ j < k, nameChar (m (p.add j)) = true) ∧ nameEnd (m (p.add k))

theorem nameEnd_not_char {c : UInt8} (h : nameEnd c) : nameChar c = false ∧ c ≠ 0 := by
  rcases h with rfl | rfl <;> decide

/-- The keys of `header_map`. -/
def headerPuts : List (Str × HeaderVal) := tablePuts 0 headerTb

theorem headerPuts_literal : ∀ p ∈ headerPuts, p.1.data ≠ .NULL ∧
    (∀ b ∈ p.1.bytes literalMem, nameChar b = true) ∧
      literalMem (p.1.data.add p.1.len.toNat) = 0 ∧ ∃ id off, p.1.data = .lit id off := by
  have hnames : ∀ (id : ℕ) (tb : List (String × HeaderVal)), ∀ p ∈ tablePuts id tb,
      ∃ id off, p.1.data = .lit id off := by
    intro id tb
    induction tb generalizing id with
    | nil => exact fun p hp => by cases hp
    | cons x tb ih =>
        intro p hp
        rcases List.mem_cons.mp hp with rfl | hp
        · exact ⟨_, _, rfl⟩
        · exact ih _ p hp
  have hall : ∀ p ∈ headerPuts, p.1.data ≠ .NULL ∧
      (∀ b ∈ p.1.bytes literalMem, nameChar b = true) ∧
        literalMem (p.1.data.add p.1.len.toNat) = 0 := by
    decide +kernel
  exact fun p hp => ⟨(hall p hp).1, (hall p hp).2.1, (hall p hp).2.2, hnames _ _ p hp⟩

/-- A literal reads the same in every memory that holds the literals. -/
theorem bytes_literal {m : Mem} (hm : ∀ id off, m (.lit id off) = literalByte id off) {s : Str}
    (hs : ∃ id off, s.data = .lit id off) : s.bytes m = s.bytes literalMem := by
  obtain ⟨id, off, hd⟩ := hs
  unfold Str.bytes
  rw [hd]
  exact List.map_congr_left fun i _ => hm id (off + i)

/-- Puts look at the bytes of their keys only. -/
theorem mapPuts_congr {ν : Type} {m m' : Mem} (puts : List (Str × ν))
    (h : ∀ p ∈ puts, p.1.bytes m = p.1.bytes m') (map : Map ν) :
    mapPuts m map puts = mapPuts m' map puts := by
  induction puts generalizing map with
  | nil => rfl
  | cons p puts ih =>
      have hp : mapPut m map p.1 p.2 = mapPut m' map p.1 p.2 := by
        unfold mapPut bucket stringHash
        rw [h p List.mem_cons_self]
      show mapPuts m (mapPut m map p.1 p.2) puts = mapPuts m' (mapPut m' map p.1 p.2) puts
      rw [hp]
      exact ih (fun q hq => h q (List.mem_cons_of_mem _ hq)) _

/-- A C string of name bytes is no prefix of a name that ends otherwise. -/
theorem NameEnds.not_cStrAt {m : Mem} {p : Ptr} (h : NameEnds m p) {l : List UInt8}
    (hl : ∀ b ∈ l, nameChar b = true) : ¬ CStrAt m p l := by
  rintro ⟨hbytes, hnul⟩
  obtain ⟨k, hname, hend⟩ := h
  obtain ⟨hnot, hne⟩ := nameEnd_not_char hend
  rcases lt_trichotomy k l.length with hk | rfl | hk
  · have := hl _ (List.getElem_mem hk)
    rw [← hbytes k hk, hnot] at this
    cases this
  · exact hne hnul
  · have := hname l.length hk
    rw [hnul] at this
    revert this
    decide

/-- **A parsed name is not found.** -/
theorem headerMapGet_none {r : Request} {q : Str} (h : NameEnds r.mem q.data) :
    headerMapGet r.mem q = none := by
  have hlit := fun p hp => bytes_literal (m := r.mem) (fun _ _ => rfl)
    (headerPuts_literal p hp).2.2.2
  have hmap : headerMap = mapPuts r.mem (Map.zeroed TABLE_SIZE (2 * TABLE_SIZE)) headerPuts :=
    (mapPuts_congr headerPuts hlit _).symm
  have hliteral : ∀ p ∈ headerPuts, p.1.IsLiteral r.mem := by
    intro p hp
    obtain ⟨hnull, hname, hterm, id, off, hd⟩ := headerPuts_literal p hp
    refine ⟨hnull, fun b hb => ?_, ?_⟩
    · rw [hlit p hp] at hb
      rintro rfl
      exact absurd (hname 0 hb) (by decide)
    · rw [hd] at hterm ⊢
      exact hterm
  unfold headerMapGet
  rw [Option.map_eq_none_iff]
  by_contra hget
  obtain ⟨i, hi⟩ := Option.ne_none_iff_exists'.mp hget
  have hrepr := repr_of_puts (2 * TABLE_SIZE) (show 0 < TABLE_SIZE by decide) hliteral
  rw [← hmap] at hrepr
  obtain ⟨hmem, -, hc⟩ := mapGet_some hrepr hliteral hi
  refine h.not_cStrAt ?_ hc
  rw [hlit _ hmem]
  exact (headerPuts_literal _ hmem).2.1

/-! ### Names in the header loop -/

/-- A name at `off` that ends before `i`. -/
def NamedBefore (i : ℕ) (r : Request) : Prop :=
  ∃ off k, r.headerName.data = .rb off ∧ off ≤ k ∧ k < i ∧
    (∀ j, off ≤ j → j < k → nameChar (r.rb.mem j) = true) ∧ nameEnd (r.rb.mem k)

/-- The header loop at position `i`: within a name, or behind one. -/
structure Named (i : ℕ) (r : Request) : Prop where
  name : r.state = .hlName → ∃ off, r.headerName.data = .rb off ∧ off ≤ i ∧
    ∀ j, off ≤ j → j < i → nameChar (r.rb.mem j) = true
  ended : r.state ≠ .hlBegin → r.state ≠ .hlIgnore → r.state ≠ .hlName →
    r.headerName.data = .NULL ∨ NamedBefore i r

theorem Named.of_begin {i : ℕ} {r : Request} (h : r.state = .hlBegin) : Named i r :=
  ⟨fun hn => absurd (h.symm.trans hn) (by simp), fun hn => absurd h hn⟩

theorem Named.congr {i : ℕ} {r r' : Request} (h : Named i r) (hst : r'.state = r.state)
    (hname : r'.headerName = r.headerName) (hmem : ∀ k, k < i → r'.rb.mem k = r.rb.mem k) :
    Named i r' := by
  refine ⟨fun hn => ?_, fun h1 h2 h3 => ?_⟩
  · obtain ⟨off, hd, hle, hchar⟩ := h.name (hst ▸ hn)
    exact ⟨off, hname ▸ hd, hle, fun j h1 h2 => by rw [hmem j h2]; exact hchar j h1 h2⟩
  · rw [hst] at h1 h2 h3
    rcases h.ended h1 h2 h3 with hnull | ⟨off, k, hd, hle, hk, hchar, hend⟩
    · exact .inl (hname ▸ hnull)
    · refine .inr ⟨off, k, hname ▸ hd, hle, hk, fun j hj1 hj2 => ?_, ?_⟩
      · rw [hmem j (by omega)]
        exact hchar j hj1 hj2
      · rw [hmem k hk]
        exact hend

section loop

variable {i : ℕ} {r r' : Request}

/-- The byte at `i` begins or continues a name. -/
theorem Named.char {off : ℕ} {c : UInt8} (hd : r'.headerName.data = .rb off) (hoff : off ≤ i)
    (hrb : r'.rb.mem = Function.update r.rb.mem i c) (hst : r'.state = .hlName)
    (hchar : ∀ j, off ≤ j → j < i → nameChar (r.rb.mem j) = true) (hc : nameChar c = true) :
    Named (i + 1) r' := by
  refine ⟨fun _ => ⟨off, hd, by omega, fun j h1 h2 => ?_⟩, fun _ _ h3 => absurd hst h3⟩
  rw [hrb]
  by_cases hj : j = i
  · rw [hj, Function.update_self]
    exact hc
  · rw [Function.update_of_ne hj]
    exact hchar j h1 (by omega)

/-- The byte at `i` ends a name. -/
theorem Named.close (h : Named i r) (hst : r.state = .hlName) (hc : nameEnd (r.rb.mem i))
    (hd : r'.headerName.data = r.headerName.data) (hrb : r'.rb = r.rb) (hst' : r'.state ≠ .hlName) :
    Named (i + 1) r' := by
  obtain ⟨off, hoff, hle, hchar⟩ := h.name hst
  refine ⟨fun hn => absurd hn hst', fun _ _ _ => .inr ⟨off, i, hd.trans hoff, hle, by omega, ?_, ?_⟩⟩
  · rw [hrb]
    exact hchar
  · rw [hrb]
    exact hc

/-- The byte at `i` is behind a name. -/
theorem Named.past (h : r.headerName.data = .NULL ∨ NamedBefore i r)
    (hd : r'.headerName.data = r.headerName.data) (hrb : r'.rb = r.rb) (hst' : r'.state ≠ .hlName) :
    Named (i + 1) r' := by
  refine ⟨fun hn => absurd hn hst', fun _ _ _ => ?_⟩
  rcases h with hnull | ⟨off, k, hoff, hle, hk, hchar, hend⟩
  · exact .inl (hd.trans hnull)
  · refine .inr ⟨off, k, hd.trans hoff, hle, by omega, ?_, ?_⟩
    · rw [hrb]
      exact hchar
    · rw [hrb]
      exact hend

theorem nameChar_rewritten (c : UInt8) :
    (isUpper c = true → nameChar (toLower c) = true) ∧
      (c = cDash → nameChar (toUnderscore c) = true) ∧
        ((isDigit c || isLower c) = true → nameChar c = true) := by
  have hupper : ∀ n : Fin 256, isUpper (.ofFin n) = true → nameChar (toLower (.ofFin n)) = true := by
    decide +kernel
  exact ⟨hupper c.toFin, fun h => by subst h; decide, fun h => by unfold nameChar; rw [h]; rfl⟩

/-- One byte of the header loop. -/
theorem Named.step (h : Named i r) (hm : headerLineByte i r = .more r') : Named (i + 1) r' := by
  obtain ⟨hupper, hdash, hplain⟩ := nameChar_rewritten (r.rb.mem i)
  have hsame : Function.update r.rb.mem i (r.rb.mem i) = r.rb.mem := Function.update_eq_self _ _
  unfold headerLineByte at hm
  cases hs : r.state <;> rw [hs] at hm <;> dsimp only at hm
  case hlBegin =>
      have hnone : ∀ j, i ≤ j → j < i → nameChar (r.rb.mem j) = true := fun j h1 h2 => by omega
      split_ifs at hm with h1 h2 h3 <;> cases hm
      · exact .char rfl le_rfl rfl rfl hnone (hupper h1)
      · exact .char rfl le_rfl rfl rfl hnone (hdash h2)
      · exact .char rfl le_rfl hsame.symm rfl hnone (hplain h3)
      · exact ⟨(fun hn => by cases hn), fun _ _ _ => .inl rfl⟩
      · exact ⟨(fun hn => by cases hn), fun _ hn => absurd rfl hn⟩
  case hlIgnore =>
      split_ifs at hm <;> cases hm
      · exact .of_begin rfl
      · exact ⟨fun hn => absurd (hs.symm.trans hn) (by simp), fun _ hn => absurd hs hn⟩
  case hlName =>
      obtain ⟨off, hoff, hle, hchar⟩ := h.name hs
      split_ifs at hm with h1 h2 h3 h4 h5 <;> cases hm
      · exact .char hoff hle rfl rfl hchar (hupper h1)
      · exact .char hoff hle rfl rfl hchar (hdash h2)
      · exact .char hoff hle hsame.symm hs hchar (hplain h3)
      · exact h.close hs (.inl h4) rfl rfl (by simp)
      · exact h.close hs (.inr h5) rfl rfl (by simp)
      · exact ⟨(fun hn => by cases hn), fun _ hn => absurd rfl hn⟩
  case hlColon | hlSpBeforeValue | hlValue | hlSpAfterValue | hlAlmostDone =>
      have hpast := h.ended (by rw [hs]; simp) (by rw [hs]; simp) (by rw [hs]; simp)
      split_ifs at hm <;> cases hm <;> exact .past hpast rfl rfl (by simp [hs])
  all_goals cases hm

/-- Where the loop is left, a name has ended. -/
theorem Named.stop {p : ℕ} (h : Named i r) (hm : headerLineByte i r = .stop (.done p r')) :
    r'.headerName.data = .NULL ∨ NameEnds r'.mem r'.headerName.data := by
  have hends : r.headerName.data = .NULL ∨ NamedBefore i r →
      r.headerName.data = .NULL ∨ NameEnds r.mem r.headerName.data := by
    rintro (hnull | ⟨off, k, hoff, hle, -, hchar, hend⟩)
    · exact .inl hnull
    · refine .inr ⟨k - off, fun j hj => ?_, ?_⟩
      · rw [hoff]
        exact hchar (off + j) (by omega) (by omega)
      · rw [hoff]
        show nameEnd (r.rb.mem (off + (k - off)))
        rw [show off + (k - off) = k by omega]
        exact hend
  unfold headerLineByte at hm
  cases hs : r.state <;> rw [hs] at hm <;> dsimp only at hm
  case hlBegin =>
      split_ifs at hm
      cases hm
      exact .inl rfl
  case hlColon | hlSpBeforeValue | hlValue | hlSpAfterValue | hlAlmostDone =>
      have hpast := hends (h.ended (by rw [hs]; simp) (by rw [hs]; simp) (by rw [hs]; simp))
      split_ifs at hm
      cases hm
      exact hpast
  case hlIgnore | hlName => split_ifs at hm
  all_goals cases hm

/-- A call of `sy_parse_header_line`. -/
theorem Named.parse {rc : Rc} (h : Named r.rb.begin r) (hb : r.rb.begin ≤ r.rb.end_)
    (hp : parseHeaderLine r = .ok (rc, r')) :
    Named r'.rb.begin r' ∧ (rc = .ok → NameEnds r'.mem r'.headerName.data) := by
  have hscan : ∀ {n : ℕ} {r₁ : Request}, scan headerLineByte n r.rb.begin r = .more r₁ →
      Named (r.rb.begin + n) r₁ := fun {n r₁} hs =>
    Scan.scan_inv Named (r.rb.begin + n) (fun i s s' _ hn hm => hn.step hm) le_rfl h hs
  rcases parseHeaderLine_cases hp with ⟨rfl, r₁, hf, rfl, hs⟩ | ⟨k, r₁, r₂, hrc, hk, hf, hs, hstop, rfl⟩
  · refine ⟨?_, fun h => by cases h⟩
    obtain ⟨_, _, _, b, rfl, -, -, hend⟩ := hf
    have hn := hscan hs
    unfold Buffer.size at hn
    have hpos : r.rb.begin + (r.rb.end_ - r.rb.begin) = b.end_ := by rw [hend]; omega
    rw [hpos] at hn
    exact hn.congr rfl rfl fun _ _ => rfl
  · refine ⟨.of_begin rfl, fun hok => ?_⟩
    rcases (hscan hs).stop hstop with hnull | hends
    · rw [hrc, if_pos hnull] at hok
      cases hok
    · exact hends

end loop

end SyServer
