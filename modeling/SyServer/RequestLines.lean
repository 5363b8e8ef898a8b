import SyServer.Containment

/-! # Which request lines are accepted

The loop of `sy_parse_request_line` against a grammar.  `Ends s i r x d` says that the loop, in
`r` at the byte `i` of the read bytes `s`, accepts behind the bytes `x` and has then read the
method, the version and the URI `d`.  Each state has one lemma, which says what the rest `x` of the
line must look like; the lemma of a state uses those of the states behind it.

* `Number`, `LineEnd`, `VersionText`, `LineText`: the parts of a line, with what makes them well
  formed.
* `readUri`: the URI automaton over the bytes of a target.
* `ends_begin`: a line is accepted exactly when it is a `LineText` whose target the URI automaton
  accepts. -/

namespace SyServer

open Scan

/-! ### The parts of a line -/

/-- The number that is read behind `v`. -/
def decimalFrom (v : ℕ) (digits : List UInt8) : ℕ :=
  digits.foldl (fun v c => v * 10 + (c.toNat - 48)) v

theorem le_decimalFrom (v : ℕ) (digits : List UInt8) : v ≤ decimalFrom v digits := by
  induction digits generalizing v with
  | nil => exact le_rfl
  | cons c ds ih => exact le_trans (by omega) (ih (v * 10 + (c.toNat - 48)))

/-- A version number. -/
structure Number where
  digits : List UInt8
  nonempty : digits ≠ []
  digit : ∀ c ∈ digits, isDigit c = true
  small : decimalFrom 0 digits ≤ 999

/-- The value of a version number. -/
def Number.value (n : Number) : ℕ := decimalFrom 0 n.digits

/-- What may stand behind the version. -/
inductive LineEnd where
  | lf
  | crLf (spaces : ℕ)
deriving DecidableEq, Repr

def LineEnd.text : LineEnd → List UInt8
  | lf => [cLf]
  | crLf spaces => List.replicate spaces cSp ++ [cCr, cLf]

/-- The line from the version on. -/
structure VersionText where
  major : Number
  minor : Number
  lineEnd : LineEnd

def VersionText.text (v : VersionText) : List UInt8 :=
  v.major.digits ++ cDot :: (v.minor.digits ++ v.lineEnd.text)

def VersionText.version (v : VersionText) : Version := ⟨v.major.value, v.minor.value⟩

/-- The name of a method. -/
def Method.name : Method → List UInt8
  | get => bytes "GET"
  | put => bytes "PUT"
  | post => bytes "POST"
  | head => bytes "HEAD"
  | trace => bytes "TRACE"
  | delete => bytes "DELETE"
  | connect => bytes "CONNECT"
  | options => bytes "OPTIONS"

/-- A request line. -/
structure LineText where
  method : Method
  spaces : ℕ
  target : List UInt8
  spaces' : ℕ
  version : VersionText
  nonempty : target ≠ []
  noSpace : cSp ∉ target

def LineText.text (l : LineText) : List UInt8 :=
  l.method.name ++ cSp :: (List.replicate l.spaces cSp ++ (l.target ++
    cSp :: (List.replicate l.spaces' cSp ++ (bytes "HTTP/" ++ l.version.text))))

theorem parseMethod_iff {x : List UInt8} {m : Method} : parseMethod x = some m ↔ x = m.name := by
  constructor
  · intro h
    unfold parseMethod at h
    split_ifs at h with h1 h2 h3 h4 h5 h6 h7 h8 <;> cases h <;> assumption
  · rintro rfl
    cases m <;> decide

/-- The URI automaton over the bytes `x`, of which the first stands at offset `i`. -/
def readUri (addr : ℕ) : ℕ → List UInt8 → Uri → Except Stop Uri
  | _, [], u => .ok u
  | i, c :: x, u =>
      match parseUri addr i c u with
      | .ok u' => readUri addr (i + 1) x u'
      | .error e => .error e

theorem readUri_cons {addr i : ℕ} {c : UInt8} {x : List UInt8} {u v : Uri}
    (h : readUri addr i (c :: x) u = .ok v) :
    ∃ u', parseUri addr i c u = .ok u' ∧ readUri addr (i + 1) x u' = .ok v := by
  unfold readUri at h
  cases hp : parseUri addr i c u with
  | ok u' => rw [hp] at h; exact ⟨u', rfl, h⟩
  | error e => rw [hp] at h; cases h

/-- The URI behind a target: the path is cut when the entries are fewer than the double dots. -/
def Uri.fallback (u : Uri) : Uri :=
  if u.nentries < u.nddots then { u with absPath := { u.absPath with len := 1 } } else u

@[simp] theorem traversalFallback_uri (r : Request) : (traversalFallback r).uri = r.uri.fallback := by
  unfold traversalFallback Uri.fallback
  split <;> rfl
@[simp] theorem traversalFallback_method (r : Request) : (traversalFallback r).method = r.method := by
  unfold traversalFallback
  split <;> rfl
@[simp] theorem traversalFallback_version (r : Request) :
    (traversalFallback r).version = r.version := by
  unfold traversalFallback
  split <;> rfl

/-! ### Words and spaces -/

/-- A space in front of a word that has none ends it. -/
theorem word_end {x w y : List UInt8} (h : cSp :: x = w ++ cSp :: y) (hw : cSp ∉ w) : w = [] ∧ x = y := by
  cases w with
  | nil => exact ⟨rfl, (List.cons.inj h).2⟩
  | cons b w => exact absurd (by rw [(List.cons.inj h).1]; simp) hw

/-- Another byte belongs to the word. -/
theorem word_byte {c : UInt8} {x w y : List UInt8} (hc : c ≠ cSp) (h : c :: x = w ++ cSp :: y) :
    ∃ w', w = c :: w' ∧ x = w' ++ cSp :: y := by
  cases w with
  | nil => exact absurd (List.cons.inj h).1 hc
  | cons b w =>
      obtain ⟨rfl, hx⟩ := List.cons.inj h
      exact ⟨w, rfl, hx⟩

/-- No space is in front of it. -/
theorem spaces_byte {c : UInt8} {x y : List UInt8} {k : ℕ} (hc : c ≠ cSp)
    (h : c :: x = List.replicate k cSp ++ y) : k = 0 ∧ c :: x = y := by
  cases k with
  | zero => exact ⟨rfl, h⟩
  | succ k => exact absurd (List.cons.inj h).1 hc

/-! ### One byte -/

/-- What has been read of a request line. -/
structure LineData where
  method : Option Method
  version : Version
  uri : Uri

def Request.lineData (r : Request) : LineData := ⟨r.method, r.version, r.uri⟩

/-- The loop accepts behind the bytes `x`, with `d`. -/
def Ends (s : List UInt8) (i : ℕ) (r : Request) (x : List UInt8) (d : LineData) : Prop :=
  ∃ p r', StopsAfter requestLineByte (s.length - i) i r x.length (.done p r') ∧ r'.lineData = d

/-- The read buffer holds `s`, and `x` comes next. -/
structure Next (s : List UInt8) (i : ℕ) (x : List UInt8) (r : Request) : Prop where
  mem : ∀ j (h : j < s.length), r.rb.mem j = s[j]
  next : x <+: s.drop i

section state

variable {s x : List UInt8} {i : ℕ} {r : Request} {c : UInt8} {d : LineData}

theorem Next.byte (h : Next s i (c :: x) r) : r.rb.mem i = c ∧ i < s.length := by
  obtain ⟨t, ht⟩ := h.next
  have hi : i < s.length := by
    by_contra hge
    rw [List.drop_eq_nil_of_le (not_lt.mp hge)] at ht
    cases ht
  refine ⟨?_, hi⟩
  rw [List.drop_eq_getElem_cons hi] at ht
  rw [h.mem i hi]
  exact (List.cons.inj ht).1.symm

theorem Next.tail (h : Next s i (c :: x) r) {r' : Request} (hr : r'.rb = r.rb) :
    Next s (i + 1) x r' := by
  refine ⟨hr ▸ h.mem, ?_⟩
  obtain ⟨t, ht⟩ := h.next
  rw [List.drop_eq_getElem_cons h.byte.2] at ht
  exact ⟨t, (List.cons.inj ht).2⟩

theorem ends_nil : ¬ Ends s i r [] d := fun ⟨_, _, h, _⟩ => h

theorem ends_cons (h : Next s i (c :: x) r) :
    Ends s i r (c :: x) d ↔
      match requestLineByte i r with
      | .more r' => Ends s (i + 1) r' x d
      | .stop (.done _ r') => x = [] ∧ r'.lineData = d
      | .stop _ => False := by
  have hlen : s.length - i = s.length - (i + 1) + 1 := by
    have := h.byte.2
    omega
  unfold Ends
  simp only [List.length_cons, hlen, stopsAfter_succ]
  cases requestLineByte i r with
  | more r' => rfl
  | stop e => cases e <;> simp [eq_comm]

/-! ### Behind the version -/

theorem ends_almostDone (h : Next s i x r) (hs : r.state = .rlAlmostDone) :
    Ends s i r x d ↔ x = [cLf] ∧ r.lineData = d := by
  cases x with
  | nil => simp [ends_nil]
  | cons c x =>
      rw [ends_cons h]
      unfold requestLineByte
      rw [hs, h.byte.1]
      dsimp only
      by_cases hc : c = cLf
      · simp [hc]
      · simp [hc]

theorem LineEnd.first {e : LineEnd} (he : c :: x = e.text) (hsp : c ≠ cSp) (hcr : c ≠ cCr)
    (hlf : c ≠ cLf) : False := by
  cases e with
  | lf => exact hlf (List.cons.inj he).1
  | crLf n =>
      cases n with
      | zero => exact hcr (List.cons.inj he).1
      | succ n => exact hsp (List.cons.inj he).1

theorem LineEnd.space {e : LineEnd} (he : cSp :: x = e.text) :
    ∃ n, e = .crLf (n + 1) ∧ x = (LineEnd.crLf n).text := by
  cases e with
  | lf => simp [LineEnd.text] at he
  | crLf n =>
      cases n with
      | zero => simp [LineEnd.text] at he
      | succ n => exact ⟨n, rfl, (List.cons.inj he).2⟩

theorem LineEnd.cr {e : LineEnd} (he : cCr :: x = e.text) : x = [cLf] := by
  cases e with
  | lf => simp [LineEnd.text] at he
  | crLf n =>
      cases n with
      | zero => exact (List.cons.inj he).2
      | succ n => simp [LineEnd.text, List.replicate_succ] at he

theorem LineEnd.nl {e : LineEnd} (he : cLf :: x = e.text) : x = [] := by
  cases e with
  | lf => exact (List.cons.inj he).2
  | crLf n => cases n <;> simp [LineEnd.text, List.replicate_succ] at he

theorem LineEnd.not_digit {e : LineEnd} (he : e.text = c :: x) : isDigit c = false := by
  by_contra hc
  rw [Bool.not_eq_false] at hc
  refine LineEnd.first he.symm ?_ ?_ ?_
  all_goals
    rintro rfl
    exact absurd hc (by decide)

theorem ends_spAfterVersion (h : Next s i x r) (hs : r.state = .rlSpAfterVersion) :
    Ends s i r x d ↔ ∃ n, x = (LineEnd.crLf n).text ∧ r.lineData = d := by
  induction x generalizing i with
  | nil => simp [ends_nil, LineEnd.text]
  | cons c x ih =>
      rw [ends_cons h]
      unfold requestLineByte
      rw [hs, h.byte.1]
      dsimp only
      by_cases hsp : c = cSp
      · subst hsp
        rw [if_pos rfl]
        refine Iff.trans (ih (h.tail rfl)) ?_
        constructor
        · rintro ⟨n, rfl, hd⟩
          exact ⟨n + 1, rfl, hd⟩
        · rintro ⟨n, hx, hd⟩
          obtain ⟨m, -, hx'⟩ := LineEnd.space hx
          exact ⟨m, hx', hd⟩
      · rw [if_neg hsp]
        by_cases hcr : c = cCr
        · subst hcr
          rw [if_pos rfl]
          refine Iff.trans (ends_almostDone (h.tail (by rfl)) (by rfl)) ?_
          constructor
          · rintro ⟨rfl, hd⟩
            exact ⟨0, rfl, hd⟩
          · rintro ⟨n, hx, hd⟩
            exact ⟨LineEnd.cr hx, hd⟩
        · rw [if_neg hcr]
          simp only [false_iff]
          rintro ⟨n, hx, -⟩
          cases n with
          | zero => exact hcr (List.cons.inj hx).1
          | succ n => exact hsp (List.cons.inj hx).1

/-! ### The version -/

theorem versionDigit_eq {v : ℕ} {c : UInt8} (hv : v ≤ 999) (hc : isDigit c = true) :
    versionDigit v c = v * 10 + (c.toNat - 48) := by
  have h57 : c.toNat ≤ 57 := by
    unfold isDigit at hc
    rw [Bool.and_eq_true, decide_eq_true_eq, decide_eq_true_eq] at hc
    exact UInt8.le_iff_toNat_le.mp hc.2
  unfold versionDigit
  omega

theorem decimalFrom_cons {v : ℕ} {c : UInt8} (ds : List UInt8) (hv : v ≤ 999) (hc : isDigit c = true) :
    decimalFrom v (c :: ds) = decimalFrom (versionDigit v c) ds := by
  rw [versionDigit_eq hv hc]
  rfl

/-- A byte in front of digits and of something that does not begin with a digit. -/
theorem cons_eq_digits {P : List UInt8 → List UInt8 → Prop}
    (hP : ∀ ds b y, P ds (b :: y) → isDigit b = false) :
    (∃ ds y, c :: x = ds ++ y ∧ (∀ b ∈ ds, isDigit b = true) ∧ P ds y) ↔
      if isDigit c = true then
        ∃ ds y, x = ds ++ y ∧ (∀ b ∈ ds, isDigit b = true) ∧ P (c :: ds) y
      else P [] (c :: x) := by
  split_ifs with hc
  · constructor
    · rintro ⟨ds, y, hx, hds, hp⟩
      cases ds with
      | nil =>
          obtain rfl : c :: x = y := hx
          exact absurd (hP _ _ _ hp) (by simp [hc])
      | cons b ds =>
          obtain ⟨rfl, rfl⟩ := List.cons.inj hx
          exact ⟨ds, y, rfl, (List.forall_mem_cons.mp hds).2, hp⟩
    · rintro ⟨ds, y, rfl, hds, hp⟩
      exact ⟨c :: ds, y, rfl, List.forall_mem_cons.mpr ⟨hc, hds⟩, hp⟩
  · constructor
    · rintro ⟨ds, y, hx, hds, hp⟩
      cases ds with
      | nil =>
          obtain rfl : c :: x = y := hx
          exact hp
      | cons b ds =>
          obtain ⟨rfl, rfl⟩ := List.cons.inj hx
          exact absurd ((List.forall_mem_cons.mp hds).1) hc
    · intro hp
      exact ⟨[], c :: x, rfl, by simp, hp⟩

theorem ends_minor (h : Next s i x r) (hs : r.state = .rlHttpVersionMinor)
    (hv : r.version.minor ≤ 999) :
    Ends s i r x d ↔ ∃ ds y, x = ds ++ y ∧ (∀ c ∈ ds, isDigit c = true) ∧
      ∃ e : LineEnd, y = e.text ∧ decimalFrom r.version.minor ds ≤ 999 ∧
        { r.lineData with version := ⟨r.version.major, decimalFrom r.version.minor ds⟩ } = d := by
  induction x generalizing i r with
  | nil =>
      simp only [ends_nil, false_iff]
      rintro ⟨ds, y, hx, -, e, rfl, -⟩
      cases e <;> simp [LineEnd.text] at hx
  | cons c x ih =>
      rw [ends_cons h, cons_eq_digits fun _ _ _ ⟨_, he, _⟩ => LineEnd.not_digit he.symm]
      unfold requestLineByte
      rw [hs, h.byte.1]
      dsimp only
      by_cases hc : isDigit c = true
      · rw [if_pos hc, if_pos hc]
        simp only [decimalFrom_cons _ hv hc]
        by_cases hbig : versionDigit r.version.minor c > 999
        · rw [if_pos hbig]
          simp only [false_iff]
          rintro ⟨ds, y, -, -, e, -, hle, -⟩
          exact absurd (le_decimalFrom (versionDigit r.version.minor c) ds) (by omega)
        · rw [if_neg hbig]
          exact ih (h.tail (by rfl)) (by rfl) (not_lt.mp hbig)
      · rw [if_neg hc, if_neg hc]
        by_cases hsp : c = cSp
        · subst hsp
          rw [if_pos rfl]
          refine Iff.trans (ends_spAfterVersion (h.tail (by rfl)) (by rfl)) ?_
          constructor
          · rintro ⟨n, rfl, hd⟩
            exact ⟨.crLf (n + 1), rfl, hv, hd⟩
          · rintro ⟨e, hx, -, hd⟩
            obtain ⟨n, -, hx'⟩ := LineEnd.space hx
            exact ⟨n, hx', hd⟩
        · rw [if_neg hsp]
          by_cases hcr : c = cCr
          · subst hcr
            rw [if_pos rfl]
            refine Iff.trans (ends_almostDone (h.tail (by rfl)) (by rfl)) ?_
            constructor
            · rintro ⟨rfl, hd⟩
              exact ⟨.crLf 0, rfl, hv, hd⟩
            · rintro ⟨e, hx, -, hd⟩
              exact ⟨LineEnd.cr hx, hd⟩
          · rw [if_neg hcr]
            by_cases hlf : c = cLf
            · subst hlf
              rw [if_pos rfl]
              constructor
              · rintro ⟨rfl, hd⟩
                exact ⟨.lf, rfl, hv, hd⟩
              · rintro ⟨e, hx, -, hd⟩
                exact ⟨LineEnd.nl hx, hd⟩
            · rw [if_neg hlf]
              simp only [false_iff]
              rintro ⟨e, hx, -⟩
              exact LineEnd.first hx hsp hcr hlf

theorem versionDigit_first {c : UInt8} (hc : isDigit c = true) : versionDigit 0 c ≤ 999 := by
  unfold isDigit at hc
  rw [Bool.and_eq_true, decide_eq_true_eq, decide_eq_true_eq] at hc
  have h57 : c.toNat ≤ 57 := UInt8.le_iff_toNat_le.mp hc.2
  unfold versionDigit
  omega

/-- A version number from its first digit on. -/
def Number.cons (c : UInt8) (ds : List UInt8) (hc : isDigit c = true)
    (hds : ∀ b ∈ ds, isDigit b = true) (hle : decimalFrom (versionDigit 0 c) ds ≤ 999) : Number where
  digits := c :: ds
  nonempty := List.cons_ne_nil _ _
  digit := List.forall_mem_cons.mpr ⟨hc, hds⟩
  small := by rwa [decimalFrom_cons ds (Nat.zero_le _) hc]

theorem ends_dot (h : Next s i x r) (hs : r.state = .rlHttpVersionDot) (h0 : r.version.minor = 0) :
    Ends s i r x d ↔ ∃ (n : Number) (e : LineEnd), x = n.digits ++ e.text ∧
      { r.lineData with version := ⟨r.version.major, n.value⟩ } = d := by
  cases x with
  | nil =>
      simp only [ends_nil, false_iff]
      rintro ⟨n, e, hx, -⟩
      exact n.nonempty (List.append_eq_nil_iff.mp hx.symm).1
  | cons c x =>
      rw [ends_cons h]
      unfold requestLineByte
      rw [hs, h.byte.1]
      dsimp only
      by_cases hc : isDigit c = true
      · rw [if_pos hc, h0]
        refine Iff.trans (ends_minor (h.tail (by rfl)) (by rfl) (versionDigit_first hc)) ?_
        constructor
        · rintro ⟨ds, y, rfl, hds, e, rfl, hle, hd⟩
          refine ⟨.cons c ds hc hds hle, e, rfl, ?_⟩
          rw [← hd, Number.value, Number.cons, decimalFrom_cons ds (Nat.zero_le _) hc]
          rfl
        · rintro ⟨n, e, hx, hd⟩
          obtain ⟨digits, hne, hdig, hle⟩ := n
          cases digits with
          | nil => exact absurd rfl hne
          | cons b ds =>
              obtain ⟨rfl, rfl⟩ := List.cons.inj hx
              rw [Number.value, decimalFrom_cons ds (Nat.zero_le _) hc] at hd
              rw [decimalFrom_cons ds (Nat.zero_le _) hc] at hle
              exact ⟨ds, _, rfl, (List.forall_mem_cons.mp hdig).2, e, rfl, hle, hd⟩
      · rw [if_neg hc]
        simp only [false_iff]
        rintro ⟨n, e, hx, -⟩
        obtain ⟨digits, hne, hdig, hle⟩ := n
        cases digits with
        | nil => exact hne rfl
        | cons b ds =>
            obtain ⟨rfl, -⟩ := List.cons.inj hx
            exact hc (hdig c (by simp))

theorem ends_major (h : Next s i x r) (hs : r.state = .rlHttpVersionMajor)
    (hv : r.version.major ≤ 999) (h0 : r.version.minor = 0) :
    Ends s i r x d ↔ ∃ ds y, x = ds ++ y ∧ (∀ c ∈ ds, isDigit c = true) ∧
      ∃ (n : Number) (e : LineEnd), y = cDot :: (n.digits ++ e.text) ∧
        decimalFrom r.version.major ds ≤ 999 ∧
        { r.lineData with version := ⟨decimalFrom r.version.major ds, n.value⟩ } = d := by
  induction x generalizing i r with
  | nil =>
      simp only [ends_nil, false_iff]
      rintro ⟨ds, y, hx, -, n, e, rfl, -⟩
      simp at hx
  | cons c x ih =>
      rw [ends_cons h, cons_eq_digits fun _ _ _ ⟨_, _, hy, _⟩ => by
        rw [(List.cons.inj hy).1]
        decide]
      unfold requestLineByte
      rw [hs, h.byte.1]
      dsimp only
      by_cases hc : isDigit c = true
      · rw [if_pos hc, if_pos hc]
        simp only [decimalFrom_cons _ hv hc]
        by_cases hbig : versionDigit r.version.major c > 999
        · rw [if_pos hbig]
          simp only [false_iff]
          rintro ⟨ds, y, -, -, n, e, -, hle, -⟩
          exact absurd (le_decimalFrom (versionDigit r.version.major c) ds) (by omega)
        · rw [if_neg hbig]
          exact ih (h.tail (by rfl)) (by rfl) (not_lt.mp hbig) h0
      · rw [if_neg hc, if_neg hc]
        by_cases hdot : c = cDot
        · subst hdot
          rw [if_pos rfl]
          refine Iff.trans (ends_dot (h.tail (by rfl)) (by rfl) h0) ?_
          constructor
          · rintro ⟨n, e, rfl, hd⟩
            exact ⟨n, e, rfl, hv, hd⟩
          · rintro ⟨n, e, hx, -, hd⟩
            exact ⟨n, e, (List.cons.inj hx).2, hd⟩
        · rw [if_neg hdot]
          simp only [false_iff]
          rintro ⟨n, e, hx, -⟩
          exact hdot (List.cons.inj hx).1

theorem ends_slash (h : Next s i x r) (hs : r.state = .rlHttpVersionSlash)
    (h0 : r.version = ⟨0, 0⟩) :
    Ends s i r x d ↔ ∃ v : VersionText, x = v.text ∧ { r.lineData with version := v.version } = d := by
  cases x with
  | nil =>
      simp only [ends_nil, false_iff]
      rintro ⟨v, hx, -⟩
      exact v.major.nonempty (List.append_eq_nil_iff.mp hx.symm).1
  | cons c x =>
      rw [ends_cons h]
      unfold requestLineByte
      rw [hs, h.byte.1]
      dsimp only
      by_cases hc : isDigit c = true
      · rw [if_pos hc, h0]
        refine Iff.trans (ends_major (h.tail (by rfl)) (by rfl) (versionDigit_first hc) (by rfl)) ?_
        constructor
        · rintro ⟨ds, y, rfl, hds, n, e, rfl, hle, hd⟩
          refine ⟨⟨.cons c ds hc hds hle, n, e⟩, rfl, ?_⟩
          rw [← hd, VersionText.version, Number.value, Number.cons,
            decimalFrom_cons ds (Nat.zero_le _) hc]
          rfl
        · rintro ⟨⟨⟨digits, hne, hdig, hle⟩, n, e⟩, hx, hd⟩
          cases digits with
          | nil => exact absurd rfl hne
          | cons b ds =>
              obtain ⟨rfl, rfl⟩ := List.cons.inj hx
              rw [VersionText.version, Number.value, decimalFrom_cons ds (Nat.zero_le _) hc] at hd
              rw [decimalFrom_cons ds (Nat.zero_le _) hc] at hle
              exact ⟨ds, _, rfl, (List.forall_mem_cons.mp hdig).2, n, e, rfl, hle, hd⟩
      · rw [if_neg hc]
        simp only [false_iff]
        rintro ⟨⟨⟨digits, hne, hdig, hle⟩, n, e⟩, hx, -⟩
        cases digits with
        | nil => exact hne rfl
        | cons b ds =>
            obtain ⟨rfl, -⟩ := List.cons.inj hx
            exact hc (hdig c (by simp))

/-! ### In front of the version -/

/-- A state that expects one byte. -/
theorem ends_expect (b : UInt8) {st : PState} (h : Next s i x r)
    (hstep : requestLineByte i r =
      if r.rb.mem i = b then .more { r with state := st } else .stop (.ret .errInvalidRequest r)) :
    Ends s i r x d ↔ ∃ y, x = b :: y ∧ Next s (i + 1) y { r with state := st } ∧
      Ends s (i + 1) { r with state := st } y d := by
  cases x with
  | nil => simp [ends_nil]
  | cons c x =>
      rw [ends_cons h, hstep, h.byte.1]
      by_cases hc : c = b
      · rw [if_pos hc]
        constructor
        · exact fun he => ⟨x, by rw [hc], h.tail (by rfl), he⟩
        · rintro ⟨y, hx, -, he⟩
          rwa [(List.cons.inj hx).2]
      · rw [if_neg hc]
        simp only [false_iff]
        rintro ⟨y, hx, -⟩
        exact hc (List.cons.inj hx).1

theorem ends_httpH (h : Next s i x r) (hs : r.state = .rlHttpH) (h0 : r.version = ⟨0, 0⟩) :
    Ends s i r x d ↔ ∃ v : VersionText, x = bytes "TTP/" ++ v.text ∧
      { r.lineData with version := v.version } = d := by
  rw [ends_expect 84 h (by unfold requestLineByte; rw [hs])]
  constructor
  · rintro ⟨x, rfl, h, he⟩
    obtain ⟨x, rfl, h, he⟩ := (ends_expect 84 h rfl).mp he
    obtain ⟨x, rfl, h, he⟩ := (ends_expect 80 h rfl).mp he
    obtain ⟨x, rfl, h, he⟩ := (ends_expect cSlash h rfl).mp he
    obtain ⟨v, rfl, hd⟩ := (ends_slash h rfl h0).mp he
    exact ⟨v, rfl, hd⟩
  · rintro ⟨v, rfl, hd⟩
    have h1 : Next s _ _ { r with state := .rlHttpHt } := h.tail rfl
    have h2 : Next s _ _ { r with state := .rlHttpHtt } := h1.tail rfl
    have h3 : Next s _ _ { r with state := .rlHttpHttp } := h2.tail rfl
    have h4 : Next s _ _ { r with state := .rlHttpVersionSlash } := h3.tail rfl
    refine ⟨_, rfl, h1, (ends_expect 84 h1 rfl).mpr ⟨_, rfl, h2, ?_⟩⟩
    refine (ends_expect 80 h2 rfl).mpr ⟨_, rfl, h3, ?_⟩
    refine (ends_expect cSlash h3 rfl).mpr ⟨_, rfl, h4, ?_⟩
    exact (ends_slash h4 rfl h0).mpr ⟨v, rfl, hd⟩

theorem ends_spBeforeVersion (h : Next s i x r) (hs : r.state = .rlSpBeforeVersion)
    (h0 : r.version = ⟨0, 0⟩) :
    Ends s i r x d ↔ ∃ (n : ℕ) (v : VersionText),
      x = List.replicate n cSp ++ (bytes "HTTP/" ++ v.text) ∧
        { r.lineData with version := v.version } = d := by
  induction x generalizing i with
  | nil =>
      simp only [ends_nil, false_iff]
      rintro ⟨n, v, hx, -⟩
      exact absurd (List.append_eq_nil_iff.mp (List.append_eq_nil_iff.mp hx.symm).2).1 (by decide)
  | cons c x ih =>
      rw [ends_cons h]
      unfold requestLineByte
      rw [hs, h.byte.1]
      dsimp only
      by_cases hsp : c = cSp
      · subst hsp
        rw [if_pos rfl]
        refine Iff.trans (ih (h.tail (by rfl))) ?_
        constructor
        · rintro ⟨n, v, rfl, hd⟩
          exact ⟨n + 1, v, rfl, hd⟩
        · rintro ⟨n, v, hx, hd⟩
          cases n with
          | zero => exact absurd (List.cons.inj hx).1 (by decide)
          | succ n => exact ⟨n, v, (List.cons.inj hx).2, hd⟩
      · rw [if_neg hsp]
        by_cases hh : c = 72
        · subst hh
          rw [if_pos rfl]
          refine Iff.trans (ends_httpH (h.tail (by rfl)) (by rfl) h0) ?_
          constructor
          · rintro ⟨v, rfl, hd⟩
            exact ⟨0, v, rfl, hd⟩
          · rintro ⟨n, v, hx, hd⟩
            obtain ⟨rfl, hx⟩ := spaces_byte hsp hx
            exact ⟨v, (List.cons.inj hx).2, hd⟩
        · rw [if_neg hh]
          simp only [false_iff]
          rintro ⟨n, v, hx, -⟩
          obtain ⟨rfl, hx⟩ := spaces_byte hsp hx
          exact hh (List.cons.inj hx).1

/-! ### The target -/

/-- A blank that is not a space is in no URI. -/
theorem parseUri_blank {addr : ℕ} {u u' : Uri} (hc : c = cTab ∨ c = cCr ∨ c = cLf) :
    parseUri addr i c u ≠ .ok u' := by
  intro h
  rcases hc with rfl | rfl | rfl <;> unfold parseUri at h <;> cases hs : u.state <;>
    rw [hs] at h <;> simp +decide [uriByte, uriEntry, uriExtension] at h

/-- A target in the automaton, from the byte `i` on. -/
theorem ends_uri (h : Next s i x r) (hs : r.state = .rlUri) (h0 : r.version = ⟨0, 0⟩) :
    Ends s i r x d ↔ ∃ t u n, ∃ v : VersionText,
      x = t ++ cSp :: (List.replicate n cSp ++ (bytes "HTTP/" ++ v.text)) ∧ cSp ∉ t ∧
        readUri r.rb.addr i (t ++ [cSp]) r.uri = .ok u ∧ ⟨r.method, v.version, u.fallback⟩ = d := by
  induction x generalizing i r with
  | nil => simp [ends_nil]
  | cons c x ih =>
      rw [ends_cons h]
      unfold requestLineByte requestLineUri
      rw [hs, h.byte.1]
      dsimp only
      by_cases hsp : c = cSp
      · subst hsp
        rw [if_neg (by decide), if_pos rfl]
        cases hp : parseUri r.rb.addr i cSp r.uri with
        | error e =>
            refine Iff.trans (by cases e <;> exact Iff.rfl) (iff_of_false id ?_)
            rintro ⟨t, u, n, v, hx, hn, hu, -⟩
            obtain ⟨rfl, -⟩ := word_end hx hn
            simp [readUri, hp] at hu
        | ok u =>
            refine Iff.trans (ends_spBeforeVersion (h.tail (by simp)) (by simp) (by simpa using h0)) ?_
            constructor
            · rintro ⟨n, v, rfl, hd⟩
              refine ⟨[], u, n, v, rfl, by simp, by simp [readUri, hp], ?_⟩
              rw [← hd]
              simp [Request.lineData]
            · rintro ⟨t, u', n, v, hx, hn, hu, hd⟩
              obtain ⟨rfl, rfl⟩ := word_end hx hn
              obtain rfl : u = u' := by simpa [readUri, hp] using hu
              refine ⟨n, v, rfl, ?_⟩
              rw [← hd]
              simp [Request.lineData]
      · rw [if_neg hsp]
        by_cases hblank : c = cTab ∨ c = cCr ∨ c = cLf
        · rw [if_pos hblank]
          refine iff_of_false id ?_
          rintro ⟨t, u, n, v, hx, -, hu, -⟩
          obtain ⟨t, rfl, -⟩ := word_byte hsp hx
          obtain ⟨u', hp, -⟩ := readUri_cons hu
          exact parseUri_blank hblank hp
        · rw [if_neg hblank]
          cases hp : parseUri r.rb.addr i c r.uri with
          | error e =>
              refine Iff.trans (by cases e <;> exact Iff.rfl) (iff_of_false id ?_)
              rintro ⟨t, u, n, v, hx, -, hu, -⟩
              obtain ⟨t, rfl, -⟩ := word_byte hsp hx
              obtain ⟨u', hp', -⟩ := readUri_cons hu
              rw [hp] at hp'
              cases hp'
          | ok u' =>
              refine Iff.trans (ih (h.tail (by rfl)) (by rfl) h0) ?_
              constructor
              · rintro ⟨t, u, n, v, rfl, hn, hu, hd⟩
                refine ⟨c :: t, u, n, v, rfl, ?_, ?_, hd⟩
                · rw [List.mem_cons, not_or]
                  exact ⟨Ne.symm hsp, hn⟩
                · show readUri r.rb.addr i (c :: (t ++ [cSp])) r.uri = .ok u
                  rw [readUri, hp]
                  exact hu
              · rintro ⟨t, u, n, v, hx, hn, hu, hd⟩
                obtain ⟨t, rfl, rfl⟩ := word_byte hsp hx
                obtain ⟨u'', hp', hu⟩ := readUri_cons hu
                rw [hp] at hp'
                cases hp'
                exact ⟨t, u, n, v, rfl, fun hm => hn (List.mem_cons_of_mem _ hm), hu, hd⟩

theorem ends_spBeforeUri (h : Next s i x r) (hs : r.state = .rlSpBeforeUri)
    (h0 : r.version = ⟨0, 0⟩) (hu : r.uri = Uri.init) :
    Ends s i r x d ↔ ∃ k t u n, ∃ v : VersionText,
      x = List.replicate k cSp ++ (t ++ cSp :: (List.replicate n cSp ++ (bytes "HTTP/" ++ v.text))) ∧
        t ≠ [] ∧ cSp ∉ t ∧ readUri r.rb.addr (i + k) (t ++ [cSp]) Uri.init = .ok u ∧
          ⟨r.method, v.version, u.fallback⟩ = d := by
  induction x generalizing i with
  | nil =>
      simp only [ends_nil, false_iff]
      rintro ⟨k, t, u, n, v, hx, -⟩
      simp at hx
  | cons c x ih =>
      rw [ends_cons h]
      unfold requestLineByte requestLineUri
      rw [hs, h.byte.1]
      dsimp only
      by_cases hsp : c = cSp
      · subst hsp
        rw [if_neg (by decide), if_pos rfl]
        refine Iff.trans (ih (h.tail (by rfl))) ?_
        constructor
        · rintro ⟨k, t, u, n, v, rfl, hne, hn, hr, hd⟩
          refine ⟨k + 1, t, u, n, v, rfl, hne, hn, ?_, hd⟩
          rwa [show i + (k + 1) = i + 1 + k by omega]
        · rintro ⟨k, t, u, n, v, hx, hne, hn, hr, hd⟩
          cases k with
          | zero =>
              cases t with
              | nil => exact absurd rfl hne
              | cons b t => exact absurd (by rw [(List.cons.inj hx).1]; simp) hn
          | succ k =>
              refine ⟨k, t, u, n, v, (List.cons.inj hx).2, hne, hn, ?_, hd⟩
              rwa [show i + 1 + k = i + (k + 1) by omega]
      · by_cases hblank : c = cTab ∨ c = cCr ∨ c = cLf
        · rw [if_pos hblank]
          refine iff_of_false id ?_
          rintro ⟨k, t, u, n, v, hx, -, -, hr, -⟩
          obtain ⟨rfl, hx⟩ := spaces_byte hsp hx
          obtain ⟨t, rfl, -⟩ := word_byte hsp hx
          obtain ⟨u', hp, -⟩ := readUri_cons hr
          exact parseUri_blank hblank hp
        · rw [if_neg hblank, if_neg hsp, hu, show ({ Uri.init with state := .uriBegin } : Uri) = Uri.init from rfl]
          cases hp : parseUri r.rb.addr i c Uri.init with
          | error e =>
              refine Iff.trans (by cases e <;> exact Iff.rfl) (iff_of_false id ?_)
              rintro ⟨k, t, u, n, v, hx, -, -, hr, -⟩
              obtain ⟨rfl, hx⟩ := spaces_byte hsp hx
              obtain ⟨t, rfl, -⟩ := word_byte hsp hx
              obtain ⟨u', hp', -⟩ := readUri_cons hr
              rw [Nat.add_zero, hp] at hp'
              cases hp'
          | ok u' =>
              refine Iff.trans (ends_uri (h.tail (by rfl)) (by rfl) h0) ?_
              constructor
              · rintro ⟨t, u, n, v, rfl, hn, hr, hd⟩
                refine ⟨0, c :: t, u, n, v, rfl, List.cons_ne_nil _ _, ?_, ?_, hd⟩
                · rw [List.mem_cons, not_or]
                  exact ⟨Ne.symm hsp, hn⟩
                · show readUri r.rb.addr i (c :: (t ++ [cSp])) Uri.init = .ok u
                  rw [readUri, hp]
                  exact hr
              · rintro ⟨k, t, u, n, v, hx, -, hn, hr, hd⟩
                obtain ⟨rfl, hx⟩ := spaces_byte hsp hx
                obtain ⟨t, rfl, rfl⟩ := word_byte hsp hx
                obtain ⟨u'', hp', hr⟩ := readUri_cons hr
                rw [Nat.add_zero, hp] at hp'
                cases hp'
                exact ⟨t, u, n, v, rfl, fun hm => hn (List.mem_cons_of_mem _ hm), hr, hd⟩

/-! ### The method -/

theorem Next.slice (h : Next s i x r) (hi : i ≤ s.length) : r.rb.slice 0 i = s.take i := by
  apply List.ext_getElem
  · simp [hi]
  · intro k h1 h2
    rw [Buffer.getElem_slice, List.getElem_take, Nat.zero_add]
    exact h.mem k _

theorem ends_method (h : Next s i x r) (hi : i ≤ s.length) (hs : r.state = .rlMethod)
    (hl : r.requestLine.data = .rb 0) (h0 : r.version = ⟨0, 0⟩) (hu : r.uri = Uri.init) :
    Ends s i r x d ↔ ∃ (g : List UInt8) (m : Method), s.take i ++ g = m.name ∧ cSp ∉ g ∧
      ∃ k t u n, ∃ v : VersionText,
        x = g ++ cSp :: (List.replicate k cSp ++
          (t ++ cSp :: (List.replicate n cSp ++ (bytes "HTTP/" ++ v.text)))) ∧
        t ≠ [] ∧ cSp ∉ t ∧
        readUri r.rb.addr (i + g.length + 1 + k) (t ++ [cSp]) Uri.init = .ok u ∧
        ⟨some m, v.version, u.fallback⟩ = d := by
  induction x generalizing i with
  | nil => simp [ends_nil]
  | cons c x ih =>
      have hlt := h.byte.2
      rw [ends_cons h]
      unfold requestLineByte
      rw [hs, hl, h.byte.1]
      dsimp only
      rw [h.slice hi]
      by_cases hsp : c = cSp
      · subst hsp
        rw [if_pos rfl]
        cases hm : parseMethod (s.take i) with
        | none =>
            refine iff_of_false id ?_
            rintro ⟨g, m, hname, hn, k, t, u, n, v, hx, -⟩
            obtain ⟨rfl, -⟩ := word_end hx hn
            rw [List.append_nil] at hname
            rw [parseMethod_iff.mpr hname] at hm
            cases hm
        | some m =>
            rw [if_neg (by simp)]
            refine Iff.trans (ends_spBeforeUri (h.tail (by rfl)) (by rfl) h0 hu) ?_
            constructor
            · rintro ⟨k, t, u, n, v, rfl, hne, hn, hr, hd⟩
              refine ⟨[], m, by rw [List.append_nil]; exact parseMethod_iff.mp hm, by simp, k, t, u, n, v,
                rfl, hne, hn, hr, hd⟩
            · rintro ⟨g, m', hname, hng, k, t, u, n, v, hx, hne, hn, hr, hd⟩
              obtain ⟨rfl, rfl⟩ := word_end hx hng
              rw [List.append_nil] at hname
              rw [parseMethod_iff.mpr hname] at hm
              cases hm
              exact ⟨k, t, u, n, v, rfl, hne, hn, hr, hd⟩
      · have htake : s.take (i + 1) = s.take i ++ [c] := by
          rw [List.take_succ_eq_append_getElem hlt, ← h.mem i hlt, h.byte.1]
        rw [if_neg hsp]
        refine Iff.trans (ih (h.tail rfl) hlt) ?_
        rw [htake]
        constructor
        · rintro ⟨g, m, hname, hng, k, t, u, n, v, rfl, hne, hn, hr, hd⟩
          refine ⟨c :: g, m, by simpa using hname, ?_, k, t, u, n, v, rfl, hne, hn, ?_, hd⟩
          · rw [List.mem_cons, not_or]
            exact ⟨Ne.symm hsp, hng⟩
          · rw [List.length_cons]
            rwa [show i + (g.length + 1) + 1 + k = i + 1 + g.length + 1 + k by omega]
        · rintro ⟨g, m, hname, hng, k, t, u, n, v, hx, hne, hn, hr, hd⟩
          obtain ⟨g, rfl, rfl⟩ := word_byte hsp hx
          refine ⟨g, m, by simpa using hname, fun hm => hng (List.mem_cons_of_mem _ hm), k, t, u, n, v,
            rfl, hne, hn, ?_, hd⟩
          rw [List.length_cons] at hr
          rwa [show i + 1 + g.length + 1 + k = i + (g.length + 1) + 1 + k by omega]

end state

/-! ### The whole line -/

section line

variable {r₀ : Request} {a : ConnAddr} {s w : List UInt8} {d : LineData}

/-- The target of the line, as the URI automaton reads it. -/
def LineText.Reads (l : LineText) (r : Request) (u : Uri) : Prop :=
  readUri r.rb.addr (l.method.name.length + 1 + l.spaces) (l.target ++ [cSp]) Uri.init = .ok u

theorem Method.name_cons (m : Method) :
    ∃ c g, m.name = c :: g ∧ isUpper c = true ∧ c ≠ cSp ∧ cSp ∉ g := by
  cases m <;> exact ⟨_, _, rfl, by decide, by decide, by decide⟩

theorem freshRequest_next (hw : w <+: s) : Next s 0 w (freshRequest r₀ a s) where
  mem := freshRequest_mem r₀ a s
  next := hw

/-- **The language of the loop**: it accepts behind `w` exactly when `w` is a request line whose
target the URI automaton accepts. -/
theorem ends_begin (hw : w <+: s) :
    Ends s 0 (freshRequest r₀ a s) w d ↔ ∃ (l : LineText) (u : Uri), w = l.text ∧
      l.Reads (freshRequest r₀ a s) u ∧ ⟨some l.method, l.version.version, u.fallback⟩ = d := by
  cases w with
  | nil =>
      simp only [ends_nil, false_iff]
      rintro ⟨l, u, hx, -⟩
      obtain ⟨c, g, hg, -⟩ := l.method.name_cons
      rw [LineText.text, hg] at hx
      cases hx
  | cons c x =>
      have h := @freshRequest_next r₀ a s _ hw
      rw [ends_cons h]
      unfold requestLineByte
      rw [show (freshRequest r₀ a s).state = .rlBegin from rfl, h.byte.1]
      dsimp only
      by_cases hup : isUpper c = true
      · rw [if_pos hup]
        have htake : s.take 1 = [c] := by
          rw [List.take_succ_eq_append_getElem h.byte.2, ← h.mem 0 h.byte.2, h.byte.1]
          rfl
        refine Iff.trans (ends_method (h.tail (by rfl)) h.byte.2 (by rfl) (by rfl) (by rfl) (by rfl)) ?_
        rw [htake]
        constructor
        · rintro ⟨g, m, hname, hng, k, t, u, n, v, rfl, hne, hn, hr, hd⟩
          refine ⟨⟨m, k, t, n, v, hne, hn⟩, u, ?_, ?_, hd⟩
          · rw [LineText.text, ← hname]
            rfl
          · unfold LineText.Reads
            dsimp only
            rw [← hname]
            rw [show ([c] ++ g).length + 1 + k = 1 + g.length + 1 + k by simp; omega]
            exact hr
        · rintro ⟨l, u, hx, hr, hd⟩
          obtain ⟨b, g, hg, -, -, hng⟩ := l.method.name_cons
          rw [LineText.text, hg] at hx
          obtain ⟨rfl, hx'⟩ := List.cons.inj hx
          refine ⟨g, l.method, hg.symm, hng, l.spaces, l.target, u, l.spaces', l.version, hx', l.nonempty,
            l.noSpace, ?_, hd⟩
          unfold LineText.Reads at hr
          rw [hg] at hr
          rw [show 1 + g.length + 1 + l.spaces = (c :: g).length + 1 + l.spaces by simp; omega]
          exact hr
      · rw [if_neg hup]
        refine iff_of_false id ?_
        rintro ⟨l, u, hx, -⟩
        obtain ⟨b, g, hg, hb, -⟩ := l.method.name_cons
        rw [LineText.text, hg] at hx
        rw [(List.cons.inj hx).1] at hup
        exact hup hb

/-- The loop is left by `goto done` behind `w` exactly when `sy_parse_request_line` answers `OK` and
has consumed `w`. -/
theorem parseRequestLine_ok_iff :
    (∃ r, parseRequestLine (freshRequest r₀ a s) = .ok (.ok, r) ∧ r.rb.begin = w.length ∧
        r.lineData = d) ↔ Ends s 0 (freshRequest r₀ a s) w d := by
  have hsize : (freshRequest r₀ a s).rb.size = s.length := by
    simp [freshRequest, requestInit, Buffer.size]
  unfold parseRequestLine Ends
  rw [hsize, show (freshRequest r₀ a s).rb.begin = 0 from rfl, Nat.sub_zero]
  -- where the loop is left, and how many bytes it has read
  have hpos : ∀ {p r' len}, StopsAfter requestLineByte s.length 0 (freshRequest r₀ a s) len (.done p r') →
      len = p + 1 := by
    intro p r' len h
    cases len with
    | zero => exact h.elim
    | succ k =>
        obtain ⟨-, t, -, hstop⟩ := h
        rw [(requestLineByte_done hstop).1, Nat.zero_add]
  constructor
  · rintro ⟨r, hok, hbegin, hd⟩
    cases hscan : scan requestLineByte s.length 0 (freshRequest r₀ a s) with
    | more t => rw [hscan] at hok; cases hok
    | stop e =>
        rw [hscan] at hok
        obtain ⟨len, hlen⟩ := exists_stopsAfter hscan
        cases e with
        | abort f => cases hok
        | ret rc r' =>
            cases hok
            cases len with
            | zero => exact hlen.elim
            | succ k =>
                obtain ⟨-, t, -, hstop⟩ := hlen
                exact absurd rfl (requestLineByte_ret hstop).1
        | done p r' =>
            cases hok
            have hp := hpos hlen
            have hb : p + 1 = w.length := hbegin
            rw [hb] at hp
            subst hp
            exact ⟨p, r', hlen, hd⟩
  · rintro ⟨p, r', hstop, hd⟩
    obtain ⟨r, hr, hbegin, hdata⟩ : ∃ r, requestLineExit (.stop (.done p r')) = .ok (.ok, r) ∧
        r.rb.begin = p + 1 ∧ r.lineData = r'.lineData := ⟨_, rfl, rfl, rfl⟩
    refine ⟨r, ?_, ?_, hdata.trans hd⟩
    · rw [hstop.scan]
      exact hr
    · rw [hbegin]
      exact (hpos hstop).symm

/-- **Acceptance**: `sy_parse_request_line` answers `OK` and consumes `w` exactly when `w` is a
request line whose target the URI automaton accepts; the request then holds what the line says. -/
theorem parseRequestLine_iff (hw : w <+: s) :
    (∃ r, parseRequestLine (freshRequest r₀ a s) = .ok (.ok, r) ∧ r.rb.begin = w.length ∧
        r.lineData = d) ↔
      ∃ (l : LineText) (u : Uri), w = l.text ∧ l.Reads (freshRequest r₀ a s) u ∧
        ⟨some l.method, l.version.version, u.fallback⟩ = d :=
  parseRequestLine_ok_iff.trans (ends_begin hw)

/-- What has been consumed when the answer is `OK`. -/
theorem parseRequestLine_consumed {r : Request}
    (h : parseRequestLine (freshRequest r₀ a s) = .ok (.ok, r)) :
    ∃ (l : LineText) (u : Uri), l.text <+: s ∧ r.rb.begin = l.text.length ∧
      l.Reads (freshRequest r₀ a s) u ∧ r.method = some l.method ∧ r.version = l.version.version ∧
      r.uri = u.fallback := by
  have hbound : r.rb.begin ≤ s.length := by
    unfold parseRequestLine at h
    cases hscan : scan requestLineByte (freshRequest r₀ a s).rb.size (freshRequest r₀ a s).rb.begin
        (freshRequest r₀ a s) with
    | more t => rw [hscan] at h; cases h
    | stop e =>
        obtain ⟨len, hlen⟩ := exists_stopsAfter hscan
        rw [hscan] at h
        cases len with
        | zero => exact hlen.elim
        | succ k =>
            obtain ⟨hk, t, -, hstop⟩ := hlen
            cases e with
            | abort f => cases h
            | ret rc r' => cases h; exact absurd rfl (requestLineByte_ret hstop).1
            | done p r' =>
                cases h
                have hp := (requestLineByte_done hstop).1
                have hsize : (freshRequest r₀ a s).rb.size = s.length := by
                  simp [freshRequest, requestInit, Buffer.size]
                have h0 : (freshRequest r₀ a s).rb.begin = 0 := rfl
                show p + 1 ≤ s.length
                omega
  have hw : s.take r.rb.begin <+: s := List.take_prefix _ _
  obtain ⟨l, u, htext, hr, hd⟩ := (parseRequestLine_iff (d := r.lineData) hw).mp
    ⟨r, h, by rw [List.length_take]; omega, rfl⟩
  have hlen := congrArg List.length htext
  rw [List.length_take] at hlen
  refine ⟨l, u, htext ▸ hw, by omega, hr, ?_⟩
  unfold Request.lineData at hd
  rw [LineData.mk.injEq] at hd
  exact ⟨hd.1.symm, hd.2.1.symm, hd.2.2.symm⟩

/-- Where the parts of a line stand. -/
theorem LineText.cut {l : LineText} (hw : l.text <+: s) :
    ∃ rest, Cut s l.text.length l.method.name l.spaces l.target (cSp :: rest) := by
  refine ⟨List.replicate l.spaces' cSp ++ (bytes "HTTP/" ++ l.version.text),
    ⟨?_, ?_, l.noSpace, l.nonempty⟩⟩
  · obtain ⟨z, rfl⟩ := hw
    rw [List.take_left, LineText.text, List.replicate_succ]
    rfl
  · obtain ⟨c, g, hg, -, hc, hn⟩ := l.method.name_cons
    rw [hg, List.mem_cons, not_or]
    exact ⟨Ne.symm hc, hn⟩

theorem LineText.targetAt {l : LineText} (hw : l.text <+: s) :
    TargetAt s (l.method.name.length + (l.spaces + 1)) l.target := by
  obtain ⟨rest, hcut⟩ := LineText.cut hw
  exact hcut.targetAt

end line

end SyServer
