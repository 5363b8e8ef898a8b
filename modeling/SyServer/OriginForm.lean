import SyServer.RequestLines

/-! # Targets that begin with a slash

The URI automaton on a path and a query.  `OriginTarget` is their grammar; the automaton accepts
nothing else (`readUri_origin_iff`), so the request lines with such a target are known
(`requestLine_origin`).

What the automaton leaves in `abs_path`, `query` and `extension` is read off by an invariant over
the bytes of the target (`readUri_inv`): `UriInv` for the path, `InSlices` for the other two.  The
query is always right.  The path is not where a name with a dot is followed by a query
(`pathAndQuery_iff`), and the extension is not where the last segment has no dot, or no other than
the two it begins with (`extension_iff`). -/

namespace SyServer

/-! ### The grammar -/

/-- A byte of a path. -/
def pathByte (c : UInt8) : Bool := allowedInAbsPath c || c = cDot || c = cSlash

/-- A byte of `ALLOWED_IN_QUERY`. -/
def queryByte (c : UInt8) : Bool := pathByte c || c = cQuestion

/-- A path and perhaps a query. -/
structure OriginTarget where
  path : List UInt8
  query : Option (List UInt8)
  path_ok : ∀ c ∈ path, pathByte c = true
  query_ok : ∀ q ∈ query, ∀ c ∈ q, queryByte c = true

/-- `?` and the query. -/
def queryText : Option (List UInt8) → List UInt8
  | none => []
  | some q => cQuestion :: q

def OriginTarget.text (o : OriginTarget) : List UInt8 := cSlash :: (o.path ++ queryText o.query)

/-- A byte that no state of the path or the query accepts. -/
theorem uriByte_other_iff {c : UInt8} :
    uriByte c = .other ↔ c ≠ cSp ∧ queryByte c = false := by
  unfold uriByte queryByte pathByte
  split_ifs with h1 h2 h3 h4 h5 <;> simp_all

theorem pathByte_iff {c : UInt8} (hsp : c ≠ cSp) :
    pathByte c = true ↔ uriByte c ≠ .other ∧ c ≠ cQuestion := by
  rw [Ne, uriByte_other_iff]
  unfold queryByte
  by_cases hq : c = cQuestion
  · subst hq
    simp +decide
  · simp [hsp, hq]

section automaton

variable {addr i : ℕ} {c : UInt8} {u v : Uri} {t : List UInt8}

theorem readUri_cons_iff :
    readUri addr i (c :: t) u = .ok v ↔
      ∃ u', parseUri addr i c u = .ok u' ∧ readUri addr (i + 1) t u' = .ok v := by
  refine ⟨readUri_cons, ?_⟩
  rintro ⟨u', hp, hr⟩
  rw [readUri, hp]
  exact hr

/-- A path state accepts all bytes but those of the last group. -/
theorem parseUri_path_iff (hin : u.state.inPath = true) :
    (∃ u', parseUri addr i c u = .ok u') ↔ uriByte c ≠ .other := by
  constructor
  · rintro ⟨u', h⟩ hb
    rcases PState.inPath_cases hin with hs | hs | hs | hs | hs <;>
      simp [parseUri, uriEntry, uriExtension, hs, hb] at h
  · intro hb
    unfold parseUri uriEntry uriExtension
    rcases PState.inPath_cases hin with hs | hs | hs | hs | hs <;> rw [hs] <;>
      cases huc : uriByte c <;> first | exact absurd huc hb | exact ⟨_, rfl⟩

/-- The state behind a byte of the path. -/
theorem PathStep.state {u' : Uri} (hin : u.state.inPath = true) (h : PathStep addr i u c u') :
    (c = cQuestion → u'.state = .uriQuery) ∧
      (c ≠ cQuestion → c ≠ cSp → u'.state.inPath = true) := by
  have hcases := PState.inPath_cases hin
  cases h with
  | slash _ _ hs => exact ⟨fun e => absurd e (by decide), fun _ _ => by rw [hs]; rfl⟩
  | space => exact ⟨fun e => absurd e (by decide), fun _ hsp => absurd rfl hsp⟩
  | question _ _ hs => exact ⟨fun _ => hs, fun hq => absurd rfl hq⟩
  | dot _ _ hs =>
      refine ⟨fun e => absurd e (by decide), fun _ _ => ?_⟩
      rw [hs]
      rcases hcases with hu | hu | hu | hu | hu <;> rw [hu] <;> rfl
  | name _ _ _ hq _ _ _ hs =>
      refine ⟨fun e => absurd e hq, fun _ _ => ?_⟩
      rw [hs]
      rcases hcases with hu | hu | hu | hu | hu <;> rw [hu] <;> rfl

theorem parseUri_query (hs : u.state = .uriQuery) :
    parseUri addr i c u =
      if c = cSp then
        .ok { u with
          query := ⟨u.query.data.add 1, ptrDiff addr i (u.query.data.add 1)⟩, state := .uriBegin }
      else if uriByte c ≠ .other then .ok u
      else .error (.ret .errInvalidUri) := by
  unfold parseUri
  rw [hs]

/-- The query state accepts what is allowed in a query. -/
theorem readUri_query (hs : u.state = .uriQuery) (hsp : cSp ∉ t) :
    (∃ v, readUri addr i (t ++ [cSp]) u = .ok v) ↔ ∀ c ∈ t, queryByte c = true := by
  induction t generalizing i with
  | nil =>
      have hp := @parseUri_query addr i cSp u hs
      rw [if_pos rfl] at hp
      exact iff_of_true ⟨_, readUri_cons_iff.mpr ⟨_, hp, rfl⟩⟩ (by simp)
  | cons c t ih =>
      obtain ⟨hc, ht⟩ : c ≠ cSp ∧ cSp ∉ t := by
        simpa [eq_comm] using hsp
      rw [List.forall_mem_cons, ← ih ht (i := i + 1)]
      simp only [List.cons_append, readUri_cons_iff, parseUri_query hs, if_neg hc]
      by_cases hb : queryByte c = true
      · have : uriByte c ≠ .other := by simp [Ne, uriByte_other_iff, hb]
        simp [this, hb]
      · have : uriByte c = .other := uriByte_other_iff.mpr ⟨hc, by simpa using hb⟩
        simp [this, hb]

/-- **The path states** accept a path and perhaps a query, and nothing else. -/
theorem readUri_path (hin : u.state.inPath = true) (hsp : cSp ∉ t) :
    (∃ v, readUri addr i (t ++ [cSp]) u = .ok v) ↔
      ∃ p q, t = p ++ queryText q ∧ (∀ c ∈ p, pathByte c = true) ∧
        ∀ x ∈ q, ∀ c ∈ x, queryByte c = true := by
  induction t generalizing i u with
  | nil =>
      refine iff_of_true ?_ ⟨[], none, rfl, by simp, by simp⟩
      obtain ⟨u', hp⟩ := (@parseUri_path_iff addr i cSp u hin).mpr (by decide)
      exact ⟨u', readUri_cons_iff.mpr ⟨u', hp, rfl⟩⟩
  | cons c t ih =>
      obtain ⟨hc, ht⟩ : c ≠ cSp ∧ cSp ∉ t := by
        simpa [eq_comm] using hsp
      have hacc := @parseUri_path_iff addr i c u hin
      simp only [List.cons_append, readUri_cons_iff]
      by_cases hq : c = cQuestion
      · subst hq
        obtain ⟨u', hp⟩ := hacc.mpr (by decide)
        have hs := ((parseUri_path hin hp).state hin).1 rfl
        constructor
        · rintro ⟨v, u'', hp', hr⟩
          rw [hp] at hp'
          cases hp'
          exact ⟨[], some t, rfl, by simp, by simpa using (readUri_query hs ht).mp ⟨v, hr⟩⟩
        · rintro ⟨p, q, htext, hpath, hquery⟩
          cases p with
          | cons b p =>
              obtain ⟨rfl, -⟩ := List.cons.inj htext
              exact absurd (hpath cQuestion (by simp)) (by decide)
          | nil =>
              cases q with
              | none => cases htext
              | some q =>
                  obtain rfl : t = q := (List.cons.inj htext).2
                  obtain ⟨v, hr⟩ := (readUri_query hs ht).mpr (hquery t rfl)
                  exact ⟨v, u', hp, hr⟩
      · constructor
        · rintro ⟨v, u', hp, hr⟩
          have hs := ((parseUri_path hin hp).state hin).2 hq hc
          obtain ⟨p, q, rfl, hpath, hquery⟩ := (ih hs ht).mp ⟨v, hr⟩
          refine ⟨c :: p, q, rfl, List.forall_mem_cons.mpr ⟨?_, hpath⟩, hquery⟩
          exact (pathByte_iff hc).mpr ⟨hacc.mp ⟨u', hp⟩, hq⟩
        · rintro ⟨p, q, htext, hpath, hquery⟩
          cases p with
          | nil =>
              cases q with
              | none => cases htext
              | some q => exact absurd (List.cons.inj htext).1 hq
          | cons b p =>
              obtain ⟨rfl, rfl⟩ := List.cons.inj htext
              obtain ⟨hb, hpath⟩ := List.forall_mem_cons.mp hpath
              obtain ⟨u', hp⟩ := hacc.mpr ((pathByte_iff hc).mp hb).1
              have hs := ((parseUri_path hin hp).state hin).2 hq hc
              obtain ⟨v, hr⟩ := (ih hs ht).mpr ⟨p, q, rfl, hpath, hquery⟩
              exact ⟨v, u', hp, hr⟩

/-- A target that begins with a slash. -/
theorem readUri_origin_iff (hsp : cSp ∉ cSlash :: t) :
    (∃ v, readUri addr i (cSlash :: t ++ [cSp]) Uri.init = .ok v) ↔
      ∃ o : OriginTarget, cSlash :: t = o.text := by
  have hstep : parseUri addr i cSlash Uri.init =
      .ok { Uri.init with absPath := ⟨.rb i, 0⟩, state := .uriAbsPathSlash } := rfl
  simp only [List.cons_append, readUri_cons_iff, hstep, Except.ok.injEq, exists_eq_left']
  rw [readUri_path rfl fun hm => hsp (List.mem_cons_of_mem _ hm)]
  constructor
  · rintro ⟨p, q, rfl, hp, hq⟩
    exact ⟨⟨p, q, hp, hq⟩, rfl⟩
  · rintro ⟨⟨p, q, hp, hq⟩, htext⟩
    exact ⟨p, q, (List.cons.inj htext).2, hp, hq⟩

end automaton

/-! ### The request lines -/

section line

variable {r₀ : Request} {a : ConnAddr} {s w : List UInt8}

theorem LineText.slash {l : LineText} (hl : l.text <+: s)
    (hs : (requestTarget s).head? = some cSlash) : ∃ t, l.target = cSlash :: t := by
  rw [(LineText.targetAt hl).target] at hs
  exact ⟨_, (List.cons_head?_tail hs).symm⟩

/-- **The accepted lines** with a target that begins with a slash: `sy_parse_request_line` answers
`OK` behind `w` exactly when `w` is a method, spaces, a path with perhaps a query, spaces and a
version with its line end; the method, the version and `rb.begin` are then those of `w`. -/
theorem requestLine_origin (hs : (requestTarget s).head? = some cSlash) (hw : w <+: s) :
    ((∃ r, parseRequestLine (freshRequest r₀ a s) = .ok (.ok, r) ∧ r.rb.begin = w.length) ↔
      ∃ (l : LineText) (o : OriginTarget), w = l.text ∧ l.target = o.text) ∧
    ∀ (l : LineText) (o : OriginTarget), w = l.text → l.target = o.text →
      ∃ r, parseRequestLine (freshRequest r₀ a s) = .ok (.ok, r) ∧ r.rb.begin = w.length ∧
        r.method = some l.method ∧ r.version = ⟨l.version.major.value, l.version.minor.value⟩ := by
  have hgo : ∀ (l : LineText) (o : OriginTarget), w = l.text → l.target = o.text →
      ∃ r, parseRequestLine (freshRequest r₀ a s) = .ok (.ok, r) ∧ r.rb.begin = w.length ∧
        r.method = some l.method ∧ r.version = ⟨l.version.major.value, l.version.minor.value⟩ := by
    rintro l o rfl ho
    have hsp : cSp ∉ cSlash :: (o.path ++ queryText o.query) := by
      have := l.noSpace
      rwa [ho] at this
    obtain ⟨u, hu⟩ := (@readUri_origin_iff (freshRequest r₀ a s).rb.addr
      (l.method.name.length + 1 + l.spaces) _ hsp).mpr ⟨o, rfl⟩
    obtain ⟨r, hr, hbegin, hd⟩ := (@parseRequestLine_iff r₀ a s _ _ hw).mpr
      ⟨l, u, rfl, by unfold LineText.Reads; rw [ho]; exact hu, rfl⟩
    unfold Request.lineData at hd
    rw [LineData.mk.injEq] at hd
    exact ⟨r, hr, hbegin, hd.1, hd.2.1⟩
  refine ⟨⟨?_, ?_⟩, hgo⟩
  · rintro ⟨r, hr, hbegin⟩
    obtain ⟨l, u, rfl, hread, -⟩ := (parseRequestLine_iff hw).mp ⟨r, hr, hbegin, rfl⟩
    obtain ⟨t, ht⟩ := LineText.slash hw hs
    have hsp := l.noSpace
    unfold LineText.Reads at hread
    rw [ht] at hsp hread
    obtain ⟨o, ho⟩ := (readUri_origin_iff hsp).mp ⟨u, hread⟩
    exact ⟨l, o, rfl, ht.trans ho⟩
  · rintro ⟨l, o, hl, ho⟩
    obtain ⟨r, hr, hbegin, -⟩ := hgo l o hl ho
    exact ⟨r, hr, hbegin⟩

/-- A version number of one digit. -/
def Number.one : Number where
  digits := bytes "1"
  nonempty := by decide
  digit := List.all_eq_true.mp (by decide)
  small := by decide

/-- `GET /index.html?x=1 HTTP/1.1`. -/
def indexLine : LineText where
  method := .get
  spaces := 0
  target := bytes "/index.html?x=1"
  spaces' := 0
  version := ⟨.one, .one, .crLf 0⟩
  nonempty := by decide
  noSpace := by decide

/-- `/index.html?x=1`. -/
def indexTarget : OriginTarget where
  path := bytes "index.html"
  query := some (bytes "x=1")
  path_ok := List.all_eq_true.mp (by decide)
  query_ok := by
    rintro q ⟨⟩
    exact List.all_eq_true.mp (by decide)

theorem requestLine_origin_index :
    ∃ r, parseRequestLine (freshRequest .zeroed 0 indexLine.text) = .ok (.ok, r) ∧
      r.rb.begin = 30 ∧ r.method = some .get ∧ r.version = ⟨1, 1⟩ :=
  (requestLine_origin (by decide) (List.prefix_refl _)).2 indexLine indexTarget rfl (by decide)

end line

/-! ### The last segment -/

/-- What stands behind the last slash. -/
def lastSegment (path : List UInt8) : List UInt8 := (segments path).getLast?.getD []

theorem lastSegment_eq {path cur : List UInt8} {done : List (List UInt8)}
    (h : segments path = done ++ [cur]) : lastSegment path = cur := by
  simp [lastSegment, h]

theorem exists_segments (path : List UInt8) : ∃ done, segments path = done ++ [lastSegment path] := by
  obtain ⟨done, cur, h⟩ := List.eq_nil_or_concat (segments path) |>.resolve_left
    (List.splitOn_ne_nil _ _)
  rw [List.concat_eq_append] at h
  exact ⟨done, by rw [lastSegment_eq h, h]⟩

theorem lastSegment_slash (path : List UInt8) : lastSegment (path ++ [cSlash]) = [] :=
  lastSegment_eq (RunningCount.splitOn_concat_sep path cSlash)

theorem lastSegment_concat (path : List UInt8) {c : UInt8} (hc : c ≠ cSlash) :
    lastSegment (path ++ [c]) = lastSegment path ++ [c] := by
  obtain ⟨done, h⟩ := exists_segments path
  exact lastSegment_eq (RunningCount.splitOn_concat_ne hc h)

/-- The number of bytes behind the last dot. -/
def extTail (seg : List UInt8) : ℕ := (seg.reverse.takeWhile (· ≠ cDot)).length

/-- Two dots, and then a name without one. -/
def BeginsDots (seg : List UInt8) : Prop :=
  seg.take 2 = bytes ".." ∧ seg.drop 2 ≠ [] ∧ cDot ∉ seg.drop 2

instance (seg : List UInt8) : Decidable (BeginsDots seg) := inferInstanceAs (Decidable (_ ∧ _ ∧ _))

/-- The number of bytes behind the mark the automaton sets: behind two dots it is on the byte that
follows them. -/
def extRead (seg : List UInt8) : ℕ := if BeginsDots seg then extTail seg - 1 else extTail seg

@[simp] theorem extTail_dot (seg : List UInt8) : extTail (seg ++ [cDot]) = 0 := by
  simp [extTail]

theorem extTail_name (seg : List UInt8) {c : UInt8} (hc : c ≠ cDot) :
    extTail (seg ++ [c]) = extTail seg + 1 := by
  simp [extTail, hc]

@[simp] theorem extRead_dot (seg : List UInt8) : extRead (seg ++ [cDot]) = 0 := by
  simp [extRead]

theorem BeginsDots.tail_pos {seg : List UInt8} (h : BeginsDots seg) : 0 < extTail seg := by
  obtain ⟨-, hne, hdot⟩ := h
  rw [← List.take_append_drop 2 seg]
  rcases List.eq_nil_or_concat (seg.drop 2) with hnil | ⟨l, c, hl⟩
  · exact absurd hnil hne
  · rw [List.concat_eq_append] at hl
    rw [hl] at hdot ⊢
    have hc : c ≠ cDot := by
      rintro rfl
      simp at hdot
    rw [← List.append_assoc, extTail_name _ hc]
    omega

/-- One more byte of a name with a dot. -/
theorem extRead_name {seg : List UInt8} {c : UInt8} (hs : Extended seg) (hc : c ≠ cDot) :
    extRead (seg ++ [c]) = extRead seg + 1 := by
  have hlen : 2 ≤ seg.length := by
    obtain ⟨hd, h1, -⟩ := hs
    rcases seg with _ | ⟨x, _ | ⟨y, l⟩⟩
    · simp at hd
    · obtain rfl : cDot = x := by simpa using hd
      exact absurd rfl h1
    · simp
  have hiff : BeginsDots (seg ++ [c]) ↔ BeginsDots seg := by
    unfold BeginsDots
    rw [List.take_append_of_le_length hlen, List.drop_append_of_le_length hlen]
    constructor
    · rintro ⟨h1, -, h3⟩
      refine ⟨h1, fun hnil => hs.2.2 ?_, fun hm => h3 (by simp [hm])⟩
      rw [← List.take_append_drop 2 seg, h1, hnil, List.append_nil]
    · rintro ⟨h1, -, h3⟩
      exact ⟨h1, by simp, by simp [h3, Ne.symm hc]⟩
  unfold extRead
  rw [extTail_name seg hc]
  by_cases hb : BeginsDots seg
  · have := hb.tail_pos
    rw [if_pos (hiff.mpr hb), if_pos hb]
    omega
  · rw [if_neg fun h => hb (hiff.mp h), if_neg hb]

/-! ### The slices -/

/-- `uri.query` as it should be: what follows the first `?` of the target at offset `off`. -/
def querySlice (off : ℕ) (t : List UInt8) : Str :=
  if cQuestion ∈ t then
    ⟨.rb (off + (pathPart t).length + 1), ((t.length - (pathPart t).length - 1 : ℕ) : ℤ)⟩
  else Str.init

/-- `uri.extension` as the automaton leaves it behind a path that ends at offset `e`. -/
def extensionRead (addr e : ℕ) (seg : List UInt8) : Str :=
  if Extended seg then ⟨.rb (e - extRead seg), extRead seg⟩
  else if seg = [] ∨ seg = bytes "." ∨ seg = bytes ".." then Str.init
  else ⟨.null 1, ptrDiff addr e (.null 1)⟩

/-- `extension.data` when the byte at offset `i` is a dot. -/
def Uri.markDot (i : ℕ) (u : Uri) : Str :=
  if u.state.afterDot = .uriExtension then { u.extension with data := .rb i } else u.extension

/-- The same for another byte of a name. -/
def Uri.markName (i : ℕ) (u : Uri) : Str :=
  match u.state with
  | .uriAbsPathDot => { u.extension with data := .rb (i - 1) }
  | .uriAbsPathDdot => { u.extension with data := .rb i }
  | _ => u.extension

/-- `extension` when the path ends at offset `i`. -/
def Uri.closed (addr i : ℕ) (u : Uri) : Str :=
  if u.state = .uriAbsPathEntry ∨ u.state = .uriExtension then (u.endExtension addr i).extension
  else u.extension

/-- What a byte of the path does to the other two slices. -/
inductive MarkStep (addr i : ℕ) (u : Uri) : UInt8 → Uri → Prop where
  | slash {u' : Uri} (hq : u'.query = u.query)
      (he : u'.extension.data = .NULL ∨ u'.extension.data = u.extension.data ∧ u.state ≠ .uriExtension)
      (hl : u'.extension.len = u.extension.len) (hs : u'.state = .uriAbsPathSlash) :
      MarkStep addr i u cSlash u'
  | space {u' : Uri} (hq : u'.query = u.query) (he : u'.extension = u.closed addr i) :
      MarkStep addr i u cSp u'
  | question {u' : Uri} (hq : u'.query = { u.query with data := .rb i })
      (he : u'.extension = u.closed addr i) (hs : u'.state = .uriQuery) :
      MarkStep addr i u cQuestion u'
  | dot {u' : Uri} (hq : u'.query = u.query) (he : u'.extension = u.markDot i)
      (hs : u'.state = u.state.afterDot) : MarkStep addr i u cDot u'
  | name {u' : Uri} {c : UInt8} (hdot : c ≠ cDot) (hque : c ≠ cQuestion) (hsl : c ≠ cSlash)
      (hsp : c ≠ cSp) (hq : u'.query = u.query) (he : u'.extension = u.markName i)
      (hs : u'.state = u.state.afterName) : MarkStep addr i u c u'

@[simp] theorem Uri.countEntry_query (u : Uri) : u.countEntry.query = u.query := by
  unfold Uri.countEntry; split <;> rfl

theorem parseUri_marks {addr i : ℕ} {c : UInt8} {u u' : Uri} (hin : u.state.inPath = true)
    (h : parseUri addr i c u = .ok u') : MarkStep addr i u c u' := by
  obtain ⟨hsp, hdot, hq, hsl, hname⟩ := uriByte_eq c
  have hcases := PState.inPath_cases hin
  cases hb : uriByte c with
  | other => exact absurd hb ((parseUri_path_iff hin).mp ⟨u', h⟩)
  | space =>
      obtain rfl := hsp hb
      rcases hcases with hs | hs | hs | hs | hs <;>
        simp only [parseUri, uriEntry, uriExtension, hs, hb, Except.ok.injEq] at h <;> subst h <;>
        exact .space (by simp [Uri.endPath, Uri.endExtension])
          (by simp [Uri.closed, Uri.endPath, Uri.endExtension, hs])
  | dot =>
      obtain rfl := hdot hb
      rcases hcases with hs | hs | hs | hs | hs <;>
        simp only [parseUri, uriEntry, uriExtension, hs, hb, Except.ok.injEq] at h <;> subst h <;>
        exact .dot rfl (by simp [Uri.markDot, PState.afterDot, hs]) (by simp [PState.afterDot, hs])
  | question =>
      obtain rfl := hq hb
      rcases hcases with hs | hs | hs | hs | hs <;>
        simp only [parseUri, uriEntry, uriExtension, hs, hb, Except.ok.injEq] at h <;> subst h <;>
        exact .question rfl
          (by simp [Uri.closed, Uri.endPath, Uri.endExtension, hs]) rfl
  | slash =>
      obtain rfl := hsl hb
      rcases hcases with hs | hs | hs | hs | hs <;>
        simp only [parseUri, uriEntry, uriExtension, hs, hb, Except.ok.injEq] at h <;> subst h <;>
        exact .slash (by simp) (by simp [hs]) (by simp) (by simp [hs])
  | allowed =>
      obtain ⟨h1, h2, h3, h4, -⟩ := hname hb
      rcases hcases with hs | hs | hs | hs | hs <;>
        simp only [parseUri, uriEntry, uriExtension, hs, hb, Except.ok.injEq] at h <;> subst h <;>
        exact .name h2 h3 h4 h1 rfl (by simp [Uri.markName, hs]) (by simp [PState.afterName, hs])

/-- The slices in the middle of the path. -/
structure Marks (off : ℕ) (t : List UInt8) (u : Uri) : Prop where
  seg : SegState (lastSegment t) u.state
  noQuery : cQuestion ∉ t
  query : u.query = Str.init
  unset : u.state ≠ .uriExtension → u.extension = Str.init
  mark : u.state = .uriExtension →
    ∃ j, j + 1 + extRead (lastSegment t) = off + t.length ∧ u.extension = ⟨.rb j, 0⟩

/-- Behind the target. -/
structure SlicesRead (addr off : ℕ) (t : List UInt8) (u : Uri) : Prop where
  query : u.query = querySlice off t
  extension : u.extension =
    extensionRead addr (off + (pathPart t).length) (lastSegment (pathPart t))

/-- Anywhere in the target. -/
def InSlices (addr off : ℕ) (t : List UInt8) (u : Uri) : Prop :=
  Marks off t u ∨ u.state = .uriQuery ∧ cQuestion ∈ t ∧
    u.query = ⟨.rb (off + (pathPart t).length), 0⟩ ∧
      u.extension = extensionRead addr (off + (pathPart t).length) (lastSegment (pathPart t))

section slices

variable {addr off : ℕ} {c : UInt8} {u u' : Uri} {t : List UInt8}

theorem Marks.len (h : Marks off t u) : u.extension.len = 0 := by
  by_cases hs : u.state = .uriExtension
  · obtain ⟨j, -, he⟩ := h.mark hs
    rw [he]
  · rw [h.unset hs]
    rfl

/-- The extension when the path ends. -/
theorem Marks.closed (h : Marks off t u) :
    u.closed addr (off + t.length) = extensionRead addr (off + t.length) (lastSegment t) := by
  have hx := h.seg.extended_iff
  unfold Uri.closed extensionRead
  by_cases hs : u.state = .uriExtension
  · obtain ⟨j, hj, he⟩ := h.mark hs
    rw [if_pos (.inr hs), if_pos (hx.mpr hs), Uri.endExtension, he]
    dsimp only [Ptr.add, ptrDiff]
    rw [show off + t.length - extRead (lastSegment t) = j + 1 by omega]
    congr 1
    push_cast
    omega
  · rw [if_neg fun hext => hs (hx.mp hext)]
    have hseg := h.seg
    have hin := PState.inPath_cases hseg.inPath
    by_cases hentry : u.state = .uriAbsPathEntry
    · rw [if_pos (.inl hentry), Uri.endExtension, h.unset hs, if_neg]
      · rfl
      · rw [hentry] at hseg
        obtain ⟨hne, hd⟩ := hseg
        rintro (h0 | h0 | h0)
        · exact hne h0
        · exact hd (by rw [h0]; decide)
        · exact hd (by rw [h0]; decide)
    · rw [if_neg (by simp [hentry, hs]), h.unset hs, if_pos]
      rcases hin with hu | hu | hu | hu | hu
      · rw [hu] at hseg
        exact .inl hseg
      · rw [hu] at hseg
        exact .inr (.inl hseg)
      · rw [hu] at hseg
        exact .inr (.inr hseg)
      · exact absurd hu hentry
      · exact absurd hu hs

theorem Marks.dot (h : Marks off t u) (hq : u'.query = u.query)
    (he : u'.extension = u.markDot (off + t.length)) (hs : u'.state = u.state.afterDot) :
    Marks off (t ++ [cDot]) u' := by
  have hlast := lastSegment_concat t (c := cDot) (by decide)
  refine ⟨?_, ?_, hq.trans h.query, fun hne => ?_, fun hext => ?_⟩
  · rw [hlast, hs]
    exact h.seg.dot
  · simpa using h.noQuery
  · rw [hs] at hne
    rw [he, Uri.markDot, if_neg hne]
    refine h.unset fun hu => hne ?_
    rw [hu]
    rfl
  · rw [hs] at hext
    refine ⟨off + t.length, ?_, ?_⟩
    · rw [hlast, extRead_dot]
      simp
      omega
    · rw [he, Uri.markDot, if_pos hext]
      exact congrArg (Str.mk _) h.len

theorem Marks.name (h : Marks off t u) (hdot : c ≠ cDot) (hque : c ≠ cQuestion) (hsl : c ≠ cSlash)
    (hq : u'.query = u.query) (he : u'.extension = u.markName (off + t.length))
    (hs : u'.state = u.state.afterName) : Marks off (t ++ [c]) u' := by
  have hlast := lastSegment_concat t hsl
  have hlen := h.len
  have hseg := h.seg
  have hpos : ∀ x, lastSegment t = x → x ≠ [] → 0 < t.length := by
    rintro _ rfl hne
    refine List.length_pos_of_ne_nil fun e => hne ?_
    rw [e]
    rfl
  refine ⟨?_, ?_, hq.trans h.query, fun hne => ?_, fun hext => ?_⟩
  · rw [hlast, hs]
    exact h.seg.name hdot
  · simpa [h.noQuery] using Ne.symm hque
  · rw [hs] at hne
    rw [he, Uri.markName]
    rcases PState.inPath_cases hseg.inPath with hu | hu | hu | hu | hu <;>
      rw [hu] at hne <;> simp only [PState.afterName, ne_eq, not_true_eq_false] at hne
    all_goals
      rw [hu]
      exact h.unset (by rw [hu]; decide)
  · rw [hs] at hext
    rw [hlast, he, Uri.markName, List.length_append, List.length_singleton]
    rcases PState.inPath_cases hseg.inPath with hu | hu | hu | hu | hu <;>
      rw [hu] at hext hseg <;> simp only [PState.afterName, reduceCtorEq] at hext <;> rw [hu]
    · -- `.` and the first byte of a name
      have h0 := hpos _ hseg (by decide)
      refine ⟨off + t.length - 1, ?_, congrArg (Str.mk _) hlen⟩
      rw [show lastSegment t = bytes "." from hseg, extRead, if_neg, extTail_name _ hdot]
      · rw [show extTail (bytes ".") = 0 by decide]
        omega
      · rintro ⟨h2, -, -⟩
        rw [bytes_dot, bytes_dot_dot] at h2
        exact hdot (List.cons.inj (List.cons.inj h2).2).1
    · -- `..` and the first byte of a name
      refine ⟨off + t.length, ?_, congrArg (Str.mk _) hlen⟩
      rw [show lastSegment t = bytes ".." from hseg, extRead, if_pos, extTail_name _ hdot]
      · rw [show extTail (bytes "..") = 0 by decide]
        omega
      · exact ⟨by rw [bytes_dot_dot]; rfl, by rw [bytes_dot_dot]; simp,
          by rw [bytes_dot_dot]; simpa using Ne.symm hdot⟩
    · obtain ⟨j, hj, hext'⟩ := h.mark hu
      refine ⟨j, ?_, hext'⟩
      rw [extRead_name hseg hdot]
      omega

/-- One byte of the path. -/
theorem Marks.step (h : Marks off t u) (hu : parseUri addr (off + t.length) c u = .ok u') :
    (c = cSp → SlicesRead addr off t u') ∧ (c ≠ cSp → InSlices addr off (t ++ [c]) u') := by
  cases parseUri_marks h.seg.inPath hu with
  | slash hq he hl hs =>
      refine ⟨fun e => absurd e (by decide), fun _ => .inl ⟨?_, ?_, hq.trans h.query, fun _ => ?_, ?_⟩⟩
      · rw [lastSegment_slash, hs]
        rfl
      · simpa using h.noQuery
      · have hdata : u'.extension.data = .NULL := by
          rcases he with he | ⟨he, hne⟩
          · exact he
          · rw [he, h.unset hne]
            rfl
        rw [← show (⟨u'.extension.data, u'.extension.len⟩ : Str) = u'.extension from rfl, hdata, hl,
          h.len]
        rfl
      · rw [hs]
        exact fun e => absurd e (by decide)
  | space hq he =>
      refine ⟨fun _ => ⟨?_, ?_⟩, fun e => absurd rfl e⟩
      · rw [querySlice, if_neg h.noQuery, hq, h.query]
      · rw [pathPart_of_not_mem h.noQuery, he, h.closed]
  | question hq he hs =>
      refine ⟨fun e => absurd e (by decide), fun _ => .inr ⟨hs, by simp, ?_, ?_⟩⟩
      · rw [pathPart_question h.noQuery, hq, h.query]
        rfl
      · rw [pathPart_question h.noQuery, he, h.closed]
  | dot hq he hs => exact ⟨fun e => absurd e (by decide), fun _ => .inl (h.dot hq he hs)⟩
  | name hdot hque hsl hsp hq he hs =>
      exact ⟨fun e => absurd e hsp, fun _ => .inl (h.name hdot hque hsl hq he hs)⟩

/-- One byte of a target. -/
theorem InSlices.step (h : InSlices addr off t u)
    (hu : parseUri addr (off + t.length) c u = .ok u') :
    (c = cSp → SlicesRead addr off t u') ∧ (c ≠ cSp → InSlices addr off (t ++ [c]) u') := by
  rcases h with h | ⟨hs, hmem, hq, he⟩
  · exact h.step hu
  · rw [parseUri_query hs] at hu
    split_ifs at hu with hsp hb <;> cases hu
    · refine ⟨fun _ => ⟨?_, he⟩, fun e => absurd hsp e⟩
      have hlt : (pathPart t).length < t.length := by
        refine lt_of_le_of_ne (List.takeWhile_prefix _).length_le fun e => ?_
        have := (List.takeWhile_prefix (p := fun b => decide (b ≠ cQuestion)) (l := t)).eq_of_length e
        have := List.takeWhile_eq_self_iff.mp this cQuestion hmem
        simp at this
      rw [querySlice, if_pos hmem, hq]
      dsimp only [Ptr.add, ptrDiff]
      congr 1
      push_cast
      omega
    · refine ⟨fun e => absurd e hsp, fun _ => .inr ⟨hs, by simp [hmem], ?_, ?_⟩⟩
      · rw [pathPart_append hmem, hq]
      · rw [pathPart_append hmem, he]

/-- An invariant over the bytes of a target, and what follows from it at the space. -/
theorem readUri_inv {I D : List UInt8 → Uri → Prop}
    (hstep : ∀ t c u u', I t u → parseUri addr (off + t.length) c u = .ok u' →
      (c = cSp → D t u') ∧ (c ≠ cSp → I (t ++ [c]) u'))
    {x : List UInt8} {v : Uri} (hI : I t u) (hsp : cSp ∉ x)
    (h : readUri addr (off + t.length) (x ++ [cSp]) u = .ok v) : D (t ++ x) v := by
  induction x generalizing t u with
  | nil =>
      obtain ⟨w, hp, hr⟩ := readUri_cons h
      cases hr
      rw [List.append_nil]
      exact (hstep t cSp u v hI hp).1 rfl
  | cons c x ih =>
      obtain ⟨hc, hx⟩ : c ≠ cSp ∧ cSp ∉ x := by
        simpa [eq_comm] using hsp
      obtain ⟨u', hp, hr⟩ := readUri_cons h
      have := ih ((hstep t c u u' hI hp).2 hc) hx (by simpa [Nat.add_assoc] using hr)
      simpa using this

/-- The three slices behind a target that begins with a slash. -/
theorem readUri_slices {v : Uri} (hsp : cSp ∉ cSlash :: t)
    (h : readUri addr off (cSlash :: t ++ [cSp]) Uri.init = .ok v) :
    PathRead off (cSlash :: t) v ∧ SlicesRead addr off (cSlash :: t) v := by
  have ht : cSp ∉ t := fun hm => hsp (List.mem_cons_of_mem _ hm)
  obtain ⟨u, hu, hr⟩ := readUri_cons h
  refine ⟨readUri_inv (fun _ _ _ _ => UriInv.step) (t := [cSlash]) (@uriInv_slash addr off u hu) ht hr,
    readUri_inv (fun _ _ _ _ => InSlices.step) (t := [cSlash]) ?_ ht hr⟩
  cases hu
  exact .inl ⟨rfl, by decide, rfl, fun _ => rfl, fun e => absurd e PState.noConfusion⟩

end slices

/-! ### The slices of an accepted line -/

section accepted

variable {r₀ : Request} {a : ConnAddr} {s : List UInt8} {r : Request}

/-- The offset behind the path of the target. -/
def pathStop (s : List UInt8) : ℕ := targetStart s + (pathPart (requestTarget s)).length

/-- The URI of an accepted line is the one the automaton leaves, but for the fallback. -/
theorem parseRequestLine_slices (h : parseRequestLine (freshRequest r₀ a s) = .ok (.ok, r))
    (hs : (requestTarget s).head? = some cSlash) :
    ∃ u : Uri, r.uri = u.fallback ∧ PathRead (targetStart s) (requestTarget s) u ∧
      SlicesRead (freshRequest r₀ a s).rb.addr (targetStart s) (requestTarget s) u := by
  obtain ⟨l, u, hl, -, hread, -, -, huri⟩ := parseRequestLine_consumed h
  have hat := LineText.targetAt hl
  obtain ⟨t, ht⟩ := LineText.slash hl hs
  have hsp := l.noSpace
  unfold LineText.Reads at hread
  rw [ht] at hsp hread
  refine ⟨u, huri, ?_⟩
  rw [hat.target, hat.start, ht, ← Nat.add_assoc, Nat.add_right_comm]
  exact readUri_slices hsp hread

@[simp] theorem Uri.fallback_extension (u : Uri) : u.fallback.extension = u.extension := by
  unfold Uri.fallback
  split <;> rfl

theorem Uri.fallback_eq {u : Uri} (h : ¬ u.fallback.nentries < u.fallback.nddots) :
    u.fallback = u := by
  unfold Uri.fallback at h ⊢
  split_ifs at h ⊢ with hlt
  · exact absurd hlt h
  · rfl

/-- **Path and query** of an accepted line whose target begins with a slash, where the fallback
did not fire: they are what the target says exactly when no name with a dot stands in front of a
query. -/
theorem pathAndQuery_iff (h : parseRequestLine (freshRequest r₀ a s) = .ok (.ok, r))
    (hs : (requestTarget s).head? = some cSlash) (hfall : ¬ r.uri.nentries < r.uri.nddots) :
    (r.uri.absPath = ⟨.rb (targetStart s), (pathPart (requestTarget s)).length⟩ ∧
        r.uri.query = querySlice (targetStart s) (requestTarget s)) ↔
      ¬ (cQuestion ∈ requestTarget s ∧ EndsExtended (pathPart (requestTarget s))) := by
  obtain ⟨u, hu, hpath, hslices⟩ := parseRequestLine_slices h hs
  rw [hu] at hfall
  rw [hu, Uri.fallback_eq hfall, hpath.slice, hslices.query]
  simp only [and_true, Str.mk.injEq, true_and]
  by_cases hx : cQuestion ∈ requestTarget s ∧ EndsExtended (pathPart (requestTarget s))
  · rw [if_pos hx]
    refine iff_of_false ?_ (not_not.mpr hx)
    have hpos : 0 < (pathPart (requestTarget s)).length := by
      obtain ⟨t, ht⟩ : ∃ t, requestTarget s = cSlash :: t := ⟨_, (List.cons_head?_tail hs).symm⟩
      rw [ht, pathPart, List.takeWhile_cons_of_pos (by decide)]
      exact Nat.succ_pos _
    omega
  · rw [if_neg hx]
    exact iff_of_true rfl hx

/-- The URI of an accepted request line. -/
def acceptedUri (s : List UInt8) : Option Uri :=
  match parseRequestLine (freshRequest .zeroed 0 s) with
  | .ok (.ok, r) => some r.uri
  | _ => none

theorem accepted_of_uri {P : Uri → Bool} (h : (acceptedUri s).any P = true) :
    ∃ r, parseRequestLine (freshRequest .zeroed 0 s) = .ok (.ok, r) ∧ P r.uri = true := by
  unfold acceptedUri at h
  split at h
  · next r hr => exact ⟨r, hr, h⟩
  · cases h

/-- A name with a dot in front of a query. -/
def dottedQuery : List UInt8 := bytes "GET /a.b?c HTTP/1.1\r\n"

/-- `/a.b?c` leaves an empty path. -/
theorem dottedQuery_loses : ∃ r,
    parseRequestLine (freshRequest .zeroed 0 dottedQuery) = .ok (.ok, r) ∧
      (requestTarget dottedQuery).head? = some cSlash ∧ ¬ r.uri.nentries < r.uri.nddots ∧
      ¬ (r.uri.absPath = ⟨.rb (targetStart dottedQuery), (pathPart (requestTarget dottedQuery)).length⟩ ∧
        r.uri.query = querySlice (targetStart dottedQuery) (requestTarget dottedQuery)) := by
  obtain ⟨r, hr, hu⟩ := accepted_of_uri (s := dottedQuery)
    (P := fun u => decide (¬ u.nentries < u.nddots) && decide (u.absPath.len = 0)) (by decide +kernel)
  rw [Bool.and_eq_true, decide_eq_true_eq, decide_eq_true_eq] at hu
  refine ⟨r, hr, by decide +kernel, hu.1, fun e => ?_⟩
  rw [e.1] at hu
  exact absurd hu.2 (by decide +kernel)

theorem pathAndQuery_iff_plain : ∃ r,
    parseRequestLine (freshRequest .zeroed 0 (bytes "GET /a?c HTTP/1.1\r\n")) = .ok (.ok, r) ∧
      r.uri.absPath = ⟨.rb 4, 2⟩ ∧ r.uri.query = ⟨.rb 7, 1⟩ := by
  obtain ⟨r, hr, hu⟩ := accepted_of_uri (s := bytes "GET /a?c HTTP/1.1\r\n")
    (P := fun u => decide (¬ u.nentries < u.nddots)) (by decide +kernel)
  rw [decide_eq_true_eq] at hu
  exact ⟨r, hr, (pathAndQuery_iff hr (by decide +kernel) hu).mpr (by decide +kernel)⟩

/-- `uri.extension` as it should be: what follows the last dot of the last segment `seg` of a path
that ends at offset `e`. -/
def extensionSlice (e : ℕ) (seg : List UInt8) : Str :=
  if Extended seg then ⟨.rb (e - extTail seg), extTail seg⟩ else Str.init

/-- The bytes behind the last dot. -/
theorem extTail_lt {seg : List UInt8} (h : cDot ∈ seg) : extTail seg < seg.length := by
  unfold extTail
  rw [← @List.length_reverse _ seg]
  refine lt_of_le_of_ne (List.takeWhile_prefix _).length_le fun e => ?_
  have := (List.takeWhile_prefix (p := fun b => decide (b ≠ cDot)) (l := seg.reverse)).eq_of_length e
  have := List.takeWhile_eq_self_iff.mp this cDot (List.mem_reverse.mpr h)
  simp at this

theorem lastSegment_suffix (path : List UInt8) : lastSegment path <:+ path := by
  induction path using List.reverseRecOn with
  | nil => exact List.suffix_refl _
  | append_singleton l c ih =>
      by_cases hc : c = cSlash
      · subst hc
        rw [lastSegment_slash]
        exact List.nil_suffix
      · rw [lastSegment_concat l hc]
        obtain ⟨m, hm⟩ := ih
        exact ⟨m, by rw [← List.append_assoc, hm]⟩

/-- Which last segments leave the right extension. -/
theorem extensionRead_eq_iff {addr e : ℕ} {seg : List UInt8} (he : seg.length ≤ e) :
    extensionRead addr e seg = extensionSlice e seg ↔
      seg = [] ∨ cDot ∈ seg ∧ ¬ BeginsDots seg := by
  unfold extensionRead extensionSlice
  by_cases hext : Extended seg
  · have hlt := extTail_lt hext.1
    rw [if_pos hext, if_pos hext, extRead]
    by_cases hb : BeginsDots seg
    · -- the mark is one byte too far
      have hpos := hb.tail_pos
      rw [if_pos hb]
      refine iff_of_false (fun heq => ?_) ?_
      · have hl : ((extTail seg - 1 : ℕ) : ℤ) = extTail seg := congrArg Str.len heq
        omega
      · rintro (rfl | hd)
        · exact absurd hext.1 (by simp)
        · exact hd.2 hb
    · rw [if_neg hb]
      exact iff_of_true rfl (.inr ⟨hext.1, hb⟩)
  · rw [if_neg hext, if_neg hext]
    by_cases hshort : seg = [] ∨ seg = bytes "." ∨ seg = bytes ".."
    · rw [if_pos hshort]
      refine iff_of_true rfl ?_
      rcases hshort with rfl | rfl | rfl
      · exact .inl rfl
      · exact .inr (by decide)
      · exact .inr (by decide)
    · -- a name without a dot
      rw [if_neg hshort]
      refine iff_of_false (fun heq => ?_) ?_
      · exact absurd (congrArg Str.data heq) (show Ptr.null 1 ≠ Ptr.NULL by decide)
      · rintro (rfl | hd)
        · exact hshort (.inl rfl)
        · exact hext ⟨hd.1, fun e => hshort (.inr (.inl e)), fun e => hshort (.inr (.inr e))⟩

/-- The right extension is absent or lies in the last segment. -/
theorem extensionSlice_inside {e : ℕ} {seg : List UInt8} (he : seg.length ≤ e) :
    extensionSlice e seg = Str.init ∨
      ∃ i n : ℕ, extensionSlice e seg = ⟨.rb i, n⟩ ∧ e - seg.length ≤ i ∧ i + n ≤ e := by
  unfold extensionSlice
  split_ifs with hext
  · have hlt := extTail_lt hext.1
    exact .inr ⟨_, _, rfl, by omega, by omega⟩
  · exact .inl rfl

/-- **The extension** of an accepted line whose target begins with a slash is the one its last
segment says, and lies in the path, exactly when that segment is empty, or has a dot and is not two
dots and a name without one. -/
theorem extension_iff (h : parseRequestLine (freshRequest r₀ a s) = .ok (.ok, r))
    (hs : (requestTarget s).head? = some cSlash) :
    (r.uri.extension = extensionSlice (pathStop s) (lastSegment (pathPart (requestTarget s))) ∧
      (r.uri.extension = Str.init ∨ ∃ i n : ℕ, r.uri.extension = ⟨.rb i, n⟩ ∧
        targetStart s ≤ i ∧ i + n ≤ pathStop s)) ↔
      lastSegment (pathPart (requestTarget s)) = [] ∨
        cDot ∈ lastSegment (pathPart (requestTarget s)) ∧
          ¬ BeginsDots (lastSegment (pathPart (requestTarget s))) := by
  obtain ⟨u, hu, -, hslices⟩ := parseRequestLine_slices h hs
  have hext : r.uri.extension = extensionRead (freshRequest r₀ a s).rb.addr (pathStop s)
      (lastSegment (pathPart (requestTarget s))) := by
    rw [hu, Uri.fallback_extension]
    exact hslices.extension
  have hlen : targetStart s + (lastSegment (pathPart (requestTarget s))).length ≤ pathStop s :=
    Nat.add_le_add_left (lastSegment_suffix _).length_le _
  have hle := le_trans (Nat.le_add_left _ _) hlen
  rw [← @extensionRead_eq_iff (freshRequest r₀ a s).rb.addr _ _ hle, hext]
  refine ⟨And.left, fun heq => ⟨heq, ?_⟩⟩
  rw [heq]
  rcases extensionSlice_inside hle with h0 | ⟨i, n, hi, h1, h2⟩
  · exact .inl h0
  · exact .inr ⟨i, n, hi, by omega, h2⟩

/-- A name without a dot. -/
def plainName : List UInt8 := bytes "GET /a HTTP/1.1\r\n"

/-- `/a` leaves the extension at the address 1. -/
theorem plainName_wild : ∃ r,
    parseRequestLine (freshRequest .zeroed 0 plainName) = .ok (.ok, r) ∧
      (requestTarget plainName).head? = some cSlash ∧
      r.uri.extension ≠ extensionSlice (pathStop plainName)
        (lastSegment (pathPart (requestTarget plainName))) ∧
      r.uri.extension.data = .null 1 := by
  obtain ⟨r, hr, hu⟩ := accepted_of_uri (s := plainName)
    (P := fun u => decide (u.extension.data = .null 1)) (by decide +kernel)
  have hdata := of_decide_eq_true hu
  refine ⟨r, hr, by decide +kernel, fun e => ?_, hdata⟩
  rw [e] at hdata
  exact absurd hdata (by decide +kernel)

theorem extension_iff_html : ∃ r,
    parseRequestLine (freshRequest .zeroed 0 (bytes "GET /a.html HTTP/1.1\r\n")) = .ok (.ok, r) ∧
      r.uri.extension = ⟨.rb 7, 4⟩ := by
  obtain ⟨r, hr, -⟩ := accepted_of_uri (s := bytes "GET /a.html HTTP/1.1\r\n")
    (P := fun _ => true) (by decide +kernel)
  exact ⟨r, hr, ((extension_iff hr (by decide +kernel)).mpr (by decide +kernel)).1⟩

end accepted

end SyServer
