import SyServer.OriginForm

/-! # Targets with a scheme and a host

The URI automaton on `scheme://host[:port][path[?query]]`, with the lines around it.  Two slips
decide what becomes of such a target (`readUri_absolute`): `case URI_S_HOST` never sets `host.len`
and has no arm for the space, and `case URI_S_PORT` counts `port.data` up from `NULL`.  So a target
of a host alone is rejected, one with a port has a wild port, and no target of this form leaves the
slices it should (`absoluteForm_never`). -/

namespace SyServer

open RunningCount

/-! ### The grammar -/

/-- A byte of a scheme behind the first. -/
def schemeByte (c : UInt8) : Bool := isAlpha c || isDigit c || (bytes "+-.").contains c

/-- A byte of a host behind the first. -/
def hostByte (c : UInt8) : Bool := isAlpha c || isDigit c || c = cDot || c = cDash

/-- A scheme, a host, perhaps a port, and perhaps a path with a query. -/
structure AbsoluteTarget where
  scheme₀ : UInt8
  scheme : List UInt8
  host₀ : UInt8
  host : List UInt8
  port : Option (List UInt8)
  origin : Option OriginTarget
  scheme₀_ok : isAlpha scheme₀ = true
  scheme_ok : ∀ c ∈ scheme, schemeByte c = true
  host₀_ok : (isAlpha host₀ || isDigit host₀) = true
  host_ok : ∀ c ∈ host, hostByte c = true
  port_ok : ∀ p ∈ port, ∀ c ∈ p, isDigit c = true

namespace AbsoluteTarget

variable (o : AbsoluteTarget)

/-- `:` and the port. -/
def portText : List UInt8 :=
  match o.port with
  | none => []
  | some p => cColon :: p

/-- The path and the query. -/
def originText : List UInt8 :=
  match o.origin with
  | none => []
  | some t => t.text

/-- The scheme and the host. -/
def authority : List UInt8 := o.scheme₀ :: (o.scheme ++ bytes "://" ++ o.host₀ :: o.host)

def text : List UInt8 := o.authority ++ (o.portText ++ o.originText)

/-- Where the host stands in a target at offset `off`. -/
def hostStart (off : ℕ) : ℕ := off + (o.scheme.length + 4)

/-- Where the authority ends. -/
def hostStop (off : ℕ) : ℕ := o.hostStart off + (o.host.length + 1)

/-- The slices of a target at offset `off`, as they should be. -/
structure Sliced (off : ℕ) (s : List UInt8) (u : Uri) : Prop where
  scheme : u.scheme = ⟨.rb off, (o.scheme.length + 1 : ℕ)⟩
  host : u.host = ⟨.rb (o.hostStart off), (o.host.length + 1 : ℕ)⟩
  port : u.port = match o.port with
    | none => Str.init
    | some p => ⟨.rb (o.hostStop off + 1), (p.length : ℕ)⟩
  path : match o.origin with
    | none => ∃ i, s[i]? = some cSlash ∧ u.absPath = ⟨.rb i, 1⟩
    | some t => u.absPath =
        ⟨.rb (o.hostStop off + o.portText.length), (t.path.length + 1 : ℕ)⟩

end AbsoluteTarget

/-! ### The automaton -/

section automaton

variable {addr i : ℕ} {c : UInt8} {u v : Uri} {x y : List UInt8}

theorem readUri_ok_cons {w : Uri} (h : parseUri addr i c u = .ok w) :
    readUri addr i (c :: y) u = readUri addr (i + 1) y w := by
  rw [readUri, h]

/-- Bytes that leave the URI alone. -/
theorem readUri_span (h : ∀ j, ∀ c ∈ x, parseUri addr j c u = .ok u) :
    readUri addr i (x ++ y) u = readUri addr (i + x.length) y u := by
  induction x generalizing i with
  | nil => rfl
  | cons c x ih =>
      obtain ⟨hc, hx⟩ := List.forall_mem_cons.mp (fun b hb j => h j b hb)
      rw [List.cons_append, readUri_ok_cons (hc i), ih fun j b hb => hx b hb j, List.length_cons,
        Nat.add_right_comm, Nat.add_assoc]

theorem parseUri_scheme (hs : u.state = .uriScheme) (hc : schemeByte c = true) :
    parseUri addr i c u = .ok u := by
  unfold parseUri
  rw [hs]
  exact if_pos hc

theorem parseUri_host (hs : u.state = .uriHost) (hc : hostByte c = true) :
    parseUri addr i c u = .ok u := by
  unfold parseUri
  rw [hs]
  exact if_pos (by simpa [hostByte] using hc)

theorem parseUri_port (hs : u.state = .uriPort) (hc : isDigit c = true) :
    parseUri addr i c u = .ok u := by
  unfold parseUri
  rw [hs]
  dsimp only
  rw [if_neg, if_neg, if_pos hc]
  all_goals
    rintro rfl
    exact absurd hc (by decide)

/-- The path and the query leave the other slices alone. -/
theorem parseUri_keeps (hs : u.state.inPath = true ∨ u.state = .uriQuery) {u' : Uri}
    (h : parseUri addr i c u = .ok u') :
    u'.scheme = u.scheme ∧ u'.host = u.host ∧ u'.port = u.port ∧
      (c ≠ cSp → u'.state.inPath = true ∨ u'.state = .uriQuery) := by
  rcases hs with hin | hs
  · have hcount : ∀ w : Uri, w.countEntry.scheme = w.scheme ∧ w.countEntry.host = w.host ∧
        w.countEntry.port = w.port := by
      intro w
      unfold Uri.countEntry
      split <;> exact ⟨rfl, rfl, rfl⟩
    have hstate : c ≠ cSp → u'.state.inPath = true ∨ u'.state = .uriQuery := by
      intro hsp
      have hst := (parseUri_path hin h).state hin
      by_cases hq : c = cQuestion
      · exact .inr (hst.1 hq)
      · exact .inl (hst.2 hq hsp)
    refine and_assoc.mp (and_assoc.mp ⟨?_, hstate⟩)
    unfold parseUri uriEntry uriExtension at h
    rcases PState.inPath_cases hin with hs | hs | hs | hs | hs <;> rw [hs] at h <;>
      cases hb : uriByte c <;> rw [hb] at h <;> cases h <;>
      simp [Uri.endPath, Uri.endExtension, hcount]
  · rw [parseUri_query hs] at h
    split_ifs at h <;> cases h
    · exact ⟨rfl, rfl, rfl, fun hsp => absurd ‹_› hsp⟩
    · exact ⟨rfl, rfl, rfl, fun _ => .inr hs⟩

theorem readUri_keeps (hs : u.state.inPath = true ∨ u.state = .uriQuery) (hsp : cSp ∉ x)
    (h : readUri addr i (x ++ [cSp]) u = .ok v) :
    v.scheme = u.scheme ∧ v.host = u.host ∧ v.port = u.port := by
  induction x generalizing i u with
  | nil =>
      obtain ⟨u', hp, hr⟩ := readUri_cons h
      cases hr
      obtain ⟨h1, h2, h3, -⟩ := parseUri_keeps hs hp
      exact ⟨h1, h2, h3⟩
  | cons c x ih =>
      obtain ⟨hc, hx⟩ : c ≠ cSp ∧ cSp ∉ x := by
        simpa [eq_comm] using hsp
      obtain ⟨u', hp, hr⟩ := readUri_cons h
      obtain ⟨h1, h2, h3, hs'⟩ := parseUri_keeps hs hp
      obtain ⟨e1, e2, e3⟩ := ih (hs' hc) hx hr
      exact ⟨e1.trans h1, e2.trans h2, e3.trans h3⟩

/-- What is behind the host: the scheme has its slice, the host has no length. -/
def AbsoluteTarget.atHost (o : AbsoluteTarget) (off : ℕ) : Uri :=
  { Uri.init with
    scheme := ⟨.rb off, (o.scheme.length + 1 : ℕ)⟩
    host := ⟨.rb (o.hostStart off), 0⟩
    state := .uriHost }

theorem readUri_authority (o : AbsoluteTarget) (off : ℕ) :
    readUri addr off (o.authority ++ y) Uri.init = readUri addr (o.hostStop off) y (o.atHost off) := by
  have hslash : isAlpha o.scheme₀ = true → o.scheme₀ ≠ cSlash := by
    rintro h e
    rw [e] at h
    exact absurd h (by decide)
  have hcolon : parseUri addr (off + 1 + o.scheme.length) cColon
      { Uri.init with scheme := ⟨.rb off, 0⟩, state := .uriScheme } =
        .ok { Uri.init with
          scheme := ⟨.rb off, (o.scheme.length + 1 : ℕ)⟩, state := .uriSchemeColon } := by
    have : ptrDiff addr (off + 1 + o.scheme.length) (.rb off) = (o.scheme.length + 1 : ℕ) := by
      rw [Nat.add_assoc, Nat.add_comm 1, ptrDiff_rb]
    unfold parseUri
    dsimp only
    rw [if_neg (by decide), if_pos rfl, this]
  rw [AbsoluteTarget.authority, show bytes "://" = [cColon, cSlash, cSlash] by decide]
  simp only [List.cons_append, List.append_assoc, List.nil_append]
  rw [readUri_ok_cons (w := { Uri.init with scheme := ⟨.rb off, 0⟩, state := .uriScheme }),
    readUri_span fun j c hc => parseUri_scheme rfl (o.scheme_ok c hc), readUri_ok_cons hcolon,
    readUri_ok_cons (w := { Uri.init with
      scheme := ⟨.rb off, (o.scheme.length + 1 : ℕ)⟩, state := .uriSchemeSlash }) rfl,
    readUri_ok_cons (w := { Uri.init with
      scheme := ⟨.rb off, (o.scheme.length + 1 : ℕ)⟩, state := .uriSchemeSlashSlash }) rfl,
    readUri_ok_cons (w := o.atHost off),
    readUri_span fun j c hc => parseUri_host rfl (o.host_ok c hc)]
  · congr 1
    unfold AbsoluteTarget.hostStop AbsoluteTarget.hostStart
    omega
  · unfold parseUri
    dsimp only
    rw [if_pos o.host₀_ok, AbsoluteTarget.atHost, AbsoluteTarget.hostStart]
    rw [show off + 1 + o.scheme.length + 1 + 1 + 1 = off + (o.scheme.length + 4) by omega]
    rfl
  · unfold parseUri
    dsimp only [Uri.init]
    rw [if_neg (hslash o.scheme₀_ok), if_pos o.scheme₀_ok]
    rfl

end automaton

/-- Where the path begins. -/
def AbsoluteTarget.pathStart (o : AbsoluteTarget) (off : ℕ) : ℕ := o.hostStop off + o.portText.length

/-- `port` behind the authority: with a port it is counted up from `NULL`. -/
def AbsoluteTarget.portRead (o : AbsoluteTarget) (addr off : ℕ) : Str :=
  if o.port.isSome then ⟨.null 1, ptrDiff addr (o.pathStart off) (.null 1)⟩ else Str.init

/-- Behind the first slash of the path. -/
def AbsoluteTarget.atPath (o : AbsoluteTarget) (addr off : ℕ) : Uri :=
  { o.atHost off with
    absPath := ⟨.rb (o.pathStart off), 0⟩
    port := o.portRead addr off
    state := .uriAbsPathSlash }

/-- Behind the space, where there is no path. -/
def AbsoluteTarget.atEnd (o : AbsoluteTarget) (addr off : ℕ) : Uri :=
  { o.atHost off with
    absPath := ⟨.rb (o.hostStart off - 2), 1⟩
    port := o.portRead addr off
    state := .uriBegin }

section authority

variable {addr off : ℕ} {v : Uri} {y : List UInt8} {o : AbsoluteTarget}

/-- The digits of a port. -/
theorem readUri_port {p : List UInt8} (hp : o.port = some p) :
    readUri addr off (o.authority ++ (o.portText ++ y)) Uri.init =
      readUri addr (o.pathStart off) y { o.atHost off with state := .uriPort } := by
  have hstep : parseUri addr (o.hostStop off) cColon (o.atHost off) =
      .ok { o.atHost off with state := .uriPort } := by
    unfold parseUri
    rfl
  rw [readUri_authority, AbsoluteTarget.pathStart, AbsoluteTarget.portText, hp]
  dsimp only
  rw [List.cons_append, readUri_ok_cons hstep,
    readUri_span fun j c hc => parseUri_port rfl (o.port_ok p hp c hc), List.length_cons,
    Nat.add_assoc, Nat.add_comm 1]

theorem readUri_toPath :
    readUri addr off (o.authority ++ (o.portText ++ cSlash :: y)) Uri.init =
      readUri addr (o.pathStart off + 1) y (o.atPath addr off) := by
  cases hp : o.port with
  | some p =>
      rw [readUri_port hp]
      refine readUri_ok_cons ?_
      unfold AbsoluteTarget.atPath AbsoluteTarget.portRead
      rw [hp]
      rfl
  | none =>
      have htext : o.portText = [] := by
        unfold AbsoluteTarget.portText
        rw [hp]
      rw [readUri_authority, htext, List.nil_append]
      have hstart : o.pathStart off = o.hostStop off := by
        simp [AbsoluteTarget.pathStart, htext]
      rw [hstart]
      refine readUri_ok_cons ?_
      unfold AbsoluteTarget.atPath AbsoluteTarget.portRead
      rw [hp, hstart]
      rfl

/-- **A host without a port and without a path** is rejected at the space. -/
theorem readUri_bare (hp : o.port = none) :
    readUri addr off (o.authority ++ (o.portText ++ [cSp])) Uri.init =
      .error (.ret .errInvalidUri) := by
  have htext : o.portText = [] := by
    unfold AbsoluteTarget.portText
    rw [hp]
  rw [readUri_authority, htext]
  rfl

theorem readUri_toEnd (hp : o.port.isSome = true) :
    readUri addr off (o.authority ++ (o.portText ++ [cSp])) Uri.init = .ok (o.atEnd addr off) := by
  obtain ⟨p, hp'⟩ := Option.isSome_iff_exists.mp hp
  rw [readUri_port hp']
  unfold AbsoluteTarget.atEnd AbsoluteTarget.portRead
  rw [if_pos hp]
  rfl

theorem OriginTarget.noSpace (t : OriginTarget) : cSp ∉ t.path ++ queryText t.query := by
  have hq : ∀ c, queryByte c = true → c ≠ cSp := by
    rintro c h rfl
    exact absurd h (by decide)
  have hp : ∀ c, pathByte c = true → c ≠ cSp := by
    rintro c h rfl
    exact absurd h (by decide)
  rw [List.mem_append, not_or]
  refine ⟨fun h => hp _ (t.path_ok _ h) rfl, ?_⟩
  cases hquery : t.query with
  | none => exact List.not_mem_nil
  | some q =>
      rw [queryText, List.mem_cons, not_or]
      exact ⟨by decide, fun h => hq _ (t.query_ok q hquery _ h) rfl⟩

/-- **What becomes of a target with a scheme and a host**: it is accepted unless port and path are
both missing; then the scheme has its slice, the host is empty, and a port begins at the address 1. -/
theorem readUri_absolute (addr off : ℕ) (o : AbsoluteTarget) :
    ((∃ v, readUri addr off (o.text ++ [cSp]) Uri.init = .ok v) ↔
      o.port.isSome = true ∨ o.origin.isSome = true) ∧
    ∀ v, readUri addr off (o.text ++ [cSp]) Uri.init = .ok v →
      v.scheme = ⟨.rb off, (o.scheme.length + 1 : ℕ)⟩ ∧ v.host = ⟨.rb (o.hostStart off), 0⟩ ∧
        v.port = o.portRead addr off ∧
        match o.origin with
        | none => v.absPath = ⟨.rb (o.hostStart off - 2), 1⟩
        | some t => PathRead (o.pathStart off) t.text v := by
  rw [AbsoluteTarget.text, AbsoluteTarget.originText, List.append_assoc, List.append_assoc]
  cases ho : o.origin with
  | none =>
      cases hp : o.port with
      | none =>
          dsimp only
          rw [List.nil_append, readUri_bare hp]
          exact ⟨by simp, fun v hv => nomatch hv⟩
      | some p =>
          have hp' : o.port.isSome = true := by rw [hp]; rfl
          dsimp only
          rw [List.nil_append, readUri_toEnd hp']
          refine ⟨by simp, ?_⟩
          rintro v hv
          cases hv
          exact ⟨rfl, rfl, rfl, rfl⟩
  | some t =>
      dsimp only [OriginTarget.text]
      rw [List.cons_append, readUri_toPath]
      refine ⟨iff_of_true ?_ (.inr rfl), fun v hv => ?_⟩
      · exact (readUri_path rfl t.noSpace).mpr ⟨t.path, t.query, rfl, t.path_ok, t.query_ok⟩
      · obtain ⟨h1, h2, h3⟩ := readUri_keeps (.inl rfl) t.noSpace hv
        refine ⟨h1, h2, h3, ?_⟩
        refine readUri_inv (fun _ _ _ _ => UriInv.step) (t := [cSlash]) (.inl ?_) t.noSpace hv
        exact ⟨rfl, by decide, by decide, [[]], [], by decide, tracks_nil.neutral (a := []) (by decide), rfl⟩

end authority

/-! ### The request lines -/

section line

variable {r₀ : Request} {a : ConnAddr} {s : List UInt8}

/-- What an accepted line leaves of a target with a scheme and a host. -/
theorem parseRequestLine_absolute {r : Request} {l : LineText} {o : AbsoluteTarget}
    (hl : l.text <+: s) (ho : l.target = o.text)
    (h : parseRequestLine (freshRequest r₀ a s) = .ok (.ok, r)) :
    r.uri.host = ⟨.rb (o.hostStart (targetStart s)), 0⟩ ∧
      r.uri.port = o.portRead (freshRequest r₀ a s).rb.addr (targetStart s) ∧
      (o.port.isSome = true ∨ o.origin.isSome = true) := by
  obtain ⟨l', u, hl', -, hread, -, -, huri⟩ := parseRequestLine_consumed h
  have hat := LineText.targetAt hl'
  have htext : l'.target = o.text := by
    rw [← hat.target, (LineText.targetAt hl).target, ho]
  unfold LineText.Reads at hread
  rw [htext, Nat.add_assoc, Nat.add_comm 1] at hread
  have hfall : u.fallback.host = u.host ∧ u.fallback.port = u.port := by
    unfold Uri.fallback
    split <;> exact ⟨rfl, rfl⟩
  obtain ⟨hiff, hslices⟩ := readUri_absolute (freshRequest r₀ a s).rb.addr
    (targetStart s) o
  rw [hat.start] at hiff hslices ⊢
  obtain ⟨-, hhost, hport, -⟩ := hslices u hread
  rw [huri, hfall.1, hfall.2]
  exact ⟨hhost, hport, hiff.mp ⟨u, hread⟩⟩

/-- **No target with a scheme and a host** leaves the slices of its parts: `host.len` is never
set. -/
theorem absoluteForm_never {l : LineText} {o : AbsoluteTarget} (hl : l.text <+: s)
    (ho : l.target = o.text) :
    ¬ ∃ r, parseRequestLine (freshRequest r₀ a s) = .ok (.ok, r) ∧ o.Sliced (targetStart s) s r.uri := by
  rintro ⟨r, hr, hsliced⟩
  have hlen := congrArg Str.len (hsliced.host.symm.trans (parseRequestLine_absolute hl ho hr).1)
  exact absurd hlen (by simp; omega)

/-- `http://localhost`, the example of the source. -/
def localhost : AbsoluteTarget where
  scheme₀ := 104
  scheme := bytes "ttp"
  host₀ := 108
  host := bytes "ocalhost"
  port := none
  origin := none
  scheme₀_ok := by decide
  scheme_ok := List.all_eq_true.mp (by decide)
  host₀_ok := by decide
  host_ok := List.all_eq_true.mp (by decide)
  port_ok := by simp

/-- `GET http://localhost HTTP/1.1`. -/
def localhostLine : LineText where
  method := .get
  spaces := 0
  target := bytes "http://localhost"
  spaces' := 0
  version := ⟨.one, .one, .crLf 0⟩
  nonempty := by decide
  noSpace := by decide

theorem absoluteForm_never_localhost :
    ¬ ∃ r, parseRequestLine (freshRequest .zeroed 0 localhostLine.text) = .ok (.ok, r) ∧
      localhost.Sliced (targetStart localhostLine.text) localhostLine.text r.uri :=
  absoluteForm_never (List.prefix_refl _) (l := localhostLine) (by decide)

/-- The return code of `sy_parse_request_line`. -/
def requestLineAnswer (s : List UInt8) : Option Rc :=
  match parseRequestLine (freshRequest .zeroed 0 s) with
  | .ok (rc, _) => some rc
  | .error _ => none

/-- `http://localhost` is not even accepted. -/
theorem localhost_rejected :
    localhostLine.target = localhost.text ∧
      requestLineAnswer localhostLine.text = some .errInvalidUri ∧
      ¬ ∃ r, parseRequestLine (freshRequest .zeroed 0 localhostLine.text) = .ok (.ok, r) ∧
        localhost.Sliced (targetStart localhostLine.text) localhostLine.text r.uri := by
  have hrc : requestLineAnswer localhostLine.text = some .errInvalidUri := by decide +kernel
  refine ⟨by decide, hrc, ?_⟩
  rintro ⟨r, hr, -⟩
  rw [requestLineAnswer, hr] at hrc
  cases hrc

end line

end SyServer
