import SyServer.ParseLine

/-! # What the parsers do, as rules

The loops of `ParseLine.lean`, stated once so that no later proof unfolds them.

* `LineFrame`, `HeaderFrame`: the fields a parser may change.
* `LineReady`, `HeaderReady`: the states in which no assertion of a parser can fail; every byte
  keeps them until the loop is left.
* `Transparent`: the changes of the read buffer that a loop does not notice. -/

namespace SyServer

open Scan (Step scan)

/-- A property of the request, wherever the loop goes on or is left. -/
def Outcome (P : Request → Prop) : Step Request Exit → Prop
  | .more r => P r
  | .stop (.done _ r) => P r
  | .stop (.ret _ r) => P r
  | .stop (.abort _) => True

theorem Outcome.imp {P Q : Request → Prop} (h : ∀ r, P r → Q r) {st : Step Request Exit}
    (hp : Outcome P st) : Outcome Q st := by
  cases st with
  | more r => exact h r hp
  | stop e =>
      cases e with
      | done p r => exact h r hp
      | ret rc r => exact h r hp
      | abort f => trivial

/-- A property of the request wherever the loop goes on, and no failed assertion. -/
def Safe (P : Request → Prop) : Step Request Exit → Prop
  | .more r => P r
  | .stop (.abort _) => False
  | .stop _ => True

/-! ### Frames -/

/-- The fields `sy_parse_request_line` changes besides `rb.begin`. -/
def LineFrame (r r' : Request) : Prop :=
  ∃ m v s l u, r' = { r with method := m, version := v, state := s, requestLine := l, uri := u }

/-- The fields `sy_parse_header_line` changes besides `rb.begin`. -/
def HeaderFrame (r r' : Request) : Prop :=
  ∃ n v s b, r' = { r with headerName := n, headerValue := v, state := s, rb := b } ∧
    b.addr = r.rb.addr ∧ b.begin = r.rb.begin ∧ b.end_ = r.rb.end_

theorem LineFrame.refl (r : Request) : LineFrame r r := ⟨_, _, _, _, _, rfl⟩

theorem LineFrame.trans {r₁ r₂ r₃ : Request} (h : LineFrame r₁ r₂) (h' : LineFrame r₂ r₃) :
    LineFrame r₁ r₃ := by
  obtain ⟨m, v, s, l, u, rfl⟩ := h
  obtain ⟨m', v', s', l', u', rfl⟩ := h'
  exact ⟨m', v', s', l', u', rfl⟩

theorem HeaderFrame.refl (r : Request) : HeaderFrame r r := ⟨_, _, _, _, rfl, rfl, rfl, rfl⟩

theorem HeaderFrame.trans {r₁ r₂ r₃ : Request} (h : HeaderFrame r₁ r₂) (h' : HeaderFrame r₂ r₃) :
    HeaderFrame r₁ r₃ := by
  obtain ⟨n, v, s, b, rfl, h1, h2, h3⟩ := h
  obtain ⟨n', v', s', b', rfl, h1', h2', h3'⟩ := h'
  exact ⟨n', v', s', b', rfl, h1'.trans h1, h2'.trans h2, h3'.trans h3⟩

theorem requestLineByte_frame (i : ℕ) (r : Request) :
    Outcome (LineFrame r) (requestLineByte i r) := by
  have huri : ∀ ch q k, LineFrame r q → (∀ p, LineFrame p (k p)) →
      Outcome (LineFrame r) (requestLineUri i ch q k) := by
    intro ch q k hq hk
    unfold requestLineUri
    cases parseUri q.rb.addr i ch q.uri with
    | ok u => exact (hq.trans ⟨_, _, _, _, u, rfl⟩).trans (hk _)
    | error e =>
        cases e with
        | ret rc => exact hq
        | abort f => trivial
  have hfallback : ∀ p, LineFrame p (traversalFallback p) := fun p => by
    unfold traversalFallback
    split
    · exact ⟨_, _, _, _, _, rfl⟩
    · exact LineFrame.refl p
  unfold requestLineByte
  cases hs : r.state <;> dsimp only
  case rlMethod =>
      cases r.requestLine.data <;> dsimp only <;> split_ifs <;>
        first | trivial | exact ⟨_, _, _, _, _, rfl⟩
  case rlSpBeforeUri =>
      split_ifs
      · exact LineFrame.refl r
      · exact LineFrame.refl r
      · exact huri _ _ _ ⟨_, _, _, _, _, rfl⟩ fun p => ⟨_, _, _, _, _, rfl⟩
  case rlUri =>
      split_ifs
      · exact LineFrame.refl r
      · exact huri _ _ _ ⟨_, _, _, _, _, rfl⟩ hfallback
      · exact huri _ _ _ (LineFrame.refl r) LineFrame.refl
  all_goals (try split_ifs) <;> first | trivial | exact ⟨_, _, _, _, _, rfl⟩

theorem headerLineByte_frame (i : ℕ) (r : Request) :
    Outcome (HeaderFrame r) (headerLineByte i r) := by
  unfold headerLineByte
  cases hs : r.state <;> dsimp only <;> (try split_ifs) <;>
    first | trivial | exact ⟨_, _, _, _, rfl, rfl, rfl, rfl⟩

/-! ### States without a failing assertion -/

/-- `URI_S_BEGIN .. URI_S_QUERY`. -/
def PState.uri : PState → Bool
  | uriBegin | uriScheme | uriSchemeColon | uriSchemeSlash | uriSchemeSlashSlash | uriHost
  | uriPort | uriAbsPathDot | uriAbsPathDdot | uriAbsPathSlash | uriAbsPathEntry | uriExtension
  | uriQuery => true
  | _ => false

/-- A URI in a state of the automaton gets to one. -/
theorem parseUri_ready {addr i : ℕ} {ch : UInt8} {u : Uri} (hu : u.state.uri = true) :
    (∃ u', parseUri addr i ch u = .ok u' ∧ u'.state.uri = true) ∨
      parseUri addr i ch u = .error (.ret .errInvalidUri) := by
  have hext : ∀ v : Uri, v.state.uri = true →
      (∃ u', uriExtension addr i ch v = .ok u' ∧ u'.state.uri = true) ∨
        uriExtension addr i ch v = .error (.ret .errInvalidUri) := by
    intro v hv
    unfold uriExtension
    cases uriByte ch
    case other => exact .inr rfl
    case dot => exact .inl ⟨_, rfl, hv⟩
    case allowed => exact .inl ⟨_, rfl, hv⟩
    all_goals exact .inl ⟨_, rfl, rfl⟩
  unfold parseUri
  cases hs : u.state <;> rw [hs] at hu <;> try exact absurd hu (by decide)
  case uriAbsPathEntry =>
      dsimp only
      unfold uriEntry
      cases uriByte ch <;> dsimp only
      case other => exact .inr rfl
      case allowed => exact hext u (by rw [hs]; rfl)
      all_goals exact hext _ rfl
  case uriExtension => exact hext u (by rw [hs]; rfl)
  case uriQuery =>
      dsimp only
      split_ifs
      · exact .inl ⟨_, rfl, rfl⟩
      · exact .inl ⟨_, rfl, by rw [hs]; rfl⟩
      · exact .inr rfl
  case uriAbsPathSlash | uriAbsPathDot | uriAbsPathDdot =>
      cases uriByte ch <;> dsimp only <;>
        first
          | exact .inr rfl
          | exact .inl ⟨_, rfl, rfl⟩
          | exact .inl ⟨_, rfl, by rw [hs]; rfl⟩
  all_goals
    dsimp only
    split_ifs <;>
      first
        | exact .inr rfl
        | exact .inl ⟨_, rfl, rfl⟩
        | exact .inl ⟨_, rfl, by rw [hs]; rfl⟩

/-- No assertion of `sy_parse_request_line` fails here. -/
structure LineReady (r : Request) : Prop where
  state : r.state.requestLine = true
  method : r.state = .rlMethod → ∃ off, r.requestLine.data = .rb off
  uri : r.state = .rlUri → r.uri.state.uri = true

/-- No assertion of `sy_parse_header_line` fails here. -/
def HeaderReady (r : Request) : Prop := r.state.headerLine = true

theorem LineReady.of_state {r : Request} (h : r.state.requestLine = true)
    (hm : r.state ≠ .rlMethod) (hu : r.state ≠ .rlUri) : LineReady r :=
  ⟨h, fun e => absurd e hm, fun e => absurd e hu⟩

theorem requestLineByte_ready {i : ℕ} {r : Request} (hr : LineReady r) :
    Safe LineReady (requestLineByte i r) := by
  -- the two calls of the URI automaton
  have huri : ∀ ch q k, q.uri.state.uri = true →
      (∀ p : Request, p.uri.state.uri = true → p.state = q.state → LineReady (k p)) →
      Safe LineReady (requestLineUri i ch q k) := by
    intro ch q k hq hk
    unfold requestLineUri
    rcases parseUri_ready hq with ⟨u, hp, hu⟩ | hp
    · rw [hp]
      exact hk _ hu rfl
    · rw [hp]
      trivial
  obtain ⟨hst, hmeth, hu⟩ := hr
  unfold requestLineByte
  cases hs : r.state <;> rw [hs] at hst <;> try exact absurd hst (by decide)
  case rlBegin =>
      dsimp only
      split_ifs
      · exact ⟨rfl, fun _ => ⟨i, rfl⟩, fun e => by cases e⟩
      · trivial
  case rlMethod =>
      obtain ⟨off, hoff⟩ := hmeth hs
      dsimp only
      rw [hoff]
      dsimp only
      split_ifs
      · trivial
      · exact .of_state rfl (by simp) (by simp)
      · exact ⟨by rw [hs]; rfl, fun _ => ⟨off, hoff⟩, fun e => by rw [hs] at e; cases e⟩
  case rlSpBeforeUri =>
      dsimp only
      split_ifs
      · trivial
      · exact .of_state (by rw [hs]; rfl) (by simp [hs]) (by simp [hs])
      · exact huri _ _ _ rfl fun p hp _ => ⟨rfl, by simp, fun _ => hp⟩
  case rlUri =>
      dsimp only
      split_ifs
      · trivial
      · refine huri _ _ _ (hu hs) fun p _ hps => ?_
        have hps' : (traversalFallback p).state = .rlSpBeforeVersion := by
          unfold traversalFallback
          split <;> exact hps
        exact .of_state (by rw [hps']; rfl) (by simp [hps']) (by simp [hps'])
      · refine huri _ _ _ (hu hs) fun p hp hps => ?_
        rw [hs] at hps
        exact ⟨by rw [id, hps]; rfl, (fun e => by rw [id, hps] at e; cases e), fun _ => hp⟩
  all_goals
    dsimp only
    split_ifs <;>
      first
        | trivial
        | exact .of_state rfl (by simp) (by simp)
        | exact .of_state (by rw [hs]; rfl) (by simp [hs]) (by simp [hs])

theorem headerLineByte_ready {i : ℕ} {r : Request} (hr : HeaderReady r) :
    Safe HeaderReady (headerLineByte i r) := by
  unfold HeaderReady at hr
  unfold headerLineByte
  cases hs : r.state <;> rw [hs] at hr <;> try exact absurd hr (by decide)
  all_goals
    dsimp only
    split_ifs <;> first | trivial | simp [Safe, HeaderReady, hs, PState.headerLine]

/-! ### Changes a loop does not notice -/

/-- A change of the read buffer that keeps the bytes up to `i` and commutes with a write there. -/
structure Transparent (g : Buffer → Buffer) (i : ℕ) (b : Buffer) : Prop where
  addr : (g b).addr = b.addr
  mem : ∀ k, k ≤ i → (g b).mem k = b.mem k
  write : ∀ c, g (b.write i c) = (g b).write i c

/-- Change the read buffer. -/
def Request.mapRb (g : Buffer → Buffer) (r : Request) : Request := { r with rb := g r.rb }

/-- Change the read buffer of the request an exit carries. -/
def Exit.mapRb (g : Buffer → Buffer) : Exit → Exit
  | done p r => done p (r.mapRb g)
  | ret rc r => ret rc (r.mapRb g)
  | abort f => abort f

variable {g : Buffer → Buffer} {i : ℕ} {r : Request}

theorem requestLineByte_mapRb (hg : Transparent g i r.rb) :
    requestLineByte i (r.mapRb g) = (requestLineByte i r).map (.mapRb g) (.mapRb g) := by
  have huri : ∀ ch (q : Request) k, q.rb = r.rb → (∀ p, k (p.mapRb g) = (k p).mapRb g) →
      requestLineUri i ch (q.mapRb g) k =
        (requestLineUri i ch q k).map (.mapRb g) (.mapRb g) := by
    intro ch q k hq hk
    unfold requestLineUri
    have e1 : (q.mapRb g).rb.addr = q.rb.addr := by
      show (g q.rb).addr = q.rb.addr
      rw [hq]
      exact hg.addr
    rw [e1, show (q.mapRb g).uri = q.uri from rfl]
    cases hp : parseUri q.rb.addr i ch q.uri with
    | ok u => exact congrArg _ (hk { q with uri := u })
    | error e => cases e <;> rfl
  have hfallback : ∀ p, traversalFallback (p.mapRb g) = (traversalFallback p).mapRb g := by
    intro p
    unfold traversalFallback
    rw [show (p.mapRb g).uri = p.uri from rfl]
    split_ifs <;> rfl
  unfold requestLineByte
  rw [show (r.mapRb g).rb.mem i = r.rb.mem i from hg.mem i le_rfl,
    show (r.mapRb g).state = r.state from rfl]
  cases hs : r.state <;> dsimp only
  case rlMethod =>
      rw [show (r.mapRb g).requestLine = r.requestLine from rfl]
      split_ifs
      · cases r.requestLine.data with
        | rb off =>
            dsimp only
            rw [show (r.mapRb g).rb.slice off i = r.rb.slice off i from
              Buffer.slice_congr fun k _ hk => hg.mem k hk.le]
            split_ifs <;> rfl
        | null off => rfl
        | lit id off => rfl
      · rfl
  case rlSpBeforeUri =>
      split_ifs
      · rfl
      · rfl
      · exact huri _ { r with state := .rlSpBeforeUri, uri := { r.uri with state := .uriBegin } }
          (fun q => { q with state := .rlUri }) rfl fun p => rfl
  case rlUri =>
      split_ifs
      · rfl
      · exact huri _ { r with state := .rlSpBeforeVersion } _ rfl hfallback
      · exact huri _ r id rfl fun p => rfl
  case rlHttpVersionMajor | rlHttpVersionMinor =>
      rw [show (r.mapRb g).version = r.version from rfl]
      split_ifs <;> rfl
  all_goals (try split_ifs) <;> rfl

theorem headerLineByte_mapRb (hg : Transparent g i r.rb) :
    headerLineByte i (r.mapRb g) = (headerLineByte i r).map (.mapRb g) (.mapRb g) := by
  have hwrite : ∀ c, (r.mapRb g).rb.write i c = g (r.rb.write i c) := fun c => (hg.write c).symm
  have haddr : (r.mapRb g).rb.addr = r.rb.addr := hg.addr
  have hvalue : endHeaderValue i (r.mapRb g) = (endHeaderValue i r).mapRb g := by
    unfold endHeaderValue
    rw [haddr]
    rfl
  unfold headerLineByte
  rw [show (r.mapRb g).rb.mem i = r.rb.mem i from hg.mem i le_rfl,
    show (r.mapRb g).state = r.state from rfl]
  cases hs : r.state <;> dsimp only
  all_goals (try split_ifs) <;> first | rfl | (simp only [hwrite, haddr, hvalue]; rfl)

/-! ### Where the header loop is left -/

theorem headerLineByte_done {p : ℕ} {r' : Request} (h : headerLineByte i r = .stop (.done p r')) :
    p = i := by
  unfold headerLineByte at h
  cases hs : r.state <;> rw [hs] at h <;> dsimp only at h <;> (try split_ifs at h) <;> cases h <;>
    rfl

theorem headerLineByte_ret {rc : Rc} {r' : Request} :
    headerLineByte i r ≠ .stop (.ret rc r') := by
  intro h
  unfold headerLineByte at h
  cases hs : r.state <;> rw [hs] at h <;> dsimp only at h <;> (try split_ifs at h) <;> cases h

end SyServer
