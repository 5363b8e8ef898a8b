import SyServer.ParseUri

/-! # The request line and the header lines

`sy_parse_request_line` and `sy_parse_header_line` of `httpparse.c`.  Both are loops
`for (p = b->begin; p < b->end; ++p)` around a `switch` on `r->state`; `requestLineByte i` and
`headerLineByte i` are the bodies for `p = rb.data + i`, and the loops are scans of them.

* A loop that runs out of bytes answers `AGAIN`, and all of its progress is in the request.
* `goto done` leaves the loop at `p` (`Exit.done`), `return` leaves it without touching
  `rb.begin` (`Exit.ret`).
* The header parser rewrites the name in place: upper case to lower case, `-` to `_`. -/

namespace SyServer

open Scan (Step scan)

/-- How the loop of a parser is left before it runs out of bytes. -/
inductive Exit where
  | done (p : ℕ) (r : Request)
  | ret (rc : Rc) (r : Request)
  | abort (f : Fault)

/-! ### The request line -/

/-- `sy_parse_method` on the bytes `begin .. end`. -/
def parseMethod (s : List UInt8) : Option Method :=
  if s = bytes "GET" then some .get
  else if s = bytes "PUT" then some .put
  else if s = bytes "POST" then some .post
  else if s = bytes "HEAD" then some .head
  else if s = bytes "TRACE" then some .trace
  else if s = bytes "DELETE" then some .delete
  else if s = bytes "CONNECT" then some .connect
  else if s = bytes "OPTIONS" then some .options
  else none

/-- `r->version.major * 10 + ch - '0'`, stored in a `uint16_t`. -/
def versionDigit (v : ℕ) (ch : UInt8) : ℕ := (v * 10 + (ch.toNat - 48)) % 65536

/-- The call of `sy_parse_uri` and its error check. -/
def requestLineUri (i : ℕ) (ch : UInt8) (r : Request) (k : Request → Request) :
    Step Request Exit :=
  match parseUri r.rb.addr i ch r.uri with
  | .ok uri => .more (k { r with uri := uri })
  | .error (.ret rc) => .stop (.ret rc r)
  | .error (.abort f) => .stop (.abort f)

/-- `if (r->uri.nentries < r->uri.nddots) r->uri.abs_path.len = 1;` -/
def traversalFallback (r : Request) : Request :=
  if r.uri.nentries < r.uri.nddots then
    { r with uri := { r.uri with absPath := { r.uri.absPath with len := 1 } } }
  else r

/-- The body of the loop of `sy_parse_request_line` at `p = rb.data + i`. -/
def requestLineByte (i : ℕ) (r : Request) : Step Request Exit :=
  let ch := r.rb.mem i
  let goto (s : PState) : Step Request Exit := .more { r with state := s }
  let invalid : Step Request Exit := .stop (.ret .errInvalidRequest r)
  match r.state with
  | .rlBegin =>
      if isUpper ch then
        .more { r with requestLine := { r.requestLine with data := .rb i }, state := .rlMethod }
      else invalid
  | .rlMethod =>
      if ch = cSp then
        match r.requestLine.data with
        | .rb off =>
            let r := { r with method := parseMethod (r.rb.slice off i) }
            if r.method = none then .stop (.ret .errInvalidMethod r)
            else .more { r with state := .rlSpBeforeUri }
        | _ => .stop (.abort .wildRead)
      else .more r
  | .rlSpBeforeUri =>
      if ch = cTab ∨ ch = cCr ∨ ch = cLf then invalid
      else if ch = cSp then .more r
      else
        requestLineUri i ch { r with uri := { r.uri with state := .uriBegin } }
          fun r => { r with state := .rlUri }
  | .rlUri =>
      if ch = cTab ∨ ch = cCr ∨ ch = cLf then invalid
      else if ch = cSp then
        requestLineUri i ch { r with state := .rlSpBeforeVersion } traversalFallback
      else requestLineUri i ch r id
  | .rlSpBeforeVersion =>
      if ch = cSp then .more r
      else if ch = 72 then goto .rlHttpH
      else invalid
  | .rlHttpH => if ch = 84 then goto .rlHttpHt else invalid
  | .rlHttpHt => if ch = 84 then goto .rlHttpHtt else invalid
  | .rlHttpHtt => if ch = 80 then goto .rlHttpHttp else invalid
  | .rlHttpHttp => if ch = cSlash then goto .rlHttpVersionSlash else invalid
  | .rlHttpVersionSlash =>
      if isDigit ch then
        .more { r with
          version := { r.version with major := versionDigit r.version.major ch }
          state := .rlHttpVersionMajor }
      else invalid
  | .rlHttpVersionMajor =>
      if isDigit ch then
        let r := { r with version := { r.version with major := versionDigit r.version.major ch } }
        if r.version.major > 999 then .stop (.ret .errInvalidVersion r) else .more r
      else if ch = cDot then goto .rlHttpVersionDot
      else invalid
  | .rlHttpVersionDot =>
      if isDigit ch then
        .more { r with
          version := { r.version with minor := versionDigit r.version.minor ch }
          state := .rlHttpVersionMinor }
      else invalid
  | .rlHttpVersionMinor =>
      if isDigit ch then
        let r := { r with version := { r.version with minor := versionDigit r.version.minor ch } }
        if r.version.minor > 999 then .stop (.ret .errInvalidVersion r) else .more r
      else if ch = cSp then goto .rlSpAfterVersion
      else if ch = cCr then goto .rlAlmostDone
      else if ch = cLf then .stop (.done i r)
      else invalid
  | .rlSpAfterVersion =>
      if ch = cSp then .more r
      else if ch = cCr then goto .rlAlmostDone
      else invalid
  | .rlAlmostDone => if ch = cLf then .stop (.done i r) else invalid
  | _ => .stop (.abort .requestLineState)

/-- `b->begin = b->end`. -/
def rbConsumed (r : Request) : Request := { r with rb := { r.rb with begin := r.rb.end_ } }

/-- `b->begin = p + 1`. -/
def rbAfter (p : ℕ) (r : Request) : Request := { r with rb := { r.rb with begin := p + 1 } }

/-- What follows the loop of `sy_parse_request_line`. -/
def requestLineExit : Step Request Exit → Except Fault (Rc × Request)
  | .more r => .ok (.again, rbConsumed r)
  | .stop (.done p r) =>
      .ok (.ok, { rbAfter p r with
        requestLine := { r.requestLine with len := ptrDiff r.rb.addr p r.requestLine.data }
        state := .hlBegin })
  | .stop (.ret rc r) => .ok (rc, r)
  | .stop (.abort f) => .error f

/-- `sy_parse_request_line`. -/
def parseRequestLine (r : Request) : Except Fault (Rc × Request) :=
  requestLineExit (scan requestLineByte r.rb.size r.rb.begin r)

/-- A `return` inside the loop carries an error code. -/
theorem requestLineByte_ret {i : ℕ} {r r' : Request} {rc : Rc}
    (h : requestLineByte i r = .stop (.ret rc r')) : rc ≠ .ok ∧ rc ≠ .again := by
  have huri : ∀ ch q k, requestLineUri i ch q k = .stop (.ret rc r') → rc ≠ .ok ∧ rc ≠ .again := by
    intro ch q k hq
    unfold requestLineUri at hq
    cases hp : parseUri q.rb.addr i ch q.uri with
    | ok u => rw [hp] at hq; cases hq
    | error e =>
        rw [hp] at hq
        cases e <;> cases hq
        rw [parseUri_error hp]
        simp
  unfold requestLineByte at h
  cases hs : r.state <;> rw [hs] at h <;> dsimp only at h
  case rlMethod =>
      cases hd : r.requestLine.data <;> rw [hd] at h <;> dsimp only at h <;> split_ifs at h <;>
        cases h
      simp
  case rlSpBeforeUri => split_ifs at h <;> first | exact huri _ _ _ h | (cases h; simp)
  case rlUri => split_ifs at h <;> first | exact huri _ _ _ h | (cases h; simp)
  all_goals (try split_ifs at h) <;> cases h <;> simp

/-- `goto done` leaves the request as it was, and happens at the end of the line only. -/
theorem requestLineByte_done {i p : ℕ} {r r' : Request}
    (h : requestLineByte i r = .stop (.done p r')) :
    p = i ∧ r' = r ∧ (r.state = .rlHttpVersionMinor ∨ r.state = .rlAlmostDone) := by
  have huri : ∀ ch q k, requestLineUri i ch q k ≠ .stop (.done p r') := by
    intro ch q k hq
    unfold requestLineUri at hq
    cases hp : parseUri q.rb.addr i ch q.uri with
    | ok u => rw [hp] at hq; cases hq
    | error e => rw [hp] at hq; cases e <;> cases hq
  unfold requestLineByte at h
  cases hs : r.state <;> rw [hs] at h <;> dsimp only at h
  case rlMethod =>
      cases hd : r.requestLine.data <;> rw [hd] at h <;> dsimp only at h <;> split_ifs at h <;>
        cases h
  case rlSpBeforeUri => split_ifs at h <;> first | exact absurd h (huri _ _ _) | cases h
  case rlUri => split_ifs at h <;> first | exact absurd h (huri _ _ _) | cases h
  all_goals (try split_ifs at h) <;> cases h <;> simp

/-! ### Header lines -/

/-- `*p = *p - '-' + '_'`. -/
def toUnderscore (c : UInt8) : UInt8 := c - 45 + 95

/-- The start of a header name at `p`. -/
def headerNameAt (i : ℕ) (r : Request) : Request :=
  { r with headerName := { r.headerName with data := .rb i }, state := .hlName }

/-- `r->header_value.len = p - r->header_value.data`. -/
def endHeaderValue (i : ℕ) (r : Request) : Request :=
  { r with headerValue :=
      { r.headerValue with len := ptrDiff r.rb.addr i r.headerValue.data } }

/-- The body of the loop of `sy_parse_header_line` at `p = rb.data + i`. -/
def headerLineByte (i : ℕ) (r : Request) : Step Request Exit :=
  let ch := r.rb.mem i
  let goto (s : PState) : Step Request Exit := .more { r with state := s }
  match r.state with
  | .hlBegin =>
      let r := { r with headerName := Str.init, headerValue := Str.init }
      if isUpper ch then .more (headerNameAt i { r with rb := r.rb.write i (toLower ch) })
      else if ch = cDash then .more (headerNameAt i { r with rb := r.rb.write i (toUnderscore ch) })
      else if isDigit ch || isLower ch then .more (headerNameAt i r)
      else if ch = cCr then .more { r with state := .hlAlmostDone }
      else if ch = cLf then .stop (.done i r)
      else .more { r with state := .hlIgnore }
  | .hlIgnore => if ch = cLf then goto .hlBegin else .more r
  | .hlName =>
      if isUpper ch then .more { r with rb := r.rb.write i (toLower ch) }
      else if ch = cDash then .more { r with rb := r.rb.write i (toUnderscore ch) }
      else if isDigit ch || isLower ch then .more r
      else if ch = cColon then
        .more { r with
          headerName := { r.headerName with len := ptrDiff r.rb.addr i r.headerName.data }
          state := .hlColon }
      else if ch = cCr then goto .hlAlmostDone
      else goto .hlIgnore
  | .hlColon | .hlSpBeforeValue =>
      if ch = cSp then goto .hlSpBeforeValue
      else if ch = cCr then goto .hlAlmostDone
      else if ch = cLf then .stop (.done i r)
      else
        .more { r with headerValue := { r.headerValue with data := .rb i }, state := .hlValue }
  | .hlValue =>
      if ch = cSp then .more { endHeaderValue i r with state := .hlSpAfterValue }
      else if ch = cCr then .more { endHeaderValue i r with state := .hlAlmostDone }
      else if ch = cLf then .stop (.done i (endHeaderValue i r))
      else .more r
  | .hlSpAfterValue =>
      if ch = cSp then .more r
      else if ch = cCr then goto .hlAlmostDone
      else if ch = cLf then .stop (.done i r)
      else goto .hlValue
  | .hlAlmostDone => if ch = cLf then .stop (.done i r) else goto .hlIgnore
  | _ => .stop (.abort .headerLineState)

/-- What follows the loop of `sy_parse_header_line`. -/
def headerLineExit : Step Request Exit → Except Fault (Rc × Request)
  | .more r => .ok (.again, rbConsumed r)
  | .stop (.done p r) =>
      .ok (if r.headerName.data = .NULL then .emptyLine else .ok,
        { rbAfter p r with state := .hlBegin })
  | .stop (.ret rc r) => .ok (rc, r)
  | .stop (.abort f) => .error f

/-- `sy_parse_header_line`. -/
def parseHeaderLine (r : Request) : Except Fault (Rc × Request) :=
  headerLineExit (scan headerLineByte r.rb.size r.rb.begin r)

end SyServer
