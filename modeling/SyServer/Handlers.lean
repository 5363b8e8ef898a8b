import SyServer.ParseLine
import SyServer.Resource
import SyServer.Response

/-! # The handlers

`request.c`: the functions behind `r->in_handler`, the header processors, and the four functions
the event loop calls: `sy_handle_request` and `sy_handle_response` on a front connection,
`sy_handle_upstream` and `sy_handle_pass` on an upstream connection.

A handler that fails an assertion or reads through a bad pointer ends the worker
(`Except.error`).  The loops of the source carry a bound here; `Moves.lean` shows that none of the
bounds is ever the reason a loop ends. -/

namespace SyServer

/-! ### C library functions -/

/-- `tolower` in the C locale. -/
def cToLower (c : UInt8) : UInt8 := if isUpper c then toLower c else c

/-- `strncasecmp(s, p, n) == 0` for the string `s` of length `n` at least. -/
def strncaseEq (m : Mem) : List UInt8 → Ptr → Except Fault Bool
  | [], _ => .ok true
  | _ :: _, .null _ => .error .wildRead
  | a :: s, p =>
      if cToLower a ≠ cToLower (m p) then .ok false
      else if a = 0 then .ok true
      else strncaseEq m s (p.add 1)

/-- `isspace` in the C locale. -/
def isSpace (c : UInt8) : Bool := c = cSp || (9 ≤ c && c ≤ 13)

/-- The value of a run of digits. -/
def digitsValue (s : List UInt8) : ℤ := (s.takeWhile isDigit).foldl (fun v c => v * 10 + (c.toNat - 48)) 0

/-- `strtol(s, NULL, 10)`: the value saturates. -/
def strtol (s : List UInt8) : ℤ :=
  let z := match s.dropWhile isSpace with
    | 45 :: s => -digitsValue s
    | 43 :: s => digitsValue s
    | s => digitsValue s
  max (-2 ^ 63) (min z (2 ^ 63 - 1))

/-- `atoi`: `strtol` cut to an `int`. -/
def atoi (m : Mem) : Ptr → Except Fault ℤ
  | .null _ => .error .wildRead
  | p => .ok (wrap32 (strtol ((List.range (BUF_SIZE + 1)).map fun i => m (p.add i))))

/-! ### The URI -/

/-- `sy_match_location`: the first location whose path is a prefix, without regard to case. -/
def matchLocation (m : Mem) (p : Ptr) : List Location → Except Fault (Option Location)
  | [] => .ok none
  | loc :: locs => do
      if ← strncaseEq m loc.path p then pure (some loc) else matchLocation m p locs

/-- The host and the port that `sy_request_handle_uri` takes from the URI. -/
def uriHost (r : Request) : Except Fault Request :=
  if r.uri.host.data = .NULL then .ok r
  else
    let r := { r with host := r.uri.host }
    if r.uri.port.data = .NULL then .ok r
    else do
      let port ← atoi r.mem r.uri.port.data
      pure { r with port := port % 65536 }

/-- `SY_STRING("html")`. -/
def htmlExtension : Str := ⟨.lit (headerTb.length + mimeTb.length) 0, 4⟩

/-- `r->resource_fd = fd; r->resource_len = st.st_size;`, into an `int`. -/
def Request.setResource (r : Request) (fd : ℕ) (size : ℤ) : Request :=
  { r with resourceFd := some fd, resourceLen := wrap32 size }

/-- `sy_request_handle_uri`. -/
def requestHandleUri (cfg : Config) (e : Env) (s : Session) : Except Fault (Rc × Session) := do
  let r ← uriHost s.r
  let s := { s with r := r }
  match ← matchLocation r.mem r.uri.absPath.data cfg.locations with
  | none => responseBuildErr e.date 404 s
  | some loc =>
      let s := s.note (.matched loc.pass)
      if loc.pass then do
        let (uc, s) ← uwsgiOpenConnection e.upstream loc.pass s
        let s := { s with r := { s.r with uc := uc } }
        if uc = none then responseBuildErr e.date 503 s else pure (.ok, s)
      else do
        let (r, path) ← relPath s.r
        let s := { s with r := r }
        match e.resource path with
        | .missing => responseBuildErr e.date 404 s
        | .directory dir none => responseBuildErr e.date 403 { s with g := (s.g.openFd dir).closeFd dir }
        | .directory dir (some (fd, size)) =>
            let uri := { r.uri with extension := htmlExtension }
            let g := ((s.g.openFd dir).openFd fd).closeFd dir
            pure (.ok, { s with r := { r with uri := uri }.setResource fd size, g := g })
        | .file fd size => pure (.ok, { s with r := r.setResource fd size, g := s.g.openFd fd })

/-- `sy_request_handle_request_line`. -/
def requestHandleRequestLine (cfg : Config) (e : Env) (s : Session) :
    Except Fault (Rc × Session) := do
  let (err, r) ← parseRequestLine s.r
  let s := { s with r := r }
  if err = .again then pure (.again, s)
  else if err ≠ .ok then responseBuildErr e.date 400 s
  else if r.version.major ≠ 1 ∨ r.version.minor > 2 then responseBuildErr e.date 505 s
  else
    let r := { r with keepAlive := r.version.minor = 1, inHandler := .headers }
    requestHandleUri cfg e { s with r := r }

/-! ### Headers -/

/-- `sy_header_handle_generic`. -/
def headerHandleGeneric (offset : HeaderField) (r : Request) : Request :=
  { r with headers := Function.update r.headers offset r.headerValue }

/-- `sy_header_handle_connection`. -/
def headerHandleConnection (offset : HeaderField) (s : Session) : Except Fault (Rc × Session) := do
  let r := headerHandleGeneric offset s.r
  let close ← strncaseEq r.mem (bytes "close") (r.headers .c).data
  pure (.ok, { s with r := if close then { r with keepAlive := false } else r })

/-- The names `sy_header_handle_t_encoding` compares with, in its order. -/
def encodingNames : List (String × TransferEncoding) :=
  [("chunked", .chunked), ("gzip", .gzip), ("x-gzip", .gzip), ("compress", .compress),
   ("x-compress", .compress), ("deflate", .deflate), ("identity", .identity)]

/-- The first name that is a prefix of the string at `p`. -/
def matchEncoding (m : Mem) (p : Ptr) :
    List (String × TransferEncoding) → Except Fault (Option TransferEncoding)
  | [] => .ok none
  | (name, te) :: tb => do
      if ← strncaseEq m (bytes name) p then pure (some te) else matchEncoding m p tb

/-- `sy_header_handle_t_encoding`. -/
def headerHandleTEncoding (date : List UInt8) (offset : HeaderField) (s : Session) :
    Except Fault (Rc × Session) := do
  let r := headerHandleGeneric offset s.r
  match ← matchEncoding r.mem (r.headers .transferEncoding).data encodingNames with
  | some te => pure (.ok, { s with r := { r with tEncoding := te } })
  | none => responseBuildErr date 415 { s with r := r }

/-- `sy_header_handle_content_length`. -/
def headerHandleContentLength (date : List UInt8) (offset : HeaderField) (s : Session) :
    Except Fault (Rc × Session) := do
  let r := headerHandleGeneric offset s.r
  let len ← atoi r.mem r.headerValue.data
  if len < 0 then responseBuildErr date 400 { s with r := r }
  else pure (.ok, { s with r := { r with contentLength := len } })

/-- A processor of the table. -/
def Processor.run (date : List UInt8) (offset : HeaderField) (s : Session) :
    Processor → Except Fault (Rc × Session)
  | generic | host | accept | ifModifiedSince =>
      .ok (.ok, { s with r := headerHandleGeneric offset s.r })
  | connection => headerHandleConnection offset s
  | tEncoding => headerHandleTEncoding date offset s
  | contentLength => headerHandleContentLength date offset s

/-- The loop of `sy_request_handle_headers`.  Each round but the last consumes a byte. -/
def headersLoop (cfg : Config) (e : Env) : ℕ → Session → Except Fault (Rc × Session)
  | 0, s => .ok (.again, s)
  | n + 1, s => do
      let (err, r) ← parseHeaderLine s.r
      let s := { s with r := r }
      match err with
      | .again => pure (.again, s)
      | .emptyLine =>
          pure (.ok, { s with r := { r with inHandler := .body } }.note (.headersEnd r.rb.begin))
      | .ok =>
          match cfg.headerGet r.mem r.headerName with
          | none => headersLoop cfg e n s
          | some header => do
              let (err, s) ← header.processor.run e.date header.offset s
              if err ≠ .ok then pure (err, s) else headersLoop cfg e n s
      | _ => .error .headerReturn

/-- `sy_request_handle_headers`. -/
def requestHandleHeaders (cfg : Config) (e : Env) (s : Session) : Except Fault (Rc × Session) :=
  headersLoop cfg e (s.r.rb.size + 1) s

/-! ### The body -/

/-- `sy_parse_request_body_identity`. -/
def parseRequestBodyIdentity (r : Request) : Rc × Request :=
  if r.contentLength ≤ 0 then (.ok, r)
  else
    let r := { r with bodyReceived := wrap32 (r.bodyReceived + r.rb.size) }
    if r.bodyReceived ≥ r.contentLength then (.ok, r) else (.again, r)

/-- `b->begin = b->data`. -/
def rbRewind (r : Request) : Request := { r with rb := { r.rb with begin := 0 } }

/-- The file that `sy_response_build` closes where the response has no body. -/
def Request.unsent (r : Request) : Option ℕ :=
  if r.status = 304 ∨ r.status = 100 then r.resourceFd else none

/-- `case OK` of `sy_request_handle_body`: the local response, or the start of the forwarding. -/
def bodyRespond (e : Env) (s : Session) : Except Fault Session :=
  if s.r.uc = none then do
    let r ← responseBuild e.date s.r
    let s := s.note (.built (r.sb.slice s.r.sb.end_ r.sb.end_))
    pure { s with
      r := { r with rb := r.rb.clear }, c := enableOut s.c, g := s.g.closeFile s.r.unsent }
  else enableUpstreamOut { s with r := rbRewind s.r }

/-- `sy_request_handle_body`.  `sy_parse_request_body_chunked` is behind an `assert(false)`, as
are the other encodings. -/
def requestHandleBody (e : Env) (s : Session) : Except Fault (Rc × Session) :=
  if s.r.tEncoding ≠ .identity then .error .bodyEncoding
  else
    let (err, r) := parseRequestBodyIdentity s.r
    match err with
    | .again => do
        let s ← enableUpstreamOut { s with r := rbRewind r, c := disableIn s.c }
        pure (.again, s)
    | .ok => do
        let s ← bodyRespond e { s with r := r, c := disableIn s.c }
        pure (.ok, { s with r := { s.r with bodyDone := true, inHandler := .requestLine } })
    | _ => responseBuildErr e.date 400 { s with r := r }

/-! ### The front connection -/

/-- `r->in_handler(r)`. -/
def InHandler.run (cfg : Config) (e : Env) (s : Session) : InHandler → Except Fault (Rc × Session)
  | requestLine => requestHandleRequestLine cfg e s
  | headers => requestHandleHeaders cfg e s
  | body => requestHandleBody e s

/-- The loop of `sy_handle_request`.  A failed assertion leaves the session of its call. -/
def requestLoop (cfg : Config) (e : Env) : ℕ → Session → Except Fault Rc × Session
  | 0, s => (.ok .again, s)
  | n + 1, s =>
      let s := s.note (.called s.r.inHandler s.r.state)
      match s.r.inHandler.run cfg e s with
      | .error f => (.error f, s)
      | .ok (err, s) =>
          if err = .ok ∧ s.r.bodyDone = false then requestLoop cfg e n s else (.ok err, s)

/-- `sy_handle_request`. -/
def handleRequest (cfg : Config) (e : Env) (s : Session) : Except Fault Rc × Session :=
  let (err, b, d) := s.r.rb.recv e.recvs
  let s := { s with r := { s.r with rb := b } }.note (.received d)
  if err ≠ .again then (.ok .error, s) else requestLoop cfg e 3 s

/-- What `sy_send_response_buffer` does when all of `sb` is sent. -/
def responseBufferSent (s : Session) : Rc × Session :=
  if s.r.uc ≠ none then (.again, s)
  else if s.r.resourceFd ≠ none then (.ok, { s with r := { s.r with outHandler := .file } })
  else (.ok, { s with r := { s.r with responseDone := true }, c := disableOut s.c })

/-- `sy_send_response_buffer`. -/
def sendResponseBuffer (e : Env) (s : Session) : Rc × Session :=
  let (err, b, d) := s.r.sb.send e.sends
  let s := { s with r := { s.r with sb := b } }.note (.delivered (.buffer d))
  if err = .ok then responseBufferSent s
  else if err = .error then (.error, s)
  else (.again, s)

/-- The loop of `sy_send_response_file`: `OK` once `sendfile` answers 0.  The source keeps the answer in
an `int`, which holds what one call transfers; it does not use the number of bytes sent. -/
def sendfileLoop : List FileResult → Rc × ℕ
  | [] => (.again, 0)
  | .sent n :: rs =>
      if n = 0 then (.ok, 0)
      else
        let (rc, m) := sendfileLoop rs
        (rc, n + m)
  | .eagain :: _ => (.again, 0)
  | .err :: _ => (.error, 0)

/-- `sy_send_response_file`. -/
def sendResponseFile (e : Env) (s : Session) : Except Fault (Rc × Session) :=
  if s.r.uc ≠ none then .error .fileWithUpstream
  else
    let (rc, n) := sendfileLoop e.files
    let s := s.note (.delivered (.file n))
    if rc = .ok then
      let r := { s.r with responseDone := true, resourceFd := none }
      .ok (.ok, { s with r := r, g := s.g.closeFile s.r.resourceFd })
    else .ok (rc, s)

/-- `r->out_handler(r)`. -/
def OutHandler.run (e : Env) (s : Session) : OutHandler → Except Fault (Rc × Session)
  | buffer => .ok (sendResponseBuffer e s)
  | file => sendResponseFile e s

/-- The loop of `sy_handle_response`. -/
def responseLoop (e : Env) : ℕ → Session → Except Fault (Rc × Session)
  | 0, s => .ok (.again, s)
  | n + 1, s => do
      let (err, s) ← s.r.outHandler.run e s
      if err = .ok ∧ s.r.responseDone = false then responseLoop e n s else pure (err, s)

/-- The reset of a kept connection in `sy_handle_response`. -/
def Session.clear (s : Session) : Session :=
  { s with r := requestClear s.r, c := enableIn (disableOut s.c) }.note (.cleared s.r.bodyDone)

/-- `sy_handle_response`. -/
def handleResponse (e : Env) (s : Session) : Except Fault (Rc × Session) := do
  let (err, s) ← responseLoop e 2 s
  if s.r.responseDone then
    if s.r.keepAlive then pure (err, s.clear) else pure (.error, s)
  else pure (err, s)

/-! ### The upstream connection -/

/-- `sy_handle_pass`. -/
def handlePass (e : Env) (s : Session) : Except Fault (Rc × Session) := do
  let (err, b, d) := s.r.rb.send e.sends
  let s := { s with r := { s.r with rb := b } }.note (.forwarded d)
  if err = .ok then
    pure (.ok, { s with r := { s.r with rb := s.r.rb.clear }, c := enableIn s.c, u := disableOut s.u })
  else if err = .error then do
    let (_, s) ← responseBuildErr e.date 503 s
    pure (err, s)
  else pure (err, s)

/-- `sy_handle_upstream`. -/
def handleUpstream (e : Env) (s : Session) : Except Fault (Rc × Session) := do
  let (err, b, d) := s.r.sb.recv e.recvs
  let s := { s with r := { s.r with sb := b } }.note (.relayed d)
  if err = .ok then pure (.error, s)
  else if err = .error then do
    let (_, s) ← responseBuildErr e.date 503 s
    pure (.error, s)
  else pure (err, { s with c := enableOut s.c })

/-- The outcome of a call, with the session as it was where an assertion failed. -/
def settle (s : Session) : Except Fault (Rc × Session) → Except Fault Rc × Session
  | .ok (rc, s') => (.ok rc, s')
  | .error f => (.error f, s)

end SyServer
