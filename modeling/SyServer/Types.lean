import SyServer.Base.Buffer
import SyServer.Base.Map

/-! # Requests, connections and configuration

The data of `server.h`: the parser states (one C enumeration shared by the request line, the
header lines and the URI), `sy_uri_t`, `sy_request_t`, the part of `sy_connection_t` that the
handlers use, and the configured locations.

A request refers to its front connection `c` and its upstream connection `uc` by address.  The
handlers of a request are function pointers in the source (`in_handler`, `out_handler`); here
they are the enumerations of the functions stored there. -/

namespace SyServer

/-! ### Parser states -/

/-- The states of the three parsers, in the order of the C enumeration. -/
inductive PState where
  | rlBegin
  | rlMethod
  | rlSpBeforeUri
  | rlUri
  | rlSpBeforeVersion
  | rlHttpH
  | rlHttpHt
  | rlHttpHtt
  | rlHttpHttp
  | rlHttpVersionSlash
  | rlHttpVersionMajor
  | rlHttpVersionDot
  | rlHttpVersionMinor
  | rlSpAfterVersion
  | rlAlmostDone
  | rlDone
  | hlBegin
  | hlIgnore
  | hlName
  | hlColon
  | hlSpBeforeValue
  | hlValue
  | hlSpAfterValue
  | hlAlmostDone
  | hlDone
  | uriBegin
  | uriScheme
  | uriSchemeColon
  | uriSchemeSlash
  | uriSchemeSlashSlash
  | uriHost
  | uriPort
  | uriAbsPathDot
  | uriAbsPathDdot
  | uriAbsPathSlash
  | uriAbsPathEntry
  | uriExtension
  | uriQuery
deriving DecidableEq, Repr

/-- `RL_S_BEGIN .. RL_S_ALMOST_DONE`. -/
def PState.requestLine : PState → Bool
  | rlBegin | rlMethod | rlSpBeforeUri | rlUri | rlSpBeforeVersion | rlHttpH | rlHttpHt
  | rlHttpHtt | rlHttpHttp | rlHttpVersionSlash | rlHttpVersionMajor | rlHttpVersionDot
  | rlHttpVersionMinor | rlSpAfterVersion | rlAlmostDone => true
  | _ => false

/-- `HL_S_BEGIN .. HL_S_ALMOST_DONE`. -/
def PState.headerLine : PState → Bool
  | hlBegin | hlIgnore | hlName | hlColon | hlSpBeforeValue | hlValue | hlSpAfterValue
  | hlAlmostDone => true
  | _ => false

/-! ### Requests -/

/-- `sy_method_t`. -/
inductive Method where
  | connect
  | delete
  | get
  | head
  | options
  | post
  | put
  | trace
deriving DecidableEq, Repr

/-- `sy_version_t`; both fields are `uint16_t`. -/
structure Version where
  major : ℕ
  minor : ℕ
deriving DecidableEq, Repr

/-- `sy_transfer_encoding_t`. -/
inductive TransferEncoding where
  | identity
  | chunked
  | gzip
  | compress
  | deflate
deriving DecidableEq, Repr

/-- `sy_request_stage_t`. -/
inductive Stage where
  | requestLine
  | headers
  | body
  | passHeaders
  | passBody
deriving DecidableEq, Repr

/-- `sy_uri_t`. -/
structure Uri where
  scheme : Str
  host : Str
  port : Str
  absPath : Str
  extension : Str
  query : Str
  nddots : ℕ
  nentries : ℕ
  state : PState
deriving DecidableEq, Repr

/-- The members of `sy_request_headers_t`. -/
inductive HeaderField where
  | cacheControl
  | c
  | date
  | pragma
  | trailer
  | transferEncoding
  | upgrade
  | via
  | warning
  | allow
  | contentEncoding
  | contentLanguage
  | contentLength
  | contentLocation
  | contentMd5
  | contentRange
  | contentType
  | expires
  | lastModified
  | accept
  | acceptCharset
  | acceptEncoding
  | authorization
  | cookie
  | expect
  | from
  | host
  | ifMatch
  | ifModifiedSince
  | ifNoneMatch
  | ifRange
  | ifUnmodifiedSince
  | maxForwards
  | proxyAuthorization
  | range
  | referer
  | te
  | userAgent
deriving DecidableEq, Repr

/-- The functions a `sy_header_processor_t` of the table points to. -/
inductive Processor where
  | generic
  | connection
  | tEncoding
  | contentLength
  | host
  | accept
  | ifModifiedSince
deriving DecidableEq, Repr

/-- `sy_header_val_t`. -/
structure HeaderVal where
  offset : HeaderField
  processor : Processor
deriving DecidableEq, Repr

/-- The functions `in_handler` points to. -/
inductive InHandler where
  | requestLine
  | headers
  | body
deriving DecidableEq, Repr

/-- The functions `out_handler` points to. -/
inductive OutHandler where
  | buffer
  | file
deriving DecidableEq, Repr

/-- The address of a connection. -/
abbrev ConnAddr := ℕ

/-- The address of a request. -/
abbrev ReqAddr := ℕ

/-- `sy_request_t`.  `method` is `none` while it holds `ERR_INVALID_METHOD`; `resourceFd` is
`none` for `-1`; `uc` is `none` for `NULL`. -/
structure Request where
  method : Option Method
  version : Version
  headers : HeaderField → Str
  state : PState
  requestLine : Str
  headerName : Str
  headerValue : Str
  uri : Uri
  host : Str
  port : ℤ
  stage : Stage
  discardBody : Bool
  bodyDone : Bool
  done : Bool
  responseDone : Bool
  keepAlive : Bool
  tEncoding : TransferEncoding
  contentLength : ℤ
  bodyReceived : ℤ
  rb : Buffer
  sb : Buffer
  c : ConnAddr
  uc : Option ConnAddr
  inHandler : InHandler
  outHandler : OutHandler
  status : ℕ
  resourceFd : Option ℕ
  resourceLen : ℤ

/-- `sy_uri_init`. -/
def Uri.init : Uri := ⟨Str.init, Str.init, Str.init, Str.init, Str.init, Str.init, 0, 0, .uriBegin⟩

/-- `sy_request_init`: every field but the bytes of the two arrays is set. -/
def requestInit (r : Request) (c : ConnAddr) : Request where
  method := some .get
  version := ⟨0, 0⟩
  headers := fun _ => Str.init
  state := .rlBegin
  requestLine := Str.init
  headerName := Str.init
  headerValue := Str.init
  uri := Uri.init
  host := Str.init
  port := 80
  stage := .requestLine
  discardBody := false
  bodyDone := false
  done := false
  responseDone := false
  keepAlive := false
  tEncoding := .identity
  contentLength := -1
  bodyReceived := 0
  rb := r.rb.clear
  sb := r.sb.clear
  c := c
  uc := none
  inHandler := .requestLine
  outHandler := .buffer
  status := 200
  resourceFd := none
  resourceLen := 0

/-- The memory of a request before `sy_request_init`, zeroed. -/
def Request.zeroed : Request where
  method := none
  version := ⟨0, 0⟩
  headers := fun _ => Str.init
  state := .rlBegin
  requestLine := Str.init
  headerName := Str.init
  headerValue := Str.init
  uri := Uri.init
  host := Str.init
  port := 0
  stage := .requestLine
  discardBody := false
  bodyDone := false
  done := false
  responseDone := false
  keepAlive := false
  tEncoding := .identity
  contentLength := 0
  bodyReceived := 0
  rb := ⟨4096, fun _ => 0, 0, 0⟩
  sb := ⟨8192, fun _ => 0, 0, 0⟩
  c := 0
  uc := none
  inHandler := .requestLine
  outHandler := .buffer
  status := 0
  resourceFd := none
  resourceLen := 0

/-- `sy_request_clear`. -/
def requestClear (r : Request) : Request := { requestInit r r.c with c := r.c, uc := r.uc }

/-! ### Connections and locations -/

/-- `C_SIDE_FRONT`, `C_SIDE_BACK`. -/
inductive Side where
  | front
  | back
deriving DecidableEq, Repr

/-- `sy_connection_t` without the two fields of the timeout heap; `evIn` and `evOut` are the
bits `EVENTS_IN` and `EVENTS_OUT` of `event.events`. -/
structure Connection where
  fd : ℕ
  side : Side
  evIn : Bool
  evOut : Bool
  r : ReqAddr
deriving DecidableEq, Repr

/-- `sy_connection_disable_in`. -/
def disableIn (c : Connection) : Connection := { c with evIn := false }
/-- `sy_connection_enable_in`. -/
def enableIn (c : Connection) : Connection := { c with evIn := true }
/-- `sy_connection_disable_out`. -/
def disableOut (c : Connection) : Connection := { c with evOut := false }
/-- `sy_connection_enable_out`. -/
def enableOut (c : Connection) : Connection := { c with evOut := true }

/-- `sy_location_t`: the parts the handlers branch on. -/
structure Location where
  pass : Bool
  path : List UInt8
deriving DecidableEq, Repr

end SyServer
