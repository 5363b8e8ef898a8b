import SyServer.Session

/-! # Responses

`response.c`: the status lines, the error pages, the table of content types, and the two
functions that put a response into `sb`.  `sy_response_build` writes the head of the local
response for a resource; `sy_response_build_err` writes a whole error response, stops reading
from the client and lets the front connection write.

* `Grows`: what every writer does to `sb`.
* `responseBuild_spec`, `responseBuildErr_spec`: the fields the two functions change. -/

namespace SyServer

/-- `CRLF`. -/
def CRLF : String := "\r\n"

/-- `SERVER_NAME`. -/
def SERVER_NAME : String := "syServer/0.1"

/-! ### Literals and the two tables -/

/-- `header_tb`. -/
def headerTb : List (String × HeaderVal) :=
  [("cache_control", ⟨.cacheControl, .generic⟩),
   ("c", ⟨.c, .connection⟩),
   ("date", ⟨.date, .generic⟩),
   ("pragma", ⟨.pragma, .generic⟩),
   ("trailer", ⟨.trailer, .generic⟩),
   ("transfer_encoding", ⟨.transferEncoding, .tEncoding⟩),
   ("upgrade", ⟨.upgrade, .generic⟩),
   ("via", ⟨.via, .generic⟩),
   ("warning", ⟨.warning, .generic⟩),
   ("allow", ⟨.allow, .generic⟩),
   ("content_encoding", ⟨.contentEncoding, .generic⟩),
   ("content_language", ⟨.contentLanguage, .generic⟩),
   ("content_length", ⟨.contentLength, .contentLength⟩),
   ("content_location", ⟨.contentLocation, .generic⟩),
   ("content_md5", ⟨.contentMd5, .generic⟩),
   ("content_range", ⟨.contentRange, .generic⟩),
   ("content_type", ⟨.contentType, .generic⟩),
   ("expires", ⟨.expires, .generic⟩),
   ("last_modified", ⟨.lastModified, .generic⟩),
   ("accept", ⟨.accept, .accept⟩),
   ("accept_charset", ⟨.acceptCharset, .generic⟩),
   ("accept_encoding", ⟨.acceptEncoding, .generic⟩),
   ("authorization", ⟨.authorization, .generic⟩),
   ("cookie", ⟨.cookie, .generic⟩),
   ("expect", ⟨.expect, .generic⟩),
   ("from", ⟨.from, .generic⟩),
   ("host", ⟨.host, .host⟩),
   ("if_match", ⟨.ifMatch, .generic⟩),
   ("if_modified_since", ⟨.ifModifiedSince, .ifModifiedSince⟩),
   ("if_none_match", ⟨.ifNoneMatch, .generic⟩),
   ("if_range", ⟨.ifRange, .generic⟩),
   ("if_unmodified_since", ⟨.ifUnmodifiedSince, .generic⟩),
   ("max_forwards", ⟨.maxForwards, .generic⟩),
   ("proxy_authorization", ⟨.proxyAuthorization, .generic⟩),
   ("range", ⟨.range, .generic⟩),
   ("referer", ⟨.referer, .generic⟩),
   ("te", ⟨.te, .generic⟩),
   ("user_agent", ⟨.userAgent, .generic⟩)]

/-- `mime_tb`. -/
def mimeTb : List (String × List UInt8) :=
  [("htm", bytes "text/html"),
   ("html", bytes "text/html"),
   ("gif", bytes "image/gif"),
   ("ico", bytes "image/x-icon"),
   ("jpeg", bytes "image/jpeg"),
   ("jpg", bytes "image/jpeg"),
   ("png", bytes "image/png"),
   ("svg", bytes "image/svg+xml"),
   ("txt", bytes "text/plain"),
   ("zip", bytes "application/zip"),
   ("css", bytes "text/css")]

/-- The literals that keys and slices point to: the two columns of names, and the `"html"` that
`sy_request_handle_uri` stores as the extension of a directory's index. -/
def literals : List (List UInt8) :=
  headerTb.map (bytes ·.1) ++ mimeTb.map (bytes ·.1) ++ [bytes "html"]

/-- The byte at an offset of a literal, or its NUL. -/
def literalByte (id off : ℕ) : UInt8 := (literals.getD id []).getD off 0

/-- The memory the slices of a request point into. -/
def Request.mem (r : Request) : Mem
  | .rb off => r.rb.mem off
  | .lit id off => literalByte id off
  | .null _ => 0

/-- The memory before any request: the literals. -/
def literalMem : Mem
  | .lit id off => literalByte id off
  | _ => 0

/-- The puts of a table whose first name is the literal `id`. -/
def tablePuts {ν : Type} : ℕ → List (String × ν) → List (Str × ν)
  | _, [] => []
  | id, (name, val) :: tb => (⟨.lit id 0, (bytes name).length⟩, val) :: tablePuts (id + 1) tb

/-- `HEADER_MAP_SIZE`, `MIME_MAP_SIZE`. -/
def TABLE_SIZE : ℕ := 131

instance : Inhabited HeaderVal := ⟨⟨.cacheControl, .generic⟩⟩

/-- `header_map` after `sy_header_map_init`. -/
def headerMap : Map HeaderVal :=
  mapPuts literalMem (Map.zeroed TABLE_SIZE (2 * TABLE_SIZE)) (tablePuts 0 headerTb)

/-- `mime_map` after `sy_mime_map_init`. -/
def mimeMap : Map (List UInt8) :=
  mapPuts literalMem (Map.zeroed TABLE_SIZE (2 * TABLE_SIZE)) (tablePuts headerTb.length mimeTb)

/-- `sy_map_get(&header_map, name)`. -/
def headerMapGet (m : Mem) (name : Str) : Option HeaderVal :=
  (mapGet m headerMap name).map fun i => (headerMap.data i).val

/-- `sy_map_get` reads through a key that points to no object: the hash goes through all its bytes, and
`sy_string_cmp` through the first one, unless the bucket is empty or the key is `NULL`. -/
def Map.WildKey {ν : Type} (m : Mem) (map : Map ν) (key : Str) : Prop :=
  key.data.Null ∧ (0 < key.len ∨ key.data ≠ .NULL ∧ (map.data (bucket m map.size key)).key.data ≠ .NULL)

instance {ν : Type} (m : Mem) (map : Map ν) (key : Str) : Decidable (map.WildKey m key) :=
  inferInstanceAs (Decidable (_ ∧ (_ ∨ _)))

/-- The content type of an extension that can be read. -/
def mimeFound (m : Mem) (extension : Str) : Option (List UInt8) :=
  (mapGet m mimeMap extension).map fun i => (mimeMap.data i).val

/-- `sy_map_get(&mime_map, extension)`. -/
def mimeMapGet (m : Mem) (extension : Str) : Except Fault (Option (List UInt8)) :=
  if mimeMap.WildKey m extension then .error .wildRead else .ok (mimeFound m extension)

/-- `server_cfg` next to the real `header_map`. -/
def serverConfig (timeout : ℤ) (locations : List Location) : Config where
  timeout := timeout
  locations := locations
  headerGet := headerMapGet

/-- The slice lies in an object, or is `NULL` and of length 0. -/
def Str.Readable (s : Str) : Prop := ¬ s.data.Null ∨ s.data = .NULL ∧ s.len ≤ 0

instance (s : Str) : Decidable s.Readable := inferInstanceAs (Decidable (_ ∨ _))

/-- `"jpeg"` is in the first bucket, which is that of every slice without a byte. -/
theorem mimeMap_wildKey (m : Mem) (key : Str) : mimeMap.WildKey m key ↔ ¬ key.Readable := by
  have hfirst : (mimeMap.data 0).key.data ≠ .NULL := by decide +kernel
  have hbucket : key.len ≤ 0 → bucket m mimeMap.size key = 0 := by
    intro hlen
    have hbytes : key.bytes m = [] := List.eq_nil_of_length_eq_zero (by simpa using hlen)
    unfold bucket stringHash
    rw [hbytes]
    rfl
  unfold Map.WildKey Str.Readable
  by_cases hlen : 0 < key.len
  · simp [hlen, not_le.mpr hlen]
  · rw [hbucket (not_lt.mp hlen)]
    simp [hlen, not_lt.mp hlen, hfirst]

theorem mimeMapGet_ok {m : Mem} {key : Str} (h : key.Readable) : mimeMapGet m key = .ok (mimeFound m key) := by
  unfold mimeMapGet
  rw [if_neg fun hwild => (mimeMap_wildKey m key).mp hwild h]

theorem mimeMapGet_wild {m : Mem} {key : Str} (h : ¬ key.Readable) : mimeMapGet m key = .error .wildRead := by
  unfold mimeMapGet
  rw [if_pos ((mimeMap_wildKey m key).mpr h)]

/-! ### Status lines and pages -/

/-- `sy_status_repr`. -/
def statusRepr : ℕ → Except Fault (List UInt8)
  | 100 => .ok (bytes "100 Continue")
  | 101 => .ok (bytes "101 Switching Protocols")
  | 200 => .ok (bytes "200 OK")
  | 201 => .ok (bytes "201 Created")
  | 202 => .ok (bytes "202 Accepted")
  | 203 => .ok (bytes "203 Non-Authoritative Information")
  | 204 => .ok (bytes "204 No Content")
  | 205 => .ok (bytes "205 Reset Content")
  | 206 => .ok (bytes "206 Partial Content")
  | 300 => .ok (bytes "300 Multiple Choices")
  | 301 => .ok (bytes "301 Moved Permanently")
  | 302 => .ok (bytes "302 Found")
  | 303 => .ok (bytes "303 See Other")
  | 304 => .ok (bytes "304 Not Modified")
  | 305 => .ok (bytes "305 Use Proxy")
  | 307 => .ok (bytes "307 Temporary Redirect")
  | 400 => .ok (bytes "400 Bad Request")
  | 401 => .ok (bytes "401 Unauthorized")
  | 402 => .ok (bytes "402 Payment Required")
  | 403 => .ok (bytes "403 Forbidden")
  | 404 => .ok (bytes "404 Not Found")
  | 405 => .ok (bytes "405 Method Not Allowed")
  | 406 => .ok (bytes "406 Not Acceptable")
  | 407 => .ok (bytes "407 Proxy Authentication Required")
  | 408 => .ok (bytes "408 Request Time-out")
  | 409 => .ok (bytes "409 Conflict")
  | 410 => .ok (bytes "410 Gone")
  | 411 => .ok (bytes "411 Length Required")
  | 412 => .ok (bytes "412 Precondition Failed")
  | 413 => .ok (bytes "413 Request Entity Too Large")
  | 414 => .ok (bytes "414 Request-URI Too Large")
  | 415 => .ok (bytes "415 Unsupported Media Type")
  | 416 => .ok (bytes "416 Requested range not satisfiable")
  | 417 => .ok (bytes "417 Expectation Failed")
  | 500 => .ok (bytes "500 Internal Server Error")
  | 501 => .ok (bytes "501 Not Implemented")
  | 502 => .ok (bytes "502 Bad Gateway")
  | 503 => .ok (bytes "503 Service Unavailable")
  | 504 => .ok (bytes "504 Gateway Time-out")
  | 505 => .ok (bytes "505 HTTP Version not supported")
  | _ => .error .statusRepr

/-- The title of `sy_err_<status>_page`; `none` for a status without a page, and an assertion
where the `switch` of `sy_err_page` has one. -/
def errPageTitle : ℕ → Except Fault (Option String)
  | 100 | 101 | 200 | 201 | 202 | 203 | 204 | 205 | 206 | 300 => .ok none
  | 301 => .ok "301 Moved Permanently"
  | 302 => .ok "302 Found"
  | 303 => .ok "303 See Other"
  | 307 => .ok "307 Temporary Redirect"
  | 400 => .ok "400 Bad Request"
  | 401 => .ok "401 Authorization Required"
  | 402 => .ok "402 Payment Required"
  | 403 => .ok "403 Forbidden"
  | 404 => .ok "404 Not Found"
  | 405 => .ok "405 Not Allowed"
  | 406 => .ok "406 Not Acceptable"
  | 407 => .ok "407 Proxy Authentication Required"
  | 408 => .ok "408 Request Time-out"
  | 409 => .ok "409 Conflict"
  | 410 => .ok "410 Gone"
  | 411 => .ok "411 Length Required"
  | 412 => .ok "412 Precondition Failed"
  | 413 => .ok "413 Request Entity Too Large"
  | 414 => .ok "414 Request-URI Too Large"
  | 415 => .ok "415 Unsupported Media Type"
  | 416 => .ok "416 Requested Range Not Satisfiable"
  | 417 => .ok "417 Expectation Failed"
  | 500 => .ok "500 Internal Server Error"
  | 501 => .ok "501 Not Implemented"
  | 502 => .ok "502 Bad Gateway"
  | 503 => .ok "503 Service Temporarily Unavailable"
  | 504 => .ok "504 Gateway Time-out"
  | 505 => .ok "505 HTTP Version Not Supported"
  | 507 => .ok "507 Insufficient Storage"
  | _ => .error .errPage

/-- The text every page shares around its title. -/
def errPageText (title : String) : List UInt8 :=
  bytes ("<html>" ++ CRLF ++
    "<head><title>" ++ title ++ "</title></head>" ++ CRLF ++
    "<body bgcolor=\"white\">" ++ CRLF ++
    "<center><h1>" ++ title ++ "</h1></center>" ++ CRLF)

/-- `sy_err_page`. -/
def errPage (status : ℕ) : Except Fault (Option (List UInt8)) :=
  (errPageTitle status).map (Option.map errPageText)

/-- `sy_err_page_tail`. -/
def errPageTail : List UInt8 :=
  bytes ("<hr><center><span style='font-style: italic;'>" ++ SERVER_NAME ++ "</span></center>" ++
    CRLF ++ "</body>" ++ CRLF ++ "</html>" ++ CRLF)

/-! ### Writing a response -/

/-- `sy_buffer_append_cstring`. -/
def Buffer.appendCstring (b : Buffer) (s : String) : Except Fault Buffer := b.appendString (bytes s)

/-- `sy_response_put_status_line`. -/
def responsePutStatusLine (r : Request) (b : Buffer) : Except Fault Buffer := do
  let version := if r.version.minor = 1 then "HTTP/1.1 " else "HTTP/1.0 "
  let b ← b.appendCstring version
  let status ← statusRepr r.status
  let b ← b.appendString status
  b.appendCstring CRLF

/-- `sy_response_put_date`: `strftime` writes the text and a NUL if both fit, else it answers 0
and what it left behind `end` does not matter. -/
def responsePutDate (date : List UInt8) (b : Buffer) : Buffer :=
  if (date.length : ℤ) + 1 ≤ b.margin then { b.put (date ++ [0]) with end_ := b.end_ + date.length }
  else b

/-- `"Content-Length: %d" CRLF`. -/
def contentLengthLine (n : ℤ) : List UInt8 := bytes ("Content-Length: " ++ toString n ++ CRLF)

/-- The head both functions begin with. -/
def responsePutHead (date : List UInt8) (r : Request) (b : Buffer) : Except Fault Buffer := do
  let b ← responsePutStatusLine r b
  (responsePutDate date b).appendCstring ("Server: " ++ SERVER_NAME ++ CRLF)

/-- The rest of `sy_response_build`: the content type and the length. -/
def responsePutEntity (r : Request) (b : Buffer) : Except Fault Buffer := do
  let slot ← mimeMapGet r.mem r.uri.extension
  let contentType := slot.getD (bytes "text/html")
  let b ← b.appendCstring "Content-Type: "
  let b ← b.appendString contentType
  let b ← b.appendCstring CRLF
  let b ← b.print (contentLengthLine r.resourceLen)
  b.appendCstring CRLF

/-- `sy_response_build`, on the request. -/
def responseBuild (date : List UInt8) (r : Request) : Except Fault Request := do
  let b ← responsePutHead date r r.sb
  if r.status = 304 ∨ r.status = 100 then
    let b ← b.appendCstring CRLF
    pure { r with sb := b, resourceFd := none }
  else
    let b ← responsePutEntity r b
    pure { r with sb := b }

/-- The rest of `sy_response_build_err`: the headers, and the page. -/
def responsePutPage (status : ℕ) (b : Buffer) : Except Fault Buffer := do
  let b ← b.appendCstring ("Connection: close" ++ CRLF)
  let b ← b.appendCstring ("Content-Type: text/html" ++ CRLF)
  let page ← errPage status
  match page with
  | none => b.appendCstring CRLF
  | some page =>
      let b ← b.print (contentLengthLine (page.length + errPageTail.length))
      let b ← b.appendCstring CRLF
      let b ← b.appendString page
      b.appendString errPageTail

/-- `sy_response_build_err`. -/
def responseBuildErr (date : List UInt8) (err : ℕ) (s : Session) : Except Fault (Rc × Session) := do
  let r := { s.r with status := err }
  let b ← responsePutHead date r r.sb
  let b ← responsePutPage r.status b
  let r := { r with sb := b, keepAlive := false, bodyDone := true }
  pure (.ok, { s with r := r, c := enableOut (disableIn s.c) }.note
    (.page err (b.slice s.r.sb.end_ b.end_)))

/-! ### What the writers do -/

/-- More bytes behind the old ones. -/
structure Grows (b b' : Buffer) : Prop where
  begin : b'.begin = b.begin
  le : b.end_ ≤ b'.end_
  mem : ∀ k, k < b.end_ → b'.mem k = b.mem k

theorem Grows.refl (b : Buffer) : Grows b b := ⟨rfl, le_rfl, fun _ _ => rfl⟩

theorem Grows.trans {b₁ b₂ b₃ : Buffer} (h : Grows b₁ b₂) (h' : Grows b₂ b₃) : Grows b₁ b₃ where
  begin := h'.begin.trans h.begin
  le := h.le.trans h'.le
  mem k hk := (h'.mem k (hk.trans_le h.le)).trans (h.mem k hk)

/-- A writer that only appends. -/
def Appends (f : Buffer → Except Fault Buffer) : Prop := ∀ b b', f b = .ok b' → Grows b b'

theorem Grows.put (b : Buffer) (d : List UInt8) : Grows b (b.put d) :=
  ⟨rfl, Nat.le_add_right _ _, fun _ hk => b.put_mem_lt d hk⟩

theorem bind_ok {α β : Type} {x : Except Fault α} {f : α → Except Fault β} {y : β}
    (h : x >>= f = .ok y) : ∃ a, x = .ok a ∧ f a = .ok y := by
  cases x with
  | error e => cases h
  | ok a => exact ⟨a, rfl, h⟩

/-- What a sequence fails of. -/
theorem bind_error {α β : Type} {x : Except Fault α} {g : α → Except Fault β} {f : Fault}
    (h : x >>= g = .error f) : x = .error f ∨ ∃ a, x = .ok a ∧ g a = .error f := by
  cases x with
  | error f' =>
      cases h
      exact .inl rfl
  | ok a => exact .inr ⟨a, rfl, h⟩

theorem appends_bind {f g : Buffer → Except Fault Buffer} (hf : Appends f) (hg : Appends g) :
    Appends fun b => f b >>= g := by
  intro b b' h
  obtain ⟨b₁, h1, h2⟩ := bind_ok h
  exact (hf b b₁ h1).trans (hg b₁ b' h2)

theorem appends_const {α : Type} (x : Except Fault α) {g : α → Buffer → Except Fault Buffer}
    (hg : ∀ a, Appends (g a)) : Appends fun b => x >>= fun a => g a b := by
  intro b b' h
  obtain ⟨a, -, h2⟩ := bind_ok h
  exact hg a b b' h2

theorem appends_string (d : List UInt8) : Appends (Buffer.appendString · d) := by
  intro b b' h
  dsimp only [Buffer.appendString] at h
  split_ifs at h
  cases h
  exact .put b _

theorem appends_cstring (s : String) : Appends (Buffer.appendCstring · s) := appends_string (bytes s)

theorem appends_print (d : List UInt8) : Appends (Buffer.print · d) := by
  intro b b' h
  dsimp only [Buffer.print] at h
  split_ifs at h
  cases h
  exact ⟨rfl, Nat.le_add_right _ _, fun k hk => b.put_mem_lt _ hk⟩

theorem responsePutDate_grows (date : List UInt8) (b : Buffer) :
    Grows b (responsePutDate date b) := by
  unfold responsePutDate
  split_ifs
  · exact ⟨rfl, Nat.le_add_right _ _, fun k hk => b.put_mem_lt _ hk⟩
  · exact .refl b

theorem appends_head (date : List UInt8) (r : Request) : Appends (responsePutHead date r) := by
  refine appends_bind ?_ fun b b' h => (responsePutDate_grows date b).trans (appends_cstring _ _ b' h)
  exact appends_bind (appends_cstring _)
    (appends_const _ fun status => appends_bind (appends_string status) (appends_cstring _))

theorem appends_entity (r : Request) : Appends (responsePutEntity r) :=
  appends_const _ fun _ => appends_bind (appends_cstring _) <| appends_bind (appends_string _) <|
    appends_bind (appends_cstring _) <| appends_bind (appends_print _) (appends_cstring _)

theorem appends_page (status : ℕ) : Appends (responsePutPage status) := by
  refine appends_bind (appends_cstring _) (appends_bind (appends_cstring _) ?_)
  refine appends_const (errPage status) fun page => ?_
  cases page with
  | none => exact appends_cstring _
  | some page =>
      exact appends_bind (appends_print _) <| appends_bind (appends_cstring _) <|
        appends_bind (appends_string _) (appends_string _)

/-- The entity is not written where the content type cannot be looked up. -/
theorem responsePutEntity_readable {r : Request} {b b' : Buffer} (h : responsePutEntity r b = .ok b') :
    r.uri.extension.Readable := by
  by_contra hread
  unfold responsePutEntity at h
  rw [mimeMapGet_wild hread] at h
  cases h

/-- `sy_response_build` changes `sb` and closes the resource of a response without a body. -/
theorem responseBuild_spec {date : List UInt8} {r r' : Request} (h : responseBuild date r = .ok r') :
    ∃ b fd, r' = { r with sb := b, resourceFd := fd } ∧ Grows r.sb b ∧
      fd = if r.status = 304 ∨ r.status = 100 then none else r.resourceFd := by
  obtain ⟨b₁, h1, h2⟩ := bind_ok h
  have hgrow := appends_head date r r.sb b₁ h1
  split_ifs at h2 ⊢
  · obtain ⟨b₂, h3, h4⟩ := bind_ok h2
    cases h4
    exact ⟨b₂, none, rfl, hgrow.trans (appends_cstring _ _ b₂ h3), rfl⟩
  · obtain ⟨b₂, h3, h4⟩ := bind_ok h2
    cases h4
    exact ⟨b₂, r.resourceFd, rfl, hgrow.trans (appends_entity r _ b₂ h3), rfl⟩

/-- The session after an error response with the content `b` of `sb`. -/
def Session.errored (s : Session) (err : ℕ) (b : Buffer) : Session :=
  { s with
    r := { s.r with status := err, sb := b, keepAlive := false, bodyDone := true }
    c := enableOut (disableIn s.c)
    log := .page err (b.slice s.r.sb.end_ b.end_) :: s.log }

/-- `sy_response_build_err` answers `OK`, and what it leaves. -/
theorem responseBuildErr_spec {date : List UInt8} {err : ℕ} {s s' : Session} {rc : Rc}
    (h : responseBuildErr date err s = .ok (rc, s')) :
    rc = .ok ∧ ∃ b, Grows s.r.sb b ∧ s' = s.errored err b := by
  obtain ⟨b₁, h1, h2⟩ := bind_ok h
  obtain ⟨b₂, h3, h4⟩ := bind_ok h2
  cases h4
  exact ⟨rfl, b₂, (appends_head date _ _ b₁ h1).trans (appends_page _ _ b₂ h3), rfl⟩

end SyServer
