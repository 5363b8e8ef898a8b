import SyServer.Events

/-! # Which assertions a call can fail

The faults of a function are those of its own assertions and of the functions it calls (`Raises`).
The default arms of the two parsers fail with a parser's fault only outside the parser's own states,
so a call of a handler fails no assertion of a parser, unless it calls the parser of the request
line behind the request. -/

namespace SyServer

open Transition (kept_of_moves)

/-- The `assert(false)` of `sy_parse_request_line`, of the URI below it, and of the parser of
header lines. -/
def Fault.parser : Fault → Bool
  | requestLineState | uriState | headerLineState => true
  | _ => false

/-- A computation that fails with one of these faults, if it does. -/
def Raises {α : Type} (l : List Fault) (x : Except Fault α) : Prop := ∀ f, x = .error f → f ∈ l

section raises

variable {α β : Type} {l l' : List Fault}

theorem raises_ok (a : α) : Raises l (.ok a : Except Fault α) := fun _ h => by cases h

theorem raises_error {f : Fault} (h : f ∈ l) : Raises l (.error f : Except Fault α) := by
  rintro g ⟨⟩
  exact h

theorem raises_bind {x : Except Fault α} {g : α → Except Fault β} (hx : Raises l x)
    (hg : ∀ a, x = .ok a → Raises l (g a)) : Raises l (x >>= g) := by
  cases x with
  | error f => exact raises_error (hx f rfl)
  | ok a => exact hg a rfl

theorem raises_map {x : Except Fault α} (g : α → β) (hx : Raises l x) : Raises l (x.map g) := by
  cases x with
  | error f => exact raises_error (hx f rfl)
  | ok a => exact raises_ok _

theorem Raises.mono {x : Except Fault α} (h : Raises l x) (hl : l ⊆ l') : Raises l' x :=
  fun f hf => hl (h f hf)

end raises

/-- The assertions below the two functions that build a response. -/
def pageFaults : List Fault := [.appendMargin, .printMargin, .statusRepr, .errPage]

/-- Those below a header processor, and below `sy_response_build` with its lookup of the content type. -/
def lineFaults : List Fault := .wildRead :: pageFaults

/-- Those below `sy_request_handle_uri`. -/
def uriFaults : List Fault := .passLocation :: .heapEmpty :: lineFaults

/-- Those below `in_handler`. -/
def InHandler.faults : InHandler → List Fault
  | requestLine => uriFaults
  | headers => .headerReturn :: lineFaults
  | body => .bodyEncoding :: .nullUpstream :: lineFaults

/-- Those below `sy_handle_request`. -/
def clientFaults : List Fault := .headerReturn :: .bodyEncoding :: .nullUpstream :: uriFaults

/-! ### Below the handlers -/

theorem raises_appendString (b : Buffer) (d : List UInt8) : Raises pageFaults (b.appendString d) := by
  unfold Buffer.appendString
  split_ifs
  · exact raises_ok _
  · exact raises_error (by decide)

theorem raises_cstring (b : Buffer) (s : String) : Raises pageFaults (b.appendCstring s) :=
  raises_appendString b _

theorem raises_print (b : Buffer) (d : List UInt8) : Raises pageFaults (b.print d) := by
  unfold Buffer.print
  dsimp only
  split_ifs
  · exact raises_ok _
  · exact raises_error (by decide)

theorem raises_statusRepr (n : ℕ) : Raises pageFaults (statusRepr n) := by
  unfold statusRepr
  split
  any_goals exact raises_ok _
  exact raises_error (by decide)

theorem raises_errPage (n : ℕ) : Raises pageFaults (errPage n) := by
  refine raises_map _ ?_
  unfold errPageTitle
  split
  any_goals exact raises_ok _
  exact raises_error (by decide)

theorem raises_head (date : List UInt8) (r : Request) (b : Buffer) :
    Raises pageFaults (responsePutHead date r b) := by
  refine raises_bind ?_ fun b _ => raises_cstring _ _
  refine raises_bind (raises_cstring _ _) fun b _ => raises_bind (raises_statusRepr _) fun s _ => ?_
  exact raises_bind (raises_appendString _ _) fun b _ => raises_cstring _ _

theorem raises_page (status : ℕ) (b : Buffer) : Raises pageFaults (responsePutPage status b) := by
  refine raises_bind (raises_cstring _ _) fun b _ => raises_bind (raises_cstring _ _) fun b _ => ?_
  refine raises_bind (raises_errPage _) fun page _ => ?_
  cases page with
  | none => exact raises_cstring _ _
  | some page =>
      refine raises_bind (raises_print _ _) fun b _ => raises_bind (raises_cstring _ _) fun b _ => ?_
      exact raises_bind (raises_appendString _ _) fun b _ => raises_appendString _ _

theorem raises_mimeMapGet (m : Mem) (extension : Str) : Raises [.wildRead] (mimeMapGet m extension) := by
  unfold mimeMapGet
  split_ifs
  · exact raises_error (by decide)
  · exact raises_ok _

theorem raises_responseBuild (date : List UInt8) (r : Request) : Raises lineFaults (responseBuild date r) := by
  have hpage : pageFaults ⊆ lineFaults := List.subset_cons_self _ _
  refine raises_bind ((raises_head _ _ _).mono hpage) fun b _ => ?_
  split_ifs
  · exact raises_bind ((raises_cstring _ _).mono hpage) fun b _ => raises_ok _
  · have hslot : Raises lineFaults (mimeMapGet r.mem r.uri.extension) :=
      (raises_mimeMapGet _ _).mono (by decide)
    refine raises_bind (raises_bind hslot fun slot _ => ?_) fun b _ => raises_ok _
    refine Raises.mono ?_ hpage
    refine raises_bind (raises_cstring _ _) fun b _ => raises_bind (raises_appendString _ _) fun b _ => ?_
    refine raises_bind (raises_cstring _ _) fun b _ => raises_bind (raises_print _ _) fun b _ => ?_
    exact raises_cstring _ _

theorem raises_responseBuildErr (date : List UInt8) (err : ℕ) (s : Session) :
    Raises pageFaults (responseBuildErr date err s) :=
  raises_bind (raises_head _ _ _) fun _ _ => raises_bind (raises_page _ _) fun _ _ => raises_ok _

theorem raises_strncaseEq (m : Mem) (l : List UInt8) (p : Ptr) : Raises [.wildRead] (strncaseEq m l p) := by
  induction l generalizing p with
  | nil => exact raises_ok _
  | cons a l ih =>
      cases p with
      | null => exact raises_error (by decide)
      | _ =>
          unfold strncaseEq
          split_ifs
          · exact raises_ok _
          · exact raises_ok _
          · exact ih _

theorem raises_atoi (m : Mem) (p : Ptr) : Raises [.wildRead] (atoi m p) := by
  cases p with
  | null => exact raises_error (by decide)
  | _ => exact raises_ok _

theorem raises_matchLocation (m : Mem) (p : Ptr) (locs : List Location) :
    Raises [.wildRead] (matchLocation m p locs) := by
  induction locs with
  | nil => exact raises_ok _
  | cons loc locs ih =>
      refine raises_bind (raises_strncaseEq _ _ _) fun b _ => ?_
      cases b with
      | true => exact raises_ok _
      | false => exact ih

theorem raises_unregister (h : Heap) (a : ConnAddr) : Raises [.heapEmpty] (h.unregister a) := by
  unfold Heap.unregister
  split_ifs
  · exact raises_ok _
  · exact raises_error (by decide)

theorem raises_closeBack (g : Shared) (a : ConnAddr) (fd : ℕ) : Raises [.heapEmpty] (g.closeBack a fd) :=
  raises_bind (raises_unregister _ _) fun _ _ => raises_ok _

theorem raises_uwsgiOpenConnection (e : Upstream) (pass : Bool) (s : Session) :
    Raises [.passLocation, .heapEmpty] (uwsgiOpenConnection e pass s) := by
  unfold uwsgiOpenConnection
  by_cases hpass : (!pass) = true
  · rw [if_pos hpass]
    exact raises_error (by decide)
  rw [if_neg hpass]
  dsimp only [Shared.openFd]
  by_cases hreach : (!e.pton) = true ∨ (!e.connect) = true
  · rw [if_pos hreach]
    exact raises_ok _
  rw [if_neg hreach]
  obtain ⟨ok, heap, hreg⟩ : ∃ ok heap,
      (s.g.heap.setTime s.g.pool.alloc.1 e.now).register s.g.pool.alloc.1 = (ok, heap) := ⟨_, _, rfl⟩
  rw [hreg]
  cases ok with
  | false => exact raises_bind ((raises_closeBack _ _ _).mono (by decide)) fun _ _ => raises_ok _
  | true =>
      dsimp only
      split_ifs
      · exact raises_bind ((raises_closeBack _ _ _).mono (by decide)) fun _ _ => raises_ok _
      · exact raises_ok _

theorem raises_uriHost (r : Request) : Raises [.wildRead] (uriHost r) := by
  unfold uriHost
  dsimp only
  split_ifs
  · exact raises_ok _
  · exact raises_ok _
  · exact raises_bind (raises_atoi _ _) fun _ _ => raises_ok _

theorem raises_relPath (r : Request) : Raises [.wildRead] (relPath r) := by
  unfold relPath
  split
  · exact raises_ok _
  · exact raises_error (by decide)

theorem raises_enableUpstreamOut (s : Session) : Raises [.nullUpstream] (enableUpstreamOut s) := by
  unfold enableUpstreamOut
  split_ifs
  · exact raises_error (by decide)
  · exact raises_ok _

/-- What `sy_request_handle_uri` leaves as it was, up to the response. -/
structure Unanswered (s s' : Session) : Prop where
  sb : s'.r.sb = s.r.sb
  rb : s'.r.rb.end_ = s.r.rb.end_
  version : s'.r.version = s.r.version
  bodyDone : s'.r.bodyDone = s.r.bodyDone
  inHandler : s'.r.inHandler = s.r.inHandler
  resource : s'.r.resourceLen = s.r.resourceLen ∨ ∃ n, s'.r.resourceLen = wrap32 n

/-- `sy_request_handle_uri` fails, ends in a page, or leaves the response to be made. -/
theorem requestHandleUri_cases {cfg : Config} {e : Env} {s : Session}
    {P : Except Fault (Rc × Session) → Prop}
    (herror : ∀ f ∈ [Fault.wildRead, .passLocation, .heapEmpty], P (.error f))
    (hpage : ∀ status ∈ [403, 404, 503], ∀ s₁, Unanswered s s₁ → P (responseBuildErr e.date status s₁))
    (hok : ∀ s', Unanswered s s' → P (.ok (.ok, s'))) : P (requestHandleUri cfg e s) := by
  have hbind : ∀ {α : Type} {l : List Fault} {x : Except Fault α} {g : α → Except Fault (Rc × Session)},
      Raises l x → l ⊆ [.wildRead, .passLocation, .heapEmpty] → (∀ a, x = .ok a → P (g a)) →
        P (x >>= g) := by
    intro α l x g hx hl hg
    cases x with
    | error f => exact herror f (hl (hx f rfl))
    | ok a => exact hg a rfl
  refine hbind (raises_uriHost _) (by decide) fun r hr => ?_
  obtain ⟨host, port, rfl⟩ := uriHost_frame hr
  refine hbind (raises_matchLocation _ _ _) (by decide) fun loc _ => ?_
  cases loc with
  | none => exact hpage 404 (by decide) _ ⟨rfl, rfl, rfl, rfl, rfl, .inl rfl⟩
  | some loc =>
      dsimp only
      split_ifs with hpass
      · refine hbind (raises_uwsgiOpenConnection _ _ _) (by decide) fun p hp => ?_
        rw [hpass] at hp
        obtain ⟨uc, s₁⟩ := p
        have hframe : Unanswered s { s₁ with r := { s₁.r with uc := uc } } := by
          obtain ⟨g, -, ⟨rfl, hs⟩ | ⟨-, rfl⟩⟩ := uwsgiOpenConnection_opened hp
          · rw [hs]
            exact ⟨rfl, rfl, rfl, rfl, rfl, .inl rfl⟩
          · exact ⟨rfl, rfl, rfl, rfl, rfl, .inl rfl⟩
        dsimp only
        split_ifs
        · exact hpage 503 (by decide) _ hframe
        · exact hok _ hframe
      · refine hbind (raises_relPath _) (by decide) fun p hp => ?_
        obtain ⟨r, path⟩ := p
        obtain ⟨i, rfl⟩ := relPath_frame hp
        dsimp only
        split
        · exact hpage 404 (by decide) _ ⟨rfl, rfl, rfl, rfl, rfl, .inl rfl⟩
        · exact hpage 403 (by decide) _ ⟨rfl, rfl, rfl, rfl, rfl, .inl rfl⟩
        · exact hok _ ⟨rfl, rfl, rfl, rfl, rfl, .inr ⟨_, rfl⟩⟩
        · exact hok _ ⟨rfl, rfl, rfl, rfl, rfl, .inr ⟨_, rfl⟩⟩

theorem raises_requestHandleUri (cfg : Config) (e : Env) (s : Session) :
    Raises uriFaults (requestHandleUri cfg e s) := by
  apply requestHandleUri_cases
  · intro f hf
    have hl : [Fault.wildRead, .passLocation, .heapEmpty] ⊆ uriFaults := by decide
    exact raises_error (hl hf)
  · exact fun _ _ _ _ => (raises_responseBuildErr _ _ _).mono (by decide)
  · exact fun _ _ => raises_ok _

theorem raises_processor (date : List UInt8) (offset : HeaderField) (s : Session) (p : Processor) :
    Raises lineFaults (p.run date offset s) := by
  have hencoding : ∀ (m : Mem) (q : Ptr) (tb : List (String × TransferEncoding)),
      Raises [.wildRead] (matchEncoding m q tb) := by
    intro m q tb
    induction tb with
    | nil => exact raises_ok _
    | cons x tb ih =>
        refine raises_bind (raises_strncaseEq _ _ _) fun b _ => ?_
        cases b with
        | true => exact raises_ok _
        | false => exact ih
  cases p with
  | connection => exact raises_bind ((raises_strncaseEq _ _ _).mono (by decide)) fun _ _ => raises_ok _
  | tEncoding =>
      refine raises_bind ((hencoding _ _ _).mono (by decide)) fun te _ => ?_
      cases te with
      | none => exact (raises_responseBuildErr _ _ _).mono (by decide)
      | some te => exact raises_ok _
  | contentLength =>
      refine raises_bind ((raises_atoi _ _).mono (by decide)) fun n _ => ?_
      split_ifs
      · exact (raises_responseBuildErr _ _ _).mono (by decide)
      · exact raises_ok _
  | _ => exact raises_ok _

/-! ### The handlers -/

section handlers

variable {cfg : Config} {e : Env} {s : Session}

theorem raises_requestLine (hr : LineReady s.r) : Raises uriFaults (requestHandleRequestLine cfg e s) := by
  obtain ⟨rc, r, hp, -⟩ := parseRequestLine_ready hr
  unfold requestHandleRequestLine
  rw [hp]
  refine raises_bind (raises_ok _) fun p _ => ?_
  dsimp only
  split_ifs
  · exact raises_ok _
  · exact (raises_responseBuildErr _ _ _).mono (by decide)
  · exact (raises_responseBuildErr _ _ _).mono (by decide)
  · exact raises_requestHandleUri _ _ _

/-- A processor leaves the state of the parser alone. -/
theorem Processor.run_ready {date : List UInt8} {offset : HeaderField} {s' : Session} {rc : Rc}
    {p : Processor} (hr : HeaderReady s.r) (h : p.run date offset s = .ok (rc, s')) :
    HeaderReady s'.r := by
  obtain ⟨-, ⟨_, _, _, _, -, rfl⟩ | ⟨_, _, _, -, rfl⟩⟩ := Processor.run_cases h
  · exact hr
  · exact hr

theorem raises_headersLoop {n : ℕ} (hr : HeaderReady s.r) :
    Raises InHandler.headers.faults (headersLoop cfg e n s) := by
  induction n generalizing s with
  | zero => exact raises_ok _
  | succ n ih =>
      obtain ⟨rc, r, hp, hready⟩ := parseHeaderLine_ready hr
      unfold headersLoop
      rw [hp]
      refine raises_bind (raises_ok _) fun p hp => ?_
      cases hp
      cases rc with
      | again => exact raises_ok _
      | emptyLine => exact raises_ok _
      | ok =>
          dsimp only
          cases cfg.headerGet r.mem r.headerName with
          | none => exact ih hready
          | some v =>
              refine raises_bind ((raises_processor _ _ _ _).mono (by decide)) fun p hrun => ?_
              have hready' := Processor.run_ready (s := { s with r := r }) hready hrun
              split_ifs
              · exact raises_ok _
              · exact ih hready'
      | _ => exact raises_error (by decide)

theorem raises_requestHandleBody : Raises InHandler.body.faults (requestHandleBody e s) := by
  unfold requestHandleBody
  split_ifs
  · exact raises_error (by decide)
  dsimp only
  split
  · exact raises_bind ((raises_enableUpstreamOut _).mono (by decide)) fun _ _ => raises_ok _
  · refine raises_bind ?_ fun _ _ => raises_ok _
    unfold bodyRespond
    split_ifs
    · exact raises_bind ((raises_responseBuild _ _).mono (by decide)) fun _ _ => raises_ok _
    · exact (raises_enableUpstreamOut _).mono (by decide)
  · exact (raises_responseBuildErr _ _ _).mono (by decide)

theorem raises_inHandler (hb : Base false s) (hl : ¬ s.Late) :
    Raises s.r.inHandler.faults (s.r.inHandler.run cfg e s) := by
  cases hin : s.r.inHandler with
  | requestLine =>
      have hopen := Bool.eq_false_of_not_eq_true fun hd => hl ⟨hd, hin⟩
      exact raises_requestLine (hb.fresh hin hopen).1
  | headers => exact raises_headersLoop (hb.headers (by rw [hin]; simp))
  | body => exact raises_requestHandleBody

theorem InHandler.faults_client (h : InHandler) : h.faults ⊆ clientFaults := by
  cases h <;> decide

/-- A call of `sy_handle_request` that does not get behind a complete request. -/
theorem raises_handleRequest (hb : Base true s)
    (hlate : (s.r.rb.recv e.recvs).1 = .again → ¬ s.Late) :
    Raises clientFaults (handleRequest cfg e s).1 := by
  intro f hf
  obtain ⟨res, s', hrun⟩ : ∃ res s', handleRequest cfg e s = (res, s') := ⟨_, _, rfl⟩
  rw [hrun] at hf
  obtain ⟨d, -, hmoves, hfault⟩ := handleRequest_moves hlate hrun
  have hb' := kept_of_moves (Base false) (fun _ _ => base_client) (base_receive hb d) hmoves
  obtain ⟨hl, hcall⟩ := hfault f hf
  exact s'.r.inHandler.faults_client (raises_inHandler hb' hl f hcall)

theorem raises_handleResponse : Raises [.fileWithUpstream] (handleResponse e s) := by
  have hrun : ∀ (s : Session) (o : OutHandler), Raises [.fileWithUpstream] (o.run e s) := by
    intro s o
    cases o with
    | buffer => exact raises_ok _
    | file =>
        unfold OutHandler.run sendResponseFile
        dsimp only
        split_ifs
        · exact raises_error (by decide)
        · exact raises_ok _
        · exact raises_ok _
  have hloop : ∀ (n : ℕ) (s : Session), Raises [.fileWithUpstream] (responseLoop e n s) := by
    intro n
    induction n with
    | zero => exact fun s => raises_ok _
    | succ n ih =>
        intro s
        refine raises_bind (hrun s _) fun p _ => ?_
        dsimp only
        split_ifs
        · exact ih _
        · exact raises_ok _
  refine raises_bind (hloop 2 s) fun p _ => ?_
  dsimp only
  split_ifs
  · exact raises_ok _
  · exact raises_ok _
  · exact raises_ok _

theorem raises_handlePass : Raises pageFaults (handlePass e s) := by
  unfold handlePass
  dsimp only
  split_ifs
  · exact raises_ok _
  · exact raises_bind (raises_responseBuildErr _ _ _) fun _ _ => raises_ok _
  · exact raises_ok _

theorem raises_handleUpstream : Raises pageFaults (handleUpstream e s) := by
  unfold handleUpstream
  dsimp only
  split_ifs
  · exact raises_ok _
  · exact raises_bind (raises_responseBuildErr _ _ _) fun _ _ => raises_ok _
  · exact raises_ok _

end handlers

end SyServer
