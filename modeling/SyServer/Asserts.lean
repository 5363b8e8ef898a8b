import SyServer.Alive
import SyServer.Deaths
import SyServer.Lib.Yields

/-! # Assertions that hold

Many assertions of the server are about what the server itself has set: a status code that
`sy_status_repr` and `sy_err_page` have a text for, a location that is to be passed on, a return code
of its own parser, a state of its own parser, no upstream where a file is sent, and a heap that is
not empty where a connection is closed.  None of them fails, whatever is received and whatever the
kernel answers; the last one as long as no registration was refused.

* `Fault.own`: those that hold in every call, if the status of the request is a known one.
* `Alone`: no upstream where a file is sent.
* `deaths_known`: what is left for a worker to die of. -/

namespace SyServer

open Scan (Step scan scan_stop_inv)
open Transition (Reach exec exists_of_any along_true)

/-! ### Assertions below the handlers -/

/-- The assertions about codes, locations and the heap. -/
def Fault.own : Fault → Bool
  | headerReturn | statusRepr | errPage | passLocation | heapEmpty | useAfterFree => true
  | _ => false

/-- A status with a text, and with a page or known to have none. -/
def KnownStatus (status : ℕ) : Prop :=
  (statusRepr status).isOk = true ∧ (errPageTitle status).isOk = true

instance (status : ℕ) : Decidable (KnownStatus status) := inferInstanceAs (Decidable (_ ∧ _))

/-- None of these assertions fails. -/
abbrev Sure {α : Type} (P : α → Prop) (x : Except Fault α) : Prop := Yields (fun f => f.own = false) P x

/-- The request has a known status. -/
def Session.Known (s : Session) : Prop := KnownStatus s.r.status

section sure

variable {α : Type} {l : List Fault} {cfg : Config} {e : Env} {s : Session} {date : List UInt8}

theorem Raises.sure {x : Except Fault α} (h : Raises l x) (hl : ∀ f ∈ l, f.own = false) :
    Sure (fun a => x = .ok a) x := by
  cases x with
  | error f => exact hl f (h f rfl)
  | ok a => rfl

theorem sure_appendString (b : Buffer) (d : List UInt8) : Sure (fun _ => True) (b.appendString d) := by
  unfold Buffer.appendString
  split_ifs
  · trivial
  · rfl

theorem sure_print (b : Buffer) (d : List UInt8) : Sure (fun _ => True) (b.print d) := by
  unfold Buffer.print
  dsimp only
  split_ifs
  · trivial
  · rfl

theorem sure_of_isOk {x : Except Fault α} (h : x.isOk = true) : Sure (fun _ => True) x := by
  cases x with
  | error f => cases h
  | ok a => trivial

theorem sure_head {r : Request} (h : KnownStatus r.status) (b : Buffer) :
    Sure (fun _ => True) (responsePutHead date r b) := by
  refine Yields.bind (P := fun _ => True) ?_ fun b _ => sure_appendString _ _
  refine (sure_appendString _ _).bind fun b _ => (sure_of_isOk h.1).bind fun t _ => ?_
  exact (sure_appendString _ _).bind fun b _ => sure_appendString _ _

theorem sure_page {status : ℕ} (h : KnownStatus status) (b : Buffer) :
    Sure (fun _ => True) (responsePutPage status b) := by
  have hpage : Sure (fun _ => True) (errPage status) := (sure_of_isOk h.2).map fun _ _ => trivial
  refine (sure_appendString _ _).bind fun b _ => (sure_appendString _ _).bind fun b _ => ?_
  refine hpage.bind fun page _ => ?_
  cases page with
  | none => exact sure_appendString _ _
  | some page =>
      refine (sure_print _ _).bind fun b _ => (sure_appendString _ _).bind fun b _ => ?_
      exact (sure_appendString _ _).bind fun b _ => sure_appendString _ _

/-- An error page with a known status leaves a request with that status. -/
theorem sure_responseBuildErr {err : ℕ} (h : KnownStatus err) (s : Session) :
    Sure (fun p => p.2.Known) (responseBuildErr date err s) := by
  refine (sure_head (r := { s.r with status := err }) h _).bind fun b _ => ?_
  have hpage : Sure (fun _ => True) (responsePutPage err b) := sure_page h b
  exact hpage.bind fun b _ => h

theorem sure_responseBuild {r : Request} (h : KnownStatus r.status) :
    Sure (fun r' => KnownStatus r'.status) (responseBuild date r) := by
  refine (sure_head h _).bind fun b _ => ?_
  split_ifs
  · exact (sure_appendString _ _).bind fun b _ => h
  · have hslot : Sure (fun _ => True) (mimeMapGet r.mem r.uri.extension) :=
      ((raises_mimeMapGet _ _).sure (by decide)).mono (fun _ h => h) fun _ _ => trivial
    refine Yields.bind (P := fun _ => True) (hslot.bind fun slot _ => ?_) fun b _ => h
    refine (sure_appendString _ _).bind fun b _ => (sure_appendString _ _).bind fun b _ => ?_
    refine (sure_appendString _ _).bind fun b _ => (sure_print _ _).bind fun b _ => ?_
    exact sure_appendString _ _

/-! ### The parsers -/

/-- A byte at which none of these assertions fails. -/
def Clean : Step Request Exit → Prop
  | .stop (.abort f) => f.own = false
  | _ => True

theorem parseUri_abort {addr i : ℕ} {ch : UInt8} {u : Uri} {f : Fault}
    (h : parseUri addr i ch u = .error (.abort f)) : f = .uriState := by
  have hentry : uriEntry addr i ch u = .error (.abort f) → f = .uriState := by
    unfold uriEntry
    cases uriByte ch <;> intro h <;> cases h
  have hext : ∀ v, uriExtension addr i ch v = .error (.abort f) → f = .uriState := by
    unfold uriExtension
    cases uriByte ch <;> intro v h <;> cases h
  unfold parseUri at h
  cases hs : u.state <;> rw [hs] at h <;> dsimp only at h
  case uriAbsPathEntry =>
      cases he : uriEntry addr i ch u with
      | ok v => rw [he] at h; exact hext v h
      | error e => rw [he] at h; cases h; exact hentry he
  case uriExtension => exact hext u h
  all_goals
    try split_ifs at h
    all_goals
      try (cases hb : uriByte ch <;> rw [hb] at h)
      all_goals cases h <;> rfl

theorem requestLineByte_clean (i : ℕ) (r : Request) : Clean (requestLineByte i r) := by
  have huri : ∀ ch q k, Clean (requestLineUri i ch q k) := by
    intro ch q k
    unfold requestLineUri
    cases hp : parseUri q.rb.addr i ch q.uri with
    | ok u => trivial
    | error e =>
        cases e with
        | ret rc => trivial
        | abort f =>
            rw [parseUri_abort hp]
            rfl
  unfold requestLineByte
  cases hs : r.state <;> dsimp only
  case rlMethod =>
      cases r.requestLine.data <;> dsimp only <;> split_ifs <;> trivial
  case rlSpBeforeUri => split_ifs <;> first | trivial | exact huri _ _ _
  case rlUri => split_ifs <;> first | trivial | exact huri _ _ _
  all_goals (try split_ifs) <;> trivial

theorem headerLineByte_clean (i : ℕ) (r : Request) : Clean (headerLineByte i r) := by
  unfold headerLineByte
  cases hs : r.state <;> dsimp only <;> (try split_ifs) <;> trivial

theorem sure_scan {step : ℕ → Request → Step Request Exit} (hstep : ∀ i r, Clean (step i r)) {n i : ℕ}
    {r : Request} {f : Fault} (h : scan step n i r = .stop (.abort f)) : f.own = false := by
  obtain ⟨k, -, t, -, -, hstop⟩ :=
    scan_stop_inv (fun _ _ => True) (i + n) (fun _ _ _ _ _ _ => trivial) le_rfl trivial h
  have hclean := hstep (i + k) t
  rw [hstop] at hclean
  exact hclean

theorem sure_parseRequestLine (r : Request) :
    Sure (fun p => parseRequestLine r = .ok p) (parseRequestLine r) := by
  cases h : parseRequestLine r with
  | ok p => rfl
  | error f =>
      unfold parseRequestLine at h
      cases hs : scan requestLineByte r.rb.size r.rb.begin r with
      | more r₁ => rw [hs] at h; cases h
      | stop e =>
          rw [hs] at h
          cases e with
          | abort g => cases h; exact sure_scan requestLineByte_clean hs
          | _ => cases h

theorem sure_parseHeaderLine (r : Request) :
    Sure (fun p => parseHeaderLine r = .ok p) (parseHeaderLine r) := by
  cases h : parseHeaderLine r with
  | ok p => rfl
  | error f =>
      unfold parseHeaderLine at h
      cases hs : scan headerLineByte r.rb.size r.rb.begin r with
      | more r₁ => rw [hs] at h; cases h
      | stop e =>
          rw [hs] at h
          cases e with
          | abort g => cases h; exact sure_scan headerLineByte_clean hs
          | _ => cases h

/-! ### Opening an upstream -/

/-- A connection that could not be registered finds the heap full, and one that was is in it. -/
theorem register_nonempty {h heap : Heap} {a : ConnAddr} {ok : Bool} (hreg : h.register a = (ok, heap)) :
    0 < heap.size := by
  unfold Heap.register at hreg
  split_ifs at hreg with hfull
  · cases hreg
    unfold MAX_CONNECTION at hfull
    omega
  · cases hreg
    rw [Heap.shiftUp_size]
    exact Nat.succ_pos _

theorem register_refused {h heap : Heap} {a : ConnAddr} (hreg : h.register a = (false, heap)) :
    heap = h := by
  unfold Heap.register at hreg
  split_ifs at hreg
  · cases hreg
    rfl
  · cases hreg

theorem sure_unregister {h : Heap} (hpos : 0 < h.size) (a : ConnAddr) :
    Sure (fun _ => True) (h.unregister a) := by
  unfold Heap.unregister
  rw [if_pos hpos]
  trivial

theorem sure_closeBack {g : Shared} (hpos : 0 < g.heap.size) (a : ConnAddr) (fd : ℕ) :
    Sure (fun _ => True) (g.closeBack a fd) :=
  (sure_unregister hpos a).bind fun _ _ => trivial

/-- Only a location that is to be passed on is asked for an upstream. -/
theorem sure_uwsgiOpenConnection (e : Upstream) (h : s.Known) :
    Sure (fun p => p.2.Known) (uwsgiOpenConnection e true s) := by
  unfold uwsgiOpenConnection
  rw [if_neg (by simp)]
  dsimp only [Shared.openFd]
  by_cases hreach : (!e.pton) = true ∨ (!e.connect) = true
  · rw [if_pos hreach]
    exact h
  rw [if_neg hreach]
  obtain ⟨ok, heap, hreg⟩ : ∃ ok heap,
      (s.g.heap.setTime s.g.pool.alloc.1 e.now).register s.g.pool.alloc.1 = (ok, heap) := ⟨_, _, rfl⟩
  have hpos := register_nonempty hreg
  rw [hreg]
  cases ok with
  | false =>
      rw [register_refused hreg] at hpos
      exact (sure_closeBack (by exact hpos) _ _).bind fun _ _ => h
  | true =>
      dsimp only
      split_ifs
      · exact (sure_closeBack (by exact hpos) _ _).bind fun _ _ => h
      · exact h

/-! ### The client's side -/

theorem sure_requestHandleUri (h : s.Known) :
    Sure (fun p => p.2.Known) (requestHandleUri cfg e s) := by
  refine ((raises_uriHost _).sure (by decide)).bind fun r hr => ?_
  obtain ⟨host, port, rfl⟩ := uriHost_frame hr
  refine ((raises_matchLocation _ _ _).sure (by decide)).bind fun loc _ => ?_
  cases loc with
  | none => exact sure_responseBuildErr (by decide) _
  | some loc =>
      dsimp only
      split_ifs with hpass
      · rw [hpass]
        refine (sure_uwsgiOpenConnection _ (by exact h)).bind fun p hp => ?_
        obtain ⟨uc, s₁⟩ := p
        dsimp only
        split_ifs
        · exact sure_responseBuildErr (by decide) _
        · exact hp
      · refine ((raises_relPath _).sure (by decide)).bind fun p hp => ?_
        obtain ⟨r, path⟩ := p
        obtain ⟨i, rfl⟩ := relPath_frame hp
        dsimp only
        split
        · exact sure_responseBuildErr (by decide) _
        · exact sure_responseBuildErr (by decide) _
        · exact h
        · exact h

theorem sure_requestLine (h : s.Known) : Sure (fun p => p.2.Known) (requestHandleRequestLine cfg e s) := by
  refine (sure_parseRequestLine _).bind fun p hp => ?_
  obtain ⟨rc, r⟩ := p
  obtain ⟨_, _, _, _, _, _, rfl, -⟩ := parseRequestLine_frame hp
  dsimp only
  split_ifs
  · exact h
  · exact sure_responseBuildErr (by decide) _
  · exact sure_responseBuildErr (by decide) _
  · exact sure_requestHandleUri h

theorem raises_matchEncoding (m : Mem) (q : Ptr) (tb : List (String × TransferEncoding)) :
    Raises [.wildRead] (matchEncoding m q tb) := by
  induction tb with
  | nil => exact raises_ok _
  | cons x tb ih =>
      refine raises_bind (raises_strncaseEq _ _ _) fun b _ => ?_
      cases b with
      | true => exact raises_ok _
      | false => exact ih

theorem sure_processor (h : s.Known) (offset : HeaderField) (p : Processor) :
    Sure (fun p => p.2.Known) (p.run date offset s) := by
  cases p with
  | connection =>
      refine ((raises_strncaseEq _ _ _).sure (by decide)).bind fun close _ => ?_
      cases close with
      | true => exact h
      | false => exact h
  | tEncoding =>
      refine ((raises_matchEncoding _ _ _).sure (by decide)).bind fun te _ => ?_
      cases te with
      | none => exact sure_responseBuildErr (by decide) _
      | some te => exact h
  | contentLength =>
      refine ((raises_atoi _ _).sure (by decide)).bind fun n _ => ?_
      split_ifs
      · exact sure_responseBuildErr (by decide) _
      · exact h
  | _ => exact h

theorem sure_headersLoop {n : ℕ} (h : s.Known) : Sure (fun p => p.2.Known) (headersLoop cfg e n s) := by
  induction n generalizing s with
  | zero => exact h
  | succ n ih =>
      refine (sure_parseHeaderLine _).bind fun p hp => ?_
      obtain ⟨rc, r⟩ := p
      have hr : ({ s with r := r } : Session).Known := by
        obtain ⟨_, _, _, _, rfl, -, -⟩ := parseHeaderLine_frame hp
        exact h
      have hrc : rc = .again ∨ rc = .ok ∨ rc = .emptyLine := by
        rcases parseHeaderLine_cases hp with ⟨rfl, -⟩ | ⟨_, _, r₂, rfl, -⟩
        · exact .inl rfl
        · split_ifs
          · exact .inr (.inr rfl)
          · exact .inr (.inl rfl)
      rcases hrc with rfl | rfl | rfl
      · exact hr
      · dsimp only
        cases cfg.headerGet r.mem r.headerName with
        | none => exact ih hr
        | some v =>
            refine (sure_processor hr _ _).bind fun p hp => ?_
            split_ifs
            · exact hp
            · exact ih hp
      · exact hr

theorem sure_enableUpstreamOut (h : s.Known) : Sure Session.Known (enableUpstreamOut s) := by
  unfold enableUpstreamOut
  split_ifs
  · rfl
  · exact h

theorem sure_requestHandleBody (h : s.Known) : Sure (fun p => p.2.Known) (requestHandleBody e s) := by
  unfold requestHandleBody
  split_ifs
  · rfl
  have hstatus : (parseRequestBodyIdentity s.r).2.status = s.r.status := by
    unfold parseRequestBodyIdentity
    dsimp only
    split_ifs <;> rfl
  cases hp : parseRequestBodyIdentity s.r with
  | mk err r =>
      rw [hp] at hstatus
      have hr : KnownStatus r.status := by
        rw [hstatus]
        exact h
      cases err with
      | again => exact (sure_enableUpstreamOut (by exact hr)).bind fun s hs => hs
      | ok =>
          refine Yields.bind (P := Session.Known) ?_ fun s hs => hs
          unfold bodyRespond
          split_ifs
          · exact (sure_responseBuild hr).bind fun r hr => hr
          · exact sure_enableUpstreamOut (by exact hr)
      | _ => exact sure_responseBuildErr (by decide) _

theorem sure_inHandler (h : s.Known) (i : InHandler) : Sure (fun p => p.2.Known) (i.run cfg e s) := by
  cases i with
  | requestLine => exact sure_requestLine h
  | headers => exact sure_headersLoop h
  | body => exact sure_requestHandleBody h

theorem requestLoop_sure {n : ℕ} (h : s.Known) : Safely Fault.own Session.Known (requestLoop cfg e n s) := by
  induction n generalizing s with
  | zero => exact safely_ok h _
  | succ n ih =>
      have hnote : (s.note (.called s.r.inHandler s.r.state)).Known := h
      have hcall : Sure (fun p => p.2.Known) (s.r.inHandler.run cfg e _) := sure_inHandler hnote _
      apply requestLoop_round
      · intro f hf
        exact ⟨fun g hg => by cases hg; exact hcall.error hf, fun rc hrc => by cases hrc⟩
      · exact fun rc s' hrun _ => safely_ok (hcall.ok hrun) rc
      · exact fun s' hrun _ => ih (hcall.ok hrun)

/-- A call of `sy_handle_request`. -/
theorem handleRequest_sure (h : s.Known) : Safely Fault.own Session.Known (handleRequest cfg e s) := by
  unfold handleRequest
  dsimp only
  split_ifs
  · exact safely_ok (by exact h) _
  · exact requestLoop_sure (by exact h)

/-- A call of `sy_handle_pass`. -/
theorem sure_handlePass (h : s.Known) : Sure (fun p => p.2.Known) (handlePass e s) := by
  unfold handlePass
  dsimp only
  split_ifs
  · exact h
  · exact (sure_responseBuildErr (by decide) _).bind fun p hp => hp
  · exact h

/-- A call of `sy_handle_upstream`. -/
theorem sure_handleUpstream (h : s.Known) : Sure (fun p => p.2.Known) (handleUpstream e s) := by
  unfold handleUpstream
  dsimp only
  split_ifs
  · exact h
  · exact (sure_responseBuildErr (by decide) _).bind fun p hp => hp
  · exact h

end sure

/-! ### No upstream where a file is sent -/

/-- A request for a file has no upstream, and is received completely before anything is sent. -/
structure Alone (s : Session) : Prop where
  alone : s.r.resourceFd ≠ none → s.r.uc = none
  file : s.r.outHandler = .file → s.r.uc = none ∧ s.r.bodyDone = true
  answered : s.r.resourceFd ≠ none → s.c.evOut = true → s.r.bodyDone = true
  fresh : s.r.inHandler = .requestLine → s.r.bodyDone = false → s.r.resourceFd = none

section alone

variable {cfg : Config} {e : Env} {s s' : Session}

theorem alone_errored {status : ℕ} {b : Buffer} (halone : s.r.resourceFd ≠ none → s.r.uc = none)
    (hfile : s.r.outHandler = .file → s.r.uc = none) : Alone (s.errored status b) :=
  ⟨halone, fun h => ⟨hfile h, rfl⟩, fun _ _ => rfl, fun _ h => by cases h⟩

/-- A location is looked for behind the request line. -/
theorem alone_uri (hin : s.r.inHandler = .headers) (hfd : s.r.resourceFd = none)
    (hout : s.r.outHandler ≠ .file) (huc : s.r.uc = none) (hev : s.c.evOut = false) (hm : UriMove s s') :
    Alone s' := by
  have hline : s.r.inHandler ≠ .requestLine := by rw [hin]; simp
  cases hm with
  | notFound => exact alone_errored (fun _ => huc) fun _ => huc
  | refused => exact alone_errored (fun _ => rfl) fun _ => rfl
  | missing => exact alone_errored (fun _ => huc) fun _ => huc
  | proxied =>
      exact ⟨fun h => absurd hfd h, fun h => absurd h hout, fun h => absurd hfd h, fun h => absurd h hline⟩
  | found =>
      exact ⟨fun _ => huc, fun h => absurd h hout, fun _ h => absurd (hev.symm.trans h) (by simp),
        fun h => absurd h hline⟩

theorem alone_client (hb : Base false s) (h : Alone s) (hm : ClientMove cfg s s') : Alone s' := by
  cases hm with
  | called hl => exact { h with }
  | lineMore hopen hin hp =>
      obtain ⟨_, _, _, _, _, _, rfl, -⟩ := parseRequestLine_frame hp
      exact { h with }
  | lineError status hopen hin hp hrc hg =>
      obtain ⟨_, _, _, _, _, _, rfl, -⟩ := parseRequestLine_frame hp
      exact alone_errored h.alone fun hf => (h.file hf).1
  | @lineOk r s' k hopen hin hp huri =>
      obtain ⟨-, huc, hev, -⟩ := hb.fresh hin hopen
      have hout : s.r.outHandler ≠ .file := by
        intro hf
        rw [(h.file hf).2] at hopen
        cases hopen
      have hr : r.resourceFd = none ∧ r.outHandler ≠ .file ∧ r.uc = none := by
        obtain ⟨_, _, _, _, _, _, rfl, -⟩ := parseRequestLine_frame hp
        exact ⟨h.fresh hin hopen, hout, huc⟩
      exact alone_uri (s := { s with r := { r with keepAlive := k, inHandler := .headers } }) rfl
        hr.1 hr.2.1 hr.2.2 hev huri
  | headersMore hin hp | header hin hp =>
      obtain ⟨_, _, _, _, rfl, -, -⟩ := parseHeaderLine_frame hp
      exact { h with }
  | headersEnd hin hp =>
      obtain ⟨_, _, _, _, rfl, -, -⟩ := parseHeaderLine_frame hp
      exact { h with fresh := fun h => by cases h }
  | headerSet hs k te n hin hp hget hk =>
      obtain ⟨_, _, _, _, rfl, -, -⟩ := parseHeaderLine_frame hp
      exact { h with }
  | headerError hs status hin hp hget hg =>
      obtain ⟨_, _, _, _, rfl, -, -⟩ := parseHeaderLine_frame hp
      exact alone_errored h.alone fun hf => (h.file hf).1
  | bodyMore n hin hlen huc => exact { h with }
  | bodyRelayed n hin huc =>
      exact ⟨h.alone, fun hf => ⟨(h.file hf).1, rfl⟩, fun _ _ => rfl, fun _ hd => by cases hd⟩
  | bodyLocal n fd hin huc hg hcall fds hfile =>
      exact ⟨fun _ => huc, fun _ => ⟨huc, rfl⟩, fun _ _ => rfl, fun _ hd => by cases hd⟩

/-- What holds while a response is sent. -/
structure Answering (s : Session) : Prop where
  resource : s.r.resourceFd ≠ none → s.r.uc = none ∧ s.r.bodyDone = true
  file : s.r.outHandler = .file → s.r.uc = none ∧ s.r.bodyDone = true
  fresh : s.r.inHandler = .requestLine → s.r.bodyDone = false → s.r.resourceFd = none
  known : s.Known

theorem answering_bufferSent (h : Answering s) : Answering (responseBufferSent s).2 := by
  unfold responseBufferSent
  split_ifs with huc hfd
  · exact h
  · exact ⟨h.resource, fun _ => h.resource hfd, h.fresh, h.known⟩
  · exact { h with }

/-- `sy_send_response_file` finds no upstream. -/
theorem ends_outHandler (h : Answering s) :
    Yields (fun _ => False) (fun p => Answering p.2) (s.r.outHandler.run e s) := by
  cases hout : s.r.outHandler with
  | buffer =>
      show Answering (sendResponseBuffer e s).2
      unfold sendResponseBuffer
      dsimp only
      split_ifs
      · exact answering_bufferSent { h with }
      · exact { h with }
      · exact { h with }
  | file =>
      unfold OutHandler.run sendResponseFile
      rw [if_neg (not_not.mpr (h.file hout).1)]
      dsimp only
      split_ifs
      · exact ⟨fun h => absurd rfl h, h.file, fun _ _ => rfl, h.known⟩
      · exact { h with }

theorem ends_responseLoop {n : ℕ} (h : Answering s) :
    Yields (fun _ => False) (fun p => Answering p.2) (responseLoop e n s) := by
  induction n generalizing s with
  | zero => exact h
  | succ n ih =>
      refine (ends_outHandler h).bind fun p hp => ?_
      dsimp only
      split_ifs
      · exact ih hp
      · exact hp

/-- **A call of `sy_handle_response`** fails no assertion. -/
theorem ends_handleResponse (h : Alone s) (hk : s.Known) (hev : s.c.evOut = true) :
    Yields (fun _ => False) (fun p => Alone p.2 ∧ p.2.Known) (handleResponse e s) := by
  have hanswering : Answering s := ⟨fun hfd => ⟨h.alone hfd, h.answered hfd hev⟩, h.file, h.fresh, hk⟩
  refine (ends_responseLoop hanswering).bind fun p hp => ?_
  have hsent : Alone p.2 ∧ p.2.Known :=
    ⟨⟨fun hfd => (hp.resource hfd).1, hp.file, fun hfd _ => (hp.resource hfd).2, hp.fresh⟩, hp.known⟩
  dsimp only
  split_ifs
  · refine ⟨⟨fun h => absurd rfl h, fun h => ?_, fun h => absurd rfl h, fun _ _ => rfl⟩, ?_⟩
    · cases h
    · show KnownStatus 200
      decide
  · exact hsent
  · exact hsent

theorem alive_sure : Alive cfg (fun _ _ => True) (fun _ _ => True) fun _ s => Alone s ∧ s.Known where
  share _ _ _ h := ⟨{ h.1 with }, h.2⟩
  poll _ _ _ _ _ h := h
  request s s' e rc hb _ h _ hrun := by
    have halone : Alone (handleRequest cfg e s).2 := (kept_request hb (fun d => { h.1 with })
      (fun _ _ hb => alone_client hb) fun t t' ht hm => by
        cases hm with
        | aborted => exact { ht with }
        | empty => exact { ht with }).2
    have hknown : Safely Fault.own Session.Known (handleRequest cfg e s) := handleRequest_sure h.2
    rw [hrun] at halone hknown
    exact ⟨halone, hknown.ok rc rfl⟩
  response _ _ _ _ _ _ _ h _ hout hrun := (ends_handleResponse h.1 h.2 hout).ok hrun
  upstream _ s s' e _ _ _ h _ huc hrun := by
    refine ⟨?_, (sure_handleUpstream h.2).ok hrun⟩
    have hfd : s.r.resourceFd = none := by
      by_contra hfd
      exact huc (h.1.alone hfd)
    cases handleUpstream_move hrun with
    | more => exact { h.1 with answered := fun h => absurd hfd h }
    | eof => exact { h.1 with }
    | failed => exact alone_errored h.1.alone fun hf => (h.1.file hf).1
  pass _ s s' e _ hb _ h _ huc _ hrun := by
    refine ⟨?_, (sure_handlePass h.2).ok hrun⟩
    cases handlePass_move hb.rb hrun with
    | done => exact { h.1 with }
    | part => exact { h.1 with }
    | failed => exact alone_errored h.1.alone fun hf => (h.1.file hf).1
  close s _ _ h _ _ := ⟨⟨fun _ => rfl, fun hf => ⟨rfl, (h.1.file hf).2⟩, h.1.answered, h.1.fresh⟩, h.2⟩

theorem alone_init {v : View} (h : v.Init) : Alone v.s ∧ v.s.Known := by
  obtain ⟨r₀, c, hr⟩ := h.request
  unfold Session.Known
  refine ⟨⟨fun h => ?_, fun h => ?_, fun h => ?_, fun _ _ => ?_⟩, ?_⟩
  all_goals rw [hr] at *
  · rfl
  · cases h
  · exact absurd rfl h
  · rfl
  · show KnownStatus 200
    decide

end alone

/-! ### What a call dies of -/

/-- The assertions that can fail, and the reads through a pointer to no object. -/
def Fault.deadly : Fault → Bool
  | requestLineState | wildRead | appendMargin | printMargin | bodyEncoding | nullUpstream => true
  | _ => false

/-- Of what a call can fail with, these are left. -/
theorem deadly_of_own : ∀ f ∈ Fault.requestLineState :: clientFaults, f.own = false → f.deadly = true := by
  decide

section calls

variable {cfg : Config} {e : Env} {s : Session} {f : Fault}

/-- A call behind the request fails in the parser of the request line only. -/
theorem raises_handleRequest_late (hb : Base true s) (hl : s.Late) :
    Raises [.requestLineState] (handleRequest cfg e s).1 := by
  have hloop : ∀ d, Safely (fun f => decide (f ≠ .requestLineState)) (fun _ => True)
      (requestLoop cfg e 3 (s.receive d)) := fun d =>
    requestLoop_late_safely (s := s.receive d) hl.2 (hb.late_pending hl) (by decide) trivial
  obtain ⟨rc, d, hrecv, -, -⟩ := Buffer.recv_spec e.recvs s.r.rb
  intro f hf
  unfold handleRequest at hf
  rw [hrecv] at hf
  dsimp only at hf
  split_ifs at hf
  have hsafe := (hloop d).error f hf
  simpa using hsafe

theorem handleRequest_dies (hb : Base true s) (hk : s.Known) (hf : (handleRequest cfg e s).1 = .error f) :
    f.deadly = true := by
  refine deadly_of_own f ?_ ((handleRequest_sure hk).error f hf)
  by_cases hl : s.Late
  · rw [List.mem_singleton.mp (raises_handleRequest_late hb hl f hf)]
    exact List.mem_cons_self
  · exact List.mem_cons_of_mem _ (raises_handleRequest hb (fun _ => hl) f hf)

theorem page_dies {x : Except Fault (Rc × Session)} {P : Rc × Session → Prop} (hs : Sure P x)
    (hr : Raises pageFaults x) (hf : x = .error f) : f.deadly = true := by
  have hsub : pageFaults ⊆ Fault.requestLineState :: clientFaults := by decide
  exact deadly_of_own f (hsub (hr f hf)) (hs.error hf)

end calls

namespace Server

variable {cfg : Config} {v v' : Server} {l : Label} {a : ConnAddr} {f : Fault}

/-- What a handler dies of. -/
theorem handler_dies {w : View} {isIn : Bool} {e : Env} {side : Side} (hb : Base w.pend w.s)
    (hk : Alone w.s ∧ w.s.Known) (hen : Enabled w isIn side)
    (hf : (handler cfg e w.s isIn side).1 = .error f) : f.deadly = true := by
  obtain ⟨p, s⟩ := w
  have hsettle : ∀ {x : Except Fault (Rc × Session)}, (settle s x).1 = .error f → x = .error f := by
    intro x hx
    cases x <;> cases hx
    rfl
  cases side with
  | front =>
      cases isIn with
      | true =>
          obtain rfl : p = true := hen
          exact handleRequest_dies hb hk.2 hf
      | false => exact ((ends_handleResponse hk.1 hk.2 hen).error (hsettle hf)).elim
  | back =>
      cases isIn with
      | true => exact page_dies (sure_handleUpstream hk.2) raises_handleUpstream (hsettle hf)
      | false => exact page_dies (sure_handlePass hk.2) raises_handlePass (hsettle hf)

/-- A front connection without an upstream is closed, as long as the heap is not empty. -/
theorem closeFront_single (hpos : 0 < v.g.heap.size) (huc : (v.reqs (v.conns a).r).uc = none) :
    ∃ v', v.closeFront a = .ok v' ∧ v'.dead = v.dead := by
  obtain ⟨heap, hun⟩ : ∃ heap, v.g.heap.unregister a = .ok heap := by
    unfold Heap.unregister
    rw [if_pos hpos]
    exact ⟨_, rfl⟩
  have huc' : ((v.shut a heap).reqs (v.conns a).r).uc = none := huc
  rw [closeFront_eq hun, closeUpstream, huc']
  exact ⟨_, rfl, rfl⟩

/-- `sy_deadlyconnection` fails no assertion. -/
theorem openConnection_alive (hw : v.Wired) (hd : v.dead = none) (o : Opening) :
    (v.openConnection o).dead = none := by
  obtain ⟨a, v₁, hset⟩ : ∃ a v₁, v.setUp o = (a, v₁) := ⟨_, _, rfl⟩
  obtain ⟨-, ha, -, huc⟩ := setUp_spec hw o hset
  have hd₁ : v₁.dead = none := by
    cases hset
    exact hd
  have hclose : ∀ w : Server, w.conns = v₁.conns → w.reqs = v₁.reqs → w.dead = none →
      0 < w.g.heap.size → (w.settled (w.closeConnection a)).dead = none := by
    intro w hconns hreqs hdead hpos
    have huc' : (w.reqs (w.conns a).r).uc = none := by rw [hconns, hreqs, huc]
    obtain ⟨w', hok, hdead'⟩ := closeFront_single hpos huc'
    unfold closeConnection
    rw [hconns, ha.2]
    dsimp only
    rw [hok]
    exact hdead'.trans hdead
  have hm := openConnection_move hset
  generalize v.openConnection o = v' at hm ⊢
  cases hm with
  | refused hreg =>
      refine hclose _ rfl rfl hd₁ ?_
      rw [← register_refused hreg]
      exact register_nonempty hreg
  | closed hreg => exact hclose _ rfl rfl hd₁ (register_nonempty hreg)
  | done => exact hd₁

/-- The sweep fails no assertion, as long as no registration was refused. -/
theorem sweepRound_alive (hs : v.Sound) (ht : v.g.Tracks) (hr : v.g.refused = false)
    (hd : v.dead = none) (now : ℤ) : (v.sweepRound cfg now).dead = none := by
  obtain ⟨hi, helem⟩ := ht hr
  unfold sweepRound
  dsimp only
  split_ifs with hdue hroot
  · obtain ⟨v₁, hclose, -⟩ := closeConnection_unregistered hs.wired ht hr hroot
    rw [hclose]
    exact (closeConnection_closed hs.wired hroot hclose).dead.trans hd
  · exact absurd ((helem _).mp ⟨1, le_rfl, hdue.1, rfl⟩) hroot
  · exact hd

/-- What a step dies of. -/
theorem step_dies (hs : v.Sound) (ht : v.g.Tracks) (hk : ∀ a, v.Front a → Alone (v.view a).s ∧ (v.view a).s.Known)
    (hstep : v.step cfg l = some v') (hf : v'.dead = some f) :
    f.deadly = true ∨ (f = .heapEmpty ∨ f = .useAfterFree) ∧ v'.g.refused = true := by
  obtain ⟨hd, hcases⟩ := step_cases hstep
  have habsurd : v.dead ≠ some f := by
    rw [hd]
    simp
  cases hcases with
  | poll | drop | skip => exact absurd hf habsurd
  | accept o =>
      rw [openConnection_alive hs.wired hd o] at hf
      cases hf
  | @handle _ a isIn c e items hruns =>
      obtain ⟨hlive, hen⟩ := hs.runs hruns
      obtain ⟨hff, hfr, -, -⟩ := hs.wired.frontOf hlive
      have herror := handle_dead hd hf
      rw [← hfr] at herror
      exact .inl (handler_dies (hs.base _ hff) (hk _ hff) hen herror)
  | sweep now =>
      right
      have hr : v.g.refused = true := by
        by_contra hr
        rw [sweepRound_alive hs ht (Bool.eq_false_of_not_eq_true hr) hd] at hf
        cases hf
      refine ⟨?_, (sweepRound_retimed hs now).refused hr⟩
      unfold sweepRound at hf
      dsimp only at hf
      split_ifs at hf
      · exact .inl (settled_dead hd hf)
      · cases hf
        exact .inr rfl
      · exact absurd hf habsurd

end Server

/-- **What a worker dies of**, in any run: an assertion about what the client sent behind its request,
about its body, or about the room in a buffer; a read through a pointer to no object, which is that of a
port, of the extension of a path that has none, or of a header value that is absent; or, once a
registration was refused, the heap that no longer lists the open connections. -/
theorem deaths_known {cfg : Config} {good : Server → Label → Prop} {v : Server} {f : Fault}
    (h : Server.Reached cfg good v) (hf : v.dead = some f) :
    f.deadly = true ∨ (f = .heapEmpty ∨ f = .useAfterFree) ∧ v.g.refused = true := by
  have hall : Server.Reached cfg (Server.Meets cfg fun _ _ => True) v :=
    h.mono fun _ _ _ _ _ => trivial
  refine hall.invariant_of (J := fun v => v.Sound ∧ v.g.Tracks ∧
      (v.dead = none → ∀ a, v.Front a → Alone (v.view a).s ∧ (v.view a).s.Known))
    (fun v hv => ⟨Server.Reached.sound hv, Server.Reached.tracks hv,
      Server.Reached.alive alive_sure (fun _ => alone_init) (fun _ _ _ _ _ => trivial) hv⟩)
    (fun v => ∀ f, v.dead = some f →
      f.deadly = true ∨ (f = .heapEmpty ∨ f = .useAfterFree) ∧ v.g.refused = true)
    (fun v hv f hf => by rw [hv.dead] at hf; cases hf) (fun v l v' hj _ _ hstep f hf => ?_) f hf
  exact Server.step_dies hj.1 hj.2.1 (hj.2.2 (Server.step_cases hstep).1) hstep hf

/-- A byte behind a request that is forwarded. -/
def lateRun : List Label :=
  Server.opened ++
  Server.single 0 0 true { idleEnv with recvs := [.got (bytes "GET /p HTTP/1.1\r\n\r\n")] } ++
  Server.single 0 1 false { idleEnv with sends := [.sent 19] } ++
  [.poll [.conn 0 true false], .serveIn (.at 0) { idleEnv with recvs := [.got (bytes "G")] }]

theorem deaths_known_late :
    ∃ v f, exec (Server.step (serverConfig 60 [⟨true, bytes "/p"⟩])) Server.boot lateRun = some v ∧
      v.dead = some f ∧
      (f.deadly = true ∨ (f = .heapEmpty ∨ f = .useAfterFree) ∧ v.g.refused = true) := by
  have hrun : (exec (Server.step (serverConfig 60 [⟨true, bytes "/p"⟩])) Server.boot lateRun).any
      fun v => decide (v.dead = some .requestLineState) := by
    decide +kernel
  obtain ⟨v, hv, hend⟩ := exists_of_any hrun
  have hreach : Server.Reached (serverConfig 60 [⟨true, bytes "/p"⟩]) (fun _ _ => True) v :=
    Reach.exec (.start Server.boot_init) (along_true _ _) hv
  exact ⟨v, _, hv, of_decide_eq_true hend, deaths_known hreach (of_decide_eq_true hend)⟩

end SyServer
