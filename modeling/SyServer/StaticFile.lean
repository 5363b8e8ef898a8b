import SyServer.CloseHeader
import SyServer.OneResponse

/-! # The file of a local response

`resource_len` is an `int`: the size of the file goes into it cut to 32 bits, the head is printed from
it, and every `sendfile` is called with it, as a `size_t`.  The two agree with the file where its size
is an `int`.

* `Sends`: what the kernel answers to the calls of `sendfile`.
* `ServeStep`: what happens between the opening of a file and its last byte; `Serving` is kept by it.
* `staticFile_iff`: the number in the head is the size of the file, and so is the number of bytes sent,
  exactly when the size is below `2 ^ 31`. -/

namespace SyServer

open Message (eol readNat readNat_digits not_mem_digits)
open Transition (exists_of_any)
open Relation (ReflTransGen)

/-! ### The number in a head -/

/-- The last header line of the text is the length `n`. -/
def Announces (t : List UInt8) (n : ℤ) : Prop :=
  ∃ head rest, t = head ++ (contentLengthLine n ++ rest) ∧ rest <+: eol

section text

variable {t : List UInt8} {n : ℕ} {z : ℤ}

/-- The number of a length, with its sign, and what a reader makes of it. -/
theorem contentLengthLine_int (z : ℤ) :
    ∃ d, contentLengthLine z = lengthKey ++ (d ++ eol) ∧ 13 ∉ d ∧ 32 ∉ d ∧
      ∀ n, readNat d = some n ↔ z = n := by
  have hline := contentLengthLine_eq z
  rw [List.append_assoc] at hline
  cases z with
  | ofNat n =>
      have hd : bytes (toString (Int.ofNat n)) = digits n := bytes_repr n
      rw [hd] at hline
      refine ⟨_, hline, not_mem_digits rfl n, not_mem_digits rfl n, fun m => ?_⟩
      rw [show readNat (digits n) = some n from readNat_digits n, Option.some.injEq]
      exact Int.ofNat_inj.symm
  | negSucc n =>
      have hd : bytes (toString (Int.negSucc n)) = 45 :: digits (n + 1) := by
        rw [← bytes_repr]
        exact bytes_append "-" (n + 1).repr
      rw [hd] at hline
      refine ⟨_, hline, ?_, ?_, fun m => iff_of_false (fun h => by cases h) (fun h => by cases h)⟩
      · rw [List.mem_cons, not_or]
        exact ⟨by decide, not_mem_digits rfl _⟩
      · rw [List.mem_cons, not_or]
        exact ⟨by decide, not_mem_digits rfl _⟩

theorem first_part {c : UInt8} {x y a b : List UInt8} (h : x ++ c :: a = y ++ c :: b) (hx : c ∉ x)
    (hy : c ∉ y) : x = y := by
  have htake : ∀ {w z : List UInt8}, c ∉ w → (w ++ c :: z).takeWhile (· ≠ c) = w := by
    intro w z hw
    have hall : ∀ b ∈ w, decide (b ≠ c) = true := fun b hb => by
      simpa using fun e : b = c => hw (e ▸ hb)
    rw [List.takeWhile_append_of_pos hall]
    simp
  rw [← htake (z := a) hx, h, htake hy]

theorem last_part {c : UInt8} {x y a b : List UInt8} (h : a ++ c :: x = b ++ c :: y) (hx : c ∉ x)
    (hy : c ∉ y) : x = y := by
  have hrev := congrArg List.reverse h
  simp only [List.reverse_append, List.reverse_cons, List.append_assoc, List.singleton_append] at hrev
  have hpart := first_part hrev (by simpa using hx) (by simpa using hy)
  exact List.reverse_injective hpart

/-- A text announces one number. -/
theorem Announces.unique (h : Announces t n) (h' : Announces t z) : z = n := by
  -- the number of each is what follows the last space
  have hword : ∀ {y : ℤ}, Announces t y → ∃ a d x, t = a ++ 32 :: (d ++ 13 :: x) ∧
      32 ∉ d ++ 13 :: x ∧ 13 ∉ d ∧ ∀ m, readNat d = some m ↔ y = m := by
    rintro y ⟨head, rest, ht, hrest⟩
    obtain ⟨d, hd, hcr, hsp, hread⟩ := contentLengthLine_int y
    refine ⟨head ++ bytes "Content-Length:", d, 10 :: rest, ?_, ?_, hcr, hread⟩
    · rw [ht, hd, show lengthKey = bytes "Content-Length:" ++ [32] by decide]
      simp [eol]
    · have hrest' : 32 ∉ rest := fun hm => absurd (hrest.subset hm) (by decide)
      simp [hsp, hrest']
  obtain ⟨a, d, x, ht, hsp, hcr, hread⟩ := hword h
  obtain ⟨a', d', x', ht', hsp', hcr', hread'⟩ := hword h'
  have hlast := last_part (ht.symm.trans ht') hsp hsp'
  have hd : d = d' := first_part hlast hcr hcr'
  rw [← hread', ← hd, hread]

/-- **The head of a local response** announces `resource_len`. -/
theorem responseBuild_announces {date : List UInt8} {r r' : Request}
    (hstatus : ¬(r.status = 304 ∨ r.status = 100)) (h : responseBuild date r = .ok r') :
    Announces (r'.sb.slice r.sb.end_ r'.sb.end_) r.resourceLen ∧
      ∃ b, r' = { r with sb := b } := by
  obtain ⟨b, h1, h2⟩ := bind_ok h
  rw [if_neg hstatus] at h2
  obtain ⟨b', h3, h4⟩ := bind_ok h2
  cases h4
  refine ⟨?_, b', rfl⟩
  obtain ⟨b'', h5, hw⟩ := putsLast_entity (responsePutEntity_readable h3) b (needs_entity r b b' h3)
  rw [h3] at h5
  cases h5
  have hle := (appends_head date r _ b h1).le
  have hle' : b.end_ ≤ b'.end_ := by
    rw [hw.end_]
    exact Nat.le_add_right _ _
  rw [← Buffer.slice_append b' hle hle', hw.text]
  have hparts : ∀ rest, b'.slice r.sb.end_ b.end_ ++ (bytes "Content-Type: " ++ (contentType r ++
      (bytes CRLF ++ contentLengthLine r.resourceLen)) ++ rest) =
        b'.slice r.sb.end_ b.end_ ++ (bytes "Content-Type: " ++ (contentType r ++ bytes CRLF)) ++
          (contentLengthLine r.resourceLen ++ rest) := fun rest => by
    simp only [List.append_assoc]
  exact ⟨_, _, hparts _, List.take_prefix _ (bytes CRLF)⟩

end text

/-! ### The calls of `sendfile` -/

/-- Results of `sendfile`, for a file of `n` bytes of which `pos` were sent: each sends a part of the
`count` bytes asked for, 0 only at the end of the file or where nothing is asked for, or it fails and
ends the call. -/
def Sends (n count : ℕ) : ℕ → List FileResult → Prop
  | pos, .sent k :: rs =>
      if k = 0 then pos = n ∨ count = 0
      else k ≤ count ∧ pos + k ≤ n ∧ Sends n count (pos + k) rs
  | _, _ => True

/-- The loop of `sy_send_response_file`. -/
theorem sendfileLoop_sends {n count pos : ℕ} {rs : List FileResult} (h : Sends n count pos rs)
    (hpos : pos ≤ n) :
    pos + (sendfileLoop rs).2 ≤ n ∧
      ((sendfileLoop rs).1 = .ok → pos + (sendfileLoop rs).2 = n ∨ count = 0) := by
  induction rs generalizing pos with
  | nil => exact ⟨hpos, fun h => by cases h⟩
  | cons x rs ih =>
      cases x with
      | eagain => exact ⟨hpos, fun h => by cases h⟩
      | err => exact ⟨hpos, fun h => by cases h⟩
      | sent k =>
          unfold Sends at h
          unfold sendfileLoop
          split_ifs at h ⊢ with hk
          · exact ⟨hpos, fun _ => h⟩
          · obtain ⟨-, hle, hrest⟩ := h
            obtain ⟨h1, h2⟩ := ih hrest hle
            rw [Nat.add_assoc] at h1 h2
            exact ⟨h1, h2⟩

/-! ### From the opening of a file to its last byte -/

/-- The file that `sy_request_handle_uri` opens, with its size. -/
def fileOpened (cfg : Config) (e : Env) (r : Request) : Option (ℕ × ℤ) :=
  match resourceAsked cfg e r with
  | some (.file fd size) => some (fd, size)
  | some (.directory _ (some p)) => some p
  | _ => none

/-- The response was not begun. -/
structure Unbegun (s : Session) : Prop where
  quiet : ∀ a ∈ current s.log, a.quiet = true
  status : s.r.status = 200
  done : s.r.responseDone = false

/-- What happens to a request whose file of `n` bytes is open: bytes arrive, a handler runs, or the
rest of the worker does something to the connections. -/
inductive ServeStep (cfg : Config) (n : ℕ) (s : Session) : Session → Prop
  | receive (d : List UInt8) : ServeStep cfg n s (s.receive d)
  | called : ServeStep cfg n s (s.note (.called s.r.inHandler s.r.state))
  | late {s' : Session} (h : LateMove s s') : ServeStep cfg n s s'
  | headers {e : Env} {s' : Session} {rc : Rc} (h : requestHandleHeaders cfg e s = .ok (rc, s')) :
      ServeStep cfg n s s'
  | body {e : Env} {s' : Session} {rc : Rc} (h : requestHandleBody e s = .ok (rc, s')) :
      ServeStep cfg n s s'
  | buffer {e : Env} {s' : Session} {rc : Rc} (h : sendResponseBuffer e s = (rc, s')) :
      ServeStep cfg n s s'
  | file {e : Env} {s' : Session} {rc : Rc}
      (hk : Sends n (toSize s.r.resourceLen) (fileSent (current s.log)) e.files)
      (h : sendResponseFile e s = .ok (rc, s')) : ServeStep cfg n s s'
  | outside (c u : Connection) (g : Shared) : ServeStep cfg n s { s with c := c, u := u, g := g }

/-- An action that puts no response and sends nothing of the file. -/
def Action.besides : Action → Bool
  | built _ | delivered (.file _) | cleared _ => false
  | _ => true

/-- A file of `n` bytes is served: the responses put announce its size as an `int`, and no more of
it was sent than there is, and all of it when that is reported. -/
structure Serving (n : ℕ) (s : Session) : Prop where
  len : s.r.resourceLen = wrap32 n
  fd : s.r.responseDone = false → s.r.resourceFd ≠ none
  status : ¬(s.r.status = 304 ∨ s.r.status = 100)
  built : ∀ t, .built t ∈ current s.log → Announces t (wrap32 n)
  le : fileSent (current s.log) ≤ n
  done : s.r.responseDone = true → n < 2 ^ 31 → fileSent (current s.log) = n

section serving

variable {cfg : Config} {e : Env} {n : ℕ} {s s' : Session} {rc : Rc}

theorem Serving.note (h : Serving n s) {a : Action} (ha : a.besides = true) : Serving n (s.note a) := by
  have hlog : current (s.note a).log = a :: current s.log ∧
      fileSent (current (s.note a).log) = fileSent (current s.log) := by
    cases a with
    | delivered o =>
        cases o with
        | buffer d => exact ⟨rfl, rfl⟩
        | file k => cases ha
    | cleared b => cases ha
    | _ => exact ⟨rfl, rfl⟩
  exact { h with
    built := by
      rw [hlog.1]
      intro t ht
      rcases List.mem_cons.mp ht with rfl | ht
      · cases ha
      · exact h.built t ht
    le := hlog.2.trans_le h.le
    done := fun hd hn => hlog.2.trans (h.done hd hn) }

/-- An error page. -/
theorem Serving.errored (h : Serving n s) {status : ℕ} (hs : status = 400 ∨ status = 415) (b : Buffer) :
    Serving n (s.errored status b) := by
  have hpage : Serving n { s with
      r := { s.r with status := status, sb := b, keepAlive := false, bodyDone := true }
      c := enableOut (disableIn s.c) } :=
    { h with
      status := by
        rcases hs with rfl | rfl <;> simp }
  exact hpage.note rfl

theorem headersLoop_serving {k : ℕ} (h : Serving n s) (hrun : headersLoop cfg e k s = .ok (rc, s')) :
    Serving n s' := by
  induction k generalizing s with
  | zero =>
      cases hrun
      exact h
  | succ k ih =>
      obtain ⟨⟨err, r⟩, hp, h2⟩ := bind_ok hrun
      have hparsed : Serving n { s with r := r } := by
        obtain ⟨_, _, _, _, rfl, -, -⟩ := parseHeaderLine_frame hp
        exact { h with }
      dsimp only at h2
      cases err with
      | again =>
          cases h2
          exact hparsed
      | emptyLine =>
          cases h2
          have hbody : Serving n { s with r := { r with inHandler := .body } } := { hparsed with }
          exact hbody.note rfl
      | ok =>
          dsimp only at h2
          cases hget : cfg.headerGet r.mem r.headerName with
          | none =>
              rw [hget] at h2
              exact ih hparsed h2
          | some v =>
              rw [hget] at h2
              obtain ⟨⟨err, s₁⟩, h3, h4⟩ := bind_ok h2
              rcases Processor.run_outcome h3 with ⟨hs, k, te, m, -, rfl, rfl⟩ | ⟨hs, status, hstatus, hpage⟩
              · have hset : Serving n { s with r := { r with
                    headers := hs, keepAlive := k, tEncoding := te, contentLength := m } } := { hparsed with }
                exact ih hset h4
              · obtain ⟨rfl, b, -, rfl⟩ := responseBuildErr_spec hpage
                have hset : Serving n { s with r := { r with headers := hs } } := { hparsed with }
                exact ih (hset.errored (by simpa using hstatus) b) h4
      | _ => cases h2

theorem requestHandleBody_serving (h : Serving n s) (hrun : requestHandleBody e s = .ok (rc, s')) :
    Serving n s' := by
  unfold requestHandleBody at hrun
  split_ifs at hrun
  obtain ⟨m, hr, hrc⟩ := parseRequestBodyIdentity_frame s.r
  obtain ⟨err, r, hp⟩ : ∃ err r, parseRequestBodyIdentity s.r = (err, r) := ⟨_, _, rfl⟩
  rw [hp] at hr hrc hrun
  dsimp only at hr hrc hrun
  subst hr
  have hbody : Serving n { s with r := { s.r with bodyReceived := m }, c := disableIn s.c } := { h with }
  rcases hrc with rfl | ⟨rfl, -⟩
  · obtain ⟨s₁, h1, h2⟩ := bind_ok hrun
    cases h2
    unfold bodyRespond at h1
    dsimp only at h1
    split_ifs at h1
    · obtain ⟨r', h3, h4⟩ := bind_ok h1
      cases h4
      obtain ⟨hann, b, rfl⟩ := responseBuild_announces hbody.status h3
      exact { h with
        built := by
          intro t ht
          rcases List.mem_cons.mp ht with heq | ht
          · cases heq
            rw [← h.len]
            exact hann
          · exact h.built t ht }
    · obtain ⟨-, rfl⟩ := enableUpstreamOut_ok h1
      exact { h with }
  · obtain ⟨s₁, h1, h2⟩ := bind_ok hrun
    cases h2
    obtain ⟨-, rfl⟩ := enableUpstreamOut_ok h1
    exact { h with }

theorem sendResponseBuffer_serving (h : Serving n s) (hrun : sendResponseBuffer e s = (rc, s')) :
    Serving n s' := by
  obtain ⟨err, b, d, hsend⟩ : ∃ err b d, s.r.sb.send e.sends = (err, b, d) := ⟨_, _, _, rfl⟩
  have hput : Serving n { s with r := { s.r with sb := b } } := { h with }
  have hnote := hput.note (a := .delivered (.buffer d)) rfl
  unfold sendResponseBuffer at hrun
  rw [hsend] at hrun
  dsimp only at hrun
  split_ifs at hrun with hok
  · unfold responseBufferSent at hrun
    split_ifs at hrun with huc hfd
    · cases hrun
      exact hnote
    · cases hrun
      exact { hnote with }
    · -- the file is closed only where the response is done
      cases hrun
      have hd : s.r.responseDone = true :=
        Bool.eq_true_of_not_eq_false fun hd => h.fd hd (not_not.mp hfd)
      exact { hnote with
        fd := fun hd => by cases hd
        done := fun _ => hnote.done hd }
  · cases hrun
    exact hnote
  · cases hrun
    exact hnote

theorem sendResponseFile_serving (h : Serving n s)
    (hk : Sends n (toSize s.r.resourceLen) (fileSent (current s.log)) e.files)
    (hrun : sendResponseFile e s = .ok (rc, s')) : Serving n s' := by
  obtain ⟨hle, hend⟩ := sendfileLoop_sends hk h.le
  obtain ⟨err, m, hloop⟩ : ∃ err m, sendfileLoop e.files = (err, m) := ⟨_, _, rfl⟩
  unfold sendResponseFile at hrun
  split_ifs at hrun
  rw [hloop] at hrun hle hend
  dsimp only at hrun hle hend
  have hcur : fileSent (current (.delivered (.file m) :: s.log)) = fileSent (current s.log) + m := rfl
  have hbuilt : ∀ t, .built t ∈ current (.delivered (.file m) :: s.log) → Announces t (wrap32 n) := by
    intro t ht
    rcases List.mem_cons.mp ht with heq | ht
    · cases heq
    · exact h.built t ht
  -- where the size is an `int`, it is what every call asks for
  have hcount : n < 2 ^ 31 → toSize s.r.resourceLen = n := by
    intro hn
    rw [h.len, wrap32_of_lt (by omega) (by omega), toSize_nonneg (by omega) (by omega)]
    rfl
  split_ifs at hrun with hok
  · cases hrun
    exact { h with
      fd := fun hd => by cases hd
      built := hbuilt
      le := hcur.trans_le hle
      done := fun _ hn => by
        refine hcur.trans ?_
        have := hcount hn
        rcases hend hok with hall | hzero
        · exact hall
        · omega }
  · cases hrun
    exact { h with
      built := hbuilt
      le := hcur.trans_le hle
      done := fun hd hn => by
        have hall := h.done hd hn
        refine hcur.trans ?_
        omega }

/-- **A step keeps the file served.** -/
theorem ServeStep.serving (hstep : ServeStep cfg n s s') (h : Serving n s) : Serving n s' := by
  cases hstep with
  | receive d =>
      have hput : Serving n { s with r := { s.r with rb := s.r.rb.put d } } := { h with }
      exact hput.note rfl
  | called => exact h.note rfl
  | late hlate =>
      cases hlate with
      | aborted => exact h.note rfl
      | empty =>
          have hconsumed : Serving n { s with r := rbConsumed s.r } := { h with }
          exact hconsumed.note rfl
  | headers hrun => exact headersLoop_serving h hrun
  | body hrun => exact requestHandleBody_serving h hrun
  | buffer hrun => exact sendResponseBuffer_serving h hrun
  | file hk hrun => exact sendResponseFile_serving h hk hrun
  | outside c u g => exact { h with }

theorem serving_run (h : Serving n s) (hrun : ReflTransGen (ServeStep cfg n) s s') : Serving n s' := by
  induction hrun with
  | refl => exact h
  | tail _ hstep ih => exact hstep.serving ih

/-- A file is found. -/
theorem Unbegun.found (hb : Unbegun s) {fd : ℕ} {g : Shared} :
    Serving n ({ s with r := s.r.setResource fd n, g := g }.note (.matched false)) := by
  obtain ⟨-, -, -, hsent, -⟩ := quiet_parts hb.quiet
  have hle : fileSent (current s.log) ≤ n := hsent.trans_le (Nat.zero_le n)
  have hdone : s.r.responseDone ≠ true := by simp [hb.done]
  have hfound : Serving n { s with r := s.r.setResource fd n, g := g } :=
    { len := by dsimp only [Request.setResource]
      fd := fun _ h => by cases h
      status := by
        show ¬(s.r.status = 304 ∨ s.r.status = 100)
        rw [hb.status]
        decide
      built := fun t ht => by cases hb.quiet _ ht
      le := hle
      done := fun hd => absurd hd hdone }
  exact hfound.note rfl

/-- **The file is opened.** -/
theorem requestHandleUri_serving {fd : ℕ} (hb : Unbegun s) (hfile : fileOpened cfg e s.r = some (fd, (n : ℤ)))
    (hrun : requestHandleUri cfg e s = .ok (rc, s')) : Serving n s' := by
  unfold fileOpened at hfile
  rcases requestHandleUri_outcome hrun with ⟨hnone, -⟩ | ⟨host, port, i, x, hasked, hopened⟩
  · rw [hnone] at hfile
    cases hfile
  · rw [hasked] at hfile
    have hnamed : Unbegun { s with
        r := { s.r with host := host, port := port, rb := s.r.rb.write i 0 } } := { hb with }
    cases x with
    | missing => cases hfile
    | file fd' size =>
        cases hfile
        cases hopened
        exact hnamed.found
    | directory dir index =>
        cases index with
        | none => cases hfile
        | some p =>
            cases hfile
            cases hopened
            have hindex : Unbegun { s with r := { s.r with
                host := host, port := port, rb := s.r.rb.write i 0
                uri := { s.r.uri with extension := htmlExtension } } } := { hb with }
            exact hindex.found

/-! ### The steps of the two handlers -/

theorem requestLoop_served {k : ℕ} (hin : s.r.inHandler ≠ .requestLine) :
    ReflTransGen (ServeStep cfg n) s (requestLoop cfg e k s).2 := by
  induction k generalizing s with
  | zero => exact .refl
  | succ k ih =>
      have hrun : ∀ rc s', s.r.inHandler.run cfg e (s.note (.called s.r.inHandler s.r.state)) = .ok (rc, s') →
          ReflTransGen (ServeStep cfg n) s s' := by
        intro rc s' h
        refine .head .called ?_
        cases hs : s.r.inHandler <;> rw [hs] at h hin
        case requestLine => exact absurd rfl hin
        case headers => exact .single (.headers h)
        case body => exact .single (.body h)
      refine requestLoop_round (P := fun x => ReflTransGen (ServeStep cfg n) s x.2) ?_ ?_ ?_
      · exact fun _ _ => .single .called
      · exact fun rc s' h _ => hrun rc s' h
      · intro s' h hd
        refine (hrun .ok s' h).trans (ih fun hline => ?_)
        -- `in_handler` moves on
        have hrank := InHandler.run_rank (s := s.note (.called s.r.inHandler s.r.state)) h hd
        rw [hline] at hrank
        cases hs : s.r.inHandler with
        | requestLine => exact hin hs
        | headers => rw [show (s.note _).r.inHandler = .headers from hs] at hrank; exact absurd hrank (by decide)
        | body => rw [show (s.note _).r.inHandler = .body from hs] at hrank; exact absurd hrank (by decide)

/-- **A call of `sy_handle_request`** behind the request line, or while the response is awaited. -/
theorem handleRequest_served
    (h : s.r.inHandler ≠ .requestLine ∨ s.Late ∧ s.r.state.headerLine = true) :
    ReflTransGen (ServeStep cfg n) s (handleRequest cfg e s).2 := by
  rcases h with hin | ⟨hlate, hst⟩
  · obtain ⟨err, d, hrecv, -, -⟩ := Buffer.recv_spec e.recvs s.r.rb
    unfold handleRequest
    rw [hrecv]
    dsimp only
    have hreceive : ServeStep cfg n s (s.receive d) := .receive d
    split_ifs
    · exact .single hreceive
    · exact .head hreceive (requestLoop_served hin)
  · obtain ⟨res, s', hrun⟩ : ∃ res s', handleRequest cfg e s = (res, s') := ⟨_, _, rfl⟩
    rw [hrun]
    obtain ⟨d, -, rfl | ⟨-, hmove⟩⟩ := handleRequest_late hlate hst hrun
    · exact .single (.receive d)
    · exact .head (.receive d) (.single (.late hmove))

theorem sendResponseBuffer_kept (h : sendResponseBuffer e s = (rc, s')) :
    s'.r.resourceLen = s.r.resourceLen ∧ fileSent (current s'.log) = fileSent (current s.log) := by
  unfold sendResponseBuffer responseBufferSent at h
  dsimp only at h
  split_ifs at h <;> cases h <;> exact ⟨rfl, rfl⟩

theorem sendResponseFile_done (h : sendResponseFile e s = .ok (.ok, s')) : s'.r.responseDone = true := by
  unfold sendResponseFile at h
  dsimp only at h
  split_ifs at h with huc hok
  · cases h
    rfl
  · exact absurd (congrArg Prod.fst (Except.ok.inj h)) hok

/-- **The loop of `sy_handle_response`**. -/
theorem responseLoop_served {k : ℕ}
    (hk : Sends n (toSize s.r.resourceLen) (fileSent (current s.log)) e.files)
    (h : responseLoop e k s = .ok (rc, s')) : ReflTransGen (ServeStep cfg n) s s' := by
  induction k generalizing s with
  | zero =>
      cases h
      exact .refl
  | succ k ih =>
      obtain ⟨⟨err, s₁⟩, h1, h2⟩ := bind_ok h
      dsimp only at h2
      cases hout : s.r.outHandler <;> rw [hout] at h1
      case buffer =>
          have hbuffer : sendResponseBuffer e s = (err, s₁) := Except.ok.inj h1
          have hstep : ServeStep cfg n s s₁ := .buffer hbuffer
          obtain ⟨hlen, hsent⟩ := sendResponseBuffer_kept hbuffer
          split_ifs at h2
          · exact .head hstep (ih (by rwa [hlen, hsent]) h2)
          · cases h2
            exact .single hstep
      case file =>
          have hstep : ServeStep cfg n s s₁ := .file hk h1
          split_ifs at h2 with hgo
          · obtain ⟨rfl, hd⟩ := hgo
            rw [sendResponseFile_done h1] at hd
            cases hd
          · cases h2
            exact .single hstep

/-! ### The two lengths -/

/-- **The framing of a file.**  In every run from the opening of a file of `n` bytes to the end of its
response, the head that was put announces `n`, and `n` bytes of the file were sent, exactly when `n` is
below `2 ^ 31`. -/
theorem staticFile_iff {fd : ℕ} {s₁ s₂ : Session} {t : List UInt8} (hb : Unbegun s)
    (hopen : requestHandleUri cfg e s = .ok (rc, s₁)) (hfile : fileOpened cfg e s.r = some (fd, (n : ℤ)))
    (hrun : ReflTransGen (ServeStep cfg n) s₁ s₂) (ht : .built t ∈ current s₂.log)
    (hdone : s₂.r.responseDone = true) :
    (Announces t n ∧ fileSent (current s₂.log) = n) ↔ n < 2 ^ 31 := by
  have hs := serving_run (requestHandleUri_serving hb hfile hopen) hrun
  have hann := hs.built t ht
  constructor
  · rintro ⟨hn, -⟩
    have heq := Announces.unique hn hann
    have hrange := (wrap32_range n).2
    omega
  · intro hn
    rw [wrap32_of_lt (by omega) (by omega)] at hann
    exact ⟨hann, hs.done hdone hn⟩

end serving

instance instDecidableSends (n count : ℕ) : (pos : ℕ) → (rs : List FileResult) → Decidable (Sends n count pos rs)
  | _, [] => .isTrue trivial
  | _, .eagain :: _ => .isTrue trivial
  | _, .err :: _ => .isTrue trivial
  | pos, .sent k :: rs =>
      let _ := instDecidableSends n count (pos + k) rs
      inferInstanceAs (Decidable (if k = 0 then pos = n ∨ count = 0
        else k ≤ count ∧ pos + k ≤ n ∧ Sends n count (pos + k) rs))

/-- A request behind its line, whose handlers do not wait: behind the opening of the file, with its head
put, and with its response sent. -/
def servedAtOnce (cfg : Config) (e : Env) (s : Session) : Option (Session × Session × Session) :=
  match requestHandleUri cfg e s with
  | .ok (.ok, s₁) =>
      match requestHandleHeaders cfg e s₁ with
      | .ok (_, s₂) =>
          match requestHandleBody e s₂ with
          | .ok (_, s₃) =>
              match responseLoop e 2 s₃ with
              | .ok (_, s₄) => some (s₁, s₃, s₄)
              | _ => none
          | _ => none
      | _ => none
  | _ => none

theorem servedAtOnce_run {cfg : Config} {e : Env} {n : ℕ} {s s₁ s₂ s₃ : Session}
    (h : servedAtOnce cfg e s = some (s₁, s₂, s₃))
    (hk : Sends n (toSize s₂.r.resourceLen) (fileSent (current s₂.log)) e.files) :
    requestHandleUri cfg e s = .ok (.ok, s₁) ∧ ReflTransGen (ServeStep cfg n) s₁ s₃ := by
  unfold servedAtOnce at h
  split at h
  · rename_i huri
    split at h
    · rename_i hheaders
      split at h
      · rename_i hbody
        split at h
        · rename_i hresponse
          cases h
          exact ⟨huri, .head (.headers hheaders) (.head (.body hbody) (responseLoop_served hk hresponse))⟩
        · cases h
      · cases h
    · cases h
  · cases h

/-- The configuration of a worker that serves files only. -/
def fileConfig : Config := contractConfig 60 [⟨false, bytes "/"⟩]

/-- A kernel that takes a head at once. -/
def fileEnv (n : ℕ) (files : List FileResult) : Env :=
  { idleEnv with sends := [.sent BUF_SIZE], files := files, resource := fun _ => .file 9 n }

/-- A request behind its line. -/
def rootSession : Session :=
  let s := freshSession (bytes "GET /i.html HTTP/1.1\r\n\r\n")
  { s with r := { (lineParsed s.r).getD s.r with inHandler := .headers } }

/-- A file that is found, with its head put and its response done. -/
theorem fileEnv_run (n : ℕ) (files : List FileResult)
    (hrun : (servedAtOnce fileConfig (fileEnv n files) rootSession).any fun (_, s₂, s₃) =>
      decide (Sends n (toSize s₂.r.resourceLen) (fileSent (current s₂.log)) files ∧
        Action.built s₂.r.sb.pending ∈ current s₃.log ∧ s₃.r.responseDone = true)) :
    ∃ s₁ s₂ t, requestHandleUri fileConfig (fileEnv n files) rootSession = .ok (.ok, s₁) ∧
      ReflTransGen (ServeStep fileConfig n) s₁ s₂ ∧ .built t ∈ current s₂.log ∧
        s₂.r.responseDone = true := by
  obtain ⟨⟨s₁, s₂, s₃⟩, hs, hend⟩ := exists_of_any hrun
  obtain ⟨hk, ht, hdone⟩ := of_decide_eq_true hend
  obtain ⟨huri, hserved⟩ := servedAtOnce_run hs hk
  exact ⟨s₁, s₃, _, huri, hserved, ht, hdone⟩

theorem rootSession_unbegun : Unbegun rootSession :=
  ⟨by decide +kernel, by decide +kernel, by decide +kernel⟩

/-- A file of five bytes. -/
theorem staticFile_iff_five :
    ∃ s₁ s₂ t, requestHandleUri fileConfig (fileEnv 5 [.sent 5, .sent 0]) rootSession = .ok (.ok, s₁) ∧
      ReflTransGen (ServeStep fileConfig 5) s₁ s₂ ∧ Announces t 5 ∧ fileSent (current s₂.log) = 5 := by
  obtain ⟨s₁, s₂, t, huri, hrun, ht, hdone⟩ := fileEnv_run 5 [.sent 5, .sent 0] (by decide +kernel)
  have hfile : fileOpened fileConfig (fileEnv 5 [.sent 5, .sent 0]) rootSession.r = some (9, ((5 : ℕ) : ℤ)) := by
    decide +kernel
  obtain ⟨hann, hsent⟩ := (staticFile_iff rootSession_unbegun huri hfile hrun ht hdone).mpr (by decide)
  exact ⟨s₁, s₂, t, huri, hrun, hann, hsent⟩

/-- A file of `2 ^ 32` bytes is announced as empty. -/
theorem hugeFile_empty :
    ¬ ∀ (cfg : Config) (e : Env) (n fd : ℕ) (rc : Rc) (s s₁ s₂ : Session) (t : List UInt8), Unbegun s →
      requestHandleUri cfg e s = .ok (rc, s₁) → fileOpened cfg e s.r = some (fd, (n : ℤ)) →
        ReflTransGen (ServeStep cfg n) s₁ s₂ → .built t ∈ current s₂.log → s₂.r.responseDone = true →
          Announces t n ∧ fileSent (current s₂.log) = n := by
  intro hall
  obtain ⟨s₁, s₂, t, huri, hrun, ht, hdone⟩ := fileEnv_run (2 ^ 32) [.sent 0] (by decide +kernel)
  have hfile : fileOpened fileConfig (fileEnv (2 ^ 32) [.sent 0]) rootSession.r =
      some (9, ((2 ^ 32 : ℕ) : ℤ)) := by decide +kernel
  obtain ⟨hann, -⟩ := hall _ _ _ _ _ _ _ _ t rootSession_unbegun huri hfile hrun ht hdone
  have hs := serving_run (requestHandleUri_serving rootSession_unbegun hfile huri) hrun
  have heq := Announces.unique hann (hs.built t ht)
  exact absurd heq (by decide)

end SyServer
