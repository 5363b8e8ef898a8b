import SyServer.Downstream
import SyServer.Isolation
import SyServer.StaticFile

/-! # A response is finished

Once a request that is answered by the worker itself has its response, nothing else happens on its
connection: it waits for `EPOLLOUT`, and `sy_handle_response` sends what is in `sb` and then the file.
`owed` counts what is left: the bytes of `sb`, the change of `out_handler`, and the bytes of the file.
An `EPOLLOUT` at which the socket takes something brings it down, whatever the worker does for other
connections in between, so the response is finished behind `owed` such events.

* `Writable`: what the kernel answers then.
* `responseLoop_owing`: one call of `sy_handle_response`.
* `response_finishes`: runs of the worker. -/

namespace SyServer

open Transition (Reach Along exec party ranked_exec along_true exists_of_any)

/-! ### What the client is owed -/

/-- A response of the worker itself is on its way, with a file of `n` bytes behind `sb`, or none. -/
structure Owing (n : ℕ) (s : Session) : Prop where
  evIn : s.c.evIn = false
  evOut : s.c.evOut = true
  uc : s.r.uc = none
  unfinished : s.r.responseDone = false
  bare : s.r.resourceFd = none → n = 0 ∧ s.r.outHandler = .buffer
  size : s.r.resourceFd ≠ none → toSize s.r.resourceLen = n
  le : fileSent (current s.log) ≤ n
  handed : s.r.outHandler = .file → s.r.sb.pending = []

/-- What is left to do. -/
def owed (n : ℕ) (s : Session) : ℕ :=
  s.r.sb.pending.length + (if s.r.outHandler = .buffer then 1 else 0) + (n - fileSent (current s.log))

/-- What the kernel answers to a call that follows an `EPOLLOUT`: what is sent first is taken at least
in part, and nothing fails.  The file has `n` bytes. -/
structure Writable (n : ℕ) (e : Env) (s : Session) : Prop where
  sends : .err ∉ e.sends
  buffer : s.r.sb.pending ≠ [] → ∃ k rest, e.sends = .sent (k + 1) :: rest
  files : .err ∉ e.files
  file : s.r.outHandler = .file → ∃ k rest, e.files = .sent k :: rest
  rest : Sends n n (fileSent (current s.log)) e.files

instance (n : ℕ) (s : Session) : Decidable (Owing n s) :=
  decidable_of_iff (s.c.evIn = false ∧ s.c.evOut = true ∧ s.r.uc = none ∧ s.r.responseDone = false ∧
      (s.r.resourceFd = none → n = 0 ∧ s.r.outHandler = .buffer) ∧
      (s.r.resourceFd ≠ none → toSize s.r.resourceLen = n) ∧ fileSent (current s.log) ≤ n ∧
      (s.r.outHandler = .file → s.r.sb.pending = []))
    ⟨fun ⟨h1, h2, h3, h4, h5, h6, h7, h8⟩ => ⟨h1, h2, h3, h4, h5, h6, h7, h8⟩,
      fun ⟨h1, h2, h3, h4, h5, h6, h7, h8⟩ => ⟨h1, h2, h3, h4, h5, h6, h7, h8⟩⟩

instance (rs : List SendResult) : Decidable (∃ k rest, rs = .sent (k + 1) :: rest) :=
  match rs with
  | .sent (k + 1) :: rest => .isTrue ⟨k, rest, rfl⟩
  | [] | .sent 0 :: _ | .eagain :: _ | .err :: _ => .isFalse fun ⟨_, _, h⟩ => by cases h

instance (rs : List FileResult) : Decidable (∃ k rest, rs = .sent k :: rest) :=
  match rs with
  | .sent k :: rest => .isTrue ⟨k, rest, rfl⟩
  | [] | .eagain :: _ | .err :: _ => .isFalse fun ⟨_, _, h⟩ => by cases h

instance (n : ℕ) (e : Env) (s : Session) : Decidable (Writable n e s) :=
  decidable_of_iff (.err ∉ e.sends ∧ (s.r.sb.pending ≠ [] → ∃ k rest, e.sends = .sent (k + 1) :: rest) ∧
      .err ∉ e.files ∧ (s.r.outHandler = .file → ∃ k rest, e.files = .sent k :: rest) ∧
      Sends n n (fileSent (current s.log)) e.files)
    ⟨fun ⟨h1, h2, h3, h4, h5⟩ => ⟨h1, h2, h3, h4, h5⟩, fun ⟨h1, h2, h3, h4, h5⟩ => ⟨h1, h2, h3, h4, h5⟩⟩

/-- The response is finished: all of `sb` and the `n` bytes of the file were sent. -/
structure Delivered (n : ℕ) (s : Session) : Prop where
  done : s.r.responseDone = true
  pending : s.r.sb.pending = []
  file : fileSent (current s.log) = n

section response

variable {n : ℕ} {e : Env} {s s' : Session}

/-! ### The calls of `send` and `sendfile` -/

theorem send_again {rs : List SendResult} {b : Buffer} (hb : b.begin ≤ b.end_) (herr : .err ∉ rs) :
    (Buffer.send rs b).1 ≠ .error := by
  induction rs generalizing b with
  | nil =>
      unfold Buffer.send
      split_ifs <;> simp
  | cons r rs ih =>
      rw [List.mem_cons, not_or] at herr
      unfold Buffer.send
      split_ifs with hsize
      · simp
      · cases r with
        | eagain => simp
        | err => exact absurd rfl herr.1
        | sent k =>
            refine ih (b := { b with begin := b.begin + min k b.size }) ?_ herr.2
            unfold Buffer.size
            dsimp only
            omega

/-- The first call takes a byte. -/
theorem send_takes {rs : List SendResult} {b : Buffer} {k : ℕ} (hs : b.pending ≠ []) :
    (Buffer.send (.sent (k + 1) :: rs) b).2.2 ≠ [] := by
  have hsize : b.size ≠ 0 := by
    rw [← Buffer.length_pending]
    exact fun hlen => hs (List.eq_nil_of_length_eq_zero hlen)
  unfold Buffer.send
  rw [if_neg hsize]
  dsimp only
  intro hnil
  have hlen := congrArg List.length (List.append_eq_nil_iff.mp hnil).1
  rw [Buffer.length_slice, List.length_nil] at hlen
  omega

theorem sendfileLoop_again {rs : List FileResult} (herr : .err ∉ rs) (hok : (sendfileLoop rs).1 ≠ .ok) :
    (sendfileLoop rs).1 = .again := by
  induction rs with
  | nil => rfl
  | cons r rs ih =>
      rw [List.mem_cons, not_or] at herr
      cases r with
      | eagain => rfl
      | err => exact absurd rfl herr.1
      | sent k =>
          unfold sendfileLoop at hok ⊢
          split_ifs at hok ⊢ with hk
          · exact absurd rfl hok
          · exact ih herr.2 hok

/-- The first call takes a byte, or is at the end of the file. -/
theorem sendfileLoop_takes {rs : List FileResult} {k : ℕ} (h : (sendfileLoop (.sent k :: rs)).1 ≠ .ok) :
    0 < (sendfileLoop (.sent k :: rs)).2 := by
  unfold sendfileLoop at h ⊢
  split_ifs at h ⊢ with hk
  · exact absurd rfl h
  · dsimp only
    omega

/-! ### The two handlers -/

/-- All of `sb` is sent: the file is next, or nothing. -/
theorem responseBufferSent_owing (h : Owing n s) (hout : s.r.outHandler = .buffer)
    (hnil : s.r.sb.pending = []) :
    ∃ s', responseBufferSent s = (.ok, s') ∧ sentOut s'.log = sentOut s.log ∧ s'.r.sb.pending = [] ∧
      (Delivered n s' ∨ Owing n s' ∧ 1 + owed n s' ≤ owed n s ∧
        fileSent (current s'.log) = fileSent (current s.log) ∧ s'.r.outHandler = .file) := by
  unfold responseBufferSent
  rw [if_neg (not_not.mpr h.uc)]
  by_cases hfd : s.r.resourceFd = none
  · rw [if_neg (not_not.mpr hfd)]
    have hle := h.le
    refine ⟨_, rfl, rfl, hnil, .inl ⟨rfl, hnil, ?_⟩⟩
    show fileSent (current s.log) = n
    rw [(h.bare hfd).1] at hle ⊢
    exact Nat.eq_zero_of_le_zero hle
  · rw [if_pos hfd]
    have howing : Owing n { s with r := { s.r with outHandler := .file } } := { h with
      bare := fun h1 => absurd h1 hfd
      handed := fun _ => hnil }
    refine ⟨_, rfl, rfl, hnil, .inr ⟨howing, ?_, rfl, rfl⟩⟩
    unfold owed
    rw [if_pos hout, if_neg (by simp)]
    dsimp only
    omega

/-- What a call of `sy_send_response_buffer` leaves. -/
theorem sendResponseBuffer_owing (hb : s.r.sb.begin ≤ s.r.sb.end_) (h : Owing n s)
    (hout : s.r.outHandler = .buffer) (herr : .err ∉ e.sends)
    (htake : s.r.sb.pending ≠ [] → ∃ k rest, e.sends = .sent (k + 1) :: rest) :
    ∃ rc s', sendResponseBuffer e s = (rc, s') ∧
      sentOut s'.log ++ s'.r.sb.pending = sentOut s.log ++ s.r.sb.pending ∧
      (Delivered n s' ∨ Owing n s' ∧ 1 + owed n s' ≤ owed n s ∧
        fileSent (current s'.log) = fileSent (current s.log) ∧ (rc = .ok → s'.r.outHandler = .file)) := by
  obtain ⟨rc, k, hk, hsend, hrc⟩ := Buffer.send_spec e.sends s.r.sb hb
  have hagain := send_again hb herr
  rw [hsend] at hagain
  unfold sendResponseBuffer
  rw [hsend]
  rcases hrc with ⟨rfl, hend⟩ | ⟨hrc, hlt⟩
  · -- all of `sb`
    dsimp only
    rw [if_pos rfl, if_pos rfl, hend]
    have hsent : Owing n ({ s with r := { s.r with sb := s.r.sb.clear } }.note
        (.delivered (.buffer s.r.sb.pending))) := { h with
      handed := fun _ => Buffer.slice_self _ _ }
    obtain ⟨s', hrun, hstream, hnil, hcases⟩ := responseBufferSent_owing hsent hout (Buffer.slice_self _ _)
    refine ⟨.ok, s', hrun, ?_, hcases.imp_right fun ⟨howing, hle, hfile, hnext⟩ =>
      ⟨howing, hle.trans ?_, hfile, fun _ => hnext⟩⟩
    · rw [hnil, hstream, List.append_nil]
      rfl
    · have hzero : s.r.sb.clear.pending.length = 0 := congrArg List.length (Buffer.slice_self _ _)
      show s.r.sb.clear.pending.length + (if s.r.outHandler = .buffer then 1 else 0) +
        (n - fileSent (current s.log)) ≤ owed n s
      unfold owed
      omega
  · -- a part of it
    have hrc : rc = .again := hrc.resolve_right hagain
    have hlen : (s.r.sb.slice (s.r.sb.begin + k) s.r.sb.end_).length + k = s.r.sb.pending.length := by
      rw [Buffer.length_slice, Buffer.length_pending, Buffer.size]
      omega
    have hpos : 0 < k := by
      have hne : s.r.sb.pending ≠ [] := by
        intro hnil
        rw [hnil, Buffer.length_slice, List.length_nil] at hlen
        omega
      obtain ⟨j, rest, he⟩ := htake hne
      have htook : (Buffer.send (.sent (j + 1) :: rest) s.r.sb).2.2 ≠ [] := send_takes hne
      rw [← he, hsend] at htook
      refine Nat.pos_of_ne_zero fun hzero => htook ?_
      rw [hzero]
      exact Buffer.slice_self _ _
    dsimp only
    subst hrc
    rw [if_neg (by simp), if_neg (by simp), if_neg (by simp)]
    refine ⟨_, _, rfl, ?_, .inr ⟨{ h with handed := ?_ }, ?_, rfl, fun h1 => by cases h1⟩⟩
    · show (sentOut s.log ++ _) ++ s.r.sb.slice (s.r.sb.begin + k) s.r.sb.end_ = _
      rw [List.append_assoc, Buffer.slice_append _ (Nat.le_add_right _ _) hk]
      rfl
    · exact fun h1 => absurd (hout.symm.trans h1) (by simp)
    · unfold owed
      show 1 + ((s.r.sb.slice (s.r.sb.begin + k) s.r.sb.end_).length +
        (if s.r.outHandler = .buffer then 1 else 0) + (n - fileSent (current s.log))) ≤ _
      omega

/-- What a call of `sy_send_response_file` leaves. -/
theorem sendResponseFile_owing (h : Owing n s) (hout : s.r.outHandler = .file) (herr : .err ∉ e.files)
    (hrest : Sends n n (fileSent (current s.log)) e.files) :
    ∃ rc s', sendResponseFile e s = .ok (rc, s') ∧
      sentOut s'.log ++ s'.r.sb.pending = sentOut s.log ++ s.r.sb.pending ∧
      (Delivered n s' ∨ rc = .again ∧ Owing n s' ∧ owed n s' ≤ owed n s ∧
        ((∃ k rest, e.files = .sent k :: rest) → 1 + owed n s' ≤ owed n s)) := by
  obtain ⟨hle, hend⟩ := sendfileLoop_sends hrest h.le
  have hagain := sendfileLoop_again herr
  have htakes : (∃ k rest, e.files = .sent k :: rest) → (sendfileLoop e.files).1 ≠ .ok →
      0 < (sendfileLoop e.files).2 := by
    rintro ⟨k, rest, he⟩ hok
    rw [he] at hok ⊢
    exact sendfileLoop_takes hok
  obtain ⟨rc, m, hloop⟩ : ∃ rc m, sendfileLoop e.files = (rc, m) := ⟨_, _, rfl⟩
  rw [hloop] at hle hend hagain htakes
  unfold sendResponseFile
  rw [if_neg (not_not.mpr h.uc), hloop]
  dsimp only at hle hend hagain htakes ⊢
  by_cases hok : rc = .ok
  · rw [if_pos hok]
    refine ⟨_, _, rfl, rfl, .inl ⟨rfl, h.handed hout, ?_⟩⟩
    show fileSent (current s.log) + m = n
    rcases hend hok with hall | hzero
    · exact hall
    · omega
  · rw [if_neg hok]
    have howed : owed n (s.note (.delivered (.file m))) + m = owed n s := by
      show s.r.sb.pending.length + (if s.r.outHandler = .buffer then 1 else 0) +
        (n - (fileSent (current s.log) + m)) + m = owed n s
      unfold owed
      omega
    refine ⟨rc, _, rfl, rfl, .inr ⟨hagain hok, { h with le := hle }, ?_, fun hfirst => ?_⟩⟩
    · omega
    · have htook := htakes hfirst hok
      omega

/-! ### The loop -/

/-- The loop ends behind a call. -/
theorem responseLoop_stop {rc : Rc} (k : ℕ) (hrun : s.r.outHandler.run e s = .ok (rc, s'))
    (hstop : ¬ (rc = .ok ∧ s'.r.responseDone = false)) : responseLoop e (k + 1) s = .ok (rc, s') := by
  unfold responseLoop
  rw [hrun]
  exact if_neg hstop

/-- A round with the file. -/
theorem responseLoop_file (k : ℕ) (h : Owing n s) (hout : s.r.outHandler = .file) (herr : .err ∉ e.files)
    (hrest : Sends n n (fileSent (current s.log)) e.files) :
    ∃ rc s', responseLoop e (k + 1) s = .ok (rc, s') ∧
      sentOut s'.log ++ s'.r.sb.pending = sentOut s.log ++ s.r.sb.pending ∧
      (Delivered n s' ∨ Owing n s' ∧ owed n s' ≤ owed n s ∧
        ((∃ k rest, e.files = .sent k :: rest) → 1 + owed n s' ≤ owed n s)) := by
  obtain ⟨rc, s', hfile, hstream, hcases⟩ := sendResponseFile_owing h hout herr hrest
  have hrun : s.r.outHandler.run e s = .ok (rc, s') := by
    rw [hout]
    exact hfile
  refine ⟨rc, s', responseLoop_stop k hrun ?_, hstream, hcases.imp_right And.right⟩
  rintro ⟨hok, hopen⟩
  rcases hcases with hall | ⟨hagain, -⟩
  · exact absurd (hall.done.symm.trans hopen) (by simp)
  · exact absurd (hagain.symm.trans hok) (by simp)

/-- **One call of `sy_handle_response`** finishes the response, or brings down what is left. -/
theorem responseLoop_owing (hb : s.r.sb.begin ≤ s.r.sb.end_) (h : Owing n s) (hw : Writable n e s) :
    ∃ rc s', responseLoop e 2 s = .ok (rc, s') ∧
      sentOut s'.log ++ s'.r.sb.pending = sentOut s.log ++ s.r.sb.pending ∧
      (Delivered n s' ∨ Owing n s' ∧ 1 + owed n s' ≤ owed n s) := by
  cases hout : s.r.outHandler with
  | file =>
      obtain ⟨rc, s', hrun, hstream, hcases⟩ := responseLoop_file 1 h hout hw.files hw.rest
      exact ⟨rc, s', hrun, hstream, hcases.imp_right fun hc => ⟨hc.1, hc.2.2 (hw.file hout)⟩⟩
  | buffer =>
      obtain ⟨rc, s₁, hbuffer, hstream, hcases⟩ := sendResponseBuffer_owing hb h hout hw.sends hw.buffer
      have hrun : s.r.outHandler.run e s = .ok (rc, s₁) := by
        rw [hout]
        exact congrArg Except.ok hbuffer
      by_cases hgo : rc = .ok ∧ s₁.r.responseDone = false
      · rcases hcases with hall | ⟨howing, hle, hsent, hnext⟩
        · exact absurd (hall.done.symm.trans hgo.2) (by simp)
        · obtain ⟨rc', s', hrun', hstream', hcases'⟩ :=
            responseLoop_file 0 howing (hnext hgo.1) hw.files (by rw [hsent]; exact hw.rest)
          refine ⟨rc', s', ?_, hstream'.trans hstream, hcases'.imp_right fun hc => ⟨hc.1, ?_⟩⟩
          · unfold responseLoop
            rw [hrun]
            exact (if_pos hgo).trans hrun'
          · have hrest := hc.2.1
            omega
      · exact ⟨rc, s₁, responseLoop_stop 1 hrun hgo, hstream, hcases.imp_right fun hc => ⟨hc.1, hc.2.1⟩⟩

/-- So the handler answers, and the session goes on. -/
theorem handleResponse_owing {rc : Rc} (hrun : responseLoop e 2 s = .ok (rc, s')) (h : Owing n s') :
    handleResponse e s = .ok (rc, s') := by
  unfold handleResponse
  rw [hrun]
  exact if_neg (by simp [h.unfinished])

end response

/-! ### Runs of the worker -/

/-- Only a poll makes an `EPOLLIN` pending. -/
theorem View.step_pend {cfg : Config} {w w' : View} {ev : SessionEvent} (h : w.step cfg ev = some w')
    (hpoll : ∀ p, ev ≠ .poll p) (hw : w.pend = false) : w'.pend = false := by
  cases ev with
  | poll p => exact absurd rfl (hpoll p)
  | share g =>
      cases h
      exact hw
  | request | close =>
      obtain ⟨-, h⟩ := Option.ite_none_right_eq_some.mp h
      cases h
      rfl
  | _ =>
      obtain ⟨-, h⟩ := Option.ite_none_right_eq_some.mp h
      cases h
      exact hw

namespace Server

section steps

variable {cfg : Config} {v v' : Server} {l : Label} {b : ConnAddr} {ev : SessionEvent} {n : ℕ}

/-- A response of the worker itself is on its way to the front connection `b`. -/
def Owes (n : ℕ) (b : ConnAddr) (v : Server) : Prop := (v.view b).pend = false ∧ Owing n (v.view b).s

instance (n : ℕ) (b : ConnAddr) (v : Server) : Decidable (v.Owes n b) :=
  inferInstanceAs (Decidable (_ ∧ _))

instance (o : Option SessionEvent) (P : Env → Prop) [∀ e, Decidable (P e)] :
    Decidable (∀ e, o = some (.response e) → P e) :=
  match o with
  | some (.response e) => decidable_of_iff (P e) ⟨fun h _ he => by cases he; exact h, fun h => h e rfl⟩
  | none | some (.request _) | some (.upstream _) | some (.pass _) | some (.poll _) | some (.share _)
  | some .close => .isTrue fun _ h => by cases h

/-- An event of a session is a call of a handler, or the end of its upstream connection. -/
theorem event_own (hev : v.event cfg l = some (b, ev)) :
    (∀ p, ev ≠ .poll p) ∧ ∀ g, ev ≠ .share g := by
  unfold event at hev
  cases hruns : v.runs cfg l with
  | some x =>
      obtain ⟨a, isIn, e⟩ := x
      rw [hruns] at hev
      cases hev
      exact eventOf_own isIn e (v.conns a).side
  | none =>
      rw [hruns] at hev
      obtain ⟨a, -, he⟩ := Option.map_eq_some_iff.mp hev
      cases he
      simp

/-- Without `EVENTS_IN` no `EPOLLIN` is reported. -/
theorem step_unpolled (hs : v.Sound) (hstep : v.step cfg l = some v') (hb' : v'.Front b)
    (hpend : (v.view b).pend = false) (hin : (v'.view b).s.c.evIn = false) : (v'.view b).pend = false := by
  rcases (step_sessions hs hstep).sessions b hb' with ⟨-, w₁, p, g, hown, hp, heq⟩ | hinit
  · have hw₁ : w₁.pend = false := by
      rcases hown with rfl | ⟨ev, hev, hw⟩
      · exact hpend
      · exact View.step_pend hw (event_own hev).1 hpend
    rw [heq] at hin ⊢
    rcases hp with hp | hp
    · exact hp.trans hw₁
    · exact Bool.eq_false_of_not_eq_true fun h => absurd ((hp h).symm.trans hin) (by simp)
  · exact hinit.pend

/-- While a response is on its way, the only event of the session is the next call for it. -/
theorem step_response (hs : v.Sound) (hstep : v.step cfg l = some v') (h : v.Owes n b)
    (hev : v.ownEvent cfg b l = some ev) : ∃ e, ev = .response e := by
  have hev := ownEvent_eq.mp hev
  obtain ⟨w, hw, -, -⟩ := step_event hs hstep hev
  cases ev with
  | poll p => exact absurd rfl ((event_own hev).1 p)
  | share g => exact absurd rfl ((event_own hev).2 g)
  | response e => exact ⟨e, rfl⟩
  | request e =>
      obtain ⟨hpend, -⟩ := Option.ite_none_right_eq_some.mp hw
      exact absurd (h.1.symm.trans hpend) (by simp)
  | upstream e =>
      obtain ⟨huc, -⟩ := Option.ite_none_right_eq_some.mp hw
      exact absurd h.2.uc huc
  | pass e =>
      obtain ⟨⟨huc, -⟩, -⟩ := Option.ite_none_right_eq_some.mp hw
      exact absurd h.2.uc huc
  | close =>
      obtain ⟨⟨-, huc⟩, -⟩ := Option.ite_none_right_eq_some.mp hw
      exact absurd h.2.uc huc

/-- The call at which the response to `b` is finished, with all the bytes `d` for the client sent. -/
def Finishing (cfg : Config) (n : ℕ) (b : ConnAddr) (d : List UInt8) (v : Server) (l : Label) : Prop :=
  ∃ e rc s, v.ownEvent cfg b l = some (.response e) ∧ responseLoop e 2 (v.view b).s = .ok (rc, s) ∧
    Delivered n s ∧ sentOut s.log = d

/-- **A step of the worker** finishes the response, or brings down what is left if it is a call for it,
and leaves it if not. -/
theorem step_owing {d : List UInt8} (hs : v.Sound) (hstep : v.step cfg l = some v') (hb : v.Front b)
    (hb' : v'.Front b) (h : v.Owes n b)
    (hd : sentOut (v.view b).s.log ++ (v.view b).s.r.sb.pending = d)
    (hw : ∀ e, v.ownEvent cfg b l = some (.response e) → Writable n e (v.view b).s) :
    Finishing cfg n b d v l ∨
      (v'.Owes n b ∧ sentOut (v'.view b).s.log ++ (v'.view b).s.r.sb.pending = d) ∧
        (v.ownEvent cfg b l).toList.length + owed n (v'.view b).s ≤ owed n (v.view b).s := by
  cases hown : v.ownEvent cfg b l with
  | none =>
      have haside := step_aside hs hstep hb hb' fun ev hev => by
        rw [ownEvent_eq.mpr hev] at hown
        cases hown
      have hsession : (v'.view b).s = (v.view b).s.share v'.g := by
        show v'.session (v'.conns b).r = _
        rw [haside.conns, haside.session]
        rfl
      have howing : Owing n (v'.view b).s := by
        rw [hsession]
        exact { h.2 with }
      refine .inr ⟨⟨⟨step_unpolled hs hstep hb' h.1 howing.evIn, howing⟩, ?_⟩, ?_⟩
      · rw [hsession]
        exact hd
      · rw [hsession]
        exact (Nat.zero_add _).le
  | some ev =>
      obtain ⟨e, rfl⟩ := step_response hs hstep h hown
      obtain ⟨rc, s, hrun, hstream, hcases⟩ := responseLoop_owing (hs.base b hb).sb h.2 (hw e hown)
      rcases hcases with hall | ⟨howing, hle⟩
      · refine .inl ⟨e, rc, s, hown, hrun, hall, ?_⟩
        rw [hall.pending, List.append_nil] at hstream
        exact hstream.trans hd
      · have hact : (v.view b).s.act cfg (.response e) = s := by
          show (settle _ (handleResponse e _)).2 = s
          rw [handleResponse_owing hrun howing]
          rfl
        have hsession : (v'.view b).s = s.share v'.g := by
          rw [← hact]
          exact step_own hs hstep (ownEvent_eq.mp hown)
        have howing' : Owing n (v'.view b).s := by
          rw [hsession]
          exact { howing with }
        refine .inr ⟨⟨⟨step_unpolled hs hstep hb' h.1 howing'.evIn, howing'⟩, ?_⟩, ?_⟩
        · rw [hsession]
          exact hstream.trans hd
        · rw [hsession]
          exact hle

end steps

section runs

variable {cfg : Config} {v v' : Server} {b : ConnAddr} {n : ℕ} {ls : List Label}

/-- The connection is open at the start of such a run. -/
theorem OpenRun.first (h : OpenRun cfg b v ls v') : v.Front b := by
  cases ls with
  | nil =>
      cases h.run
      exact h.last
  | cons l ls => exact h.along.1

/-- **A response is finished.**  A worker owes the client of `b` a response, with a file of `n` bytes or
none, and serves its connections in any order while `b` stays open.  If each `EPOLLOUT` of `b` lets
something through, then either there is a call at which all that was put into `sb` and all of the file
has been sent, or there were at most as many of these events as bytes were left, and one more for the
file. -/
theorem response_finishes {good : Server → Label → Prop} (h : Reached cfg good v)
    (hopen : OpenRun cfg b v ls v') (howes : v.Owes n b)
    (hkernel : Along (step cfg) (fun w l =>
      ∀ e, w.ownEvent cfg b l = some (.response e) → Writable n e (w.view b).s) v ls) :
    (∃ ls₁ l ls₂ w, ls = ls₁ ++ l :: ls₂ ∧ exec (step cfg) v ls₁ = some w ∧
        Finishing cfg n b (placed (v.view b).s.log) w l) ∨
      v'.Owes n b ∧
        (party (step cfg) (ownEvent cfg b) v ls).length + owed n (v'.view b).s ≤ owed n (v.view b).s := by
  have hstream := (Server.Reached.downstream h hopen.first).2.stream
  have hgood := hopen.both.and hkernel
  have hruns := ranked_exec (ownEvent cfg b)
    (fun w => w.Sound ∧ w.Owes n b ∧
      sentOut (w.view b).s.log ++ (w.view b).s.r.sb.pending = placed (v.view b).s.log)
    (fun w => owed n (w.view b).s) (Finishing cfg n b (placed (v.view b).s.log))
    (fun w l w' hw hi hstep => ?_) hgood ⟨h.sound, howes, hstream⟩ hopen.run
  · exact hruns.imp_right fun hend => ⟨hend.1.2.1, hend.2⟩
  · obtain ⟨⟨hf, hf'⟩, hkernel⟩ := hw
    obtain ⟨hs, howes, hd⟩ := hi
    refine (step_owing hs hstep hf (hf' w' hstep) howes hd hkernel).imp_right fun hnext => ?_
    exact ⟨⟨hs.step hstep, hnext.1⟩, hnext.2⟩

/-- A request for a file of five bytes has been read. -/
def fileAsked : List Label :=
  opened ++ single 0 0 true
    { idleEnv with recvs := [.got (bytes "GET /i.html HTTP/1.1\r\n\r\n")], resource := fun _ => .file 9 5 }

/-- The response is sent in three pieces, between which another connection is accepted. -/
def filePieces : List Label :=
  single 0 0 false { idleEnv with sends := [.sent 20] } ++
  round 0 [.listener] [.accept ⟨6, true, 0⟩, .accepted] ++
  single 0 0 false { idleEnv with sends := [.sent 2048], files := [.sent 3] } ++
  single 0 0 false { idleEnv with files := [.sent 2, .sent 0] }

theorem response_finishes_pieces : ∃ v v',
    exec (step (serverConfig 60 [⟨false, bytes "/"⟩])) boot fileAsked = some v ∧
      exec (step (serverConfig 60 [⟨false, bytes "/"⟩])) v filePieces = some v' ∧
      ∃ ls₁ l ls₂ w, filePieces = ls₁ ++ l :: ls₂ ∧
        exec (step (serverConfig 60 [⟨false, bytes "/"⟩])) v ls₁ = some w ∧
        Finishing (serverConfig 60 [⟨false, bytes "/"⟩]) 5 0 (placed (v.view 0).s.log) w l := by
  have hrun : (exec (step (serverConfig 60 [⟨false, bytes "/"⟩])) boot fileAsked).any (fun v =>
      decide (v.Owes 5 0) &&
      (exec (step (serverConfig 60 [⟨false, bytes "/"⟩])) v filePieces).any fun v' =>
        decide (Along (step (serverConfig 60 [⟨false, bytes "/"⟩])) (fun w _ => w.Front 0) v filePieces ∧
          Along (step (serverConfig 60 [⟨false, bytes "/"⟩])) (fun w l =>
            ∀ e, w.ownEvent (serverConfig 60 [⟨false, bytes "/"⟩]) 0 l = some (.response e) →
              Writable 5 e (w.view 0).s) v filePieces ∧
          v'.Front 0 ∧ (v'.view 0).s.c.evOut = false)) = true := by
    decide +kernel
  obtain ⟨v, hv, hv'⟩ := exists_of_any hrun
  rw [Bool.and_eq_true] at hv'
  obtain ⟨v', hrun', hend⟩ := exists_of_any hv'.2
  obtain ⟨halong, hkernel, hfront, hout⟩ := of_decide_eq_true hend
  have hreach := Reach.exec (.start boot_init) (along_true _ _) hv
  refine ⟨v, v', hv, hrun', ?_⟩
  have hfinishes := response_finishes hreach ⟨hrun', halong, hfront⟩ (of_decide_eq_true hv'.1) hkernel
  rcases hfinishes with hdone | hopen
  · exact hdone
  · exact absurd (hopen.1.2.evOut.symm.trans hout) (by simp)

end runs

end Server

end SyServer
