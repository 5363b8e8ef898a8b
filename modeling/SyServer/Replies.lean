import SyServer.Alive
import SyServer.BodyPhase
import SyServer.Framed
import SyServer.Unmixed

/-! # Responses to local requests

What the client is sent for a request that is not proxied should be one response: a head, and as many
bytes behind it as its `Content-Length` says.  `sy_response_build_err` answers `OK`, so the header loop
goes on behind a page, and the file that the URI handler has opened stays with the request; so a
second page is put behind the first, and the file is sent behind a page.

`Framable` excludes this: at most one page is put among the headers, and none in front of a file; the
length of the file is an `int`; the date is that of the C locale, and `sendfile` sends the file to its
end.  A request is then `Unreplied`, or it is `Replied`: what is sent, what is in `sb` and the rest of
the file are one response.  This module is about the calls that send it. -/

namespace SyServer

/-! ### What the log says of the bytes sent -/

/-- The bytes of the file that were sent. -/
def fileSent : List Action → ℕ
  | [] => 0
  | .delivered (.file n) :: l => fileSent l + n
  | _ :: l => fileSent l

/-- A part of the file `f`. -/
def filePart (f : ℕ → UInt8) (i n : ℕ) : List UInt8 := (List.range n).map fun k => f (i + k)

/-- What the client was sent, of the file `f` among it. -/
def stream (f : ℕ → UInt8) : List Action → List UInt8
  | [] => []
  | .delivered (.buffer d) :: l => stream f l ++ d
  | .delivered (.file n) :: l => stream f l ++ filePart f (fileSent l) n
  | _ :: l => stream f l

/-- The responses put into `sb`. -/
def responses : List Action → ℕ
  | [] => 0
  | .built _ :: l => responses l + 1
  | .page _ _ :: l => responses l + 1
  | _ :: l => responses l

/-- A head, and as many bytes as it announces. -/
def OneResponse (bs : List UInt8) : Prop := ∃ n body, readResponse bs = some (n, body) ∧ body.length = n

/-- The response to a local request so far: nothing of the file follows a page, and the bytes sent
begin one response. -/
def Begun (l : List Action) : Prop :=
  .matched true ∉ l → responses l ≤ 1 ∧ (pages l ≠ [] → fileSent l = 0) ∧
    ∀ f, ∃ rest, OneResponse (stream f l ++ rest)

/-- The response to a local request as a whole. -/
def Complete (l : List Action) : Prop :=
  .matched true ∉ l → responses l = 1 ∧ (pages l ≠ [] → fileSent l = 0) ∧ ∀ f, OneResponse (stream f l)

/-- The requests that were answered and followed by another on the same connection. -/
def Finished : List Action → Prop
  | [] => True
  | .cleared _ :: l => Complete (current l) ∧ Finished l
  | _ :: l => Finished l

/-- An action of a local request whose response was not begun. -/
def Action.quiet : Action → Bool
  | received _ | called _ _ | headersEnd _ | matched false => true
  | _ => false

section log

variable {a : Action} {l : List Action} {f : ℕ → UInt8}

theorem filePart_append (f : ℕ → UInt8) (i m n : ℕ) :
    filePart f i m ++ filePart f (i + m) n = filePart f i (m + n) := by
  unfold filePart
  rw [List.range_add, List.map_append, List.map_map]
  simp [Function.comp_def, Nat.add_assoc]

@[simp] theorem filePart_length (f : ℕ → UInt8) (i n : ℕ) : (filePart f i n).length = n := by
  simp [filePart]

@[simp] theorem filePart_zero (f : ℕ → UInt8) (i : ℕ) : filePart f i 0 = [] := rfl

/-- Nothing was put into `sb` or sent, and no upstream was asked for. -/
theorem quiet_parts (h : ∀ a ∈ l, a.quiet = true) : .matched true ∉ l ∧ responses l = 0 ∧
    pages l = [] ∧ fileSent l = 0 ∧ ∀ f, stream f l = [] := by
  induction l with
  | nil => simp [responses, pages, fileSent, stream]
  | cons a l ih =>
      obtain ⟨ha, hl⟩ := List.forall_mem_cons.mp h
      obtain ⟨h1, h2, h3, h4, h5⟩ := ih hl
      cases a with
      | received | called | headersEnd => simp [responses, pages, fileSent, stream, h1, h2, h3, h4, h5]
      | matched b =>
          cases b with
          | false => simp [responses, pages, fileSent, stream, h1, h2, h3, h4, h5]
          | true => cases ha
      | _ => cases ha

theorem Action.quiet_current (ha : a.quiet = true) (h : ∀ x ∈ current l, x.quiet = true) :
    ∀ x ∈ current (a :: l), x.quiet = true := by
  have hcur : current (a :: l) = a :: current l := by
    cases a with
    | cleared => cases ha
    | _ => rfl
  rw [hcur]
  exact List.forall_mem_cons.mpr ⟨ha, h⟩

/-- A head and its bytes. -/
theorem IsHead.oneResponse {h body : List UInt8} {n : ℕ} (hh : IsHead h n) (hn : body.length = n) :
    OneResponse (h ++ body) := ⟨n, body, hh body, hn⟩

theorem exists_oneResponse : ∃ bs, OneResponse bs :=
  ⟨bytes "HTTP/1.0 200 OK\r\nContent-Length: 0\r\n\r\n", 0, [], by decide +kernel, rfl⟩

end log

/-! ### The condition -/

/-- At most one of the lines is answered by a page, and none in front of a file that is not empty. -/
def FewPages (ls : List Request) (len : ℤ) : Prop :=
  ls.countP (fun l => decide (Rejected l)) = 0 ∨ ls.countP (fun l => decide (Rejected l)) = 1 ∧ len = 0

instance (ls : List Request) (len : ℤ) : Decidable (FewPages ls len) :=
  inferInstanceAs (Decidable (_ ∨ _ ∧ _))

/-- The size is an `int`, or it is cut to 0. -/
def SizeFits (size : ℤ) : Prop := 0 ≤ size ∧ (size < 2 ^ 31 ∨ wrap32 size = 0)

instance (size : ℤ) : Decidable (SizeFits size) := inferInstanceAs (Decidable (_ ∧ (_ ∨ _)))

/-- The file that is opened is not too long. -/
def Resource.Fits : Resource → Prop
  | .file _ size => SizeFits size
  | .directory _ (some p) => SizeFits p.2
  | _ => True

instance : (x : Resource) → Decidable x.Fits
  | .file _ size => inferInstanceAs (Decidable (SizeFits size))
  | .directory _ (some p) => inferInstanceAs (Decidable (SizeFits p.2))
  | .directory _ none => .isTrue trivial
  | .missing => .isTrue trivial

/-- What the kernel answers where a location that is not proxied is asked for. -/
def resourceAsked (cfg : Config) (e : Env) (r : Request) : Option Resource :=
  match matchLocation r.mem r.uri.absPath.data cfg.locations, relPath r with
  | .ok (some loc), .ok (_, path) => if loc.pass then none else some (e.resource path)
  | _, _ => none

/-- The request behind its line, in a version that is served. -/
def lineParsed (r : Request) : Option Request :=
  match parseRequestLine r with
  | .ok (.ok, r') => if r'.version.major ≠ 1 ∨ r'.version.minor > 2 then none else some r'
  | _ => none

theorem lineParsed_ok {r r' : Request} (h : parseRequestLine r = .ok (.ok, r'))
    (hversion : ¬ (r'.version.major ≠ 1 ∨ r'.version.minor > 2)) : r' ∈ lineParsed r := by
  unfold lineParsed
  rw [h]
  exact if_neg hversion

/-- The lines of a call for a local request put few pages, and its file is not too long. -/
def FramesFrom (cfg : Config) (e : Env) (s : Session) : Prop :=
  (s.r.inHandler = .requestLine → s.r.bodyDone = false →
    (∀ r ∈ lineParsed s.r, ∀ x ∈ resourceAsked cfg e r, x.Fits) ∧
      ∀ s' ∈ lineDone cfg e s, s'.r.bodyDone = false → ¬ Proxied s'.log →
        FewPages (callLines s'.r).1 s'.r.resourceLen) ∧
    (s.r.inHandler = .headers → s.r.bodyDone = false → ¬ Proxied s.log →
      FewPages (callLines s.r).1 s.r.resourceLen)

instance (cfg : Config) (e : Env) (s : Session) : Decidable (FramesFrom cfg e s) :=
  inferInstanceAs (Decidable ((_ = _ → _ = _ →
    (∀ r ∈ lineParsed s.r, ∀ x ∈ resourceAsked cfg e r, x.Fits) ∧
      ∀ s' ∈ lineDone cfg e s, s'.r.bodyDone = false → ¬ Proxied s'.log → FewPages _ _) ∧
    (_ = _ → _ = _ → ¬ Proxied s.log → FewPages _ _)))

/-- `sendfile` sends the file as far as its length goes, and answers 0 behind that only. -/
def FileKept (e : Env) (s : Session) : Prop :=
  s.r.resourceFd ≠ none ∨ s.r.outHandler = .file →
    (fileSent (current s.log) + (sendfileLoop e.files).2 : ℤ) ≤ s.r.resourceLen ∧
      ((sendfileLoop e.files).1 = .ok →
        (fileSent (current s.log) + (sendfileLoop e.files).2 : ℤ) = s.r.resourceLen)

instance (e : Env) (s : Session) : Decidable (FileKept e s) :=
  inferInstanceAs (Decidable (_ ∨ _ → _ ≤ _ ∧ (_ → _)))

/-- What the C library and the kernel are relied on for: the date is that of the C locale, and the
file is sent to its end. -/
def Regular (v : View) : SessionEvent → Prop
  | .request e => DateLine e.date
  | .response e => ¬ Proxied v.s.log → FileKept e v.s
  | _ => True

instance (v : View) : ∀ ev, Decidable (Regular v ev)
  | .request e => inferInstanceAs (Decidable (DateLine e.date))
  | .response e => inferInstanceAs (Decidable (¬ Proxied v.s.log → FileKept e v.s))
  | .poll _ | .share _ | .close | .pass _ | .upstream _ => .isTrue trivial

/-- Each call of `sy_handle_request` that receives something puts few pages, and opens a file that
is not too long. -/
def Framable (cfg : Config) (v : View) (ev : SessionEvent) : Prop :=
  Regular v ev ∧ ∀ e, ev = .request e → (v.s.r.rb.recv e.recvs).1 = .again →
    FramesFrom cfg e (v.s.receive (v.s.r.rb.recv e.recvs).2.2)

instance (cfg : Config) (v : View) : ∀ ev, Decidable (Framable cfg v ev)
  | .request e =>
      decidable_of_iff (Regular v (.request e) ∧ ((v.s.r.rb.recv e.recvs).1 = .again →
        FramesFrom cfg e (v.s.receive (v.s.r.rb.recv e.recvs).2.2)))
        ⟨fun h => ⟨h.1, by rintro _ ⟨⟩; exact h.2⟩, fun h => ⟨h.1, h.2 e rfl⟩⟩
  | .response e => decidable_of_iff (Regular v (.response e)) ⟨fun h => ⟨h, by simp⟩, And.left⟩
  | .poll _ | .share _ | .close | .pass _ | .upstream _ => .isTrue ⟨trivial, by simp⟩

/-! ### What the calls leave of the log -/

/-- More of the same request. -/
def Onward (l l' : List Action) : Prop := ∃ as, l' = as ++ l ∧ ∀ b, .cleared b ∉ as

section onward

variable {l l₁ l' : List Action}

theorem Onward.refl (l : List Action) : Onward l l := ⟨[], rfl, by simp⟩

theorem Onward.single (l : List Action) {a : Action} (ha : ∀ b, a ≠ .cleared b) : Onward l (a :: l) :=
  ⟨[a], rfl, fun b hb => ha b (List.mem_singleton.mp hb).symm⟩

theorem Onward.trans (h : Onward l l₁) (h' : Onward l₁ l') : Onward l l' := by
  obtain ⟨as, rfl, ha⟩ := h
  obtain ⟨as', rfl, ha'⟩ := h'
  refine ⟨as' ++ as, (List.append_assoc _ _ _).symm, fun b hb => ?_⟩
  exact (List.mem_append.mp hb).elim (ha' b) (ha b)

/-- One more action. -/
theorem Onward.cons {a : Action} (h : Onward l l') (ha : ∀ b, a ≠ .cleared b) : Onward l (a :: l') :=
  h.trans (.single l' ha)

theorem Onward.current (h : Onward l l') : ∃ as, current l' = as ++ current l := by
  obtain ⟨as, rfl, ha⟩ := h
  induction as with
  | nil => exact ⟨[], rfl⟩
  | cons a as ih =>
      have hfirst : ∀ b, a ≠ .cleared b := fun b hb => ha b (hb ▸ List.mem_cons_self)
      obtain ⟨as', h⟩ := ih fun b hb => ha b (List.mem_cons_of_mem _ hb)
      have hcons : SyServer.current (a :: (as ++ l)) = a :: SyServer.current (as ++ l) := by
        cases a with
        | cleared b => exact absurd rfl (hfirst b)
        | _ => rfl
      exact ⟨a :: as', by rw [List.cons_append, hcons, h, List.cons_append]⟩

theorem Onward.proxied (h : Onward l l') (hp : Proxied l) : Proxied l' := by
  obtain ⟨as, has⟩ := h.current
  unfold Proxied
  rw [has]
  exact List.mem_append_right as hp

theorem Onward.finished (h : Onward l l') (hl : Finished l) : Finished l' := by
  obtain ⟨as, rfl, ha⟩ := h
  induction as with
  | nil => exact hl
  | cons a as ih =>
      have hfirst : ∀ b, a ≠ .cleared b := fun b hb => ha b (hb ▸ List.mem_cons_self)
      have hrest := ih fun b hb => ha b (List.mem_cons_of_mem _ hb)
      cases a with
      | cleared b => exact absurd rfl (hfirst b)
      | _ => exact hrest

end onward

section calls

variable {cfg : Config} {e : Env} {s s' : Session}

theorem UriMove.onward (h : UriMove s s') : Onward s.log s'.log := by
  cases h with
  | notFound => exact .single _ (by simp)
  | refused => exact (Onward.single _ (by simp)).cons (by simp)
  | proxied => exact .single _ (by simp)
  | missing => exact (Onward.single _ (by simp)).cons (by simp)
  | found => exact .single _ (by simp)

theorem ClientMove.onward (h : ClientMove cfg s s') : Onward s.log s'.log := by
  cases h with
  | lineOk k hopen hin hp huri => exact huri.onward
  | called | lineError | headerError | headersEnd | bodyLocal => exact .single _ (by simp)
  | lineMore | headersMore | header | headerSet | bodyMore | bodyRelayed => exact .refl _

theorem moves_onward (h : Relation.ReflTransGen (ClientMove cfg) s s') : Onward s.log s'.log :=
  Transition.kept_of_moves (fun t => Onward s.log t.log) (fun _ _ ht hm => ht.trans hm.onward)
    (.refl _) h

theorem LateMove.onward (h : LateMove s s') : Onward s.log s'.log := by
  cases h <;> exact .single _ (by simp)

theorem handleRequest_onward (cfg : Config) (e : Env) (hb : Base true s) :
    Onward s.log (handleRequest cfg e s).2.log := by
  have hrun : handleRequest cfg e s = ((handleRequest cfg e s).1, (handleRequest cfg e s).2) := rfl
  have hreceive : ∀ d, Onward s.log (s.receive d).log := fun d => .single _ (by simp)
  by_cases hl : s.Late
  · obtain ⟨d, -, h | ⟨-, hm⟩⟩ := handleRequest_late hl (hb.late_pending hl) hrun
    · rw [h]
      exact hreceive d
    · exact (hreceive d).trans hm.onward
  · obtain ⟨d, -, hmoves, -⟩ := handleRequest_moves (fun _ => hl) hrun
    exact (hreceive d).trans (moves_onward hmoves)

theorem Sent.onward (h : Sent s s') : Onward s.log s'.log := by
  obtain ⟨_, _, _, _, _, ds, _, rfl, -⟩ := h
  exact ⟨ds.map .delivered, rfl, by simp⟩

theorem UpstreamMove.onward (h : UpstreamMove e s s') : Onward s.log s'.log := by
  cases h with
  | more | eof => exact .single _ (by simp)
  | failed => exact (Onward.single _ (by simp)).cons (by simp)

theorem PassMove.onward (h : PassMove e s s') : Onward s.log s'.log := by
  cases h with
  | done | part => exact .single _ (by simp)
  | failed => exact (Onward.single _ (by simp)).cons (by simp)

end calls

/-! ### The invariant -/

/-- A local request whose response was not begun. -/
structure Unreplied (s : Session) : Prop where
  quiet : ∀ a ∈ current s.log, a.quiet = true
  uc : s.r.uc = none
  bodyDone : s.r.bodyDone = false
  begin : s.r.sb.begin = 0
  end_ : s.r.sb.end_ = 0
  out : s.r.outHandler = .buffer
  status : s.r.status = 200
  evOut : s.c.evOut = false
  done : s.r.responseDone = false
  file : s.r.resourceFd = none → s.r.resourceLen = 0
  line : s.r.inHandler = .requestLine → s.r.resourceFd = none
  nonneg : 0 ≤ s.r.resourceLen
  lt : s.r.resourceLen < 2 ^ 31

/-- The text `t` was put into `sb` as the response, and `n` bytes of the file are to follow. -/
structure Replied (s : Session) (t : List UInt8) (n : ℕ) : Prop where
  text : ∃ h body, t = h ++ body ∧ IsHead h (body.length + n)
  uc : s.r.uc = none
  one : responses (current s.log) = 1
  paged : pages (current s.log) ≠ [] → n = 0
  sent : ∀ f, stream f (current s.log) ++ s.r.sb.pending = t ++ filePart f 0 (fileSent (current s.log))
  order : s.r.outHandler = .file → s.r.sb.pending = []
  le : fileSent (current s.log) ≤ n
  len : s.r.resourceFd ≠ none ∨ s.r.outHandler = .file → n = s.r.resourceLen
  none : s.r.resourceFd = none → s.r.outHandler = .buffer → n = 0
  done : s.r.responseDone = true → s.r.sb.pending = [] ∧ fileSent (current s.log) = n

/-- The response is all there, and no event is left. -/
def Answered (s : Session) : Prop := s.c.evIn = false ∧ s.r.bodyDone = true ∧ ∃ t n, Replied s t n

/-- The request is proxied, or not answered yet, or it has its response. -/
structure Single (p : Bool) (s : Session) : Prop where
  log : Finished s.log
  state : Proxied s.log ∨ Unreplied s ∨ p = false ∧ Answered s

section replied

variable {s s' : Session} {t : List UInt8} {n : ℕ}

/-- What is sent, what is in `sb` and the rest of the file are one response. -/
theorem Replied.whole (h : Replied s t n) (f : ℕ → UInt8) :
    OneResponse (stream f (current s.log) ++ (s.r.sb.pending ++
      filePart f (fileSent (current s.log)) (n - fileSent (current s.log)))) := by
  obtain ⟨head, body, rfl, hhead⟩ := h.text
  have hpart := filePart_append f 0 (fileSent (current s.log)) (n - fileSent (current s.log))
  rw [Nat.zero_add, Nat.add_sub_cancel' h.le] at hpart
  rw [← List.append_assoc, h.sent f, List.append_assoc, hpart, List.append_assoc]
  apply hhead.oneResponse
  simp

theorem Replied.begun (h : Replied s t n) : Begun (current s.log) := by
  refine fun _ => ⟨h.one.le, fun hp => ?_, fun f => ⟨_, h.whole f⟩⟩
  have := h.le
  have := h.paged hp
  omega

theorem Replied.complete (h : Replied s t n) (hd : s.r.responseDone = true) :
    Complete (current s.log) := by
  obtain ⟨hpending, hall⟩ := h.done hd
  refine fun _ => ⟨h.one, fun hp => hall.trans (h.paged hp), fun f => ?_⟩
  simpa [hpending, hall] using h.whole f

theorem Unreplied.begun (h : Unreplied s) : Begun (current s.log) := by
  obtain ⟨-, h1, h2, h3, h4⟩ := quiet_parts h.quiet
  obtain ⟨bs, hbs⟩ := exists_oneResponse
  exact fun _ => ⟨by simp [h1], fun hp => absurd h2 hp, fun f => ⟨bs, by simpa [h4] using hbs⟩⟩

theorem Single.begun {p : Bool} (h : Single p s) : Begun (current s.log) := by
  rcases h.state with hp | hu | ⟨-, -, -, t, n, hr⟩
  · exact fun hm => absurd hp hm
  · exact hu.begun
  · exact hr.begun

/-- Bytes of `sb` are sent. -/
theorem Replied.buffer (h : Replied s t n) (hout : s.r.outHandler = .buffer) {d : List UInt8} {b : Buffer}
    (hd : d ++ b.pending = s.r.sb.pending) :
    Replied ({ s with r := { s.r with sb := b } }.note (.delivered (.buffer d))) t n where
  text := h.text
  uc := h.uc
  one := h.one
  paged := h.paged
  sent f := by
    show (stream f (current s.log) ++ d) ++ b.pending = _
    rw [List.append_assoc, hd]
    exact h.sent f
  order hfile := absurd (hout.symm.trans hfile) (by simp)
  le := h.le
  len := h.len
  none := h.none
  done hdone := by
    obtain ⟨hnil, hall⟩ := h.done hdone
    rw [hnil] at hd
    exact ⟨(List.append_eq_nil_iff.mp hd).2, hall⟩

/-- All of `sb` is sent. -/
theorem Replied.bufferSent (h : Replied s t n) (hout : s.r.outHandler = .buffer)
    (hnil : s.r.sb.pending = []) : Replied (responseBufferSent s).2 t n := by
  unfold responseBufferSent
  rw [if_neg (by simp [h.uc])]
  split_ifs with hfd
  · exact { h with
      order := fun _ => hnil
      len := fun _ => h.len (.inl hfd)
      none := fun hnone => absurd hnone hfd }
  · have hzero := h.none (not_not.mp hfd) hout
    have hle := h.le
    have hall : fileSent (current s.log) = n := by omega
    exact { h with done := fun _ => ⟨hnil, hall⟩ }

theorem sendResponseBuffer_replied {e : Env} (hb : s.r.sb.begin ≤ s.r.sb.end_) (h : Replied s t n)
    (hout : s.r.outHandler = .buffer) : Replied (sendResponseBuffer e s).2 t n := by
  obtain ⟨rc, k, hk, hsend, hrc⟩ := Buffer.send_spec e.sends s.r.sb hb
  unfold sendResponseBuffer
  rw [hsend]
  dsimp only
  rcases hrc with ⟨rfl, hend⟩ | ⟨hrc, hlt⟩
  · rw [if_pos rfl, if_pos rfl, hend]
    refine (h.buffer hout ?_).bufferSent hout ?_
    · simp [Buffer.pending, Buffer.clear]
    · simp [Session.note, Buffer.pending, Buffer.clear]
  · have hne : rc ≠ .ok := by rcases hrc with rfl | rfl <;> simp
    rw [if_neg hne, if_neg hne]
    have hsplit : s.r.sb.slice s.r.sb.begin (s.r.sb.begin + k) ++
        ({ s.r.sb with begin := s.r.sb.begin + k } : Buffer).pending = s.r.sb.pending :=
      Buffer.slice_append _ (Nat.le_add_right _ _) hk
    split_ifs <;> exact h.buffer hout hsplit

/-- Bytes of the file are sent. -/
theorem Replied.file (h : Replied s t n) (hout : s.r.outHandler = .file) {k : ℕ}
    (hk : fileSent (current s.log) + k ≤ n) : Replied (s.note (.delivered (.file k))) t n where
  text := h.text
  uc := h.uc
  one := h.one
  paged := h.paged
  sent f := by
    have hnil : s.r.sb.pending = [] := h.order hout
    have hpart := filePart_append f 0 (fileSent (current s.log)) k
    rw [Nat.zero_add] at hpart
    have hsent := h.sent f
    rw [hnil, List.append_nil] at hsent
    show (stream f (current s.log) ++ filePart f (fileSent (current s.log)) k) ++ s.r.sb.pending =
      t ++ filePart f 0 (fileSent (current s.log) + k)
    rw [hnil, List.append_nil, hsent, List.append_assoc, hpart]
  order := h.order
  le := hk
  len := h.len
  none := h.none
  done hdone := by
    obtain ⟨hnil, hall⟩ := h.done hdone
    have hend : fileSent (current s.log) + k = n := by omega
    exact ⟨hnil, hend⟩

theorem sendResponseFile_replied {e : Env} {rc : Rc} (h : Replied s t n) (hout : s.r.outHandler = .file)
    (hkept : FileKept e s) (hrun : sendResponseFile e s = .ok (rc, s')) : Replied s' t n := by
  obtain ⟨hle, hend⟩ := hkept (.inr hout)
  rw [← h.len (.inr hout)] at hle hend
  unfold sendResponseFile at hrun
  rw [if_neg (by simp [h.uc])] at hrun
  dsimp only at hrun
  have hnote := h.file hout (k := (sendfileLoop e.files).2) (by exact_mod_cast hle)
  split_ifs at hrun with hok
  · cases hrun
    have hall : fileSent (current s.log) + (sendfileLoop e.files).2 = n := by exact_mod_cast hend hok
    exact { hnote with
      len := fun _ => h.len (.inr hout)
      none := fun _ hbuffer => absurd (hout.symm.trans hbuffer) (by simp)
      done := fun _ => ⟨h.order hout, hall⟩ }
  · cases hrun
    exact hnote

/-- `sy_send_response_buffer` answers `OK` with a file to send. -/
theorem sendResponseBuffer_open {e : Env} (huc : s.r.uc = none)
    (hrun : sendResponseBuffer e s = (.ok, s')) (hd : s'.r.responseDone = false) :
    ∃ d, s'.r.resourceLen = s.r.resourceLen ∧
      current s'.log = .delivered (.buffer d) :: current s.log ∧ s.r.resourceFd ≠ none := by
  unfold sendResponseBuffer at hrun
  dsimp only at hrun
  by_cases hok : (s.r.sb.send e.sends).1 = .ok
  · rw [if_pos hok] at hrun
    unfold responseBufferSent at hrun
    rw [if_neg (by simp [Session.note, huc])] at hrun
    split_ifs at hrun with hfd
    · cases hrun
      exact ⟨_, rfl, rfl, hfd⟩
    · cases hrun
      cases hd
  · rw [if_neg hok] at hrun
    split_ifs at hrun <;> cases hrun

/-- One call of a handler of the response, and what the file needs for the next. -/
theorem OutHandler.run_replied {e : Env} {rc : Rc} (hb : s.r.sb.begin ≤ s.r.sb.end_)
    (h : Replied s t n) (hkept : FileKept e s) (hrun : s.r.outHandler.run e s = .ok (rc, s')) :
    Replied s' t n ∧ (rc = .ok → s'.r.responseDone = false → FileKept e s') := by
  cases hout : s.r.outHandler with
  | buffer =>
      rw [hout] at hrun
      have hrun : sendResponseBuffer e s = (rc, s') := Except.ok.inj hrun
      have hreplied := sendResponseBuffer_replied (e := e) hb h hout
      rw [hrun] at hreplied
      refine ⟨hreplied, fun hrc hd _ => ?_⟩
      subst hrc
      obtain ⟨d, hlen, hlog, hfd⟩ := sendResponseBuffer_open h.uc hrun hd
      rw [hlen, hlog]
      exact hkept (.inl hfd)
  | file =>
      rw [hout] at hrun
      refine ⟨sendResponseFile_replied h hout hkept hrun, fun hrc hd => ?_⟩
      unfold OutHandler.run sendResponseFile at hrun
      rw [if_neg (by simp [h.uc])] at hrun
      dsimp only at hrun
      split_ifs at hrun with hok
      · cases hrun
        cases hd
      · cases hrun
        exact absurd hrc hok

/-- The loop of `sy_handle_response`. -/
theorem responseLoop_replied {e : Env} {rc : Rc} {m : ℕ} (hb : s.r.sb.begin ≤ s.r.sb.end_)
    (h : Replied s t n) (hkept : FileKept e s) (hrun : responseLoop e m s = .ok (rc, s')) :
    Replied s' t n := by
  induction m generalizing s with
  | zero =>
      cases hrun
      exact h
  | succ m ih =>
      obtain ⟨⟨err, s₁⟩, h1, h2⟩ := bind_ok hrun
      obtain ⟨hreplied, hnext⟩ := OutHandler.run_replied hb h hkept h1
      dsimp only at h2
      split_ifs at h2 with hgo
      · obtain ⟨sb, _, _, _, _, _, _, hs, hsb, -⟩ := OutHandler.run_sent hb h1
        have hsb₁ : s₁.r.sb.begin ≤ s₁.r.sb.end_ := by rw [hs]; exact hsb
        exact ih hsb₁ hreplied (hnext hgo.1 hgo.2) h2
      · cases h2
        exact hreplied

end replied

/-! ### A call of `sy_handle_response` -/

theorem Unreplied.fresh {s : Session} (hcurrent : current s.log = []) (r₀ : Request) (c : ConnAddr)
    (hr : s.r = requestInit r₀ c) (hout : s.c.evOut = false) : Unreplied s where
  quiet := by simp [hcurrent]
  uc := by rw [hr]; rfl
  bodyDone := by rw [hr]; rfl
  begin := by rw [hr]; rfl
  end_ := by rw [hr]; rfl
  out := by rw [hr]; rfl
  status := by rw [hr]; rfl
  evOut := hout
  done := by rw [hr]; rfl
  file _ := by rw [hr]; rfl
  line _ := by rw [hr]; rfl
  nonneg := by rw [hr]; exact le_rfl
  lt := by rw [hr]; exact (by norm_num : (0 : ℤ) < 2 ^ 31)

/-- The request behind a response on a kept connection. -/
theorem Unreplied.cleared {s : Session} (huc : s.r.uc = none) : Unreplied s.clear := by
  apply Unreplied.fresh rfl s.r s.r.c _ rfl
  show { requestInit s.r s.r.c with c := s.r.c, uc := s.r.uc } = _
  rw [huc]
  rfl

theorem Single.proxied {p : Bool} {s s' : Session} (h : Single p s) (hp : Proxied s.log)
    (hl : Onward s.log s'.log) {q : Bool} : Single q s' :=
  ⟨hl.finished h.log, .inl (hl.proxied hp)⟩

theorem responseLoop_single {e : Env} {p : Bool} {s s' : Session} {rc : Rc} {m : ℕ}
    (hb : s.r.sb.begin ≤ s.r.sb.end_) (h : Single p s) (hout : s.c.evOut = true)
    (hkept : ¬ Proxied s.log → FileKept e s) (hrun : responseLoop e m s = .ok (rc, s')) :
    Single p s' ∧ (s'.r.responseDone = true → Complete (current s'.log)) := by
  have hsent := responseLoop_sent hb hrun
  have hon := hsent.onward
  rcases Classical.em (Proxied s.log) with hp | hp
  · exact ⟨h.proxied hp hon, fun _ hm => absurd (hon.proxied hp) hm⟩
  · rcases h.state with hp' | hu | ⟨hpend, hev, hd, t, n, hr⟩
    · exact absurd hp' hp
    · exact absurd (hout.symm.trans hu.evOut) (by simp)
    · have hr' := responseLoop_replied hb hr (hkept hp) hrun
      refine ⟨⟨hon.finished h.log, .inr (.inr ⟨hpend, ?_, ?_, t, n, hr'⟩)⟩, hr'.complete⟩
      · obtain ⟨_, _, _, _, _, _, _, rfl, -⟩ := hsent
        exact hev
      · obtain ⟨_, _, _, _, _, _, _, rfl, -⟩ := hsent
        exact hd

theorem handleResponse_single {e : Env} {p : Bool} {s s' : Session} {rc : Rc} (hb : Base p s)
    (h : Single p s) (hout : s.c.evOut = true) (hkept : ¬ Proxied s.log → FileKept e s)
    (hrun : handleResponse e s = .ok (rc, s')) : Single p s' := by
  obtain ⟨⟨err, s₁⟩, h1, h2⟩ := bind_ok hrun
  obtain ⟨hs, hcomplete⟩ := responseLoop_single hb.sb h hout hkept h1
  dsimp only at h2
  split_ifs at h2 with hd hk
  · cases h2
    have huc : s₁.r.uc = none := by
      have hsent := responseLoop_sent hb.sb h1
      have huc := (hb.cleared hsent hd hk).1
      obtain ⟨_, _, _, _, _, _, _, rfl, -⟩ := hsent
      exact huc
    exact ⟨⟨hcomplete hd, hs.log⟩, .inr (.inl (.cleared huc))⟩
  · cases h2
    exact hs
  · cases h2
    exact hs

end SyServer
