import SyServer.ParseSpec

/-! # Parsing in chunks

A request arrives in chunks that are appended to the read buffer; after each chunk the parsers
run until they ask for more.  The result does not depend on where the chunks were cut.

* `feed` is one chunk: the bytes are appended, and the parser of the current phase is called
  until it answers `AGAIN`; every other answer is logged with what the request then says.
* `parseByte` is the same run as one automaton over bytes; it forgets `rb.begin`, which is the
  only place where the cuts leave a trace.
* `feed_follows`: a chunk is a scan of that automaton; `feeds_follows`: so is a sequence of them.
* `chunk_independence`: two cuts of the same bytes give the same run. -/

namespace SyServer

open Scan

/-- Which parser runs next. -/
inductive Phase where
  | line
  | headers
  | stopped
deriving DecidableEq, Repr

/-- What the request says when a parser answers something else than `AGAIN`. -/
structure Event where
  rc : Rc
  method : Option Method
  version : Version
  uri : Uri
  headerName : Str
  headerValue : Str
deriving DecidableEq, Repr

def event (rc : Rc) (r : Request) : Event :=
  ⟨rc, r.method, r.version, r.uri, r.headerName, r.headerValue⟩

/-- A run of the parsers. -/
structure Run where
  phase : Phase
  r : Request
  log : List Event

/-- The phase after an answer other than `AGAIN`: the request line once, then header lines up to
the empty one. -/
def Phase.next : Phase → Rc → Phase
  | line, .ok => headers
  | headers, .ok => headers
  | _, _ => stopped

/-- The call of the parser of a phase. -/
def parseCall : Phase → Request → Except Fault (Rc × Request)
  | .line, r => parseRequestLine r
  | .headers, r => parseHeaderLine r
  | .stopped, r => .ok (.again, r)

/-- Log an answer. -/
def Run.answer (x : Run) (rc : Rc) (r : Request) : Run :=
  ⟨x.phase.next rc, r, x.log ++ [event rc r]⟩

/-- Call the parsers until `AGAIN`, `n` times at most. -/
def parseLoop : ℕ → Run → Except Fault Run
  | 0, x => .ok x
  | n + 1, x =>
      match parseCall x.phase x.r with
      | .error f => .error f
      | .ok (.again, r) => .ok { x with r := r }
      | .ok (rc, r) => parseLoop n (x.answer rc r)

/-- Change the read buffer. -/
def Run.mapRb (g : Buffer → Buffer) (x : Run) : Run := { x with r := x.r.mapRb g }

/-- Bytes arrive. -/
def Run.append (x : Run) (d : List UInt8) : Run := x.mapRb (·.put d)

/-- Append a chunk and parse.  More calls are never made: every answer but the last consumes a
byte (`parseLoop_follows`). -/
def feed (x : Run) (d : List UInt8) : Except Fault Run :=
  parseLoop ((x.append d).r.rb.size + 1) (x.append d)

/-- Feed chunk after chunk. -/
def feeds (x : Run) (chunks : List (List UInt8)) : Except Fault Run := chunks.foldlM feed x

/-! ### The automaton over bytes -/

/-- The body of the loop of a phase. -/
def Phase.byte : Phase → ℕ → Request → Step Request Exit
  | line => requestLineByte
  | headers => headerLineByte
  | stopped => fun _ r => .more r

/-- What the parser of a phase makes of leaving its loop. -/
def Phase.exit : Phase → Exit → Except Fault (Rc × Request)
  | line, e => requestLineExit (.stop e)
  | headers, e => headerLineExit (.stop e)
  | stopped, _ => .error .requestLineState

/-- Forget `rb.begin`. -/
def forgetBegin (b : Buffer) : Buffer := { b with begin := 0 }

/-- One byte of the whole run. -/
def parseByte (i : ℕ) (x : Run) : Step Run Fault :=
  match x.phase.byte i x.r with
  | .more r => .more { x with r := r }
  | .stop e =>
      match x.phase.exit e with
      | .ok (rc, r) => .more ((x.answer rc r).mapRb forgetBegin)
      | .error f => .stop f

/-! ### Calls -/

/-- A call is a scan of the phase's loop. -/
theorem parseCall_eq (ph : Phase) (r : Request) :
    parseCall ph r = match scan ph.byte r.rb.size r.rb.begin r with
      | .more r' => .ok (.again, if ph = .stopped then r' else rbConsumed r')
      | .stop e => ph.exit e := by
  cases ph with
  | line =>
      show requestLineExit _ = _
      cases hs : scan requestLineByte r.rb.size r.rb.begin r with
      | more r' => rw [show Phase.line.byte = requestLineByte from rfl, hs]; rfl
      | stop e => rw [show Phase.line.byte = requestLineByte from rfl, hs]; rfl
  | headers =>
      show headerLineExit _ = _
      cases hs : scan headerLineByte r.rb.size r.rb.begin r with
      | more r' => rw [show Phase.headers.byte = headerLineByte from rfl, hs]; rfl
      | stop e => rw [show Phase.headers.byte = headerLineByte from rfl, hs]; rfl
  | stopped =>
      have hstay : ∀ n i, scan Phase.stopped.byte n i r = .more r := by
        intro n
        induction n with
        | zero => intro i; rfl
        | succ n ih => intro i; exact ih (i + 1)
      rw [hstay]
      rfl

/-! ### What a phase does with one byte -/

variable {g : Buffer → Buffer} {i : ℕ} {r : Request}

theorem Phase.byte_mapRb (ph : Phase) (hg : Transparent g i r.rb) :
    ph.byte i (r.mapRb g) = (ph.byte i r).map (.mapRb g) (.mapRb g) := by
  cases ph with
  | line => exact requestLineByte_mapRb hg
  | headers => exact headerLineByte_mapRb hg
  | stopped => rfl

/-- No byte moves the cursors. -/
theorem Phase.byte_cursors (ph : Phase) (i : ℕ) (r : Request) :
    Outcome (fun r' => r'.rb.begin = r.rb.begin ∧ r'.rb.end_ = r.rb.end_) (ph.byte i r) := by
  have hline : ∀ r', LineFrame r r' → r'.rb.begin = r.rb.begin ∧ r'.rb.end_ = r.rb.end_ := by
    rintro r' ⟨_, _, _, _, _, rfl⟩
    exact ⟨rfl, rfl⟩
  have hheader : ∀ r', HeaderFrame r r' → r'.rb.begin = r.rb.begin ∧ r'.rb.end_ = r.rb.end_ := by
    rintro r' ⟨_, _, _, _, rfl, -, h1, h2⟩
    exact ⟨h1, h2⟩
  cases ph with
  | line => exact (requestLineByte_frame i r).imp hline
  | headers => exact (headerLineByte_frame i r).imp hheader
  | stopped => exact ⟨rfl, rfl⟩

/-- Where the loop is left: an answer behind the byte, one that ends the run, or a fault. -/
theorem Phase.byte_stop {ph : Phase} {e : Exit} (h : ph.byte i r = .stop e) :
    (∃ f, ph.exit e = .error f) ∨ ∃ rc r', ph.exit e = .ok (rc, r') ∧ rc ≠ .again ∧
      r'.rb.end_ = r.rb.end_ ∧ (r'.rb.begin = i + 1 ∨ ph.next rc = .stopped) := by
  have hc := ph.byte_cursors i r
  rw [h] at hc
  cases ph with
  | stopped => cases h
  | line =>
      cases e with
      | abort f => exact .inl ⟨f, rfl⟩
      | done p q =>
          obtain ⟨rfl, -, -⟩ := requestLineByte_done h
          exact .inr ⟨_, _, rfl, by simp, hc.2, .inl rfl⟩
      | ret rc q =>
          obtain ⟨h1, h2⟩ := requestLineByte_ret h
          exact .inr ⟨rc, q, rfl, h2, hc.2, .inr (by cases rc <;> first | rfl | exact absurd rfl h1)⟩
  | headers =>
      cases e with
      | abort f => exact .inl ⟨f, rfl⟩
      | done p q =>
          obtain rfl := headerLineByte_done h
          refine .inr ⟨_, _, rfl, ?_, hc.2, .inl rfl⟩
          split <;> simp
      | ret rc q => exact absurd h headerLineByte_ret

theorem Phase.exit_put (ph : Phase) (e : Exit) (d : List UInt8) :
    ph.exit (e.mapRb (·.put d)) = (ph.exit e).map (Prod.map id (Request.mapRb (·.put d))) := by
  cases ph <;> cases e <;> rfl

theorem Phase.exit_forget (ph : Phase) (e : Exit) :
    (ph.exit (e.mapRb forgetBegin)).map (Prod.map id (Request.mapRb forgetBegin)) =
      (ph.exit e).map (Prod.map id (Request.mapRb forgetBegin)) := by
  cases ph <;> cases e <;> rfl

/-! ### Bytes of the whole run -/

theorem transparent_forget (i : ℕ) (b : Buffer) : Transparent forgetBegin i b :=
  ⟨rfl, fun _ _ => rfl, fun _ => rfl⟩

theorem transparent_put {i : ℕ} {b : Buffer} (d : List UInt8) (h : i < b.end_) :
    Transparent (·.put d) i b where
  addr := rfl
  mem k hk := b.put_mem_lt d (by omega)
  write c := by
    unfold Buffer.put Buffer.write
    simp only [Buffer.mk.injEq, true_and, and_true]
    funext k
    by_cases hk : k = i
    · subst hk
      simp [Function.update, show ¬ (b.end_ ≤ k) by omega]
    · simp [Function.update, hk]

theorem Run.append_nil (x : Run) : x.append [] = x := by
  show ({ x with r := { x.r with rb := x.r.rb.put [] } } : Run) = x
  rw [Buffer.put_nil]

theorem Run.append_append (x : Run) (d e : List UInt8) :
    (x.append d).append e = x.append (d ++ e) := by
  show ({ x with r := { x.r with rb := (x.r.rb.put d).put e } } : Run) = _
  rw [Buffer.put_put]
  rfl

theorem Run.append_forget (x : Run) (d : List UInt8) :
    (x.append d).mapRb forgetBegin = (x.mapRb forgetBegin).append d := rfl

/-- Appended bytes wait for their turn. -/
theorem parseByte_append {i : ℕ} {x : Run} (d : List UInt8) (h : i < x.r.rb.end_) :
    parseByte i (x.append d) = (parseByte i x).map (fun y => y.append d) id := by
  unfold parseByte
  rw [show (x.append d).phase = x.phase from rfl,
    show (x.append d).r = x.r.mapRb (·.put d) from rfl,
    x.phase.byte_mapRb (transparent_put d h)]
  cases x.phase.byte i x.r with
  | more r => rfl
  | stop e =>
      rw [Step.map_stop]
      dsimp only
      rw [x.phase.exit_put]
      cases x.phase.exit e with
      | error f => rfl
      | ok p => rfl

theorem parseByte_end {i : ℕ} {x y : Run} (h : parseByte i x = .more y) :
    y.r.rb.end_ = x.r.rb.end_ := by
  unfold parseByte at h
  have hc := x.phase.byte_cursors i x.r
  cases hb : x.phase.byte i x.r with
  | more r =>
      rw [hb] at h hc
      cases h
      exact hc.2
  | stop e =>
      rw [hb] at h
      dsimp only at h
      rcases Phase.byte_stop hb with ⟨f, hf⟩ | ⟨rc, r', hok, -, hend, -⟩
      · rw [hf] at h
        cases h
      · rw [hok] at h
        cases h
        exact hend

/-- While the loop of the phase goes on, the run does. -/
theorem parseByte_more {i : ℕ} {x : Run} {r : Request} (h : x.phase.byte i x.r = .more r) :
    parseByte i (x.mapRb forgetBegin) = .more (Run.mapRb forgetBegin { x with r := r }) := by
  unfold parseByte
  rw [show (x.mapRb forgetBegin).phase = x.phase from rfl,
    show (x.mapRb forgetBegin).r = x.r.mapRb forgetBegin from rfl,
    x.phase.byte_mapRb (transparent_forget i x.r.rb), h]
  rfl

theorem parseByte_stop {i : ℕ} {x : Run} {e : Exit} (h : x.phase.byte i x.r = .stop e) :
    parseByte i (x.mapRb forgetBegin) = match x.phase.exit e with
      | .ok (rc, r) => .more ((x.answer rc r).mapRb forgetBegin)
      | .error f => .stop f := by
  unfold parseByte
  rw [show (x.mapRb forgetBegin).phase = x.phase from rfl,
    show (x.mapRb forgetBegin).r = x.r.mapRb forgetBegin from rfl,
    x.phase.byte_mapRb (transparent_forget i x.r.rb), h, Step.map_stop]
  dsimp only
  have he := x.phase.exit_forget e
  cases h1 : x.phase.exit e with
  | error f =>
      rw [h1] at he
      cases h2 : x.phase.exit (e.mapRb forgetBegin) with
      | error f' => rw [h2] at he; cases he; rfl
      | ok p => rw [h2] at he; cases he
  | ok p =>
      rw [h1] at he
      cases h2 : x.phase.exit (e.mapRb forgetBegin) with
      | error f' => rw [h2] at he; cases he
      | ok p' =>
          rw [h2] at he
          obtain ⟨rc, r⟩ := p
          obtain ⟨rc', r'⟩ := p'
          simp only [Except.map, Except.ok.injEq, Prod.map_apply, Prod.mk.injEq, id] at he
          obtain ⟨rfl, he⟩ := he
          have hanswer : ((x.mapRb forgetBegin).answer rc' r').mapRb forgetBegin =
              x.answer rc' (r'.mapRb forgetBegin) := rfl
          dsimp only
          rw [hanswer, he]
          rfl

/-! ### Chunks are scans -/

/-- The parsers have reached the end of the buffer, or stopped. -/
def Run.Waiting (x : Run) : Prop := x.phase = .stopped ∨ x.r.rb.begin = x.r.rb.end_

/-- An outcome of the loop against the outcome of the scan: equal but for `rb.begin`, with all
bytes read and none appended since the length was `e`. -/
def Follows (e : ℕ) : Except Fault Run → Step Run Fault → Prop
  | .ok y, .more z => y.mapRb forgetBegin = z ∧ y.Waiting ∧ y.r.rb.end_ = e
  | .error f, .stop f' => f = f'
  | _, _ => False

theorem parseByte_stopped {x : Run} (h : x.phase = .stopped) (i : ℕ) :
    parseByte i x = .more x := by
  obtain ⟨ph, r, log⟩ := x
  cases h
  rfl

theorem scan_stopped {x : Run} (h : x.phase = .stopped) (n i : ℕ) :
    scan parseByte n i x = .more x := by
  induction n generalizing i with
  | zero => rfl
  | succ n ih => rw [scan_succ, parseByte_stopped h]; exact ih (i + 1)

theorem parseLoop_stopped {x : Run} (h : x.phase = .stopped) (m : ℕ) :
    parseLoop m x = .ok x := by
  obtain ⟨ph, r, log⟩ := x
  cases h
  cases m <;> rfl

/-- Up to where the loop of the phase is left, the run follows it. -/
theorem scan_parseByte_phase {n i : ℕ} {x : Run} {r : Request}
    (h : scan x.phase.byte n i x.r = .more r) :
    scan parseByte n i (x.mapRb forgetBegin) = .more (Run.mapRb forgetBegin { x with r := r }) ∧
      r.rb.end_ = x.r.rb.end_ := by
  refine ⟨?_, ?_⟩
  · exact scan_more_sim (fun q => Run.mapRb forgetBegin { x with r := q })
      (fun i q q' hq => parseByte_more (x := { x with r := q }) hq) h
  · refine scan_inv (fun _ q => q.rb.end_ = x.r.rb.end_) (i + n) (fun j q q' _ hq hqq' => ?_)
      le_rfl rfl h
    have := x.phase.byte_cursors j q
    rw [hqq'] at this
    exact this.2.trans hq

/-- **The loop is the scan**: with more calls than there are unread bytes it ends for want of
bytes, or after an answer that ends the run. -/
theorem parseLoop_follows (m : ℕ) (x : Run) (hb : x.r.rb.begin ≤ x.r.rb.end_)
    (hm : x.r.rb.size < m) :
    Follows x.r.rb.end_ (parseLoop m x)
      (scan parseByte x.r.rb.size x.r.rb.begin (x.mapRb forgetBegin)) := by
  induction m generalizing x with
  | zero => exact absurd hm (by simp)
  | succ m ih =>
      by_cases hst : x.phase = .stopped
      · rw [parseLoop_stopped hst, scan_stopped (show (x.mapRb forgetBegin).phase = .stopped from hst)]
        exact ⟨rfl, .inl hst, rfl⟩
      unfold parseLoop
      rw [parseCall_eq]
      rcases scan_cases x.phase.byte x.r.rb.size x.r.rb.begin x.r with
        ⟨r', hr⟩ | ⟨k, e, t, hk, ht, hstop, hr⟩
      · -- out of bytes
        obtain ⟨hrun, hend⟩ := scan_parseByte_phase hr
        rw [hr, hrun]
        dsimp only
        rw [if_neg hst]
        exact ⟨rfl, .inr rfl, hend⟩
      · -- an answer at the byte `begin + k`
        obtain ⟨hrun, hend⟩ := scan_parseByte_phase ht
        have hscan : scan parseByte x.r.rb.size x.r.rb.begin (x.mapRb forgetBegin) =
            (parseByte (x.r.rb.begin + k) (Run.mapRb forgetBegin { x with r := t })).bind
              (scan parseByte (x.r.rb.size - (k + 1)) (x.r.rb.begin + k + 1)) := by
          conv_lhs => rw [show x.r.rb.size = k + (1 + (x.r.rb.size - (k + 1))) by omega]
          rw [scan_add, hrun, Step.bind_more, scan_add, scan_one]
        rw [hr, hscan, parseByte_stop (x := { x with r := t }) hstop]
        dsimp only
        rcases Phase.byte_stop hstop with ⟨f, hf⟩ | ⟨rc, r', hok, hrc, hend', hnext⟩
        · rw [hf]
          rfl
        rw [hok]
        have hrest : Follows x.r.rb.end_ (parseLoop m (x.answer rc r'))
            (scan parseByte (x.r.rb.size - (k + 1)) (x.r.rb.begin + k + 1)
              ((x.answer rc r').mapRb forgetBegin)) := by
          have hend'' : (x.answer rc r').r.rb.end_ = x.r.rb.end_ := hend'.trans hend
          rcases hnext with hbeg | hst'
          · have hbeg' : (x.answer rc r').r.rb.begin = x.r.rb.begin + k + 1 := hbeg
            have hsize : (x.answer rc r').r.rb.size = x.r.rb.size - (k + 1) := by
              unfold Buffer.size
              omega
            have := ih (x.answer rc r') (by unfold Buffer.size at hk; omega) (by omega)
            rwa [hend'', hbeg', hsize] at this
          · have hst'' : (x.answer rc r').phase = .stopped := hst'
            rw [parseLoop_stopped hst'', 
              scan_stopped (show ((x.answer rc r').mapRb forgetBegin).phase = .stopped from hst'')]
            exact ⟨rfl, .inl hst'', hend''⟩
        cases rc <;> first | exact absurd rfl hrc | exact hrest

/-- **One chunk** is a scan over its bytes. -/
theorem feed_follows {x : Run} (hx : x.Waiting) (d : List UInt8) :
    Follows (x.r.rb.end_ + d.length) (feed x d)
      (scan parseByte d.length x.r.rb.end_ ((x.append d).mapRb forgetBegin)) := by
  unfold feed
  rcases hx with hst | hbeg
  · have hst' : (x.append d).phase = .stopped := hst
    rw [parseLoop_stopped hst',
      scan_stopped (show ((x.append d).mapRb forgetBegin).phase = .stopped from hst)]
    exact ⟨rfl, .inl hst, rfl⟩
  · have hb : (x.append d).r.rb.begin = x.r.rb.end_ := hbeg
    have he : (x.append d).r.rb.end_ = x.r.rb.end_ + d.length := rfl
    have hsize : (x.append d).r.rb.size = d.length := by unfold Buffer.size; omega
    have := parseLoop_follows ((x.append d).r.rb.size + 1) (x.append d) (by omega) (by omega)
    rw [hb, he] at this
    rw [hsize] at this ⊢
    exact this

/-- Bytes appended before a scan of the bytes in front of them may as well come later. -/
theorem scan_append {n i : ℕ} {x : Run} (d : List UInt8) (h : i + n ≤ x.r.rb.end_) :
    scan parseByte n i (x.append d) = (scan parseByte n i x).map (fun y => y.append d) id :=
  scan_map (fun y => y.append d) id (fun y => y.r.rb.end_ = x.r.rb.end_) x.r.rb.end_
    (fun _ _ _ hy hyz => (parseByte_end hyz).trans hy)
    (fun i _ hi hy => parseByte_append (i := i) d (by rw [hy]; exact hi)) rfl h

/-- **A sequence of chunks** is one scan over all the bytes. -/
theorem feeds_follows {x : Run} (hx : x.Waiting) (chunks : List (List UInt8)) :
    Follows (x.r.rb.end_ + chunks.flatten.length) (feeds x chunks)
      (scan parseByte chunks.flatten.length x.r.rb.end_
        ((x.append chunks.flatten).mapRb forgetBegin)) := by
  induction chunks generalizing x with
  | nil =>
      rw [List.flatten_nil, Run.append_nil]
      exact ⟨rfl, hx, rfl⟩
  | cons d ds ih =>
      rw [List.flatten_cons, ← Run.append_append, Run.append_forget (x.append d),
        List.length_append, scan_add, scan_append ds.flatten le_rfl]
      show Follows _ ((feed x d).bind fun y => feeds y ds) _
      have hd := feed_follows hx d
      cases hs : scan parseByte d.length x.r.rb.end_ ((x.append d).mapRb forgetBegin) with
      | stop f =>
          rw [hs] at hd
          cases hf : feed x d with
          | error f' => rw [hf] at hd; exact hd
          | ok y => rw [hf] at hd; exact hd.elim
      | more z =>
          rw [hs] at hd
          cases hf : feed x d with
          | error f' => rw [hf] at hd; exact hd.elim
          | ok y =>
              rw [hf] at hd
              obtain ⟨rfl, hy, hend⟩ := hd
              have := ih hy
              rw [hend] at this
              rw [← Nat.add_assoc]
              exact this

/-! ### No assertion fails -/

/-- The parser of the phase finds the request in one of its states. -/
def Run.Ready (x : Run) : Prop :=
  match x.phase with
  | .line => LineReady x.r
  | .headers => HeaderReady x.r
  | .stopped => True

theorem LineReady.congr {r r' : Request} (h : LineReady r) (h1 : r'.state = r.state)
    (h2 : r'.requestLine = r.requestLine) (h3 : r'.uri = r.uri) : LineReady r' := by
  obtain ⟨ha, hb, hc⟩ := h
  exact ⟨by rwa [h1], by rwa [h1, h2], by rwa [h1, h3]⟩

theorem Run.Ready.mapRb {x : Run} (h : x.Ready) (g : Buffer → Buffer) : (x.mapRb g).Ready := by
  obtain ⟨ph, r, log⟩ := x
  cases ph with
  | line => exact LineReady.congr (r := r) h rfl rfl rfl
  | headers => exact h
  | stopped => trivial

/-- One byte neither trips an assertion nor leaves the states of its parser. -/
theorem parseByte_ready {i : ℕ} {x : Run} (hx : x.Ready) :
    ∃ y, parseByte i x = .more y ∧ y.Ready := by
  obtain ⟨ph, r, log⟩ := x
  unfold parseByte
  dsimp only
  cases ph with
  | stopped => exact ⟨_, rfl, trivial⟩
  | line =>
      have hs := requestLineByte_ready (i := i) hx
      rw [show Phase.line.byte i r = requestLineByte i r from rfl]
      cases hb : requestLineByte i r with
      | more r' => rw [hb] at hs; exact ⟨_, rfl, hs⟩
      | stop e =>
          rw [hb] at hs
          cases e with
          | abort f => exact hs.elim
          | done p r' => exact ⟨_, rfl, (rfl : PState.hlBegin.headerLine = true)⟩
          | ret rc r' =>
              refine ⟨_, rfl, Run.Ready.mapRb ?_ _⟩
              have hrc := (requestLineByte_ret hb).1
              cases rc <;> first | exact absurd rfl hrc | trivial
  | headers =>
      have hs := headerLineByte_ready (i := i) hx
      rw [show Phase.headers.byte i r = headerLineByte i r from rfl]
      cases hb : headerLineByte i r with
      | more r' => rw [hb] at hs; exact ⟨_, rfl, hs⟩
      | stop e =>
          rw [hb] at hs
          cases e with
          | abort f => exact hs.elim
          | ret rc r' => exact absurd hb headerLineByte_ret
          | done p r' =>
              refine ⟨_, rfl, Run.Ready.mapRb ?_ _⟩
              unfold Run.answer Run.Ready
              dsimp only
              split_ifs
              · trivial
              · exact (rfl : PState.hlBegin.headerLine = true)

theorem scan_ready {n i : ℕ} {x : Run} (hx : x.Ready) :
    ∃ y, scan parseByte n i x = .more y ∧ y.Ready := by
  induction n generalizing i x with
  | zero => exact ⟨x, rfl, hx⟩
  | succ n ih =>
      obtain ⟨y, hy, hr⟩ := parseByte_ready (i := i) hx
      rw [scan_succ, hy]
      exact ih hr

/-! ### Two cuts of the same bytes -/

/-- A fresh request before its first byte. -/
def Run.start (r₀ : Request) (c : ConnAddr) : Run := ⟨.line, requestInit r₀ c, []⟩

/-- What a run has to show at its end: the answers, the state, and the bytes of the buffer. -/
def Run.view (x : Run) : List Event × PState × List UInt8 :=
  (x.log, x.r.state, x.r.rb.slice 0 x.r.rb.end_)

theorem Run.view_forget (x : Run) : (x.mapRb forgetBegin).view = x.view := rfl

/-- **Chunk independence**: two ways of cutting the same bytes give the same answers, with the
same method, version, URI and header slices at each of them, and leave the same state and the
same bytes behind. -/
theorem chunk_independence (r₀ : Request) (c : ConnAddr) {chunks chunks' : List (List UInt8)}
    (h : chunks.flatten = chunks'.flatten) :
    ∃ x x', feeds (.start r₀ c) chunks = .ok x ∧ feeds (.start r₀ c) chunks' = .ok x' ∧
      x.view = x'.view := by
  have hwait : (Run.start r₀ c).Waiting := .inr rfl
  have hready : (Run.start r₀ c).Ready := .of_state rfl (by simp [Run.start, requestInit])
    (by simp [Run.start, requestInit])
  have h1 := feeds_follows hwait chunks
  have h2 := feeds_follows hwait chunks'
  obtain ⟨z, hz, -⟩ := scan_ready (n := chunks.flatten.length)
    (i := (Run.start r₀ c).r.rb.end_) ((hready.mapRb (·.put chunks.flatten)).mapRb forgetBegin)
  rw [← h] at h2
  have hz' : scan parseByte chunks.flatten.length (Run.start r₀ c).r.rb.end_
      (((Run.start r₀ c).append chunks.flatten).mapRb forgetBegin) = .more z := hz
  rw [hz'] at h1 h2
  cases hx : feeds (.start r₀ c) chunks with
  | error f => rw [hx] at h1; exact h1.elim
  | ok x =>
      cases hx' : feeds (.start r₀ c) chunks' with
      | error f => rw [hx'] at h2; exact h2.elim
      | ok x' =>
          rw [hx] at h1
          rw [hx'] at h2
          refine ⟨x, x', rfl, rfl, ?_⟩
          rw [← x.view_forget, ← x'.view_forget, h1.1, h2.1]

/-- A request cut inside its version and inside a header name. -/
theorem chunk_independence_cut :
    ∃ x x',
      feeds (.start .zeroed 0) [bytes "GET / HTT", bytes "P/1.1\r\nHo", bytes "st: a\r\n\r\n"] =
        .ok x ∧
      feeds (.start .zeroed 0) [bytes "GET / HTTP/1.1\r\nHost: a\r\n\r\n"] = .ok x' ∧
      x.view = x'.view :=
  chunk_independence .zeroed 0 (by decide)

end SyServer
