import SyServer.Contract
import SyServer.Server

/-! # `Connection: close`

The header parser writes the name as `connection`, and `header_tb` has the processor of this header
under the key `c`.  So `keep_alive` behind the headers does not depend on that header: it is false
exactly if it was false before, or a line of the block makes it false by another name (`Drops`). -/

namespace SyServer

variable {cfg : Config} {date : List UInt8} {s s' : Session} {rc : Rc}

/-- The line that the parser has just delivered makes `keep_alive` false. -/
def Drops (r : Request) : Prop :=
  r.headerName.bytes r.mem = bytes "c" ∧
      strncaseEq r.mem (bytes "close") r.headerValue.data = .ok true ∨
    r.headerName.bytes r.mem = bytes "transfer_encoding" ∧
      matchEncoding r.mem r.headerValue.data encodingNames = .ok none ∨
    r.headerName.bytes r.mem = bytes "content_length" ∧
      ∃ n < 0, atoi r.mem r.headerValue.data = .ok n

theorem SameParse.drops {r r' : Request} (h : SameParse r r') : Drops r' ↔ Drops r := by
  unfold Drops
  rw [h.mem, h.name, h.value]

/-! ### One line -/

/-- It asks to close, or it is answered by a page. -/
theorem drops_iff {r : Request} : Drops r ↔ Closes r ∨ Rejected r := by
  rw [rejected_iff]
  exact Iff.rfl

/-- What the processor of a line does to `keep_alive`. -/
theorem Processor.run_keepAlive {v : HeaderVal} (hv : contractGet s.r.mem s.r.headerName = some v)
    (h : v.processor.run date v.offset s = .ok (rc, s')) :
    s'.r.keepAlive = false ↔ s.r.keepAlive = false ∨ Drops s.r := by
  rw [drops_iff]
  rcases Processor.run_line hv h with ⟨hnot, hs, k, hk, rfl⟩ | ⟨hrej, hs, status, -, hpage⟩
  · simpa [hnot] using hk
  · obtain ⟨-, b, -, rfl⟩ := responseBuildErr_spec hpage
    simp [Session.errored, hrej]

/-! ### The lines of a call -/

/-- `keep_alive` is false, line by line. -/
theorem keepAlive_fold (date : List UInt8) :
    LineFold date (fun s => s.r.keepAlive = false) fun l P => P ∨ Drops l where
  parse hp := by
    obtain ⟨_, _, _, _, rfl, -, -⟩ := parseHeaderLine_frame hp
    rfl
  done _ _ := rfl
  same h := by
    funext P
    rw [h.drops]
  skip P hnone := by
    -- a name that is not found drops nothing
    apply propext
    apply or_iff_left
    rw [drops_iff]
    rintro (hcloses | hrej)
    · exact contractGet_unnamed "c" hnone (by decide) hcloses.1
    · exact not_rejected hnone hrej
  run hv h := propext (Processor.run_keepAlive hv h)

/-- One call of `sy_request_handle_headers`. -/
theorem headersLoop_keepAlive {e : Env} (hcfg : cfg.headerGet = contractGet) {n : ℕ} {r : Request}
    (hsame : SameParse r s.r) (h : headersLoop cfg e n s = .ok (rc, s')) :
    SameParse (parseLines n r).2 s'.r ∧
      (s'.r.keepAlive = false ↔ s.r.keepAlive = false ∨ ∃ l ∈ (parseLines n r).1, Drops l) := by
  obtain ⟨h1, h2, -⟩ := headersLoop_fold (keepAlive_fold e.date) hcfg hsame h
  refine ⟨h1, ?_⟩
  have hfold : ∀ (ls : List Request) (P : Prop),
      ls.foldl (fun P l => P ∨ Drops l) P ↔ P ∨ ∃ l ∈ ls, Drops l := by
    intro ls
    induction ls with
    | nil => simp
    | cons l ls ih =>
        intro P
        rw [List.foldl_cons, ih]
        simp [or_assoc]
  rw [← hfold, ← h2]

/-! ### The whole block -/

/-- The headers of a request: calls of `sy_request_handle_headers`, with a chunk behind each that
answers `AGAIN`.  Between two calls other handlers may run that leave what the parser reads, and
`keep_alive`. -/
inductive HeaderPhase (cfg : Config) : Session → List (List UInt8) → Session → Prop
  | done {e : Env} {s s' : Session} (h : requestHandleHeaders cfg e s = .ok (.ok, s')) :
      HeaderPhase cfg s [] s'
  | more {e : Env} {s s₁ s₂ s' : Session} {d : List UInt8} {ds : List (List UInt8)}
      (h : requestHandleHeaders cfg e s = .ok (.again, s₁)) (hsame : SameParse s₁.r s₂.r)
      (hkeep : s₂.r.keepAlive = s₁.r.keepAlive) (hrest : HeaderPhase cfg (s₂.receive d) ds s') :
      HeaderPhase cfg s (d :: ds) s'

theorem headerPhase_keepAlive (hcfg : cfg.headerGet = contractGet) {ds : List (List UInt8)}
    (h : HeaderPhase cfg s ds s') :
    ∀ {r : Request}, SameParse r s.r →
      (s'.r.keepAlive = false ↔ s.r.keepAlive = false ∨ ∃ l ∈ blockLines r ds, Drops l) := by
  induction h with
  | @done e s s' h =>
      intro r hsame
      have hcall := headersLoop_keepAlive hcfg hsame h
      rw [hsame.rb] at hcall
      exact hcall.2
  | @more e s s₁ s₂ s' d ds h hother hkeep hrest ih =>
      intro r hsame
      have hcall := headersLoop_keepAlive hcfg hsame h
      rw [hsame.rb] at hcall
      have hnext := hcall.1.trans hother
      have hrb : (s₂.receive d).r.rb = (callLines r).2.rb.put d := by
        show s₂.r.rb.put d = _
        rw [hnext.rb]
        rfl
      rw [ih (r := { (callLines r).2 with rb := (callLines r).2.rb.put d })
        ⟨hrb, hnext.state, hnext.name, hnext.value⟩]
      show s₂.r.keepAlive = false ∨ _ ↔ _
      rw [hkeep, hcall.2]
      rw [blockLines_cons]
      simp only [List.mem_append, or_and_right, exists_or, or_assoc]
      rfl

/-- **`keep_alive` behind the headers**, for every header block in any chunks. -/
theorem keepAlive_off_iff (timeout : ℤ) (locations : List Location) {ds : List (List UInt8)}
    (h : HeaderPhase (contractConfig timeout locations) s ds s') :
    s'.r.keepAlive = false ↔ s.r.keepAlive = false ∨ ∃ l ∈ blockLines s.r ds, Drops l :=
  headerPhase_keepAlive rfl h (.refl _)

/-- The session of a fresh request with these bytes in `rb`. -/
def freshSession (d : List UInt8) : Session :=
  Session.receive { Server.boot.session 0 with r := requestInit .zeroed 0 } d

/-- The headers of a request that arrives at once. -/
def headersAtOnce (d : List UInt8) : Option (Session × Session) :=
  match requestHandleRequestLine (contractConfig 60 [⟨false, bytes "/"⟩])
      { idleEnv with resource := fun _ => .file 9 0 } (freshSession d) with
  | .ok (.ok, s) =>
      match requestHandleHeaders (contractConfig 60 [⟨false, bytes "/"⟩]) idleEnv s with
      | .ok (.ok, s') => some (s, s')
      | _ => none
  | _ => none

theorem headersAtOnce_phase {d : List UInt8} (h : headersAtOnce d = some (s, s')) :
    requestHandleRequestLine (contractConfig 60 [⟨false, bytes "/"⟩])
        { idleEnv with resource := fun _ => .file 9 0 } (freshSession d) = .ok (.ok, s) ∧
      HeaderPhase (contractConfig 60 [⟨false, bytes "/"⟩]) s [] s' := by
  unfold headersAtOnce at h
  split at h
  · rename_i s₁ h1
    split at h
    · rename_i s₂ h2
      cases h
      exact ⟨h1, .done h2⟩
    · cases h
  · cases h

/-- A line with the key of the table is honoured. -/
theorem keepAlive_off_key :
    ∃ s s', headersAtOnce (bytes "GET /i.html HTTP/1.1\r\nConnection: close\r\nC: close\r\n\r\n") =
        some (s, s') ∧ s.r.keepAlive = true ∧ s'.r.keepAlive = false := by
  have hrun : (headersAtOnce (bytes "GET /i.html HTTP/1.1\r\nConnection: close\r\nC: close\r\n\r\n")).any
      fun p => decide (p.1.r.keepAlive = true) && (blockLines p.1.r []).any fun l =>
        decide (l.headerName.bytes l.mem = bytes "c" ∧
          strncaseEq l.mem (bytes "close") l.headerValue.data = .ok true) := by
    decide +kernel
  obtain ⟨⟨s, s'⟩, hs, hend⟩ := Transition.exists_of_any hrun
  obtain ⟨hkeep, hany⟩ := Bool.and_eq_true_iff.mp hend
  obtain ⟨l, hl, hdrop⟩ := List.any_eq_true.mp hany
  have hphase := (headersAtOnce_phase hs).2
  exact ⟨s, s', hs, of_decide_eq_true hkeep,
    (keepAlive_off_iff 60 _ hphase).mpr (.inr ⟨l, hl, .inl (of_decide_eq_true hdrop)⟩)⟩

/-- `Connection: close` alone is not. -/
theorem connection_ignored :
    ¬ ∀ (timeout : ℤ) (locations : List Location) (e : Env) (s₀ s s' : Session) (ds : List (List UInt8)),
      requestHandleRequestLine (contractConfig timeout locations) e s₀ = .ok (.ok, s) →
        s.r.version = ⟨1, 1⟩ → HeaderPhase (contractConfig timeout locations) s ds s' →
          (∃ l ∈ blockLines s.r ds, l.headerName.bytes l.mem = bytes "connection" ∧
            strncaseEq l.mem (bytes "close") l.headerValue.data = .ok true) →
          s'.r.keepAlive = false := by
  intro hall
  have hrun : (headersAtOnce (bytes "GET /i.html HTTP/1.1\r\nConnection: close\r\n\r\n")).any
      fun p => decide (p.1.r.version = ⟨1, 1⟩ ∧ p.2.r.keepAlive = true) &&
        (blockLines p.1.r []).any fun l =>
          decide (l.headerName.bytes l.mem = bytes "connection" ∧
            strncaseEq l.mem (bytes "close") l.headerValue.data = .ok true) := by
    decide +kernel
  obtain ⟨⟨s, s'⟩, hs, hend⟩ := Transition.exists_of_any hrun
  obtain ⟨hstate, hany⟩ := Bool.and_eq_true_iff.mp hend
  obtain ⟨hversion, hkeep⟩ := of_decide_eq_true hstate
  obtain ⟨l, hl, hline⟩ := List.any_eq_true.mp hany
  obtain ⟨hfirst, hphase⟩ := headersAtOnce_phase hs
  have hoff := hall _ _ _ _ s s' [] hfirst hversion hphase ⟨l, hl, of_decide_eq_true hline⟩
  exact absurd (hoff.symm.trans hkeep) (by simp)

end SyServer
