import SyServer.CloseHeader
import SyServer.Faults
import SyServer.HeaderBlock

/-! # Header processors and absent values

A header line without a value is delivered with `header_value.data == NULL`.  The processors of
three names hand this pointer to `strncasecmp` or `atoi` (`Dangling`); the others store it.

* `Processor.run_wild_iff`: one processor.
* `headersLoop_wild_iff`: one call of `sy_request_handle_headers`, over the lines whose processors
  it runs (`linesHandled`).
* `headers_wild_iff`: a header block in any chunks. -/

namespace SyServer

variable {cfg : Config} {date : List UInt8} {s s' : Session} {m : Mem} {p : Ptr}

/-- The line has no value, and the name of a processor that reads it. -/
def Dangling (r : Request) : Prop :=
  r.headerValue.data.Null ∧
    (r.headerName.bytes r.mem = bytes "c" ∨ r.headerName.bytes r.mem = bytes "transfer_encoding" ∨
      r.headerName.bytes r.mem = bytes "content_length")

instance (r : Request) : Decidable (Dangling r) := inferInstanceAs (Decidable (_ ∧ (_ ∨ _ ∨ _)))

/-! ### Reads -/

theorem Ptr.Null.add (h : ¬ p.Null) (n : ℕ) : ¬ (p.add n).Null := by
  cases p with
  | null off => exact absurd ⟨off, rfl⟩ h
  | rb off => exact fun ⟨_, e⟩ => Ptr.noConfusion e
  | lit id off => exact fun ⟨_, e⟩ => Ptr.noConfusion e

/-- `strncasecmp` reads through its pointer when there is something to compare. -/
theorem strncaseEq_wild_iff {l : List UInt8} (hl : l ≠ []) :
    strncaseEq m l p = .error .wildRead ↔ p.Null := by
  have hsafe : ∀ (l : List UInt8) (q : Ptr), ¬ q.Null → strncaseEq m l q ≠ .error .wildRead := by
    intro l
    induction l with
    | nil => simp [strncaseEq]
    | cons a l ih =>
        intro q hq
        cases q with
        | null off => exact absurd ⟨off, rfl⟩ hq
        | _ =>
            unfold strncaseEq
            split_ifs
            · simp
            · simp
            · exact ih _ (Ptr.Null.add hq 1)
  constructor
  · intro h
    by_contra hp
    exact hsafe l p hp h
  · rintro ⟨off, rfl⟩
    obtain ⟨a, l', rfl⟩ := List.exists_cons_of_ne_nil hl
    rfl

theorem atoi_wild_iff : atoi m p = .error .wildRead ↔ p.Null := by
  cases p with
  | null off => exact iff_of_true rfl ⟨off, rfl⟩
  | _ => simp [atoi, Ptr.Null]

theorem matchEncoding_wild_iff : matchEncoding m p encodingNames = .error .wildRead ↔ p.Null := by
  have hsafe : ∀ tb : List (String × TransferEncoding), (∀ x ∈ tb, bytes x.1 ≠ []) → ¬ p.Null →
      matchEncoding m p tb ≠ .error .wildRead := by
    intro tb
    induction tb with
    | nil => simp [matchEncoding]
    | cons x tb ih =>
        intro hx hp h
        obtain ⟨hx₀, hx⟩ := List.forall_mem_cons.mp hx
        unfold matchEncoding at h
        cases hc : strncaseEq m (bytes x.1) p with
        | error f =>
            rw [hc] at h
            cases h
            exact hp ((strncaseEq_wild_iff hx₀).mp hc)
        | ok b =>
            rw [hc] at h
            cases b with
            | true => cases h
            | false => exact ih hx hp h
  constructor
  · intro h
    by_contra hp
    exact hsafe encodingNames (by decide) hp h
  · rintro ⟨off, rfl⟩
    rfl

/-- Building an error page reads through no pointer. -/
theorem responseBuildErr_safe (err : ℕ) : responseBuildErr date err s ≠ .error .wildRead := by
  intro h
  exact absurd (raises_responseBuildErr date err s _ h) (by decide)

/-! ### One line -/

theorem dangling_iff {r : Request} {v : HeaderVal} (hv : contractGet r.mem r.headerName = some v) :
    Dangling r ↔ r.headerValue.data.Null ∧
      (v = ⟨.c, .connection⟩ ∨ v = ⟨.transferEncoding, .tEncoding⟩ ∨
        v = ⟨.contentLength, .contentLength⟩) := by
  unfold Dangling
  rw [named_connection hv, named_tEncoding hv, named_contentLength hv]

theorem pure_safe {α : Type} (a : α) : (pure a : Except Fault α) ≠ .error .wildRead := by
  simp [pure, Except.pure]

/-- A computation that reads first fails as the read does, if what follows reads nothing. -/
theorem bind_wild_iff {α β : Type} {x : Except Fault α} {g : α → Except Fault β}
    (hg : ∀ a, g a ≠ .error .wildRead) : (x >>= g) = .error .wildRead ↔ x = .error .wildRead := by
  cases x with
  | error f => simp [Bind.bind, Except.bind]
  | ok a => exact iff_of_false (hg a) (by simp)

/-- **A processor** reads through a pointer to no object exactly for a line without a value and with
one of the three names. -/
theorem Processor.run_wild_iff {v : HeaderVal} (hv : contractGet s.r.mem s.r.headerName = some v) :
    v.processor.run date v.offset s = .error .wildRead ↔ Dangling s.r := by
  rw [dangling_iff hv]
  obtain ⟨hconn, hte, hcl⟩ := processor_field hv
  cases hp : v.processor with
  | connection =>
      obtain rfl := hconn hp
      refine (bind_wild_iff ?_).trans ((strncaseEq_wild_iff (by decide)).trans (by simp [headerHandleGeneric]))
      exact fun _ => pure_safe _
  | tEncoding =>
      obtain rfl := hte hp
      refine (bind_wild_iff ?_).trans (matchEncoding_wild_iff.trans (by simp [headerHandleGeneric]))
      intro te
      cases te with
      | none => exact responseBuildErr_safe _
      | some te => exact pure_safe _
  | contentLength =>
      obtain rfl := hcl hp
      refine (bind_wild_iff ?_).trans (atoi_wild_iff.trans (by simp [headerHandleGeneric]))
      intro n
      split_ifs
      · exact responseBuildErr_safe _
      · exact pure_safe _
  | generic | host | accept | ifModifiedSince =>
      refine iff_of_false (pure_safe _) ?_
      rintro ⟨-, rfl | rfl | rfl⟩ <;> cases hp

/-! ### One call -/

/-- The lines for which a call runs a processor, each as the parser leaves the request. -/
def linesHandled (cfg : Config) (e : Env) : ℕ → Session → List Request
  | 0, _ => []
  | n + 1, s =>
      match parseHeaderLine s.r with
      | .ok (.ok, r) =>
          match cfg.headerGet r.mem r.headerName with
          | none => linesHandled cfg e n { s with r := r }
          | some header =>
              r :: match header.processor.run e.date header.offset { s with r := r } with
                | .ok (_, s') => linesHandled cfg e n s'
                | .error _ => []
      | _ => []

theorem parseHeaderLine_safe (r : Request) : parseHeaderLine r ≠ .error .wildRead := by
  have hbyte : ∀ i q, headerLineByte i q ≠ .stop (.abort .wildRead) := by
    intro i q h
    unfold headerLineByte at h
    cases hs : q.state <;> rw [hs] at h <;> dsimp only at h <;> (try split_ifs at h) <;> cases h
  intro h
  unfold parseHeaderLine at h
  cases hs : Scan.scan headerLineByte r.rb.size r.rb.begin r with
  | more t => rw [hs] at h; cases h
  | stop x =>
      rw [hs] at h
      obtain ⟨k, t, -, -, -, hstop⟩ := scan_headerLine_stop hs
      cases x with
      | abort f => cases h; exact hbyte _ _ hstop
      | ret rc q => cases h
      | done i q => cases h

/-- **One call** reads through a pointer to no object exactly if one of its processors has to. -/
theorem headersLoop_wild_iff (hcfg : cfg.headerGet = contractGet) (e : Env) (n : ℕ) (s : Session) :
    headersLoop cfg e n s = .error .wildRead ↔ ∃ l ∈ linesHandled cfg e n s, Dangling l := by
  induction n generalizing s with
  | zero => simp [headersLoop, linesHandled]
  | succ n ih =>
      unfold linesHandled
      cases hparse : parseHeaderLine s.r with
      | error f =>
          rw [headersLoop, hparse]
          refine iff_of_false (fun h => ?_) (by simp)
          cases h
          exact parseHeaderLine_safe _ hparse
      | ok p =>
          obtain ⟨rc, r⟩ := p
          cases rc with
          | ok =>
              rw [headersLoop_line hparse, hcfg]
              dsimp only
              cases hget : contractGet r.mem r.headerName with
              | none => exact ih _
              | some v =>
                  have hrun := @Processor.run_wild_iff e.date { s with r := r } v hget
                  dsimp only
                  rw [List.exists_mem_cons_iff, ← hrun]
                  cases hv : v.processor.run e.date v.offset { s with r := r } with
                  | error f => simp [Bind.bind, Except.bind]
                  | ok q =>
                      obtain ⟨rc, s'⟩ := q
                      obtain ⟨rfl, -⟩ := Processor.run_same hv
                      refine Iff.trans (ih s') ?_
                      simp
          | _ => simp [headersLoop, hparse, Bind.bind, Except.bind, pure_safe]

/-- The lines handled are lines that the parser delivers. -/
theorem linesHandled_delivered (hcfg : cfg.headerGet = contractGet) {e : Env} {n : ℕ} {r : Request}
    (hsame : SameParse r s.r) {l : Request} (hl : l ∈ linesHandled cfg e n s) :
    ∃ l' ∈ (parseLines n r).1, SameParse l' l := by
  induction n generalizing s r with
  | zero => cases hl
  | succ n ih =>
      have hr : SameParse s.r r :=
        ⟨hsame.rb.symm, hsame.state.symm, hsame.name.symm, hsame.value.symm⟩
      unfold linesHandled at hl
      unfold parseLines
      cases hparse : parseHeaderLine s.r with
      | error f => rw [hparse] at hl; cases hl
      | ok p =>
          obtain ⟨rc, r₁⟩ := p
          rw [hparse] at hl
          rw [hr.parse hparse]
          have hto : SameParse (r.onto r₁) r₁ := ⟨rfl, rfl, rfl, rfl⟩
          cases rc with
          | ok =>
              dsimp only at hl ⊢
              rw [hcfg] at hl
              cases hget : contractGet r₁.mem r₁.headerName with
              | none =>
                  rw [hget] at hl
                  obtain ⟨l', hl', hs⟩ := ih (s := { s with r := r₁ }) hto hl
                  exact ⟨l', List.mem_cons_of_mem _ hl', hs⟩
              | some v =>
                  rw [hget] at hl
                  rcases List.mem_cons.mp hl with rfl | hl
                  · exact ⟨_, List.mem_cons_self, hto⟩
                  · cases hv : v.processor.run e.date v.offset { s with r := r₁ } with
                    | error f => rw [hv] at hl; cases hl
                    | ok q =>
                        obtain ⟨rc, s'⟩ := q
                        rw [hv] at hl
                        have hrun := (Processor.run_same hv).2
                        obtain ⟨l', hl', hs⟩ := ih (s := s') (hto.trans hrun) hl
                        exact ⟨l', List.mem_cons_of_mem _ hl', hs⟩
          | _ => cases hl

/-! ### The whole block -/

/-- The headers of a request up to some call: chunk after chunk, the lines whose processors run, and
the fault that ends the worker, if one does.  Between two calls other handlers may run that leave
what the parser reads. -/
inductive HeaderRun (cfg : Config) : Session → List (List UInt8) → List Request → Option Fault → Prop
  | returned {e : Env} {s s' : Session} {rc : Rc} (h : requestHandleHeaders cfg e s = .ok (rc, s')) :
      HeaderRun cfg s [] (linesHandled cfg e (s.r.rb.size + 1) s) none
  | died {e : Env} {s : Session} {f : Fault} (h : requestHandleHeaders cfg e s = .error f) :
      HeaderRun cfg s [] (linesHandled cfg e (s.r.rb.size + 1) s) (some f)
  | more {e : Env} {s s₁ s₂ : Session} {d : List UInt8} {ds : List (List UInt8)} {ls : List Request}
      {o : Option Fault} (h : requestHandleHeaders cfg e s = .ok (.again, s₁))
      (hsame : SameParse s₁.r s₂.r) (hrest : HeaderRun cfg (s₂.receive d) ds ls o) :
      HeaderRun cfg s (d :: ds) (linesHandled cfg e (s.r.rb.size + 1) s ++ ls) o

/-- The lines handled are lines of the block. -/
theorem HeaderRun.delivered (hcfg : cfg.headerGet = contractGet) {ds : List (List UInt8)}
    {ls : List Request} {o : Option Fault} (h : HeaderRun cfg s ds ls o) :
    ∀ {r : Request}, SameParse r s.r → ∀ l ∈ ls, ∃ l' ∈ blockLines r ds, SameParse l' l := by
  have hcall : ∀ {e : Env} {s : Session} {r : Request}, SameParse r s.r →
      ∀ l ∈ linesHandled cfg e (s.r.rb.size + 1) s, ∃ l' ∈ (callLines r).1, SameParse l' l := by
    intro e s r hsame l hl
    rw [hsame.rb] at hl
    exact linesHandled_delivered hcfg hsame hl
  induction h with
  | returned _ => exact hcall
  | died _ => exact hcall
  | @more e s s₁ s₂ d ds ls o h hother hrest ih =>
      intro r hsame l hl
      have hend := (headersLoop_keepAlive hcfg (n := s.r.rb.size + 1) hsame h).1
      rw [hsame.rb] at hend
      have hnext := hend.trans hother
      have hrb : (s₂.receive d).r.rb = (callLines r).2.rb.put d := by
        show s₂.r.rb.put d = _
        rw [hnext.rb]
        rfl
      rw [blockLines_cons]
      rcases List.mem_append.mp hl with hl | hl
      · obtain ⟨l', hl', hs⟩ := hcall hsame l hl
        exact ⟨l', List.mem_append_left _ hl', hs⟩
      · obtain ⟨l', hl', hs⟩ := ih (r := { (callLines r).2 with rb := (callLines r).2.rb.put d })
          ⟨hrb, hnext.state, hnext.name, hnext.value⟩ l hl
        exact ⟨l', List.mem_append_right _ hl', hs⟩

/-- **A header block in any chunks**: the processors that run, each for a line of the block, read
through objects only, exactly if none of them runs for a line without a value and with one of the
three names. -/
theorem headers_wild_iff (timeout : ℤ) (locations : List Location) {ds : List (List UInt8)}
    {ls : List Request} {o : Option Fault}
    (h : HeaderRun (contractConfig timeout locations) s ds ls o) :
    (o ≠ some .wildRead ↔ ∀ l ∈ ls, ¬ Dangling l) ∧
      ∀ l ∈ ls, ∃ l' ∈ blockLines s.r ds, SameParse l' l := by
  refine ⟨?_, h.delivered rfl (.refl _)⟩
  have hcall := fun e s => @headersLoop_wild_iff (contractConfig timeout locations) rfl e
    (s.r.rb.size + 1) s
  have hok : ∀ {e : Env} {s s' : Session} {rc : Rc},
      requestHandleHeaders (contractConfig timeout locations) e s = .ok (rc, s') →
        ∀ l ∈ linesHandled (contractConfig timeout locations) e (s.r.rb.size + 1) s, ¬ Dangling l := by
    intro e s s' rc h l hl hd
    have := (hcall e s).mpr ⟨l, hl, hd⟩
    unfold requestHandleHeaders at h
    rw [this] at h
    cases h
  induction h with
  | returned h => exact iff_of_true (by simp) (hok h)
  | @died e s f h =>
      have hf : some f ≠ some .wildRead ↔ ¬ requestHandleHeaders (contractConfig timeout locations) e s =
          .error .wildRead := by
        rw [h]
        simp
      refine hf.trans ?_
      unfold requestHandleHeaders
      rw [hcall]
      push Not
      rfl
  | more h hsame hrest ih =>
      refine ih.trans ?_
      rw [List.forall_mem_append]
      exact (and_iff_right (hok h)).symm

/-- Whether the headers of a request that arrives at once end with this fault. -/
def headersFault (d : List UInt8) : Option Fault :=
  match requestHandleRequestLine (contractConfig 60 [⟨false, bytes "/"⟩])
      { idleEnv with resource := fun _ => .file 9 0 } (freshSession d) with
  | .ok (.ok, s) =>
      match requestHandleHeaders (contractConfig 60 [⟨false, bytes "/"⟩]) idleEnv s with
      | .error f => some f
      | .ok _ => none
  | _ => none

/-- An empty `Content-Length` kills the worker. -/
theorem emptyLength_wild : ∃ s ls,
    requestHandleRequestLine (contractConfig 60 [⟨false, bytes "/"⟩])
        { idleEnv with resource := fun _ => .file 9 0 }
        (freshSession (bytes "GET /i.html HTTP/1.1\r\nContent-Length:\r\n\r\n")) = .ok (.ok, s) ∧
      HeaderRun (contractConfig 60 [⟨false, bytes "/"⟩]) s [] ls (some .wildRead) := by
  have hfault : headersFault (bytes "GET /i.html HTTP/1.1\r\nContent-Length:\r\n\r\n") = some .wildRead := by
    decide +kernel
  unfold headersFault at hfault
  split at hfault
  · rename_i s h
    split at hfault
    · rename_i f hf
      cases hfault
      exact ⟨s, _, h, .died hf⟩
    · cases hfault
  · cases hfault

theorem headers_wild_iff_length : ∃ s ls,
    HeaderRun (contractConfig 60 [⟨false, bytes "/"⟩]) s [] ls none ∧ ∀ l ∈ ls, ¬ Dangling l := by
  have hrun : (headersAtOnce (bytes "GET /i.html HTTP/1.1\r\nContent-Length: 3\r\n\r\n")).any
      fun _ => true := by decide +kernel
  obtain ⟨⟨s, s'⟩, hs, -⟩ := Transition.exists_of_any hrun
  obtain ⟨e, h⟩ : ∃ e, requestHandleHeaders (contractConfig 60 [⟨false, bytes "/"⟩]) e s = .ok (.ok, s') := by
    cases (headersAtOnce_phase hs).2 with
    | done h => exact ⟨_, h⟩
  exact ⟨s, _, .returned h, (headers_wild_iff 60 _ (.returned h)).1.mp (by simp)⟩

end SyServer
