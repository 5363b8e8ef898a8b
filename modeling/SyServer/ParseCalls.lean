import SyServer.ParseSpec

/-! # What one call of a parser answers

`sy_parse_request_line` and `sy_parse_header_line` as their callers see them.  A call that runs
out of bytes has consumed the read buffer; a call that ends a line leaves `rb.begin` behind the
line feed and the parser in `HL_S_BEGIN`; a call that answers an error leaves `rb` alone.  Called
in a state of its own, a parser fails no assertion. -/

namespace SyServer

open Scan (Step scan scan_inv scan_stop_inv)

variable {r r' : Request} {rc : Rc}

/-! ### The request line -/

theorem scan_requestLine_frame {n i : ℕ} {r₁ : Request}
    (h : scan requestLineByte n i r = .more r₁) : LineFrame r r₁ :=
  scan_inv (fun _ => LineFrame r) (i + n)
    (fun i s s' _ hs hm => hs.trans (by have := requestLineByte_frame i s; rwa [hm] at this))
    le_rfl (LineFrame.refl r) h

/-- The last byte of a loop that is left, with the request before it. -/
theorem scan_requestLine_stop {n i : ℕ} {e : Exit} (h : scan requestLineByte n i r = .stop e) :
    ∃ k r₁, k < n ∧ LineFrame r r₁ ∧ requestLineByte (i + k) r₁ = .stop e := by
  obtain ⟨k, hk, r₁, hm, -, hstop⟩ :=
    scan_stop_inv (fun _ _ => True) (i + n) (fun _ _ _ _ _ _ => trivial) le_rfl trivial h
  exact ⟨k, r₁, hk, scan_requestLine_frame hm, hstop⟩

/-- The three ways a call can answer. -/
theorem parseRequestLine_cases (h : parseRequestLine r = .ok (rc, r')) :
    (rc = .again ∧ ∃ r₁, LineFrame r r₁ ∧ r' = rbConsumed r₁ ∧
      scan requestLineByte r.rb.size r.rb.begin r = .more r₁) ∨
    (rc = .ok ∧ ∃ p r₁ l, LineFrame r r₁ ∧ r.rb.begin ≤ p ∧ p < r.rb.end_ ∧ r.rb.mem p = cLf ∧
      r' = { rbAfter p r₁ with requestLine := l, state := .hlBegin }) ∨
    (rc ≠ .again ∧ rc ≠ .ok ∧ LineFrame r r') := by
  unfold parseRequestLine at h
  cases hs : scan requestLineByte r.rb.size r.rb.begin r with
  | more r₁ =>
      rw [hs] at h
      cases h
      exact .inl ⟨rfl, r₁, scan_requestLine_frame hs, rfl, rfl⟩
  | stop e =>
      rw [hs] at h
      obtain ⟨k, r₁, hk, hf, hstop⟩ := scan_requestLine_stop hs
      cases e with
      | abort f => cases h
      | ret rc₁ r₂ =>
          cases h
          have hrc := requestLineByte_ret hstop
          have := requestLineByte_frame (r.rb.begin + k) r₁
          rw [hstop] at this
          exact .inr (.inr ⟨hrc.2, hrc.1, hf.trans this⟩)
      | done p r₂ =>
          cases h
          obtain ⟨rfl, rfl, hst⟩ := requestLineByte_done hstop
          have hlf : r₂.rb.mem (r.rb.begin + k) = cLf := by
            unfold requestLineByte at hstop
            rcases hst with hst | hst <;> rw [hst] at hstop <;> dsimp only at hstop <;>
              split_ifs at hstop <;> first | assumption | cases hstop
          have hrb : r₂.rb = r.rb := by obtain ⟨_, _, _, _, _, rfl⟩ := hf; rfl
          rw [hrb] at hlf
          unfold Buffer.size at hk
          exact .inr (.inl ⟨rfl, r.rb.begin + k, r₂, _, hf, by omega, by omega, hlf, rfl⟩)

/-- A call in one of its own states fails no assertion, and one that runs out of bytes stays in
them. -/
theorem parseRequestLine_ready (hr : LineReady r) :
    ∃ rc r', parseRequestLine r = .ok (rc, r') ∧ (rc = .again → LineReady r') := by
  have hstep : ∀ i s s', i < r.rb.begin + r.rb.size → LineReady s →
      requestLineByte i s = .more s' → LineReady s' := by
    intro i s s' _ hs hm
    have := requestLineByte_ready (i := i) hs
    rwa [hm] at this
  unfold parseRequestLine
  cases hs : scan requestLineByte r.rb.size r.rb.begin r with
  | more r₁ =>
      have hr₁ := scan_inv (fun _ => LineReady) _ hstep le_rfl hr hs
      exact ⟨.again, rbConsumed r₁, rfl, fun _ => ⟨hr₁.state, hr₁.method, hr₁.uri⟩⟩
  | stop e =>
      obtain ⟨k, -, t, -, ht, hstop⟩ := scan_stop_inv (fun _ => LineReady) _ hstep le_rfl hr hs
      have hsafe := requestLineByte_ready (i := r.rb.begin + k) ht
      rw [hstop] at hsafe
      cases e with
      | abort f => exact hsafe.elim
      | done p r₁ => exact ⟨_, _, rfl, fun h => by cases h⟩
      | ret rc r₁ => exact ⟨_, _, rfl, fun h => absurd h (requestLineByte_ret hstop).2⟩

/-- In a state of the header parser only the empty read buffer is survived. -/
theorem parseRequestLine_headerLine (hst : r.state.headerLine = true) :
    parseRequestLine r = .ok (.again, rbConsumed r) ∨ parseRequestLine r = .error .requestLineState := by
  unfold parseRequestLine
  cases hn : r.rb.size with
  | zero => exact .inl rfl
  | succ n =>
      have hbyte : requestLineByte r.rb.begin r = .stop (.abort .requestLineState) := by
        unfold requestLineByte
        cases hs : r.state <;> rw [hs] at hst <;> first | rfl | cases hst
      rw [Scan.scan_succ, hbyte]
      exact .inr rfl

theorem parseRequestLine_wrong (hst : r.state.headerLine = true)
    (h : parseRequestLine r = .ok (rc, r')) : rc = .again ∧ r' = rbConsumed r := by
  rcases parseRequestLine_headerLine hst with hp | hp <;> rw [hp] at h <;> cases h
  exact ⟨rfl, rfl⟩

/-- What a call leaves of the request. -/
theorem parseRequestLine_frame (h : parseRequestLine r = .ok (rc, r')) :
    ∃ m v st l u k, r' = { r with
      method := m, version := v, state := st, requestLine := l, uri := u
      rb := { r.rb with begin := k } } ∧ (r.rb.begin ≤ r.rb.end_ → k ≤ r.rb.end_) := by
  rcases parseRequestLine_cases h with ⟨-, r₁, hf, rfl, -⟩ | ⟨-, p, r₁, l, hf, -, hp, -, rfl⟩ | ⟨-, -, hf⟩
  · obtain ⟨m, v, st, l, u, rfl⟩ := hf
    exact ⟨m, v, st, l, u, _, rfl, fun _ => le_rfl⟩
  · obtain ⟨m, v, st, l', u, rfl⟩ := hf
    exact ⟨m, v, _, l, u, _, rfl, fun _ => hp⟩
  · obtain ⟨m, v, st, l, u, rfl⟩ := hf
    exact ⟨m, v, st, l, u, _, rfl, id⟩

/-- A complete request line ends in a line feed, and the header lines begin behind it. -/
theorem parseRequestLine_done (h : parseRequestLine r = .ok (.ok, r')) :
    r'.state = .hlBegin ∧
      ∃ p < r.rb.end_, r.rb.mem p = cLf ∧ r'.rb = { r.rb with begin := p + 1 } := by
  rcases parseRequestLine_cases h with ⟨h0, -⟩ | ⟨-, p, r₁, l, hf, -, hp, hlf, rfl⟩ | ⟨-, h0, -⟩
  · cases h0
  · obtain ⟨m, v, st, l', u, rfl⟩ := hf
    exact ⟨rfl, p, hp, hlf, rfl⟩
  · exact absurd rfl h0

/-! ### Header lines -/

theorem scan_headerLine_frame {n i : ℕ} {r₁ : Request}
    (h : scan headerLineByte n i r = .more r₁) : HeaderFrame r r₁ :=
  scan_inv (fun _ => HeaderFrame r) (i + n)
    (fun i s s' _ hs hm => hs.trans (by have := headerLineByte_frame i s; rwa [hm] at this))
    le_rfl (HeaderFrame.refl r) h

theorem scan_headerLine_stop {n i : ℕ} {e : Exit} (h : scan headerLineByte n i r = .stop e) :
    ∃ k r₁, k < n ∧ HeaderFrame r r₁ ∧ scan headerLineByte k i r = .more r₁ ∧
      headerLineByte (i + k) r₁ = .stop e := by
  obtain ⟨k, hk, r₁, hm, -, hstop⟩ :=
    scan_stop_inv (fun _ _ => True) (i + n) (fun _ _ _ _ _ _ => trivial) le_rfl trivial h
  exact ⟨k, r₁, hk, scan_headerLine_frame hm, hm, hstop⟩

/-- The two ways a call can answer. -/
theorem parseHeaderLine_cases (h : parseHeaderLine r = .ok (rc, r')) :
    (rc = .again ∧ ∃ r₁, HeaderFrame r r₁ ∧ r' = rbConsumed r₁ ∧
      scan headerLineByte r.rb.size r.rb.begin r = .more r₁) ∨
    (∃ k r₁ r₂, rc = (if r₂.headerName.data = .NULL then .emptyLine else .ok) ∧
      k < r.rb.size ∧ HeaderFrame r r₂ ∧ scan headerLineByte k r.rb.begin r = .more r₁ ∧
      headerLineByte (r.rb.begin + k) r₁ = .stop (.done (r.rb.begin + k) r₂) ∧
      r' = { rbAfter (r.rb.begin + k) r₂ with state := .hlBegin }) := by
  unfold parseHeaderLine at h
  cases hs : scan headerLineByte r.rb.size r.rb.begin r with
  | more r₁ =>
      rw [hs] at h
      cases h
      exact .inl ⟨rfl, r₁, scan_headerLine_frame hs, rfl, rfl⟩
  | stop e =>
      rw [hs] at h
      obtain ⟨k, r₁, hk, hf, hm, hstop⟩ := scan_headerLine_stop hs
      cases e with
      | abort f => cases h
      | ret rc₁ r₂ => exact absurd hstop headerLineByte_ret
      | done p r₂ =>
          cases h
          obtain rfl := headerLineByte_done hstop
          have := headerLineByte_frame (r.rb.begin + k) r₁
          rw [hstop] at this
          exact .inr ⟨k, r₁, r₂, rfl, hk, hf.trans this, hm, hstop, rfl⟩

/-- What a call leaves of the request. -/
theorem parseHeaderLine_frame (h : parseHeaderLine r = .ok (rc, r')) :
    ∃ n v st b, r' = { r with headerName := n, headerValue := v, state := st, rb := b } ∧
      b.end_ = r.rb.end_ ∧ (r.rb.begin ≤ r.rb.end_ → b.begin ≤ r.rb.end_) := by
  rcases parseHeaderLine_cases h with ⟨-, r₁, hf, rfl, -⟩ | ⟨k, r₁, r₂, -, hk, hf, -, -, rfl⟩
  · obtain ⟨n, v, st, b, rfl, -, -, hend⟩ := hf
    exact ⟨n, v, st, _, rfl, hend, fun _ => hend.le⟩
  · obtain ⟨n, v, st, b, rfl, -, -, hend⟩ := hf
    unfold Buffer.size at hk
    exact ⟨n, v, _, _, rfl, hend, fun _ => by show r.rb.begin + k + 1 ≤ r.rb.end_; omega⟩

/-- A call in one of its own states fails no assertion and stays in them. -/
theorem parseHeaderLine_ready (hr : HeaderReady r) :
    ∃ rc r', parseHeaderLine r = .ok (rc, r') ∧ HeaderReady r' := by
  have hstep : ∀ i s s', i < r.rb.begin + r.rb.size → HeaderReady s →
      headerLineByte i s = .more s' → HeaderReady s' := by
    intro i s s' _ hs hm
    have := headerLineByte_ready (i := i) hs
    rwa [hm] at this
  unfold parseHeaderLine
  cases hs : scan headerLineByte r.rb.size r.rb.begin r with
  | more r₁ =>
      have hr₁ := scan_inv (fun _ => HeaderReady) _ hstep le_rfl hr hs
      exact ⟨.again, rbConsumed r₁, rfl, hr₁⟩
  | stop e =>
      obtain ⟨k, -, t, -, ht, hstop⟩ := scan_stop_inv (fun _ => HeaderReady) _ hstep le_rfl hr hs
      have hsafe := headerLineByte_ready (i := r.rb.begin + k) ht
      rw [hstop] at hsafe
      cases e with
      | abort f => exact hsafe.elim
      | done p r₁ => exact ⟨_, _, rfl, rfl⟩
      | ret rc r₁ => exact absurd hstop headerLineByte_ret

end SyServer
