import SyServer.BodyPhase

/-! # The length of a forwarded body

`sy_parse_request_body_identity` counts the bytes of the body in `body_received`, an `int`.  A body
that is still to come is forwarded by `sy_handle_pass`, which clears `rb` before the next chunk
(`Forwarded`); `BodyRun` are the calls of `sy_request_handle_body` along the chunks.

The counter is exact below `2 ^ 31`.  The last chunk may take the total over that bound, and then
the counter is negative and the body does not end (`bodyRun_iff`). -/

namespace SyServer

/-! ### The counter -/

/-- What a call of `sy_request_handle_body` answers to `c` more bytes of a body of length `n`, of
which `t` were there. -/
theorem parseRequestBodyIdentity_count {r : Request} {n t : ℤ} (hn : 1 ≤ n) (hlen : r.contentLength = n)
    (hreceived : r.bodyReceived = t) :
    parseRequestBodyIdentity r =
      (if wrap32 (t + r.rb.size) ≥ n then .ok else .again,
        { r with bodyReceived := wrap32 (t + r.rb.size) }) := by
  unfold parseRequestBodyIdentity
  rw [if_neg (by omega), hreceived, hlen]
  dsimp only
  split_ifs <;> rfl

/-! ### The calls -/

/-- What the forwarding and the other handlers leave to the body handler. -/
structure SameBody (r r' : Request) : Prop where
  encoding : r'.tEncoding = r.tEncoding
  length : r'.contentLength = r.contentLength
  received : r'.bodyReceived = r.bodyReceived
  upstream : r'.uc = r.uc

theorem SameBody.refl (r : Request) : SameBody r r := ⟨rfl, rfl, rfl, rfl⟩

theorem SameBody.trans {r₁ r₂ r₃ : Request} (h : SameBody r₁ r₂) (h' : SameBody r₂ r₃) :
    SameBody r₁ r₃ :=
  ⟨h'.encoding.trans h.encoding, h'.length.trans h.length, h'.received.trans h.received,
    h'.upstream.trans h.upstream⟩

/-- Between two calls of the body handler: `sy_handle_pass` until `rb` is sent and cleared, with
other handlers before and behind that leave `rb` and the body. -/
inductive Forwarded : Session → Session → Prop
  | done {e : Env} {s s₁ s' : Session} (h : handlePass e s = .ok (.ok, s₁)) (hrb : s'.r.rb = s₁.r.rb)
      (hsame : SameBody s₁.r s'.r) : Forwarded s s'
  | part {e : Env} {s s₁ s' : Session} (h : handlePass e s = .ok (.again, s₁))
      (hrest : Forwarded s₁ s') : Forwarded s s'
  | other {s s₁ s' : Session} (hrb : s₁.r.rb = s.r.rb) (hsame : SameBody s.r s₁.r)
      (hrest : Forwarded s₁ s') : Forwarded s s'

/-- A call of the body handler: `body_received` before it, the bytes in `rb`, and the answer. -/
structure BodyCall where
  received : ℤ
  size : ℕ
  answer : Except Fault Rc

/-- The call in `s`. -/
def bodyCall (e : Env) (s : Session) : BodyCall :=
  ⟨s.r.bodyReceived, s.r.rb.size, (requestHandleBody e s).map Prod.fst⟩

/-- The calls along the chunks of a body. -/
inductive BodyRun : Session → List BodyCall → Prop
  | last (e : Env) (s : Session) : BodyRun s [bodyCall e s]
  | next {e : Env} {s s₁ s₂ : Session} {d : List UInt8} {cs : List BodyCall}
      (h : requestHandleBody e s = .ok (.again, s₁)) (hpass : Forwarded s₁ s₂)
      (hd : d.length ≤ BUF_SIZE) (hrest : BodyRun (s₂.receive d) cs) :
      BodyRun s (bodyCall e s :: cs)

/-- A forwarded body of length `n`, of which `t` bytes have been counted, with a chunk in `rb`. -/
structure BodyDue (n t : ℤ) (s : Session) : Prop where
  encoding : s.r.tEncoding = .identity
  upstream : s.r.uc ≠ none
  length : s.r.contentLength = n
  received : s.r.bodyReceived = t
  chunk : s.r.rb.size ≤ BUF_SIZE

/-- What the calls should answer to chunks of these sizes: `AGAIN` while the total is below `n`, and
`OK` to the first that reaches it. -/
def bodyAnswers (n : ℤ) : ℤ → List ℕ → List (Except Fault Rc)
  | _, [] => []
  | t, c :: cs => if t + c < n then .ok .again :: bodyAnswers n (t + c) cs else [.ok .ok]

/-- The total is an `int` where it first reaches `n`. -/
def TotalFits (n : ℤ) : ℤ → List ℕ → Prop
  | _, [] => True
  | t, c :: cs => if t + c < n then TotalFits n (t + c) cs else t + c < 2 ^ 31

instance decidableTotalFits (n : ℤ) : ∀ (t : ℤ) (cs : List ℕ), Decidable (TotalFits n t cs)
  | _, [] => .isTrue trivial
  | t, c :: cs =>
      have := decidableTotalFits n (t + c) cs
      inferInstanceAs (Decidable (if t + c < n then TotalFits n (t + c) cs else t + c < 2 ^ 31))

/-- The calls answer as they should, and no addition to the counter overflows. -/
def Counted (n t : ℤ) (cs : List BodyCall) : Prop :=
  cs.map BodyCall.answer = bodyAnswers n t (cs.map BodyCall.size) ∧
    ∀ c ∈ cs, c.received + c.size < 2 ^ 31

section calls

variable {e : Env} {s s' : Session} {n t : ℤ}

/-- **One call.** -/
theorem BodyDue.call (h : BodyDue n t s) (hn : 1 ≤ n) (e : Env) :
    ∃ s', requestHandleBody e s =
        .ok (if wrap32 (t + s.r.rb.size) ≥ n then .ok else .again, s') ∧
      SameBody { s.r with bodyReceived := wrap32 (t + s.r.rb.size) } s'.r := by
  have hcount := parseRequestBodyIdentity_count hn h.length h.received
  have huc := h.upstream
  unfold requestHandleBody
  rw [if_neg (not_not.mpr h.encoding), hcount]
  split_ifs with hreach
  · dsimp only [bodyRespond, enableUpstreamOut]
    rw [if_neg huc]
    unfold rbRewind
    dsimp only
    rw [if_neg huc]
    exact ⟨_, rfl, rfl, rfl, rfl, rfl⟩
  · dsimp only [enableUpstreamOut]
    unfold rbRewind
    dsimp only
    rw [if_neg huc]
    exact ⟨_, rfl, rfl, rfl, rfl, rfl⟩

/-- The forwarding leaves an empty buffer. -/
theorem Forwarded.cleared (h : Forwarded s s') :
    s'.r.rb.begin = 0 ∧ s'.r.rb.end_ = 0 ∧ SameBody s.r s'.r := by
  induction h with
  | @done e s s₁ s' h hrb hsame =>
      unfold handlePass at h
      obtain ⟨err, b, d, hsend⟩ : ∃ err b d, s.r.rb.send e.sends = (err, b, d) := ⟨_, _, _, rfl⟩
      rw [hsend] at h
      dsimp only [Session.note] at h
      split_ifs at h with h1 h2
      · cases h
        rw [hrb]
        exact ⟨rfl, rfl, hsame.encoding, hsame.length, hsame.received, hsame.upstream⟩
      · obtain ⟨⟨rc, s₂⟩, -, h4⟩ := bind_ok h
        cases h4
        exact absurd rfl h1
      · cases h
        exact absurd rfl h1
  | @part e s s₁ s' h hrest ih =>
      obtain ⟨h1, h2, h3⟩ := ih
      refine ⟨h1, h2, SameBody.trans ?_ h3⟩
      unfold handlePass at h
      obtain ⟨err, b, d, hsend⟩ : ∃ err b d, s.r.rb.send e.sends = (err, b, d) := ⟨_, _, _, rfl⟩
      rw [hsend] at h
      dsimp only [Session.note] at h
      split_ifs at h with h4 h5
      · cases h
      · obtain ⟨⟨rc, s₂⟩, -, h6⟩ := bind_ok h
        cases h6
        cases h5
      · cases h
        exact ⟨rfl, rfl, rfl, rfl⟩
  | other hrb hsame hrest ih =>
      obtain ⟨h1, h2, h3⟩ := ih
      exact ⟨h1, h2, hsame.trans h3⟩

/-- The next chunk of a body that is not complete. -/
theorem BodyDue.next {s₁ s₂ : Session} {d : List UInt8} {c : ℤ} (h : BodyDue n t s)
    (hsame : SameBody { s.r with bodyReceived := c } s₁.r) (hpass : Forwarded s₁ s₂)
    (hd : d.length ≤ BUF_SIZE) : BodyDue n c (s₂.receive d) := by
  obtain ⟨h1, h2, h3⟩ := hpass.cleared
  have hall := hsame.trans h3
  refine ⟨hall.encoding.trans h.encoding, ?_, hall.length.trans h.length, hall.received, ?_⟩
  · exact fun huc => h.upstream (hall.upstream.symm.trans huc)
  · unfold Session.receive Buffer.size
    dsimp only [Buffer.put_end, Buffer.put_begin]
    omega

/-- The counter reaches `n` with a total that is an `int`, and with no other. -/
theorem wrap32_reaches_iff {c : ℕ} (hmax : n < 2 ^ 31) (ht : 0 ≤ t) (hlt : t < n) (hc : c ≤ BUF_SIZE) :
    wrap32 (t + c) ≥ n ↔ n ≤ t + c ∧ t + c < 2 ^ 31 := by
  have hbuf : (c : ℤ) ≤ 2048 := by exact_mod_cast hc
  by_cases hfit : t + c < 2 ^ 31
  · rw [wrap32_of_lt (by omega) hfit]
    exact ⟨fun h => ⟨h, hfit⟩, And.left⟩
  · have hneg := wrap32_neg (z := t + c) (by omega) (by omega)
    exact iff_of_false (by omega) fun h => hfit h.2

/-- The calls behind one that answers `AGAIN` below `n`. -/
theorem counted_again {c : BodyCall} {cs : List BodyCall} (hmax : n < 2 ^ 31) (hreceived : c.received = t)
    (hanswer : c.answer = .ok .again) (hlow : t + c.size < n) :
    Counted n t (c :: cs) ↔ Counted n (t + c.size) cs := by
  unfold Counted
  rw [List.map_cons, List.map_cons, bodyAnswers, if_pos hlow, hanswer, List.cons_inj_right,
    List.forall_mem_cons, hreceived]
  have hfit : t + c.size < 2 ^ 31 := hlow.trans hmax
  rw [and_iff_right hfit]

/-- **The calls along any chunks**, from any total below `n`. -/
theorem bodyRun_counted {cs : List BodyCall} (hrun : BodyRun s cs) (hn : 1 ≤ n) (hmax : n < 2 ^ 31)
    (h : BodyDue n t s) (ht : 0 ≤ t) (hlt : t < n) :
    Counted n t cs ↔ TotalFits n t (cs.map BodyCall.size) := by
  induction hrun generalizing t with
  | last e s =>
      obtain ⟨s', hcall, -⟩ := h.call hn e
      have hreach := wrap32_reaches_iff hmax ht hlt h.chunk
      have hanswer : (bodyCall e s).answer =
          .ok (if wrap32 (t + s.r.rb.size) ≥ n then .ok else .again) := by
        unfold bodyCall
        rw [hcall]
        rfl
      unfold Counted
      rw [List.map_singleton, List.map_singleton, hanswer, List.forall_mem_singleton, bodyAnswers,
        TotalFits, show (bodyCall e s).received = t from h.received,
        show (bodyCall e s).size = s.r.rb.size from rfl]
      by_cases hlow : t + s.r.rb.size < n
      · rw [if_pos hlow, if_pos hlow, if_neg (by rw [hreach]; omega)]
        exact iff_of_true ⟨rfl, by omega⟩ trivial
      · rw [if_neg hlow, if_neg hlow]
        refine ⟨And.right, fun hfit => ⟨?_, hfit⟩⟩
        rw [if_pos (hreach.mpr ⟨by omega, hfit⟩)]
  | @next e s s₁ s₂ d cs hcall hpass hd hrest ih =>
      obtain ⟨s', hcall', hsame⟩ := h.call hn e
      have hreach := wrap32_reaches_iff hmax ht hlt h.chunk
      rw [hcall, Except.ok.injEq, Prod.mk.injEq] at hcall'
      obtain ⟨hrc, rfl⟩ := hcall'
      have hnot : ¬ wrap32 (t + s.r.rb.size) ≥ n := by
        intro hr
        rw [if_pos hr] at hrc
        cases hrc
      have hanswer : (bodyCall e s).answer = .ok .again := by
        unfold bodyCall
        rw [hcall]
        rfl
      by_cases hlow : t + s.r.rb.size < n
      · have hexact : wrap32 (t + s.r.rb.size) = t + s.r.rb.size :=
          wrap32_of_lt (by omega) (hlow.trans hmax)
        rw [hexact] at hsame
        rw [counted_again hmax (show (bodyCall e s).received = t from h.received) hanswer hlow,
          List.map_cons, TotalFits, if_pos (show t + (bodyCall e s).size < n from hlow)]
        exact ih (h.next hsame hpass hd) (by omega) hlow
      · -- the counter has gone over
        refine iff_of_false ?_ ?_
        · rintro ⟨hall, -⟩
          rw [List.map_cons, List.map_cons, bodyAnswers, if_neg (show ¬ t + (bodyCall e s).size < n from hlow),
            hanswer] at hall
          exact absurd (List.cons.inj hall).1 (by simp)
        · rw [List.map_cons, TotalFits, if_neg (show ¬ t + (bodyCall e s).size < n from hlow)]
          intro hfit
          exact hnot (hreach.mpr ⟨by omega, hfit⟩)

/-- **Body length**: for a forwarded body of any length `n` and any chunks, the calls of
`sy_request_handle_body` answer `AGAIN` below `n` and `OK` where the total reaches it, without an
overflow of the counter, exactly if that total is an `int`. -/
theorem bodyRun_iff {cs : List BodyCall} (hn : 1 ≤ n) (hmax : n ≤ 2 ^ 31 - 1) (h : BodyDue n 0 s)
    (hrun : BodyRun s cs) : Counted n 0 cs ↔ TotalFits n 0 (cs.map BodyCall.size) :=
  bodyRun_counted hrun hn (by omega) h le_rfl (by omega)

/-! ### A body that does not end -/

/-- An upstream that takes all of `rb`. -/
theorem exists_forwarded (s : Session) : ∃ s', Forwarded s s' := by
  have hsend : (s.r.rb.send [.sent s.r.rb.size]).1 = .ok := by
    unfold Buffer.send
    split_ifs with h0
    · rfl
    · dsimp only
      rw [min_self, Buffer.send, if_pos]
      unfold Buffer.size
      dsimp only
      omega
  obtain ⟨s₁, h⟩ : ∃ s₁, handlePass { idleEnv with sends := [.sent s.r.rb.size] } s = .ok (.ok, s₁) := by
    unfold handlePass
    dsimp only
    rw [if_pos hsend]
    exact ⟨_, rfl⟩
  exact ⟨s₁, .done h rfl (.refl _)⟩

/-- Chunks of one size, as long as the total before the last is below `n`. -/
theorem exists_bodyRun {k c : ℕ} (hn : 1 ≤ n) (hmax : n < 2 ^ 31) (h : BodyDue n t s) (ht : 0 ≤ t)
    (hsize : s.r.rb.size = c) (hlow : t + k * c < n) :
    ∃ cs, BodyRun s cs ∧ cs.map BodyCall.size = List.replicate (k + 1) c := by
  induction k generalizing s t with
  | zero => exact ⟨_, .last idleEnv s, by rw [← hsize]; rfl⟩
  | succ k ih =>
      push_cast at hlow
      rw [add_mul, one_mul] at hlow
      have hpos : (0 : ℤ) ≤ k * c := by positivity
      obtain ⟨s₁, hcall, hsame⟩ := h.call hn idleEnv
      have hexact : wrap32 (t + s.r.rb.size) = t + c := by
        rw [hsize]
        exact wrap32_of_lt (by omega) (by omega)
      rw [hexact, if_neg (by omega)] at hcall
      rw [hexact] at hsame
      obtain ⟨s₂, hpass⟩ := exists_forwarded s₁
      have hchunk : (List.replicate c (0 : UInt8)).length ≤ BUF_SIZE := by
        rw [List.length_replicate, ← hsize]
        exact h.chunk
      have hnext := h.next hsame hpass hchunk
      have hcleared := hpass.cleared
      have hsize' : (s₂.receive (List.replicate c 0)).r.rb.size = c := by
        unfold Session.receive Buffer.size
        dsimp only [Buffer.put_end, Buffer.put_begin]
        rw [List.length_replicate, hcleared.1, hcleared.2.1]
        omega
      obtain ⟨cs, hrun, hsizes⟩ := ih hnext (by omega) hsize' (by omega)
      refine ⟨_, .next hcall hpass hchunk hrun, ?_⟩
      rw [List.map_cons, hsizes, List.replicate_succ (n := k + 1), ← hsize]
      rfl

theorem totalFits_replicate {k c : ℕ} (hlow : t + k * c < n) (hhigh : n ≤ t + (k + 1) * c) :
    TotalFits n t (List.replicate (k + 1) c) ↔ t + (k + 1) * c < 2 ^ 31 := by
  induction k generalizing t with
  | zero =>
      rw [List.replicate_one, TotalFits, if_neg (by simpa using hhigh)]
      simp
  | succ k ih =>
      push_cast at hlow hhigh ⊢
      have hpos : (0 : ℤ) ≤ k * c := by positivity
      have hsplit : t + (k + 1 + 1) * c = t + c + (k + 1) * c := by ring
      rw [List.replicate_succ, TotalFits, if_pos (by linarith), hsplit]
      exact ih (by linarith) (by linarith)

/-- A forwarded body of length `n` behind the headers, with `c` bytes of it in `rb`. -/
def forwardedBody (n : ℤ) (c : ℕ) : Session :=
  { Server.boot.session 0 with
    r := { Request.zeroed with
      tEncoding := .identity
      uc := some 1
      contentLength := n
      rb := { Request.zeroed.rb with end_ := c } } }

theorem forwardedBody_due {c : ℕ} (hc : c ≤ BUF_SIZE) : BodyDue n 0 (forwardedBody n c) :=
  ⟨rfl, by simp [forwardedBody], rfl, rfl, hc⟩

theorem bodyRun_iff_short :
    ∃ cs, BodyRun (forwardedBody 5 3) cs ∧ cs.map BodyCall.size = [3, 3] ∧ Counted 5 0 cs := by
  have hdue := forwardedBody_due (n := 5) (c := 3) (by decide)
  obtain ⟨cs, hrun, hsizes⟩ :=
    exists_bodyRun (k := 1) (c := 3) (by norm_num) (by norm_num) hdue le_rfl rfl (by norm_num)
  refine ⟨cs, hrun, hsizes, (bodyRun_iff (by norm_num) (by norm_num) hdue hrun).mpr ?_⟩
  rw [hsizes]
  decide

/-- A body of `INT_MAX` bytes in full buffers: the total is `2 ^ 31` where it reaches the length. -/
theorem fullBuffers_overflow :
    ∃ s cs, BodyDue 2147483647 0 s ∧ BodyRun s cs ∧
      cs.map BodyCall.size = List.replicate 1048576 2048 ∧ ¬ Counted 2147483647 0 cs := by
  have hdue := forwardedBody_due (n := 2147483647) (c := 2048) (by decide)
  obtain ⟨cs, hrun, hsizes⟩ :=
    exists_bodyRun (k := 1048575) (c := 2048) (by norm_num) (by norm_num) hdue le_rfl rfl (by norm_num)
  refine ⟨_, cs, hdue, hrun, hsizes, fun h => ?_⟩
  have hfits := (bodyRun_counted hrun (by norm_num) (by norm_num) hdue le_rfl (by norm_num)).mp h
  rw [hsizes, totalFits_replicate (by norm_num) (by norm_num)] at hfits
  norm_num at hfits

end calls

end SyServer
