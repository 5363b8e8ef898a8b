import SyServer.HeaderLines
import SyServer.Sessions

/-! # The relay from the client to the upstream

Bytes of a proxied request go from the client's socket into `rb`, are parsed in place, and go
from `rb` to the upstream's socket.  `rx` and `tx` are the bytes received from the client and sent
to the upstream since the request began.

Reading and forwarding exclude each other: while `EVENTS_OUT` of the upstream connection is on,
`EVENTS_IN` of the front connection is off and no event of it is pending (`Relay.quiet`).  Before
the forwarding starts, the whole of `rb` stands for the bytes received; then the part from
`rb.begin` on does, behind what has been sent.

* `NameScan`: what the header parser does to the bytes of `rb`.
* `relay_integrity`: nothing is lost, doubled or changed, but for the names of header lines. -/

namespace SyServer

open Scan (Step scan scan_inv)
open Transition (Reach exec along_true exists_of_any)

/-! ### What the log says of the request -/

/-- The bytes received from the client since the request began. -/
def rx : List Action → List UInt8
  | [] => []
  | .cleared _ :: _ => []
  | .received d :: l => rx l ++ d
  | _ :: l => rx l

/-- The bytes sent to the upstream since the request began. -/
def tx : List Action → List UInt8
  | [] => []
  | .cleared _ :: _ => []
  | .forwarded d :: l => tx l ++ d
  | _ :: l => tx l

/-- Where `sy_request_handle_headers` saw the end of the headers, once it has. -/
def headersEnd : List Action → Option ℕ
  | [] => none
  | .cleared _ :: _ => none
  | .headersEnd n :: _ => some n
  | _ :: l => headersEnd l

/-! ### Names of header lines -/

/-- Position `k` is in the leading name run of a line other than the first. -/
def InName (l : List UInt8) (k : ℕ) : Prop :=
  ∃ j < k, l[j]? = some cLf ∧ ∀ i, j < i → i ≤ k → ∃ c ∈ l[i]?, nameByte c = true

/-- What the header parser does to a byte of a name. -/
def NameChange (c c' : UInt8) : Prop :=
  isUpper c = true ∧ c' = toLower c ∨ c = cDash ∧ c' = cUnderscore

/-- Byte `c'` for byte `c` at position `k`: the same, or changed in a name of a header line. -/
def NameOnly (l : List UInt8) (hend : Option ℕ) (k : ℕ) (c c' : UInt8) : Prop :=
  c' = c ∨ InName l k ∧ NameChange c c' ∧ ∀ n ∈ hend, k < n

/-- `out` is `l`, up to names of header lines. -/
structure SameButNames (l : List UInt8) (hend : Option ℕ) (out : List UInt8) : Prop where
  length : out.length = l.length
  byte : ∀ (k : ℕ) (c c' : UInt8), l[k]? = some c → out[k]? = some c' → NameOnly l hend k c c'

theorem InName.append {l : List UInt8} {k : ℕ} (h : InName l k) (d : List UInt8) :
    InName (l ++ d) k := by
  obtain ⟨j, hj, hlf, hrun⟩ := h
  refine ⟨j, hj, ?_, fun i h1 h2 => ?_⟩
  · exact List.getElem?_append_left (List.getElem?_eq_some_iff.mp hlf).1 ▸ hlf
  · obtain ⟨c, hc, hn⟩ := hrun i h1 h2
    exact ⟨c, List.getElem?_append_left (List.getElem?_eq_some_iff.mp hc).1 ▸ hc, hn⟩

/-- More bytes on both sides. -/
theorem SameButNames.append {l out : List UInt8} {hend : Option ℕ} (h : SameButNames l hend out)
    (d : List UInt8) : SameButNames (l ++ d) hend (out ++ d) where
  length := by simp [h.length]
  byte k c c' hc hc' := by
    by_cases hk : k < l.length
    · rw [List.getElem?_append_left hk] at hc
      rw [List.getElem?_append_left (by rw [h.length]; exact hk)] at hc'
      exact (h.byte k c c' hc hc').imp_right fun hn => ⟨hn.1.append d, hn.2⟩
    · rw [List.getElem?_append_right (by omega)] at hc
      rw [List.getElem?_append_right (by rw [h.length]; omega), h.length, hc] at hc'
      exact .inl (Option.some.inj hc').symm

/-! ### The header parser on the bytes received -/

/-- The header loop at position `i`: `l` are the bytes received, and `rb` holds them up to the
names it has read. -/
structure NameScan (l : List UInt8) (i : ℕ) (r : Request) : Prop where
  length : l.length = r.rb.end_
  done : ∀ k c, k < i → l[k]? = some c → c = r.rb.mem k ∨ InName l k ∧ NameChange c (r.rb.mem k)
  rest : ∀ k c, i ≤ k → l[k]? = some c → r.rb.mem k = c
  begin : r.state = .hlBegin → ∃ j, i = j + 1 ∧ l[j]? = some cLf
  name : r.state = .hlName → ∃ j < i, l[j]? = some cLf ∧
    ∀ k, j < k → k < i → ∃ c ∈ l[k]?, nameByte c = true

section names

variable {l : List UInt8} {i : ℕ} {r r' : Request}

theorem NameScan.here (h : NameScan l i r) (hi : i < r.rb.end_) : l[i]? = some (r.rb.mem i) := by
  have hl : i < l.length := by rw [h.length]; exact hi
  rw [List.getElem?_eq_getElem hl, h.rest i _ le_rfl (List.getElem?_eq_getElem hl)]

theorem NameScan.congr (h : NameScan l i r) (hmem : r'.rb.mem = r.rb.mem)
    (hend : r'.rb.end_ = r.rb.end_) (hst : r'.state = r.state) : NameScan l i r' := by
  refine ⟨?_, ?_, ?_, ?_, ?_⟩
  · rw [hend]; exact h.length
  · rw [hmem]; exact h.done
  · rw [hmem]; exact h.rest
  · rw [hst]; exact h.begin
  · rw [hst]; exact h.name

/-- In a name, or where one starts: the line feed before it. -/
theorem NameScan.run (h : NameScan l i r) (hst : r.state = .hlName ∨ r.state = .hlBegin) :
    ∃ j < i, l[j]? = some cLf ∧ ∀ k, j < k → k < i → ∃ c ∈ l[k]?, nameByte c = true := by
  rcases hst with hst | hst
  · exact h.name hst
  · obtain ⟨j, rfl, hlf⟩ := h.begin hst
    exact ⟨j, by omega, hlf, fun k h1 h2 => by omega⟩

theorem NameScan.run_next (h : NameScan l i r) (hi : i < r.rb.end_)
    (hst : r.state = .hlName ∨ r.state = .hlBegin) (hn : nameByte (r.rb.mem i) = true) :
    ∃ j < i, l[j]? = some cLf ∧ ∀ k, j < k → k ≤ i → ∃ c ∈ l[k]?, nameByte c = true := by
  obtain ⟨j, hj, hlf, hrun⟩ := h.run hst
  refine ⟨j, hj, hlf, fun k h1 h2 => ?_⟩
  rcases h2.lt_or_eq with h2 | rfl
  · exact hrun k h1 h2
  · exact ⟨_, h.here hi, hn⟩

/-- A byte that is left alone. -/
theorem NameScan.keep (h : NameScan l i r) (hi : i < r.rb.end_) (hrb : r'.rb = r.rb)
    (hbegin : r'.state = .hlBegin → r.rb.mem i = cLf)
    (hname : r'.state = .hlName →
      (r.state = .hlName ∨ r.state = .hlBegin) ∧ nameByte (r.rb.mem i) = true) :
    NameScan l (i + 1) r' where
  length := by rw [hrb]; exact h.length
  done k c hk hc := by
    rw [hrb]
    rcases (Nat.lt_succ_iff.mp hk).lt_or_eq with hk | rfl
    · exact h.done k c hk hc
    · exact .inl (h.rest k c le_rfl hc).symm
  rest k c hk hc := by
    rw [hrb]
    exact h.rest k c (by omega) hc
  begin hst := ⟨i, rfl, by rw [h.here hi, hbegin hst]⟩
  name hst := by
    obtain ⟨h1, h2⟩ := hname hst
    obtain ⟨j, hj, hlf, hrun⟩ := h.run_next hi h1 h2
    exact ⟨j, by omega, hlf, fun k hk1 hk2 => hrun k hk1 (by omega)⟩

/-- A byte of a name that is rewritten. -/
theorem NameScan.rewrite (h : NameScan l i r) (hi : i < r.rb.end_)
    (hst : r.state = .hlName ∨ r.state = .hlBegin) {c' : UInt8} (hc : NameChange (r.rb.mem i) c')
    (hrb : r'.rb = r.rb.write i c') (hst' : r'.state = .hlName) : NameScan l (i + 1) r' := by
  have hn : nameByte (r.rb.mem i) = true := by
    rcases hc with ⟨h1, -⟩ | ⟨h1, -⟩ <;> simp [nameByte, h1]
  obtain ⟨j, hj, hlf, hrun⟩ := h.run_next hi hst hn
  refine ⟨?_, fun k c hk hkc => ?_, fun k c hk hkc => ?_, fun hb => ?_, fun _ => ?_⟩
  · rw [hrb]; exact h.length
  · rw [hrb]
    rcases (Nat.lt_succ_iff.mp hk).lt_or_eq with hk | rfl
    · have : (r.rb.write i c').mem k = r.rb.mem k := by simp [Buffer.write, Function.update, hk.ne]
      rw [this]
      exact h.done k c hk hkc
    · have : (r.rb.write k c').mem k = c' := by simp [Buffer.write]
      rw [this, ← h.rest k c le_rfl hkc]
      exact .inr ⟨⟨j, hj, hlf, hrun⟩, hc⟩
  · rw [hrb]
    have : (r.rb.write i c').mem k = r.rb.mem k := by
      simp [Buffer.write, Function.update, (show k ≠ i by omega)]
    rw [this]
    exact h.rest k c (by omega) hkc
  · rw [hst'] at hb; cases hb
  · exact ⟨j, by omega, hlf, fun k hk1 hk2 => hrun k hk1 (by omega)⟩

/-- One byte of the header loop. -/
theorem NameScan.step (h : NameScan l i r) (hi : i < r.rb.end_)
    (hm : headerLineByte i r = .more r') : NameScan l (i + 1) r' := by
  unfold headerLineByte at hm
  cases hs : r.state <;> rw [hs] at hm <;> dsimp only at hm
  case hlBegin =>
      split_ifs at hm with h1 h2 h3 <;> cases hm
      · exact h.rewrite hi (.inr hs) (.inl ⟨h1, rfl⟩) rfl rfl
      · exact h.rewrite hi (.inr hs) (.inr ⟨h2, by rw [h2]; rfl⟩) rfl rfl
      · refine h.keep hi rfl (fun e => by cases e) fun _ => ⟨.inr hs, ?_⟩
        unfold nameByte
        rw [Bool.or_assoc (isUpper _), h3]
        simp
      all_goals exact h.keep hi rfl (fun e => by cases e) fun e => by cases e
  case hlIgnore =>
      split_ifs at hm with h1 <;> cases hm
      · exact h.keep hi rfl (fun _ => h1) fun e => by cases e
      · exact h.keep hi rfl (fun e => absurd (hs.symm.trans e) (by simp))
          fun e => absurd (hs.symm.trans e) (by simp)
  case hlName =>
      split_ifs at hm with h1 h2 h3 <;> cases hm
      · exact h.rewrite hi (.inl hs) (.inl ⟨h1, rfl⟩) rfl rfl
      · exact h.rewrite hi (.inl hs) (.inr ⟨h2, by rw [h2]; rfl⟩) rfl rfl
      · refine h.keep hi rfl (fun e => absurd (hs.symm.trans e) (by simp)) fun _ => ⟨.inl hs, ?_⟩
        unfold nameByte
        rw [Bool.or_assoc (isUpper _), h3]
        simp
      all_goals exact h.keep hi rfl (fun e => by cases e) fun e => by cases e
  all_goals
    (try split_ifs at hm) <;> cases hm <;>
      first
        | exact h.keep hi rfl (fun e => by cases e) fun e => by cases e
        | exact h.keep hi rfl (fun e => absurd (hs.symm.trans e) (by simp))
            fun e => absurd (hs.symm.trans e) (by simp)

/-- Behind the request line, which the parser has left alone. -/
theorem NameScan.start {p : ℕ} (hl : r.rb.slice 0 r.rb.end_ = l) (hp : p < r.rb.end_)
    (hlf : r.rb.mem p = cLf) (hst : r.state = .hlBegin) : NameScan l (p + 1) r := by
  have hbyte : ∀ (k : ℕ) (c : UInt8), l[k]? = some c → r.rb.mem k = c := fun k c hk => by
    subst hl
    obtain ⟨hlt, rfl⟩ := List.getElem?_eq_some_iff.mp hk
    rw [Buffer.getElem_slice, Nat.zero_add]
  have hlen : l.length = r.rb.end_ := by subst hl; simp
  refine ⟨hlen, fun k c _ hc => .inl (hbyte k c hc).symm, fun k c _ hc => hbyte k c hc,
    fun _ => ⟨p, rfl, ?_⟩, fun hn => absurd (hst.symm.trans hn) (by simp)⟩
  have hpl : p < l.length := by rw [hlen]; exact hp
  rw [List.getElem?_eq_getElem hpl, ← hbyte p _ (List.getElem?_eq_getElem hpl), hlf]

/-- More bytes are received. -/
theorem NameScan.receive {s : Session} (h : NameScan l i s.r) (d : List UInt8) :
    NameScan (l ++ d) i (s.receive d).r := by
  have hlf : ∀ {j : ℕ} {c : UInt8}, l[j]? = some c → (l ++ d)[j]? = some c := fun {j c} hj =>
    List.getElem?_append_left (List.getElem?_eq_some_iff.mp hj).1 ▸ hj
  have hmem : ∀ k, k < l.length → (s.receive d).r.rb.mem k = s.r.rb.mem k := fun k hk =>
    s.r.rb.put_mem_lt d (by rw [← h.length]; exact hk)
  have hnew : ∀ (k : ℕ) (c : UInt8), l.length ≤ k → (l ++ d)[k]? = some c →
      (s.receive d).r.rb.mem k = c := fun k c hk hc => by
    rw [List.getElem?_append_right hk, h.length] at hc
    obtain ⟨hlt, rfl⟩ := List.getElem?_eq_some_iff.mp hc
    have := s.r.rb.put_mem_ge d _ hlt
    rwa [show s.r.rb.end_ + (k - s.r.rb.end_) = k by rw [← h.length]; omega] at this
  refine ⟨?_, fun k c hk hc => ?_, fun k c hk hc => ?_, fun hst => ?_, fun hst => ?_⟩
  · rw [List.length_append, h.length]; rfl
  · rcases Nat.lt_or_ge k l.length with hkl | hkl
    · rw [List.getElem?_append_left hkl] at hc
      rw [hmem k hkl]
      exact (h.done k c hk hc).imp_right fun hn => ⟨hn.1.append d, hn.2⟩
    · exact .inl (hnew k c hkl hc).symm
  · rcases Nat.lt_or_ge k l.length with hkl | hkl
    · rw [List.getElem?_append_left hkl] at hc
      rw [hmem k hkl]
      exact h.rest k c hk hc
    · exact hnew k c hkl hc
  · obtain ⟨j, hj, hjlf⟩ := h.begin hst
    exact ⟨j, hj, hlf hjlf⟩
  · obtain ⟨j, hj, hjlf, hrun⟩ := h.name hst
    refine ⟨j, hj, hlf hjlf, fun k h1 h2 => ?_⟩
    obtain ⟨c, hc, hn⟩ := hrun k h1 h2
    exact ⟨c, hlf hc, hn⟩

/-- The header loop is left at a line feed, with `rb` as it was. -/
theorem headerLineByte_lf {p : ℕ} (h : headerLineByte i r = .stop (.done p r')) :
    r'.rb = r.rb ∧ r.rb.mem i = cLf := by
  unfold headerLineByte at h
  cases hs : r.state <;> rw [hs] at h <;> dsimp only at h <;> (try split_ifs at h) <;> cases h <;>
    exact ⟨rfl, ‹_›⟩

/-- A call of `sy_parse_header_line`: the request is between two bytes again, behind the line or
at the end of the bytes received. -/
theorem NameScan.parse {rc : Rc} (h : NameScan l r.rb.begin r) (hb : r.rb.begin ≤ r.rb.end_)
    (hp : parseHeaderLine r = .ok (rc, r')) : NameScan l r'.rb.begin r' := by
  have hstep : ∀ i s s', i < r.rb.end_ → NameScan l i s ∧ s.rb.end_ = r.rb.end_ →
      headerLineByte i s = .more s' → NameScan l (i + 1) s' ∧ s'.rb.end_ = r.rb.end_ := by
    rintro i s s' hi ⟨hs, hend⟩ hm
    have hs' := hs.step (by omega) hm
    exact ⟨hs', by rw [← hs'.length, h.length]⟩
  have hsize : r.rb.begin + r.rb.size = r.rb.end_ := by unfold Buffer.size; omega
  rcases parseHeaderLine_cases hp with ⟨-, r₁, hf, rfl, hs⟩ | ⟨k, r₁, r₂, -, hk, -, hs, hstop, rfl⟩
  · obtain ⟨hs₁, hend⟩ := scan_inv _ r.rb.end_ hstep hsize.le ⟨h, rfl⟩ hs
    rw [hsize, ← hend] at hs₁
    exact hs₁.congr rfl rfl rfl
  · obtain ⟨hs₁, hend⟩ := scan_inv _ r.rb.end_ hstep (show _ ≤ r.rb.end_ by omega) ⟨h, rfl⟩ hs
    obtain ⟨hrb, hlf⟩ := headerLineByte_lf hstop
    have hs₂ : NameScan l (r.rb.begin + k + 1) { r₂ with state := .hlBegin } :=
      hs₁.keep (by omega) hrb (fun _ => hlf) fun e => by cases e
    exact hs₂.congr rfl rfl rfl

end names

/-! ### The invariant -/

/-- The bytes of `rb` that stand for bytes received: the whole of `rb`, and what is unsent once the
forwarding has started. -/
def Session.unsent (s : Session) : List UInt8 :=
  s.r.rb.slice (if s.u.evOut = true then s.r.rb.begin else 0) s.r.rb.end_

/-- Where the bytes received are, before the headers (`idle`), in them (`head`) and behind them
(`body`). -/
structure Tracked (s : Session) : Prop where
  idle : s.r.inHandler = .requestLine → s.r.bodyDone = false →
    tx s.log = [] ∧ headersEnd s.log = none ∧ s.r.rb.slice 0 s.r.rb.end_ = rx s.log
  head : s.r.inHandler = .headers → s.r.uc ≠ none →
    tx s.log = [] ∧ headersEnd s.log = none ∧ s.u.evOut = false ∧
      NameScan (rx s.log) s.r.rb.begin s.r
  body : s.r.inHandler ≠ .headers → s.r.uc ≠ none →
    SameButNames (rx s.log) (headersEnd s.log) (tx s.log ++ s.unsent)

/-- Between the calls: while bytes are forwarded, none are read. -/
structure Relay (p : Bool) (s : Session) : Prop where
  tracked : Tracked s
  quiet : s.r.uc ≠ none → s.u.evOut = true → s.c.evIn = false ∧ p = false

/-- During a call of `sy_handle_request`: where the forwarding starts, `rb` is rewound. -/
structure Relaying (s : Session) : Prop where
  tracked : Tracked s
  rewound : s.r.uc ≠ none → s.u.evOut = true → s.c.evIn = false ∧ s.r.rb.begin = 0

section tracked

variable {s s' : Session}

theorem Tracked.congr (h : Tracked s) (hin : s'.r.inHandler = s.r.inHandler)
    (hd : s'.r.bodyDone = false → s.r.bodyDone = false) (hrb : s'.r.rb = s.r.rb)
    (huc : s'.r.uc = s.r.uc) (hst : s'.r.state = s.r.state) (hu : s'.u = s.u)
    (hrx : rx s'.log = rx s.log) (htx : tx s'.log = tx s.log)
    (hend : headersEnd s'.log = headersEnd s.log) : Tracked s' := by
  refine ⟨fun h1 h2 => ?_, fun h1 h2 => ?_, fun h1 h2 => ?_⟩
  · rw [hrb, hrx, htx, hend]
    exact h.idle (hin ▸ h1) (hd h2)
  · rw [hrb, hrx, htx, hend, hu]
    obtain ⟨ha, hb, hc, hscan⟩ := h.head (hin ▸ h1) (huc ▸ h2)
    exact ⟨ha, hb, hc, hscan.congr (by rw [hrb]) (by rw [hrb]) hst⟩
  · unfold Session.unsent
    rw [hrb, hrx, htx, hend, hu]
    exact h.body (hin ▸ h1) (huc ▸ h2)

/-- Without an upstream connection only the request line is tracked. -/
theorem Tracked.of_none (huc : s.r.uc = none)
    (hidle : s.r.inHandler = .requestLine → s.r.bodyDone = true) : Tracked s where
  idle h1 h2 := absurd ((hidle h1).symm.trans h2) (by simp)
  head _ h := absurd huc h
  body _ h := absurd huc h

theorem slice_zero_put (b : Buffer) (d : List UInt8) :
    (b.put d).slice 0 (b.put d).end_ = b.slice 0 b.end_ ++ d := b.slice_put d (Nat.zero_le _)

/-- `rb` holds the bytes received, up to names already read. -/
theorem NameScan.sameButNames {i : ℕ} {r : Request} {l : List UInt8} (h : NameScan l i r)
    (hend : Option ℕ) (hi : ∀ n ∈ hend, i ≤ n) : SameButNames l hend (r.rb.slice 0 r.rb.end_) where
  length := by simp [h.length]
  byte k c c' hc hc' := by
    obtain ⟨hk, hc'⟩ := List.getElem?_eq_some_iff.mp hc'
    rw [Buffer.getElem_slice, Nat.zero_add] at hc'
    subst hc'
    rcases Nat.lt_or_ge k i with hki | hki
    · rcases h.done k c hki hc with h1 | ⟨h1, h2⟩
      · exact .inl h1.symm
      · exact .inr ⟨h1, h2, fun n hn => hki.trans_le (hi n hn)⟩
    · exact .inl (h.rest k c hki hc)

theorem tracked_receive (h : Relay true s) (d : List UInt8) : Tracked (s.receive d) := by
  have hoff : s.r.uc ≠ none → s.u.evOut = false := fun huc =>
    Bool.eq_false_of_not_eq_true fun hout => by cases (h.quiet huc hout).2
  refine ⟨fun h1 h2 => ?_, fun h1 h2 => ?_, fun h1 h2 => ?_⟩
  · obtain ⟨ha, hb, hc⟩ := h.tracked.idle h1 h2
    refine ⟨ha, hb, ?_⟩
    show (s.r.rb.put d).slice 0 (s.r.rb.put d).end_ = rx s.log ++ d
    rw [slice_zero_put, hc]
  · obtain ⟨ha, hb, hc, hscan⟩ := h.tracked.head h1 h2
    exact ⟨ha, hb, hc, hscan.receive d⟩
  · have hsame := (h.tracked.body h1 h2).append d
    have hu := hoff h2
    unfold Session.unsent at hsame ⊢
    rw [hu] at hsame
    rw [show (s.receive d).u = s.u from rfl, hu]
    rw [List.append_assoc] at hsame
    have := slice_zero_put s.r.rb d
    exact this ▸ hsame

theorem tracked_uri (huc : s.r.uc = none) (hin : s.r.inHandler = .headers)
    (htx : tx s.log = []) (hend : headersEnd s.log = none)
    (hscan : NameScan (rx s.log) s.r.rb.begin s.r) (hm : UriMove s s') :
    Tracked s' ∧ (s'.r.uc ≠ none → s'.u.evOut = false) := by
  have hnot : s.r.inHandler ≠ .requestLine := by rw [hin]; simp
  cases hm with
  | notFound host port hb =>
      exact ⟨.of_none huc fun hi => absurd hi hnot, fun h => absurd huc h⟩
  | refused host port hg hb =>
      exact ⟨.of_none rfl fun hi => absurd hi hnot, fun h => absurd rfl h⟩
  | missing host port i status hb =>
      exact ⟨.of_none huc fun hi => absurd hi hnot, fun h => absurd huc h⟩
  | found host port i uri fd size =>
      exact ⟨.of_none huc fun hi => absurd hi hnot, fun h => absurd huc h⟩
  | proxied host port fd hg =>
      refine ⟨⟨fun hi => absurd hi hnot, fun _ _ => ⟨htx, hend, rfl, ?_⟩, fun hi => absurd hin hi⟩,
        fun _ => rfl⟩
      exact hscan.congr rfl rfl rfl

/-- A call of the header parser. -/
theorem tracked_header {rc : Rc} {r : Request} (hb : Base false s) (h : Tracked s)
    (hin : s.r.inHandler = .headers) (hp : parseHeaderLine s.r = .ok (rc, r)) (huc : r.uc ≠ none) :
    s.r.uc ≠ none ∧ r.inHandler = .headers ∧ tx s.log = [] ∧ headersEnd s.log = none ∧
      s.u.evOut = false ∧ NameScan (rx s.log) r.rb.begin r := by
  have hframe : r.uc = s.r.uc ∧ r.inHandler = s.r.inHandler := by
    obtain ⟨_, _, _, _, rfl, -, -⟩ := parseHeaderLine_frame hp
    exact ⟨rfl, rfl⟩
  rw [hframe.1] at huc
  obtain ⟨htx, hend, hout, hscan⟩ := h.head hin huc
  exact ⟨huc, hframe.2.trans hin, htx, hend, hout, hscan.parse hb.rb hp⟩

/-- A move that reads a header line and changes nothing the relay depends on. -/
theorem relaying_header {rc : Rc} {r : Request} (hb : Base false s) (h : Relaying s)
    (hin : s.r.inHandler = .headers) (hp : parseHeaderLine s.r = .ok (rc, r))
    (hin' : s'.r.inHandler = r.inHandler) (hrb : s'.r.rb = r.rb) (huc : s'.r.uc = r.uc)
    (hst : s'.r.state = r.state) (hu : s'.u = s.u) (hrx : rx s'.log = rx s.log)
    (hlog : tx s'.log = tx s.log ∧ headersEnd s'.log = headersEnd s.log) : Relaying s' := by
  have hin₁ : r.inHandler = .headers := by
    obtain ⟨_, _, _, _, rfl, -, -⟩ := parseHeaderLine_frame hp
    exact hin
  rw [hin₁] at hin'
  refine ⟨⟨fun hi => absurd (hin'.symm.trans hi) (by simp), fun _ hc => ?_, fun hi => absurd hin' hi⟩,
    fun hc hout => ?_⟩
  · obtain ⟨-, -, htx, hend, hout, hscan⟩ := tracked_header hb h.tracked hin hp (huc ▸ hc)
    rw [hlog.1, hlog.2, hu, hrx, hrb]
    exact ⟨htx, hend, hout, hscan.congr (by rw [hrb]) (by rw [hrb]) hst⟩
  · obtain ⟨-, -, -, -, hout', -⟩ := tracked_header hb h.tracked hin hp (huc ▸ hc)
    rw [hu, hout'] at hout
    cases hout

/-- Rewinding `rb` where the forwarding starts: all of `rb` stood for bytes received. -/
theorem Relaying.rewind (h : Relaying s) (hnot : s.r.inHandler ≠ .headers) (huc : s.r.uc ≠ none) :
    SameButNames (rx s.log) (headersEnd s.log) (tx s.log ++ s.r.rb.slice 0 s.r.rb.end_) := by
  have hsame := h.tracked.body hnot huc
  unfold Session.unsent at hsame
  split_ifs at hsame with hout
  · rwa [(h.rewound huc hout).2] at hsame
  · exact hsame

theorem relaying_client {cfg : Config} (hb : Base false s) (h : Relaying s)
    (hm : ClientMove cfg s s') : Relaying s' := by
  cases hm with
  | called hl => exact ⟨h.tracked.congr rfl id rfl rfl rfl rfl rfl rfl rfl, h.rewound⟩
  | @lineMore r hopen hin hp =>
      have huc := (hb.fresh hin hopen).2.1
      obtain ⟨htx, hend, hrx⟩ := h.tracked.idle hin hopen
      obtain ⟨m, v, st, l, u, k, rfl, hk⟩ := parseRequestLine_frame hp
      exact ⟨⟨fun _ _ => ⟨htx, hend, hrx⟩, fun _ h => absurd huc h, fun _ h => absurd huc h⟩,
        fun h => absurd huc h⟩
  | lineError status hopen hin hp hrc hgrow =>
      have huc := (hb.fresh hin hopen).2.1
      obtain ⟨m, v, st, l, u, k, rfl, hk⟩ := parseRequestLine_frame hp
      exact ⟨.of_none huc fun _ => rfl, fun h => absurd huc h⟩
  | @lineOk r s' k hopen hin hp huri =>
      have huc := (hb.fresh hin hopen).2.1
      obtain ⟨htx, hend, hrx⟩ := h.tracked.idle hin hopen
      obtain ⟨hst, p, hp', hlf, hrb⟩ := parseRequestLine_done hp
      have hscan : NameScan (rx s.log) r.rb.begin r := by
        rw [hrb]
        refine .start ?_ ?_ ?_ hst
        · rw [hrb]; exact hrx
        · rw [hrb]; exact hp'
        · rw [hrb]; exact hlf
      have huc' : r.uc = none := by
        obtain ⟨_, _, _, _, _, _, rfl, -⟩ := parseRequestLine_frame hp
        exact huc
      obtain ⟨ht, hu⟩ := tracked_uri (s := { s with r := { r with keepAlive := k, inHandler := .headers } })
        huc' rfl htx hend (hscan.congr rfl rfl rfl) huri
      exact ⟨ht, fun h1 h2 => absurd ((hu h1).symm.trans h2) (by simp)⟩
  | @headersMore r hin hp => exact relaying_header hb h hin hp rfl rfl rfl rfl rfl rfl ⟨rfl, rfl⟩
  | @header r hin hp => exact relaying_header hb h hin hp rfl rfl rfl rfl rfl rfl ⟨rfl, rfl⟩
  | @headerSet r v hs k te n hin hp hget hk =>
      exact relaying_header hb h hin hp rfl rfl rfl rfl rfl rfl ⟨rfl, rfl⟩
  | @headerError r v b hs status hin hp hget hgrow =>
      exact relaying_header hb h hin hp rfl rfl rfl rfl rfl rfl ⟨rfl, rfl⟩
  | @headersEnd r hin hp =>
      refine ⟨⟨(fun hi => by cases hi), (fun hi => by cases hi), fun _ huc => ?_⟩, fun huc hout => ?_⟩
      · obtain ⟨-, -, htx, -, hout, hscan⟩ := tracked_header hb h.tracked hin hp huc
        have hsame := hscan.sameButNames (some r.rb.begin) fun n hn => by
          rw [Option.mem_some_iff] at hn
          exact hn.le
        show SameButNames (rx s.log) (some r.rb.begin)
          (tx s.log ++ r.rb.slice (if s.u.evOut = true then r.rb.begin else 0) r.rb.end_)
        rw [htx, hout]
        exact hsame
      · obtain ⟨-, -, -, -, hout', -⟩ := tracked_header hb h.tracked hin hp huc
        exact absurd (hout'.symm.trans hout) (by simp)
  | bodyMore n hin hlen huc =>
      have hnot : s.r.inHandler ≠ .headers := by rw [hin]; simp
      refine ⟨⟨fun hi => ?_, fun hi => absurd hi hnot, fun _ _ => ?_⟩, fun _ _ => ⟨rfl, rfl⟩⟩
      · exact absurd (hin.symm.trans hi) (by simp)
      · exact h.rewind hnot huc
  | bodyRelayed n hin huc =>
      have hnot : s.r.inHandler ≠ .headers := by rw [hin]; simp
      exact ⟨⟨(fun _ hd => by cases hd), (fun hi => by cases hi), fun _ _ => h.rewind hnot huc⟩,
        fun _ _ => ⟨rfl, rfl⟩⟩
  | bodyLocal n fd hin huc hgrow => exact ⟨.of_none huc fun _ => rfl, fun h => absurd huc h⟩

theorem relaying_late {d : List UInt8} (hl : s.Late) (h : Relay true s)
    (hr : Relaying (s.receive d)) (hm : LateMove (s.receive d) s') : Relaying s' := by
  have hin : s.r.inHandler = .requestLine := hl.2
  have hd : s.r.bodyDone = true := hl.1
  cases hm with
  | aborted => exact ⟨hr.tracked.congr rfl id rfl rfl rfl rfl rfl rfl rfl, hr.rewound⟩
  | empty =>
      -- the parser was called with an event pending, so nothing is being forwarded
      have hoff : s.r.uc ≠ none → s.u.evOut = false := fun huc =>
        Bool.eq_false_of_not_eq_true fun hout => by cases (h.quiet huc hout).2
      refine ⟨⟨fun _ h2 => absurd (hd.symm.trans h2) (by simp), fun hi => ?_, fun hi huc => ?_⟩,
        fun huc hout => absurd ((hoff huc).symm.trans hout) (by simp)⟩
      · exact absurd (hin.symm.trans hi) (by simp)
      · have hsame := hr.tracked.body hi huc
        unfold Session.unsent at hsame ⊢
        rw [show (s.receive d).u = s.u from rfl, hoff huc] at hsame
        have hu := hoff huc
        simp only [Session.note, Session.receive, hu] at hsame ⊢
        exact hsame

theorem relay_pass {e : Env} {p : Bool} (hb : Base p s) (h : Relay p s) (huc : s.r.uc ≠ none)
    (hout : s.u.evOut = true) (hm : PassMove e s s') : Relay p s' := by
  have hbody : s.r.inHandler ≠ .headers := fun hin => by
    have := (h.tracked.head hin huc).2.2.1
    rw [hout] at this
    cases this
  have hidle : s.r.inHandler = .requestLine → s.r.bodyDone = false → False := fun h1 h2 =>
    huc (hb.fresh h1 h2).2.1
  have hsame := h.tracked.body hbody huc
  unfold Session.unsent at hsame
  rw [if_pos hout] at hsame
  -- sending moves bytes from `rb` to the socket
  have hpart : ∀ n, s.r.rb.begin + n < s.r.rb.end_ →
      SameButNames (rx s.log) (headersEnd s.log)
        ((tx s.log ++ s.r.rb.slice s.r.rb.begin (s.r.rb.begin + n)) ++
          s.r.rb.slice (s.r.rb.begin + n) s.r.rb.end_) := fun n hn => by
    rw [List.append_assoc, Buffer.slice_append _ (Nat.le_add_right _ _) hn.le]
    exact hsame
  cases hm with
  | done hsend =>
      refine ⟨⟨fun h1 h2 => (hidle h1 h2).elim, fun h1 => absurd h1 hbody, fun _ _ => ?_⟩,
        fun _ ho => by cases ho⟩
      show SameButNames (rx s.log) (headersEnd s.log) ((tx s.log ++ s.r.rb.pending) ++ [])
      rw [List.append_nil]
      exact hsame
  | @part n hn =>
      refine ⟨⟨fun h1 h2 => (hidle h1 h2).elim, fun h1 => absurd h1 hbody, fun _ _ => ?_⟩, h.quiet⟩
      show SameButNames (rx s.log) (headersEnd s.log) (_ ++
        s.r.rb.slice (if s.u.evOut = true then s.r.rb.begin + n else 0) s.r.rb.end_)
      rw [if_pos hout]
      exact hpart n hn
  | @failed n b hn hsend hb =>
      refine ⟨⟨(fun h1 h2 => by cases h2), fun h1 => absurd h1 hbody, fun _ _ => ?_⟩,
        fun _ _ => ⟨rfl, (h.quiet huc hout).2⟩⟩
      show SameButNames (rx s.log) (headersEnd s.log) (_ ++
        s.r.rb.slice (if s.u.evOut = true then s.r.rb.begin + n else 0) s.r.rb.end_)
      rw [if_pos hout]
      exact hpart n hn

theorem relay_upstream {e : Env} {p : Bool} (h : Relay p s) (hm : UpstreamMove e s s') :
    Relay p s' := by
  cases hm with
  | more hrecv => exact ⟨h.tracked.congr rfl id rfl rfl rfl rfl rfl rfl rfl, h.quiet⟩
  | eof hrecv => exact ⟨h.tracked.congr rfl id rfl rfl rfl rfl rfl rfl rfl, h.quiet⟩
  | failed hrecv hb =>
      refine ⟨h.tracked.congr rfl (fun hd => by cases hd) rfl rfl rfl rfl rfl rfl rfl, fun huc hout => ?_⟩
      exact ⟨rfl, (h.quiet huc hout).2⟩

theorem log_delivered (ds : List Output) (l : List Action) :
    rx (ds.map .delivered ++ l) = rx l ∧ tx (ds.map .delivered ++ l) = tx l ∧
      headersEnd (ds.map .delivered ++ l) = headersEnd l := by
  induction ds with
  | nil => exact ⟨rfl, rfl, rfl⟩
  | cons d ds ih => exact ih

theorem relay_response {p : Bool} (hb : Base p s) (h : Relay p s) (hm : ResponseMove s s') :
    Relay p s' := by
  cases hm with
  | sent hs hnot =>
      obtain ⟨sb, oh, done, fd, out, ds, fds, rfl, -⟩ := hs
      obtain ⟨h1, h2, h3⟩ := log_delivered ds s.log
      exact ⟨h.tracked.congr rfl id rfl rfl rfl rfl h1 h2 h3, h.quiet⟩
  | cleared hs hd hk =>
      have huc := (hb.cleared hs hd hk).1
      obtain ⟨sb, oh, done, fd, out, ds, fds, rfl, -⟩ := hs
      refine ⟨⟨fun _ _ => ⟨rfl, rfl, ?_⟩, fun _ h => absurd huc h, fun _ h => absurd huc h⟩,
        fun h => absurd huc h⟩
      exact Buffer.slice_self _ _

end tracked

/-- The relay is an invariant of every run. -/
theorem invariant_relay (cfg : Config) : Invariant cfg (fun _ _ => True) Relay Relaying where
  share p s g h := ⟨h.tracked.congr rfl id rfl rfl rfl rfl rfl rfl rfl, h.quiet⟩
  poll p b s hb hin h := by
    refine ⟨h.tracked, fun huc hout => ⟨(h.quiet huc hout).1, ?_⟩⟩
    refine Bool.eq_false_of_not_eq_true fun hb' => ?_
    exact absurd ((h.quiet huc hout).1.symm.trans (hin hb')) (by simp)
  receive s d _ h := by
    refine ⟨tracked_receive h d, fun huc hout => ?_⟩
    cases (h.quiet huc hout).2
  call s e d _ _ _ _ h h' := by
    refine ⟨h'.tracked, fun huc hout => ?_⟩
    cases (h.quiet huc hout).2
  client s s' hb h hm := relaying_client hb h hm
  late s s' e d _ hl _ _ h hr hm := relaying_late hl h hr hm
  return_ s _ h := ⟨h.tracked, fun huc hout => ⟨(h.rewound huc hout).1, rfl⟩⟩
  pass p s s' e hb huc hout _ h hm := relay_pass hb h huc hout hm
  upstream p s s' e _ _ _ h hm := relay_upstream h hm
  response p s s' hb _ h hm := relay_response hb h hm
  close s _ _ _ h := by
    refine ⟨⟨fun h1 h2 => h.tracked.idle h1 h2, fun _ h => absurd rfl h, fun _ h => absurd rfl h⟩,
      fun h => absurd rfl h⟩

theorem relay_init {v : View} (h : v.Init) : Relay v.pend v.s := by
  obtain ⟨r₀, c, hr⟩ := h.request
  have huc : v.s.r.uc = none := by rw [hr]; rfl
  refine ⟨⟨fun _ _ => ?_, fun _ h => absurd huc h, fun _ h => absurd huc h⟩, fun h => absurd huc h⟩
  rw [h.log, hr]
  exact ⟨rfl, rfl, Buffer.slice_self _ _⟩

/-- **Relay integrity.**  In every state a worker reaches, for every open front connection whose
request has an upstream connection, the bytes sent upstream followed by the bytes pending in `rb`
are the bytes received from the client since the request began, in order, up to the names of
header lines. -/
theorem relay_integrity {cfg : Config} {v : Server} (h : Server.Reached cfg (fun _ _ => True) v)
    {a : ConnAddr} (ha : v.Front a) (huc : (v.view a).s.r.uc ≠ none) :
    SameButNames (rx (v.view a).s.log) (headersEnd (v.view a).s.log)
      (tx (v.view a).s.log ++ (v.view a).s.unsent) := by
  have hr := Server.Reached.sessions (invariant_relay cfg) (fun _ => relay_init)
    (h.mono fun _ _ _ _ _ => trivial) a ha
  by_cases hin : (v.view a).s.r.inHandler = .headers
  · obtain ⟨htx, hend, hout, hscan⟩ := hr.tracked.head hin huc
    unfold Session.unsent
    rw [htx, hend, hout]
    exact hscan.sameButNames none fun n hn => by cases hn
  · exact hr.tracked.body hin huc

/-- A request for a proxied location, in two pieces, and a short send. -/
def relayRun : List Label :=
  Server.opened ++
  Server.single 0 0 true { idleEnv with recvs := [.got (bytes "GET /p HTTP/1.1\r\nAcc")] } ++
  Server.single 1 0 true { idleEnv with recvs := [.got (bytes "ept-X: 1\r\n\r\n")] } ++
  Server.single 1 1 false { idleEnv with sends := [.sent 25] }

theorem relay_integrity_partial :
    ∃ v, exec (Server.step (serverConfig 60 [⟨true, bytes "/p"⟩])) Server.boot relayRun = some v ∧
      tx (v.view 0).s.log = bytes "GET /p HTTP/1.1\r\naccept_x" ∧
      SameButNames (rx (v.view 0).s.log) (headersEnd (v.view 0).s.log)
        (tx (v.view 0).s.log ++ (v.view 0).s.unsent) := by
  have hrun : (exec (Server.step (serverConfig 60 [⟨true, bytes "/p"⟩])) Server.boot relayRun).any
      (fun v => decide (v.Front 0 ∧ (v.view 0).s.r.uc ≠ none ∧
        tx (v.view 0).s.log = bytes "GET /p HTTP/1.1\r\naccept_x")) := by
    decide +kernel
  obtain ⟨v, hv, hend⟩ := exists_of_any hrun
  obtain ⟨hfront, huc, htx⟩ := of_decide_eq_true hend
  have hreach := Reach.exec (.start Server.boot_init) (along_true _ _) hv
  exact ⟨v, hv, htx, relay_integrity hreach hfront huc⟩

end SyServer
