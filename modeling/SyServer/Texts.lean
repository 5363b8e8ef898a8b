import SyServer.Response

/-! # The texts of the responses

A writer that finds room in `sb` puts its text behind the bytes that are there (`Puts`).
`sy_buffer_append_string` needs one free byte and cuts its string, and `sy_buffer_print` moves `end`
by the length it would have needed, so all of a response but its last piece has to fit with a byte
left (`PutsLast`).

* `localText`, `pageText`: the two responses up to their last piece.
* `responseBuild_room`, `responseBuildErr_room`: what the two functions leave where they fit. -/

namespace SyServer

/-! ### Writers with room -/

/-- `t` was written behind the bytes of `b`. -/
structure Wrote (b : Buffer) (t : List UInt8) (b' : Buffer) : Prop where
  begin : b'.begin = b.begin
  end_ : b'.end_ = b.end_ + t.length
  mem : ∀ k, k < b.end_ → b'.mem k = b.mem k
  text : b'.slice b.end_ b'.end_ = t

/-- The writer puts `t`, where it fits with a byte left. -/
def Puts (t : List UInt8) (f : Buffer → Except Fault Buffer) : Prop :=
  ∀ b, b.end_ + t.length < BUF_SIZE → ∃ b', f b = .ok b' ∧ Wrote b t b'

/-- The writer puts `t`, where it fits with a byte left, and as much of `u` as there is room for. -/
def PutsLast (t u : List UInt8) (f : Buffer → Except Fault Buffer) : Prop :=
  ∀ b, b.end_ + t.length < BUF_SIZE →
    ∃ b', f b = .ok b' ∧ Wrote b (t ++ u.take (BUF_SIZE - (b.end_ + t.length))) b'

section writers

variable {b b₁ b₂ : Buffer} {t u w : List UInt8} {f g : Buffer → Except Fault Buffer}

theorem Wrote.put (b : Buffer) (t : List UInt8) : Wrote b t (b.put t) where
  begin := rfl
  end_ := rfl
  mem _ hk := b.put_mem_lt t hk
  text := by
    have h := b.slice_put t (i := b.end_) le_rfl
    rw [Buffer.slice_self, List.nil_append] at h
    exact h

/-- A text with a NUL behind it that `end` does not cover. -/
theorem Wrote.put_nul (b : Buffer) (t : List UInt8) :
    Wrote b t { b.put (t ++ [0]) with end_ := b.end_ + t.length } where
  begin := rfl
  end_ := rfl
  mem _ hk := b.put_mem_lt _ hk
  text := by
    apply List.ext_getElem
    · simp
    · intro n h1 h2
      rw [Buffer.getElem_slice]
      show (b.put (t ++ [0])).mem (b.end_ + n) = t[n]
      rw [b.put_mem_ge _ n (by rw [List.length_append]; omega), List.getElem_append_left h2]

theorem Wrote.trans (h : Wrote b t b₁) (h' : Wrote b₁ u b₂) : Wrote b (t ++ u) b₂ where
  begin := h'.begin.trans h.begin
  end_ := by rw [h'.end_, h.end_, List.length_append, Nat.add_assoc]
  mem k hk := by
    rw [h'.mem k (by rw [h.end_]; omega), h.mem k hk]
  text := by
    have hle : b₁.end_ ≤ b₂.end_ := by
      rw [h'.end_]
      omega
    rw [← Buffer.slice_append b₂ (j := b₁.end_) (by rw [h.end_]; omega) hle, h'.text,
      Buffer.slice_congr fun k _ hk => h'.mem k hk, h.text]

theorem puts_bind (hf : Puts t f) (hg : Puts u g) : Puts (t ++ u) fun b => f b >>= g := by
  intro b hb
  rw [List.length_append] at hb
  obtain ⟨b₁, h1, h2⟩ := hf b (by omega)
  obtain ⟨b₂, h3, h4⟩ := hg b₁ (by rw [h2.end_]; omega)
  refine ⟨b₂, ?_, h2.trans h4⟩
  show f b >>= g = _
  rw [h1]
  exact h3

theorem putsLast_bind (hf : Puts t f) (hg : PutsLast u w g) :
    PutsLast (t ++ u) w fun b => f b >>= g := by
  intro b hb
  rw [List.length_append] at hb
  obtain ⟨b₁, h1, h2⟩ := hf b (by omega)
  obtain ⟨b₂, h3, h4⟩ := hg b₁ (by rw [h2.end_]; omega)
  refine ⟨b₂, ?_, ?_⟩
  · show f b >>= g = _
    rw [h1]
    exact h3
  · rw [List.length_append, ← Nat.add_assoc, List.append_assoc, ← h2.end_]
    exact h2.trans h4

theorem puts_string (t : List UInt8) : Puts t (Buffer.appendString · t) := by
  intro b hb
  refine ⟨b.put t, ?_, .put b t⟩
  have hm : t.length ≤ b.margin.toNat := by
    unfold Buffer.margin
    omega
  show Buffer.appendString b t = _
  unfold Buffer.appendString
  rw [if_pos (by unfold Buffer.margin; omega), List.take_of_length_le hm]

theorem puts_cstring (s : String) : Puts (bytes s) (Buffer.appendCstring · s) := puts_string _

theorem putsLast_string (u : List UInt8) : PutsLast [] u (Buffer.appendString · u) := by
  intro b hb
  refine ⟨b.put (u.take b.margin.toNat), if_pos ?_, ?_⟩
  · unfold Buffer.margin
    simp at hb
    omega
  · have hm : b.margin.toNat = BUF_SIZE - (b.end_ + ([] : List UInt8).length) := by
      unfold Buffer.margin
      simp
    rw [List.nil_append, hm]
    exact .put b _

theorem puts_print (t : List UInt8) : Puts t (Buffer.print · t) := by
  intro b hb
  have hm : t.length ≤ b.margin.toNat - 1 := by
    unfold Buffer.margin
    omega
  refine ⟨_, ?_, .put_nul b t⟩
  show Buffer.print b t = _
  unfold Buffer.print
  rw [if_pos (by unfold Buffer.margin; omega), List.take_of_length_le hm]

theorem puts_date (date : List UInt8) : Puts date fun b => .ok (responsePutDate date b) := by
  intro b hb
  refine ⟨_, rfl, ?_⟩
  unfold responsePutDate
  rw [if_pos (by unfold Buffer.margin; omega)]
  exact .put_nul b date

end writers

/-! ### The two responses -/

/-- The text of a status; the assertion of `sy_status_repr` fails for the others. -/
def statusText (status : ℕ) : List UInt8 :=
  match statusRepr status with
  | .ok t => t
  | .error _ => []

/-- The page of a status, or nothing. -/
def statusPage (status : ℕ) : List UInt8 :=
  match errPage status with
  | .ok (some page) => page
  | _ => []

/-- The head both functions begin with. -/
def headText (date : List UInt8) (minor : ℕ) (status : ℕ) : List UInt8 :=
  bytes (if minor = 1 then "HTTP/1.1 " else "HTTP/1.0 ") ++ (statusText status ++ bytes CRLF) ++
    (date ++ bytes ("Server: " ++ SERVER_NAME ++ CRLF))

/-- The content type of the local response. -/
def contentType (r : Request) : List UInt8 := (mimeFound r.mem r.uri.extension).getD (bytes "text/html")

/-- The local response, without its last `CRLF`. -/
def localText (date : List UInt8) (r : Request) : List UInt8 :=
  headText date r.version.minor r.status ++
    if r.status = 304 ∨ r.status = 100 then []
    else bytes "Content-Type: " ++ (contentType r ++ (bytes CRLF ++ contentLengthLine r.resourceLen))

/-- An error response, without the tail of its page. -/
def pageText (date : List UInt8) (minor : ℕ) (status : ℕ) : List UInt8 :=
  headText date minor status ++
    (bytes ("Connection: close" ++ CRLF) ++ (bytes ("Content-Type: text/html" ++ CRLF) ++
      (contentLengthLine ((statusPage status).length + errPageTail.length) ++
        (bytes CRLF ++ statusPage status))))

theorem length_bytes_append (s t : String) :
    (bytes (s ++ t)).length = (bytes s).length + (bytes t).length := by
  unfold bytes
  simp only [String.toList_append, List.map_append, List.length_append]

theorem errPageText_length (title : String) :
    (errPageText title).length = 90 + 2 * (bytes title).length := by
  have h1 : (bytes "<html>").length = 6 := rfl
  have h2 : (bytes "<head><title>").length = 13 := rfl
  have h3 : (bytes "</title></head>").length = 15 := rfl
  have h4 : (bytes "<body bgcolor=\"white\">").length = 22 := rfl
  have h5 : (bytes "<center><h1>").length = 12 := rfl
  have h6 : (bytes "</h1></center>").length = 14 := rfl
  have h7 : (bytes CRLF).length = 2 := rfl
  unfold errPageText
  simp only [length_bytes_append]
  omega

theorem errPageTail_length : errPageTail.length ≤ 200 := by
  unfold errPageTail
  simp only [length_bytes_append]
  decide

/-- The statuses that the server answers with a page. -/
def errorStatuses : List ℕ := [400, 403, 404, 415, 503, 505]

theorem errorStatus_page {status : ℕ} (h : status ∈ errorStatuses) :
    statusRepr status = .ok (statusText status) ∧ errPage status = .ok (some (statusPage status)) ∧
      (statusPage status).length ≤ 160 := by
  have hall : ∀ status ∈ errorStatuses, (statusRepr status).toOption.isSome ∧
      ∃ title ∈ (errPageTitle status).toOption, ∃ text ∈ title, (bytes text).length ≤ 35 := by
    decide +kernel
  obtain ⟨h1, title, h2, text, h3, h4⟩ := hall status h
  constructor
  · unfold statusText
    cases hs : statusRepr status with
    | ok t => rfl
    | error f =>
        rw [hs] at h1
        cases h1
  · have hp : errPage status = .ok (some (errPageText text)) := by
      unfold errPage
      cases ht : errPageTitle status with
      | error f =>
          rw [ht] at h2
          cases h2
      | ok p =>
          rw [ht] at h2
          cases h2
          cases h3
          rfl
    have hpage : statusPage status = errPageText text := by
      unfold statusPage
      rw [hp]
    rw [hpage, errPageText_length]
    exact ⟨hp, by omega⟩

theorem puts_head (date : List UInt8) {r : Request} {t : List UInt8} (ht : statusRepr r.status = .ok t) :
    Puts (headText date r.version.minor r.status) (responsePutHead date r) := by
  have hstatus : statusText r.status = t := by
    unfold statusText
    rw [ht]
  unfold headText
  rw [hstatus]
  have hline : Puts (bytes (if r.version.minor = 1 then "HTTP/1.1 " else "HTTP/1.0 ") ++ (t ++ bytes CRLF))
      (responsePutStatusLine r) := by
    unfold responsePutStatusLine
    rw [ht]
    exact puts_bind (puts_cstring _) (puts_bind (puts_string t) (puts_cstring _))
  exact puts_bind hline (puts_bind (puts_date date) (puts_cstring _))

theorem putsLast_entity {r : Request} (h : r.uri.extension.Readable) :
    PutsLast (bytes "Content-Type: " ++ (contentType r ++ (bytes CRLF ++ contentLengthLine r.resourceLen)))
      (bytes CRLF) (responsePutEntity r) := by
  unfold responsePutEntity
  rw [mimeMapGet_ok h]
  have hlast := putsLast_bind (puts_print (contentLengthLine r.resourceLen)) (putsLast_string (bytes CRLF))
  rw [List.append_nil] at hlast
  exact putsLast_bind (puts_cstring _) (putsLast_bind (puts_string _) (putsLast_bind (puts_cstring _) hlast))

theorem putsLast_page {status : ℕ} {page : List UInt8} (hp : errPage status = .ok (some page)) :
    PutsLast (bytes ("Connection: close" ++ CRLF) ++ (bytes ("Content-Type: text/html" ++ CRLF) ++
      (contentLengthLine (page.length + errPageTail.length) ++ (bytes CRLF ++ page))))
      errPageTail (responsePutPage status) := by
  have hlast := putsLast_bind (puts_string page) (putsLast_string errPageTail)
  rw [List.append_nil] at hlast
  unfold responsePutPage
  rw [hp]
  exact putsLast_bind (puts_cstring _) (putsLast_bind (puts_cstring _)
    (putsLast_bind (puts_print _) (putsLast_bind (puts_cstring _) hlast)))

/-- `sy_response_build_err` for a status with a page, where the page fits. -/
theorem responseBuildErr_room {date : List UInt8} {err : ℕ} {s : Session} (herr : err ∈ errorStatuses)
    (hroom : s.r.sb.end_ + (pageText date s.r.version.minor err).length < BUF_SIZE) :
    ∃ b, responseBuildErr date err s = .ok (.ok, s.errored err b) ∧
      Wrote s.r.sb (pageText date s.r.version.minor err ++
        errPageTail.take (BUF_SIZE - (s.r.sb.end_ + (pageText date s.r.version.minor err).length))) b := by
  obtain ⟨ht, hp, -⟩ := errorStatus_page herr
  have hall := putsLast_bind (puts_head date (r := { s.r with status := err }) ht) (putsLast_page hp)
  obtain ⟨b, h1, h2⟩ := hall s.r.sb hroom
  refine ⟨b, ?_, h2⟩
  obtain ⟨b₁, h3, h4⟩ := bind_ok h1
  unfold responseBuildErr
  dsimp only at h4 ⊢
  rw [h3]
  show (responsePutPage err b₁ >>= _) = _
  rw [h4]
  rfl

/-- `sy_response_build`, where the head fits: without a text for the status it fails, and where the
content type cannot be looked up. -/
theorem responseBuild_room (date : List UInt8) {r : Request}
    (hroom : r.sb.end_ + (localText date r).length < BUF_SIZE) :
    responseBuild date r = .error .statusRepr ∨
      responseBuild date r = .error .wildRead ∧ ¬ r.uri.extension.Readable ∨
      ∃ b fd, responseBuild date r = .ok { r with sb := b, resourceFd := fd } ∧
        Wrote r.sb (localText date r ++
          (bytes CRLF).take (BUF_SIZE - (r.sb.end_ + (localText date r).length))) b := by
  cases ht : statusRepr r.status with
  | error f =>
      left
      have hversion : r.sb.end_ +
          (bytes (if r.version.minor = 1 then "HTTP/1.1 " else "HTTP/1.0 ")).length < BUF_SIZE := by
        unfold localText headText at hroom
        simp only [List.length_append] at hroom
        omega
      obtain ⟨b, h1, -⟩ := puts_cstring _ r.sb hversion
      change r.sb.appendCstring _ = _ at h1
      obtain rfl : f = .statusRepr := by
        unfold statusRepr at ht
        split at ht <;> cases ht
        rfl
      unfold responseBuild responsePutHead responsePutStatusLine
      dsimp only
      rw [h1, ht]
      rfl
  | ok t =>
      right
      unfold localText at hroom ⊢
      by_cases hs : r.status = 304 ∨ r.status = 100
      · right
        rw [if_pos hs] at hroom ⊢
        obtain ⟨b, h1, h2⟩ := putsLast_bind (puts_head date ht) (putsLast_string (bytes CRLF)) r.sb hroom
        obtain ⟨b₁, h3, h4⟩ := bind_ok h1
        refine ⟨b, none, ?_, h2⟩
        unfold responseBuild
        rw [h3]
        show (if r.status = 304 ∨ r.status = 100 then _ else _) = _
        rw [if_pos hs]
        show (b₁.appendString (bytes CRLF) >>= _) = _
        rw [h4]
        rfl
      · rw [if_neg hs] at hroom ⊢
        by_cases hread : r.uri.extension.Readable
        swap
        · left
          have hfits : r.sb.end_ + (headText date r.version.minor r.status).length < BUF_SIZE := by
            rw [List.length_append] at hroom
            omega
          obtain ⟨b, h1, -⟩ := puts_head date ht r.sb hfits
          refine ⟨?_, hread⟩
          unfold responseBuild responsePutEntity
          rw [h1]
          dsimp only [bind, Except.bind]
          rw [if_neg hs, mimeMapGet_wild hread]
        right
        obtain ⟨b, h1, h2⟩ := putsLast_bind (puts_head date ht) (putsLast_entity hread) r.sb hroom
        obtain ⟨b₁, h3, h4⟩ := bind_ok h1
        refine ⟨b, r.resourceFd, ?_, h2⟩
        unfold responseBuild
        rw [h3]
        show (if r.status = 304 ∨ r.status = 100 then _ else _) = _
        rw [if_neg hs]
        show (responsePutEntity r b₁ >>= _) = _
        rw [h4]
        rfl

/-! ### Lengths -/

/-- `"Date: %a, %d %b %Y %H:%M:%S GMT" CRLF` in the C locale. -/
def DATE_LENGTH : ℕ := 37

theorem statusText_length (status : ℕ) : (statusText status).length ≤ 35 := by
  unfold statusText statusRepr
  split
  · rename_i h
    split at h <;> cases h <;> decide
  · exact Nat.zero_le _

theorem headText_length {date : List UInt8} (hdate : date.length ≤ DATE_LENGTH) (minor status : ℕ) :
    (headText date minor status).length ≤ 105 := by
  have hversion : (bytes (if minor = 1 then "HTTP/1.1 " else "HTTP/1.0 ")).length = 9 := by
    split_ifs <;> rfl
  have hstatus := statusText_length status
  have hcrlf : (bytes CRLF).length = 2 := rfl
  have hserver : (bytes ("Server: " ++ SERVER_NAME ++ CRLF)).length = 22 := by
    simp only [length_bytes_append]
    rfl
  have hd : DATE_LENGTH = 37 := rfl
  unfold headText
  simp only [List.length_append]
  omega

theorem natRepr_length {n k : ℕ} (hk : 0 < k) (h : n < 10 ^ k) : n.repr.toList.length ≤ k := by
  rw [Nat.toList_repr]
  exact (Nat.length_toDigits_le_iff (by decide) hk).mpr h

/-- An `int` in digits. -/
theorem contentLengthLine_length {n : ℤ} (hlo : -2 ^ 31 ≤ n) (hhi : n < 2 ^ 31) :
    (contentLengthLine n).length ≤ 29 := by
  have hdigits : (toString n).toList.length ≤ 11 := by
    cases n with
    | ofNat n =>
        have := natRepr_length (n := n) (k := 11) (by decide) (by simp at hhi; omega)
        exact this
    | negSucc n =>
        have := natRepr_length (n := n + 1) (k := 10) (by decide) (by omega)
        show ("-" ++ (n + 1).repr).toList.length ≤ 11
        simp only [String.toList_append, List.length_append]
        have hminus : "-".toList.length = 1 := rfl
        omega
  have htext : "Content-Length: ".toList.length = 16 := rfl
  have hcrlf : CRLF.toList.length = 2 := rfl
  unfold contentLengthLine bytes
  simp only [String.toList_append, List.length_map, List.length_append]
  omega

theorem Map.set_val {ν : Type} (map : Map ν) (i k : ℕ) (s : Slot ν) :
    ((map.set k s).data i).val = if i = k then s.val else (map.data i).val := by
  split_ifs with hi
  · rw [hi, Map.set_same]
  · rw [Map.set_ne map s hi]

theorem mapPut_val {ν : Type} (m : Mem) (map : Map ν) (key : Str) (val : ν) (i : ℕ) :
    ((mapPut m map key val).data i).val = (map.data i).val ∨
      ((mapPut m map key val).data i).val = val := by
  unfold mapPut
  dsimp only
  split_ifs
  · rw [Map.set_val]
    split_ifs
    · exact .inr rfl
    · exact .inl rfl
  · rw [Map.set_val, Map.set_val]
    split_ifs with hslot
    · exact .inr rfl
    · exact .inl (by rw [hslot])
    · rw [Map.set_val]
      split_ifs
      · exact .inr rfl
      · exact .inl rfl

/-- A value of a map is one of its puts, or was there before. -/
theorem mapPuts_val {ν : Type} (m : Mem) (puts : List (Str × ν)) (map : Map ν) (i : ℕ) :
    ((mapPuts m map puts).data i).val ∈ (map.data i).val :: puts.map Prod.snd := by
  induction puts generalizing map with
  | nil => exact List.mem_cons_self
  | cons p puts ih =>
      have hrest := ih (mapPut m map p.1 p.2)
      change ((mapPuts m (mapPut m map p.1 p.2) puts).data i).val ∈ _
      rcases List.mem_cons.mp hrest with h | h
      · rw [h, List.map_cons]
        rcases mapPut_val m map p.1 p.2 i with h' | h' <;> rw [h'] <;> simp
      · rw [List.map_cons]
        exact List.mem_cons_of_mem _ (List.mem_cons_of_mem _ h)

theorem contentType_length (r : Request) : (contentType r).length ≤ 15 := by
  unfold contentType
  cases h : mimeFound r.mem r.uri.extension with
  | none => decide
  | some v =>
      obtain ⟨i, -, rfl⟩ := Option.map_eq_some_iff.mp h
      have hvalues : ∀ t ∈ ([] : List UInt8) :: (tablePuts headerTb.length mimeTb).map Prod.snd,
          t.length ≤ 15 := by
        decide
      exact hvalues _ (mapPuts_val literalMem _ (Map.zeroed TABLE_SIZE (2 * TABLE_SIZE)) i)

/-- The length of a file is an `int`, so a local response is short. -/
theorem localText_length {date : List UInt8} {r : Request} (hdate : date.length ≤ DATE_LENGTH)
    (hlo : -2 ^ 31 ≤ r.resourceLen) (hhi : r.resourceLen < 2 ^ 31) :
    (localText date r).length ≤ 165 := by
  have hhead := headText_length hdate r.version.minor r.status
  have hname : (bytes "Content-Type: ").length = 14 := rfl
  have htype := contentType_length r
  have hcrlf : (bytes CRLF).length = 2 := rfl
  have hline := contentLengthLine_length hlo hhi
  unfold localText
  split_ifs
  · simp only [List.length_append, List.length_nil]
    omega
  · simp only [List.length_append]
    omega

/-- Nor is a page long. -/
theorem pageText_length {date : List UInt8} {status : ℕ} (hdate : date.length ≤ DATE_LENGTH)
    (h : status ∈ errorStatuses) (minor : ℕ) : (pageText date minor status).length ≤ 380 := by
  have hhead := headText_length hdate minor status
  have hclose : (bytes ("Connection: close" ++ CRLF)).length = 19 := by
    rw [length_bytes_append]
    rfl
  have htype : (bytes ("Content-Type: text/html" ++ CRLF)).length = 25 := by
    rw [length_bytes_append]
    rfl
  have hcrlf : (bytes CRLF).length = 2 := rfl
  have htail := errPageTail_length
  have hpage := (errorStatus_page h).2.2
  have hline := contentLengthLine_length (n := (statusPage status).length + errPageTail.length)
    (by omega) (by omega)
  unfold pageText
  simp only [List.length_append]
  omega

/-! ### Responses without room -/

/-- A writer that leaves a free byte has put the whole of `t`. -/
def Takes (t : List UInt8) (f : Buffer → Except Fault Buffer) : Prop :=
  ∀ b b', f b = .ok b' → b'.end_ < BUF_SIZE → b'.end_ = b.end_ + t.length

/-- A writer that answers has room for `t` and a byte more. -/
def Needs (t : List UInt8) (f : Buffer → Except Fault Buffer) : Prop :=
  ∀ b b', f b = .ok b' → b.end_ + t.length < BUF_SIZE

section takes

variable {b b' : Buffer} {t u : List UInt8} {f g : Buffer → Except Fault Buffer}

/-- `sy_buffer_append_string` finds a free byte, or fails its assertion. -/
theorem appendString_room (h : b.appendString t = .ok b') : b.end_ < BUF_SIZE := by
  unfold Buffer.appendString at h
  split_ifs at h with hm
  unfold Buffer.margin at hm
  omega

theorem takes_string (t : List UInt8) : Takes t (Buffer.appendString · t) := by
  intro b b' h hb
  dsimp only [Buffer.appendString] at h
  split_ifs at h with hm
  cases h
  simp only [Buffer.put_end, List.length_take, Buffer.margin] at hm hb ⊢
  omega

theorem takes_print (t : List UInt8) : Takes t (Buffer.print · t) := by
  intro b b' h hb
  dsimp only [Buffer.print] at h
  split_ifs at h
  cases h
  rfl

/-- Each writer of a sequence has a free byte behind it, if the last one has. -/
theorem takes_bind (hf : Takes t f) (hg : Takes u g) : Takes (t ++ u) fun b => f b >>= g := by
  intro b b' h hb
  obtain ⟨b₁, h1, h2⟩ := bind_ok h
  have h3 := hg b₁ b' h2 hb
  have h4 := hf b b₁ h1 (by omega)
  rw [h3, h4, List.length_append, Nat.add_assoc]

theorem needs_string (u : List UInt8) : Needs [] (Buffer.appendString · u) := fun _ _ h =>
  appendString_room h

theorem needs_bind (hf : Takes t f) (hg : Needs u g) : Needs (t ++ u) fun b => f b >>= g := by
  intro b b' h
  obtain ⟨b₁, h1, h2⟩ := bind_ok h
  have h3 := hg b₁ b' h2
  have h4 := hf b b₁ h1 (by omega)
  rw [List.length_append]
  omega

end takes

/-- The head with the date, or without it where it did not fit. -/
theorem takes_head {date : List UInt8} {r : Request} {b b' : Buffer}
    (h : responsePutHead date r b = .ok b') (hb : b'.end_ < BUF_SIZE) :
    b'.end_ = b.end_ + (headText date r.version.minor r.status).length ∨
      BUF_SIZE + 22 ≤ b.end_ + (headText date r.version.minor r.status).length ∧
        b'.end_ + date.length = b.end_ + (headText date r.version.minor r.status).length := by
  obtain ⟨b₁, h1, h2⟩ := bind_ok h
  have hserver : (bytes ("Server: " ++ SERVER_NAME ++ CRLF)).length = 22 := by
    simp only [length_bytes_append]
    rfl
  have h3 := takes_string _ _ _ h2 hb
  rw [hserver] at h3
  have hdate : (responsePutDate date b₁).end_ = b₁.end_ + date.length ∨
      BUF_SIZE ≤ b₁.end_ + date.length ∧ (responsePutDate date b₁).end_ = b₁.end_ := by
    unfold responsePutDate
    split_ifs with hfit
    · exact .inl rfl
    · unfold Buffer.margin at hfit
      exact .inr ⟨by omega, rfl⟩
  obtain ⟨t, ht, -⟩ : ∃ t, statusRepr r.status = .ok t ∧ True := by
    obtain ⟨_, -, h4⟩ := bind_ok h1
    obtain ⟨t, h5, -⟩ := bind_ok h4
    exact ⟨t, h5, trivial⟩
  have hstatus : statusText r.status = t := by
    unfold statusText
    rw [ht]
  have hline : Takes (bytes (if r.version.minor = 1 then "HTTP/1.1 " else "HTTP/1.0 ") ++
      (statusText r.status ++ bytes CRLF)) (responsePutStatusLine r) := by
    unfold responsePutStatusLine
    rw [ht, hstatus]
    exact takes_bind (takes_string _) (takes_bind (takes_string t) (takes_string _))
  have h4 := hline b b₁ h1 (by rcases hdate with h | h <;> omega)
  unfold headText
  simp only [List.length_append, hserver] at h4 ⊢
  omega

theorem needs_page {status : ℕ} {page : List UInt8} (hp : errPage status = .ok (some page)) :
    Needs (bytes ("Connection: close" ++ CRLF) ++ (bytes ("Content-Type: text/html" ++ CRLF) ++
      (contentLengthLine (page.length + errPageTail.length) ++ (bytes CRLF ++ page))))
      (responsePutPage status) := by
  have hlast := needs_bind (takes_string page) (needs_string errPageTail)
  rw [List.append_nil] at hlast
  unfold responsePutPage
  rw [hp]
  exact needs_bind (takes_string _) (needs_bind (takes_string _)
    (needs_bind (takes_print _) (needs_bind (takes_string _) hlast)))

theorem needs_entity (r : Request) :
    Needs (bytes "Content-Type: " ++ (contentType r ++ (bytes CRLF ++ contentLengthLine r.resourceLen)))
      (responsePutEntity r) := by
  intro b b' h
  have hread := responsePutEntity_readable h
  unfold responsePutEntity at h
  rw [mimeMapGet_ok hread] at h
  have hlast := needs_bind (takes_print (contentLengthLine r.resourceLen)) (needs_string (bytes CRLF))
  rw [List.append_nil] at hlast
  have hall := needs_bind (takes_string (contentType r)) (needs_bind (takes_string (bytes CRLF)) hlast)
  exact needs_bind (takes_string _) hall b b' h

/-- An error response that is written had room. -/
theorem responseBuildErr_needs {date : List UInt8} {status : ℕ} {s s' : Session} {rc : Rc}
    (hdate : date.length ≤ DATE_LENGTH) (hstatus : status ∈ errorStatuses)
    (h : responseBuildErr date status s = .ok (rc, s')) :
    s.r.sb.end_ + (pageText date s.r.version.minor status).length < BUF_SIZE := by
  obtain ⟨b, h1, h2⟩ := bind_ok h
  obtain ⟨b', h3, -⟩ := bind_ok h2
  have hrest := needs_page (errorStatus_page hstatus).2.1 b b' h3
  have hhead := takes_head h1 (by omega)
  have hclose : (bytes ("Connection: close" ++ CRLF)).length = 19 := by
    rw [length_bytes_append]
    rfl
  have htype : (bytes ("Content-Type: text/html" ++ CRLF)).length = 25 := by
    rw [length_bytes_append]
    rfl
  have hd : DATE_LENGTH = 37 := rfl
  unfold pageText
  simp only [List.length_append] at hrest hhead ⊢
  omega

/-- So had a local response with a body. -/
theorem responseBuild_needs {date : List UInt8} {r r' : Request} (hdate : date.length ≤ DATE_LENGTH)
    (hstatus : ¬(r.status = 304 ∨ r.status = 100)) (h : responseBuild date r = .ok r') :
    r.sb.end_ + (localText date r).length < BUF_SIZE := by
  obtain ⟨b, h1, h2⟩ := bind_ok h
  rw [if_neg hstatus] at h2
  obtain ⟨b', h3, -⟩ := bind_ok h2
  have hrest := needs_entity r b b' h3
  have hhead := takes_head h1 (by omega)
  have hname : (bytes "Content-Type: ").length = 14 := rfl
  have hline : 18 ≤ (contentLengthLine r.resourceLen).length := by
    have h4 : (bytes "Content-Length: ").length = 16 := rfl
    have h5 : (bytes CRLF).length = 2 := rfl
    unfold contentLengthLine
    simp only [length_bytes_append]
    omega
  have hd : DATE_LENGTH = 37 := rfl
  unfold localText
  rw [if_neg hstatus]
  simp only [List.length_append] at hrest hhead ⊢
  omega

end SyServer
