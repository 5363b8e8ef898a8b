import SyServer.Moves

/-! # Header lines behind a lookup that keeps its contract

`contractGet` is `sy_map_get` as its callers expect it: the entry of `header_tb` whose key is the
name, by bytes.  With it the header processors run, and this module says on which names.

`Lines` are the header lines of a header block that is received in chunks, as the parser delivers
them; no processor has a part in them (`SameParse`).  What a line says of the body is its
`Framing.line`, and a line that is answered by a page is `Rejected`. -/

namespace SyServer

open Scan (Step scan)

/-! ### The lookup -/

/-- The entry of `header_tb` with this key. -/
def contractGet (m : Mem) (name : Str) : Option HeaderVal :=
  (headerTb.find? fun p => decide (bytes p.1 = name.bytes m)).map Prod.snd

/-- `server_cfg` next to a lookup that keeps its contract. -/
def contractConfig (timeout : ℤ) (locations : List Location) : Config where
  timeout := timeout
  locations := locations
  headerGet := contractGet

theorem contractGet_some {m : Mem} {name : Str} {v : HeaderVal} (h : contractGet m name = some v) :
    ∃ key, (key, v) ∈ headerTb ∧ name.bytes m = bytes key := by
  obtain ⟨⟨key, v'⟩, hfind, rfl⟩ := Option.map_eq_some_iff.mp h
  have hkey := List.find?_some hfind
  exact ⟨key, List.mem_of_find?_eq_some hfind, (of_decide_eq_true hkey).symm⟩

/-- A name is found with the first entry of its key. -/
theorem contractGet_of_name {m : Mem} {name : Str} {key : String} (h : name.bytes m = bytes key) :
    contractGet m name = (headerTb.find? fun p => decide (bytes p.1 = bytes key)).map Prod.snd := by
  unfold contractGet
  rw [h]

/-- A line has the name of an entry if that entry is found for it. -/
theorem contractGet_named (key : String) {m : Mem} {name : Str} {v w : HeaderVal}
    (hv : contractGet m name = some v)
    (hfind : (headerTb.find? fun p => decide (bytes p.1 = bytes key)).map Prod.snd = some w)
    (hunique : ∀ p ∈ headerTb, p.2 = w → p.1 = key) : name.bytes m = bytes key ↔ v = w := by
  constructor
  · intro hb
    rw [contractGet_of_name hb, hfind] at hv
    exact (Option.some.inj hv).symm
  · rintro rfl
    obtain ⟨key', hmem, hb⟩ := contractGet_some hv
    rw [hb]
    exact congrArg bytes (hunique _ hmem rfl)

/-- A name that is not found is no key. -/
theorem contractGet_unnamed (key : String) {m : Mem} {name : Str} (hv : contractGet m name = none)
    (hkey : (headerTb.find? fun p => decide (bytes p.1 = bytes key)).isSome) :
    name.bytes m ≠ bytes key := by
  intro hb
  rw [contractGet_of_name hb, Option.map_eq_none_iff] at hv
  rw [hv] at hkey
  cases hkey

/-- The entries whose processors do more than store the value. -/
theorem headerTb_processors : ∀ p ∈ headerTb,
    (p.2.processor = .connection → p = ("c", ⟨.c, .connection⟩)) ∧
      (p.2.processor = .tEncoding → p = ("transfer_encoding", ⟨.transferEncoding, .tEncoding⟩)) ∧
        (p.2.processor = .contentLength → p = ("content_length", ⟨.contentLength, .contentLength⟩)) := by
  decide

section named

variable {m : Mem} {name : Str} {v : HeaderVal}

theorem named_connection (hv : contractGet m name = some v) :
    name.bytes m = bytes "c" ↔ v = ⟨.c, .connection⟩ :=
  contractGet_named "c" hv (by decide) (by decide)

theorem named_tEncoding (hv : contractGet m name = some v) :
    name.bytes m = bytes "transfer_encoding" ↔ v = ⟨.transferEncoding, .tEncoding⟩ :=
  contractGet_named "transfer_encoding" hv (by decide) (by decide)

theorem named_contentLength (hv : contractGet m name = some v) :
    name.bytes m = bytes "content_length" ↔ v = ⟨.contentLength, .contentLength⟩ :=
  contractGet_named "content_length" hv (by decide) (by decide)

/-- A processor that does more than store the value is found with its field. -/
theorem processor_field (hv : contractGet m name = some v) :
    (v.processor = .connection → v = ⟨.c, .connection⟩) ∧
      (v.processor = .tEncoding → v = ⟨.transferEncoding, .tEncoding⟩) ∧
        (v.processor = .contentLength → v = ⟨.contentLength, .contentLength⟩) := by
  obtain ⟨key, hmem, -⟩ := contractGet_some hv
  obtain ⟨hc, hte, hcl⟩ := headerTb_processors _ hmem
  exact ⟨fun hp => congrArg Prod.snd (hc hp), fun hp => congrArg Prod.snd (hte hp),
    fun hp => congrArg Prod.snd (hcl hp)⟩

end named

/-! ### What the parser reads -/

/-- The fields that `sy_parse_header_line` reads. -/
structure SameParse (r r' : Request) : Prop where
  rb : r'.rb = r.rb
  state : r'.state = r.state
  name : r'.headerName = r.headerName
  value : r'.headerValue = r.headerValue

theorem SameParse.refl (r : Request) : SameParse r r := ⟨rfl, rfl, rfl, rfl⟩

theorem SameParse.trans {r₁ r₂ r₃ : Request} (h : SameParse r₁ r₂) (h' : SameParse r₂ r₃) :
    SameParse r₁ r₃ :=
  ⟨h'.rb.trans h.rb, h'.state.trans h.state, h'.name.trans h.name, h'.value.trans h.value⟩

theorem SameParse.mem {r r' : Request} (h : SameParse r r') : r'.mem = r.mem := by
  funext p
  unfold Request.mem
  rw [h.rb]

/-- `q` with what the parser reads taken from `r`. -/
def Request.onto (q r : Request) : Request :=
  { q with rb := r.rb, state := r.state, headerName := r.headerName, headerValue := r.headerValue }

theorem SameParse.eq_onto {r r' : Request} (h : SameParse r r') : r' = r'.onto r := by
  unfold Request.onto
  rw [← h.rb, ← h.state, ← h.name, ← h.value]

/-- The same for the request that an exit carries. -/
def Exit.onto (q : Request) : Exit → Exit
  | done p r => done p (q.onto r)
  | ret rc r => ret rc (q.onto r)
  | abort f => abort f

theorem headerLineByte_onto (q : Request) (i : ℕ) (r : Request) :
    headerLineByte i (q.onto r) = (headerLineByte i r).map q.onto (Exit.onto q) := by
  unfold headerLineByte
  rw [show (q.onto r).state = r.state from rfl, show (q.onto r).rb = r.rb from rfl]
  cases hs : r.state <;> dsimp only
  all_goals (try split_ifs) <;> rfl

/-- The other fields have no part in a call of the parser. -/
theorem SameParse.parse {r r' : Request} (h : SameParse r r') :
    ∀ {rc : Rc} {r₁ : Request}, parseHeaderLine r = .ok (rc, r₁) →
      parseHeaderLine r' = .ok (rc, r'.onto r₁) := by
  intro rc r₁ hp
  have hscan : scan headerLineByte r.rb.size r.rb.begin (r'.onto r) =
      (scan headerLineByte r.rb.size r.rb.begin r).map r'.onto (Exit.onto r') :=
    Scan.scan_map r'.onto (Exit.onto r') (fun _ => True) (r.rb.begin + r.rb.size)
      (fun _ _ _ _ _ => trivial) (fun i s _ _ => headerLineByte_onto r' i s) trivial le_rfl
  rw [← h.eq_onto] at hscan
  unfold parseHeaderLine at hp ⊢
  rw [h.rb, hscan]
  cases hs : scan headerLineByte r.rb.size r.rb.begin r with
  | more t =>
      rw [hs] at hp
      cases hp
      rfl
  | stop x =>
      rw [hs] at hp
      cases x with
      | done p t =>
          cases hp
          rfl
      | ret rc t =>
          cases hp
          rfl
      | abort f => cases hp

/-! ### The lines of a block -/

/-- The header lines in `rb`, `n` at most, each as the parser leaves the request, and the request
behind them. -/
def parseLines : ℕ → Request → List Request × Request
  | 0, r => ([], r)
  | n + 1, r =>
      match parseHeaderLine r with
      | .ok (.ok, r₁) => (r₁ :: (parseLines n r₁).1, (parseLines n r₁).2)
      | .ok (_, r₁) => ([], r₁)
      | .error _ => ([], r)

/-- Behind these lines is the empty line that ends the headers. -/
def linesEnd : ℕ → Request → Bool
  | 0, _ => false
  | n + 1, r =>
      match parseHeaderLine r with
      | .ok (.ok, r₁) => linesEnd n r₁
      | .ok (.emptyLine, _) => true
      | _ => false

/-- One line more than there are bytes is enough to find it. -/
theorem linesEnd_fuel {n m : ℕ} {r : Request} (h : linesEnd n r = true) (hm : r.rb.size < m) :
    linesEnd m r = true := by
  induction n generalizing m r with
  | zero => cases h
  | succ n ih =>
      obtain ⟨m, rfl⟩ : ∃ k, m = k + 1 := ⟨m - 1, by omega⟩
      unfold linesEnd at h ⊢
      cases hp : parseHeaderLine r with
      | error f =>
          rw [hp] at h
          cases h
      | ok p =>
          obtain ⟨rc, r₁⟩ := p
          rw [hp] at h
          cases rc with
          | ok =>
              have hsize := parseHeaderLine_size hp
              exact ih h (by omega)
          | emptyLine => rfl
          | _ => cases h

/-- Where the parser has run out of bytes, no line is left. -/
theorem linesEnd_again {r r' : Request} (hp : parseHeaderLine r = .ok (.again, r')) (n : ℕ) :
    linesEnd n r' = false := by
  have hsize : r'.rb.size = 0 := by
    rcases parseHeaderLine_cases hp with ⟨-, r₁, -, rfl, -⟩ | ⟨k, r₁, r₂, hrc, -⟩
    · exact Nat.sub_self _
    · split_ifs at hrc
  cases n with
  | zero => rfl
  | succ n =>
      have hmore : parseHeaderLine r' = .ok (.again, rbConsumed r') := by
        unfold parseHeaderLine
        rw [hsize]
        rfl
      unfold linesEnd
      rw [hmore]

/-- The lines of one call.  Each consumes a byte. -/
def callLines (r : Request) : List Request × Request := parseLines (r.rb.size + 1) r

/-- The lines of a block that is there in part, and whose rest arrives in chunks. -/
def blockLines (r : Request) : List (List UInt8) → List Request
  | [] => (callLines r).1
  | d :: ds =>
      (callLines r).1 ++ blockLines { (callLines r).2 with rb := (callLines r).2.rb.put d } ds

theorem blockLines_cons (r : Request) (d : List UInt8) (ds : List (List UInt8)) :
    blockLines r (d :: ds) =
      (callLines r).1 ++ blockLines { (callLines r).2 with rb := (callLines r).2.rb.put d } ds := rfl

/-! ### The header loop, line by line -/

/-- What a processor leaves for the parser. -/
theorem Processor.run_same {date : List UInt8} {offset : HeaderField} {s s' : Session} {rc : Rc}
    {p : Processor} (h : p.run date offset s = .ok (rc, s')) : rc = .ok ∧ SameParse s.r s'.r := by
  obtain ⟨hrc, ⟨_, _, _, _, -, rfl⟩ | ⟨_, _, _, -, rfl⟩⟩ := Processor.run_cases h
  · exact ⟨hrc, rfl, rfl, rfl, rfl⟩
  · exact ⟨hrc, rfl, rfl, rfl, rfl⟩

/-- What a header line does to a session: `P` is kept from line to line, next to the lines that are
left. -/
structure LineRule (date : List UInt8) (P : List Request → Session → Prop) : Prop where
  parse : ∀ {ls : List Request} {s : Session} {rc : Rc} {r : Request},
    parseHeaderLine s.r = .ok (rc, r) → P ls s → P ls { s with r := r }
  done : ∀ {s : Session} (k : ℕ), P [] s →
    P [] ({ s with r := { s.r with inHandler := .body } }.note (.headersEnd k))
  skip : ∀ {l : Request} {ls : List Request} {s : Session}, SameParse l s.r →
    contractGet s.r.mem s.r.headerName = none → P (l :: ls) s → P ls s
  run : ∀ {l : Request} {ls : List Request} {s s' : Session} {v : HeaderVal}, SameParse l s.r →
    contractGet s.r.mem s.r.headerName = some v → v.processor.run date v.offset s = .ok (.ok, s') →
    P (l :: ls) s → P ls s'

/-- **One call of `sy_request_handle_headers`**: it goes through the lines that the parser delivers,
and answers `OK` behind the empty line. -/
theorem headersLoop_lines {cfg : Config} {e : Env} {s s' : Session} {rc : Rc}
    {P : List Request → Session → Prop} (hP : LineRule e.date P) (hcfg : cfg.headerGet = contractGet)
    {n : ℕ} {r : Request} (hsame : SameParse r s.r) (hs : P (parseLines n r).1 s)
    (h : headersLoop cfg e n s = .ok (rc, s')) :
    SameParse (parseLines n r).2 s'.r ∧ P [] s' ∧ (rc = .ok ↔ linesEnd n r = true) := by
  induction n generalizing s r with
  | zero =>
      cases h
      exact ⟨hsame, hs, by simp [linesEnd]⟩
  | succ n ih =>
      obtain ⟨⟨err, r₁⟩, hp, h2⟩ := bind_ok h
      dsimp only at h2
      -- the parser delivers the same line to the call
      have hr : SameParse s.r r := ⟨hsame.rb.symm, hsame.state.symm, hsame.name.symm, hsame.value.symm⟩
      have hpr := hr.parse hp
      have hto : SameParse (r.onto r₁) r₁ := ⟨rfl, rfl, rfl, rfl⟩
      unfold parseLines at hs ⊢
      unfold linesEnd
      rw [hpr] at hs ⊢
      have hs₁ := hP.parse hp hs
      cases err with
      | again =>
          cases h2
          exact ⟨hto, hs₁, by simp⟩
      | emptyLine =>
          cases h2
          exact ⟨⟨rfl, rfl, rfl, rfl⟩, hP.done _ hs₁, by simp⟩
      | ok =>
          dsimp only at h2 ⊢
          rw [hcfg] at h2
          cases hget : contractGet r₁.mem r₁.headerName with
          | none =>
              rw [hget] at h2
              exact ih (s := { s with r := r₁ }) hto (hP.skip hto hget hs₁) h2
          | some v =>
              rw [hget] at h2
              obtain ⟨⟨err, s₁⟩, h3, h4⟩ := bind_ok h2
              obtain ⟨rfl, hrun⟩ := Processor.run_same h3
              exact ih (hto.trans hrun) (hP.run hto hget h3 hs₁) h4
      | _ => cases h2

/-- A part of the session that changes with the header lines only: what a line makes of it. -/
structure LineFold {α : Type} (date : List UInt8) (obs : Session → α) (line : Request → α → α) :
    Prop where
  parse : ∀ {s : Session} {rc : Rc} {r : Request}, parseHeaderLine s.r = .ok (rc, r) →
    obs { s with r := r } = obs s
  done : ∀ (s : Session) (a : Action),
    obs ({ s with r := { s.r with inHandler := .body } }.note a) = obs s
  same : ∀ {r r' : Request}, SameParse r r' → line r' = line r
  skip : ∀ {r : Request} (a : α), contractGet r.mem r.headerName = none → line r a = a
  run : ∀ {s s' : Session} {v : HeaderVal}, contractGet s.r.mem s.r.headerName = some v →
    v.processor.run date v.offset s = .ok (.ok, s') → obs s' = line s.r (obs s)

/-- What the lines of a call make of such a part. -/
theorem headersLoop_fold {cfg : Config} {e : Env} {s s' : Session} {rc : Rc} {α : Type}
    {obs : Session → α} {line : Request → α → α} (hf : LineFold e.date obs line)
    (hcfg : cfg.headerGet = contractGet) {n : ℕ} {r : Request} (hsame : SameParse r s.r)
    (h : headersLoop cfg e n s = .ok (rc, s')) :
    SameParse (parseLines n r).2 s'.r ∧
      obs s' = (parseLines n r).1.foldl (fun a l => line l a) (obs s) ∧
        (rc = .ok ↔ linesEnd n r = true) := by
  have hrule : LineRule e.date fun ls t =>
      ls.foldl (fun a l => line l a) (obs t) = (parseLines n r).1.foldl (fun a l => line l a) (obs s) := by
    constructor
    · intro ls t rc r₁ hp ht
      rw [← ht, hf.parse hp]
    · intro t k ht
      rw [← ht, hf.done]
    · intro l ls t hl hget ht
      rw [← ht, List.foldl_cons, ← hf.same hl, hf.skip _ hget]
    · intro l ls t t' v hl hget hrun ht
      rw [← ht, List.foldl_cons, ← hf.same hl, hf.run hget hrun]
  exact headersLoop_lines hrule hcfg hsame rfl h

/-! ### What a line says -/

/-- What the header lines say of the body, and whether a page was put for the request. -/
@[ext]
structure Framing where
  encoding : TransferEncoding
  length : ℤ
  page : Bool
deriving DecidableEq

def Request.framing (r : Request) : Framing := ⟨r.tEncoding, r.contentLength, r.bodyDone⟩

/-- What a header line makes of it. -/
def Framing.line (l : Request) (f : Framing) : Framing :=
  if l.headerName.bytes l.mem = bytes "transfer_encoding" then
    match matchEncoding l.mem l.headerValue.data encodingNames with
    | .ok (some te) => { f with encoding := te }
    | .ok none => { f with page := true }
    | .error _ => f
  else if l.headerName.bytes l.mem = bytes "content_length" then
    match atoi l.mem l.headerValue.data with
    | .ok n => if n < 0 then { f with page := true } else { f with length := n }
    | .error _ => f
  else f

theorem SameParse.framing_line {r r' : Request} (h : SameParse r r') :
    Framing.line r' = Framing.line r := by
  funext f
  unfold Framing.line
  rw [h.mem, h.name, h.value]

/-- The line that the parser has just delivered is answered by a page. -/
def Rejected (l : Request) : Prop := (Framing.line l ⟨.identity, 0, false⟩).page = true

instance (l : Request) : Decidable (Rejected l) := inferInstanceAs (Decidable (_ = _))

theorem SameParse.rejected {r r' : Request} (h : SameParse r r') : Rejected r' ↔ Rejected r := by
  unfold Rejected
  rw [h.framing_line]

/-- A line that is answered by a page sets nothing else. -/
theorem Rejected.line {l : Request} (h : Rejected l) (f : Framing) :
    Framing.line l f = { f with page := true } := by
  unfold Rejected Framing.line at h
  unfold Framing.line
  split_ifs at h ⊢
  · split at h
    · cases h
    · rfl
    · cases h
  · split at h
    · split_ifs at h ⊢
      rfl
    · cases h

theorem Framing.line_page {l : Request} (h : ¬ Rejected l) (f : Framing) :
    (Framing.line l f).page = f.page := by
  unfold Rejected Framing.line at h
  unfold Framing.line
  split_ifs at h ⊢
  · split at h
    · rfl
    · simp at h
    · rfl
  · split at h
    · split_ifs at h ⊢
      · simp at h
      · rfl
    · rfl
  · rfl

/-- The line that the parser has just delivered has the key `c`, and asks to close. -/
def Closes (l : Request) : Prop :=
  l.headerName.bytes l.mem = bytes "c" ∧ strncaseEq l.mem (bytes "close") l.headerValue.data = .ok true

/-- **What a processor does with its line**: it sets what the line says, or puts a page. -/
theorem Processor.run_line {date : List UInt8} {s s' : Session} {rc : Rc} {v : HeaderVal}
    (hv : contractGet s.r.mem s.r.headerName = some v)
    (h : v.processor.run date v.offset s = .ok (rc, s')) :
    ¬ Rejected s.r ∧ (∃ hs k, (k = false ↔ s.r.keepAlive = false ∨ Closes s.r) ∧
        s' = { s with r := { s.r with
          headers := hs, keepAlive := k, tEncoding := (Framing.line s.r s.r.framing).encoding
          contentLength := (Framing.line s.r s.r.framing).length } }) ∨
      Rejected s.r ∧ ∃ hs, ∃ status ∈ [400, 415],
        responseBuildErr date status { s with r := { s.r with headers := hs } } = .ok (rc, s') := by
  have hc := named_connection hv
  have hte := named_tEncoding hv
  have hcl := named_contentLength hv
  obtain ⟨hc', hte', hcl'⟩ := processor_field hv
  have hopen : v.processor ≠ .connection → (s.r.keepAlive = false ↔ s.r.keepAlive = false ∨ Closes s.r) := by
    intro hp
    have hnot : ¬ Closes s.r := fun hcloses => hp (by rw [hc.mp hcloses.1])
    simp [hnot]
  have hother : v.processor ≠ .tEncoding → v.processor ≠ .contentLength →
      ∀ f, Framing.line s.r f = f := by
    intro h1 h2 f
    unfold Framing.line
    rw [if_neg fun hb => h1 (by rw [hte.mp hb]), if_neg fun hb => h2 (by rw [hcl.mp hb])]
  cases hp : v.processor with
  | tEncoding =>
      have hkeep := hopen (by simp [hp])
      obtain rfl := hte' hp
      unfold Rejected Framing.line
      rw [if_pos (hte.mpr rfl), if_pos (hte.mpr rfl)]
      obtain ⟨te, h1, h2⟩ := bind_ok h
      change matchEncoding s.r.mem s.r.headerValue.data encodingNames = .ok te at h1
      rw [h1]
      cases te with
      | some te =>
          cases h2
          exact .inl ⟨by simp, _, _, hkeep, rfl⟩
      | none => exact .inr ⟨rfl, _, 415, by simp, h2⟩
  | contentLength =>
      have hkeep := hopen (by simp [hp])
      obtain rfl := hcl' hp
      have hne : ¬ s.r.headerName.bytes s.r.mem = bytes "transfer_encoding" :=
        fun hb => absurd (hte.mp hb) (by decide)
      unfold Rejected Framing.line
      rw [if_neg hne, if_neg hne, if_pos (hcl.mpr rfl), if_pos (hcl.mpr rfl)]
      obtain ⟨n, h1, h2⟩ := bind_ok h
      change atoi s.r.mem s.r.headerValue.data = .ok n at h1
      rw [h1]
      dsimp only
      split_ifs at h2 ⊢
      · exact .inr ⟨rfl, _, 400, by simp, h2⟩
      · cases h2
        exact .inl ⟨by simp, _, _, hkeep, rfl⟩
  | connection =>
      have hsame := hother (by simp [hp]) (by simp [hp])
      obtain rfl := hc' hp
      unfold Rejected Closes
      rw [hsame, hsame]
      obtain ⟨close, h1, h2⟩ := bind_ok h
      change strncaseEq s.r.mem (bytes "close") s.r.headerValue.data = .ok close at h1
      cases h2
      refine .inl ⟨by simp, (headerHandleGeneric .c s.r).headers, if close then false else s.r.keepAlive,
        ?_, ?_⟩
      · rw [hc, h1]
        cases close <;> simp
      · cases close <;> rfl
  | generic | host | accept | ifModifiedSince =>
      have hkeep := hopen (by simp [hp])
      have hsame := hother (by simp [hp]) (by simp [hp])
      unfold Rejected
      rw [hsame, hsame]
      rw [hp] at h
      cases h
      exact .inl ⟨by simp, _, _, hkeep, rfl⟩

/-- A processor does to the framing what its line says. -/
theorem Processor.run_framing {date : List UInt8} {s s' : Session} {rc : Rc} {v : HeaderVal}
    (hv : contractGet s.r.mem s.r.headerName = some v)
    (h : v.processor.run date v.offset s = .ok (rc, s')) :
    s'.r.framing = Framing.line s.r s.r.framing := by
  rcases Processor.run_line hv h with ⟨hnot, hs, k, -, rfl⟩ | ⟨hrej, hs, status, -, hpage⟩
  · have hpage : (Framing.line s.r s.r.framing).page = s.r.bodyDone := Framing.line_page hnot _
    exact Framing.ext rfl rfl hpage.symm
  · obtain ⟨-, b, -, rfl⟩ := responseBuildErr_spec hpage
    rw [hrej.line]
    rfl

/-- Which lines are answered by a page. -/
theorem rejected_iff {l : Request} : Rejected l ↔
    l.headerName.bytes l.mem = bytes "transfer_encoding" ∧
        matchEncoding l.mem l.headerValue.data encodingNames = .ok none ∨
      l.headerName.bytes l.mem = bytes "content_length" ∧
        ∃ n < 0, atoi l.mem l.headerValue.data = .ok n := by
  have hnames : bytes "transfer_encoding" ≠ bytes "content_length" := by decide
  unfold Rejected Framing.line
  by_cases hte : l.headerName.bytes l.mem = bytes "transfer_encoding"
  · rw [if_pos hte, hte]
    cases hm : matchEncoding l.mem l.headerValue.data encodingNames with
    | error f => simp [hnames]
    | ok te => cases te <;> simp [hnames]
  · rw [if_neg hte]
    by_cases hcl : l.headerName.bytes l.mem = bytes "content_length"
    · rw [if_pos hcl]
      cases hn : atoi l.mem l.headerValue.data with
      | error f => simp [hte]
      | ok n => by_cases hneg : n < 0 <;> simp [hnames.symm, hcl, hneg]
    · simp [hte, hcl]

/-- A line without a processor is not answered. -/
theorem not_rejected {r : Request} (hv : contractGet r.mem r.headerName = none) : ¬ Rejected r := by
  unfold Rejected Framing.line
  rw [if_neg (contractGet_unnamed "transfer_encoding" hv (by decide)),
    if_neg (contractGet_unnamed "content_length" hv (by decide))]
  simp

end SyServer
