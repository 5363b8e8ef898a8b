import SyServer.SplitValue
import SyServer.Handlers

/-! # The `Accept` header

`parse_header_accept` of `httpparse.c`: the value is split at its commas, each element at its
semicolons, and the first part of an element at its slash; the last parameter `q=` of an element is its
quality.  `float` and `atof` are those of the C library (`one` is `1.0f`); the list of the request has
a node behind its tail for each element that was understood.

What a client writes is a list of ranges, with spaces in front of a range and of a parameter
(`AcceptRange.text`, `acceptText`).  The parser reads back the ranges that were written
(`accept_roundTrip`).

* `splitHeaderValue_spaced`: splitting a text that was joined.
* `acceptType_text`: one range.
* `atofDecimal`: an `atof` for the read buffer. -/

namespace SyServer

/-! ### The parser -/

/-- `sy_string_find`: the offset of the byte. -/
def stringFind (m : Mem) (s : Str) (c : UInt8) : Option ℕ := (s.bytes m).findIdx? (· = c)

/-- `sy_accept_type_t`. -/
structure AcceptType (ρ : Type) where
  type : Str
  subtype : Str
  q : ρ

section parser

variable {ρ : Type} (one : ρ) (atof : Mem → Ptr → ρ)

/-- One parameter: the quality behind it. -/
def qualityParam (m : Mem) (q : ρ) (param : Str) : ρ :=
  if m param.data = 113 ∧ m (param.data.add 1) = 61 then atof m (param.data.add 2) else q

/-- One element of the value; `none` where the loop goes on. -/
def acceptType (m : Mem) (val : Str) : Option (AcceptType ρ) :=
  match splitHeaderValue m val 59 with
  | [] => none
  | type :: params =>
      (stringFind m type cSlash).map fun slash : ℕ =>
        { type := ⟨type.data, slash⟩
          subtype := ⟨type.data.add (slash + 1), type.len - (slash : ℤ) - 1⟩
          q := params.foldl (qualityParam atof m) one }

/-- `parse_header_accept`: its answer, and the list of the request. -/
def parseHeaderAccept (m : Mem) (val : Str) (accepts : List (AcceptType ρ)) : Rc × List (AcceptType ρ) :=
  (.ok, accepts ++ (splitHeaderValue m val 44).filterMap (acceptType one atof m))

end parser

/-! ### What a client writes -/

/-- A parameter of a range: its quality, or another one. -/
inductive AcceptParam where
  | quality (text : List UInt8)
  | other (text : List UInt8)
deriving DecidableEq, Repr

/-- A range, with the spaces in front of each parameter. -/
structure AcceptRange where
  type : List UInt8
  subtype : List UInt8
  params : List (ℕ × AcceptParam)
deriving DecidableEq, Repr

/-- Elements with spaces in front of them, joined by a separator. -/
def joined (sep : UInt8) (ws : List (ℕ × List UInt8)) : List UInt8 :=
  [sep].intercalate (ws.map fun w => List.replicate w.1 cSp ++ w.2)

def AcceptParam.text : AcceptParam → List UInt8
  | quality text => 113 :: 61 :: text
  | other text => text

/-- The parts of a range. -/
def AcceptRange.parts (r : AcceptRange) : List (ℕ × List UInt8) :=
  (0, r.type ++ cSlash :: r.subtype) :: r.params.map fun p => (p.1, p.2.text)

def AcceptRange.text (r : AcceptRange) : List UInt8 := joined 59 r.parts

/-- The value of the header. -/
def acceptText (rs : List (ℕ × AcceptRange)) : List UInt8 := joined 44 (rs.map fun r => (r.1, r.2.text))

/-- A byte that is part of a name: neither a space nor one of the two separators. -/
def partByte (c : UInt8) : Bool := c ≠ cSp && c ≠ 44 && c ≠ 59

/-- What is behind a value or an element. -/
def stopByte (c : UInt8) : Bool := c = cSp || c = 44 || c = 59 || c = cCr || c = cLf

/-- A parameter that a client can write: a number, or a name that does not begin with `q=`. -/
def AcceptParam.Legal : AcceptParam → Prop
  | quality text => text ≠ [] ∧ ∀ c ∈ text, isDigit c = true ∨ c = cDot
  | other text => text ≠ [] ∧ (∀ c ∈ text, partByte c = true) ∧ ¬ [113, 61] <+: text

/-- A range that a client can write. -/
structure AcceptRange.Legal (r : AcceptRange) : Prop where
  type : ∀ c ∈ r.type, partByte c = true ∧ c ≠ cSlash
  subtype : ∀ c ∈ r.subtype, partByte c = true
  params : ∀ p ∈ r.params, p.2.Legal

/-- The quality behind a parameter. -/
def AcceptParam.given {ρ : Type} (value : List UInt8 → ρ) (q : ρ) : AcceptParam → ρ
  | quality text => value text
  | other _ => q

/-- The quality of a range: the last one that is given. -/
def AcceptRange.quality {ρ : Type} (one : ρ) (value : List UInt8 → ρ) (r : AcceptRange) : ρ :=
  (r.params.map Prod.snd).foldl (AcceptParam.given value) one

/-! ### Texts in memory -/

/-- The text is in memory at the pointer. -/
def Written (m : Mem) (p : Ptr) (l : List UInt8) : Prop := (⟨p, l.length⟩ : Str).bytes m = l

/-- A slice that holds a word, with the end of a part behind it. -/
structure Slice (m : Mem) (s : Str) (w : List UInt8) : Prop where
  written : Written m s.data w
  len : s.len = w.length
  stop : stopByte (m (s.data.add w.length)) = true

section written

variable {m : Mem} {p : Ptr} {l l' : List UInt8} {c : UInt8}

theorem written_append : Written m p (l ++ l') ↔ Written m p l ∧ Written m (p.add l.length) l' := by
  have hsplit : (⟨p, ((l ++ l').length : ℕ)⟩ : Str).bytes m =
      (⟨p, l.length⟩ : Str).bytes m ++ (⟨p.add l.length, l'.length⟩ : Str).bytes m := by
    unfold Str.bytes
    rw [Int.toNat_natCast, Int.toNat_natCast, Int.toNat_natCast, List.length_append, List.range_add,
      List.map_append, List.map_map]
    simp only [Ptr.add_add, Function.comp_def]
  unfold Written
  rw [hsplit]
  constructor
  · exact fun h => List.append_inj h (by simp)
  · rintro ⟨hl, hl'⟩
    rw [hl, hl']

theorem written_cons : Written m p (c :: l) ↔ m p = c ∧ Written m (p.add 1) l := by
  rw [← List.singleton_append, written_append]
  simp [Written, Str.bytes]

theorem Slice.bytes {s : Str} (h : Slice m s l) : s.bytes m = l := by
  have hs : s = ⟨s.data, l.length⟩ := by rw [← h.len]
  rw [hs]
  exact h.written

end written

/-! ### Splitting a joined text -/

/-- A word that neither begins nor ends with a space. -/
structure Tight (w : List UInt8) : Prop where
  ne : w ≠ []
  head : w.head? ≠ some cSp
  last : w.getLast? ≠ some cSp

/-- An element with the spaces in front of it. -/
def spaced (w : ℕ × List UInt8) : List UInt8 := List.replicate w.1 cSp ++ w.2

/-- The offset and the length of each element of a joined text that begins at the offset `k`. -/
def placedFrom (k : ℕ) : List (ℕ × List UInt8) → List (ℕ × ℕ)
  | [] => []
  | w :: ws => (k + w.1, w.2.length) :: placedFrom (k + w.1 + w.2.length + 1) ws

section split

variable {m : Mem} {p : Ptr} {k n : ℕ} {sep : UInt8} {w : List UInt8} {ws : List (ℕ × List UInt8)}

theorem Tight.of_not_mem (hne : w ≠ []) (h : cSp ∉ w) : Tight w where
  ne := hne
  head hw := h (List.mem_of_head? hw)
  last hw := h (List.mem_of_getLast? hw)

theorem Tight.unled (h : Tight w) : unled (List.replicate n cSp ++ w) = w := by
  cases w with
  | nil => exact absurd rfl h.ne
  | cons c w =>
      have hc : c ≠ cSp := fun e => h.head (congrArg some e)
      unfold SyServer.unled
      rw [List.dropWhile_append_of_pos fun a ha => by simpa using List.eq_of_mem_replicate ha,
        List.dropWhile_cons_of_neg (by simpa using hc)]

theorem Tight.stripped (h : Tight w) : stripped (List.replicate n cSp ++ w) = w := by
  unfold SyServer.stripped
  rw [h.unled, List.rdropWhile_eq_self_iff]
  intro hl hlast
  exact h.last ((List.getLast?_eq_some_getLast hl).trans (congrArg some (by simpa using hlast)))

theorem kept_spaced {v : ℕ × List UInt8} (h : Tight v.2) (hn : n = 0) :
    kept k n (spaced v) = some (k + v.1, v.2.length) := by
  unfold kept spaced
  rw [h.unled, h.stripped, if_neg h.ne, List.length_append, List.length_replicate, hn,
    Nat.add_sub_cancel]
  rfl

theorem trailing_spaced {v : ℕ × List UInt8} (h : Tight v.2) : trailing (spaced v) = 0 := by
  unfold trailing spaced
  rw [h.unled, h.stripped]
  exact Nat.sub_self _

/-- The pass finds the elements where they are. -/
theorem keptFrom_spaced (htight : ∀ w ∈ ws, Tight w.2) :
    keptFrom k (ws.map spaced) = placedFrom k ws := by
  induction ws generalizing k with
  | nil => rfl
  | cons v ws ih =>
      have hv := htight v List.mem_cons_self
      have hrest := fun k => ih (k := k) fun w hw => htight w (List.mem_cons_of_mem _ hw)
      have htrail := trailing_spaced hv
      have hlen : (spaced v).length = v.1 + v.2.length := by simp [spaced]
      cases ws with
      | nil =>
          rw [List.map_singleton, keptFrom, kept_spaced hv htrail]
          rfl
      | cons w ws =>
          rw [List.map_cons, List.map_cons, keptFrom, ← List.map_cons, hrest, hlen,
            kept_spaced hv (by omega), ← Nat.add_assoc k]
          · rfl
          · simp

theorem joined_cons (v w : ℕ × List UInt8) : joined sep (v :: w :: ws) =
    spaced v ++ sep :: joined sep (w :: ws) :=
  List.intercalate_cons_cons.trans (List.append_assoc _ _ _)

/-- The elements are held by the slices at their places. -/
theorem slices_placed (hsep : stopByte sep = true) (htext : Written m (p.add k) (joined sep ws))
    (hstop : stopByte (m (p.add (k + (joined sep ws).length))) = true) :
    List.Forall₂ (fun e w => Slice m ⟨p.add e.1, (e.2 : ℕ)⟩ w.2) (placedFrom k ws) ws := by
  induction ws generalizing k with
  | nil => exact .nil
  | cons v ws ih =>
      cases ws with
      | nil =>
          have hone : joined sep [v] = spaced v := by simp [joined, spaced]
          rw [hone, spaced, written_append, List.length_replicate, Ptr.add_add] at htext
          rw [hone, spaced, List.length_append, List.length_replicate, ← Nat.add_assoc,
            ← Ptr.add_add] at hstop
          exact .cons ⟨htext.2, rfl, hstop⟩ .nil
      | cons w ws =>
          rw [joined_cons, spaced, List.append_assoc, written_append, List.length_replicate,
            Ptr.add_add, written_append, Ptr.add_add, written_cons, Ptr.add_add] at htext
          obtain ⟨-, hv, hbyte, hrest⟩ := htext
          refine .cons ⟨hv, rfl, ?_⟩ (ih hrest ?_)
          · show stopByte (m ((p.add (k + v.1)).add v.2.length)) = true
            rw [Ptr.add_add, hbyte]
            exact hsep
          · rw [joined_cons, spaced, List.append_assoc, List.length_append, List.length_replicate,
              List.length_append, List.length_cons] at hstop
            rw [← hstop]
            congr 3
            omega

/-- Splitting a joined text. -/
theorem splitHeaderValue_spaced {val : Str} (h : Slice m val (joined sep ws))
    (hsep : stopByte sep = true) (hne : sep ≠ cSp) (hws : ∀ w ∈ ws, Tight w.2 ∧ sep ∉ w.2) :
    List.Forall₂ (fun s w => Slice m s w.2) (splitHeaderValue m val sep) ws := by
  have hsplit : splitHeaderValue m val sep =
      (placedFrom 0 ws).map fun e => ⟨val.data.add e.1, (e.2 : ℕ)⟩ := by
    have hpass := splitLoop_kept (k := 0) (l := val.bytes m) hne []
    rw [Nat.zero_add, Str.length_bytes, List.nil_append, h.bytes] at hpass
    unfold splitHeaderValue
    rw [h.bytes, hpass]
    congr 1
    rcases eq_or_ne ws [] with rfl | hcons
    · rfl
    · have hmem : ∀ l ∈ ws.map spaced, sep ∉ l := by
        intro l hl
        obtain ⟨w, hw, rfl⟩ := List.mem_map.mp hl
        rw [spaced, List.mem_append, List.mem_replicate]
        rintro (hspace | hword)
        · exact hne hspace.2
        · exact (hws w hw).2 hword
      have hon : (joined sep ws).splitOn sep = ws.map spaced :=
        List.splitOn_intercalate sep hmem (by simpa using hcons)
      rw [hon]
      exact keptFrom_spaced fun w hw => (hws w hw).1
  rw [hsplit, List.forall₂_map_left_iff]
  refine slices_placed hsep ?_ ?_
  · rw [Ptr.add_zero]
    exact h.written
  · rw [Nat.zero_add]
    exact h.stop

end split

/-! ### The texts of the parts -/

section texts

variable {c sep : UInt8} {w : List UInt8} {ws : List (ℕ × List UInt8)} {a : AcceptParam}
  {r : AcceptRange}

theorem mem_joined (h : c ∈ joined sep ws) : c = sep ∨ c = cSp ∨ ∃ w ∈ ws, c ∈ w.2 := by
  induction ws with
  | nil => exact absurd h List.not_mem_nil
  | cons v ws ih =>
      have hspaced : c ∈ spaced v → c = sep ∨ c = cSp ∨ ∃ w ∈ v :: ws, c ∈ w.2 := by
        intro hc
        rcases List.mem_append.mp hc with hspace | hword
        · exact .inr (.inl (List.eq_of_mem_replicate hspace))
        · exact .inr (.inr ⟨v, List.mem_cons_self, hword⟩)
      cases ws with
      | nil => exact hspaced (by simpa [joined, spaced] using h)
      | cons w ws =>
          rw [joined_cons, List.mem_append, List.mem_cons] at h
          rcases h with hc | hc | hc
          · exact hspaced hc
          · exact .inl hc
          · rcases ih hc with hc | hc | ⟨x, hx, hc⟩
            · exact .inl hc
            · exact .inr (.inl hc)
            · exact .inr (.inr ⟨x, List.mem_cons_of_mem _ hx, hc⟩)

theorem joined_last (hne : ws ≠ []) (htight : ∀ w ∈ ws, Tight w.2) :
    joined sep ws ≠ [] ∧ (joined sep ws).getLast? ≠ some cSp := by
  induction ws with
  | nil => exact absurd rfl hne
  | cons v ws ih =>
      have hv := htight v List.mem_cons_self
      cases ws with
      | nil =>
          have hone : joined sep [v] = List.replicate v.1 cSp ++ v.2 := by simp [joined]
          rw [hone]
          refine ⟨List.append_ne_nil_of_right_ne_nil _ hv.ne, ?_⟩
          rw [List.getLast?_append_of_ne_nil _ hv.ne]
          exact hv.last
      | cons w ws =>
          obtain ⟨hnil, hlast⟩ := ih (by simp) fun x hx => htight x (List.mem_cons_of_mem _ hx)
          rw [joined_cons]
          refine ⟨by simp, ?_⟩
          rw [List.getLast?_append_of_ne_nil _ (by simp), ← List.singleton_append,
            List.getLast?_append_of_ne_nil _ hnil]
          exact hlast

/-- A joined text without spaces in front. -/
theorem tight_joined (htight : ∀ v ∈ (0, w) :: ws, Tight v.2) : Tight (joined sep ((0, w) :: ws)) := by
  obtain ⟨hne, hlast⟩ : joined sep ((0, w) :: ws) ≠ [] ∧ (joined sep ((0, w) :: ws)).getLast? ≠ some cSp :=
    joined_last (by simp) htight
  refine ⟨hne, ?_, hlast⟩
  have hw := htight (0, w) List.mem_cons_self
  obtain ⟨c, w', rfl⟩ := List.exists_cons_of_ne_nil hw.ne
  have hhead : (joined sep ((0, c :: w') :: ws)).head? = some c := by
    cases ws with
    | nil => simp [joined]
    | cons x ws =>
        rw [joined_cons]
        rfl
  rw [hhead]
  exact hw.head

/-! ### The parts of a range -/

theorem partByte_digit (h : isDigit c = true ∨ c = cDot) : partByte c = true := by
  rcases h with h | rfl
  · refine Bool.and_eq_true_iff.mpr ⟨Bool.and_eq_true_iff.mpr ⟨?_, ?_⟩, ?_⟩
    all_goals
      refine decide_eq_true ?_
      rintro rfl
      exact absurd h (by decide)
  · rfl

theorem AcceptParam.Legal.text (h : a.Legal) : a.text ≠ [] ∧ ∀ c ∈ a.text, partByte c = true := by
  cases a with
  | quality text =>
      refine ⟨by simp [AcceptParam.text], fun c hc => ?_⟩
      rcases List.mem_cons.mp hc with rfl | hc
      · rfl
      rcases List.mem_cons.mp hc with rfl | hc
      · rfl
      · exact partByte_digit (h.2 c hc)
  | other text => exact ⟨h.1, h.2.1⟩

theorem AcceptRange.Legal.parts (h : r.Legal) :
    ∀ w ∈ r.parts, w.2 ≠ [] ∧ ∀ c ∈ w.2, partByte c = true := by
  intro w hw
  rcases List.mem_cons.mp hw with rfl | hw
  · refine ⟨by simp, fun c hc => ?_⟩
    rcases List.mem_append.mp hc with htype | hc
    · exact (h.type c htype).1
    rcases List.mem_cons.mp hc with rfl | hsub
    · rfl
    · exact h.subtype c hsub
  · obtain ⟨q, hq, rfl⟩ := List.mem_map.mp hw
    exact (h.params q hq).text

theorem tight_part (hne : w ≠ []) (h : ∀ c ∈ w, partByte c = true) : Tight w :=
  .of_not_mem hne fun hc => absurd (h _ hc) (by decide)

theorem AcceptRange.Legal.tight (h : r.Legal) : Tight r.text :=
  tight_joined fun w hw => tight_part (h.parts w hw).1 (h.parts w hw).2

theorem AcceptRange.Legal.comma (h : r.Legal) : 44 ∉ r.text := by
  intro hc
  rcases mem_joined hc with hc | hc | ⟨w, hw, hc⟩
  · exact absurd hc (by decide)
  · exact absurd hc (by decide)
  · exact absurd ((h.parts w hw).2 44 hc) (by decide)

end texts

/-! ### Reading a range -/

section reading

variable {ρ : Type} {one : ρ} {atof : Mem → Ptr → ρ} {value : List UInt8 → ρ} {m : Mem} {s val : Str}
  {r : AcceptRange} {a : AcceptParam}

/-- `atof` reads a number up to the end of a part. -/
def ReadsNumbers (atof : Mem → Ptr → ρ) (value : List UInt8 → ρ) (m : Mem) : Prop :=
  ∀ p t, t ≠ [] → (∀ c ∈ t, isDigit c = true ∨ c = cDot) → Written m p t →
    stopByte (m (p.add t.length)) = true → atof m p = value t

theorem qualityParam_text (hatof : ReadsNumbers atof value m) (ha : a.Legal) (h : Slice m s a.text) (q : ρ) :
    qualityParam atof m q s = a.given value q := by
  obtain ⟨hwritten, -, hstop⟩ := h
  unfold qualityParam
  cases a with
  | quality text =>
      rw [AcceptParam.text, written_cons, written_cons, Ptr.add_add] at hwritten
      obtain ⟨hq, heq, htext⟩ := hwritten
      rw [if_pos ⟨hq, heq⟩]
      refine hatof _ text ha.1 ha.2 htext ?_
      rw [Ptr.add_add, Nat.add_comm]
      exact hstop
  | other text =>
      rw [if_neg]
      · rfl
      rintro ⟨hq, heq⟩
      obtain ⟨c, text, rfl⟩ := List.exists_cons_of_ne_nil ha.1
      rw [AcceptParam.text, written_cons] at hwritten
      cases text with
      | nil =>
          have hstop : stopByte (m (s.data.add 1)) = true := hstop
          rw [heq] at hstop
          exact absurd hstop (by decide)
      | cons d text =>
          rw [written_cons] at hwritten
          refine ha.2.2 ⟨text, ?_⟩
          rw [← hwritten.1, ← hwritten.2.1, hq, heq]
          rfl

theorem foldl_qualityParam (hatof : ReadsNumbers atof value m) {params : List Str} {l : List AcceptParam}
    (hl : ∀ a ∈ l, a.Legal) (h : List.Forall₂ (fun s a => Slice m s (AcceptParam.text a)) params l) (q : ρ) :
    params.foldl (qualityParam atof m) q = l.foldl (AcceptParam.given value) q := by
  induction h generalizing q with
  | nil => rfl
  | cons hs _ ih =>
      rw [List.foldl_cons, List.foldl_cons, qualityParam_text hatof (hl _ List.mem_cons_self) hs]
      exact ih (fun a ha => hl a (List.mem_cons_of_mem _ ha)) _

/-- The slash of the first part. -/
theorem stringFind_slash {t u : List UInt8} (ht : ∀ c ∈ t, c ≠ cSlash) (h : Slice m s (t ++ cSlash :: u)) :
    stringFind m s cSlash = some t.length := by
  unfold stringFind
  rw [h.bytes, List.findIdx?_append, List.findIdx?_eq_none_iff.mpr fun c hc => by simpa using ht c hc]
  simp [List.findIdx?_cons]

/-- One range. -/
theorem acceptType_text (hatof : ReadsNumbers atof value m) (hr : r.Legal) (h : Slice m s r.text) :
    ∃ a, acceptType one atof m s = some a ∧
      (a.type.bytes m, a.subtype.bytes m, a.q) = (r.type, r.subtype, r.quality one value) := by
  have hparts := splitHeaderValue_spaced h (by decide) (by decide) fun w hw =>
    ⟨tight_part (hr.parts w hw).1 (hr.parts w hw).2, fun hc => absurd ((hr.parts w hw).2 _ hc) (by decide)⟩
  unfold acceptType
  generalize splitHeaderValue m s 59 = slices at hparts
  obtain ⟨t, params, htype, hparams, rfl⟩ := List.forall₂_cons_right_iff.mp hparts
  refine ⟨_, congrArg (Option.map _) (stringFind_slash (fun c hc => (hr.type c hc).2) htype), ?_⟩
  have hwritten := htype.written
  rw [written_append, written_cons, Ptr.add_add] at hwritten
  have hlen := htype.len
  rw [List.length_append, List.length_cons] at hlen
  rw [List.forall₂_map_right_iff] at hparams
  refine Prod.ext hwritten.1 (Prod.ext ?_ ?_)
  · have hsub : t.len - r.type.length - 1 = r.subtype.length := by
      rw [hlen]
      push_cast
      omega
    show (Str.mk _ (t.len - r.type.length - 1)).bytes m = r.subtype
    rw [hsub]
    exact hwritten.2.2
  · refine foldl_qualityParam hatof ?_ (List.forall₂_map_right_iff.mpr hparams) one
    intro a ha
    obtain ⟨p, hp, rfl⟩ := List.mem_map.mp ha
    exact hr.params p hp

theorem filterMap_acceptType (hatof : ReadsNumbers atof value m) {slices : List Str}
    {rs : List (ℕ × AcceptRange)} (hrs : ∀ r ∈ rs, r.2.Legal)
    (h : List.Forall₂ (fun s r => Slice m s (AcceptRange.text r.2)) slices rs) :
    (slices.filterMap (acceptType one atof m)).map (fun a => (a.type.bytes m, a.subtype.bytes m, a.q)) =
      rs.map fun r => (r.2.type, r.2.subtype, r.2.quality one value) := by
  induction h with
  | nil => rfl
  | cons hs _ ih =>
      obtain ⟨a, ha, hreads⟩ := acceptType_text hatof (hrs _ List.mem_cons_self) hs
      rw [List.filterMap_cons_some ha, List.map_cons, List.map_cons, hreads]
      exact congrArg _ (ih fun r hr => hrs r (List.mem_cons_of_mem _ hr))

/-- **An `Accept` header is read back.**  For every list of ranges that a client can write, with
parameters and any spaces in front of them, the parser puts exactly these ranges behind those that the
request has, in their order, each with its type, its subtype and the last quality that is given. -/
theorem accept_roundTrip (hatof : ReadsNumbers atof value m) (accepts : List (AcceptType ρ))
    (rs : List (ℕ × AcceptRange)) (hrs : ∀ r ∈ rs, r.2.Legal) (hval : Slice m val (acceptText rs)) :
    ∃ news, parseHeaderAccept one atof m val accepts = (.ok, accepts ++ news) ∧
      news.map (fun a => (a.type.bytes m, a.subtype.bytes m, a.q)) =
        rs.map fun r => (r.2.type, r.2.subtype, r.2.quality one value) := by
  have hws : ∀ w ∈ rs.map (fun r => (r.1, r.2.text)), Tight w.2 ∧ 44 ∉ w.2 := by
    intro w hw
    obtain ⟨r, hr, rfl⟩ := List.mem_map.mp hw
    exact ⟨(hrs r hr).tight, (hrs r hr).comma⟩
  have hranges := splitHeaderValue_spaced hval (by decide) (by decide) hws
  rw [List.forall₂_map_right_iff] at hranges
  exact ⟨_, rfl, filterMap_acceptType hatof hrs hranges⟩

end reading

/-! ### An `atof` for a buffer -/

/-- The digits and dots at the pointer, at most `n` of them. -/
def numberText (m : Mem) : ℕ → Ptr → List UInt8
  | 0, _ => []
  | n + 1, p => if isDigit (m p) || m p = cDot then m p :: numberText m n (p.add 1) else []

/-- The number that a text begins with. -/
def decimalValue (t : List UInt8) : ℚ :=
  let whole := t.takeWhile isDigit
  let part := (t.drop (whole.length + 1)).takeWhile isDigit
  mkRat (digitsValue (whole ++ part)) (10 ^ part.length)

/-- `atof` for numbers of at most `BUF_SIZE` bytes. -/
def atofDecimal (m : Mem) (p : Ptr) : ℚ := decimalValue (numberText m BUF_SIZE p)

theorem stopByte_number {c : UInt8} (h : stopByte c = true) : (isDigit c || c = cDot) = false := by
  have hc : c = cSp ∨ c = 44 ∨ c = 59 ∨ c = cCr ∨ c = cLf := by simpa [stopByte, or_assoc] using h
  rcases hc with rfl | rfl | rfl | rfl | rfl
  all_goals rfl

theorem numberText_written {m : Mem} {p : Ptr} {t : List UInt8} {n : ℕ}
    (ht : ∀ c ∈ t, isDigit c = true ∨ c = cDot) (hwritten : Written m p t)
    (hstop : stopByte (m (p.add t.length)) = true) (hn : t.length < n) : numberText m n p = t := by
  induction t generalizing n p with
  | nil =>
      obtain ⟨k, rfl⟩ := Nat.exists_eq_add_of_lt hn
      rw [List.length_nil, Ptr.add_zero] at hstop
      unfold numberText
      rw [stopByte_number hstop]
      rfl
  | cons c t ih =>
      obtain ⟨k, rfl⟩ := Nat.exists_eq_add_of_lt hn
      rw [written_cons] at hwritten
      have hc : (isDigit (m p) || m p = cDot) = true := by
        rw [hwritten.1]
        simpa using ht c List.mem_cons_self
      rw [List.length_cons, Nat.add_comm t.length, ← Ptr.add_add] at hstop
      unfold numberText
      rw [hc, if_pos rfl, hwritten.1]
      refine congrArg _ (ih (fun d hd => ht d (List.mem_cons_of_mem _ hd)) hwritten.2 hstop ?_)
      rw [List.length_cons]
      omega

/-- A number in the read buffer is no longer than the buffer. -/
theorem written_length {l t : List UInt8} {p : Ptr} (hwritten : Written (bufferMem l) p t)
    (ht : ∀ c ∈ t, c ≠ 0) : t.length ≤ l.length := by
  rcases List.eq_nil_or_concat t with rfl | ⟨t, c, rfl⟩
  · exact Nat.zero_le _
  · rw [List.concat_eq_append] at *
    rw [written_append, written_cons] at hwritten
    have hc : bufferMem l (p.add t.length) ≠ 0 := by
      rw [hwritten.2.1]
      exact ht c (List.mem_append_right _ List.mem_cons_self)
    cases p with
    | rb i =>
        have hlt : i + t.length < l.length := by
          by_contra hle
          exact hc (List.getD_eq_default _ _ (by omega))
        rw [List.length_append, List.length_singleton]
        omega
    | _ => exact absurd rfl hc

theorem atofDecimal_reads {l : List UInt8} (hl : l.length < BUF_SIZE) :
    ReadsNumbers atofDecimal decimalValue (bufferMem l) := by
  intro p t _ ht hwritten hstop
  have hlen : t.length ≤ l.length := by
    refine written_length hwritten fun c hc => ?_
    rintro rfl
    exact absurd (ht 0 hc) (by decide)
  exact congrArg decimalValue (numberText_written ht hwritten hstop (by omega))

/-- A range with two parameters, and one behind it. -/
def acceptRanges : List (ℕ × AcceptRange) :=
  [(0, ⟨bytes "text", bytes "html", [(1, .other (bytes "level=1")), (0, .quality (bytes "0.5"))]⟩),
    (1, ⟨bytes "*", bytes "*", []⟩)]

/-- The buffer with these ranges, up to the end of the line. -/
def acceptBuffer : List UInt8 := bytes "text/html; level=1;q=0.5, */*\r\n"

theorem accept_roundTrip_two : ∃ news,
    parseHeaderAccept 1 atofDecimal (bufferMem acceptBuffer) ⟨.rb 0, 29⟩ [] = (.ok, news) ∧
      news.map (fun a =>
        (a.type.bytes (bufferMem acceptBuffer), a.subtype.bytes (bufferMem acceptBuffer), a.q)) =
      [(bytes "text", bytes "html", 1 / 2), (bytes "*", bytes "*", 1)] := by
  have hreads : ReadsNumbers atofDecimal decimalValue (bufferMem acceptBuffer) :=
    atofDecimal_reads (by decide)
  have hlegal : ∀ r ∈ acceptRanges, r.2.Legal := by
    intro r hr
    rcases List.mem_cons.mp hr with rfl | hr
    · refine ⟨by decide +kernel, by decide +kernel, ?_⟩
      intro q hq
      rcases List.mem_cons.mp hq with rfl | hq
      · exact ⟨by decide +kernel, by decide +kernel, by decide +kernel⟩
      · obtain rfl := List.mem_singleton.mp hq
        exact ⟨by decide +kernel, by decide +kernel⟩
    · obtain rfl := List.mem_singleton.mp hr
      exact ⟨by decide +kernel, by decide +kernel, fun q hq => absurd hq List.not_mem_nil⟩
  have hbytes : (⟨.rb 0, 29⟩ : Str).bytes (bufferMem acceptBuffer) = acceptText acceptRanges := by
    decide +kernel
  have hval : Slice (bufferMem acceptBuffer) ⟨.rb 0, 29⟩ (acceptText acceptRanges) :=
    ⟨hbytes, by decide +kernel, by decide +kernel⟩
  obtain ⟨news, hparse, hnews⟩ : ∃ news,
      parseHeaderAccept 1 atofDecimal (bufferMem acceptBuffer) ⟨.rb 0, 29⟩ [] = (.ok, [] ++ news) ∧
        news.map (fun a =>
          (a.type.bytes (bufferMem acceptBuffer), a.subtype.bytes (bufferMem acceptBuffer), a.q)) =
        acceptRanges.map fun r => (r.2.type, r.2.subtype, r.2.quality 1 decimalValue) :=
    accept_roundTrip hreads [] acceptRanges hlegal hval
  exact ⟨news, hparse, hnews.trans (by decide +kernel)⟩

end SyServer
