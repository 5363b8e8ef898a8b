import SyServer.HeaderLines

/-! # Splitting a header value

`split_header_value` of `httpparse.c`: one pass over the bytes of a value that fills a vector with the
elements between the separators.  `cur` is the element that was begun, with a length that is set at
every space and taken back where the element goes on.  The vector is taken to have room.

An element should be a piece between two separators without the spaces around it (`elements`).  At a
separator the length is that of the last space before it, so all but the last of several spaces stay
with the element; at the end of the value all of them do.

* `splitLoop_piece`: what the pass knows behind the bytes of a piece.
* `splitHeaderValue_iff`: the elements are right exactly if no spaces stay. -/

namespace SyServer

/-! ### The pass -/

/-- The elements that are done, and `cur` with its offset and its length so far. -/
structure Split where
  vec : List (ℕ × ℕ)
  cur : Option (ℕ × ℕ)
deriving DecidableEq, Repr

/-- One byte of the value, at the offset `p`. -/
def splitByte (split : UInt8) (p : ℕ) (c : UInt8) (s : Split) : Split :=
  if c = cSp then
    match s.cur with
    | none => s
    | some (data, _) => { s with cur := some (data, p - data) }
  else if c = split then
    match s.cur with
    | none => s
    | some (data, len) => ⟨s.vec ++ [(data, if len = 0 then p - data else len)], none⟩
  else
    match s.cur with
    | none => { s with cur := some (p, 0) }
    | some (data, _) => { s with cur := some (data, 0) }

/-- The loop over the bytes `l` from the offset `p` on. -/
def splitLoop (split : UInt8) : ℕ → List UInt8 → Split → Split
  | _, [], s => s
  | p, c :: l, s => splitLoop split (p + 1) l (splitByte split p c s)

/-- The element at the end of the value, whose offset is `n`. -/
def splitEnd (n : ℕ) (s : Split) : List (ℕ × ℕ) :=
  match s.cur with
  | none => s.vec
  | some (data, _) => s.vec ++ [(data, n - data)]

/-- `split_header_value`: what `vec` holds afterwards. -/
def splitHeaderValue (m : Mem) (val : Str) (split : UInt8) : List Str :=
  (splitEnd val.len.toNat (splitLoop split 0 (val.bytes m) ⟨[], none⟩)).map fun e =>
    ⟨val.data.add e.1, e.2⟩

/-! ### The elements of a value -/

/-- The bytes behind the leading spaces. -/
def unled (w : List UInt8) : List UInt8 := w.dropWhile (· = cSp)

/-- The bytes between the leading and the trailing spaces. -/
def stripped (w : List UInt8) : List UInt8 := (unled w).rdropWhile (· = cSp)

/-- The element in the piece `w` at the offset `k`: its offset and its length. -/
def element (k : ℕ) (w : List UInt8) : Option (ℕ × ℕ) :=
  if stripped w = [] then none else some (k + (w.length - (unled w).length), (stripped w).length)

/-- The elements in the pieces from the offset `k` on, with a separator behind each but the last. -/
def elementsFrom (k : ℕ) : List (List UInt8) → List (ℕ × ℕ)
  | [] => []
  | w :: ws => (element k w).toList ++ elementsFrom (k + w.length + 1) ws

/-- The elements of a value. -/
def elements (split : UInt8) (l : List UInt8) : List (ℕ × ℕ) := elementsFrom 0 (l.splitOn split)

/-- The number of spaces behind the element of a piece. -/
def trailing (w : List UInt8) : ℕ := (unled w).length - (stripped w).length

/-- No element in front of a separator has two spaces behind it, and the last one has none. -/
def SpacesFit : List (List UInt8) → Prop
  | [] => True
  | [w] => stripped w ≠ [] → trailing w = 0
  | w :: ws => (stripped w ≠ [] → trailing w ≤ 1) ∧ SpacesFit ws

section pieces

variable {k p n : ℕ} {split c : UInt8} {l w : List UInt8} {ws : List (List UInt8)} {s : Split}

theorem unled_head (h : unled w = c :: l) : c ≠ cSp := by
  have := List.head_dropWhile_not (p := (· = cSp)) (l := w) (by rw [show w.dropWhile _ = _ from h]; simp)
  simpa [show w.dropWhile (· = cSp) = c :: l from h] using this

/-- A piece without an element is all spaces. -/
theorem stripped_eq_nil : stripped w = [] ↔ unled w = [] := by
  constructor
  · intro h
    cases hu : unled w with
    | nil => rfl
    | cons c l =>
        unfold stripped at h
        rw [hu, List.rdropWhile_eq_nil_iff] at h
        exact absurd (by simpa using h c List.mem_cons_self) (unled_head hu)
  · intro h
    unfold stripped
    rw [h]
    rfl

theorem unled_append (c : UInt8) : unled (w ++ [c]) =
    if unled w = [] then (if c = cSp then [] else [c]) else unled w ++ [c] := by
  unfold unled
  rw [List.dropWhile_append]
  by_cases hc : c = cSp <;> simp [hc]

theorem unled_length_le : (unled w).length ≤ w.length := (List.dropWhile_suffix _).length_le

theorem stripped_length_le : (stripped w).length ≤ (unled w).length :=
  (List.rdropWhile_prefix _ _).length_le

/-! ### The pass over a piece -/

/-- What the pass knows behind the bytes `w` of a piece at `k`: where the element begins, and a length
where the last byte is a space. -/
def tentative (k : ℕ) (w : List UInt8) : Option (ℕ × ℕ) :=
  if unled w = [] then none
  else some (k + (w.length - (unled w).length),
    if trailing w = 0 then 0 else (unled w).length - 1)

theorem splitLoop_append (l l' : List UInt8) : splitLoop split p (l ++ l') s =
    splitLoop split (p + l.length) l' (splitLoop split p l s) := by
  induction l generalizing p s with
  | nil => rfl
  | cons c l ih =>
      rw [List.cons_append, splitLoop, ih, splitLoop, List.length_cons]
      congr 1
      omega

theorem trailing_space (h : unled w ≠ []) : trailing (w ++ [cSp]) = trailing w + 1 := by
  have hle := stripped_length_le (w := w)
  have hu : unled (w ++ [cSp]) = unled w ++ [cSp] := by rw [unled_append, if_neg h]
  have hs : stripped (w ++ [cSp]) = stripped w := by
    unfold stripped
    rw [hu]
    exact rdropWhile_space _
  unfold trailing
  rw [hs, hu, List.length_append, List.length_singleton]
  omega

theorem trailing_other (hc : c ≠ cSp) : trailing (w ++ [c]) = 0 := by
  have hu : ∃ v, unled (w ++ [c]) = v ++ [c] := by
    rw [unled_append, if_neg hc]
    split_ifs
    · exact ⟨[], rfl⟩
    · exact ⟨_, rfl⟩
  obtain ⟨v, hv⟩ := hu
  unfold trailing stripped
  rw [hv, rdropWhile_other v hc]
  exact Nat.sub_self _

/-- A space behind the bytes of a piece. -/
theorem tentative_space (split : UInt8) (vec : List (ℕ × ℕ)) :
    splitByte split (k + w.length) cSp ⟨vec, tentative k w⟩ = ⟨vec, tentative k (w ++ [cSp])⟩ := by
  have hlen := unled_length_le (w := w)
  unfold splitByte tentative
  rw [if_pos rfl, unled_append]
  by_cases hu : unled w = []
  · simp [hu]
  · have hne : unled w ++ [cSp] ≠ [] := by simp
    rw [if_neg hu, if_neg hu, if_neg hne, trailing_space hu, if_neg (Nat.succ_ne_zero _)]
    show Split.mk vec (some (_, _)) = Split.mk vec (some (_, _))
    rw [List.length_append, List.length_append, List.length_singleton]
    congr 3
    · omega
    · omega

/-- Another byte, which belongs to the element. -/
theorem tentative_other (hc : c ≠ cSp) (hsep : c ≠ split) (vec : List (ℕ × ℕ)) :
    splitByte split (k + w.length) c ⟨vec, tentative k w⟩ = ⟨vec, tentative k (w ++ [c])⟩ := by
  unfold splitByte tentative
  rw [if_neg hc, if_neg hsep, unled_append, trailing_other hc, if_neg hc]
  by_cases hu : unled w = []
  · simp [hu]
  · simp [hu]

/-- The pass over the bytes of a piece. -/
theorem splitLoop_piece (hw : split ∉ w) (vec : List (ℕ × ℕ)) :
    splitLoop split k w ⟨vec, none⟩ = ⟨vec, tentative k w⟩ := by
  induction w using List.reverseRecOn with
  | nil => rfl
  | append_singleton w c ih =>
      rw [List.mem_append, List.mem_singleton, not_or] at hw
      rw [splitLoop_append, ih hw.1]
      by_cases hc : c = cSp
      · rw [hc]
        exact tentative_space split vec
      · exact tentative_other hc (Ne.symm hw.2) vec

/-! ### The end of a piece -/

/-- The element that the code makes of a piece, when it keeps `n` of the spaces behind it. -/
def kept (k n : ℕ) (w : List UInt8) : Option (ℕ × ℕ) :=
  if stripped w = [] then none
  else some (k + (w.length - (unled w).length), (stripped w).length + n)

theorem kept_eq_iff {e e' : List (ℕ × ℕ)} : (kept k n w).toList ++ e = (element k w).toList ++ e' ↔
    (stripped w ≠ [] → n = 0) ∧ e = e' := by
  unfold kept element
  by_cases hs : stripped w = []
  · simp [hs]
  · simp [hs]

/-- At a separator the length is that of the last space before it. -/
theorem tentative_sep (hsep : split ≠ cSp) (vec : List (ℕ × ℕ)) :
    splitByte split (k + w.length) split ⟨vec, tentative k w⟩ =
      ⟨vec ++ (kept k (trailing w - 1) w).toList, none⟩ := by
  have hlen := unled_length_le (w := w)
  have hle := stripped_length_le (w := w)
  unfold splitByte tentative kept
  rw [if_neg hsep, if_pos rfl]
  by_cases hu : unled w = []
  · simp [hu, stripped_eq_nil]
  · have hs := mt stripped_eq_nil.mp hu
    have hpos := List.length_pos_iff.mpr hs
    have htrail : trailing w = (unled w).length - (stripped w).length := rfl
    rw [if_neg hu, if_neg hs]
    by_cases hzero : trailing w = 0
    · rw [if_pos hzero]
      show Split.mk (vec ++ [(_, if 0 = 0 then _ else _)]) none = _
      rw [if_pos rfl, Option.toList_some]
      congr 4
      omega
    · rw [if_neg hzero]
      show Split.mk (vec ++ [(_, if (unled w).length - 1 = 0 then _ else _)]) none = _
      rw [if_neg (by omega), Option.toList_some]
      congr 4
      omega

/-- At the end of the value every space stays. -/
theorem tentative_end (vec : List (ℕ × ℕ)) :
    splitEnd (k + w.length) ⟨vec, tentative k w⟩ = vec ++ (kept k (trailing w) w).toList := by
  have hlen := unled_length_le (w := w)
  have hle := stripped_length_le (w := w)
  unfold splitEnd tentative kept
  by_cases hu : unled w = []
  · simp [hu, stripped_eq_nil]
  · have hs := mt stripped_eq_nil.mp hu
    have htrail : trailing w = (unled w).length - (stripped w).length := rfl
    simp only [if_neg hu, if_neg hs, Option.toList_some]
    congr 3
    omega

/-! ### The whole value -/

/-- The elements that the code makes of the pieces from the offset `k` on. -/
def keptFrom (k : ℕ) : List (List UInt8) → List (ℕ × ℕ)
  | [] => []
  | [w] => (kept k (trailing w) w).toList
  | w :: ws => (kept k (trailing w - 1) w).toList ++ keptFrom (k + w.length + 1) ws

/-- The pass from the beginning of a piece on. -/
theorem splitLoop_kept (hsep : split ≠ cSp) (vec : List (ℕ × ℕ)) :
    splitEnd (k + l.length) (splitLoop split k l ⟨vec, none⟩) =
      vec ++ keptFrom k (l.splitOn split) := by
  induction hn : l.length using Nat.strong_induction_on generalizing k l vec with
  | _ n ih =>
      subst hn
      by_cases hmem : split ∈ l
      · obtain ⟨w, rest, rfl, hw⟩ := List.eq_append_cons_of_mem hmem
        obtain ⟨w', ws, hws⟩ := List.exists_cons_of_ne_nil (List.splitOn_ne_nil split rest)
        have hlen : k + (w ++ split :: rest).length = k + w.length + 1 + rest.length := by
          rw [List.length_append, List.length_cons]
          omega
        rw [splitLoop_append, splitLoop_piece hw, splitLoop, tentative_sep hsep, hlen,
          ih rest.length (by simp; omega) _ rfl, List.splitOn_append_cons_self_of_not_mem hw, hws]
        exact List.append_assoc _ _ _
      · rw [splitLoop_piece hmem, tentative_end, List.splitOn_eq_singleton hmem]
        rfl

theorem keptFrom_iff : keptFrom k ws = elementsFrom k ws ↔ SpacesFit ws := by
  induction ws generalizing k with
  | nil => exact iff_of_true rfl trivial
  | cons w ws ih =>
      cases ws with
      | nil =>
          have hlast : (kept k (trailing w) w).toList ++ [] = (element k w).toList ++ [] ↔
              (stripped w ≠ [] → trailing w = 0) ∧ ([] : List (ℕ × ℕ)) = [] := kept_eq_iff
          rw [List.append_nil] at hlast
          exact hlast.trans (and_iff_left rfl)
      | cons w' ws =>
          refine kept_eq_iff.trans (and_congr (imp_congr_right fun _ => ?_) ih)
          omega

theorem add_inj {q : Ptr} {i j : ℕ} (h : q.add i = q.add j) : i = j := by
  cases q <;> simpa [Ptr.add] using h

/-- **Splitting a header value** at a separator that is not a space yields the elements of the value,
each as a slice of it, exactly if no element in front of a separator has two spaces behind it, and the
last element none. -/
theorem splitHeaderValue_iff (m : Mem) (val : Str) (split : UInt8) (hsep : split ≠ cSp) :
    splitHeaderValue m val split =
        (elements split (val.bytes m)).map (fun e => ⟨val.data.add e.1, e.2⟩) ↔
      SpacesFit ((val.bytes m).splitOn split) := by
  have hpass := splitLoop_kept (k := 0) (l := val.bytes m) hsep []
  rw [Nat.zero_add, Str.length_bytes, List.nil_append] at hpass
  unfold splitHeaderValue elements
  rw [hpass, ← keptFrom_iff (k := 0)]
  refine List.map_inj_right fun e e' h => ?_
  obtain ⟨hdata, hlen⟩ := Str.mk.inj h
  exact Prod.ext (add_inj hdata) (Int.ofNat_inj.mp hlen)

end pieces

/-- The slice of an element, in a value that has the piece behind the bytes `pre`. -/
theorem element_bytes (pre w rest : List UInt8) : (element pre.length w).toList.map
    (fun e => ((pre ++ (w ++ rest)).drop e.1).take e.2) = [stripped w].filter (· ≠ []) := by
  have hunled : unled w = w.drop (w.length - (unled w).length) :=
    List.suffix_iff_eq_drop.mp (List.dropWhile_suffix _)
  have hstripped : stripped w = (unled w).take (stripped w).length :=
    List.prefix_iff_eq_take.mp (List.rdropWhile_prefix _ _)
  unfold element
  by_cases hs : stripped w = []
  · simp [hs]
  · have hslice : ((pre ++ (w ++ rest)).drop (pre.length + (w.length - (unled w).length))).take
        (stripped w).length = stripped w := by
      rw [List.drop_length_add_append, List.drop_append_of_le_length (Nat.sub_le _ _), ← hunled,
        List.take_append_of_le_length stripped_length_le, ← hstripped]
    rw [if_neg hs, Option.toList_some, List.map_singleton, hslice,
      List.filter_cons_of_pos (by simpa using hs), List.filter_nil]

/-- The bytes of the elements are those of the pieces without the spaces around them, the empty ones
left out. -/
theorem elements_bytes (split : UInt8) (l : List UInt8) :
    (elements split l).map (fun e => (l.drop e.1).take e.2) =
      ((l.splitOn split).map stripped).filter (· ≠ []) := by
  have hfrom : ∀ ws pre, (elementsFrom pre.length ws).map
      (fun e => ((pre ++ [split].intercalate ws).drop e.1).take e.2) =
        (ws.map stripped).filter (· ≠ []) := by
    intro ws
    induction ws with
    | nil => exact fun _ => rfl
    | cons w ws ih =>
        intro pre
        have hrest : ∃ rest, [split].intercalate (w :: ws) = w ++ rest ∧
            (ws ≠ [] → rest = split :: [split].intercalate ws) := by
          cases ws with
          | nil => exact ⟨[], by simp, fun h => absurd rfl h⟩
          | cons w' ws => exact ⟨_, List.intercalate_cons_cons.trans (List.append_assoc _ _ _), fun _ => rfl⟩
        obtain ⟨rest, hw, hrest⟩ := hrest
        have hsplit : ((w :: ws).map stripped).filter (· ≠ []) =
            [stripped w].filter (· ≠ []) ++ (ws.map stripped).filter (· ≠ []) :=
          List.filter_append [stripped w] (ws.map stripped)
        rw [hw, elementsFrom, List.map_append, element_bytes, hsplit]
        congr 1
        rcases eq_or_ne ws [] with rfl | hws
        · rfl
        · have hpre := ih (pre ++ w ++ [split])
          rw [hrest hws]
          simpa [Nat.add_assoc] using hpre
  have := hfrom (l.splitOn split) []
  rwa [List.intercalate_splitOn] at this

/-- A value in the read buffer. -/
def bufferMem (l : List UInt8) : Mem
  | .rb i => l.getD i 0
  | _ => 0

/-- Of two spaces in front of a separator one stays. -/
theorem spaces_stay : ¬ ∀ (m : Mem) (val : Str) (split : UInt8), split ≠ cSp →
    splitHeaderValue m val split =
      (elements split (val.bytes m)).map (fun e => ⟨val.data.add e.1, e.2⟩) := by
  intro hall
  have h := hall (bufferMem (bytes "a  ,b")) ⟨.rb 0, 5⟩ 44 (by decide)
  have hcode : splitHeaderValue (bufferMem (bytes "a  ,b")) ⟨.rb 0, 5⟩ 44 =
      [⟨.rb 0, 2⟩, ⟨.rb 4, 1⟩] := by decide
  have hbytes : (⟨.rb 0, 5⟩ : Str).bytes (bufferMem (bytes "a  ,b")) = [97, 32, 32, 44, 98] := by decide
  have hpieces : [97, 32, 32, 44, 98].splitOn (44 : UInt8) = [[97, 32, 32], [98]] := by
    simp [List.splitOn_cons_eq_if_modifyHead]
  rw [hcode, hbytes, elements, hpieces] at h
  revert h
  decide

/-- The value of an `Accept` header. -/
theorem splitHeaderValue_iff_accept :
    splitHeaderValue (bufferMem (bytes "text/html , */*")) ⟨.rb 0, 15⟩ 44 = [⟨.rb 0, 9⟩, ⟨.rb 12, 3⟩] ∧
      splitHeaderValue (bufferMem (bytes "text/html , */*")) ⟨.rb 0, 15⟩ 44 =
        (elements 44 ((⟨.rb 0, 15⟩ : Str).bytes (bufferMem (bytes "text/html , */*")))).map
          (fun e => ⟨(Ptr.rb 0).add e.1, e.2⟩) := by
  refine ⟨by decide +kernel, (splitHeaderValue_iff _ ⟨.rb 0, 15⟩ 44 (by decide)).mpr ?_⟩
  have hbytes : (⟨.rb 0, 15⟩ : Str).bytes (bufferMem (bytes "text/html , */*")) =
      bytes "text/html " ++ 44 :: bytes " */*" := by decide +kernel
  rw [hbytes, List.splitOn_append_cons_self_of_not_mem (by decide), List.splitOn_eq_singleton (by decide)]
  exact ⟨fun _ => by decide, fun _ => by decide⟩

end SyServer
