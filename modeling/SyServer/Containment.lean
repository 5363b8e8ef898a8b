import Mathlib.Data.List.TakeWhile
import SyServer.Lib.RunningCount
import SyServer.ParseLine
import SyServer.Resource

/-! # Path containment

What the traversal check of the request line decides.  The path is cut at `/` into segments;
a segment is empty, `.`, `..` or a name.  The path stays inside the root when the running count
of names minus `..` is never negative (`segDepth`).

The automaton keeps two counters.  `nddots` counts `..`; `nentries` counts names while it is not
behind, but a name without a dot twice, because `case URI_S_ABS_PATH_ENTRY` runs on into
`case URI_S_EXTENSION`.  So the counters decide the running count of `segCounted`, and the
fallback `abs_path.len = 1` fires exactly when that one is negative somewhere.

* `parseUri_path`: what one byte does in a path state.
* `UriInv`, `UriRead`: the counters and slices inside and behind the path.
* `pathContained_iff`: the path opened stays inside the root exactly when the two counts agree
  on it, and its last segment is no name with a dot in front of a query. -/

namespace SyServer

open RunningCount Scan

/-! ### Segments -/

/-- The pieces between the slashes. -/
def segments (path : List UInt8) : List (List UInt8) := path.splitOn cSlash

/-- `+1` for a name, `-1` for `..`. -/
def segDepth (seg : List UInt8) : ℤ :=
  if seg = [] ∨ seg = bytes "." then 0 else if seg = bytes ".." then -1 else 1

/-- What the automaton counts: a name without a dot twice. -/
def segCounted (seg : List UInt8) : ℤ :=
  if seg = [] ∨ seg = bytes "." then 0
  else if seg = bytes ".." then -1
  else if cDot ∈ seg then 1 else 2

/-- A name with a dot in it. -/
def Extended (seg : List UInt8) : Prop := cDot ∈ seg ∧ seg ≠ bytes "." ∧ seg ≠ bytes ".."

instance (seg : List UInt8) : Decidable (Extended seg) := by unfold Extended; infer_instance

/-- The last segment is a name with a dot in it. -/
def EndsExtended (path : List UInt8) : Prop := ∃ seg ∈ (segments path).getLast?, Extended seg

instance (path : List UInt8) : Decidable (EndsExtended path) := by
  unfold EndsExtended; infer_instance

/-- The target of a request line: what stands between the spaces behind the method and the next
space. -/
def requestTarget (s : List UInt8) : List UInt8 :=
  ((s.dropWhile (· ≠ cSp)).dropWhile (· = cSp)).takeWhile (· ≠ cSp)

/-- The path part of a target. -/
def pathPart (t : List UInt8) : List UInt8 := t.takeWhile (· ≠ cQuestion)

/-! ### One byte in a path state -/

/-- The states inside a path. -/
def PState.inPath : PState → Bool
  | uriAbsPathSlash | uriAbsPathDot | uriAbsPathDdot | uriAbsPathEntry | uriExtension => true
  | _ => false

/-- The state behind a dot. -/
def PState.afterDot : PState → PState
  | uriAbsPathSlash => uriAbsPathDot
  | uriAbsPathDot => uriAbsPathDdot
  | _ => uriExtension

/-- The state behind another byte of a name. -/
def PState.afterName : PState → PState
  | uriAbsPathSlash => uriAbsPathEntry
  | uriAbsPathEntry => uriAbsPathEntry
  | _ => uriExtension

/-- `nentries` and `nddots` when the segment ends here. -/
def Uri.segmentCounts (u : Uri) : ℕ × ℕ :=
  match u.state with
  | .uriAbsPathDdot => (u.nentries, u.nddots + 1)
  | .uriAbsPathEntry => (u.countEntry.countEntry.nentries, u.nddots)
  | .uriExtension => (u.countEntry.nentries, u.nddots)
  | _ => (u.nentries, u.nddots)

@[simp] theorem Uri.countEntry_nddots (u : Uri) : u.countEntry.nddots = u.nddots := by
  unfold Uri.countEntry; split <;> rfl
@[simp] theorem Uri.countEntry_absPath (u : Uri) : u.countEntry.absPath = u.absPath := by
  unfold Uri.countEntry; split <;> rfl
@[simp] theorem Uri.countEntry_extension (u : Uri) : u.countEntry.extension = u.extension := by
  unfold Uri.countEntry; split <;> rfl
@[simp] theorem Uri.countEntry_state (u : Uri) : u.countEntry.state = u.state := by
  unfold Uri.countEntry; split <;> rfl

theorem Uri.countEntry_nentries (u : Uri) :
    u.countEntry.nentries = if u.nentries ≥ u.nddots then u.nentries + 1 else u.nentries := by
  unfold Uri.countEntry; split <;> rfl

/-- A name without a dot adds two. -/
theorem Uri.countEntry_twice (u : Uri) :
    u.countEntry.countEntry.nentries =
      if u.nentries ≥ u.nddots then u.nentries + 2 else u.nentries := by
  rw [Uri.countEntry_nentries, Uri.countEntry_nentries, Uri.countEntry_nddots]
  split_ifs <;> omega

theorem uriByte_eq (c : UInt8) :
    (uriByte c = .space → c = cSp) ∧ (uriByte c = .dot → c = cDot) ∧
      (uriByte c = .question → c = cQuestion) ∧ (uriByte c = .slash → c = cSlash) ∧
      (uriByte c = .allowed → c ≠ cSp ∧ c ≠ cDot ∧ c ≠ cQuestion ∧ c ≠ cSlash ∧
        allowedInAbsPath c = true) := by
  unfold uriByte
  refine ⟨?_, ?_, ?_, ?_, ?_⟩ <;> split_ifs <;> simp_all

/-- What an accepted byte does in a path state. -/
inductive PathStep (addr i : ℕ) (u : Uri) : UInt8 → Uri → Prop where
  | slash {u' : Uri} (hc : (u'.nentries, u'.nddots) = u.segmentCounts)
      (hp : u'.absPath = u.absPath) (hs : u'.state = .uriAbsPathSlash) : PathStep addr i u cSlash u'
  | space {u' : Uri} (hc : (u'.nentries, u'.nddots) = u.segmentCounts)
      (hp : u'.absPath = ⟨u.absPath.data, ptrDiff addr i u.absPath.data⟩) :
      PathStep addr i u cSp u'
  | question {u' : Uri} (hc : (u'.nentries, u'.nddots) = u.segmentCounts)
      (hp : u'.absPath = if u.state = .uriExtension then u.absPath
        else ⟨u.absPath.data, ptrDiff addr i u.absPath.data⟩)
      (hs : u'.state = .uriQuery) : PathStep addr i u cQuestion u'
  | dot {u' : Uri} (hc : (u'.nentries, u'.nddots) = (u.nentries, u.nddots))
      (hp : u'.absPath = u.absPath) (hs : u'.state = u.state.afterDot) : PathStep addr i u cDot u'
  | name {u' : Uri} {c : UInt8} (h0 : c ≠ 0) (hsp : c ≠ cSp) (hdot : c ≠ cDot) (hq : c ≠ cQuestion)
      (hsl : c ≠ cSlash) (hc : (u'.nentries, u'.nddots) = (u.nentries, u.nddots))
      (hp : u'.absPath = u.absPath) (hs : u'.state = u.state.afterName) : PathStep addr i u c u'

theorem PState.inPath_cases {s : PState} (h : s.inPath = true) :
    s = uriAbsPathSlash ∨ s = uriAbsPathDot ∨ s = uriAbsPathDdot ∨ s = uriAbsPathEntry ∨
      s = uriExtension := by
  cases s <;> simp_all [PState.inPath]

theorem parseUri_path {addr i : ℕ} {c : UInt8} {u u' : Uri} (hin : u.state.inPath = true)
    (h : parseUri addr i c u = .ok u') : PathStep addr i u c u' := by
  obtain ⟨hsp, hdot, hq, hsl, hname⟩ := uriByte_eq c
  have hcases := PState.inPath_cases hin
  cases hb : uriByte c with
  | other =>
      exfalso
      rcases hcases with hs | hs | hs | hs | hs <;>
        simp [parseUri, uriEntry, uriExtension, hs, hb] at h
  | space =>
      obtain rfl := hsp hb
      rcases hcases with hs | hs | hs | hs | hs <;>
        simp only [parseUri, uriEntry, uriExtension, hs, hb, Except.ok.injEq] at h <;> subst h <;>
        exact .space (by simp [Uri.segmentCounts, Uri.endPath, Uri.endExtension, Uri.countEntry_nentries, hs])
          (by simp [Uri.endPath, Uri.endExtension])
  | dot =>
      obtain rfl := hdot hb
      rcases hcases with hs | hs | hs | hs | hs <;>
        simp only [parseUri, uriEntry, uriExtension, hs, hb, Except.ok.injEq] at h <;> subst h <;>
        exact .dot rfl rfl (by simp [PState.afterDot, hs])
  | question =>
      obtain rfl := hq hb
      rcases hcases with hs | hs | hs | hs | hs <;>
        simp only [parseUri, uriEntry, uriExtension, hs, hb, Except.ok.injEq] at h <;> subst h <;>
        exact .question
          (by simp [Uri.segmentCounts, Uri.endPath, Uri.endExtension, Uri.countEntry_nentries, hs])
          (by simp [Uri.endPath, Uri.endExtension, hs]) rfl
  | slash =>
      obtain rfl := hsl hb
      rcases hcases with hs | hs | hs | hs | hs <;>
        simp only [parseUri, uriEntry, uriExtension, hs, hb, Except.ok.injEq] at h <;> subst h <;>
        exact .slash (by simp [Uri.segmentCounts, Uri.countEntry_nentries, hs]) (by simp) (by simp [hs])
  | allowed =>
      obtain ⟨h1, h2, h3, h4, ha⟩ := hname hb
      have h0 : c ≠ 0 := fun e => by rw [e] at ha; exact absurd ha (by decide)
      rcases hcases with hs | hs | hs | hs | hs <;>
        simp only [parseUri, uriEntry, uriExtension, hs, hb, Except.ok.injEq] at h <;> subst h <;>
        exact .name h0 h1 h2 h3 h4 rfl rfl (by simp [PState.afterName, hs])

/-! ### The counters along a path -/

/-- The bytes of the segment read so far, by state. -/
def SegState (cur : List UInt8) : PState → Prop
  | .uriAbsPathSlash => cur = []
  | .uriAbsPathDot => cur = bytes "."
  | .uriAbsPathDdot => cur = bytes ".."
  | .uriAbsPathEntry => cur ≠ [] ∧ cDot ∉ cur
  | .uriExtension => Extended cur
  | _ => False

theorem SegState.inPath {cur : List UInt8} {s : PState} (h : SegState cur s) :
    s.inPath = true := by
  cases s <;> first | rfl | exact h.elim

theorem SegState.extended_iff {cur : List UInt8} {s : PState} (h : SegState cur s) :
    Extended cur ↔ s = .uriExtension := by
  constructor
  · intro he
    cases s with
    | uriAbsPathSlash => rw [show cur = [] from h] at he; exact absurd he (by decide)
    | uriAbsPathDot => exact absurd h he.2.1
    | uriAbsPathDdot => exact absurd h he.2.2
    | uriAbsPathEntry => exact absurd he.1 h.2
    | uriExtension => rfl
    | _ => exact h.elim
  · rintro rfl
    exact h

theorem bytes_dot : bytes "." = [cDot] := by decide
theorem bytes_dot_dot : bytes ".." = [cDot, cDot] := by decide

theorem SegState.dot {cur : List UInt8} {s : PState} (h : SegState cur s) :
    SegState (cur ++ [cDot]) s.afterDot := by
  have hmem : ∀ l : List UInt8, cDot ∈ l ++ [cDot] := by simp
  cases s with
  | uriAbsPathSlash => rw [show cur = [] from h]; exact bytes_dot.symm
  | uriAbsPathDot => rw [show cur = _ from h]; exact (by decide : bytes "." ++ [cDot] = bytes "..")
  | uriAbsPathDdot => rw [show cur = _ from h]; exact (by decide : Extended (bytes ".." ++ [cDot]))
  | uriAbsPathEntry =>
      obtain ⟨hne, hnd⟩ := h
      refine ⟨hmem cur, fun e => hne ?_, fun e => hnd ?_⟩
      · rw [bytes_dot] at e
        simpa using e
      · rw [bytes_dot_dot, show ([cDot, cDot] : List UInt8) = [cDot] ++ [cDot] from rfl] at e
        rw [List.append_cancel_right e]
        simp
  | uriExtension =>
      obtain ⟨hd, h1, h2⟩ := h
      refine ⟨hmem cur, fun e => ?_, fun e => h1 ?_⟩
      · rw [bytes_dot] at e
        rw [show cur = [] by simpa using e] at hd
        simp at hd
      · rw [bytes_dot_dot, show ([cDot, cDot] : List UInt8) = [cDot] ++ [cDot] from rfl] at e
        exact List.append_cancel_right e
  | _ => exact h.elim

theorem SegState.name {cur : List UInt8} {s : PState} {c : UInt8} (h : SegState cur s)
    (hc : c ≠ cDot) : SegState (cur ++ [c]) s.afterName := by
  have hlast : ∀ l : List UInt8, cur ++ [c] ≠ l ++ [cDot] := fun l e => hc <| by
    have := congrArg List.getLast? e
    simpa using this
  have hext : cDot ∈ cur → Extended (cur ++ [c]) := fun hd =>
    ⟨by simp [hd], fun e => hlast [] (by rw [e]; decide), fun e => hlast [cDot] (by rw [e]; decide)⟩
  cases s with
  | uriAbsPathSlash =>
      rw [show cur = [] from h]
      exact ⟨by simp, by simpa using Ne.symm hc⟩
  | uriAbsPathDot => exact hext (by rw [show cur = _ from h]; decide)
  | uriAbsPathDdot => exact hext (by rw [show cur = _ from h]; decide)
  | uriAbsPathEntry => exact ⟨by simp, by simpa [h.2] using Ne.symm hc⟩
  | uriExtension => exact hext h.1
  | _ => exact h.elim

/-- The counters keep track when the current segment ends. -/
theorem tracks_segment {done : List (List UInt8)} {cur : List UInt8} {u : Uri}
    (ht : Tracks segCounted done u.nentries u.nddots) (hs : SegState cur u.state) :
    Tracks segCounted (done ++ [cur]) u.segmentCounts.1 u.segmentCounts.2 := by
  unfold Uri.segmentCounts
  cases hu : u.state <;> rw [hu] at hs <;> try exact hs.elim
  case uriAbsPathSlash => exact ht.neutral (by rw [show cur = [] from hs]; decide)
  case uriAbsPathDot => exact ht.neutral (by rw [show cur = _ from hs]; decide)
  case uriAbsPathDdot => exact ht.down (by rw [show cur = _ from hs]; decide)
  case uriAbsPathEntry =>
      obtain ⟨hne, hnd⟩ := hs
      dsimp only
      rw [Uri.countEntry_twice]
      refine ht.up (k := 2) ?_
      unfold segCounted
      rw [if_neg, if_neg, if_neg hnd]
      · rfl
      · rintro rfl
        exact hnd (by decide)
      · rintro (h | rfl)
        · exact hne h
        · exact hnd (by decide)
  case uriExtension =>
      obtain ⟨hd, h1, h2⟩ := hs
      dsimp only
      rw [Uri.countEntry_nentries]
      refine ht.up (k := 1) ?_
      unfold segCounted
      rw [if_neg, if_neg h2, if_pos hd]
      · rfl
      · rintro (rfl | h)
        · simp at hd
        · exact h1 h

/-! ### The target -/

theorem pathPart_of_not_mem {t : List UInt8} (h : cQuestion ∉ t) : pathPart t = t := by
  refine List.takeWhile_eq_self_iff.mpr fun c hc => ?_
  simpa using fun e : c = cQuestion => h (e ▸ hc)

theorem pathPart_question {t : List UInt8} (h : cQuestion ∉ t) :
    pathPart (t ++ [cQuestion]) = t := by
  unfold pathPart
  rw [List.takeWhile_append_of_pos (fun c hc => by
    simpa using fun e : c = cQuestion => h (e ▸ hc))]
  simp

theorem pathPart_append {t : List UInt8} (h : cQuestion ∈ t) (l : List UInt8) :
    pathPart (t ++ l) = pathPart t := by
  unfold pathPart
  rw [List.takeWhile_append, if_neg]
  intro e
  have e' : t.takeWhile (fun c => decide (c ≠ cQuestion)) = t :=
    (List.takeWhile_prefix _).eq_of_length e
  have := List.takeWhile_eq_self_iff.mp e' cQuestion h
  simp at this

theorem endsExtended_iff {path : List UInt8} {done : List (List UInt8)} {cur : List UInt8}
    (h : segments path = done ++ [cur]) : EndsExtended path ↔ Extended cur := by
  unfold EndsExtended
  rw [h]
  simp

/-- The slice and the counters when the path part of the target `t`, which starts at offset
`off`, has been read. -/
structure PathRead (off : ℕ) (t : List UInt8) (u : Uri) : Prop where
  slice : u.absPath =
    ⟨.rb off, if cQuestion ∈ t ∧ EndsExtended (pathPart t) then 0 else (pathPart t).length⟩
  noNul : 0 ∉ pathPart t
  counts : Tracks segCounted (segments (pathPart t)) u.nentries u.nddots

/-- The same in the middle of the path. -/
structure InPath (off : ℕ) (t : List UInt8) (u : Uri) : Prop where
  slice : u.absPath = ⟨.rb off, 0⟩
  noQuery : cQuestion ∉ t
  noNul : 0 ∉ t
  counts : ∃ done cur, segments t = done ++ [cur] ∧
    Tracks segCounted done u.nentries u.nddots ∧ SegState cur u.state

/-- The automaton behind the bytes `t` of a target that starts with `/` at offset `off`. -/
def UriInv (off : ℕ) (t : List UInt8) (u : Uri) : Prop :=
  InPath off t u ∨ u.state = .uriQuery ∧ cQuestion ∈ t ∧ PathRead off t u

theorem uriInv_slash {addr off : ℕ} {u : Uri}
    (h : parseUri addr off cSlash { Uri.init with state := .uriBegin } = .ok u) :
    UriInv off [cSlash] u := by
  cases h
  refine .inl ⟨rfl, by decide, by decide, [[]], [], by decide, ?_, rfl⟩
  exact tracks_nil.neutral (a := []) (by decide)

theorem ptrDiff_rb (addr off n : ℕ) : ptrDiff addr (off + n) (.rb off) = n := by
  simp [ptrDiff]

theorem InPath.step {addr off : ℕ} {t : List UInt8} {c : UInt8} {u u' : Uri}
    (h : InPath off t u) (hu : parseUri addr (off + t.length) c u = .ok u') :
    (c = cSp → PathRead off t u') ∧ (c ≠ cSp → UriInv off (t ++ [c]) u') := by
  obtain ⟨hslice, hq, h0, done, cur, hseg, ht, hs⟩ := h
  have hcount : ∀ {v : Uri}, (v.nentries, v.nddots) = u.segmentCounts →
      Tracks segCounted (segments t) v.nentries v.nddots := by
    intro v hv
    rw [hseg, show v.nentries = u.segmentCounts.1 by rw [← hv],
      show v.nddots = u.segmentCounts.2 by rw [← hv]]
    exact tracks_segment ht hs
  cases parseUri_path hs.inPath hu with
  | slash hc hp hst =>
      refine ⟨fun e => absurd e (by decide), fun _ => .inl ⟨by rw [hp, hslice], ?_, ?_, ?_⟩⟩
      · simpa using hq
      · simpa using h0
      · exact ⟨segments t, [], splitOn_concat_sep t cSlash, hcount hc, by rw [hst]; rfl⟩
  | space hc hp =>
      refine ⟨fun _ => ⟨?_, ?_, ?_⟩, fun e => absurd rfl e⟩
      · rw [if_neg fun h => hq h.1, hp, hslice, ptrDiff_rb, pathPart_of_not_mem hq]
      · rwa [pathPart_of_not_mem hq]
      · rw [pathPart_of_not_mem hq]
        exact hcount hc
  | question hc hp hst =>
      refine ⟨fun e => absurd e (by decide), fun _ => .inr ⟨hst, by simp, ?_, ?_, ?_⟩⟩
      · have hmem : cQuestion ∈ t ++ [cQuestion] := by simp
        have hext : EndsExtended t ↔ u.state = .uriExtension :=
          (endsExtended_iff hseg).trans hs.extended_iff
        rw [hp, pathPart_question hq]
        by_cases he : u.state = .uriExtension
        · rw [if_pos he, if_pos ⟨hmem, hext.mpr he⟩, hslice]
        · rw [if_neg he, if_neg fun h => he (hext.mp h.2), hslice, ptrDiff_rb]
      · rwa [pathPart_question hq]
      · rw [pathPart_question hq]
        exact hcount hc
  | dot hc hp hst =>
      rw [Prod.mk.injEq] at hc
      refine ⟨fun e => absurd e (by decide), fun _ => .inl ⟨by rw [hp, hslice], ?_, ?_, ?_⟩⟩
      · simpa using hq
      · simpa using h0
      · refine ⟨done, cur ++ [cDot], splitOn_concat_ne (by decide) hseg, ?_, ?_⟩
        · rw [hc.1, hc.2]
          exact ht
        · rw [hst]
          exact hs.dot
  | name hnul hsp hdot hqu hsl hc hp hst =>
      rw [Prod.mk.injEq] at hc
      refine ⟨fun e => absurd e hsp, fun _ => .inl ⟨by rw [hp, hslice], ?_, ?_, ?_⟩⟩
      · simpa [hq] using Ne.symm hqu
      · simpa [h0] using Ne.symm hnul
      · refine ⟨done, cur ++ [c], splitOn_concat_ne hsl hseg, ?_, ?_⟩
        · rw [hc.1, hc.2]
          exact ht
        · rw [hst]
          exact hs.name hdot

/-- One byte of a target. -/
theorem UriInv.step {addr off : ℕ} {t : List UInt8} {c : UInt8} {u u' : Uri}
    (h : UriInv off t u) (hu : parseUri addr (off + t.length) c u = .ok u') :
    (c = cSp → PathRead off t u') ∧ (c ≠ cSp → UriInv off (t ++ [c]) u') := by
  rcases h with h | ⟨hst, hq, hr⟩
  · exact h.step hu
  · simp only [parseUri, hst] at hu
    by_cases hc : c = cSp
    · rw [if_pos hc] at hu
      cases hu
      exact ⟨fun _ => ⟨hr.slice, hr.noNul, hr.counts⟩, fun e => absurd hc e⟩
    · rw [if_neg hc] at hu
      split_ifs at hu
      cases hu
      refine ⟨fun e => absurd e hc, fun _ => .inr ⟨hst, by simp [hq], ?_, ?_, ?_⟩⟩
      · rw [pathPart_append hq, hr.slice]
        simp [hq]
      · rw [pathPart_append hq]
        exact hr.noNul
      · rw [pathPart_append hq]
        exact hr.counts

/-! ### The request line around it -/

/-- A fresh request whose read buffer holds `s`. -/
def freshRequest (r₀ : Request) (c : ConnAddr) (s : List UInt8) : Request :=
  let r := requestInit r₀ c
  { r with rb := r.rb.put s }

/-- The first bytes of a request line: method, spaces, target, rest. -/
structure Cut (s : List UInt8) (i : ℕ) (m : List UInt8) (n : ℕ) (t rest : List UInt8) : Prop where
  eq : s.take i = m ++ (List.replicate (n + 1) cSp ++ (t ++ rest))
  method : cSp ∉ m
  target : cSp ∉ t
  nonempty : t ≠ []

/-- The slices and counters behind the target, the fallback included. -/
def UriRead (off : ℕ) (t : List UInt8) (u : Uri) : Prop :=
  ∃ v, PathRead off t v ∧ u.absPath =
    { v.absPath with len := if v.nentries < v.nddots then 1 else v.absPath.len }

/-- `sy_parse_request_line` behind the first `i` bytes of `s`. -/
def LineInv (s : List UInt8) (b : Buffer) (i : ℕ) (r : Request) : Prop :=
  r.rb = b ∧ match r.state with
    | .rlBegin => i = 0 ∧ r.uri = Uri.init
    | .rlMethod => r.uri = Uri.init ∧ cSp ∉ s.take i
    | .rlSpBeforeUri => r.uri = Uri.init ∧ ∃ m n, cSp ∉ m ∧
        s.take i = m ++ List.replicate (n + 1) cSp
    | .rlUri => ∃ m n t, Cut s i m n t [] ∧
        (t.head? = some cSlash → UriInv (m.length + (n + 1)) t r.uri)
    | _ => ∃ m n t rest, Cut s i m n t (cSp :: rest) ∧
        (t.head? = some cSlash → UriRead (m.length + (n + 1)) t r.uri)

/-- The states behind the target. -/
def PState.afterUri : PState → Bool
  | rlBegin | rlMethod | rlSpBeforeUri | rlUri => false
  | _ => true

theorem lineInv_afterUri {s : List UInt8} {b : Buffer} {i : ℕ} {r : Request}
    (h : r.state.afterUri = true) :
    LineInv s b i r ↔ r.rb = b ∧ ∃ m n t rest, Cut s i m n t (cSp :: rest) ∧
      (t.head? = some cSlash → UriRead (m.length + (n + 1)) t r.uri) := by
  unfold LineInv
  cases hs : r.state <;> rw [hs] at h
  case rlBegin | rlMethod | rlSpBeforeUri | rlUri => cases h

/-- Behind the target the loop leaves the URI alone. -/
theorem requestLineByte_afterUri {i : ℕ} {r r' : Request} (hr : r.state.afterUri = true)
    (h : requestLineByte i r = .more r') :
    r'.uri = r.uri ∧ r'.rb = r.rb ∧ r'.state.afterUri = true := by
  unfold requestLineByte at h
  cases hs : r.state <;> rw [hs] at h hr <;> simp only [PState.afterUri, Bool.false_eq_true] at hr <;>
    dsimp only at h <;> (try split_ifs at h) <;> cases h <;>
    exact ⟨rfl, rfl, by simp [PState.afterUri, hs]⟩

theorem Cut.length {s : List UInt8} {i : ℕ} {m : List UInt8} {n : ℕ} {t : List UInt8}
    (h : Cut s i m n t []) (hi : i ≤ s.length) : i = m.length + (n + 1) + t.length := by
  have := congrArg List.length h.eq
  simp only [List.length_take, List.length_append, List.length_replicate, List.length_nil] at this
  omega

/-- What is left of the line when the method and the spaces are dropped. -/
theorem Cut.dropped {s : List UInt8} {i : ℕ} {m : List UInt8} {n : ℕ} {t rest : List UInt8}
    (h : Cut s i m n t (cSp :: rest)) :
    (s.dropWhile (· ≠ cSp)).dropWhile (· = cSp) = t ++ cSp :: (rest ++ s.drop i) := by
  obtain ⟨c, t', rfl⟩ := List.exists_cons_of_ne_nil h.nonempty
  have hc : c ≠ cSp := fun e => h.target (by simp [e])
  have hm : ∀ x ∈ m, decide (x ≠ cSp) = true := fun x hx => by
    simpa using fun e : x = cSp => h.method (e ▸ hx)
  have hsp : ∀ x ∈ List.replicate (n + 1) cSp, decide (x = cSp) = true := fun x hx => by
    simpa using List.eq_of_mem_replicate hx
  have e1 : s.dropWhile (fun x => decide (x ≠ cSp)) =
      List.replicate (n + 1) cSp ++ (c :: t' ++ cSp :: (rest ++ s.drop i)) := by
    conv_lhs => rw [← List.take_append_drop i s, h.eq]
    rw [List.append_assoc, List.dropWhile_append_of_pos hm, List.replicate_succ]
    simp
  rw [e1, List.dropWhile_append_of_pos hsp]
  simp [hc]

/-- The target between the cuts is the target of the line. -/
theorem Cut.requestTarget {s : List UInt8} {i : ℕ} {m : List UInt8} {n : ℕ} {t rest : List UInt8}
    (h : Cut s i m n t (cSp :: rest)) : requestTarget s = t := by
  have ht : ∀ x ∈ t, decide (x ≠ cSp) = true := fun x hx => by
    simpa using fun e : x = cSp => h.target (e ▸ hx)
  unfold SyServer.requestTarget
  rw [h.dropped, List.takeWhile_append_of_pos ht]
  simp

/-- One more byte behind the target. -/
theorem Cut.snoc {s : List UInt8} {i : ℕ} {m : List UInt8} {n : ℕ} {t rest : List UInt8} {ch : UInt8}
    (h : Cut s i m n t rest) (hs : s.take (i + 1) = s.take i ++ [ch]) :
    Cut s (i + 1) m n t (rest ++ [ch]) where
  eq := by rw [hs, h.eq]; simp only [List.append_assoc]
  method := h.method
  target := h.target
  nonempty := h.nonempty

/-- One more byte of the target. -/
theorem Cut.grow {s : List UInt8} {i : ℕ} {m : List UInt8} {n : ℕ} {t : List UInt8} {ch : UInt8}
    (h : Cut s i m n t []) (hs : s.take (i + 1) = s.take i ++ [ch]) (hsp : ch ≠ cSp) :
    Cut s (i + 1) m n (t ++ [ch]) [] where
  eq := by rw [hs, h.eq]; simp only [List.append_assoc, List.append_nil]
  method := h.method
  target := by simpa [h.target] using Ne.symm hsp
  nonempty := by simp

theorem requestLineUri_more {i : ℕ} {ch : UInt8} {r r' : Request} {k : Request → Request}
    (h : requestLineUri i ch r k = .more r') :
    ∃ uri, parseUri r.rb.addr i ch r.uri = .ok uri ∧ r' = k { r with uri := uri } := by
  unfold requestLineUri at h
  cases hu : parseUri r.rb.addr i ch r.uri with
  | ok uri => rw [hu] at h; cases h; exact ⟨uri, rfl, rfl⟩
  | error e => rw [hu] at h; cases e <;> cases h

@[simp] theorem traversalFallback_rb (r : Request) : (traversalFallback r).rb = r.rb := by
  unfold traversalFallback; split <;> rfl
@[simp] theorem traversalFallback_state (r : Request) :
    (traversalFallback r).state = r.state := by
  unfold traversalFallback; split <;> rfl

/-- The first byte of the target. -/
theorem uriInv_first (addr : ℕ) {off : ℕ} {c : UInt8} {u : Uri}
    (h : parseUri addr off c { Uri.init with state := .uriBegin } = .ok u)
    (hc : ([c] : List UInt8).head? = some cSlash) : UriInv off [c] u := by
  cases hc
  exact uriInv_slash h

/-- The space behind the target. -/
theorem uriRead_fallback {addr off : ℕ} {t : List UInt8} {r : Request} {u : Uri}
    (h : UriInv off t r.uri) (hp : parseUri addr (off + t.length) cSp r.uri = .ok u) :
    UriRead off t (traversalFallback { r with uri := u }).uri := by
  refine ⟨u, (h.step hp).1 rfl, ?_⟩
  unfold traversalFallback
  dsimp only
  split_ifs <;> rfl

theorem LineInv.step {s : List UInt8} {b : Buffer} (hb : ∀ j (h : j < s.length), b.mem j = s[j])
    {i : ℕ} {r r' : Request} (hi : i < s.length) (hr : LineInv s b i r)
    (h : requestLineByte i r = .more r') : LineInv s b (i + 1) r' := by
  obtain ⟨ch, hch⟩ : ∃ ch, ch = s[i] := ⟨_, rfl⟩
  have htake : s.take (i + 1) = s.take i ++ [ch] := by
    rw [hch, List.take_succ_eq_append_getElem hi]
  have hmem : r.rb.mem i = ch := by rw [hr.1, hch]; exact hb i hi
  by_cases ha : r.state.afterUri = true
  · obtain ⟨hrb, m, n, t, rest, hcut, hread⟩ := (lineInv_afterUri ha).mp hr
    obtain ⟨hu, hb', ha'⟩ := requestLineByte_afterUri ha h
    refine (lineInv_afterUri ha').mpr ⟨hb'.trans hrb, m, n, t, rest ++ [ch], hcut.snoc htake, ?_⟩
    rwa [hu]
  obtain ⟨hrb, hinv⟩ := hr
  unfold requestLineByte at h
  rw [hmem] at h
  cases hs : r.state <;> rw [hs] at h hinv ha <;> simp only [PState.afterUri, not_true] at ha <;>
    dsimp only at h hinv
  case rlBegin =>
      obtain ⟨rfl, hu⟩ := hinv
      split_ifs at h with hup
      cases h
      refine ⟨hrb, hu, ?_⟩
      have hne : ch ≠ cSp := fun e => by rw [e] at hup; exact absurd hup (by decide)
      rw [htake]
      simpa using Ne.symm hne
  case rlMethod =>
      obtain ⟨hu, hm⟩ := hinv
      by_cases hc : ch = cSp
      · rw [if_pos hc] at h
        cases hd : r.requestLine.data <;> rw [hd] at h <;> dsimp only at h <;> try cases h
        split_ifs at h
        cases h
        exact ⟨hrb, hu, s.take i, 0, hm, by rw [htake, hc]; rfl⟩
      · rw [if_neg hc] at h
        cases h
        refine ⟨hrb, ?_⟩
        rw [hs]
        have : cSp ∉ s.take i ++ [ch] := by
          rw [List.mem_append, List.mem_singleton]
          exact fun e => e.elim hm fun e => hc e.symm
        exact ⟨hu, by rwa [htake]⟩
  case rlSpBeforeUri =>
      obtain ⟨hu, m, n, hm, hcut⟩ := hinv
      split_ifs at h with hbad hc
      · cases h
        refine ⟨hrb, ?_⟩
        rw [hs]
        refine ⟨hu, m, n + 1, hm, ?_⟩
        rw [htake, hcut, hc, List.append_assoc, ← List.replicate_succ']
      · obtain ⟨uri, hp, rfl⟩ := requestLineUri_more h
        have hcut' : Cut s (i + 1) m n [ch] [] :=
          ⟨by rw [htake, hcut]; simp, hm, by simpa using Ne.symm hc, by simp⟩
        have hlen := hcut'.length hi
        rw [List.length_singleton] at hlen
        refine ⟨hrb, m, n, [ch], hcut', uriInv_first r.rb.addr ?_⟩
        rw [show m.length + (n + 1) = i by omega, ← hu]
        exact hp
  case rlUri =>
      obtain ⟨m, n, t, hcut, huri⟩ := hinv
      have hlen := hcut.length hi.le
      split_ifs at h with hbad hc
      · obtain ⟨uri, hp, rfl⟩ := requestLineUri_more h
        rw [hc, hlen] at hp
        rw [hc] at htake
        exact (lineInv_afterUri (by simp [PState.afterUri])).mpr
          ⟨by simpa using hrb, m, n, t, [], hcut.snoc htake, fun ht => uriRead_fallback (huri ht) hp⟩
      · obtain ⟨uri, hp, rfl⟩ := requestLineUri_more h
        rw [hlen] at hp
        refine ⟨hrb, ?_⟩
        rw [id, hs]
        refine ⟨m, n, t ++ [ch], hcut.grow htake hc, fun ht => ?_⟩
        rw [List.head?_append_of_ne_nil _ hcut.nonempty] at ht
        exact ((huri ht).step hp).2 hc

/-! ### The path that is opened -/

/-- The offset of the target in a request line. -/
def targetStart (s : List UInt8) : ℕ :=
  s.length - ((s.dropWhile (· ≠ cSp)).dropWhile (· = cSp)).length

/-- Where the target of an accepted request line stands. -/
structure TargetAt (s : List UInt8) (off : ℕ) (t : List UInt8) : Prop where
  target : requestTarget s = t
  start : targetStart s = off
  bytes : ∀ i (h : i < t.length), s[off + i]? = some t[i]
  bound : off + t.length < s.length

theorem Cut.targetAt {s : List UInt8} {i : ℕ} {m : List UInt8} {n : ℕ} {t rest : List UInt8}
    (h : Cut s i m n t (cSp :: rest)) : TargetAt s (m.length + (n + 1)) t := by
  have hs : s = m ++ (List.replicate (n + 1) cSp ++ (t ++ (cSp :: (rest ++ s.drop i)))) := by
    conv_lhs => rw [← List.take_append_drop i s, h.eq]
    simp only [List.append_assoc, List.cons_append]
  have hlen := congrArg List.length hs
  simp only [List.length_append, List.length_replicate, List.length_cons] at hlen
  refine ⟨h.requestTarget, ?_, fun k hk => ?_, by omega⟩
  · unfold targetStart
    rw [h.dropped, hlen]
    simp only [List.length_append, List.length_cons]
    omega
  · rw [hs, List.getElem?_append_right (by omega), List.getElem?_append_right (by simp; omega),
      List.getElem?_append_left (by simp; omega)]
    simp only [List.length_replicate]
    rw [show m.length + (n + 1) + k - m.length - (n + 1) = k by omega, List.getElem?_eq_getElem hk]

theorem freshRequest_mem (r₀ : Request) (c : ConnAddr) (s : List UInt8) (j : ℕ)
    (h : j < s.length) : (freshRequest r₀ c s).rb.mem j = s[j] := by
  have := Buffer.put_mem_ge (requestInit r₀ c).rb s j h
  simpa [freshRequest, requestInit] using this

/-- What `sy_parse_request_line` has done when it accepts: the slices and counters of the
target, and an untouched buffer. -/
theorem parseRequestLine_accepts {r₀ : Request} {c : ConnAddr} {s : List UInt8} {r : Request}
    (h : parseRequestLine (freshRequest r₀ c s) = .ok (.ok, r)) :
    ∃ off t, TargetAt s off t ∧ r.rb.mem = (freshRequest r₀ c s).rb.mem ∧
      (t.head? = some cSlash → UriRead off t r.uri) := by
  unfold parseRequestLine at h
  have hsize : (freshRequest r₀ c s).rb.size = s.length := by
    simp [freshRequest, requestInit, Buffer.size]
  cases hscan : scan requestLineByte (freshRequest r₀ c s).rb.size
      (freshRequest r₀ c s).rb.begin (freshRequest r₀ c s) with
  | more t => rw [hscan] at h; cases h
  | stop e =>
      rw [hscan] at h
      have hinit : LineInv s (freshRequest r₀ c s).rb (freshRequest r₀ c s).rb.begin
          (freshRequest r₀ c s) := ⟨rfl, rfl, rfl⟩
      obtain ⟨k, -, q, -, hinv, hstop⟩ := scan_stop_inv _ s.length
        (fun i x y hi hx hxy => hx.step (freshRequest_mem r₀ c s) hi hxy)
        (by rw [hsize]; exact (Nat.zero_add _).le) hinit hscan
      cases e with
      | abort f => cases h
      | ret rc r' => cases h; exact absurd rfl (requestLineByte_ret hstop).1
      | done p r' =>
          cases h
          obtain ⟨rfl, rfl, hst⟩ := requestLineByte_done hstop
          have ha : r'.state.afterUri = true := by rcases hst with hst | hst <;> rw [hst] <;> rfl
          obtain ⟨hrb, m, n, t, rest, hcut, hread⟩ := (lineInv_afterUri ha).mp hinv
          refine ⟨_, t, hcut.targetAt, ?_, hread⟩
          rw [← hrb]
          rfl

/-- The path stays inside the root, and so does the one given to `openat`. -/
def PathContained (s : List UInt8) (r : Request) : Prop :=
  (r.uri.absPath.len = 1 ∨ NeverNegative segDepth (segments (pathPart (requestTarget s)))) ∧
    ∃ r' path, relPath r = .ok (r', path) ∧ NeverNegative segDepth (segments path)

/-- Unless the doubled count climbs above the root, the count does not, and a path whose last
segment is a name with a dot in front of a query is harmless up to the first NUL of the read
buffer `b`. -/
def CountsSuffice (b : Buffer) (s : List UInt8) : Prop :=
  let path := pathPart (requestTarget s)
  NeverNegative segCounted (segments path) →
    NeverNegative segDepth (segments path) ∧
      (cQuestion ∈ requestTarget s ∧ EndsExtended path →
        NeverNegative segDepth (segments (b.cString (targetStart s + 1))))

theorem segments_slash (path : List UInt8) : segments (cSlash :: path) = [] :: segments path := by
  unfold segments
  rw [List.splitOn_cons_eq_if_modifyHead]
  rfl

theorem neverNegative_slash {path : List UInt8} :
    NeverNegative segDepth (segments (cSlash :: path)) ↔
      NeverNegative segDepth (segments path) := by
  rw [segments_slash, neverNegative_cons_zero (by decide)]

/-- The path opened when `abs_path` spans the path part. -/
theorem relPath_path {r : Request} {off : ℕ} {path : List UInt8}
    (hd : r.uri.absPath = ⟨.rb off, ((cSlash :: path).length : ℕ)⟩) (hne : path ≠ [])
    (hb : off + (path.length + 1) ≤ BUF_SIZE) (h0 : 0 ∉ path)
    (hmem : ∀ i (h : i < path.length), r.rb.mem (off + 1 + i) = path[i]) :
    ∃ r', relPath r = .ok (r', path) := by
  have hlen := List.length_pos_of_ne_nil hne
  unfold relPath
  rw [hd]
  dsimp only
  rw [if_neg (by simp only [List.length_cons]; push_cast; omega)]
  refine ⟨_, congrArg _ (Prod.ext rfl ?_)⟩
  dsimp only
  simp only [List.length_cons, Int.toNat_natCast]
  set b := r.rb.write (off + (path.length + 1)) 0
  have hslice : b.slice (off + 1) (off + 1 + path.length) = path := by
    apply List.ext_getElem
    · simp
    · intro i h1 h2
      rw [Buffer.getElem_slice, r.rb.write_mem_ne 0 (by omega)]
      exact hmem i h2
  rw [Buffer.cString_eq (n := path.length) (by omega) ?_ ?_, hslice]
  · rw [show off + 1 + path.length = off + (path.length + 1) by omega]
    exact Buffer.write_mem_same _ _ _
  · rw [hslice]
    exact fun c hc e => h0 (e ▸ hc)

/-- The path opened by the fallback, and for the root itself. -/
theorem relPath_one {r : Request} {off : ℕ} (hd : r.uri.absPath = ⟨.rb off, 1⟩) :
    ∃ r' path, relPath r = .ok (r', path) ∧ NeverNegative segDepth (segments path) := by
  unfold relPath
  rw [hd]
  exact ⟨_, _, rfl, by rw [if_pos rfl]; decide⟩

/-- The path opened when the length was never set. -/
theorem relPath_zero {r : Request} {off : ℕ} (hd : r.uri.absPath = ⟨.rb off, 0⟩) :
    ∃ r', relPath r = .ok (r', r.rb.cString (off + 1)) := by
  unfold relPath
  rw [hd]
  refine ⟨_, congrArg Except.ok (Prod.ext rfl ?_)⟩
  dsimp only
  rw [if_neg (by decide)]
  unfold Buffer.cString
  congr 1
  exact Buffer.slice_congr fun k hk _ => Buffer.write_mem_ne _ _ (by simp; omega)

/-- **The traversal check**: an accepted request whose target starts with `/` stays inside the
root exactly when the doubled count suffices. -/
theorem pathContained_iff {r₀ : Request} {c : ConnAddr} {s : List UInt8} {r : Request}
    (hs : s.length ≤ BUF_SIZE) (h : parseRequestLine (freshRequest r₀ c s) = .ok (.ok, r))
    (ht : (requestTarget s).head? = some cSlash) :
    PathContained s r ↔ CountsSuffice (freshRequest r₀ c s).rb s := by
  obtain ⟨off, t, hat, hmem, hread⟩ := parseRequestLine_accepts h
  have htarget := hat.target
  rw [htarget] at ht
  obtain ⟨v, ⟨hslice, h0, hcounts⟩, habs⟩ := hread ht
  -- the path part, without its leading slash
  obtain ⟨p, hp⟩ : ∃ p, pathPart t = cSlash :: p := by
    obtain ⟨t', rfl⟩ : ∃ t', t = cSlash :: t' := by
      cases t with
      | nil => cases ht
      | cons x t' => cases ht; exact ⟨t', rfl⟩
    exact ⟨_, List.takeWhile_cons_of_pos (by decide)⟩
  have hpre : cSlash :: p <+: t := hp ▸ List.takeWhile_prefix _
  have hlen := hpre.length_le
  rw [List.length_cons] at hlen
  have hbound := hat.bound
  have hbytes : ∀ i (hi : i < p.length), r.rb.mem (off + 1 + i) = p[i] := by
    intro i hi
    have hlt : i + 1 < t.length := by omega
    have e : t[i + 1] = p[i] := by
      have := hpre.getElem (i := i + 1) (by simp; omega)
      simpa using this.symm
    have hget := hat.bytes (i + 1) (by omega)
    rw [List.getElem?_eq_some_iff] at hget
    obtain ⟨hi', hget⟩ := hget
    rw [hmem, show off + 1 + i = off + (i + 1) by omega, freshRequest_mem r₀ c s _ hi', hget, e]
  unfold PathContained CountsSuffice
  rw [htarget, hat.start]
  rw [hp] at hslice h0 hcounts ⊢
  dsimp only
  rw [neverNegative_slash]
  have hlt := hcounts.lt_iff
  by_cases hn : NeverNegative segCounted (segments (cSlash :: p))
  · rw [if_neg fun hlt' => hlt.mp hlt' hn, hslice] at habs
    by_cases hx : cQuestion ∈ t ∧ EndsExtended (cSlash :: p)
    · -- `abs_path.len` was left at zero
      rw [if_pos hx] at habs
      obtain ⟨r', hopen⟩ := relPath_zero habs
      rw [show r.rb.cString (off + 1) = (freshRequest r₀ c s).rb.cString (off + 1) by
        unfold Buffer.cString Buffer.slice; rw [hmem]] at hopen
      have hzero : r.uri.absPath.len ≠ 1 := by rw [habs]; exact zero_ne_one
      constructor
      · rintro ⟨h1, q, path, hq, h2⟩ _
        rw [hopen] at hq
        cases hq
        exact ⟨h1.resolve_left hzero, fun _ => h2⟩
      · intro h
        exact ⟨.inr (h hn).1, r', _, hopen, (h hn).2 hx⟩
    · rw [if_neg hx] at habs
      by_cases hnil : p = []
      · subst hnil
        refine ⟨fun _ _ => ⟨by decide, fun h => absurd h hx⟩, fun _ => ⟨.inr (by decide), ?_⟩⟩
        exact relPath_one habs
      · obtain ⟨r', hopen⟩ := relPath_path habs hnil (by omega)
          (fun h => h0 (List.mem_cons_of_mem _ h)) hbytes
        have hone : r.uri.absPath.len ≠ 1 := by
          have := List.length_pos_of_ne_nil hnil
          rw [habs, List.length_cons]
          push_cast
          omega
        refine ⟨fun ⟨h1, _⟩ _ => ⟨h1.resolve_left hone, fun h => absurd h hx⟩, fun h => ?_⟩
        have hd := (h hn).1
        exact ⟨.inr hd, r', p, hopen, hd⟩
  · -- the fallback
    rw [if_pos (hlt.mpr hn), hslice] at habs
    exact ⟨fun _ h => absurd h hn, fun _ => ⟨.inl (by rw [habs]), relPath_one habs⟩⟩

/-- A request line whose path climbs above the root. -/
def escapingLine : List UInt8 := bytes "GET /a/../../etc/passwd HTTP/1.1\r\n"

/-- The path length of an accepted request line. -/
def acceptedPathLen (s : List UInt8) : Option ℤ :=
  match parseRequestLine (freshRequest .zeroed 0 s) with
  | .ok (.ok, r) => some r.uri.absPath.len
  | _ => none

theorem accepted_of_pathLen {s : List UInt8} {n : ℤ} (h : acceptedPathLen s = some n) :
    ∃ r, parseRequestLine (freshRequest .zeroed 0 s) = .ok (.ok, r) ∧ r.uri.absPath.len = n := by
  unfold acceptedPathLen at h
  split at h
  · next r hr => cases h; exact ⟨r, hr, rfl⟩
  · cases h

/-- `/a/../../etc/passwd` is accepted as it stands: the name `a` counts twice. -/
theorem escapingLine_accepted :
    ∃ r, parseRequestLine (freshRequest .zeroed 0 escapingLine) = .ok (.ok, r) ∧
      (requestTarget escapingLine).head? = some cSlash ∧ ¬ PathContained escapingLine r := by
  obtain ⟨r, hr, hlen⟩ := accepted_of_pathLen (s := escapingLine) (n := 19) (by decide +kernel)
  refine ⟨r, hr, by decide +kernel, fun h => ?_⟩
  rcases h.1 with h1 | h1
  · rw [hlen] at h1
    exact absurd h1 (by decide)
  · exact absurd h1 (by decide +kernel)

/-- A line that meets the condition. -/
theorem pathContained_iff_inside :
    ∃ r, parseRequestLine (freshRequest .zeroed 0 (bytes "GET /a/../b HTTP/1.1\r\n")) = .ok (.ok, r) ∧
      PathContained (bytes "GET /a/../b HTTP/1.1\r\n") r := by
  obtain ⟨r, hr, -⟩ :=
    accepted_of_pathLen (s := bytes "GET /a/../b HTTP/1.1\r\n") (n := 7) (by decide +kernel)
  refine ⟨r, hr, (pathContained_iff (by decide +kernel) hr (by decide +kernel)).mpr fun _ => ?_⟩
  exact ⟨by decide +kernel, fun h => absurd h.2 (by decide +kernel)⟩

end SyServer
