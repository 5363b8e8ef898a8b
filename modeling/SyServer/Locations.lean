import SyServer.AbsoluteForm
import SyServer.Moves

/-! # The choice of a location

`sy_match_location` compares with the location's own length and never asks for `abs_path.len`, where
the parser has put its decisions: the fallback to `/`, and the end in front of the query.  So a
location longer than the path is compared with the bytes behind it.

* `uriByte_located`, `readUri_located`: whatever the form of the target, `abs_path` is a slice of its
  bytes, none of which is NUL.
* `strncaseEq_short`: within the slice the comparison is that of a prefix.
* `location_iff`: the location chosen is the first that is a prefix of the path exactly when the
  target has no port and none of the longer locations in front of it goes on into those bytes. -/

namespace SyServer

/-! ### Where the path stands -/

/-- A slice of the bytes `off .. i` with a first byte in them. -/
def PathWithin (off i : ℕ) (s : Str) : Prop :=
  ∃ p n : ℕ, s = ⟨.rb p, n⟩ ∧ off ≤ p ∧ p < i ∧ p + n ≤ i

/-- There is no port, or it was counted up from `NULL` behind a host. -/
def PortCounted (u : Uri) : Prop :=
  u.port.data = .NULL ∨ u.host.data ≠ .NULL ∧ u.port.data = .null 1

/-- The bytes that have been read at least, in a state in front of the host. -/
def PState.beforeHost : PState → Option ℕ
  | uriBegin => some 0
  | uriScheme => some 1
  | uriSchemeColon => some 2
  | uriSchemeSlash => some 3
  | uriSchemeSlashSlash => some 4
  | _ => none

/-- The automaton behind the bytes `off .. i` of a target. -/
inductive Located (off i : ℕ) (u : Uri) : Prop where
  | early (k : ℕ) (hs : u.state.beforeHost = some k) (hi : off + k ≤ i)
      (hport : u.port.data = .NULL) (hlen : u.absPath.len = 0)
  | host (h : ℕ) (hs : u.state = .uriHost ∨ u.state = .uriPort) (hh : u.host.data = .rb h)
      (hoff : off + 2 ≤ h) (hi : h < i) (hport : u.port.data = .NULL) (hlen : u.absPath.len = 0)
  | path (hs : u.state.inPath = true ∨ u.state = .uriQuery) (hport : PortCounted u)
      (hp : PathWithin off i u.absPath)

section automaton

variable {addr off i : ℕ} {c : UInt8} {u u' v : Uri} {t : List UInt8}

theorem PathWithin.start (hi : off ≤ i) : PathWithin off (i + 1) ⟨.rb i, 0⟩ :=
  ⟨i, 0, rfl, hi, by omega, by omega⟩

theorem PathWithin.mono {s : Str} (h : PathWithin off i s) : PathWithin off (i + 1) s := by
  obtain ⟨p, n, hs, h1, h2, h3⟩ := h
  exact ⟨p, n, hs, h1, by omega, by omega⟩

/-- The path ends here. -/
theorem PathWithin.end_ {s : Str} (h : PathWithin off i s) :
    PathWithin off i ⟨s.data, ptrDiff addr i s.data⟩ := by
  obtain ⟨p, n, rfl, h1, h2, -⟩ := h
  refine ⟨p, i - p, ?_, h1, h2, by omega⟩
  dsimp only [ptrDiff]
  rw [Nat.cast_sub h2.le]

/-- The fallback leaves the first byte. -/
theorem PathWithin.fallback (h : PathWithin off i u.absPath) : PathWithin off i u.fallback.absPath := by
  obtain ⟨p, n, hs, h1, h2, h3⟩ := h
  unfold Uri.fallback
  split_ifs
  · exact ⟨p, 1, by rw [hs]; rfl, h1, h2, h2⟩
  · exact ⟨p, n, hs, h1, h2, h3⟩

/-- No state accepts a NUL. -/
theorem parseUri_nul : parseUri addr i 0 u ≠ .ok v := by
  have hb : uriByte 0 = .other := by decide
  intro h
  unfold parseUri uriEntry uriExtension at h
  rw [hb] at h
  cases hs : u.state <;> rw [hs] at h <;> cases h

/-- One byte in front of the host. -/
theorem Located.early_step {k : ℕ} (hs : u.state.beforeHost = some k) (hi : off + k ≤ i)
    (hport : u.port.data = .NULL) (hlen : u.absPath.len = 0)
    (h : parseUri addr i c u = .ok u') : c ≠ cSp ∧ Located off (i + 1) u' := by
  unfold parseUri at h
  cases hst : u.state <;> rw [hst] at h hs <;> cases hs <;> dsimp only at h
  case uriBegin.refl =>
      split_ifs at h with h1 h2 <;> cases h
      · refine ⟨by rw [h1]; decide, .path (.inl rfl) (.inl hport) ?_⟩
        rw [hlen]
        exact .start hi
      · refine ⟨?_, .early 1 rfl (by omega) hport hlen⟩
        rintro rfl
        exact absurd h2 (by decide)
  case uriScheme.refl =>
      split_ifs at h with h1 h2 <;> cases h
      · refine ⟨?_, .early 1 (by rw [hst]; rfl) (by omega) hport hlen⟩
        rintro rfl
        exact absurd h1 (by decide)
      · exact ⟨by rw [h2]; decide, .early 2 rfl (by omega) hport hlen⟩
  case uriSchemeColon.refl =>
      split_ifs at h with h1
      cases h
      exact ⟨by rw [h1]; decide, .early 3 rfl (by omega) hport hlen⟩
  case uriSchemeSlash.refl =>
      split_ifs at h with h1
      cases h
      exact ⟨by rw [h1]; decide, .early 4 rfl (by omega) hport hlen⟩
  case uriSchemeSlashSlash.refl =>
      split_ifs at h with h1
      cases h
      refine ⟨?_, .host i (.inl rfl) rfl (by omega) (Nat.lt_succ_self i) hport hlen⟩
      rintro rfl
      exact absurd h1 (by decide)

/-- One byte of the host or of the port. -/
theorem Located.host_step {k : ℕ} (hs : u.state = .uriHost ∨ u.state = .uriPort)
    (hh : u.host.data = .rb k) (hoff : off + 2 ≤ k) (hi : k < i) (hport : u.port.data = .NULL)
    (hlen : u.absPath.len = 0) (h : parseUri addr i c u = .ok u') :
    (c = cSp → PortCounted u' ∧ PathWithin off i u'.absPath) ∧ (c ≠ cSp → Located off (i + 1) u') := by
  have hpath : ∀ {w : Uri}, w.state.inPath = true → PortCounted w → w.absPath = ⟨.rb i, u.absPath.len⟩ →
      Located off (i + 1) w := by
    intro w hw hp habs
    refine .path (.inl hw) hp ?_
    rw [habs, hlen]
    exact .start (by omega)
  have hcounted : ∀ {w : Uri}, w.host = u.host → w.port.data = u.port.data.add 1 → PortCounted w := by
    intro w hw hp
    refine .inr ⟨by rw [hw, hh]; simp, by rw [hp, hport]; rfl⟩
  unfold parseUri at h
  rcases hs with hs | hs <;> rw [hs] at h <;> dsimp only at h
  · split_ifs at h with h1 h2 h3 <;> cases h
    · refine ⟨?_, fun _ => .host k (.inl hs) hh hoff (by omega) hport hlen⟩
      rintro rfl
      exact absurd h1 (by decide)
    · exact ⟨fun e => absurd (h2.symm.trans e) (by decide),
        fun _ => .host k (.inr rfl) hh hoff (by omega) hport hlen⟩
    · exact ⟨fun e => absurd (h3.symm.trans e) (by decide), fun _ => hpath rfl (.inl hport) rfl⟩
  · split_ifs at h with h1 h2 h3 <;> cases h
    · refine ⟨fun _ => ⟨hcounted rfl rfl, ?_⟩, fun e => absurd h1 e⟩
      dsimp only
      rw [hh]
      exact ⟨k - 2, 1, rfl, by omega, by omega, by omega⟩
    · exact ⟨fun e => absurd e h1, fun _ => hpath rfl (hcounted rfl rfl) rfl⟩
    · exact ⟨fun e => absurd e h1, fun _ => .host k (.inr hs) hh hoff (by omega) hport hlen⟩

/-- One byte of the path or of the query. -/
theorem Located.path_step (hs : u.state.inPath = true ∨ u.state = .uriQuery) (hport : PortCounted u)
    (hp : PathWithin off i u.absPath) (h : parseUri addr i c u = .ok u') :
    (c = cSp → PortCounted u' ∧ PathWithin off i u'.absPath) ∧ (c ≠ cSp → Located off (i + 1) u') := by
  obtain ⟨-, hhost, hport', hstate⟩ := parseUri_keeps hs h
  have hpc : PortCounted u' := by
    unfold PortCounted
    rwa [hhost, hport']
  have hp' : PathWithin off i u'.absPath := by
    rcases hs with hs | hs
    · cases parseUri_path hs h with
      | slash _ hq | dot _ hq | name _ _ _ _ _ _ hq => rwa [hq]
      | space _ hq =>
          rw [hq]
          exact hp.end_
      | question _ hq =>
          rw [hq]
          split_ifs
          · exact hp
          · exact hp.end_
    · rw [parseUri_query hs] at h
      split_ifs at h <;> cases h <;> exact hp
  exact ⟨fun _ => ⟨hpc, hp'⟩, fun hc => .path (hstate hc) hpc hp'.mono⟩

/-- **One byte of a target.** -/
theorem Located.step (hu : Located off i u) (h : parseUri addr i c u = .ok u') :
    (c = cSp → PortCounted u' ∧ PathWithin off i u'.absPath) ∧ (c ≠ cSp → Located off (i + 1) u') := by
  cases hu with
  | early k hs hi hport hlen =>
      obtain ⟨hc, hu'⟩ := Located.early_step hs hi hport hlen h
      exact ⟨fun e => absurd e hc, fun _ => hu'⟩
  | host k hs hh hoff hi hport hlen => exact Located.host_step hs hh hoff hi hport hlen h
  | path hs hport hp => exact Located.path_step hs hport hp h

/-- **A whole target**: none of its bytes is NUL, and the path is one of its slices. -/
theorem readUri_located (hsp : cSp ∉ t) (h : readUri addr off (t ++ [cSp]) Uri.init = .ok v) :
    0 ∉ t ∧ PortCounted v ∧ PathWithin off (off + t.length) v.absPath := by
  refine readUri_inv (t := []) (I := fun t u => 0 ∉ t ∧ Located off (off + t.length) u)
    (D := fun t u => 0 ∉ t ∧ PortCounted u ∧ PathWithin off (off + t.length) u.absPath) ?_ ?_ hsp h
  · rintro t c u u' ⟨h0, hu⟩ hp
    have hc : c ≠ 0 := fun e => parseUri_nul (e ▸ hp)
    refine ⟨fun e => ⟨h0, (hu.step hp).1 e⟩, fun e => ⟨by simpa [h0] using hc.symm, ?_⟩⟩
    rw [List.length_append, List.length_singleton, ← Nat.add_assoc]
    exact (hu.step hp).2 e
  · exact ⟨List.not_mem_nil, .early 0 rfl le_rfl rfl rfl⟩

end automaton

section accepted

variable {r₀ : Request} {a : ConnAddr} {s : List UInt8} {r : Request}

/-- The path of an accepted line. -/
theorem parseRequestLine_located (h : parseRequestLine (freshRequest r₀ a s) = .ok (.ok, r)) :
    PortCounted r.uri ∧ (∃ p, r.uri.absPath.data = .rb p) ∧ 0 ∉ r.uri.absPath.bytes r.mem := by
  obtain ⟨l, u, hl, -, hread, -, -, huri⟩ := parseRequestLine_consumed h
  obtain ⟨off, t, hat, hmem, -⟩ := parseRequestLine_accepts h
  have hat' := LineText.targetAt hl
  obtain rfl : l.target = t := hat'.target.symm.trans hat.target
  obtain rfl : l.method.name.length + (l.spaces + 1) = off := hat'.start.symm.trans hat.start
  unfold LineText.Reads at hread
  rw [Nat.add_assoc, Nat.add_comm 1] at hread
  obtain ⟨h0, hport, hpath⟩ := readUri_located l.noSpace hread
  obtain ⟨p, n, hs, h1, -, h3⟩ := huri ▸ hpath.fallback
  refine ⟨?_, ⟨p, by rw [hs]⟩, fun hm => ?_⟩
  · rw [huri]
    unfold Uri.fallback
    split_ifs <;> exact hport
  · rw [hs] at hm
    obtain ⟨k, hk, hbyte⟩ := List.mem_map.mp hm
    have hk := List.mem_range.mp hk
    dsimp only at hk
    rw [Int.toNat_natCast] at hk
    obtain ⟨j, rfl⟩ := Nat.exists_eq_add_of_le h1
    have hget := hat.bytes (j + k) (by omega)
    rw [List.getElem?_eq_some_iff] at hget
    obtain ⟨hlt, hget⟩ := hget
    have hb : r.rb.mem (l.method.name.length + (l.spaces + 1) + j + k) = 0 := hbyte
    rw [hmem, Nat.add_assoc, freshRequest_mem r₀ a s _ hlt, hget] at hb
    exact h0 (hb ▸ List.getElem_mem _)

end accepted

/-! ### The comparison -/

/-- The location's path is a prefix, without regard to case. -/
def Location.Covers (loc : Location) (path : List UInt8) : Prop :=
  loc.path.map cToLower <+: path.map cToLower

instance (loc : Location) (path : List UInt8) : Decidable (loc.Covers path) :=
  inferInstanceAs (Decidable (_ <+: _))

/-- The first location that is a prefix of the path. -/
def firstLocation (path : List UInt8) (locs : List Location) : Option Location :=
  locs.find? fun loc => decide (loc.Covers path)

/-- The location that `sy_request_handle_uri` goes on with. -/
def uriLocation (cfg : Config) (r : Request) : Except Fault (Option Location) := do
  let r ← uriHost r
  matchLocation r.mem r.uri.absPath.data cfg.locations

/-- Nothing else of the configuration reaches `sy_request_handle_uri`. -/
theorem requestHandleUri_congr {cfg cfg' : Config} {e : Env} {s : Session}
    (h : uriLocation cfg s.r = uriLocation cfg' s.r) :
    requestHandleUri cfg e s = requestHandleUri cfg' e s := by
  unfold requestHandleUri
  unfold uriLocation at h
  cases hr : uriHost s.r with
  | error f => rfl
  | ok r =>
      rw [hr] at h
      have h : matchLocation r.mem r.uri.absPath.data cfg.locations =
          matchLocation r.mem r.uri.absPath.data cfg'.locations := h
      dsimp only [bind, Except.bind]
      rw [h]

/-- A search with a wider test finds the same where nothing it adds stands in front. -/
theorem find?_eq_find?_iff {α : Type} {p q : α → Bool} (hpq : ∀ x, p x = true → q x = true)
    (l : List α) : l.find? q = l.find? p ↔ ∀ x ∈ l.takeWhile (!p ·), q x = false := by
  induction l with
  | nil => simp
  | cons x l ih =>
      cases hp : p x with
      | true => simp [hp, hpq x hp]
      | false =>
          cases hq : q x with
          | false => simp [hp, hq, ih]
          | true =>
              have hne : some x ≠ l.find? p := fun e => by
                have := List.find?_some e.symm
                rw [hp] at this
                cases this
              simp [hp, hq, hne]

section comparison

variable {m : Mem} {l x : List UInt8} {i : ℕ}

theorem cToLower_ne_zero {c : UInt8} (h : c ≠ 0) : cToLower c ≠ 0 := by
  unfold cToLower
  split_ifs with hu
  · have hrange : 65 ≤ c.toNat ∧ c.toNat ≤ 90 := by
      simpa [isUpper, UInt8.le_iff_toNat_le] using hu
    intro e
    have := congrArg UInt8.toNat e
    simp only [toLower, UInt8.toNat_add, UInt8.toNat_sub, UInt8.toNat_ofNat] at this
    omega
  · exact h

/-- In the read buffer the comparison answers. -/
theorem strncaseEq_rb (l : List UInt8) (i : ℕ) : ∃ b, strncaseEq m l (.rb i) = .ok b := by
  induction l generalizing i with
  | nil => exact ⟨true, rfl⟩
  | cons a l ih =>
      unfold strncaseEq
      split_ifs
      · exact ⟨false, rfl⟩
      · exact ⟨true, rfl⟩
      · exact ih (i + 1)

/-- **Within the slice** the comparison is that of a prefix. -/
theorem strncaseEq_short (hx : ∀ k (h : k < x.length), m (.rb (i + k)) = x[k]) (h0 : 0 ∉ x)
    (hl : l.length ≤ x.length) :
    strncaseEq m l (.rb i) = .ok (decide (l.map cToLower <+: x.map cToLower)) := by
  induction l generalizing i x with
  | nil => simp [strncaseEq]
  | cons a l ih =>
      cases x with
      | nil => cases hl
      | cons c x =>
          obtain ⟨hc, h0⟩ : c ≠ 0 ∧ 0 ∉ x := by
            simpa [eq_comm] using h0
          have hbyte : m (.rb i) = c := hx 0 (Nat.succ_pos _)
          have htail : ∀ k (h : k < x.length), m (.rb (i + 1 + k)) = x[k] := fun k hk => by
            rw [Nat.add_assoc, Nat.add_comm 1]
            exact hx (k + 1) (Nat.succ_lt_succ hk)
          unfold strncaseEq
          rw [hbyte, List.map_cons, List.map_cons]
          by_cases ha : cToLower a = cToLower c
          · have ha0 : a ≠ 0 := by
              rintro rfl
              exact cToLower_ne_zero hc ha.symm
            rw [if_neg (not_not.mpr ha), if_neg ha0]
            refine (ih htail h0 (Nat.le_of_succ_le_succ hl)).trans ?_
            simp [List.cons_prefix_cons, ha]
          · rw [if_pos ha]
            simp [List.cons_prefix_cons, ha]

/-- The comparison with one location. -/
def reaches (m : Mem) (p : Ptr) (loc : Location) : Bool :=
  match strncaseEq m loc.path p with
  | .ok b => b
  | .error _ => false

theorem matchLocation_rb (locs : List Location) :
    matchLocation m (.rb i) locs = .ok (locs.find? (reaches m (.rb i))) := by
  induction locs with
  | nil => rfl
  | cons loc locs ih =>
      obtain ⟨b, hb⟩ := strncaseEq_rb (m := m) loc.path i
      have hr : reaches m (.rb i) loc = b := by
        unfold reaches
        rw [hb]
      unfold matchLocation
      rw [hb]
      cases b with
      | true => exact congrArg _ (List.find?_cons_of_pos hr).symm
      | false => exact ih.trans (congrArg _ (List.find?_cons_of_neg (by simp [hr])).symm)

end comparison

/-! ### The location chosen -/

/-- The locations in front of the first that is a prefix of the path. -/
def beforeFirst (path : List UInt8) (locs : List Location) : List Location :=
  locs.takeWhile fun loc => !decide (loc.Covers path)

/-- None of them is longer than the path and goes on into the bytes behind it. -/
def NoneRunsOn (m : Mem) (s : Str) (locs : List Location) : Prop :=
  ∀ loc ∈ beforeFirst (s.bytes m) locs, (s.bytes m).length < loc.path.length →
    strncaseEq m loc.path s.data = .ok false

section chosen

variable {m : Mem} {p : Str} {i : ℕ} {locs : List Location}

theorem Location.Covers.length {loc : Location} {path : List UInt8} (h : loc.Covers path) :
    loc.path.length ≤ path.length := by
  simpa using List.IsPrefix.length_le h

/-- A location that is no longer than the path. -/
theorem reaches_short (hd : p.data = .rb i) (h0 : 0 ∉ p.bytes m) {loc : Location}
    (hl : loc.path.length ≤ (p.bytes m).length) :
    reaches m (.rb i) loc = decide (loc.Covers (p.bytes m)) := by
  have hx : ∀ k (h : k < (p.bytes m).length), m (.rb (i + k)) = (p.bytes m)[k] := by
    intro k hk
    simp [Str.bytes, hd, Ptr.add]
  unfold reaches
  rw [strncaseEq_short hx h0 hl]
  rfl

/-- **`sy_match_location`** on a path without a NUL. -/
theorem matchLocation_iff (hd : p.data = .rb i) (h0 : 0 ∉ p.bytes m) :
    matchLocation m p.data locs = .ok (firstLocation (p.bytes m) locs) ↔ NoneRunsOn m p locs := by
  have hcover : ∀ loc, decide (loc.Covers (p.bytes m)) = true → reaches m (.rb i) loc = true := by
    intro loc h
    rw [reaches_short hd h0 (of_decide_eq_true h).length]
    exact h
  have hlong : ∀ loc, strncaseEq m loc.path (.rb i) = .ok false ↔ reaches m (.rb i) loc = false := by
    intro loc
    obtain ⟨b, hb⟩ := strncaseEq_rb (m := m) loc.path i
    simp [reaches, hb]
  unfold NoneRunsOn firstLocation
  rw [hd, matchLocation_rb, Except.ok.injEq, find?_eq_find?_iff hcover]
  refine forall₂_congr fun loc hloc => ?_
  rw [hlong]
  have hnot : decide (loc.Covers (p.bytes m)) = false := by
    simpa using List.mem_takeWhile_imp hloc
  constructor
  · exact fun h _ => h
  · intro h
    by_cases hl : (p.bytes m).length < loc.path.length
    · exact h hl
    · rw [reaches_short hd h0 (not_lt.mp hl)]
      exact hnot

/-- The host and the port are taken where there is no port. -/
theorem uriHost_ok_iff {r : Request} (h : PortCounted r.uri) :
    (∃ r', uriHost r = .ok r') ↔ r.uri.port.data = .NULL := by
  unfold uriHost
  rcases h with h | ⟨hhost, hport⟩
  · refine iff_of_true ?_ h
    by_cases hn : r.uri.host.data = .NULL
    · exact ⟨_, if_pos hn⟩
    · exact ⟨_, (if_neg hn).trans (if_pos h)⟩
  · have hne : r.uri.port.data ≠ .NULL := by
      rw [hport]
      decide
    rw [if_neg hhost]
    dsimp only
    rw [if_neg hne]
    refine iff_of_false ?_ hne
    rintro ⟨r', h'⟩
    obtain ⟨port, hatoi, -⟩ := bind_ok h'
    rw [show atoi _ r.uri.port.data = _ from congrArg _ hport] at hatoi
    cases hatoi

end chosen

/-- **The location chosen** for an accepted line is the first that is a prefix of the path, and
none if there is none, exactly when the target has no port and no longer location in front of
that one runs on into the bytes behind the path. -/
theorem location_iff {r₀ : Request} {a : ConnAddr} {s : List UInt8} {r : Request} (cfg : Config)
    (h : parseRequestLine (freshRequest r₀ a s) = .ok (.ok, r)) :
    uriLocation cfg r = .ok (firstLocation (r.uri.absPath.bytes r.mem) cfg.locations) ↔
      r.uri.port.data = .NULL ∧ NoneRunsOn r.mem r.uri.absPath cfg.locations := by
  obtain ⟨hport, ⟨i, hd⟩, h0⟩ := parseRequestLine_located h
  rw [← uriHost_ok_iff hport, ← matchLocation_iff hd h0]
  unfold uriLocation
  constructor
  · intro hu
    obtain ⟨r', hr, hm⟩ := bind_ok hu
    obtain ⟨host, port, rfl⟩ := uriHost_frame hr
    exact ⟨⟨_, hr⟩, hm⟩
  · rintro ⟨⟨r', hr⟩, hm⟩
    rw [hr]
    obtain ⟨host, port, rfl⟩ := uriHost_frame hr
    exact hm

/-- Two locations, the second for everything. -/
def twoLocations : Config where
  timeout := 60
  locations := [⟨true, bytes "/foo"⟩, ⟨false, bytes "/"⟩]
  headerGet := fun _ _ => none

/-- A path that climbs above the root. -/
def climbingLine : List UInt8 := bytes "GET /foo/../../.. HTTP/1.1\r\n"

/-- The path and the location of an accepted line. -/
def chosenPath (cfg : Config) (s : List UInt8) : Option (List UInt8 × Option Location) :=
  match parseRequestLine (freshRequest .zeroed 0 s) with
  | .ok (.ok, r) =>
      match uriLocation cfg r with
      | .ok loc => some (r.uri.absPath.bytes r.mem, loc)
      | .error _ => none
  | _ => none

theorem accepted_of_chosen (cfg : Config) (s path : List UInt8) (loc : Option Location)
    (h : chosenPath cfg s = some (path, loc)) :
    ∃ r, parseRequestLine (freshRequest .zeroed 0 s) = .ok (.ok, r) ∧
      r.uri.absPath.bytes r.mem = path ∧ uriLocation cfg r = .ok loc := by
  unfold chosenPath at h
  split at h
  · next r hr =>
      split at h
      · next loc' hloc =>
          cases h
          exact ⟨r, hr, rfl, hloc⟩
      · cases h
  · cases h

/-- The path is cut to `/`, and `/foo` is chosen. -/
theorem climbingLine_proxied : ∃ r,
    parseRequestLine (freshRequest .zeroed 0 climbingLine) = .ok (.ok, r) ∧
      r.uri.absPath.bytes r.mem = bytes "/" ∧
      uriLocation twoLocations r = .ok (some ⟨true, bytes "/foo"⟩) ∧
      uriLocation twoLocations r ≠
        .ok (firstLocation (r.uri.absPath.bytes r.mem) twoLocations.locations) := by
  obtain ⟨r, hr, hpath, hloc⟩ := accepted_of_chosen twoLocations climbingLine (bytes "/")
    (some ⟨true, bytes "/foo"⟩) (by decide +kernel)
  refine ⟨r, hr, hpath, hloc, ?_⟩
  rw [hpath, hloc]
  decide +kernel

/-- A line whose path is longer than both locations. -/
theorem location_iff_foo : ∃ r,
    parseRequestLine (freshRequest .zeroed 0 (bytes "GET /FOO/x HTTP/1.1\r\n")) = .ok (.ok, r) ∧
      r.uri.port.data = .NULL ∧ NoneRunsOn r.mem r.uri.absPath twoLocations.locations := by
  obtain ⟨r, hr, hpath, hloc⟩ := accepted_of_chosen twoLocations (bytes "GET /FOO/x HTTP/1.1\r\n")
    (bytes "/FOO/x") (some ⟨true, bytes "/foo"⟩) (by decide +kernel)
  refine ⟨r, hr, (location_iff twoLocations hr).mp ?_⟩
  rw [hpath, hloc]
  decide +kernel

end SyServer
