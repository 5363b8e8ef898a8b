import SyServer.Locations
import SyServer.ParseCalls

/-! # The target of a line that comes in pieces

A request line may come in any pieces, and the parser goes on with it from call to call.  `Aimed` is what
it has of the target by then, so that an accepted line has its path in `rb`, and no port but one that was
counted up from `NULL` (`parseRequestLine_aims`). -/

namespace SyServer

open Scan (Step scan scan_inv scan_stop_inv)

/-- The states in front of the target. -/
def PState.beforeUri : PState → Bool
  | rlBegin | rlMethod | rlSpBeforeUri => true
  | _ => false

/-- The states behind the target. -/
def PState.behindUri : PState → Bool
  | rlSpBeforeVersion | rlHttpH | rlHttpHt | rlHttpHtt | rlHttpHttp | rlHttpVersionSlash
  | rlHttpVersionMajor | rlHttpVersionDot | rlHttpVersionMinor | rlSpAfterVersion | rlAlmostDone => true
  | _ => false

/-- The target of the line in front of offset `i`. -/
structure Aimed (i : ℕ) (r : Request) : Prop where
  before : r.state.beforeUri = true → r.uri.port.data = .NULL ∧ r.uri.absPath.len = 0
  within : r.state = .rlUri → Located 0 i r.uri
  behind : r.state.behindUri = true → PortCounted r.uri ∧ ∃ p, r.uri.absPath.data = .rb p

section aimed

variable {i : ℕ} {r r' : Request} {rc : Rc}

theorem PState.behindUri_not_before {st : PState} (h : st.behindUri = true) : st.beforeUri = false := by
  cases st <;> first | rfl | exact absurd h (by decide)

/-- Behind the target its parts stay. -/
theorem Aimed.of_behind {j : ℕ} (hst : r'.state.behindUri = true) (hport : PortCounted r'.uri)
    (hpath : ∃ p, r'.uri.absPath.data = .rb p) : Aimed j r' := by
  refine ⟨fun h => ?_, fun h => ?_, fun _ => ⟨hport, hpath⟩⟩
  · rw [PState.behindUri_not_before hst] at h
    cases h
  · rw [h] at hst
    cases hst

/-- In front of it nothing is set. -/
theorem Aimed.of_before {j : ℕ} (hst : r'.state.beforeUri = true) (hport : r'.uri.port.data = .NULL)
    (hlen : r'.uri.absPath.len = 0) : Aimed j r' := by
  refine ⟨fun _ => ⟨hport, hlen⟩, fun h => ?_, fun h => ?_⟩
  · rw [h] at hst
    cases hst
  · rw [PState.behindUri_not_before h] at hst
    cases hst

/-- In it the automaton has come to this place. -/
theorem Aimed.of_within {j : ℕ} (hst : r'.state = .rlUri) (h : Located 0 j r'.uri) : Aimed j r' := by
  refine ⟨fun hb => ?_, fun _ => h, fun hb => ?_⟩
  · rw [hst] at hb
    cases hb
  · rw [hst] at hb
    cases hb

/-- **One byte of the line.** -/
theorem Aimed.step (h : Aimed i r) (hm : requestLineByte i r = .more r') : Aimed (i + 1) r' := by
  have hgo : r.state.behindUri = true → r'.state.behindUri = true → r'.uri = r.uri → Aimed (i + 1) r' := by
    intro hst hst' hu
    obtain ⟨hport, hpath⟩ := h.behind hst
    exact .of_behind hst' (hu ▸ hport) (hu ▸ hpath)
  unfold requestLineByte at hm
  cases hs : r.state <;> rw [hs] at hm <;> dsimp only at hm
  case rlBegin =>
      obtain ⟨hport, hlen⟩ := h.before (by rw [hs]; rfl)
      split_ifs at hm
      cases hm
      exact .of_before rfl hport hlen
  case rlMethod =>
      obtain ⟨hport, hlen⟩ := h.before (by rw [hs]; rfl)
      cases hd : r.requestLine.data <;> rw [hd] at hm <;> dsimp only at hm <;> split_ifs at hm <;> cases hm
      all_goals first
        | exact .of_before rfl hport hlen
        | exact .of_before (by rw [hs]; rfl) hport hlen
  case rlSpBeforeUri =>
      obtain ⟨hport, hlen⟩ := h.before (by rw [hs]; rfl)
      split_ifs at hm with hbad hsp
      · cases hm
        exact .of_before (by rw [hs]; rfl) hport hlen
      · -- the first byte of the target
        obtain ⟨u, hp, rfl⟩ := requestLineUri_more hm
        have hstart : Located 0 i { r.uri with state := .uriBegin } := .early 0 rfl (Nat.zero_le i) hport hlen
        exact .of_within rfl ((hstart.step hp).2 hsp)
  case rlUri =>
      have hwithin := h.within hs
      split_ifs at hm with hbad hsp
      · -- the space behind it
        obtain ⟨u, hp, rfl⟩ := requestLineUri_more hm
        obtain ⟨hport, hpath⟩ := (hwithin.step hp).1 hsp
        obtain ⟨p, n, hdata, -⟩ := hpath
        unfold traversalFallback
        split_ifs
        · exact .of_behind rfl hport ⟨p, congrArg Str.data hdata⟩
        · exact .of_behind rfl hport ⟨p, congrArg Str.data hdata⟩
      · obtain ⟨u, hp, rfl⟩ := requestLineUri_more hm
        exact .of_within hs ((hwithin.step hp).2 hsp)
  all_goals
    (try split_ifs at hm) <;> cases hm
    all_goals exact hgo (by rw [hs]; rfl) (by first | rfl | (rw [hs]; rfl)) rfl

/-- **One call of the parser.**  A line that is not over is aimed as before, and an accepted one has its
path. -/
theorem parseRequestLine_aims (hb : r.rb.begin ≤ r.rb.end_) (h : Aimed r.rb.begin r)
    (hp : parseRequestLine r = .ok (rc, r')) :
    (rc = .again → Aimed r'.rb.begin r') ∧
      (rc = .ok → PortCounted r'.uri ∧ ∃ p, r'.uri.absPath.data = .rb p) := by
  unfold parseRequestLine at hp
  cases hs : scan requestLineByte r.rb.size r.rb.begin r with
  | more r₁ =>
      rw [hs] at hp
      cases hp
      refine ⟨fun _ => ?_, fun hrc => by cases hrc⟩
      have hr₁ := scan_inv Aimed _ (fun _ _ _ _ ht hm => ht.step hm) le_rfl h hs
      have hend : r.rb.begin + r.rb.size = r₁.rb.end_ := by
        obtain ⟨_, _, _, _, _, rfl⟩ := scan_requestLine_frame hs
        unfold Buffer.size
        dsimp only
        omega
      rw [hend] at hr₁
      exact ⟨hr₁.before, hr₁.within, hr₁.behind⟩
  | stop x =>
      rw [hs] at hp
      obtain ⟨k, -, t, -, ht, hstop⟩ :=
        scan_stop_inv Aimed _ (fun _ _ _ _ ht hm => ht.step hm) le_rfl h hs
      cases x with
      | abort f => cases hp
      | ret rc₁ q =>
          cases hp
          obtain ⟨hok, hagain⟩ := requestLineByte_ret hstop
          exact ⟨fun hrc => absurd hrc hagain, fun hrc => absurd hrc hok⟩
      | done p q =>
          cases hp
          obtain ⟨-, rfl, hst⟩ := requestLineByte_done hstop
          refine ⟨fun hrc => Rc.noConfusion hrc, fun _ => ht.behind ?_⟩
          rcases hst with hst | hst <;> rw [hst] <;> rfl

end aimed

end SyServer
