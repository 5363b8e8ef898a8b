import SyServer.Faults
import SyServer.Registered

/-! # What a worker dies of

A worker dies of a fault of the handler that a step runs, of an empty heap where a connection is
closed, or of a root of the heap that is not open. -/

namespace SyServer

theorem raises_settle {l : List Fault} {s : Session} {x : Except Fault (Rc × Session)}
    (hx : Raises l x) : Raises l (settle s x).1 := by
  cases x with
  | error f => exact raises_error (hx f rfl)
  | ok p => exact raises_ok _

/-- A call that fails none of these assertions, and leaves such a session if it returns. -/
structure Safely (bad : Fault → Bool) (P : Session → Prop) (x : Except Fault Rc × Session) : Prop where
  error : ∀ f, x.1 = .error f → bad f = false
  ok : ∀ rc, x.1 = .ok rc → P x.2

section safely

variable {bad : Fault → Bool} {P : Session → Prop}

theorem safely_error {l : List Fault} {f : Fault} (hl : ∀ g ∈ l, bad g = false) (hf : f ∈ l)
    (s : Session) : Safely bad P (.error f, s) where
  error g hg := by
    cases hg
    exact hl f hf
  ok rc hrc := by cases hrc

theorem safely_ok {s : Session} (h : P s) (rc : Rc) : Safely bad P (.ok rc, s) where
  error f hf := by cases hf
  ok _ _ := h

/-- A call of `sy_handle_request` behind the request aborts in the parser, or finds no bytes. -/
theorem requestLoop_late_safely {cfg : Config} {e : Env} {s : Session} {n : ℕ}
    (hin : s.r.inHandler = .requestLine) (hst : s.r.state.headerLine = true)
    (hbad : bad .requestLineState = false)
    (hP : P ({ s with r := rbConsumed s.r }.note (.called .requestLine s.r.state))) :
    Safely bad P (requestLoop cfg e (n + 1) s) := by
  have hrun : requestHandleRequestLine cfg e (s.note (.called .requestLine s.r.state)) =
      .ok (.again, { s.note (.called .requestLine s.r.state) with r := rbConsumed s.r }) ∨
        requestHandleRequestLine cfg e (s.note (.called .requestLine s.r.state)) =
          .error .requestLineState := by
    unfold requestHandleRequestLine
    rw [show (s.note (.called .requestLine s.r.state)).r = s.r from rfl]
    rcases parseRequestLine_headerLine hst with hp | hp <;> rw [hp]
    · exact .inl rfl
    · exact .inr rfl
  apply requestLoop_round
  · intro f hf
    rw [hin] at hf
    change requestHandleRequestLine cfg e _ = _ at hf
    rcases hrun with h | h <;> rw [h] at hf <;> cases hf
    refine safely_error (l := [.requestLineState]) (fun g hg => ?_) (List.mem_singleton_self _) _
    rw [List.mem_singleton.mp hg]
    exact hbad
  · intro rc s' h _
    rw [hin] at h
    change requestHandleRequestLine cfg e _ = _ at h
    rcases hrun with h' | h' <;> rw [h'] at h <;> cases h
    exact safely_ok hP _
  · intro s' h _
    rw [hin] at h
    change requestHandleRequestLine cfg e _ = _ at h
    rcases hrun with h' | h' <;> rw [h'] at h <;> cases h

end safely

namespace Server

variable {cfg : Config} {v v' : Server} {l : Label} {a : ConnAddr} {isIn : Bool} {c : Clock} {e : Env}
  {f : Fault}

theorem raises_closeConnection (v : Server) (a : ConnAddr) :
    Raises [.heapEmpty] (v.closeConnection a) := by
  have hback : ∀ (v : Server) (a : ConnAddr), Raises [.heapEmpty] (v.closeBack a) := fun v a =>
    raises_bind (raises_closeBack _ _ _) fun _ _ => raises_ok _
  unfold closeConnection
  cases (v.conns a).side with
  | back => exact hback v a
  | front =>
      refine raises_bind (raises_unregister _ _) fun _ _ => raises_bind ?_ fun _ _ => raises_ok _
      unfold closeUpstream
      split
      · exact hback _ _
      · exact raises_ok _

theorem closeConnection_dead (h : v.closeConnection a = .ok v') : v'.dead = v.dead := by
  have hback : ∀ {v v' : Server} {a : ConnAddr}, v.closeBack a = .ok v' → v'.dead = v.dead := by
    intro v v' a h
    obtain ⟨_, -, h2⟩ := bind_ok h
    cases h2
    rfl
  unfold closeConnection at h
  cases hs : (v.conns a).side with
  | back =>
      rw [hs] at h
      exact hback h
  | front =>
      rw [hs] at h
      cases closeFront_move h with
      | alone => rfl
      | upstream hun huc hclose => exact (hback hclose).trans rfl

theorem settled_dead (hv : v.dead = none) (h : (v.settled (v.closeConnection a)).dead = some f) :
    f = .heapEmpty := by
  have hraises := raises_closeConnection v a
  cases hx : v.closeConnection a with
  | error g =>
      rw [hx] at h hraises
      cases h
      exact List.mem_singleton.mp (hraises f rfl)
  | ok v' =>
      rw [hx] at h
      have h : v'.dead = some f := h
      rw [closeConnection_dead hx, hv] at h
      cases h

theorem openConnection_dead {o : Opening} (hv : v.dead = none)
    (h : (v.openConnection o).dead = some f) : f = .heapEmpty := by
  obtain ⟨a, v₁, hset⟩ : ∃ a v₁, v.setUp o = (a, v₁) := ⟨_, _, rfl⟩
  have hv₁ : v₁.dead = none := by
    cases hset
    exact hv
  obtain ⟨ok, heap, hreg⟩ : ∃ ok heap, v₁.g.heap.register a = (ok, heap) := ⟨_, _, rfl⟩
  unfold openConnection at h
  rw [hset] at h
  dsimp only at h
  rw [hreg] at h
  cases ok with
  | false => exact settled_dead (by exact hv₁) h
  | true =>
      dsimp only at h
      split_ifs at h
      · have h : v₁.dead = some f := h
        rw [hv₁] at h
        cases h
      · exact settled_dead (by exact hv₁) h

theorem handle_dead (hv : v.dead = none) (h : (v.handle cfg isIn c e a).dead = some f) :
    (handler cfg e (v.session (v.conns a).r) isIn (v.conns a).side).1 = .error f := by
  unfold handle at h
  dsimp only at h
  cases hrun : (handler cfg e (v.session (v.conns a).r) isIn (v.conns a).side).1 with
  | error g =>
      rw [hrun] at h
      cases h
      rfl
  | ok rc =>
      exfalso
      rw [hrun] at h
      have hkeep : ∀ w : Server, (w.finish cfg c a (.ok rc)).dead = w.dead := by
        intro w
        cases rc <;> rfl
      rw [hkeep] at h
      exact absurd (hv.symm.trans h) (by simp)

/-- The sweep closes the connection at the root of the heap. -/
def Due (cfg : Config) (v : Server) (now : ℤ) : Prop :=
  v.g.heap.size > 0 ∧ now ≥ v.g.heap.time (v.g.heap.conns 1) + cfg.timeout

instance (cfg : Config) (v : Server) (now : ℤ) : Decidable (v.Due cfg now) :=
  inferInstanceAs (Decidable (_ ∧ _))

/-- What the sweep takes from the root of the heap is not open. -/
def SweepsClosed (cfg : Config) (v : Server) (l : Label) : Prop :=
  ∃ now, l = .sweep now ∧ v.Due cfg now ∧ ¬ v.Live (v.g.heap.conns 1)

/-- **What a step dies of.** -/
theorem step_dead (hstep : v.step cfg l = some v') (h : v'.dead = some f) :
    f = .heapEmpty ∨ (f = .useAfterFree ∧ v.SweepsClosed cfg l) ∨ ∃ a isIn e, v.runs cfg l = some (a, isIn, e) ∧
      (handler cfg e (v.session (v.conns a).r) isIn (v.conns a).side).1 = .error f := by
  obtain ⟨hv, hcases⟩ := step_cases hstep
  have habsurd : v.dead ≠ some f := by
    rw [hv]
    simp
  cases hcases with
  | poll => exact absurd h habsurd
  | accept o => exact .inl (openConnection_dead hv h)
  | drop => exact absurd h habsurd
  | skip => exact absurd h habsurd
  | handle items hruns => exact .inr (.inr ⟨_, _, _, hruns, handle_dead hv h⟩)
  | sweep now =>
      unfold sweepRound at h
      dsimp only at h
      split_ifs at h with hdue hlive
      · exact .inl (settled_dead hv h)
      · cases h
        exact .inr (.inl ⟨rfl, now, rfl, hdue, hlive⟩)
      · exact absurd h habsurd

/-- The event that is served is pending. -/
theorem runs_pend (h : v.runs cfg l = some (a, true, e)) : v.pend a = true := by
  unfold runs at h
  split at h
  · rename_i out rest hbatch
    split_ifs at h
    cases h
    exact pend_iff.mpr ⟨out, by rw [hbatch]; exact List.mem_cons_self⟩
  · split_ifs at h
    cases h
  · cases h

/-- What a step dies of, in the view of the session whose handler runs. -/
theorem Sound.step_dead (hs : v.Sound) (hstep : v.step cfg l = some v') (h : v'.dead = some f) :
    f = .heapEmpty ∨ (f = .useAfterFree ∧ v.SweepsClosed cfg l) ∨
      ∃ a isIn e, v.runs cfg l = some (a, isIn, e) ∧ v.Front (v.frontOf a) ∧
        ((v.conns a).side = .front → isIn = true → (v.view (v.frontOf a)).pend = true) ∧
          (handler cfg e (v.view (v.frontOf a)).s isIn (v.conns a).side).1 = .error f := by
  rcases Server.step_dead hstep h with hf | hf | ⟨a, isIn, e, hruns, hf⟩
  · exact .inl hf
  · exact .inr (.inl hf)
  · obtain ⟨hlive, -⟩ := hs.runs hruns
    obtain ⟨hff, hfr, hself, -⟩ := hs.wired.frontOf hlive
    have hview : v.session (v.conns a).r = (v.view (v.frontOf a)).s := by
      show _ = v.session (v.conns (v.frontOf a)).r
      rw [hfr]
    rw [hview] at hf
    refine .inr (.inr ⟨a, isIn, e, hruns, hff, fun hside hin => ?_, hf⟩)
    rw [hself hside]
    exact runs_pend (hin ▸ hruns)

/-- **A fault that no call raises is not what a worker dies of.** -/
theorem Reached.never {good : View → SessionEvent → Prop} {J : Bool → Session → Prop} (bad : Fault → Bool)
    (hnot : ∀ f ∈ [Fault.heapEmpty, .useAfterFree, .fileWithUpstream], bad f = false)
    (hJ : ∀ v, Reached cfg (Meets cfg good) v → v.dead = none →
      ∀ a, v.Front a → J (v.view a).pend (v.view a).s)
    (hrequest : ∀ s e f, Base true s → J true s → good ⟨true, s⟩ (.request e) →
      (handleRequest cfg e s).1 = .error f → bad f = false)
    (hupstream : ∀ p s e f, J p s → good ⟨p, s⟩ (.upstream e) → handleUpstream e s = .error f →
      bad f = false)
    (hpass : ∀ p s e f, J p s → good ⟨p, s⟩ (.pass e) → handlePass e s = .error f → bad f = false)
    (h : Reached cfg (Meets cfg good) v) : ∀ f, v.dead = some f → bad f = false := by
  have hsettle : ∀ {s : Session} {x : Except Fault (Rc × Session)} {f : Fault},
      (settle s x).1 = .error f → x = .error f := by
    intro s x f hf
    cases x <;> cases hf
    rfl
  refine h.invariant_of
    (J := fun v => v.Sound ∧ (v.dead = none → ∀ a, v.Front a → J (v.view a).pend (v.view a).s))
    (fun v hv => ⟨Reached.sound hv, hJ v hv⟩) (fun v => ∀ f, v.dead = some f → bad f = false)
    (fun v hv f hf => by rw [hv.dead] at hf; cases hf) fun v l v' hsj _ hgood hstep f hf => ?_
  obtain ⟨hs, hj⟩ := hsj
  rcases hs.step_dead hstep hf with rfl | ⟨rfl, -⟩ | ⟨a, isIn, e, hruns, hff, hpend, hf⟩
  · exact hnot _ (by decide)
  · exact hnot _ (by decide)
  have hb := hs.base _ hff
  have hj := hj (step_cases hstep).1 _ hff
  have hgood := hgood _ (event_runs hruns)
  revert hb hj hgood hf hpend
  generalize v.view (v.frontOf a) = w
  obtain ⟨p, s⟩ := w
  intro hpend hf hb hj hgood
  cases hside : (v.conns a).side <;> cases isIn <;> rw [hside] at hpend hf hgood
  · have := raises_settle raises_handleResponse f hf
    rw [List.mem_singleton.mp this]
    exact hnot _ (by decide)
  · obtain rfl : p = true := hpend rfl rfl
    exact hrequest s e f hb hj hgood hf
  · exact hpass p s e f hj hgood (hsettle hf)
  · exact hupstream p s e f hj hgood (hsettle hf)

end Server

end SyServer
