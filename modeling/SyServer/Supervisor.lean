import SyServer.Lib.Transition

/-! # The supervisor and its workers

The loop of `main` that forks the workers and waits for them, next to the worker processes.  A worker
dies by a failed assertion or a bad pointer, or exits; `wait` tells the two apart.

`sy_vector_at` answers `NULL` behind the last worker of the configuration, and the pid of a worker that
was forked again is written there.  So a worker is replaced once, and then there is nobody left to
replace another (`workers_replaced_once`).

* `Supervised`: what holds in every state reached. -/

namespace SyServer

open Transition (Reach exec along_true exists_of_any)

/-- How the supervisor ends: by the `SIGINT` that it raises, by `abort`, or by the write through `NULL`. -/
inductive SupervisorEnd where
  | interrupted
  | aborted
  | nullWrite
deriving DecidableEq, Repr

/-- The supervisor and the processes it has forked, with the pids of all of them in `pids`, the last one
first: those that run, and those that have died and were not waited for, each with what `WIFEXITED`
says of it.  `waited` is the place in the loop behind `wait`. -/
structure Supervisor where
  workers : List ℕ
  nworker : ℕ
  waited : Bool
  ended : Option SupervisorEnd
  running : List ℕ
  dead : List (ℕ × Bool)
  pids : List ℕ
  deaths : ℕ
deriving DecidableEq, Repr

/-- What happens: `fork` answers, a worker dies, or `wait` answers. -/
inductive SupervisorEvent where
  | fork (pid : ℕ)
  | forkFails
  | dies (pid : ℕ) (exited : Bool)
  | wait (pid : ℕ) (exited : Bool)
  | noChild (exited : Bool)
deriving DecidableEq, Repr

namespace Supervisor

/-- The supervisor with the vector of the configuration, before its loop. -/
def start (workers : List ℕ) : Supervisor := ⟨workers, 0, false, none, [], [], [], 0⟩

/-- `nworker >= server_cfg.workers.size`. -/
def Full (s : Supervisor) : Prop := s.workers.length ≤ s.nworker

instance (s : Supervisor) : Decidable s.Full := inferInstanceAs (Decidable (_ ≤ _))

/-- The supervisor is about to call `fork`. -/
def Forking (s : Supervisor) : Prop := s.ended = none ∧ (s.Full → s.waited = true)

instance (s : Supervisor) : Decidable s.Forking := inferInstanceAs (Decidable (_ ∧ _))

/-- The supervisor is in `wait`. -/
def Waiting (s : Supervisor) : Prop := s.ended = none ∧ s.Full ∧ s.waited = false

instance (s : Supervisor) : Decidable s.Waiting := inferInstanceAs (Decidable (_ ∧ _ ∧ _))

/-- `fork` answers a pid, which is written to the next place in the vector. -/
def forked (s : Supervisor) (pid : ℕ) : Supervisor :=
  { s with
    workers := s.workers.set s.nworker pid
    nworker := s.nworker + 1
    waited := false
    ended := if s.nworker < s.workers.length then none else some .nullWrite
    running := pid :: s.running
    pids := pid :: s.pids }

/-- `if (WIFEXITED(stat)) raise(SIGINT);`. -/
def told (s : Supervisor) (exited : Bool) : Supervisor :=
  if exited then { s with ended := some .interrupted } else { s with waited := true }

/-- One event, if it can happen.  Without children `wait` fails, and what it leaves in `stat` is not
known. -/
def step (s : Supervisor) : SupervisorEvent → Option Supervisor
  | .fork pid =>
      if s.Forking ∧ pid ∉ s.running ∧ pid ∉ s.dead.map Prod.fst then some (s.forked pid) else none
  | .forkFails => if s.Forking then some { s with ended := some .aborted } else none
  | .dies pid exited =>
      if pid ∈ s.running then
        some { s with
          running := s.running.erase pid, dead := (pid, exited) :: s.dead, deaths := s.deaths + 1 }
      else none
  | .wait pid exited =>
      if s.Waiting ∧ (pid, exited) ∈ s.dead then
        some ({ s with dead := s.dead.erase (pid, exited) }.told exited)
      else none
  | .noChild exited =>
      if s.Waiting ∧ s.running = [] ∧ s.dead = [] then some (s.told exited) else none

/-- What holds in every state that a supervisor of `n` workers reaches. -/
structure Supervised (n : ℕ) (s : Supervisor) : Prop where
  size : s.workers.length = n
  count : s.running.length + s.deaths = s.pids.length
  next : s.nworker = s.pids.length
  alive : s.ended = none → s.pids.length ≤ n ∧ s.workers.take s.pids.length = s.pids.reverse
  ends : s.pids.length ≤ n + 1
  last : s.pids.length = n + 1 → s.ended = some .nullWrite ∧ s.workers = s.pids.tail.reverse

section runs

variable {n : ℕ} {s s' : Supervisor}

theorem supervised_start (workers : List ℕ) : Supervised workers.length (start workers) :=
  ⟨rfl, rfl, rfl, fun _ => ⟨Nat.zero_le _, rfl⟩, Nat.zero_le _, fun h => by cases h⟩

theorem Supervised.forked (h : Supervised n s) (hf : s.Forking) (pid : ℕ) :
    Supervised n (s.forked pid) := by
  obtain ⟨hle, htake⟩ := h.alive hf.1
  have hnext := h.next
  have hsize := h.size
  refine ⟨(List.length_set).trans hsize, ?_, congrArg (· + 1) hnext, fun hend => ?_, Nat.succ_le_succ hle,
    fun hlast => ?_⟩
  · show s.running.length + 1 + s.deaths = s.pids.length + 1
    have hcount := h.count
    omega
  · -- there was a place in the vector
    have hlt : s.nworker < s.workers.length := by
      by_contra hge
      have hend : (if s.nworker < s.workers.length then none else some SupervisorEnd.nullWrite) = none := hend
      rw [if_neg hge] at hend
      cases hend
    refine ⟨by show s.pids.length + 1 ≤ n; omega, ?_⟩
    show (s.workers.set s.nworker pid).take (s.pids.length + 1) = (pid :: s.pids).reverse
    rw [List.reverse_cons, ← htake, hnext, List.take_add_one, List.take_set_of_le le_rfl]
    simp [hnext ▸ hlt]
  · have hlast : s.pids.length + 1 = n + 1 := hlast
    have hge : ¬ s.nworker < s.workers.length := by omega
    refine ⟨if_neg hge, ?_⟩
    show s.workers.set s.nworker pid = s.pids.reverse
    rw [← htake, List.set_eq_of_length_le (by omega), List.take_of_length_le (by omega)]

/-- An end of the supervisor, or a new place in the loop, changes nothing else. -/
theorem Supervised.moved (h : Supervised n s) (hlive : s.ended = none) (waited : Bool)
    (ended : Option SupervisorEnd) : Supervised n { s with waited := waited, ended := ended } := by
  have hle := (h.alive hlive).1
  exact { h with
    alive := fun _ => h.alive hlive
    last := fun hlast => absurd hlast (by dsimp only; omega) }

theorem Supervised.told (h : Supervised n s) (hlive : s.ended = none) (exited : Bool) :
    Supervised n (s.told exited) := by
  cases exited with
  | true => exact h.moved hlive s.waited (some .interrupted)
  | false => exact h.moved hlive true s.ended

/-- **One event.** -/
theorem Supervised.step (h : Supervised n s) {ev : SupervisorEvent} (hstep : s.step ev = some s') :
    Supervised n s' := by
  cases ev with
  | fork pid =>
      obtain ⟨⟨hf, -⟩, he⟩ := Option.ite_none_right_eq_some.mp hstep
      cases he
      exact h.forked hf pid
  | forkFails =>
      obtain ⟨hf, he⟩ := Option.ite_none_right_eq_some.mp hstep
      cases he
      exact h.moved hf.1 s.waited (some .aborted)
  | dies pid exited =>
      obtain ⟨hmem, he⟩ := Option.ite_none_right_eq_some.mp hstep
      cases he
      have hcount := h.count
      have hlen := List.length_erase_of_mem hmem
      have hpos := List.length_pos_of_mem hmem
      refine { h with count := ?_ }
      show (s.running.erase pid).length + (s.deaths + 1) = s.pids.length
      omega
  | wait pid exited =>
      obtain ⟨⟨hw, -⟩, he⟩ := Option.ite_none_right_eq_some.mp hstep
      cases he
      have hless : Supervised n { s with dead := s.dead.erase (pid, exited) } := { h with }
      exact hless.told hw.1 exited
  | noChild exited =>
      obtain ⟨⟨hw, -⟩, he⟩ := Option.ite_none_right_eq_some.mp hstep
      cases he
      exact h.told hw.1 exited

/-- **A worker is replaced once.**  Whatever `fork`, `wait` and the workers do, a supervisor of `n`
workers forks `n + 1` at most; while it runs, its vector names the workers in their order; and with the
last one it ends by the write through `NULL`, its vector naming the first `n`.  So once `n + 1` workers
have died none is left. -/
theorem workers_replaced_once {workers : List ℕ}
    (h : Reach (· = start workers) step (fun _ _ => True) s) :
    s.pids.length ≤ workers.length + 1 ∧ s.running.length + s.deaths = s.pids.length ∧
      (s.ended = none → s.workers.take s.pids.length = s.pids.reverse) ∧
      (s.pids.length = workers.length + 1 →
        s.ended = some .nullWrite ∧ s.workers = s.pids.tail.reverse) := by
  have hs : Supervised workers.length s := h.invariant (Supervised workers.length)
    (fun _ hs => by rw [hs]; exact supervised_start workers) fun _ _ _ hs _ hstep => hs.step hstep
  exact ⟨hs.ends, hs.count, fun hlive => (hs.alive hlive).2, hs.last⟩

/-- Two workers, of which the first one crashes. -/
def crashed : List SupervisorEvent := [.fork 10, .fork 11, .dies 10 false, .wait 10 false, .fork 12]

theorem workers_replaced_once_crashed : ∃ s, exec step (start [0, 0]) crashed = some s ∧
    s.running = [12, 11] ∧ s.ended = some .nullWrite ∧ s.workers = [10, 11] := by
  have hrun : (exec step (start [0, 0]) crashed).any (fun s =>
      decide (s.running = [12, 11] ∧ s.pids = [12, 11, 10])) := by
    decide
  obtain ⟨s, hs, hend⟩ := exists_of_any hrun
  obtain ⟨hrunning, hpids⟩ := of_decide_eq_true hend
  have hreach : Reach (· = start [0, 0]) step (fun _ _ => True) s :=
    Reach.exec (.start rfl) (along_true _ _) hs
  obtain ⟨-, -, -, hlast⟩ := workers_replaced_once hreach
  obtain ⟨hended, hworkers⟩ := hlast (by rw [hpids]; rfl)
  exact ⟨s, hs, hrunning, hended, by rw [hworkers, hpids]; rfl⟩

end runs

end Supervisor

end SyServer
