import Mathlib

/-!
# Completion of a collective

`SpyreCCLWork` (`csrc/distributed/spyre_ccl.cpp`) wraps the schedule of one collective. Three
pieces of state tell how it ended : whether it is completed, the exception that was caught and
the future, which is only ever resolved with a value. They are set by `isCompleted`, which asks
the schedule once, and by `wait`, which blocks or asks until a deadline.

A failure seen by `isCompleted` marks the work as completed, and `wait` takes a completed work
for a finished one (`polledFailure`). A failure seen by `wait` leaves the work open, and a later
call may find it done while the exception stays. `honest_of_heeded` says that nothing else goes
wrong : failures are never reported as done to a caller that stops waiting after one.
-/

open List

namespace TorchSpyre

namespace Collective

variable {ε : Type}

/-- What the schedule answers to one `query`. -/
inductive Query (ε : Type)
  | running
  | done
  | throws (e : ε)
deriving DecidableEq

/-- How a call ends that does not return. -/
inductive Failure (ε : Type)
  | schedule (e : ε)
  | timedOut
deriving DecidableEq

/-- What happens while `wait` is in the schedule. Without a timeout the schedule returns or
throws. With one it is asked, `early` times before the deadline and running each time, and once
more : running then means that the deadline has passed. -/
inductive Waiting (ε : Type)
  | untimed (thrown : Option ε)
  | timed (early : ℕ) (last : Query ε)

/-- The loop of a timed wait. -/
def pollLoop : ℕ → Query ε → Except (Failure ε) Unit
  | n + 1, last => pollLoop n last
  | 0, .done => .ok ()
  | 0, .throws e => .error (.schedule e)
  | 0, .running => .error .timedOut

/-- How a wait in the schedule ends. -/
def Waiting.outcome : Waiting ε → Except (Failure ε) Unit
  | .untimed none => .ok ()
  | .untimed (some e) => .error (.schedule e)
  | .timed early last => pollLoop early last

/-- The state of the work. `scheduled` says that there is a schedule. -/
structure SpyreCCLWork (ε : Type) where
  scheduled : Bool
  completed : Bool := false
  exception : Option (Failure ε) := none
  futureCompleted : Bool := false

/-- A work as it is submitted. -/
def SpyreCCLWork.start (scheduled : Bool) : SpyreCCLWork ε :=
  { scheduled }

/-- A call, with what the schedule does if it is asked. -/
inductive Call (ε : Type)
  | isCompleted (answer : Query ε)
  | wait (during : Waiting ε)

namespace SpyreCCLWork

/-- Resolve the future with a value. -/
def markCompleted (w : SpyreCCLWork ε) : SpyreCCLWork ε :=
  { w with futureCompleted := true }

/-- `isCompleted` : a schedule that is not completed is asked once. -/
def isCompleted (w : SpyreCCLWork ε) (answer : Query ε) :
    SpyreCCLWork ε × Except (Failure ε) Bool :=
  if w.scheduled && !w.completed then
    match answer with
    | .throws e =>
      ({ w with exception := some (.schedule e), completed := true }, .error (.schedule e))
    | .done => ({ w with completed := true }.markCompleted, .ok true)
    | .running => (w, .ok false)
  else (w, .ok w.completed)

/-- No exception was caught. -/
def isSuccess (w : SpyreCCLWork ε) : Bool :=
  w.exception.isNone

/-- `wait` : a completed work is taken for a finished one. -/
def wait (w : SpyreCCLWork ε) (during : Waiting ε) : SpyreCCLWork ε × Except (Failure ε) Bool :=
  if !w.scheduled || w.completed then (w.markCompleted, .ok true)
  else
    match during.outcome with
    | .error e => ({ w with exception := some e }, .error e)
    | .ok _ => ({ w with completed := true }.markCompleted, .ok true)

/-- One call, with its result. -/
def call (w : SpyreCCLWork ε) : Call ε → SpyreCCLWork ε × Except (Failure ε) Bool
  | .isCompleted answer => w.isCompleted answer
  | .wait during => w.wait during

/-- The state after a sequence of calls. -/
def run (w : SpyreCCLWork ε) : List (Call ε) → SpyreCCLWork ε
  | [] => w
  | c :: calls => (w.call c).1.run calls

/-- The calls with their results. -/
def trace (w : SpyreCCLWork ε) : List (Call ε) → List (Call ε × Except (Failure ε) Bool)
  | [] => []
  | c :: calls => (c, (w.call c).2) :: (w.call c).1.trace calls

end SpyreCCLWork

/-! ## Honest completion -/

/-- The call ended by rethrowing what the schedule threw. -/
def Rethrows (p : Call ε × Except (Failure ε) Bool) : Prop :=
  ∃ e, p.2 = .error (.schedule e)

/-- The call was a `wait` that returned. -/
def WaitReturned (p : Call ε × Except (Failure ε) Bool) : Prop :=
  (∃ during, p.1 = .wait during) ∧ p.2 = .ok true

/-- A failure of the schedule is never reported as done, and a wait that returned is one of a
work that succeeded. -/
structure Honest (w : SpyreCCLWork ε) (calls : List (Call ε)) : Prop where
  no_return : (w.trace calls).Pairwise fun p q => Rethrows p → ¬WaitReturned q
  unresolved : (∃ p ∈ w.trace calls, Rethrows p) → (w.run calls).futureCompleted = false
  success : (∃ p ∈ w.trace calls, WaitReturned p) → (w.run calls).isSuccess = true

/-- A poll that fails, and a wait. -/
def polledFailure : List (Call ℕ) :=
  [.isCompleted (.throws 7), .wait (.untimed none)]

theorem polledFailure_not_honest : ¬Honest (.start true) polledFailure := by
  intro h
  have hfuture := h.unresolved ⟨_, mem_cons_self, 7, rfl⟩
  cases hfuture

/-- The first answer of the schedule that is not `running`. -/
def Call.outcome : Call ε → Option (Except (Failure ε) Unit)
  | .isCompleted .running => none
  | .isCompleted .done => some (.ok ())
  | .isCompleted (.throws e) => some (.error (.schedule e))
  | .wait during => some during.outcome

/-- The caller goes on polling, and the schedule is not found done. -/
def Call.Idle (c : Call ε) : Prop :=
  ∃ answer, c = .isCompleted answer ∧ answer ≠ .done

/-- Once the schedule throws or a deadline passes, the caller does not wait again, and polling
does not find the schedule done. -/
def Heeded : List (Call ε) → Prop
  | [] => True
  | c :: calls => match c.outcome with
    | none => Heeded calls
    | some (.ok _) => True
    | some (.error _) => ∀ d ∈ calls, d.Idle

section Runs

variable {w : SpyreCCLWork ε} {calls : List (Call ε)}

/-- The schedule is not asked any more, and nothing has failed. -/
def Settled (w : SpyreCCLWork ε) : Prop :=
  (!w.scheduled || w.completed) = true ∧ w.exception = none

theorem Settled.call (h : Settled w) (c : Call ε) :
    Settled (w.call c).1 ∧ ¬Rethrows (c, (w.call c).2) := by
  cases c with
  | isCompleted answer =>
    have hask : ¬(w.scheduled && !w.completed) = true := by
      have := h.1
      revert this
      cases w.scheduled <;> cases w.completed <;> simp
    have hcall : w.call (.isCompleted answer) = (w, .ok w.completed) := if_neg hask
    rw [hcall]
    exact ⟨h, by simp [Rethrows]⟩
  | wait during =>
    have hcall : w.call (.wait during) = (w.markCompleted, .ok true) := if_pos h.1
    rw [hcall]
    exact ⟨h, by simp [Rethrows]⟩

/-- A settled work stays one, and no call throws. -/
theorem Settled.run (h : Settled w) (calls : List (Call ε)) :
    (w.run calls).exception = none ∧ ∀ p ∈ w.trace calls, ¬Rethrows p := by
  induction calls generalizing w with
  | nil => exact ⟨h.2, by simp [SpyreCCLWork.trace]⟩
  | cons c calls ih =>
    obtain ⟨hnext, hc⟩ := h.call c
    exact ⟨(ih hnext).1, forall_mem_cons.2 ⟨hc, (ih hnext).2⟩⟩

theorem Settled.honest (h : Settled w) (calls : List (Call ε)) : Honest w calls := by
  obtain ⟨hnone, hcalls⟩ := h.run calls
  refine ⟨?_, fun ⟨p, hp, hthrow⟩ => absurd hthrow (hcalls p hp), fun _ => ?_⟩
  · exact pairwise_of_forall_mem_list fun p hp _ _ hthrow => absurd hthrow (hcalls p hp)
  · rw [SpyreCCLWork.isSuccess, hnone]
    rfl

theorem call_idle {c : Call ε} (hc : c.Idle) :
    (w.call c).1.futureCompleted = w.futureCompleted ∧ ¬WaitReturned (c, (w.call c).2) := by
  obtain ⟨answer, rfl, hdone⟩ := hc
  refine ⟨?_, by simp [WaitReturned]⟩
  unfold SpyreCCLWork.call SpyreCCLWork.isCompleted
  split_ifs
  · cases answer with
    | running => rfl
    | done => exact absurd rfl hdone
    | throws e => rfl
  · rfl

/-- Polling on after a failure resolves nothing. -/
theorem run_idle (h : ∀ c ∈ calls, c.Idle) :
    (w.run calls).futureCompleted = w.futureCompleted ∧
      ∀ p ∈ w.trace calls, ¬WaitReturned p := by
  induction calls generalizing w with
  | nil => exact ⟨rfl, by simp [SpyreCCLWork.trace]⟩
  | cons c calls ih =>
    obtain ⟨hc, hcalls⟩ := forall_mem_cons.1 h
    obtain ⟨hfuture, hreturn⟩ := call_idle (w := w) hc
    obtain ⟨hrun, htrace⟩ := ih (w := (w.call c).1) hcalls
    exact ⟨hrun.trans hfuture, forall_mem_cons.2 ⟨hreturn, htrace⟩⟩

/-- What the first call that asks the schedule to the end does. -/
theorem call_fresh {c : Call ε} :
    (c.outcome = none → (SpyreCCLWork.start true).call c =
        (.start true, .ok false) ∧ ∀ during, c ≠ .wait during) ∧
      (c.outcome = some (.ok ()) → Settled ((SpyreCCLWork.start true).call c).1 ∧
        ((SpyreCCLWork.start true).call c).2 = .ok true) ∧
      ∀ e, c.outcome = some (.error e) →
        ((SpyreCCLWork.start true).call c).1.futureCompleted = false ∧
          ((SpyreCCLWork.start true).call c).2 = .error e := by
  cases c with
  | isCompleted answer =>
    cases answer with
    | running => exact ⟨fun _ => ⟨rfl, nofun⟩, nofun, nofun⟩
    | done => exact ⟨nofun, fun _ => ⟨⟨rfl, rfl⟩, rfl⟩, nofun⟩
    | throws e =>
      refine ⟨nofun, nofun, fun e' he => ⟨rfl, ?_⟩⟩
      rw [← Except.error.inj (Option.some.inj he)]
      rfl
  | wait during =>
    refine ⟨nofun, fun hok => ?_, fun e he => ?_⟩
    · have hout : during.outcome = .ok () := Option.some.inj hok
      simp [SpyreCCLWork.call, SpyreCCLWork.wait, hout, Settled, SpyreCCLWork.markCompleted,
        SpyreCCLWork.start]
    · have hout : during.outcome = .error e := Option.some.inj he
      simp [SpyreCCLWork.call, SpyreCCLWork.wait, hout, SpyreCCLWork.start]

theorem Honest.of_scheduled (h : Heeded calls) : Honest (.start true) calls := by
  induction calls with
  | nil => exact ⟨.nil, by simp [SpyreCCLWork.trace], by simp [SpyreCCLWork.trace]⟩
  | cons c calls ih =>
    obtain ⟨hrunning, hdone, hfailed⟩ := call_fresh (c := c)
    unfold Heeded at h
    cases hout : c.outcome with
    | none =>
      rw [hout] at h
      obtain ⟨hcall, hpoll⟩ := hrunning hout
      obtain ⟨hreturn, hfuture, hsuccess⟩ := ih h
      have hthrow : ¬Rethrows (c, Except.ok (ε := Failure ε) false) := by simp [Rethrows]
      have hwait : ¬WaitReturned (c, Except.ok (ε := Failure ε) false) := by simp [WaitReturned]
      refine ⟨?_, ?_, ?_⟩ <;> simp only [SpyreCCLWork.trace, SpyreCCLWork.run, hcall]
      · exact .cons (fun q _ hc => absurd hc hthrow) hreturn
      · rw [exists_mem_cons_iff, or_iff_right hthrow]
        exact hfuture
      · rw [exists_mem_cons_iff, or_iff_right hwait]
        exact hsuccess
    | some out =>
      rw [hout] at h
      cases out with
      | ok _ =>
        obtain ⟨hsettled, hresult⟩ := hdone hout
        obtain ⟨hreturn, hfuture, hsuccess⟩ := hsettled.honest calls
        have hthrow : ¬Rethrows (c, Except.ok (ε := Failure ε) true) := by simp [Rethrows]
        refine ⟨?_, ?_, fun _ => ?_⟩ <;> simp only [SpyreCCLWork.trace, SpyreCCLWork.run, hresult]
        · exact .cons (fun q _ hc => absurd hc hthrow) hreturn
        · rw [exists_mem_cons_iff, or_iff_right hthrow]
          exact hfuture
        · rw [SpyreCCLWork.isSuccess, (hsettled.run calls).1]
          rfl
      | error e =>
        obtain ⟨hfuture, hresult⟩ := hfailed e hout
        obtain ⟨hidle, hquiet⟩ := run_idle
          (w := ((SpyreCCLWork.start true).call c).1) h
        have hwait : ¬WaitReturned (c, Except.error (α := Bool) e) := by simp [WaitReturned]
        refine ⟨?_, fun _ => hidle.trans hfuture, ?_⟩ <;> simp only [SpyreCCLWork.trace, hresult]
        · refine .cons (fun q hq _ => hquiet q hq) ?_
          exact pairwise_of_forall_mem_list fun p _ q hq _ => hquiet q hq
        · rintro ⟨p, hp, hreturned⟩
          rcases mem_cons.1 hp with rfl | hp
          · exact absurd hreturned hwait
          · exact absurd hreturned (hquiet p hp)

end Runs

/-- A work is honest on every sequence of calls in which the caller stops waiting once the
schedule has thrown or a deadline has passed, whatever the schedule does. -/
theorem honest_of_heeded (scheduled : Bool) (calls : List (Call ε)) (h : Heeded calls) :
    Honest (.start scheduled) calls := by
  cases scheduled with
  | false => exact Settled.honest ⟨rfl, rfl⟩ calls
  | true => exact Honest.of_scheduled h

/-- A poll while the collective runs, a wait in which it fails, and polls after that. -/
def failedWait : List (Call ℕ) :=
  [.isCompleted .running, .wait (.timed 3 (.throws 7)), .isCompleted .running,
    .isCompleted (.throws 7)]

theorem honest_of_heeded_failedWait :
    Heeded failedWait ∧ Honest (.start true) failedWait ∧
      ((SpyreCCLWork.start true).run failedWait).futureCompleted = false := by
  have hheeded : Heeded failedWait := by
    intro d hd
    rcases mem_cons.1 hd with rfl | hd
    · exact ⟨.running, rfl, nofun⟩
    · exact ⟨.throws 7, mem_singleton.1 hd, nofun⟩
  have hhonest := honest_of_heeded true failedWait hheeded
  exact ⟨hheeded, hhonest, hhonest.unresolved ⟨(.wait (.timed 3 (.throws 7)), _),
    mem_cons_of_mem _ mem_cons_self, 7, rfl⟩⟩

end Collective

end TorchSpyre
