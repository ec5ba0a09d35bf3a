import Bikaya.Kernel.Replay

/-!
# Processes are resumed where they left

A process that is dispatched finds the state it had at its last entry, or was created with, with the program
counter adjusted and the device status it waited for, whatever the old areas and `old_state` have held meanwhile;
and `LDST(old_state)` loads the state of the current process (`load_context`). The invariant is `Saved` : the PCBs
of ready and waiting processes hold their contexts.
-/

namespace Bikaya.Results
open Bikaya.Lib Bikaya.Model Bikaya.Spec Bikaya.Refine Bikaya.Kernel

variable {T : Target} {cfg : Cfg T}

/-- A state loaded for a process is the context of that process. -/
def Restores (n : Obs T × Machine T) (earlier : History T) : Prop :=
  match n.1 with
  | .dispatch p st => context p earlier = some st
  | .resume st => ∃ p e m c, n.2.currentProc = some p ∧ lastEntry earlier = some (e, m) ∧ m.currentProc = some p ∧
      st = n.2.oldAreas e.area ∧ context p earlier = some c ∧ (st = c ∨ ∃ r, st = c.setReturn r)
  | _ => True

/-- The PCBs of those that do not run hold their contexts, and so far contexts have been restored. -/
structure Saved (s : KState T) (q : Queues) : Prop where
  restores : Always Restores s.hist
  saved : ∀ p, q.Resting p → context p s.hist = some (s.m.pool.pcbs p).pS

theorem restores_time (n : Obs T × Machine T) (h : History T) (hn : IsTime n.1) : Restores n h := by
  obtain ⟨o, m⟩ := n
  cases o <;> first | exact hn.elim | exact trivial

/-! ## Where contexts are kept -/

section
variable {s s' : KState T} {q q' : Queues}

theorem resting_enqueue {prio : Pid → Int} {p r : Pid} (h : (q.enqueue prio p).Resting r) : q.Resting r ∨ r = p := by
  rcases h with h | h
  · exact ((mem_insertPrio prio p).mp h).elim Or.inr fun h => Or.inl (Or.inl h)
  · exact Or.inl (Or.inr h)

theorem resting_pop {key : Key} {p r : Pid} {rest : List Pid} (hw : q.waiting key = p :: rest)
    (h : (q.setWaiting key rest).Resting r) : q.Resting r := by
  rcases h with h | ⟨k, h⟩
  · exact Or.inl h
  · by_cases hk : k = key
    · subst hk
      change r ∈ Function.update q.waiting k _ k at h
      rw [Function.update_self] at h
      exact Or.inr ⟨k, hw ▸ List.mem_cons_of_mem _ h⟩
    · change r ∈ Function.update q.waiting key _ k at h
      rw [Function.update_of_ne hk] at h
      exact Or.inr ⟨k, h⟩

namespace Saved
variable (h : Saved s q)
include h

theorem time (ht : Timed s s') : Saved s' q where
  restores := ht.always restores_time h.restores
  saved p hp := by
    rw [ht.context_eq, ht.same.pS]
    exact h.saved p hp

/-- An observation that changes no context. -/
theorem push {o : Obs T} (ho : Restores (o, s.m) s.hist) (hc : ∀ p, context p (s.push o).hist = context p s.hist) :
    Saved (s.push o) q where
  restores := ⟨ho, h.restores⟩
  saved p hp := (hc p).trans (h.saved p hp)

/-- Processor states stay, and those that rest have rested before. -/
theorem keep (hh : s'.hist = s.hist) (hpS : ∀ p, q.Resting p → (s'.m.pool.pcbs p).pS = (s.m.pool.pcbs p).pS)
    (hq : ∀ p, q'.Resting p → q.Resting p) : Saved s' q' where
  restores := hh ▸ h.restores
  saved p hp := by
    rw [hh, hpS p (hq p hp)]
    exact h.saved p (hq p hp)

theorem setMem (mem : Word → Word) : Saved (s.setMem mem) q := h.keep rfl (fun _ _ => rfl) fun _ => id

/-- `p` is put in the ready queue with its context saved. -/
theorem enqueued (prio : Pid → Int) {p : Pid} (l : Links Node)
    (hp : context p s.hist = some (s.m.pool.pcbs p).pS) : Saved (s.enqueued p l) (q.enqueue prio p) where
  restores := ⟨trivial, h.restores⟩
  saved r hr := by
    change context r s.hist = some ((s.resetPrio p).m.pool.pcbs r).pS
    rw [resetPrio_field Pcb.pS fun _ _ => rfl]
    rcases resting_enqueue hr with hr | rfl
    · exact h.saved r hr
    · exact hp

/-- `p` is taken from a waiting list. -/
theorem popped {key : Key} {p : Pid} {rest : List Pid} (l : Links Node) (hw : q.waiting key = p :: rest) :
    Saved (s.popped p l) (q.setWaiting key rest) ∧
      context p (s.popped p l).hist = some ((s.popped p l).m.pool.pcbs p).pS := by
  have hpS := popped_field Pcb.pS (fun _ _ => rfl) s p l
  refine ⟨h.keep rfl (fun r _ => hpS r) fun r hr => resting_pop hw hr, ?_⟩
  rw [hpS]
  exact h.saved p (Or.inr ⟨key, by rw [hw]; exact List.mem_cons_self⟩)

/-- The status of a completed operation goes to the context and to the PCB. -/
theorem completed (key : Key) (p : Pid) (status : Word) :
    Saved ((s.setPcb p fun x => { x with pS := x.pS.setReturn status }).push (.complete key p status)) q where
  restores := ⟨trivial, h.restores⟩
  saved r hr := by
    change context r ((.complete key p status, _) :: s.hist) =
      some ((s.setPcb p fun x => { x with pS := x.pS.setReturn status }).m.pool.pcbs r).pS
    unfold context
    by_cases hpr : p = r
    · subst hpr
      rw [if_pos rfl, h.saved p hr, setPcb_self]
      rfl
    · rw [if_neg hpr, h.saved r hr, setPcb_ne s _ (Ne.symm hpr)]

/-- A new process, not yet ready, has its first state for context. -/
theorem spawned {p : Pid} (l : Links Node) (st : CpuState T) (prio : Int) (hp : ¬ q.Resting p) :
    Saved (s.spawned p l st prio) (q.alloc p) ∧
      context p (s.spawned p l st prio).hist = some ((s.spawned p l st prio).m.pool.pcbs p).pS := by
  have hctx : ∀ r, context r (s.spawned p l st prio).hist = if p = r then some st else context r s.hist :=
    fun _ => rfl
  refine ⟨⟨⟨trivial, h.restores⟩, fun r hr => ?_⟩, ?_⟩
  · have hne : r ≠ p := fun he => hp (he ▸ hr)
    rw [hctx, if_neg (Ne.symm hne), spawned_pcbs, if_neg hne]
    exact h.saved r hr
  · rw [hctx, if_pos rfl, spawned_pcbs, if_pos rfl]

end Saved

end

/-- `p` called WAITIO, or PASSEREN on `key` itself. -/
def WaitsFor (p : Pid) (key : Key) (h : History T) : Prop :=
  ∃ e, entryOf p h = some e ∧ (IsCall e 6 ∨ IsCall e 5 ∧ e.st T.sysArg1 = key)

/-- A status is reported to someone who waits for it. -/
def Reports (n : Obs T × Machine T) (earlier : History T) : Prop :=
  match n.1 with
  | .complete key p _ => WaitsFor p key earlier
  | _ => True

end Bikaya.Results
