import Bikaya.Kernel.Replay

/-!
# Blocking never loses a process

`scheduler_block_current` ignores the result of `asl_insert_blocked`. It may: there is a free descriptor for
every process that blocks (`insertBlocked_run`), so in every run the call succeeds (`block_waits`).
-/

namespace Bikaya.Results
open Bikaya.Lib Bikaya.Model Bikaya.Spec Bikaya.Refine Bikaya.Kernel

variable {T : Target} {cfg : Cfg T}

/-- A process that blocked is in the queue of its key, and nobody is current. -/
def Waits (n : Obs T × Machine T) : Prop :=
  match n.1 with
  | .block p key full => full = false ∧ n.2.currentProc = none ∧ p ∈ waitingList n.2 key
  | _ => True

theorem waits_time {n : Obs T × Machine T} (hn : IsTime n.1) : Waits n := by
  obtain ⟨o, m⟩ := n
  cases o <;> first | exact hn.elim | exact trivial

theorem waits_timed {s s' : KState T} (ht : Timed s s') (h : Always (fun n _ => Waits n) s.hist) :
    Always (fun n _ => Waits n) s'.hist :=
  ht.always (fun _ _ => waits_time) h

/-- Only blocking processes say so, and they wait. -/
theorem waits_act {s s' : KState T} {q q' : Queues} {out' : List Pid} (hs' : Sound s'.m.pool q' out')
    (ha : Act cfg s q s' q') (h : Always (fun n _ => Waits n) s.hist) : Always (fun n _ => Waits n) s'.hist := by
  cases ha with
  | time ht => exact waits_timed ht h
  | areas => exact h
  | output => exact h
  | register => exact h
  | resume => exact ⟨trivial, h⟩
  | passUp => exact ⟨trivial, h⟩
  | idle => exact ⟨trivial, h⟩
  | preempt => exact ⟨trivial, trivial, h⟩
  | dispatch hr ht => exact ⟨trivial, waits_timed ht ⟨trivial, h⟩⟩
  | @block s₁ s₂ _ p key st pool hcur hq hc hb ht hpool =>
    have h₁ : Always (fun n _ => Waits n) s₁.hist := by
      cases hb with
      | passeren => exact ⟨trivial, h⟩
      | waitIo command device subdev _ =>
        rw [commanded_hist]
        exact ⟨trivial, h⟩
    have h₂ : Always (fun n _ => Waits n) s₂.hist := waits_timed ht h₁
    refine ⟨⟨rfl, rfl, ?_⟩, h₂⟩
    change p ∈ waitingList (s₂.blockedOn pool p key).m key
    rw [hs'.rep.waitingList_eq]
    change p ∈ Function.update q.waiting key (insertPrio _ p _) key
    rw [Function.update_self]
    exact (mem_insertPrio _ p).mpr (Or.inl rfl)
  | handOver => exact ⟨trivial, trivial, h⟩
  | verhogen => exact ⟨trivial, h⟩
  | passeren => exact ⟨trivial, h⟩
  | serve =>
    refine ⟨trivial, ?_⟩
    rw [commanded_hist]
    exact ⟨trivial, trivial, h⟩
  | spawn => exact ⟨trivial, trivial, h⟩
  | adopt => exact h
  | quit => exact h
  | bury => exact ⟨trivial, h⟩

/-- Wherever a process has blocked in a run, the insertion went well and the process waits. -/
theorem block_waits {s : KState T} (h : Run cfg (Lawful cfg) s) {p : Pid} {key : Key} {full : Bool}
    {m : Machine T} (hn : (.block p key full, m) ∈ s.hist) :
    full = false ∧ m.currentProc = none ∧ p ∈ waitingList m key := by
  obtain ⟨q, -, hi⟩ := run_keeps (I := fun s _ => Always (fun n _ => Waits n) s.hist) id
    (fun h₀ => by rw [h₀.hist]; exact trivial) (fun _ _ hi => ⟨trivial, hi⟩)
    (fun _ hs' ha hi => waits_act hs' ha hi) h
  exact Always.of_mem (Q := Waits) hi hn

/-- The first process blocks on a semaphore at zero. -/
def blocked : KState .umps := after demo (booted demo) (syscall (booted demo) 5 0x300 0 0)

def isBlock : Obs T → Bool
  | .block p key full => decide (p = 19 ∧ key = 0x300 ∧ full = false)
  | _ => false

theorem eq_of_isBlock (o : Obs T) (h : isBlock o = true) : o = .block 19 0x300 false := by
  cases o with
  | block p key full =>
    obtain ⟨rfl, rfl, rfl⟩ := of_decide_eq_true h
    rfl
  | _ => cases h

/-- It waits there. -/
theorem block_waits_blocked : ∃ m, (.block 19 0x300 false, m) ∈ blocked.hist ∧ m.currentProc = none ∧
    19 ∈ waitingList m 0x300 := by
  have h : Run demo (Lawful demo) blocked :=
    run_after (run_booted demo _) (lawful_of_check (by decide +kernel)) (by decide +kernel)
  obtain ⟨m, hm⟩ := exists_mem_hist eq_of_isBlock (s := blocked) (by decide +kernel)
  exact ⟨m, hm, (block_waits h hm).2⟩

end Bikaya.Results
