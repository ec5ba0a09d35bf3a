import Mathlib.Data.Set.Card
import Bikaya.Spec.Queues

/-!
# What `asl.c` is for

A `BlockedMap` gives every semaphore key its waiting list, in priority order, and every PCB its `p_semkey`.
`step` says what each operation of `asl.c` does to it and returns; `run` is a sequence of operations. At most
`maxProc` keys have waiters at a time.
-/

namespace Bikaya.Spec
open Bikaya.Lib Bikaya.Model

structure BlockedMap where
  waiting : Key → List Pid
  semkey : Pid → Key

inductive AslOp where
  | insertBlocked (key : Key) (p : Pid)
  | removeBlocked (key : Key)
  | findAndRemoveBlocked (p : Pid)
  | blockedHead (key : Key)
  | semd (key : Key)

inductive AslResult where
  /-- Whether there was no descriptor left. -/
  | full (b : Bool)
  | pcb (p : Option Pid)
  /-- Whether the key has a descriptor. -/
  | found (b : Bool)
deriving DecidableEq

namespace BlockedMap

/-- The keys that somebody waits on. -/
def activeKeys (m : BlockedMap) : Set Key := { k | m.waiting k ≠ [] }

/-- Behind everyone of at least `p`'s priority, ahead of everyone of lower priority. -/
def place (prio : Pid → Int) (p : Pid) (xs : List Pid) : List Pid :=
  xs.filter (fun x => decide (prio p ≤ prio x)) ++ p :: xs.filter (fun x => decide (prio x < prio p))

noncomputable def step (prio : Pid → Int) (m : BlockedMap) : AslOp → AslResult × BlockedMap
  | .insertBlocked key p =>
    if m.waiting key = [] ∧ m.activeKeys.ncard = maxProc then (.full true, m)
    else (.full false, { waiting := Function.update m.waiting key (place prio p (m.waiting key))
                         semkey := Function.update m.semkey p key })
  | .removeBlocked key =>
    match m.waiting key with
    | [] => (.pcb none, m)
    | p :: xs => (.pcb (some p), { waiting := Function.update m.waiting key xs
                                   semkey := Function.update m.semkey p 0 })
  | .findAndRemoveBlocked p =>
    if p ∈ m.waiting (m.semkey p) then
      (.pcb (some p), { m with waiting := Function.update m.waiting (m.semkey p) ((m.waiting (m.semkey p)).erase p) })
    else (.pcb none, m)
  | .blockedHead key => (.pcb (m.waiting key).head?, m)
  | .semd key => (.found (decide (m.waiting key ≠ [])), m)

/-- Whoever waits afterwards waited before or was made to. -/
theorem mem_step {prio : Pid → Int} {m : BlockedMap} {op : AslOp} {k : Key} {p : Pid}
    (hp : p ∈ (m.step prio op).2.waiting k) : (∃ k', p ∈ m.waiting k') ∨ ∃ key, op = .insertBlocked key p := by
  -- one waiting list changes, and loses its members or gets one more
  have hupdate : ∀ {key : Key} {xs : List Pid}, p ∈ Function.update m.waiting key xs k → p ∈ m.waiting k ∨ p ∈ xs := by
    intro key xs hm
    by_cases hk : k = key
    · subst hk
      rw [Function.update_self] at hm
      exact Or.inr hm
    · rw [Function.update_of_ne hk] at hm
      exact Or.inl hm
  cases op with
  | insertBlocked key r =>
    by_cases hfull : m.waiting key = [] ∧ m.activeKeys.ncard = maxProc
    · simp only [step, if_pos hfull] at hp
      exact Or.inl ⟨k, hp⟩
    · simp only [step, if_neg hfull] at hp
      rcases hupdate hp with hm | hm
      · exact Or.inl ⟨k, hm⟩
      · rcases List.mem_append.mp hm with hm | hm
        · exact Or.inl ⟨key, List.mem_of_mem_filter hm⟩
        · rcases List.mem_cons.mp hm with rfl | hm
          · exact Or.inr ⟨key, rfl⟩
          · exact Or.inl ⟨key, List.mem_of_mem_filter hm⟩
  | removeBlocked key =>
    cases hw : m.waiting key with
    | nil =>
      simp only [step, hw] at hp
      exact Or.inl ⟨k, hp⟩
    | cons r xs =>
      simp only [step, hw] at hp
      rcases hupdate hp with hm | hm
      · exact Or.inl ⟨k, hm⟩
      · exact Or.inl ⟨key, hw ▸ List.mem_cons_of_mem _ hm⟩
  | findAndRemoveBlocked r =>
    by_cases hr : r ∈ m.waiting (m.semkey r)
    · simp only [step, if_pos hr] at hp
      rcases hupdate hp with hm | hm
      · exact Or.inl ⟨k, hm⟩
      · exact Or.inl ⟨_, List.mem_of_mem_erase hm⟩
    · simp only [step, if_neg hr] at hp
      exact Or.inl ⟨k, hp⟩
  | blockedHead key => exact Or.inl ⟨k, hp⟩
  | semd key => exact Or.inl ⟨k, hp⟩

noncomputable def run (prio : Pid → Int) : BlockedMap → List AslOp → List AslResult × BlockedMap
  | m, [] => ([], m)
  | m, op :: ops =>
    let r := run prio (m.step prio op).2 ops
    ((m.step prio op).1 :: r.1, r.2)

/-- An operation may insert a PCB only when it is in no queue: neither waiting nor in the lists of `q`. -/
def Allowed (q : Queues) (m : BlockedMap) : AslOp → Prop
  | .insertBlocked _ p => ¬ ({ q with waiting := m.waiting } : Queues).Queued p ∧ p < pcbObjects
  | _ => True

/-- Every operation of a sequence is allowed where it happens. -/
def AllAllowed (q : Queues) (prio : Pid → Int) : BlockedMap → List AslOp → Prop
  | _, [] => True
  | m, op :: ops => m.Allowed q op ∧ AllAllowed q prio (m.step prio op).2 ops

end BlockedMap
end Bikaya.Spec
