import Bikaya.Spec.Entries

/-!
# Device operations

What a run does to a device function: a WAITIO starts an operation, which is `Outstanding` until it is acknowledged;
the device ends it (`Progress`). `issued` reads off a history which process made the last WAITIO on a function.
-/

namespace Bikaya.Spec
open Bikaya.Lib Bikaya.Model

variable {T : Target}

/-- The operation of the function is in progress, or has ended and is not acknowledged. -/
def Outstanding (hw : Hw) (f : DevFn) : Prop := hw.status f = stBusy ∨ hw.pending f = true

instance (hw : Hw) (f : DevFn) : Decidable (Outstanding hw f) := by
  unfold Outstanding
  infer_instance

/-- What the devices do while no kernel code runs: some operations that were in progress have ended, with a status and
an interrupt. -/
def Progress (hw hw' : Hw) : Prop := ∀ f, hw'.command f = hw.command f ∧
  ((hw'.status f = hw.status f ∧ hw'.pending f = hw.pending f) ∨
    (hw.status f = stBusy ∧ hw'.status f ≠ stBusy ∧ hw'.pending f = true))

/-- No operation at all. -/
def NoOperation (hw : Hw) : Prop := ∀ f, ¬ Outstanding hw f ∧ ¬ Finished hw f

/-- The process that made the last WAITIO that the function accepted, and the command it wrote, unless it has been
killed since. -/
def issued (f : DevFn) : History T → Option (Pid × Word)
  | [] => none
  | (.waitIo p addr command, m) :: h =>
    if Hw.fnAt T addr = some f ∧ m.hw.inProgress f = false then some (p, command) else issued f h
  | (.bury p, _) :: h => (issued f h).filter fun i => decide (i.1 ≠ p)
  | _ :: h => issued f h

/-- The entry is a WAITIO that writes the command to the function. -/
def Starts (e : Entry T) (f : DevFn) (command : Word) : Prop :=
  IsCall e 6 ∧ command = e.st T.sysArg1 ∧
    Hw.fnAt T (commandAddr T (e.st T.sysArg2) ((e.st T.sysArg3).toNat % 256)) = some f

instance (e : Entry T) (f : DevFn) (command : Word) : Decidable (Starts e f command) := by
  unfold Starts
  infer_instance

theorem Progress.refl (hw : Hw) : Progress hw hw := fun _ => ⟨rfl, .inl ⟨rfl, rfl⟩⟩

theorem Progress.outstanding {hw hw' : Hw} (h : Progress hw hw') {f : DevFn} (ho : Outstanding hw' f) :
    Outstanding hw f := by
  rcases (h f).2 with ⟨hs, hp⟩ | ⟨hs, -, -⟩
  · unfold Outstanding at ho ⊢
    rwa [hs, hp] at ho
  · exact .inl hs

/-! ## Commands -/

/-- The registers of the function are the same. -/
structure SameFn (hw hw' : Hw) (f : DevFn) : Prop where
  status : hw'.status f = hw.status f
  command : hw'.command f = hw.command f
  pending : hw'.pending f = hw.pending f

theorem SameFn.refl (hw : Hw) (f : DevFn) : SameFn hw hw f := ⟨rfl, rfl, rfl⟩

theorem SameFn.trans {hw hw' hw'' : Hw} {f : DevFn} (h : SameFn hw hw' f) (h' : SameFn hw' hw'' f) :
    SameFn hw hw'' f :=
  ⟨h'.status.trans h.status, h'.command.trans h.command, h'.pending.trans h.pending⟩

theorem SameFn.finished {hw hw' : Hw} {f : DevFn} (h : SameFn hw hw' f) : Finished hw' f ↔ Finished hw f := by
  unfold Finished
  rw [h.status, h.pending]

theorem SameFn.outstanding {hw hw' : Hw} {f : DevFn} (h : SameFn hw hw' f) : Outstanding hw' f ↔ Outstanding hw f := by
  unfold Outstanding
  rw [h.status, h.pending]

theorem sameFn_issue {hw : Hw} {f g : DevFn} (cmd : Word) (h : g ≠ f) : SameFn hw (hw.issue f cmd) g := by
  unfold Hw.issue
  split
  · exact .refl hw g
  · exact ⟨Function.update_of_ne h _ _, Function.update_of_ne h _ _, Function.update_of_ne h _ _⟩

section
variable {hw : Hw} {f : DevFn} {cmd : Word}

/-- A frozen register keeps its operation. -/
theorem issue_inProgress (h : hw.inProgress f = true) : hw.issue f cmd = hw := if_pos h

theorem outstanding_of_inProgress (h : hw.inProgress f = true) : Outstanding hw f := by
  unfold Hw.inProgress at h
  rw [Bool.and_eq_true, beq_iff_eq] at h
  exact .inl h.1

theorem not_finished_of_inProgress (h : hw.inProgress f = true) : ¬ Finished hw f := by
  unfold Hw.inProgress at h
  rw [Bool.and_eq_true, beq_iff_eq, Bool.not_eq_true'] at h
  unfold Finished
  rw [h.1, h.2]
  split
  · exact fun h => Bool.false_ne_true h.2
  · exact fun h => absurd h.2 (by decide)

theorem Finished.not_inProgress (h : Finished hw f) : hw.inProgress f = false :=
  Bool.eq_false_iff.mpr fun hp => not_finished_of_inProgress hp h

theorem outstanding_issue (h : hw.inProgress f = false) : Outstanding (hw.issue f cmd) f ↔ cmd ≠ cmdAck := by
  unfold Outstanding Hw.issue
  rw [if_neg (Bool.eq_false_iff.mp h)]
  dsimp only
  rw [Function.update_self, Function.update_self]
  by_cases hc : cmd = cmdAck
  · rw [if_pos hc]
    exact iff_of_false (by decide) fun h => h hc
  · rw [if_neg hc]
    exact iff_of_true (.inl rfl) hc

theorem command_issue (h : hw.inProgress f = false) : (hw.issue f cmd).command f = cmd := by
  unfold Hw.issue
  rw [if_neg (Bool.eq_false_iff.mp h)]
  exact Function.update_self f cmd hw.command

/-- Nothing has ended right after a command. -/
theorem not_finished_issue : ¬ Finished (hw.issue f cmd) f := by
  cases hp : hw.inProgress f with
  | true =>
    rw [issue_inProgress hp]
    exact not_finished_of_inProgress hp
  | false =>
    unfold Finished Hw.issue
    rw [if_neg (Bool.eq_false_iff.mp hp)]
    dsimp only
    rw [Function.update_self, Function.update_self]
    split
    · exact fun h => Bool.false_ne_true h.2
    · refine fun h => absurd h.2 ?_
      split <;> decide

end
end Bikaya.Spec
