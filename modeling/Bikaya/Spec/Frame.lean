import Bikaya.Spec.Operations
import Bikaya.Spec.Steps

/-!
# What a step leaves alone

`Step.mem` : besides its results (`Writes`) a kernel entry changes in memory only the semaphore of a VERHOGEN or
PASSEREN, by one. `Step.others` : of a process that does not run at the entry it changes nothing but the priority, the
place in the queues and, when it reports the end of an operation to it, the result.
-/

namespace Bikaya.Spec
open Bikaya.Lib Bikaya.Model Bikaya.Model.KM

variable {T : Target} {cfg : Cfg T} {S S' S₁ : System T} {e : Entry T} {p : Pid} {a : Word}

/-! ## Memory -/

/-- The entry writes a result at `a`, or saves there the state of the running process for its handler. -/
def Writes (S : System T) (e : Entry T) (a : Word) : Prop :=
  (IsCall e 1 ∧ (a = e.st T.sysArg1 ∨ a = e.st T.sysArg2 ∨ a = e.st T.sysArg3)) ∨
  (IsCall e 2 ∧ a = e.st T.sysArg3) ∨
  (IsCall e 6 ∧ a = commandAddr T (e.st T.sysArg2) ((e.st T.sysArg3).toNat % 256)) ∨
  (IsCall e 8 ∧ (a = e.st T.sysArg1 ∨ a = e.st T.sysArg2)) ∨
  ∃ p ∈ S.running, ∃ x ∈ S.process p, ∃ type ∈ trap e, x.newArea type ≠ 0 ∧
    (a - x.oldArea type).toNat < 4 * T.stateWords

instance (S : System T) (e : Entry T) (a : Word) : Decidable (Writes S e a) := by
  unfold Writes
  infer_instance

theorem mem_store (S : System T) {b : Word} (hb : a ≠ b) (w : Word) : (S.store b w).mem a = S.mem a :=
  Function.update_of_ne hb _ _

theorem mem_storeAt (S : System T) {b : Word} (hb : a ≠ b) (w : Word) : (S.storeAt b w).mem a = S.mem a := by
  unfold System.storeAt
  split
  · exact mem_store S hb w
  · rfl

theorem mem_command (S : System T) {b : Word} (hb : a ≠ b) (cmd : Word) : (S.command b cmd).mem a = S.mem a := by
  unfold System.command
  split
  · rfl
  · exact mem_store S hb cmd

theorem storeState_outside {mem : Word → Word} {b : Word} (st : CpuState T) (h : ¬ (a - b).toNat < 4 * T.stateWords) :
    storeState mem b st a = mem a := by
  unfold storeState
  dsimp only
  rw [dif_neg]
  omega

/-- What a VERHOGEN or PASSEREN of `a` makes of its value. -/
def semValue (S : System T) (e : Entry T) (a : Word) : Word :=
  if IsCall e 4 ∧ e.st T.sysArg1 = a ∧ S.waiting a = [] then e.mem a + 1
  else if IsCall e 5 ∧ e.st T.sysArg1 = a ∧ e.mem a ≠ 0 then e.mem a - 1
  else e.mem a

theorem semValue_of_not (h₄ : ¬ IsCall e 4) (h₅ : ¬ IsCall e 5) : semValue S e a = e.mem a := by
  unfold semValue
  rw [if_neg fun h => h₄ h.1, if_neg fun h => h₅ h.1]

theorem Call.mem {c : CpuState T} (h : Call cfg e (S.entered e) c S') (hw : ¬ Writes S e a) :
    S'.mem a = semValue S e a := by
  unfold Writes at hw
  push Not at hw
  obtain ⟨h1, h2, h6, h8, -⟩ := hw
  have hother : ∀ {n}, IsCall e n → n ≠ 4 → n ≠ 5 → semValue S e a = e.mem a := fun hc h4 h5 =>
    semValue_of_not (fun h => h4 (isCall_unique hc h)) fun h => h5 (isCall_unique hc h)
  cases h with
  | getCpuTime _ _ _ hc _ =>
    obtain ⟨ha₁, ha₂, ha₃⟩ := h1 hc
    rw [hother hc (by decide) (by decide), mem_store _ ha₂, mem_store _ ha₁, mem_store _ ha₃]
    rfl
  | createFull hc _ => exact (hother hc (by decide) (by decide)).symm
  | create hc _ _ _ =>
    rw [hother hc (by decide) (by decide), mem_storeAt _ (h2 hc)]
    rfl
  | terminateDead hc _ _ => exact (hother hc (by decide) (by decide)).symm
  | terminate hc _ _ => exact (hother hc (by decide) (by decide)).symm
  | handOver hc hwaiting =>
    have hwaiting : S.waiting (e.st T.sysArg1) = _ := hwaiting
    unfold semValue
    rw [if_neg, if_neg fun h => absurd (isCall_unique hc h.1) (by decide)]
    · rfl
    · rintro ⟨-, rfl, hnil⟩
      rw [hwaiting] at hnil
      cases hnil
  | raise hc hnil =>
    have hnil : S.waiting (e.st T.sysArg1) = [] := hnil
    unfold semValue
    by_cases ha : e.st T.sysArg1 = a
    · subst ha
      rw [if_pos ⟨hc, rfl, hnil⟩]
      exact Function.update_self _ _ _
    · rw [if_neg fun h => ha h.2.1, if_neg fun h => ha h.2.1]
      exact mem_store _ (Ne.symm ha) _
  | pass hc hne =>
    unfold semValue
    rw [if_neg fun h => absurd (isCall_unique hc h.1) (by decide)]
    by_cases ha : e.st T.sysArg1 = a
    · subst ha
      rw [if_pos ⟨hc, rfl, hne⟩]
      exact Function.update_self _ _ _
    · rw [if_neg fun h => ha h.2.1]
      exact mem_store _ (Ne.symm ha) _
  | wait hc hzero _ =>
    unfold semValue
    rw [if_neg fun h => absurd (isCall_unique hc h.1) (by decide), if_neg]
    · rfl
    · rintro ⟨-, rfl, hne⟩
      exact hne hzero
  | waitIo hc hsub _ =>
    rw [hother hc (by decide) (by decide), hsub]
    exact mem_command _ (h6 hc) _
  | register hc _ _ _ _ => exact (hother hc (by decide) (by decide)).symm
  | registerTwice hc _ _ _ _ => exact (hother hc (by decide) (by decide)).symm
  | getPid hc _ =>
    rw [hother hc (by decide) (by decide), mem_storeAt _ (h8 hc).2, mem_storeAt _ (h8 hc).1]
    rfl

/-- The memory after a kernel entry. -/
theorem Step.mem {st : CpuState T} (h : Step cfg S e st S') (hw : ¬ Writes S e a) : S'.mem a = semValue S e a := by
  by_cases hcall : ∃ n, 1 ≤ n ∧ n ≤ 8 ∧ IsCall e n
  · obtain ⟨n, hlo, hhi, hn⟩ := hcall
    obtain ⟨c, S₁, hc, hl⟩ := h.of_isCall hn hlo hhi
    rw [hl.rescheduled.mem, hc.mem hw]
  · rw [semValue_of_not (fun hc => hcall ⟨4, by decide, by decide, hc⟩) fun hc => hcall ⟨5, by decide, by decide, hc⟩]
    cases h with
    | call hc _ => exact absurd (isCall_of_call hc) hcall
    | breakpoint _ _ hl => rw [hl.rescheduled.mem]; rfl
    | exception htrap hh =>
      cases hh with
      | @passUp p x _ hp hx hnew hmem =>
        subst hmem
        refine storeState_outside _ fun hlt => hw ?_
        exact Or.inr (Or.inr (Or.inr (Or.inr ⟨p, hp, x, hx, _, htrap, hnew, hlt⟩)))
      | die _ _ _ hd => rw [hd.rescheduled.mem]; rfl
    | interrupt _ hc hl =>
      rw [hl.rescheduled.mem, hc.mem]
      rfl

/-! ## Other processes -/

/-- What is a process's own: everything but its priority. -/
abbrev Own (T : Target) : Type := CpuState T × Int × Option Pid × (Fin 3 → Word) × (Fin 3 → Word)

def Process.own (x : Process T) : Own T := (x.context, x.original, x.parent, x.newArea, x.oldArea)

def System.own (S : System T) (p : Pid) : Option (Own T) := (S.process p).map Process.own

theorem own_alter_ne (S : System T) {r : Pid} (hr : p ≠ r) (f : Process T → Process T) : (S.alter r f).own p = S.own p := by
  simp [System.own, System.alter, hr]

theorem own_wake (S : System T) (r : Pid) : (S.wake r).own p = S.own p := by
  by_cases hr : p = r
  · subst hr
    cases hx : S.process p <;> simp [System.own, System.wake, System.alter, hx, Process.own]
  · exact own_alter_ne S hr _

theorem own_preempt (arith : PrioArith) (S : System T) {r : Pid} (hr : p ≠ r) (st : CpuState T) :
    (S.preempt arith r st).own p = S.own p := by
  refine (own_wake ((S.age arith).save r st) r).trans ((own_alter_ne _ hr _).trans ?_)
  by_cases hp : p ∈ S.ready <;> cases hx : S.process p <;> simp [System.own, System.age, hp, hx, Process.own]

theorem own_spawn (S : System T) {r : Pid} (hr : p ≠ r) (st : CpuState T) (prio : Int) (parent : Option Pid) :
    (S.spawn r st prio parent).own p = S.own p := by
  refine (own_wake _ r).trans ?_
  simp [System.own, hr]

theorem own_storeAt (S : System T) (b w : Word) : (S.storeAt b w).own p = S.own p := by
  unfold System.storeAt
  split <;> rfl

theorem own_command (S : System T) (b cmd : Word) : (S.command b cmd).own p = S.own p := by
  unfold System.command
  split <;> rfl

theorem own_kill (S : System T) (v : Pid) (hlive : (S.kill v).process p ≠ none) : (S.kill v).own p = S.own p := by
  have hs : S.spared v p = true := by
    by_contra hs
    exact hlive (if_neg hs)
  simp [System.own, System.kill, hs]

theorem Dispatch.own {st : CpuState T} (h : Dispatch cfg S st S') : S'.own p = S.own p := by
  cases h <;> rfl

theorem Leave.own {ended : Bool} {c st : CpuState T} (h : Leave cfg S ended c st S') (hp : S.running ≠ some p) :
    S'.own p = S.own p := by
  cases h with
  | resume _ _ => rfl
  | preempt hr _ hd => exact hd.own.trans (own_preempt _ S (fun he => hp (by rw [he]; exact hr)) c)
  | dispatch _ hd => exact hd.own

theorem Call.own {c : CpuState T} (h : Call cfg e (S.entered e) c S') (hp : S.running ≠ some p)
    (hlive : S.process p ≠ none) (hlive' : S'.process p ≠ none) : S'.own p = S.own p ∧ S'.running ≠ some p := by
  have hne : ∀ {r}, S.running = some r → p ≠ r := fun hr he => hp (he ▸ hr)
  cases h with
  | getCpuTime _ _ _ _ _ => exact ⟨rfl, hp⟩
  | createFull _ _ => exact ⟨rfl, hp⟩
  | create _ _ hdead _ =>
    refine ⟨(own_storeAt _ _ _).trans (own_spawn (S.entered e) (fun he => ?_) _ _ _), ?_⟩
    · subst he
      exact hlive hdead
    · unfold System.storeAt
      split <;> exact hp
  | terminateDead _ _ _ => exact ⟨rfl, hp⟩
  | terminate _ _ _ =>
    exact ⟨own_kill (S.entered e) _ hlive', fun hr => hp (Option.filter_eq_some_iff.mp hr).1⟩
  | handOver _ _ => exact ⟨own_wake _ _, hp⟩
  | raise _ _ => exact ⟨rfl, hp⟩
  | pass _ _ => exact ⟨rfl, hp⟩
  | wait _ _ hr => exact ⟨own_alter_ne (S.entered e) (hne hr) _, by simp [System.block]⟩
  | waitIo _ _ hr =>
    exact ⟨(own_alter_ne _ (hne hr) _).trans (own_command (S.entered e) _ _), by simp [System.block]⟩
  | register _ _ hr _ _ => exact ⟨own_alter_ne (S.entered e) (hne hr) _, hp⟩
  | registerTwice _ _ _ _ _ =>
    exact ⟨own_kill (S.entered e) _ hlive', fun hr => hp (Option.filter_eq_some_iff.mp hr).1⟩
  | getPid _ _ =>
    refine ⟨(own_storeAt _ _ _).trans (own_storeAt _ _ _), ?_⟩
    unfold System.storeAt
    split <;> split <;> exact hp

/-- The same with `w` as the result of its system call. -/
def System.result (S : System T) (p : Pid) (w : Word) : Option (Own T) :=
  (S.process p).map fun x => { x with context := x.context.setReturn w }.own

theorem Completes.own {fs : List DevFn} (h : Completes cfg S fs S') (hw : Hw) (hfit : Fit S none) (hnd : fs.Nodup)
    (hstatus : ∀ f ∈ fs, S.hw.status f = hw.status f) :
    S'.own p = S.own p ∨ ∃ f ∈ fs, p ∈ S.waiting (devKey cfg f) ∧ S'.own p = S.result p (hw.status f) := by
  induction h with
  | nil => exact Or.inl rfl
  | @cons S S' f fs r rest hwait h ih =>
    obtain ⟨hf, hnd⟩ := List.nodup_cons.mp hnd
    have hfit' : Fit (S.complete cfg f r rest) none := (Moves.refl.complete hwait).keeps fit_move hfit
    have hstatus' : ∀ g ∈ fs, (S.complete cfg f r rest).hw.status g = hw.status g := by
      intro g hg
      have hne : g ≠ f := fun he => hf (he ▸ hg)
      rw [← hstatus g (List.mem_cons_of_mem _ hg)]
      exact (sameFn_issue cmdAck hne).status
    have hr : r ∈ S.waiting (devKey cfg f) := by
      rw [hwait]
      exact List.mem_cons_self
    have hsub : ∀ key, ((S.complete cfg f r rest).waiting key).Sublist (S.waiting key) := fun key =>
      (Completes.cons hwait (.nil _)).sublist key
    by_cases hp : p = r
    · subst hp
      refine Or.inr ⟨f, List.mem_cons_self, hr, ?_⟩
      have hready : p ∈ (S.complete cfg f p rest).ready := by
        show p ∈ insertPrio _ p _
        simp
      have hown : (S.complete cfg f p rest).own p = S.result p (hw.status f) := by
        rw [← hstatus f List.mem_cons_self]
        cases hx : S.process p <;>
          simp [System.own, System.result, System.complete, System.wake, System.alter, System.setWaiting, hx, Process.own]
      rcases ih hfit' hnd hstatus' with ho | ⟨g, _, hg, _⟩
      · exact ho.trans hown
      · exact absurd (hfit'.unique (a := .ready) (b := .waiting _) hready hg) (by simp)
    · have hown : (S.complete cfg f r rest).own p = S.own p :=
        (own_alter_ne _ hp _).trans (own_wake (S.setWaiting (devKey cfg f) rest) r)
      have hresult : ∀ w, (S.complete cfg f r rest).result p w = S.result p w := by
        intro w
        simp [System.result, System.complete, System.wake, System.alter, System.setWaiting, hp]
      rcases ih hfit' hnd hstatus' with ho | ⟨g, hg, hmem, ho⟩
      · exact Or.inl (ho.trans hown)
      · exact Or.inr ⟨g, List.mem_cons_of_mem _ hg, (hsub _).subset hmem, ho.trans (hresult _)⟩

theorem nodup_completions (e : Entry T) : (completions e).Nodup := by
  refine List.Nodup.filter _ ?_
  decide

/-- What a kernel entry does to a process that does not run. -/
theorem Step.others {st : CpuState T} (h : Step cfg S e st S') (hfit : Fit S none) (hp : S.running ≠ some p)
    (hlive : S.process p ≠ none) (hlive' : S'.process p ≠ none) :
    S'.own p = S.own p ∨
    e.area = .int ∧ ∃ f ∈ completions e, p ∈ S.waiting (devKey cfg f) ∧ S'.own p = S.result p (e.hw.status f) := by
  cases h with
  | call hc hl =>
    have hlive₁ := (hl.rescheduled.lives p).mp hlive'
    obtain ⟨hown, hrun⟩ := hc.own hp hlive hlive₁
    exact Or.inl ((hl.own hrun).trans hown)
  | breakpoint _ _ hl => exact Or.inl (hl.own hp)
  | exception _ hh =>
    cases hh with
    | passUp _ _ _ _ => exact Or.inl rfl
    | die _ _ _ hd => exact Or.inl (hd.own.trans (own_kill (S.entered e) _ ((hd.rescheduled.lives p).mp hlive')))
  | interrupt harea hc hl =>
    have hfit' : Fit (S.entered e) none := hfit.congr rfl rfl rfl fun _ => Iff.rfl
    rw [hl.own (fun hr => hp (hc.running.symm.trans hr))]
    rcases hc.own (p := p) e.hw hfit' (nodup_completions e) (fun _ _ => rfl) with ho | ⟨f, hf, hw, ho⟩
    · exact Or.inl ho
    · exact Or.inr ⟨harea, f, hf, hw, ho⟩

end Bikaya.Spec
