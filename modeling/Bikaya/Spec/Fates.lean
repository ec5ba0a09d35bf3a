import Bikaya.Spec.Steps

/-!
# The life of a process

`Fate cfg S e S' p` : what a kernel entry may do to `p`. A process is born by a CREATEPROCESS only, is then ready as a
child of the caller, which goes on, and dies by a sentence over itself or an ancestor; who runs or is ready stays so or
blocks; who waits for a key goes on waiting or is woken by what raises this key. Every step keeps to it (`Step.fate`).
-/

namespace Bikaya.Spec
open Bikaya.Lib Bikaya.Model

variable {T : Target} {cfg : Cfg T} {S S' S₁ : System T} {e : Entry T} {p : Pid} {key : Key}

/-- The entry is a VERHOGEN of `key`, or reports the end of an operation of the device with this key. -/
def Unblocks (cfg : Cfg T) (e : Entry T) (key : Key) : Prop :=
  IsCall e 4 ∧ key = e.st T.sysArg1 ∨ e.area = .int ∧ ∃ f ∈ completions e, devKey cfg f = key

structure Fate (cfg : Cfg T) (S : System T) (e : Entry T) (S' : System T) (p : Pid) : Prop where
  born : S.process p = none → S'.process p ≠ none →
    IsCall e 2 ∧ p ∈ S'.ready ∧ S.running ≠ none ∧ S'.running = S.running ∧ S'.parent p = S.running
  dies : S.process p ≠ none → S'.process p = none → ∃ v, Sentences cfg S e v ∧ Desc S.Child v p
  goes : Active S p → S'.process p ≠ none → Active S' p ∨ ∃ key, Blocks cfg S e key p ∧ p ∈ S'.waiting key
  wakes : ∀ {key}, p ∈ S.waiting key → S'.process p ≠ none → p ∈ S'.waiting key ∨ Active S' p ∧ Unblocks cfg e key
  waits : ∀ {key}, p ∈ S'.waiting key → p ∈ S.waiting key ∨ Blocks cfg S e key p

namespace Fate

theorem of_alike (h : Alike S S') : Fate cfg S e S' p where
  born hdead hlive := absurd hdead ((h.lives p).mp hlive)
  dies hlive hdead := absurd hdead ((h.lives p).mpr hlive)
  goes ha _ := Or.inl ((h.active p).mpr ha)
  wakes hw _ := Or.inl (by rwa [h.waiting])
  waits hw := Or.inl (by rwa [← h.waiting])

/-- What comes after it moves nobody, and if it is a call the caller goes on. -/
theorem then_same (h : Fate cfg S e S₁ p) (hwaiting : S'.waiting = S₁.waiting)
    (hlives : S'.process p ≠ none ↔ S₁.process p ≠ none) (hparent : S'.parent p = S₁.parent p)
    (hactive : Active S' p ↔ Active S₁ p)
    (hcaller : IsCall e 2 → S₁.running ≠ none → S'.ready = S₁.ready ∧ S'.running = S₁.running) : Fate cfg S e S' p where
  born hdead hlive := by
    obtain ⟨hcall, hready, hrun, hsame, hpar⟩ := h.born hdead (hlives.mp hlive)
    obtain ⟨hready', hrun'⟩ := hcaller hcall (hsame ▸ hrun)
    exact ⟨hcall, hready' ▸ hready, hrun, hrun'.trans hsame, hparent.trans hpar⟩
  dies hlive hdead := h.dies hlive (by rwa [not_iff_not.mp hlives] at hdead)
  goes ha hlive := by
    rw [hactive, hwaiting]
    exact h.goes ha (hlives.mp hlive)
  wakes hw hlive := by
    rw [hactive, hwaiting]
    exact h.wakes hw (hlives.mp hlive)
  waits hw := by
    rw [hwaiting] at hw
    exact h.waits hw

/-- A time slice ends at interrupts only. -/
theorem then_leave {ended : Bool} {c st : CpuState T} (h : Fate cfg S e S₁ p) (hended : ended = true → e.area = .int)
    (hl : Leave cfg S₁ ended c st S') : Fate cfg S e S' p := by
  refine h.then_same hl.rescheduled.waiting (hl.rescheduled.lives p) (hl.rescheduled.parent p) (hl.active p)
    fun hcall hrun => ?_
  cases hl with
  | resume _ _ => exact ⟨rfl, rfl⟩
  | preempt _ he _ => exact absurd (hcall.1.symm.trans (hended he)) (by decide)
  | dispatch hnone _ => exact absurd hnone hrun

theorem then_alike (h : Fate cfg S e S₁ p) (hs : Alike S₁ S') : Fate cfg S e S' p :=
  h.then_same hs.waiting (hs.lives p) (hs.parent p) (hs.active p) fun _ _ => ⟨hs.ready, hs.running⟩

theorem spawn {r parent : Pid} {st : CpuState T} {prio : Int} (hcall : IsCall e 2) (hdead : S.process r = none)
    (hrun : S.running = some parent) : Fate cfg S e ((S.entered e).spawn r st prio (some parent)) p := by
  have hlives : ((S.entered e).spawn r st prio (some parent)).process p ≠ none ↔ S.process p ≠ none ∨ p = r := by
    refine (lives_wake _ r p).trans ?_
    by_cases hp : p = r <;> simp [System.entered, hp]
  have hactive : Active ((S.entered e).spawn r st prio (some parent)) p ↔ Active S p ∨ p = r := active_wake _ r p
  refine ⟨fun hnone hlive => ?_, fun hlive hnone => ?_, fun ha _ => ?_, fun hw _ => Or.inl hw, fun hw => Or.inl hw⟩
  · have hp : p = r := (hlives.mp hlive).resolve_left fun h => h hnone
    subst hp
    refine ⟨hcall, (mem_insertPrio _ p).mpr (Or.inl rfl), by simp [hrun], rfl, ?_⟩
    simp [System.parent, System.spawn, System.wake, System.alter, hrun]
  · exact absurd hnone (hlives.mpr (Or.inl hlive))
  · exact Or.inl (hactive.mpr (Or.inl ha))

theorem kill {v : Pid} (hv : Sentences cfg S e v) : Fate cfg S e ((S.entered e).kill v) p := by
  have hlives : ((S.entered e).kill v).process p ≠ none ↔ S.process p ≠ none ∧ (S.entered e).spared v p = true := by
    show (if (S.entered e).spared v p then S.process p else none) ≠ none ↔ _
    cases hs : (S.entered e).spared v p <;> simp
  refine ⟨fun hdead hlive => ?_, fun hlive hdead => ?_, fun ha hlive => ?_, fun hw hlive => ?_, fun hw => ?_⟩
  · exact absurd hdead (hlives.mp hlive).1
  · refine ⟨v, hv, ?_⟩
    by_contra hd
    exact absurd hdead (hlives.mpr ⟨hlive, System.spared_iff.mpr hd⟩)
  · have hs := (hlives.mp hlive).2
    refine Or.inl (ha.imp (fun hr => ?_) fun hr => List.mem_filter.mpr ⟨hr, hs⟩)
    exact Option.filter_eq_some_iff.mpr ⟨hr, hs⟩
  · exact Or.inl (List.mem_filter.mpr ⟨hw, (hlives.mp hlive).2⟩)
  · exact Or.inl (List.mem_filter.mp hw).1

theorem handOver {r : Pid} {rest : List Pid} (hcall : IsCall e 4) (hw : S.waiting (e.st T.sysArg1) = r :: rest) :
    Fate cfg S e (((S.entered e).setWaiting (e.st T.sysArg1) rest).wake r) p := by
  have hlives := lives_wake ((S.entered e).setWaiting (e.st T.sysArg1) rest) r p
  have hactive : Active (((S.entered e).setWaiting (e.st T.sysArg1) rest).wake r) p ↔ Active S p ∨ p = r :=
    active_wake _ r p
  refine ⟨fun hdead hlive => absurd hdead (hlives.mp hlive), fun hlive hdead => absurd hdead (hlives.mpr hlive),
    fun ha _ => Or.inl (hactive.mpr (Or.inl ha)), fun {key} hp _ => ?_, fun {key} hp => ?_⟩
  · by_cases hk : key = e.st T.sysArg1
    · subst hk
      rw [hw] at hp
      rcases List.mem_cons.mp hp with rfl | hp
      · exact Or.inr ⟨hactive.mpr (Or.inr rfl), Or.inl ⟨hcall, rfl⟩⟩
      · exact Or.inl (by simpa [System.wake, System.alter, System.setWaiting] using hp)
    · exact Or.inl (by simpa [System.wake, System.alter, System.setWaiting, System.entered, hk] using hp)
  · by_cases hk : key = e.st T.sysArg1
    · subst hk
      simp only [System.wake, System.alter, System.setWaiting, Function.update_self] at hp
      exact Or.inl (by rw [hw]; exact List.mem_cons_of_mem _ hp)
    · exact Or.inl (by simpa [System.wake, System.alter, System.setWaiting, System.entered, hk] using hp)

theorem block {r : Pid} {st : CpuState T} (hb : Blocks cfg S e key r) (hs : Alike S S₁) :
    Fate cfg S e (S₁.block r key st) p := by
  have hlives : (S₁.block r key st).process p ≠ none ↔ S.process p ≠ none :=
    (process_alter_ne_none S₁ r _ p).trans (hs.lives p)
  have hwaiting : ∀ key', (S₁.block r key st).waiting key' =
      if key' = key then insertPrio (S₁.save r st).prio r (S.waiting key) else S.waiting key' := by
    intro key'
    by_cases hk : key' = key <;> simp [System.block, System.setWaiting, System.save, System.alter, hk, hs.waiting]
  refine ⟨fun hdead hlive => absurd hdead (hlives.mp hlive), fun hlive hdead => absurd hdead (hlives.mpr hlive),
    fun ha _ => ?_, fun {key'} hp _ => ?_, fun {key'} hp => ?_⟩
  · by_cases hp : p = r
    · subst hp
      exact Or.inr ⟨key, hb, by rw [hwaiting, if_pos rfl]; simp⟩
    · rcases ha with ha | ha
      · exact absurd (Option.some.inj (ha.symm.trans hb.1)) hp
      · exact Or.inl (Or.inr (by rw [← hs.ready] at ha; exact ha))
  · refine Or.inl ?_
    rw [hwaiting]
    split
    · next hk => exact (mem_insertPrio _ _).mpr (Or.inr (hk ▸ hp))
    · exact hp
  · rw [hwaiting] at hp
    split at hp
    · next hk =>
      rcases (mem_insertPrio _ _).mp hp with he | hp
      · exact Or.inr (by rw [he, hk]; exact hb)
      · exact Or.inl (hk ▸ hp)
    · exact Or.inl hp

theorem completes (harea : e.area = .int) (hc : Completes cfg (S.entered e) (completions e) S') : Fate cfg S e S' p where
  born hdead hlive := absurd hdead ((hc.lives p).mp hlive)
  dies hlive hdead := absurd hdead ((hc.lives p).mpr hlive)
  goes ha _ := Or.inl (hc.active ha)
  wakes hw _ := (hc.woken hw).imp_right fun hr => ⟨hr.1, Or.inr ⟨harea, hr.2⟩⟩
  waits hw := Or.inl ((hc.sublist _).subset hw)

end Fate

theorem Call.fate {c : CpuState T} (h : Call cfg e (S.entered e) c S') : Fate cfg S e S' p := by
  rcases h.effect with hs | ⟨hcall, r, parent, st, prio, -, hdead, hrun, hs⟩ | ⟨v, hv, rfl⟩ | ⟨hcall, r, rest, hw, rfl⟩ |
    ⟨r, key, S₁, hb, hs, rfl⟩
  · exact .of_alike hs
  · exact (Fate.spawn hcall hdead hrun).then_alike hs
  · exact .kill hv
  · exact .handOver hcall hw
  · exact .block hb hs

/-- What a kernel entry does to a process. -/
theorem Step.fate {st : CpuState T} (h : Step cfg S e st S') (p : Pid) : Fate cfg S e S' p := by
  have hent := Alike.entered S e
  cases h with
  | call hc hl => exact hc.fate.then_leave (fun he => Bool.noConfusion he) hl
  | breakpoint _ _ hl => exact (Fate.of_alike hent).then_leave (fun he => Bool.noConfusion he) hl
  | exception htrap hh =>
    cases hh with
    | passUp _ _ _ _ => exact .of_alike (hent.trans (.of_process rfl rfl rfl rfl))
    | @die v x _ _ hp hx hnone hd =>
      have hv : Sentences cfg S e v := Or.inr ⟨hp, x, _, hx, Or.inr ⟨htrap, hnone⟩⟩
      exact (Fate.kill hv).then_same hd.rescheduled.waiting (hd.rescheduled.lives p) (hd.rescheduled.parent p)
        (hd.active (Moves.kill_running hp) p) fun _ hrun => absurd (Moves.kill_running hp) hrun
  | interrupt harea hc hl => exact (Fate.completes harea hc).then_leave (fun _ => harea) hl

/-- The running process goes on after its system call, unless the call blocks it. -/
theorem Call.keeps_running {c : CpuState T} (h : Call cfg e (S.entered e) c S') (hp : S.running = some p)
    (hlive : S'.process p ≠ none) : S'.running = some p ∨ ∃ key, p ∈ S'.waiting key := by
  rcases h.effect with hs | ⟨-, r, parent, st, prio, -, -, -, hs⟩ | ⟨v, -, rfl⟩ | ⟨-, r, rest, -, rfl⟩ |
    ⟨r, key, S₁, hb, hs, rfl⟩
  · exact Or.inl (hs.running.trans hp)
  · exact Or.inl (hs.running.trans hp)
  · refine Or.inl (Option.filter_eq_some_iff.mpr ⟨hp, ?_⟩)
    by_contra hspared
    exact hlive (if_neg hspared)
  · exact Or.inl hp
  · obtain rfl := Option.some.inj (hp.symm.trans hb.1)
    refine Or.inr ⟨key, ?_⟩
    simp [System.block, System.setWaiting]

/-- Only a timer interrupt takes the processor from who could go on. -/
theorem Step.preempts {st : CpuState T} (h : Step cfg S e st S') (hfit : Fit S' none) (hp : S.running = some p)
    (hready : p ∈ S'.ready) : IsTimer e := by
  have hlive : S'.process p ≠ none := hfit.alive (a := .ready) hready
  have hnot : S'.running ≠ some p := fun hr => absurd (hfit.unique (a := .running) (b := .ready) hr hready) (by simp)
  cases h with
  | call hc hl =>
    rcases hc.keeps_running hp ((hl.rescheduled.lives p).mp hlive) with hr | ⟨key, hw⟩
    · exact absurd (hl.running hr rfl) hnot
    · rw [← hl.rescheduled.waiting] at hw
      exact absurd (hfit.unique (a := .waiting key) (b := .ready) hw hready) (by simp)
  | breakpoint _ _ hl => exact absurd (hl.running hp rfl) hnot
  | exception _ hh =>
    cases hh with
    | passUp _ _ _ _ => exact absurd hp hnot
    | die hv _ _ hd =>
      obtain rfl := Option.some.inj (hp.symm.trans hv)
      have hrun := Moves.kill_running (S := S.entered e) hp
      rcases (hd.active hrun p).mp (Or.inr hready) with ha | ha
      · exact absurd (hrun.symm.trans ha) (by simp)
      · have hs := System.spared_iff.mp (List.mem_filter.mp ha).2
        exact absurd Relation.ReflTransGen.refl hs
  | interrupt harea hc hl =>
    refine ⟨harea, ?_⟩
    by_contra ht
    exact absurd (hl.running (hc.running.trans hp) (by simpa using ht)) hnot

end Bikaya.Spec
