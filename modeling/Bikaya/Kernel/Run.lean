import Bikaya.Kernel.Syscalls
import Bikaya.Refine.Init

/-!
# Runs

`Lawful` : the entry keeps the kernel within its tables and does not terminate a proper ancestor of the process that
runs; on it rests that the current process stays in no list. `step_steps` : from a sound state every such entry is a
sequence of acts and ends in a sound state. `step_valid` : an entry that keeps the rules (`ValidEntry`) does not fault.
`boot_steps` : so for the boot, from an `Initial` state. `run_keeps` : hence what the initial state, the entries
and the acts keep holds at every exit of every run.
-/

namespace Bikaya.Kernel
open Bikaya.Lib Bikaya.Model Bikaya.Spec Bikaya.Refine Bikaya.Model.KM

variable {T : Target} {cfg : Cfg T}

/-! ## Rules for entries -/

/-- The entry is no TERMINATEPROCESS of a proper ancestor of the caller. -/
def SparesAncestors (cfg : Cfg T) (s : KState T) (e : Entry T) : Prop :=
  IsCall e 3 → ∀ p c, target cfg s.m (e.st T.sysArg1) = some p → s.m.currentProc = some c →
    ¬ Relation.TransGen (ParentOf s.m) p c

/-- The entry keeps the kernel within its tables, and is no TERMINATEPROCESS of a proper ancestor of the caller. -/
structure Lawful (cfg : Cfg T) (s : KState T) (e : Entry T) : Prop extends InBounds cfg e where
  spares : SparesAncestors cfg s e

/-- Only those two calls break the rules. -/
theorem lawful_of_not {s : KState T} {e : Entry T} (h3 : ¬ IsCall e 3) (h7 : ¬ IsCall e 7) : Lawful cfg s e :=
  ⟨inBounds_of_not h3 h7, fun hc => absurd hc h3⟩

theorem lawful_of_int {s : KState T} {e : Entry T} (h : e.area = .int) : Lawful cfg s e := by
  have hnot : ∀ n, ¬ IsCall e n := fun n hc => OldArea.noConfusion (h.symm.trans hc.1)
  exact lawful_of_not (hnot 3) (hnot 7)

/-- What machines and devices promise: nothing but interrupts while no process runs, and a waiter for every completed
operation at a device interrupt. -/
structure ValidEntry (cfg : Cfg T) (s : KState T) (e : Entry T) : Prop where
  running : e.area ≠ .int → s.m.currentProc ≠ none
  waited : e.area = .int → ∀ f, Finished e.hw f → waitingList s.m (devKey cfg f) ≠ []

theorem validEntry_iff {s : KState T} {e : Entry T} : ValidEntry cfg s e ↔
    (e.area ≠ .int → s.m.currentProc ≠ none) ∧
    (e.area = .int → ∀ d < 40, ∀ rx, Finished e.hw ⟨d, rx⟩ → waitingList s.m (devKey cfg ⟨d, rx⟩) ≠ []) :=
  ⟨fun h => ⟨h.running, fun ha _ _ _ hf => h.waited ha _ hf⟩,
    fun h => ⟨h.1, fun ha f hf => h.2 ha f.dev hf.exists.1 f.rx hf⟩⟩

instance (s : KState T) (e : Entry T) : Decidable (ValidEntry cfg s e) := decidable_of_iff' _ validEntry_iff

/-- Ancestors are read off the parent pointers. -/
theorem SparesAncestors.spares {s : KState T} {q : Queues} {e : Entry T} (h : SparesAncestors cfg s e)
    (hr : Rep s.m.pool q) (hc : IsCall e 3) {p c : Pid} (hp : target cfg s.m (e.st T.sysArg1) = some p)
    (hcur : s.m.currentProc = some c) : c = p ∨ ¬ Desc q.Child p c := by
  unfold Desc
  rw [Relation.reflTransGen_iff_eq_or_transGen, hr.child_eq]
  by_cases he : c = p
  · exact Or.inl he
  · exact Or.inr fun hd => hd.elim he (h hc p c hp hcur)

/-! ## One entry -/

theorem enter_ret (e : Entry T) (s : KState T) : enter e s = .ret () (s.entered e) := rfl

theorem entered_spec {s : KState T} {q : Queues} (hs : Sound s.m.pool q s.m.currentProc.toList)
    (hslice : sliceOver s.hist = false) (e : Entry T) : Entered e (s.entered e) q where
  sound := hs
  entry := rfl
  slice := hslice
  area := Function.update_self _ _ _
  hw := rfl
  context _ hp := if_pos hp

theorem step_wp {s : KState T} {q : Queues} (hs : Sound s.m.pool q s.m.currentProc.toList)
    (hslice : sliceOver s.hist = false) {e : Entry T} (hlawful : Lawful cfg s e) :
    Exec.wp (kernelStep cfg e) (fun _ _ => False) (Exited cfg (s.entered e) q) (fun _ => ¬ ValidEntry cfg s e) s := by
  have h := entered_spec hs hslice e
  unfold kernelStep
  refine wp_bind_ret (enter_ret e s) ?_
  cases ha : e.area with
  | int =>
    refine h.interruptsHandler_wp (V := ValidEntry cfg s e) ha (fun hv f hf => ?_) fun hv => hv
    rw [← hs.rep.waitingList_eq]
    exact hv.waited ha f hf
  | tlb =>
    have hraise : Raises e 1 := by unfold Raises; rw [ha]; rfl
    exact h.schedulerHandleException_wp hraise fun hn hv => hv.running (by rw [ha]; simp) hn
  | pgmtrap =>
    have hraise : Raises e 2 := by unfold Raises; rw [ha]; rfl
    exact h.schedulerHandleException_wp hraise fun hn hv => hv.running (by rw [ha]; simp) hn
  | sysbk =>
    exact h.syscallHandler_wp ha hlawful.toInBounds (fun hc p c hp hcur => hlawful.spares.spares hs.rep hc hp hcur)
      fun hn hv => hv.running (by rw [ha]; simp) hn

/-- Where an entry leads. -/
theorem step_steps {s s' : KState T} {q : Queues} {st : CpuState T} {e : Entry T}
    (hs : Sound s.m.pool q s.m.currentProc.toList) (hslice : sliceOver s.hist = false)
    (hlawful : Lawful cfg s e) (h : kernelStep cfg e s = .exit st s') :
    ∃ q', Steps cfg (s.entered e) q s' q' ∧ Sound s'.m.pool q' s'.m.currentProc.toList ∧
      sliceOver s'.hist = false := by
  have hwp := step_wp hs hslice hlawful
  unfold Exec.wp at hwp
  rw [h] at hwp
  exact hwp

/-- Entries that keep the rules do not fault. -/
theorem step_valid {s : KState T} {q : Queues} {e : Entry T} (hs : Sound s.m.pool q s.m.currentProc.toList)
    (hslice : sliceOver s.hist = false) (hlawful : Lawful cfg s e) (hv : ValidEntry cfg s e) :
    ∃ st s', kernelStep cfg e s = .exit st s' := by
  obtain ⟨st, s', h, -⟩ := wp_exits (Exec.wp_mono (step_wp hs hslice hlawful) (fun _ _ hq => hq) (fun _ _ he => he)
    fun _ hn => hn hv)
  exact ⟨st, s', h⟩

/-! ## The boot -/

/-- What `main` has done before `pcb_alloc` is called for the first time. -/
structure Initial (cfg : Cfg T) (s : KState T) (q : Queues) : Prop where
  sound : Sound s.m.pool q []
  queues : q = initial
  hist : s.hist = []
  currentProc : s.m.currentProc = none
  pcbs : s.m.pool.pcbs = fun _ => Pcb.zero
  mem : s.m.mem = cfg.mem0
  hw : s.m.hw = cfg.hw0

/-- `scheduler_init` after the tables are set up: the first process is ready. -/
theorem schedulerInit_wp {E : CpuState T → KState T → Prop} {F : Fault → Prop} {s s₀ : KState T} {q : Queues}
    (hs₀ : s₀ = { s with m := { s.m with idleProcState := kernelState cfg.idleCode cfg.stst } })
    (h : Initial cfg s₀ q) :
    Exec.wp (schedulerInit cfg) (fun _ s' => ∃ q', Steps cfg s₀ q s' q' ∧ Sound s'.m.pool q' [] ∧ q'.ready ≠ [])
      E F s := by
  obtain ⟨p, rest, hf⟩ : ∃ p rest, q.free = p :: rest := by
    rw [h.queues]
    exact ⟨_, _, rfl⟩
  obtain ⟨l, l', halloc, henq, -, hs⟩ := spawn_run h.sound hf
    (kernelState cfg.testCode (Function.update cfg.stst T.sp (cfg.ramTop - 4096))) defaultPriority
  unfold schedulerInit
  refine wp_bind_ret (a := ()) (t := s₀) (by rw [hs₀]; rfl) ?_
  refine wp_bind_ret halloc (wp_bind_ret (orFault_ret p _) ?_)
  refine wp_bind_ret (modifyPcb_ret p _ _) (wp_bind_ret (modifyPcb_ret p _ _) ?_)
  refine wp_bind_ret (note_ret (.create p _) _) (wp_ret henq ?_)
  exact ⟨_, Steps.refl.act h.sound (.spawn hf ⟨by decide, by decide⟩) hs, hs, insertPrio_ne_nil _ _ _⟩

/-- The kernel boots, from an initial state. -/
theorem boot_steps (cfg : Cfg T) : ∃ s₀ q₀ st s q, Initial cfg s₀ q₀ ∧ boot cfg = .exit st s ∧
    Steps cfg s₀ q₀ s q ∧ Sound s.m.pool q s.m.currentProc.toList ∧ sliceOver s.hist = false := by
  obtain ⟨pool₁, pool₂, hrun₁, hrun₂, hrep, hz⟩ := init_rep (T := T)
  generalize hs₁ : KState.setPool (KState.setPool ⟨Machine.static cfg, []⟩ pool₁) pool₂ = s₁
  generalize hs₀ : ({ s₁ with m := { s₁.m with idleProcState := kernelState cfg.idleCode cfg.stst } } : KState T) = s₀
  have h₀ : Initial cfg s₀ initial := by
    subst hs₀ hs₁
    exact ⟨⟨hrep, initial_places.1, initial_places.2⟩, rfl, rfl, rfl, hz, rfl, rfl⟩
  have hwp : Exec.wp (main cfg) (fun _ _ => False) (Exited cfg s₀ initial) (fun _ => False)
      ⟨Machine.static cfg, []⟩ := by
    unfold main
    refine wp_bind_ret (pool_ret hrun₁) (wp_bind_ret (pool_ret (s := KState.setPool _ pool₁) hrun₂) ?_)
    rw [Exec.wp_bind, hs₁]
    refine Exec.wp_conseq (schedulerInit_wp hs₀.symm h₀) fun _ s' hs' => ?_
    obtain ⟨q', hst, hs, hr⟩ := hs'
    exact schedulerRun_wp hst hs hr
  obtain ⟨st, s, hb, q, hst, hs, hslice⟩ := wp_exits hwp
  exact ⟨s₀, initial, st, s, q, h₀, hb, hst, hs, hslice⟩

/-! ## Runs -/

section Invariants
variable {ok : KState T → Entry T → Prop} {I : KState T → Queues → Prop}

/-- What holds of the lists of a state between two kernel entries. -/
structure Between (s : KState T) (q : Queues) : Prop where
  sound : Sound s.m.pool q s.m.currentProc.toList
  slice : sliceOver s.hist = false

/-- What holds between the entries, if what it becomes at an entry is kept by the acts that follow. -/
theorem runFrom_keeps {J : KState T → Queues → Prop} (hlawful : ∀ {s e}, ok s e → Lawful cfg s e)
    (hentry : ∀ {s q e}, Between s q → ok s e → I s q → J (s.entered e) q)
    (hact : ∀ {s s' q q' out out'}, Sound s.m.pool q out → Sound s'.m.pool q' out' → Act cfg s q s' q' →
      J s q → J s' q')
    (hexit : ∀ {s q}, J s q → I s q)
    {s₀ s : KState T} {q₀ : Queues} (hb : Between s₀ q₀) (h₀ : I s₀ q₀) (h : RunFrom cfg ok s₀ s) :
    ∃ q, Between s q ∧ I s q := by
  induction h with
  | refl => exact ⟨q₀, hb, h₀⟩
  | step e _ hok hstep ih =>
    obtain ⟨q, hb, hi⟩ := ih
    obtain ⟨q', hst, hs, hslice⟩ := step_steps hb.sound hb.slice (hlawful hok) hstep
    exact ⟨q', ⟨hs, hslice⟩, hexit (hst.keeps hact (hentry hb hok hi))⟩

/-- So from the initial state on, in every run. -/
theorem run_keeps_between {J : KState T → Queues → Prop} (hlawful : ∀ {s e}, ok s e → Lawful cfg s e)
    (hinit : ∀ {s q}, Initial cfg s q → J s q)
    (hentry : ∀ {s q e}, Between s q → ok s e → I s q → J (s.entered e) q)
    (hact : ∀ {s s' q q' out out'}, Sound s.m.pool q out → Sound s'.m.pool q' out' → Act cfg s q s' q' →
      J s q → J s' q')
    (hexit : ∀ {s q}, J s q → I s q)
    {s : KState T} (h : Run cfg ok s) : ∃ q, Between s q ∧ I s q := by
  induction h with
  | boot hboot =>
    obtain ⟨s₀, q₀, st, s, q, h₀, hb, hst, hs, hslice⟩ := boot_steps cfg
    rw [hb] at hboot
    cases hboot
    exact ⟨q, ⟨hs, hslice⟩, hexit (hst.keeps hact (hinit h₀))⟩
  | step e _ hok hstep ih =>
    obtain ⟨q, hb, hi⟩ := ih
    obtain ⟨q', hst, hs, hslice⟩ := step_steps hb.sound hb.slice (hlawful hok) hstep
    exact ⟨q', ⟨hs, hslice⟩, hexit (hst.keeps hact (hentry hb hok hi))⟩

/-- What the initial state satisfies and entries and acts keep holds in every run. -/
theorem run_keeps (hlawful : ∀ {s e}, ok s e → Lawful cfg s e)
    (hinit : ∀ {s q}, Initial cfg s q → I s q)
    (hentry : ∀ {s q e}, Between s q → ok s e → I s q → I (s.entered e) q)
    (hact : ∀ {s s' q q' out out'}, Sound s.m.pool q out → Sound s'.m.pool q' out' → Act cfg s q s' q' →
      I s q → I s' q')
    {s : KState T} (h : Run cfg ok s) : ∃ q, Between s q ∧ I s q :=
  run_keeps_between hlawful hinit hentry hact id h

/-- The lists between two kernel entries. -/
theorem run_between (hlawful : ∀ {s e}, ok s e → Lawful cfg s e) {s : KState T} (h : Run cfg ok s) :
    ∃ q, Between s q := by
  obtain ⟨q, hb, -⟩ := run_keeps (I := fun _ _ => True) hlawful (fun _ => trivial) (fun _ _ _ => trivial)
    (fun _ _ _ _ => trivial) h
  exact ⟨q, hb⟩

/-- Rules for entries may be weakened. -/
theorem run_mono {ok' : KState T → Entry T → Prop} (hok : ∀ {s e}, ok s e → ok' s e) {s : KState T}
    (h : Run cfg ok s) : Run cfg ok' s := by
  induction h with
  | boot hboot => exact .boot hboot
  | step e _ he hstep ih => exact .step e ih (hok he) hstep

/-- What follows a run makes a run with it. -/
theorem run_from {ok' : KState T → Entry T → Prop} (hok : ∀ {s e}, ok' s e → ok s e) {s₀ s : KState T}
    (h₀ : Run cfg ok s₀) (h : RunFrom cfg ok' s₀ s) : Run cfg ok s := by
  induction h with
  | refl => exact h₀
  | step e _ he hstep ih => exact .step e ih (hok he) hstep

end Invariants
end Bikaya.Kernel
