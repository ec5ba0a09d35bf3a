import Bikaya.Kernel.Direct
import Bikaya.Results.Killing

/-!
# The end of the current process

`Terminates` : an entry ends the current process with its descendants, and the kernel goes on to another
(`killCurrent_run`, `schedulerResume_goesOn`). The exceptions that nobody handles and the repeated SPECPASSUPs do so.
-/

namespace Bikaya.Results
open Bikaya.Lib Bikaya.Model Bikaya.Spec Bikaya.Refine Bikaya.Kernel Bikaya.Model.KM

variable {T : Target} {cfg : Cfg T}

/-- `p` comes from the front of the ready queue to be the current process, and nothing else changes. -/
structure Dispatched (m m' : Machine T) (p : Pid) : Prop where
  ready : readyList m = p :: readyList m'
  free : freeList m' = freeList m
  waiting : ∀ key, waitingList m' key = waitingList m key
  children : ∀ r, Alive m r → childList m' r = childList m r
  same : SameButTime { m with currentProc := some p, pool := { m.pool with links := m'.pool.links } } m'

/-- The kernel loads the state of the first ready process of `m`, or the idle state if there is none. -/
def GoesOn (m : Machine T) (st : CpuState T) (s' : KState T) : Prop :=
  (readyList m = [] ∧ st = m.idleProcState ∧ s'.m = m ∧ ∃ h, s'.hist = (.idle st, m) :: h) ∨
  ∃ p, Dispatched m s'.m p ∧ st = (m.pool.pcbs p).pS ∧ ∃ h, s'.hist = (.dispatch p st, s'.m) :: h

/-- On the entry `p`, the current process, and its descendants are removed, and the kernel goes on to none of them. -/
def Terminates (cfg : Cfg T) (s : KState T) (e : Entry T) (p : Pid) : Prop :=
  ∃ st s' m m' areas ps, kernelStep cfg e s = .exit st s' ∧
    SameButTime { s.m with currentProc := none, oldAreas := m.oldAreas, oldState := m.oldState, mem := e.mem, hw := e.hw } m ∧
    SubtreeRemoved m m' p ps ∧ GoesOn { m' with oldAreas := areas } st s' ∧
    ∀ r, s'.m.currentProc = some r → ¬ Desc (ParentOf s.m) p r

/-- `scheduler_resume` when nobody runs. -/
theorem schedulerResume_goesOn (cfg : Cfg T) {s : KState T} {q : Queues} (hs : Sound s.m.pool q [])
    (hn : s.m.currentProc = none)
    (ended : Bool) (old : Option OldArea) :
    Exec.wp (schedulerResume cfg ended old) (fun _ _ => False) (GoesOn s.m) (fun _ => False) s := by
  have hwhen : whenCurrent (resumeCurrent cfg ended old) s = .ret () s := by
    unfold whenCurrent
    rw [bind_ret (machine_ret s), hn]
    rfl
  unfold schedulerResume
  refine wp_bind_ret hwhen (wp_bind_ret (machine_ret s) ?_)
  rw [Exec.wp_bind, Exec.wp_guarded, hs.rep.listEmpty_ready]
  cases hr : q.ready with
  | nil =>
    rw [if_pos (by rfl)]
    refine wp_ldst (.inl ⟨hs.rep.readyList_eq.trans hr, rfl, rfl, s.hist, rfl⟩)
  | cons p rest =>
    rw [if_neg (by simp)]
    refine schedulerRun_first hs.rep hr fun l s₂ hrep ht => .inr ⟨p, ?_, ?_, s₂.hist, rfl⟩
    · have hrep₂ : Rep s₂.m.pool { q with ready := rest } :=
        ht.same.rep (m := (((s.push .run).relink l).setCurrent (some p)).m) hrep
      have hlinks : s₂.m.pool.links = l := ht.same.links
      refine ⟨?_, ?_, fun key => ?_, fun r hal => ?_, ?_⟩
      · show readyList s.m = p :: readyList s₂.m
        rw [hs.rep.readyList_eq, hrep₂.readyList_eq, hr]
      · show freeList s₂.m = _
        rw [hs.rep.freeList_eq, hrep₂.freeList_eq]
      · show waitingList s₂.m key = _
        rw [hs.rep.waitingList_eq, hrep₂.waitingList_eq]
      · obtain ⟨hlt, hnot⟩ := hal
        rw [hs.rep.freeList_eq] at hnot
        obtain ⟨cs, hcs⟩ := (hs.tree.alive r).mpr ⟨hlt, hnot⟩
        show childList s₂.m r = _
        rw [hs.rep.childList_eq hcs, hrep₂.childList_eq hcs]
      · show SameButTime { s.m with currentProc := some p, pool := { s.m.pool with links := s₂.m.pool.links } } s₂.m
        rw [hlinks]
        exact ht.same
    · exact ht.same.pS p

/-- `scheduler_kill_process` of the current process. -/
theorem killCurrent_run {s : KState T} {q : Queues} {p : Pid} (hs : Sound s.m.pool q [p]) (hp : s.m.currentProc = some p) :
    ∃ s' q' ps, schedulerKillProcess p s = .ret () s' ∧ Sound s'.m.pool q' [] ∧ s'.m.currentProc = none ∧
      SubtreeRemoved { s.m with currentProc := none } s'.m p ps := by
  have hlive : ∃ cs, q.kids p = some cs := by
    have hout : p ∈ [p] := List.mem_singleton_self p
    exact (hs.tree.alive p).mpr ⟨hs.placed.outSmall p hout, fun hf => hs.placed.outside p hout (Or.inl hf)⟩
  obtain ⟨ps, s', q', hrun, hk⟩ := killTree_run (s := s.setCurrent none) hs hlive
  have hs' := hk.buries.sound hs
  have hout : without [p] ps = [] := by
    simp [without, (hk.mem p).mpr Relation.ReflTransGen.refl]
  rw [hout] at hs'
  have hremoved : SubtreeRemoved { s.m with currentProc := none } s'.m p ps := Killed.removed (s := s.setCurrent none) hs hk
  refine ⟨s', q', ps, ?_, hs', ?_, hremoved⟩
  · unfold schedulerKillProcess
    rw [bind_ret (machine_ret s), decide_eq_true hp]
    exact (bind_ret (setCurrent_ret none s)).trans hrun
  · rw [hremoved.machine]

/-- The current process is killed, a result may be stored, and the kernel goes on. -/
theorem Terminates.of_kill {s t : KState T} {e : Entry T} {p : Pid} {q : Queues} (x : KM T Unit)
    (old : Option OldArea) (hs : Sound t.m.pool q [p]) (hp : t.m.currentProc = some p)
    (hsame : SameButTime { s.m with oldAreas := t.m.oldAreas, oldState := t.m.oldState, mem := e.mem, hw := e.hw } t.m)
    (hx : ∀ t, ∃ areas, x t = .ret () (t.setAreas areas t.m.oldState))
    (hk : ∀ {st s'}, (schedulerKillProcess p >>= fun _ => x >>= fun _ => schedulerResume cfg false old) t = .exit st s' →
      kernelStep cfg e s = .exit st s') : Terminates cfg s e p := by
  obtain ⟨t₁, q', ps, hrun, hs₁, hn, hremoved⟩ := killCurrent_run hs hp
  obtain ⟨areas, hareas⟩ := hx t₁
  let t₂ : KState T := t₁.setAreas areas t₁.m.oldState
  have hs₂ : Sound t₂.m.pool q' [] := hs₁
  obtain ⟨st, s', hgo, hnext⟩ := wp_exits (schedulerResume_goesOn cfg hs₂ hn false old)
  have hdead : ∀ r, r ∈ ps ↔ Desc (ParentOf s.m) p r := by
    intro r
    rw [hremoved.subtree r]
    have hparent : ParentOf { t.m with currentProc := none } = ParentOf s.m := by
      funext a c
      unfold ParentOf
      rw [show (t.m.pool.pcbs c).pParent = (s.m.pool.pcbs c).pParent from hsame.pParent c]
    rw [hparent]
  refine ⟨st, s', { t.m with currentProc := none }, t₁.m, areas, ps, hk ?_, ?_, hremoved, hnext, fun r hr => ?_⟩
  · rw [bind_ret hrun, bind_ret hareas]
    exact hgo
  · exact ⟨hsame.links, hsame.sKey, hsame.pcbs, rfl, hsame.idleProcState, rfl, rfl, hsame.mem, hsame.hw⟩
  · rw [← hdead r]
    rcases hnext with ⟨-, -, hm, -⟩ | ⟨p', hd, -⟩
    · rw [hm] at hr
      have hr : t₁.m.currentProc = some r := hr
      rw [hn] at hr
      cases hr
    · have hp' : s'.m.currentProc = some p' := hd.same.currentProc
      obtain rfl : p' = r := Option.some.inj (hp'.symm.trans hr)
      have hready : p' ∈ readyList t₁.m := by
        have hfirst : readyList t₁.m = p' :: readyList s'.m := hd.ready
        rw [hfirst]
        exact List.mem_cons_self
      rw [hremoved.ready, List.mem_filter] at hready
      exact of_decide_eq_true hready.2

theorem Terminates.switched {s : KState T} {e : Entry T} {p : Pid} (h : Terminates cfg s e p) :
    ∃ st s', kernelStep cfg e s = .exit st s' ∧ Switched s' := by
  obtain ⟨st, s', m, m', areas, ps, hk, -, -, hnext, -⟩ := h
  refine ⟨st, s', hk, ?_⟩
  rcases hnext with ⟨-, -, -, h, hhist⟩ | ⟨r, -, -, h, hhist⟩
  · exact ⟨_, _, h, hhist, .inl ⟨st, rfl⟩⟩
  · exact ⟨_, _, h, hhist, .inr ⟨r, st, rfl⟩⟩

end Bikaya.Results
