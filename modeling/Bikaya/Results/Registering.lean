import Bikaya.Kernel.PassUp
import Bikaya.Results.Ending
import Bikaya.Results.Rejecting

/-!
# SPECPASSUP

What a SPECPASSUP should do, by its type and the earlier requests of the process (`Registers`). The code does so if
and only if the type is one of the three, and one of the earlier requests for it, if there are any, gave a new area
other than 0 (`registers_iff`): the type is not checked, and a new area 0 reads as `not registered'.
-/

namespace Bikaya.Results
open Bikaya.Lib Bikaya.Model Bikaya.Spec Bikaya.Refine Bikaya.Kernel Bikaya.Model.KM

variable {T : Target} {cfg : Cfg T}

/-- The call returns SYSCALL_SUCCESS to its caller `p`, whose two areas for the type it has set; it changes nothing
else but the time of the caller. -/
def Records (cfg : Cfg T) (s : KState T) (e : Entry T) (p : Pid) (type : Fin 3) : Prop :=
  ∃ st s', kernelStep cfg e s = .exit st s' ∧ st = (adjusted e).setReturn syscallSuccess ∧
    (∃ h, s'.hist = (.resume st, s'.m) :: h) ∧
    SameButTime
      { s.m with
        pool := (s.withAreas p type (e.st T.sysArg3) (e.st T.sysArg2)).m.pool
        oldAreas := s'.m.oldAreas
        oldState := s'.m.oldState
        mem := e.mem
        hw := e.hw } s'.m

/-- A SPECPASSUP of `p`: a type out of range is refused, a first request is recorded, and a further one is fatal. -/
structure Registers (cfg : Cfg T) (s : KState T) (e : Entry T) (p : Pid) : Prop where
  refused : 3 ≤ (e.st T.sysArg1).toNat → Rejects cfg e s
  first : ∀ type : Fin 3, (e.st T.sysArg1).toNat = type.val → requested p type s.hist = false →
    Records cfg s e p type
  again : ∀ type : Fin 3, (e.st T.sysArg1).toNat = type.val → requested p type s.hist = true → Terminates cfg s e p

section
variable {s : KState T} {e : Entry T} {p : Pid} {type : Fin 3} (hp : s.m.currentProc = some p) (hcall : IsCall e 7)
  (hw : (e.st T.sysArg1).toNat = type.val)
include hp hcall

omit hw

/-- No type is refused: where the word that it points to is 0, the call succeeds, and else the caller dies. -/
theorem not_refused {q : Queues} (hs : Sound s.m.pool q [p]) : ¬ Rejects cfg e s := by
  let s₁ := s.called cfg e
  have hp₁ : s₁.m.currentProc = some p := (called_currentProc cfg s e).trans hp
  have hs₁ : Sound s₁.m.pool q [p] :=
    (called_same cfg s e).sound (m := { s.m with
      oldAreas := s₁.m.oldAreas, oldState := some .sysbk, mem := e.mem, hw := e.hw }) hs
  have hset : Exec.wp (specPassUp cfg (e.st T.sysArg1) (e.st T.sysArg2) (e.st T.sysArg3))
      (fun r t => r = syscallSuccess ∨ t.m.currentProc = none) (fun _ _ => False) (fun _ => False) s₁ := by
    refine wp_same (specPassUp_at hp₁ (hs.placed.outSmall p (List.mem_singleton_self p)) _ _ _) ?_
    unfold specPassUpAt
    obtain ⟨w, hload⟩ := loadWord_ret cfg (cfg.pcbAddr p + BitVec.ofNat 32 T.excNewAreas + 4 * e.st T.sysArg1) s₁
    refine wp_bind_ret hload ?_
    split
    · obtain ⟨t, -, -, hkill, -, hn, -⟩ := killCurrent_run hs₁ hp₁
      exact wp_bind_ret hkill ((Exec.wp_pure _).mpr (.inr hn))
    · obtain ⟨m, hnew⟩ := storeWord_ret cfg (cfg.pcbAddr p + BitVec.ofNat 32 T.excNewAreas + 4 * e.st T.sysArg1)
        (e.st T.sysArg3) s₁
      obtain ⟨m', hold⟩ := storeWord_ret cfg (cfg.pcbAddr p + BitVec.ofNat 32 T.excOldAreas + 4 * e.st T.sysArg1)
        (e.st T.sysArg2) { s₁ with m := m }
      exact wp_bind_ret hnew (wp_bind_ret hold ((Exec.wp_pure _).mpr (.inl rfl)))
  have hwp : Exec.wp (kernelStep cfg e) (fun _ _ => True) (fun st s' => ¬ Failed e st s') (fun _ => True) s := by
    refine wp_same (kernelStep_specPassUp hcall s) ?_
    rw [Exec.wp_bind]
    refine Exec.wp_mono hset (fun r t ht => ?_) (fun _ _ h => h.elim) fun _ h => h.elim
    rcases ht with rfl | hn
    · exact success_not_failed cfg e t
    · have hn' : (t.setAreas (Function.update t.m.oldAreas .sysbk ((t.m.oldAreas .sysbk).setReturn r))
          t.m.oldState).m.currentProc = none := hn
      exact wp_bind_ret (setSysReturn_ret r t) (switched_not_failed cfg e hn')
  intro h
  obtain ⟨st, s', hk, hst, hlast, -⟩ := h
  unfold Exec.wp at hwp
  rw [hk] at hwp
  exact hwp ⟨hst, hlast⟩

include hw

/-- Without a new area the request is recorded. -/
theorem records_of_zero (hnew : (s.m.pool.pcbs p).excNewAreas type = 0) : Records cfg s e p type := by
  let s₁ := s.called cfg e
  let t := s₁.withAreas p type (e.st T.sysArg3) (e.st T.sysArg2)
  have hp₁ : s₁.m.currentProc = some p := (called_currentProc cfg s e).trans hp
  have hnew₁ : (s₁.m.pool.pcbs p).excNewAreas type = 0 := (congrFun (called_areas cfg s e p).1 type).trans hnew
  have hset : specPassUp cfg (e.st T.sysArg1) (e.st T.sysArg2) (e.st T.sysArg3) s₁ = .ret syscallSuccess t :=
    specPassUp_first hp₁ hw hnew₁
  have hpt : t.m.currentProc = some p := hp₁
  obtain ⟨s', hexit, hlast, hsame'⟩ := sysReturn_exit cfg hpt syscallSuccess
  have harea : t.m.oldAreas .sysbk = adjusted e := by
    show s₁.m.oldAreas .sysbk = _
    rw [called_area, adjusted_syscall hcall.1 hcall.2.1]
  have hsame := called_same cfg s e
  have hareas : SameButTime
      { s.m with
        pool := (s.withAreas p type (e.st T.sysArg3) (e.st T.sysArg2)).m.pool
        oldAreas := t.m.oldAreas
        oldState := t.m.oldState
        mem := e.mem
        hw := e.hw } t.m := by
    refine ⟨hsame.links, hsame.sKey, fun r => ?_, hsame.currentProc, hsame.idleProcState, rfl, rfl, hsame.mem, hsame.hw⟩
    show timeless (Function.update s₁.m.pool.pcbs p _ r) = timeless (Function.update s.m.pool.pcbs p _ r)
    by_cases hr : r = p
    · subst hr
      have hold : timeless (s₁.m.pool.pcbs r) = timeless (s.m.pool.pcbs r) := hsame.pcbs r
      rw [Function.update_self, Function.update_self]
      exact congrArg (fun x : Pcb T => { x with
        excNewAreas := Function.update x.excNewAreas type (e.st T.sysArg3)
        excOldAreas := Function.update x.excOldAreas type (e.st T.sysArg2) }) hold
    · rw [Function.update_of_ne hr, Function.update_of_ne hr]
      exact hsame.pcbs r
  refine ⟨_, s', ?_, ?_, hlast, hareas.result hsame'⟩
  · rw [kernelStep_specPassUp hcall, bind_ret hset]
    exact hexit
  · rw [harea]

/-- With a new area the caller dies. -/
theorem terminates_of_area {q : Queues} (hs : Sound s.m.pool q [p]) (hnew : (s.m.pool.pcbs p).excNewAreas type ≠ 0) :
    Terminates cfg s e p := by
  let s₁ := s.called cfg e
  have hp₁ : s₁.m.currentProc = some p := (called_currentProc cfg s e).trans hp
  have hnew₁ : (s₁.m.pool.pcbs p).excNewAreas type ≠ 0 := by
    rw [(called_areas cfg s e p).1]
    exact hnew
  have hsame := called_same cfg s e
  have hs₁ : Sound s₁.m.pool q [p] :=
    hsame.sound (m := { s.m with oldAreas := s₁.m.oldAreas, oldState := some .sysbk, mem := e.mem, hw := e.hw }) hs
  refine Terminates.of_kill (setSysReturn syscallFailure) (some .sysbk) hs₁ hp₁ hsame
    (fun t => ⟨_, setSysReturn_ret syscallFailure t⟩) fun hk => ?_
  rw [kernelStep_specPassUp hcall, bind_same (specPassUp_again hp₁ hw hnew₁), Exec.bind_bind]
  exact hk

end

/-- The caller of a terminating call does not go on. -/
theorem Terminates.not_records {s : KState T} {e : Entry T} {p : Pid} (h : Terminates cfg s e p) (type : Fin 3) :
    ¬ Records cfg s e p type := by
  obtain ⟨st, s', hk, hswitch⟩ := h.switched
  intro hr
  obtain ⟨st₁, s₁, hk₁, -, ⟨rest, hhist⟩, -⟩ := hr
  rw [hk] at hk₁
  cases hk₁
  rcases hswitch.last hhist with ⟨_, h⟩ | ⟨_, _, h⟩ <;> cases h

/-- A SPECPASSUP does what it should if and only if its type is one of the three and, if the process has requested
that type before, a new area other than 0 is registered. -/
theorem registers_iff {s : KState T} {e : Entry T} {p : Pid} (h : Run cfg (Lawful cfg) s)
    (hp : s.m.currentProc = some p) (hcall : IsCall e 7) :
    Registers cfg s e p ↔ ∃ type : Fin 3, (e.st T.sysArg1).toNat = type.val ∧
      (requested p type s.hist = true → (registered p type s.hist).1 ≠ 0) := by
  have hrec : ∀ type, (s.m.pool.pcbs p).excNewAreas type = (registered p type s.hist).1 := fun type =>
    congrArg Prod.fst (run_recorded (fun hok => hok.toInBounds) h p type)
  obtain ⟨q, hb⟩ := run_between id h
  have hs := hb.sound
  rw [hp] at hs
  constructor
  · intro hreg
    by_cases hlt : (e.st T.sysArg1).toNat < 3
    · refine ⟨⟨(e.st T.sysArg1).toNat, hlt⟩, rfl, fun hreq hzero => ?_⟩
      have hzero := (hrec ⟨(e.st T.sysArg1).toNat, hlt⟩).trans hzero
      exact (hreg.again _ rfl hreq).not_records _ (records_of_zero hp hcall rfl hzero)
    · exact absurd (hreg.refused (by omega)) (not_refused hp hcall hs)
  · intro hcond
    obtain ⟨type, hw, hcond⟩ := hcond
    refine ⟨fun hge => absurd type.isLt (by omega), fun t ht hreq => ?_, fun t ht hreq => ?_⟩
    · have hzero : (registered p t s.hist).1 = 0 := by rw [registered_none hreq]
      exact records_of_zero hp hcall ht ((hrec t).trans hzero)
    · obtain rfl : t = type := Fin.ext (ht.symm.trans hw)
      exact terminates_of_area hp hcall ht hs (by rw [hrec]; exact hcond hreq)

/-- The process that has registered a handler for SYS/BK exceptions requests the same again. -/
theorem registers_sysbkRegistered : Registers demo sysbkRegistered (syscall sysbkRegistered 7 0 0 1) 19 ↔
    ∃ type : Fin 3, ((syscall sysbkRegistered 7 0 0 1).st Target.umps.sysArg1).toNat = type.val ∧
      (requested 19 type sysbkRegistered.hist = true → (registered 19 type sysbkRegistered.hist).1 ≠ 0) :=
  registers_iff run_sysbkRegistered (by decide +kernel) ⟨rfl, by decide, by decide⟩

/-- Type 3 is not refused: the word behind the new areas, which is the first old area, is 0, and is set. -/
theorem registers_fails : ¬ ∀ (s : KState .umps) (e : Entry .umps) (p : Pid), Run demo (Lawful demo) s →
    s.m.currentProc = some p → IsCall e 7 → Registers demo s e p := by
  intro h
  let e := syscall (booted demo) 7 3 0x20003000 0x20004000
  have hp : (booted demo).m.currentProc = some 19 := by decide +kernel
  have hcall : IsCall e 7 := ⟨rfl, by decide, by decide⟩
  obtain ⟨q, hb⟩ := run_between id (run_booted demo (Lawful demo))
  have hs := hb.sound
  rw [hp] at hs
  exact not_refused hp hcall hs ((h (booted demo) e 19 (run_booted demo _) hp hcall).refused (by decide))

end Bikaya.Results
