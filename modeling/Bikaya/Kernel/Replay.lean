import Mathlib.Order.Monotone.Basic
import Bikaya.Kernel.Run

/-!
# Replaying runs

`booted` and `after` compute the states of a run whose entries are known (`run_booted`, `run_after`), and
`climb` the ancestors of a process, which decides `Lawful` (`isLawful`). `demo` is a small uMPS system to replay
runs on: `syscall` and `interrupt` are its entries.
-/

namespace Bikaya.Kernel
open Bikaya.Lib Bikaya.Model Bikaya.Spec

variable {T : Target} {cfg : Cfg T}

/-- The state at the end of the boot. -/
def booted (cfg : Cfg T) : KState T :=
  match boot cfg with
  | .exit _ s => s
  | _ => ⟨Machine.static cfg, []⟩

/-- The state that an entry leads to. -/
def after (cfg : Cfg T) (s : KState T) (e : Entry T) : KState T :=
  match kernelStep cfg e s with
  | .exit _ s' => s'
  | _ => s

/-- The entry ends with the load of a state. -/
def exits (cfg : Cfg T) (s : KState T) (e : Entry T) : Bool :=
  match kernelStep cfg e s with
  | .exit _ _ => true
  | _ => false

theorem run_booted (cfg : Cfg T) (ok : KState T → Entry T → Prop) : Run cfg ok (booted cfg) := by
  obtain ⟨-, -, st, s, -, -, hb, -⟩ := boot_steps cfg
  unfold booted
  rw [hb]
  exact .boot hb

theorem kernelStep_after {s : KState T} {e : Entry T} (hx : exits cfg s e = true) :
    ∃ st, kernelStep cfg e s = .exit st (after cfg s e) := by
  unfold exits at hx
  unfold after
  cases hk : kernelStep cfg e s with
  | exit st s' => exact ⟨st, rfl⟩
  | ret a s' => rw [hk] at hx; cases hx
  | fault f => rw [hk] at hx; cases hx

theorem run_after {ok : KState T → Entry T → Prop} {s : KState T} {e : Entry T} (h : Run cfg ok s) (hok : ok s e)
    (hx : exits cfg s e = true) : Run cfg ok (after cfg s e) := by
  obtain ⟨st, hk⟩ := kernelStep_after hx
  exact .step e h hok hk

theorem runFrom_after {ok : KState T → Entry T → Prop} {s₀ s : KState T} {e : Entry T} (h : RunFrom cfg ok s₀ s)
    (hok : ok s e) (hx : exits cfg s e = true) : RunFrom cfg ok s₀ (after cfg s e) := by
  obtain ⟨st, hk⟩ := kernelStep_after hx
  exact .step e h hok hk

/-- An observation that some computable test finds. -/
theorem exists_mem_hist {s : KState T} {o : Obs T} {test : Obs T → Bool} (htest : ∀ o', test o' = true → o' = o)
    (h : s.hist.any (fun n => test n.1) = true) : ∃ m, (o, m) ∈ s.hist := by
  obtain ⟨n, hn, ht⟩ := List.any_eq_true.mp h
  exact ⟨n.2, htest n.1 ht ▸ hn⟩

-- Replayed states are evaluated by the kernel only.
attribute [irreducible] booted after exits

/-! ## Ancestors -/

/-- The proper ancestors of a process, nearest first. -/
def climb (m : Machine T) : Nat → Pid → Option (List Pid)
  | 0, _ => none
  | n + 1, c =>
    match (m.pool.pcbs c).pParent with
    | none => some []
    | some p => (climb m n p).map (p :: ·)

theorem climb_spec {m : Machine T} : ∀ {n : Nat} {c : Pid} {ps : List Pid}, climb m n c = some ps →
    ∀ p, Relation.TransGen (ParentOf m) p c ↔ p ∈ ps := by
  intro n
  induction n with
  | zero => exact fun h => by cases h
  | succ n ih =>
    intro c ps h p
    unfold climb at h
    cases hpar : (m.pool.pcbs c).pParent with
    | none =>
      rw [hpar] at h
      cases h
      rw [Relation.TransGen.tail'_iff]
      simp [ParentOf, hpar]
    | some r =>
      rw [hpar] at h
      obtain ⟨rs, hrs, rfl⟩ := Option.map_eq_some_iff.mp h
      rw [Relation.TransGen.tail'_iff, List.mem_cons, ← ih hrs p]
      constructor
      · rintro ⟨b, hpb, hbc⟩
        obtain rfl : r = b := Option.some.inj (hpar.symm.trans hbc)
        exact (Relation.reflTransGen_iff_eq_or_transGen.mp hpb).imp_left Eq.symm
      · rintro (rfl | hpr)
        · exact ⟨p, .refl, hpar⟩
        · exact ⟨r, hpr.to_reflTransGen, hpar⟩

/-- A sufficient check for `Lawful`. -/
def isLawful (cfg : Cfg T) (s : KState T) (e : Entry T) : Bool :=
  decide (InBounds cfg e) &&
  match target cfg s.m (e.st T.sysArg1), s.m.currentProc with
  | some p, some c =>
    match climb s.m (maxProc + 1) c with
    | some ps => decide (p ∉ ps)
    | none => false
  | _, _ => true

theorem lawful_of_check {s : KState T} {e : Entry T} (h : isLawful cfg s e = true) : Lawful cfg s e := by
  obtain ⟨hbounds, h⟩ := Bool.and_eq_true_iff.mp h
  refine ⟨of_decide_eq_true hbounds, fun _ p c hp hc hd => ?_⟩
  rw [hp, hc] at h
  dsimp only at h
  cases hps : climb s.m (maxProc + 1) c with
  | none => rw [hps] at h; cases h
  | some ps =>
    rw [hps] at h
    exact of_decide_eq_true h ((climb_spec hps p).mp hd)

/-! ## A system to replay runs on -/

/-- The list heads of a small uMPS system, with their addresses: static variables, then the PCBs and the descriptors. -/
def demoNodes : List (Word × Node) :=
  [(0x20009700, .pcbFree), (0x20009708, .readyQueue), (0x20009710, .semdFree), (0x20009718, .asl)] ++
  (List.range maxProc).flatMap (fun p =>
    let a := 0x20008000 + BitVec.ofNat 32 (p * Target.pcbSize .umps)
    [(a, .pNext p), (a + 12, .pChild p), (a + 20, .pSib p)]) ++
  (List.range maxProc).flatMap fun d =>
    let a := 0x20009800 + BitVec.ofNat 32 (d * 20)
    [(a, .sNext d), (a + 12, .sProcQ d)]

/-- Pointers are addresses, and what lies outside `pcbTable` is plain memory; a `kill_tree` there does not come back. -/
def demoBeyond : Beyond .umps where
  nodeAddr n := ((n.bind fun n => demoNodes.find? fun a => a.2 = n).map Prod.fst).getD 0
  node w := (demoNodes.find? fun a => a.1 = w).map Prod.snd
  pcb w := (demoNodes.find? fun a => a.1 = w).bind fun a => a.2.pcb?
  load a m := m.mem a
  store a w m := { m with mem := Function.update m.mem a w }
  killTree _ _ := none

/-- A uMPS machine with idle devices, zeroed memory and a TOD clock that moves on by 100 at every reading. -/
def demo : Cfg .umps where
  prio := .int32
  clock := fun n => 100 * (n + 1)
  timeScale := 1
  pcbTable := 0x20008000
  semKeys := 0x20009500
  ramTop := 0x20100000
  idleCode := 0x20001000
  testCode := 0x20002000
  stst := fun _ => 0
  mem0 := fun _ => 0
  hw0 := ⟨fun _ => stReady, fun _ => 0, fun _ => false⟩
  beyond := demoBeyond
  pcbTable_pos := by decide
  pcbTable_fits := by decide
  semKeys_fits := by decide

theorem demo_monotone : Monotone demo.clock := by
  intro i j hij
  show 100 * (i + 1) ≤ 100 * (j + 1)
  omega

/-- The state of a process that executes a system call. -/
def syscallState (n a b c : Word) : CpuState .umps := fun i =>
  if i = Target.umps.cause then 0x20 else if i = Target.umps.sysArg0 then n
  else if i = Target.umps.sysArg1 then a else if i = Target.umps.sysArg2 then b
  else if i = Target.umps.sysArg3 then c else 0

/-- A system call in a state; memory and devices are as the kernel left them. -/
def syscall (s : KState .umps) (n a b c : Word) : Entry .umps := ⟨.sysbk, syscallState n a b c, s.m.mem, s.m.hw⟩

/-- An interrupt on a line. -/
def interrupt (s : KState .umps) (line : Nat) (hw : Hw) : Entry .umps :=
  ⟨.int, fun i => if i = Target.umps.cause then 1 <<< (8 + line) else 0, s.m.mem, hw⟩

/-- The end of a time slice. -/
def timer (s : KState .umps) : Entry .umps := interrupt s ilTimer s.m.hw

/-- The first process has created a child. -/
def forked : KState .umps := after demo (booted demo) (syscall (booted demo) 2 0 1 0)

/-- Its time slice is over, and the child runs. -/
def childRuns : KState .umps := after demo forked (timer forked)

theorem run_forked : Run demo (fun s e => ValidEntry demo s e ∧ Lawful demo s e) forked :=
  run_after (run_booted demo _) ⟨by decide +kernel, lawful_of_check (by decide +kernel)⟩ (by decide +kernel)

theorem run_childRuns : Run demo (fun s e => ValidEntry demo s e ∧ Lawful demo s e) childRuns :=
  run_after run_forked ⟨by decide +kernel, lawful_of_check (by decide +kernel)⟩ (by decide +kernel)

/-- The operation of a device function has ended with a status, and its interrupt is pending. -/
def finish (hw : Hw) (f : DevFn) (status : Word) : Hw :=
  { hw with status := Function.update hw.status f status, pending := Function.update hw.pending f true }

/-- The first process waits for the transmitter of terminal 0. -/
def transmitting : KState .umps :=
  after demo (booted demo) (syscall (booted demo) 6 0x4102 (Target.devRegAddr .umps ilTerminal 0) 0)

theorem run_transmitting : Run demo (Lawful demo) transmitting :=
  run_after (run_booted demo _) (lawful_of_check (by decide +kernel)) (by decide +kernel)

/-- The first process has registered a handler for SYS/BK exceptions. -/
def sysbkRegistered : KState .umps := after demo (booted demo) (syscall (booted demo) 7 0 0x20003000 0x20004000)

theorem run_sysbkRegistered : Run demo (Lawful demo) sysbkRegistered :=
  run_after (run_booted demo _) (lawful_of_check (by decide +kernel)) (by decide +kernel)

end Bikaya.Kernel
