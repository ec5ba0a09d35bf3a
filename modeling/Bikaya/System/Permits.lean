import Bikaya.Results.Semaphore
import Bikaya.Spec.Permits
import Bikaya.System.Family

/-!
# Semaphores deal out permits

`permits_conserved` : in every run whose entries keep to the rules of the clients of a semaphore its permits are
conserved, so at most as many processes hold one as there were at the start, and nobody waits while one is left.
`passeren_permit` : a PASSEREN of theirs returns with a permit, at once or after having waited.
-/

namespace Bikaya.Results
open Bikaya.Lib Bikaya.Model Bikaya.Spec Bikaya.Kernel

variable {T : Target} {cfg : Cfg T} {sem : Key}

/-- The kernel with clients of `sem` that keep to the rules, and the books on their permits. -/
def clientRuns (cfg : Cfg T) (sem : Key) : Lts (KState T × Permits) (Entry T × CpuState T) :=
  (kernel cfg (Lawful cfg)).ghost Permits.none (fun s g a => Fair cfg sem (systemOf s.m) g a.1)
    fun s a s' => Permits.step sem (systemOf s.m) a.1 (systemOf s'.m)

theorem clientRuns_abstraction :
    Lts.Abstraction (clientRuns cfg sem) (clients cfg sem (Admitted cfg)) (fun x => Showing cfg x.1)
      fun x => (systemOf x.1.m, x.2) :=
  Lts.Abstraction.ghost (kernel_abstraction _ id fun hs hok => admitted_of_lawful hs hok) Permits.none
    (fun S g a => Fair cfg sem S g a.1) fun S a S' => Permits.step sem S a.1 S'

/-- The runs of the clients are runs. -/
theorem clientRuns_run {s₀ : KState T} {g₀ : Permits} {x : KState T × Permits}
    {tr : List ((KState T × Permits) × (Entry T × CpuState T))} (h₀ : Run cfg (Lawful cfg) s₀)
    (h : (clientRuns cfg sem).Path (s₀, g₀) tr x) : Run cfg (Lawful cfg) x.1 :=
  h.keeps (I := fun x => Run cfg (Lawful cfg) x.1) (fun hr hs => .step _ hr hs.1.1 hs.1.2) h₀

theorem permits_conserved {s₀ s : KState T} {g : Permits} {tr : List ((KState T × Permits) × (Entry T × CpuState T))}
    (h₀ : Run cfg (Lawful cfg) s₀) (hfree : waitingList s₀.m sem = [])
    (h : (clientRuns cfg sem).Path (s₀, Permits.none) tr (s, g)) :
    (s.m.mem sem).toNat + ∑ p ∈ Finset.range maxProc, g.holds p + g.lost = (s₀.m.mem sem).toNat ∧
    (∀ p, 0 < g.holds p → Alive s.m p) ∧
    (∀ A : Finset Pid, (∀ p ∈ A, 0 < g.holds p) → A.card ≤ (s₀.m.mem sem).toNat) ∧
    (waitingList s.m sem ≠ [] → s.m.mem sem = 0) := by
  obtain ⟨-, hpath⟩ := clientRuns_abstraction.path (run_showing id h₀) h
  have hopen : Balanced sem (s₀.m.mem sem).toNat (systemOf s₀.m) Permits.none := by
    refine ⟨?_, fun p hp => absurd hp (Nat.lt_irrefl 0), fun hw => absurd hfree hw⟩
    simp [Permits.none, systemOf]
  obtain ⟨hreach, hb⟩ := balanced_path hpath (run_reach h₀) hopen (s₀.m.mem sem).isLt
  have hlive : ∀ p, 0 < g.holds p → Alive s.m p := fun p hp => (process_systemOf s.m p).mp (hb.living p hp)
  refine ⟨hb.total, hlive, fun A hA => ?_, hb.closed⟩
  have hsub : A ⊆ Finset.range maxProc := fun p hp => Finset.mem_range.mpr (hlive p (hA p hp)).1
  have hcard : A.card ≤ ∑ p ∈ A, g.holds p := by
    rw [Finset.card_eq_sum_ones]
    exact Finset.sum_le_sum hA
  have hle : ∑ p ∈ A, g.holds p ≤ ∑ p ∈ Finset.range maxProc, g.holds p := Finset.sum_le_sum_of_subset hsub
  have htotal : (s.m.mem sem).toNat + ∑ p ∈ Finset.range maxProc, g.holds p + g.lost = (s₀.m.mem sem).toNat := hb.total
  omega

/-! ## A semaphore with one permit -/

/-- The next entry of clients of the semaphore at 0x300. -/
def serve (x : KState .umps × Permits) (e : Entry .umps) : KState .umps × Permits :=
  (after demo x.1 e, x.2.step 0x300 (systemOf x.1.m) e (systemOf (after demo x.1 e).m))

/-- Of a client that keeps to the rules. -/
abbrev Served (x : KState .umps × Permits) (e : Entry .umps) : Prop :=
  isLawful demo x.1 e = true ∧ Fair demo 0x300 (systemOf x.1.m) x.2 e ∧ exits demo x.1 e = true

theorem serve_step {x : KState .umps × Permits} {e : Entry .umps} (h : Served x e) :
    ∃ st, (clientRuns demo 0x300).step x (e, st) (serve x e) := by
  obtain ⟨hok, hfair, hx⟩ := h
  obtain ⟨st, hs⟩ := kernelStep_after hx
  exact ⟨st, ⟨lawful_of_check hok, hs⟩, hfair, rfl⟩

/-- The first process has stored 1 at 0x300. -/
def storing : Entry .umps := { syscall forked 8 0 0 0 with mem := Function.update forked.m.mem 0x300 1 }

def stocked : KState .umps := after demo forked storing

/-- It has passed the semaphore. -/
def entered : KState .umps × Permits := serve (stocked, Permits.none) (syscall stocked 5 0x300 0 0)

/-- Its time slice is over. -/
def passed : KState .umps × Permits := serve entered (timer entered.1)

/-- The child waits. -/
def contended : KState .umps × Permits := serve passed (syscall passed.1 5 0x300 0 0)

/-- The first process has handed its permit to the child. -/
def handed : KState .umps × Permits := serve contended (syscall contended.1 4 0x300 0 0)

theorem contended_facts :
    (isLawful demo forked storing = true ∧ exits demo forked storing = true) ∧
    Served (stocked, Permits.none) (syscall stocked 5 0x300 0 0) ∧ Served entered (timer entered.1) ∧
    Served passed (syscall passed.1 5 0x300 0 0) ∧ Served contended (syscall contended.1 4 0x300 0 0) ∧
    waitingList stocked.m 0x300 = [] ∧ 0 < contended.2.holds firstPid ∧ waitingList contended.1.m 0x300 = [18] ∧
    Alive handed.1.m 18 ∧ 18 ∉ waitingList handed.1.m 0x300 := by decide +kernel

theorem run_stocked : Run demo (Lawful demo) stocked :=
  run_after (run_mono And.right run_forked) (lawful_of_check contended_facts.1.1) contended_facts.1.2

theorem path_contended : ∃ tr, (clientRuns demo 0x300).Path (stocked, Permits.none) tr contended := by
  obtain ⟨-, h₁, h₂, h₃, -⟩ := contended_facts
  obtain ⟨st₁, h₁⟩ := serve_step h₁
  obtain ⟨st₂, h₂⟩ := serve_step h₂
  obtain ⟨st₃, h₃⟩ := serve_step h₃
  exact ⟨_, .step (.step (.step .refl h₁) h₂) h₃⟩

/-- The first process holds the permit, and the child waits. -/
theorem permits_conserved_contended : 0 < contended.2.holds firstPid ∧ waitingList contended.1.m 0x300 = [18] ∧
    (contended.1.m.mem 0x300).toNat + ∑ p ∈ Finset.range maxProc, contended.2.holds p + contended.2.lost =
      (stocked.m.mem 0x300).toNat ∧ contended.1.m.mem 0x300 = 0 := by
  obtain ⟨tr, h⟩ := path_contended
  obtain ⟨-, -, -, -, -, hfree, hholds, hwait, -, -⟩ := contended_facts
  have hall := permits_conserved (s := contended.1) (g := contended.2) run_stocked hfree h
  exact ⟨hholds, hwait, hall.1, hall.2.2.2 (by rw [hwait]; exact List.cons_ne_nil _ _)⟩

theorem passeren_permit {s₀ s s' : KState T} {g g' : Permits} {e : Entry T} {st : CpuState T} {p : Pid}
    {tr : List ((KState T × Permits) × (Entry T × CpuState T))} (hdev : NoDevice cfg sem)
    (h₀ : Run cfg (Lawful cfg) s₀) (h : (clientRuns cfg sem).Path (s₀, Permits.none) tr (s, g))
    (hs : (clientRuns cfg sem).step (s, g) (e, st) (s', g')) (hlive : Alive s'.m p)
    (hcall : p ∈ waitingList s.m sem ∨ s.m.currentProc = some p ∧ IsCall e 5 ∧ e.st T.sysArg1 = sem)
    (hreturn : p ∉ waitingList s'.m sem) : g'.holds p = g.holds p + 1 := by
  have hrun := clientRuns_run h₀ h
  obtain ⟨⟨hok, hk⟩, -, hg⟩ := hs
  have hg : g' = g.step sem (systemOf s.m) e (systemOf s'.m) := hg
  rw [hg]
  have hstep := (kernelStep_system (run_showing id hrun) hok hk).2
  have hlive' := (process_systemOf s'.m p).mpr hlive
  rcases hcall with hw | ⟨hp, h5, harg⟩
  · exact hstep.woken_permit (reach_fit (run_reach hrun)) hdev hw hreturn hlive'
  · exact hstep.passed_permit h5 harg hp hreturn hlive'

theorem noDevice_demo : NoDevice demo 0x300 := by
  rintro ⟨d, rx⟩ ⟨hd, -⟩ he
  have hkey : ∀ d < 40, ∀ rx, devKey demo ⟨d, rx⟩ ≠ 0x300 := by decide
  exact hkey d hd rx he.symm

/-- The first process hands its permit to the child. -/
theorem passeren_permit_contended : handed.2.holds 18 = contended.2.holds 18 + 1 := by
  obtain ⟨tr, h⟩ := path_contended
  obtain ⟨-, -, -, -, hserved, -, -, hwait, hlive, hreturn⟩ := contended_facts
  obtain ⟨st, hs⟩ := serve_step hserved
  have hmem : 18 ∈ waitingList contended.1.m 0x300 := by
    rw [hwait]
    exact List.mem_singleton_self 18
  exact passeren_permit noDevice_demo run_stocked h hs hlive (Or.inl hmem) hreturn

end Bikaya.Results
