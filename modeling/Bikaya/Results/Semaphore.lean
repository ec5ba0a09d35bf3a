import Bikaya.Kernel.Replay
import Bikaya.Kernel.Tally

/-!
# The ledger of a semaphore

A semaphore that only VERHOGEN and PASSEREN touch is never negative, nobody waits on it while it is positive,
and its first value and the VERHOGENs since then pay for its value and the completed PASSERENs (`ledger`).
`Ledger` is the invariant; deaths leave the count alone, for the value knows nothing of the waiting list. The VERHOGENs
and PASSERENs counted are the system calls that entered the kernel.
-/

namespace Bikaya.Results
open Bikaya.Lib Bikaya.Model Bikaya.Spec Bikaya.Refine Bikaya.Kernel

variable {T : Target} {cfg : Cfg T}

/-- No function has this semaphore. -/
def NoDevice (cfg : Cfg T) (sem : Key) : Prop := ∀ f : DevFn, Exists f → sem ≠ devKey cfg f

/-- The entry, at the machine `m`, writes at the semaphore by VERHOGEN and PASSEREN only, and no VERHOGEN exceeds
`INT_MAX`. -/
structure Keeps (sem : Key) (e : Entry T) (m : Machine T) : Prop where
  io : ValidIo e
  outputs : ¬ Outputs e m sem
  bounded : IsCall e 4 → e.st T.sysArg1 = sem → (m.mem sem).toInt < 2 ^ 31 - 1

/-- The entry is lawful, and the semaphore is as the kernel left it. -/
structure SemEntry (cfg : Cfg T) (sem : Key) (s : KState T) (e : Entry T) : Prop where
  lawful : Lawful cfg s e
  mem : e.mem sem = s.m.mem sem
  keeps : Keeps sem e (s.entered e).m

/-- The books, opened with `v₀` at the history `h₀`. -/
structure Ledger (sem : Key) (v₀ : Int) (h₀ : History T) (s : KState T) (q : Queues) : Prop where
  nonneg : 0 ≤ (s.m.mem sem).toInt
  empty : 0 < (s.m.mem sem).toInt → q.waiting sem = []
  balance : ∃ new, s.hist = new ++ h₀ ∧ v₀ + verhogens sem new = (s.m.mem sem).toInt + completed sem new

section
variable {sem : Key} {v₀ : Int} {h₀ : History T} {s s' : KState T} {q q' : Queues}

theorem verhogens_append (new h : History T) : verhogens sem (new ++ h) = verhogens sem new + verhogens sem h :=
  List.countP_append

theorem completed_append (new h : History T) : completed sem (new ++ h) = completed sem new + completed sem h :=
  List.countP_append

/-- Neither a VERHOGEN nor the end of a PASSEREN of the semaphore. -/
def Quiet (sem : Key) (o : Obs T) : Prop := isVerhogen sem o = false ∧ completes sem o = false

theorem quiet_time {o : Obs T} (ho : IsTime o) : Quiet sem o := by
  cases o <;> first | exact ho.elim | exact ⟨rfl, rfl⟩

theorem counts_quiet {ns : History T} (h : ∀ n ∈ ns, Quiet sem n.1) : verhogens sem ns = 0 ∧ completed sem ns = 0 := by
  unfold verhogens completed
  simp only [List.countP_eq_zero, Bool.not_eq_true]
  exact ⟨fun n hn => (h n hn).1, fun n hn => (h n hn).2⟩

namespace Ledger
variable (h : Ledger sem v₀ h₀ s q)
include h

/-- New observations, and the value changed by as much as they say. -/
theorem move (ns : History T) (hns : s'.hist = ns ++ s.hist)
    (hmem : (s'.m.mem sem).toInt + completed sem ns = (s.m.mem sem).toInt + verhogens sem ns)
    (hnonneg : 0 ≤ (s'.m.mem sem).toInt) (hempty : 0 < (s'.m.mem sem).toInt → q'.waiting sem = []) :
    Ledger sem v₀ h₀ s' q' := by
  obtain ⟨new, hnew, hbal⟩ := h.balance
  refine ⟨hnonneg, hempty, ns ++ new, by rw [hns, hnew, List.append_assoc], ?_⟩
  rw [verhogens_append, completed_append]
  push_cast
  omega

/-- Nothing happens to the semaphore, but waiters may be killed. -/
theorem quiet (ns : History T) (hns : s'.hist = ns ++ s.hist) (hq : ∀ n ∈ ns, Quiet sem n.1)
    (hmem : s'.m.mem sem = s.m.mem sem) (hempty : q.waiting sem = [] → q'.waiting sem = []) :
    Ledger sem v₀ h₀ s' q' := by
  obtain ⟨hv, hc⟩ := counts_quiet hq
  refine h.move ns hns ?_ ?_ ?_
  · rw [hmem, hv, hc]
  · rw [hmem]
    exact h.nonneg
  · rw [hmem]
    exact fun hpos => hempty (h.empty hpos)

theorem time (ht : Timed s s') : Ledger sem v₀ h₀ s' q := by
  obtain ⟨ns, hns, hn⟩ := ht.hist
  exact h.quiet ns hns (fun n hm => quiet_time (hn n hm).1) (by rw [ht.same.mem]) id

/-- One observation. -/
theorem push {o : Obs T} (ho : Quiet sem o) : Ledger sem v₀ h₀ (s.push o) q :=
  h.quiet [(o, s.m)] rfl (fun n hn => by rw [List.mem_singleton.mp hn]; exact ho) rfl id

end Ledger

theorem toInt_succ {x : Word} (h : x.toInt < 2 ^ 31 - 1) : (x + 1).toInt = x.toInt + 1 := by
  have h₁ := BitVec.le_toInt x
  rw [BitVec.toInt_add]
  exact Int.bmod_eq_of_le (by simp at h₁ ⊢; omega) (by simp at h ⊢; omega)

theorem toInt_pred {x : Word} (h : 0 < x.toInt) : (x - 1).toInt = x.toInt - 1 := by
  have h₁ := BitVec.toInt_lt (x := x)
  rw [BitVec.toInt_sub]
  exact Int.bmod_eq_of_le (by simp at h₁ ⊢; omega) (by simp at h₁ ⊢; omega)

theorem ledger_act (hdev : NoDevice cfg sem) (ha : Act cfg s q s' q')
    (he : ∃ e m, lastEntry s.hist = some (e, m) ∧ Keeps sem e m) (h : Ledger sem v₀ h₀ s q) :
    Ledger sem v₀ h₀ s' q' := by
  obtain ⟨e, m, he, hk⟩ := he
  cases ha with
  | time ht => exact h.time ht
  | areas => exact h.quiet [] rfl (fun _ hn => by cases hn) rfl id
  | output mem hout =>
    refine h.quiet [] rfl (fun _ hn => by cases hn) ?_ id
    by_contra hne
    obtain ⟨e', m', he', ho⟩ := hout sem hne
    rw [he] at he'
    cases he'
    exact hk.outputs ho
  | register => exact h.quiet [] rfl (fun _ hn => by cases hn) rfl id
  | resume => exact h.push ⟨rfl, rfl⟩
  | passUp => exact h.push ⟨rfl, rfl⟩
  | idle => exact h.push ⟨rfl, rfl⟩
  | preempt => exact h.quiet [_, _] rfl (by simp [Quiet, isVerhogen, completes]) rfl id
  | @dispatch s₂ _ p rest l _ ht =>
    have h₁ : Ledger sem v₀ h₀ (((s.push .run).relink l).setCurrent (some p)) q :=
      h.quiet [_] rfl (by simp [Quiet, isVerhogen, completes]) rfl id
    exact ((h₁.time ht).push (o := .dispatch p _) ⟨rfl, rfl⟩).quiet [] rfl (fun _ hn => by cases hn) rfl id
  | @block s₁ s₂ _ p key st pool _ _ _ hb ht =>
    have h₁ : Ledger sem v₀ h₀ s₁ q ∧ (0 < (s₁.m.mem sem).toInt → key ≠ sem) := by
      cases hb with
      | passeren _ _ hz =>
        refine ⟨h.push ⟨by rfl, by rfl⟩, ?_⟩
        rintro hpos rfl
        change 0 < (s.m.mem key).toInt at hpos
        rw [hz] at hpos
        exact absurd hpos (by decide)
      | waitIo command device subdev hw =>
        obtain ⟨e', m', he', hcall, hcmd, hdevice, hsub⟩ := hw
        rw [he] at he'
        cases he'
        obtain ⟨hd, hs⟩ := hk.io hcall
        obtain ⟨f, hf, hfn, hkey⟩ := waitIo_fn cfg (hdevice ▸ hd) (hsub ▸ hs)
        refine ⟨?_, fun _ hc => hdev f hf (hc.symm.trans hkey)⟩
        rw [commanded_fn hfn]
        exact h.quiet [_] rfl (by simp [Quiet, isVerhogen, completes]) rfl id
    obtain ⟨h₁, hne⟩ := h₁
    have h₂ : Ledger sem v₀ h₀ s₂ q := (h₁.quiet [] rfl (fun _ hn => by cases hn) rfl id : Ledger sem v₀ h₀
      (s₁.setPcb p fun x => { x with pS := st }) q).time ht
    refine h₂.move [_] rfl ?_ h₂.nonneg fun hpos => ?_
    · rfl
    · have hmem : s₂.m.mem = s₁.m.mem := ht.same.mem
      change 0 < (s₂.m.mem sem).toInt at hpos
      change Function.update q.waiting key _ sem = []
      rw [Function.update_of_ne fun hc => hne (by rw [← hmem]; exact hpos) hc.symm]
      exact h₂.empty hpos
  | @handOver _ key p rest l l' hcall hw =>
    by_cases hkey : key = sem
    · subst hkey
      refine h.move [_, _] rfl ?_ h.nonneg fun hpos => ?_
      · simp [verhogens, completed, isVerhogen, completes]
        rfl
      · exact absurd (h.empty hpos) (by rw [hw]; simp)
    · refine h.quiet [_, _] rfl (by simp [Quiet, isVerhogen, completes, hkey]) rfl fun hz => ?_
      exact (Function.update_of_ne (Ne.symm hkey) _ _).trans hz
  | @verhogen _ key hcall hw =>
    by_cases hkey : key = sem
    · subst hkey
      obtain ⟨e', m', he', hcall, hkey, hmem⟩ := hcall
      rw [he] at he'
      cases he'
      have hmem' : Function.update s.m.mem key (s.m.mem key + 1) key = s.m.mem key + 1 := Function.update_self _ _ _
      have hsucc := toInt_succ (x := s.m.mem key) (by rw [hmem]; exact hk.bounded hcall hkey.symm)
      have hnonneg := h.nonneg
      refine h.move [_] rfl ?_ ?_ fun _ => hw
      · change (Function.update s.m.mem key (s.m.mem key + 1) key).toInt + _ = _
        rw [hmem', hsucc]
        simp [verhogens, completed, isVerhogen, completes]
      · change 0 ≤ (Function.update s.m.mem key (s.m.mem key + 1) key).toInt
        rw [hmem', hsucc]
        omega
    · refine h.quiet [_] rfl (by simp [Quiet, isVerhogen, completes, hkey]) ?_ id
      exact Function.update_of_ne (Ne.symm hkey) _ _
  | @passeren _ key hcall hne =>
    by_cases hkey : key = sem
    · subst hkey
      have hmem' : Function.update s.m.mem key (s.m.mem key - 1) key = s.m.mem key - 1 := Function.update_self _ _ _
      have hpos : 0 < (s.m.mem key).toInt := by
        refine lt_of_le_of_ne h.nonneg fun hz => hne ?_
        exact BitVec.eq_of_toInt_eq hz.symm
      have hpred := toInt_pred hpos
      refine h.move [_] rfl ?_ ?_ fun _ => h.empty hpos
      · change (Function.update s.m.mem key (s.m.mem key - 1) key).toInt + _ = _
        rw [hmem', hpred]
        simp [verhogens, completed, isVerhogen, completes]
      · change 0 ≤ (Function.update s.m.mem key (s.m.mem key - 1) key).toInt
        rw [hmem', hpred]
        omega
    · refine h.quiet [_] rfl (by simp [Quiet, isVerhogen, completes, hkey]) ?_ id
      exact Function.update_of_ne (Ne.symm hkey) _ _
  | @serve _ f addr p rest l l' hfin hfn hw =>
    rw [commanded_fn hfn]
    refine h.quiet [_, _, _] rfl (by simp [Quiet, isVerhogen, completes]) rfl fun hz => ?_
    exact (Function.update_of_ne (hdev f hfin.exists) _ _).trans hz
  | spawn => exact h.quiet [_, _] rfl (by simp [Quiet, isVerhogen, completes]) rfl id
  | adopt => exact h.quiet [] rfl (fun _ hn => by cases hn) rfl id
  | quit => exact h.quiet [] rfl (fun _ hn => by cases hn) rfl id
  | bury =>
    refine h.quiet [_] rfl (by simp [Quiet, isVerhogen, completes]) rfl fun hz => ?_
    change (q.waiting sem).erase _ = []
    rw [hz]
    rfl

end

/-- From a reachable state on, in which nobody waits on a positive semaphore, the books balance. -/
theorem ledger {s₀ s : KState T} {sem : Key} (hdev : NoDevice cfg sem) (h₀ : Run cfg (Lawful cfg) s₀)
    (hv : 0 ≤ (s₀.m.mem sem).toInt) (hw : 0 < (s₀.m.mem sem).toInt → waitingList s₀.m sem = [])
    (h : RunFrom cfg (SemEntry cfg sem) s₀ s) :
    0 ≤ (s.m.mem sem).toInt ∧ (0 < (s.m.mem sem).toInt → waitingList s.m sem = []) ∧
      ∃ new, s.hist = new ++ s₀.hist ∧
        (s₀.m.mem sem).toInt + verhogens sem new = (s.m.mem sem).toInt + completed sem new ∧
        (completed sem new : Int) ≤ (s₀.m.mem sem).toInt + verhogens sem new ∧
        verhogens sem new = callsOn 4 sem new ∧ passerens sem new = callsOn 5 sem new := by
  obtain ⟨q₀, hb⟩ := run_between id h₀
  have hl₀ : Ledger sem (s₀.m.mem sem).toInt s₀.hist s₀ q₀ := by
    refine ⟨hv, fun hpos => ?_, [], rfl, rfl⟩
    rw [← hb.sound.rep.waitingList_eq]
    exact hw hpos
  obtain ⟨q, hb', hl⟩ := runFrom_keeps (I := Ledger sem (s₀.m.mem sem).toInt s₀.hist)
    (J := fun s q => Ledger sem (s₀.m.mem sem).toInt s₀.hist s q ∧
      ∃ e m, lastEntry s.hist = some (e, m) ∧ Keeps sem e m)
    (fun hok => hok.lawful)
    (fun _ hok hl => ⟨hl.quiet [_] rfl (by simp [Quiet, isVerhogen, completes]) hok.mem id, _, _, rfl, hok.keeps⟩)
    (fun _ _ ha hj => ⟨ledger_act hdev ha hj.2 hj.1, by rw [ha.lastEntry_eq]; exact hj.2⟩)
    (fun hj => hj.1) hb hl₀ h
  obtain ⟨new, hnew, hbal⟩ := hl.balance
  have hnonneg := hl.nonneg
  have hold : Tallied sem s₀ := run_tallied (fun hok => hok.toInBounds) h₀
  have hall : Tallied sem s := run_tallied (fun hok => hok.toInBounds) (run_from (fun hok => hok.lawful) h₀ h)
  exact ⟨hnonneg, fun hpos => hb'.sound.rep.waitingList_eq sem ▸ hl.empty hpos, new, hnew, hbal, by omega,
    hall.since hold hnew⟩

/-- An entry that is no TERMINATEPROCESS, no SPECPASSUP and no WAITIO. -/
theorem semEntry_of {s : KState T} {sem : Key} {e : Entry T} (h : ¬ IsCall e 3 ∧ ¬ IsCall e 7 ∧ ¬ IsCall e 6 ∧
    e.mem sem = s.m.mem sem ∧ ¬ Outputs e (s.entered e).m sem ∧ (IsCall e 4 → (e.mem sem).toInt < 2 ^ 31 - 1)) :
    SemEntry cfg sem s e :=
  ⟨lawful_of_not h.1 h.2.1, h.2.2.2.1, ⟨fun h6 => absurd h6 h.2.2.1, h.2.2.2.2.1, fun h4 _ => h.2.2.2.2.2 h4⟩⟩

/-- The first process waits on a semaphore at zero. -/
def semTaken : KState .umps := after demo forked (syscall forked 5 0x300 0 0)

/-- The child has released the semaphore. -/
def semReleased : KState .umps := after demo semTaken (syscall semTaken 4 0x300 0 0)

/-- One VERHOGEN, one completed PASSEREN. -/
theorem ledger_semReleased : 0 ≤ (semReleased.m.mem 0x300).toInt ∧
    (0 < (semReleased.m.mem 0x300).toInt → waitingList semReleased.m 0x300 = []) ∧
      ∃ new, semReleased.hist = new ++ (booted demo).hist ∧
        ((booted demo).m.mem 0x300).toInt + verhogens 0x300 new =
          (semReleased.m.mem 0x300).toInt + completed 0x300 new ∧
        (completed 0x300 new : Int) ≤ ((booted demo).m.mem 0x300).toInt + verhogens 0x300 new ∧
        verhogens 0x300 new = callsOn 4 0x300 new ∧ passerens 0x300 new = callsOn 5 0x300 new := by
  have hdev : NoDevice demo 0x300 := by
    rintro ⟨d, rx⟩ ⟨hd, -⟩ he
    have hkey : ∀ d < 40, ∀ rx, devKey demo ⟨d, rx⟩ ≠ 0x300 := by decide
    exact hkey d hd rx he.symm
  have h₁ : RunFrom demo (SemEntry demo 0x300) (booted demo) forked :=
    runFrom_after .refl (semEntry_of (by decide +kernel)) (by decide +kernel)
  have h₂ : RunFrom demo (SemEntry demo 0x300) (booted demo) semTaken :=
    runFrom_after h₁ (semEntry_of (by decide +kernel)) (by decide +kernel)
  have h₃ : RunFrom demo (SemEntry demo 0x300) (booted demo) semReleased :=
    runFrom_after h₂ (semEntry_of (by decide +kernel)) (by decide +kernel)
  exact ledger hdev (run_booted demo _) (by decide +kernel) (fun h => absurd h (by decide +kernel)) h₃

end Bikaya.Results
