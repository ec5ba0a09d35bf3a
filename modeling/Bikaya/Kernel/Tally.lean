import Bikaya.Kernel.Direct

/-!
# Uses of semaphores

The history of a run notes one VERHOGEN for every entry that is a VERHOGEN, and one PASSEREN for every PASSEREN, with
the semaphore that the call names (`run_tallied`). All other entries use no semaphore, which `step_times` says; these
two do it once, between acts that do not (`verhogen_once`, `passeren_once`).
-/

namespace Bikaya.Kernel
open Bikaya.Lib Bikaya.Model Bikaya.Spec Bikaya.Refine Bikaya.Model.KM

variable {T : Target} {cfg : Cfg T}

/-! ## Without semaphores -/

/-- No semaphore is used, and the kernel is not entered. -/
def Apart : Deed → Prop
  | .account _ => True
  | .register => True
  | .enter => False
  | .semaphore => False

/-- Nothing was noted that counts for `sem`. -/
structure SameTally (sem : Key) (s s' : KState T) : Prop where
  verhogens : verhogens sem s'.hist = verhogens sem s.hist
  passerens : passerens sem s'.hist = passerens sem s.hist
  calls : ∀ n, callsOn n sem s'.hist = callsOn n sem s.hist

/-- The observation counts for no semaphore. -/
structure Uncounted (o : Obs T) : Prop where
  verhogen : ∀ sem, isVerhogen sem o = false
  passeren : ∀ sem, isPasseren sem o = false
  call : ∀ n sem, isCallOn n sem o = false

theorem IsTime.uncounted {o : Obs T} (h : IsTime o) : Uncounted o := by
  cases o <;> first | exact h.elim | exact ⟨fun _ => rfl, fun _ => rfl, fun _ _ => rfl⟩

namespace SameTally
variable {sem : Key} {s s₁ s₂ : KState T}

theorem of_hist (h : s₁.hist = s.hist) : SameTally sem s s₁ := ⟨by rw [h], by rw [h], fun n => by rw [h]⟩

theorem trans (h : SameTally sem s s₁) (h' : SameTally sem s₁ s₂) : SameTally sem s s₂ :=
  ⟨h'.verhogens.trans h.verhogens, h'.passerens.trans h.passerens, fun n => (h'.calls n).trans (h.calls n)⟩

theorem push {o : Obs T} (ho : Uncounted o) : SameTally sem s (s.push o) where
  verhogens := List.countP_cons_of_neg (by simp [ho.verhogen sem])
  passerens := List.countP_cons_of_neg (by simp [ho.passeren sem])
  calls n := List.countP_cons_of_neg (by simp [ho.call n sem])

theorem timed (h : Timed s s₁) : SameTally sem s s₁ where
  verhogens := h.reading fun n l hn => List.countP_cons_of_neg (by simp [(IsTime.uncounted hn).verhogen sem])
  passerens := h.reading fun n l hn => List.countP_cons_of_neg (by simp [(IsTime.uncounted hn).passeren sem])
  calls k := h.reading fun n l hn => List.countP_cons_of_neg (by simp [(IsTime.uncounted hn).call k sem])

/-- Acts apart from semaphores. -/
theorem act (h : TimeAct cfg Apart s s₁) : SameTally sem s s₁ := by
  cases h with
  | frame hs => exact of_hist hs.hist
  | note o ho hsem =>
    refine push ?_
    cases o <;> first | exact ho.elim | exact (hsem trivial).elim | exact ⟨fun _ => rfl, fun _ => rfl, fun _ _ => rfl⟩
  | account kernel _ => exact timed (accounted_timed cfg s kernel)
  | read => exact of_hist rfl
  | quit => exact of_hist rfl
  | enter _ hok => exact hok.elim
  | register => exact of_hist rfl
  | @run t t' p st h₁ h₂ =>
    have hrun : SameTally sem s t := (push ⟨fun _ => rfl, fun _ => rfl, fun _ _ => rfl⟩).trans (of_hist h₁.hist)
    have hcur : SameTally sem t (t.setCurrent (some p)) := of_hist rfl
    have htick := ((hcur.trans (timed (started_timed cfg _ p))).trans (timed (ticked_timed cfg _))).trans (of_hist h₂.hist)
    exact (hrun.trans htick).trans (push ⟨fun _ => rfl, fun _ => rfl, fun _ _ => rfl⟩)
  | @create t p st h₁ =>
    have hfresh : SameTally sem s t := of_hist h₁.hist
    exact hfresh.trans (push ⟨fun _ => rfl, fun _ => rfl, fun _ _ => rfl⟩)

theorem acts (h : TimeActs cfg Apart s s₁) : SameTally sem s s₁ :=
  h.keeps (I := SameTally sem s) (fun ha hs => hs.trans (act ha)) (of_hist rfl)

end SameTally

/-! ## One use -/

/-- A semaphore is used once, as `o` says, between other acts. -/
def UsesOnce (cfg : Cfg T) (o : Obs T → Prop) (s s' : KState T) : Prop :=
  ∃ n s₁, o n ∧ TimeActs cfg Apart s s₁ ∧ TimeActs cfg Apart (s₁.push n) s'

theorem UsesOnce.then {o : Obs T → Prop} {s s₁ s₂ : KState T} (h : UsesOnce cfg o s s₁) (ht : TimeActs cfg Apart s₁ s₂) :
    UsesOnce cfg o s s₂ := by
  obtain ⟨n, t, hn, h₁, h₂⟩ := h
  exact ⟨n, t, hn, h₁, h₂.trans ht⟩

section
variable {α : Type} {o : Obs T → Prop}

/-- The program uses a semaphore once, whether it returns or leaves the kernel. -/
def Uses (cfg : Cfg T) (o : Obs T → Prop) (x : KM T α) : Prop :=
  ∀ s, Exec.wp x (fun _ s' => UsesOnce cfg o s s') (fun _ s' => UsesOnce cfg o s s') (fun _ => True) s

/-- The use itself. -/
theorem Uses.note {n : Obs T} (hn : o n) : Uses cfg o (KM.note n) := fun s =>
  wp_ret (note_ret n s) ⟨n, s, hn, .refl, .refl⟩

theorem Uses.then {x : KM T α} {β : Type} {f : α → KM T β} (hx : Uses cfg o x) (hf : ∀ a, Traced cfg Apart (f a)) :
    Uses cfg o (x >>= f) := by
  intro s
  rw [Exec.wp_bind]
  refine Exec.wp_conseq (hx s) fun a s₁ h₁ => ?_
  exact Exec.wp_mono (hf a s₁) (fun _ _ h₂ => h₁.then h₂) (fun _ _ h₂ => h₁.then h₂) fun _ h => h

/-- After a first part that does not leave the kernel. -/
theorem Uses.after {β : Type} {x : KM T β} {f : β → KM T α} (hx : Traced cfg Apart x) (hno : NoExit x)
    (hf : ∀ a, Uses cfg o (f a)) : Uses cfg o (x >>= f) := by
  intro s
  have hfirst : Exec.wp x (fun _ s₁ => TimeActs cfg Apart s s₁) (fun _ _ => False) (fun _ => True) s := by
    have htraced := hx s
    have hstays := hno s
    unfold Exec.wp at htraced hstays ⊢
    cases hk : x s with
    | ret a s₁ =>
      rw [hk] at htraced
      exact htraced
    | exit st s₁ =>
      rw [hk] at hstays
      exact hstays
    | fault g => trivial
  rw [Exec.wp_bind]
  refine Exec.wp_mono hfirst (fun a s₁ h₁ => ?_) (fun _ _ h => h.elim) fun _ h => h
  have hafter : ∀ {s'}, UsesOnce cfg o s₁ s' → UsesOnce cfg o s s' := fun h => by
    obtain ⟨n, t, hn, h₂, h₃⟩ := h
    exact ⟨n, t, hn, h₁.trans h₂, h₃⟩
  exact Exec.wp_mono (hf a s₁) (fun _ _ h => hafter h) (fun _ _ h => hafter h) fun _ h => h

end

theorem verhogen_once (key : Key) :
    Uses cfg (fun o => ∃ b, o = .verhogen key b) (verhogen (T := T) key) := by
  apply Uses.after (Traced.pool (KeepsRecords.aslSemd key)) (NoExit.pool _)
  intro r
  cases r with
  | none =>
    apply Uses.after Traced.machine NoExit.machine
    intro m
    exact Uses.after (Traced.store _ _) (.of_ret fun s => ⟨(), _, rfl⟩) fun _ => Uses.note ⟨none, rfl⟩
  | some d =>
    apply Uses.after (Traced.pool (KeepsRecords.aslRemoveBlocked key)) (NoExit.pool _)
    intro b
    exact (Uses.note ⟨b, rfl⟩).then fun _ => Traced.schedulerEnqueueProcess b

theorem passeren_once (key : Key) :
    Uses cfg (fun o => ∃ b, o = .passeren key b) (passeren cfg key) := by
  apply Uses.after Traced.machine NoExit.machine
  intro m
  split
  · exact Uses.after (Traced.store _ _) (.of_ret fun s => ⟨(), _, rfl⟩) fun _ => Uses.note ⟨true, rfl⟩
  · exact (Uses.note ⟨false, rfl⟩).then fun _ => Traced.blockOn trivial key

/-! ## Entries -/

theorem called_verhogen (s : KState T) {e : Entry T} (hnum : (e.st T.sysArg0).toNat = 4) :
    syscallSwitch cfg (s.called cfg e) = verhogen (e.st T.sysArg1) (s.called cfg e) := by
  have hbranch := called_switch cfg s e
  rw [hnum] at hbranch
  exact hbranch

theorem called_passeren (s : KState T) {e : Entry T} (hnum : (e.st T.sysArg0).toNat = 5) :
    syscallSwitch cfg (s.called cfg e) = passeren cfg (e.st T.sysArg1) (s.called cfg e) := by
  have hbranch := called_switch cfg s e
  rw [hnum] at hbranch
  exact hbranch

/-- A system call that uses a semaphore. -/
theorem step_uses {o : Obs T → Prop} {x : KM T Unit} {s s' : KState T} {e : Entry T} {st : CpuState T} {n : Nat}
    (hcall : IsCall e n) (hx : Uses cfg o x) (hswitch : syscallSwitch cfg (s.called cfg e) = x (s.called cfg e))
    (hk : kernelStep cfg e s = .exit st s') : UsesOnce cfg o (s.called cfg e) s' := by
  have hresume : ∀ _ : Unit, Traced cfg Apart (schedulerResume cfg false (some .sysbk)) := fun _ =>
    Traced.schedulerResume trivial _ _
  have hwp := (hx.then hresume) (s.called cfg e)
  rw [kernelStep_syscall hcall.1 hcall.2.1, bind_same hswitch] at hk
  unfold Exec.wp at hwp
  rw [hk] at hwp
  exact hwp

variable {sem : Key} {s s' : KState T} {e : Entry T} {st : CpuState T}

/-- What an observation adds. -/
theorem push_tally (sem : Key) (s : KState T) (o : Obs T) :
    verhogens sem (s.push o).hist = verhogens sem s.hist + (if isVerhogen sem o = true then 1 else 0) ∧
    passerens sem (s.push o).hist = passerens sem s.hist + (if isPasseren sem o = true then 1 else 0) ∧
    ∀ n, callsOn n sem (s.push o).hist = callsOn n sem s.hist + if isCallOn n sem o = true then 1 else 0 :=
  ⟨List.countP_cons, List.countP_cons, fun _ => List.countP_cons⟩

/-- As many VERHOGENs and PASSERENs are noted as have entered. -/
structure Tallied (sem : Key) (s : KState T) : Prop where
  verhogens : verhogens sem s.hist = callsOn 4 sem s.hist
  passerens : passerens sem s.hist = callsOn 5 sem s.hist

/-- So it is with what has been noted since an earlier state. -/
theorem Tallied.since {s₀ : KState T} {new : History T} (h : Tallied sem s) (h₀ : Tallied sem s₀)
    (hnew : s.hist = new ++ s₀.hist) :
    Spec.verhogens sem new = callsOn 4 sem new ∧ Spec.passerens sem new = callsOn 5 sem new := by
  obtain ⟨hv₀, hp₀⟩ := h₀
  obtain ⟨hv, hp⟩ := h
  rw [hnew] at hv hp
  unfold Spec.verhogens Spec.passerens callsOn at *
  simp only [List.countP_append] at hv hp
  omega

/-- Up to the first accounting an entry adds a call. -/
theorem accounted_tally (sem : Key) (cfg : Cfg T) (s : KState T) (e : Entry T) :
    SameTally sem (s.push (.entry e)) ((s.entered e).accounted cfg false) := by
  have hentered : SameTally sem (s.push (.entry e)) (s.entered e) := ⟨rfl, rfl, fun _ => rfl⟩
  exact hentered.trans (.timed (accounted_timed cfg _ false))

/-- Where the entry has been noted and its use, if there is one. -/
theorem Tallied.used {o : Obs T} {s₁ : KState T} (h : Tallied sem s) (h₁ : SameTally sem (s.push (.entry e)) s₁)
    (h₂ : SameTally sem (s₁.push o) s') (hv : isVerhogen sem o = isCallOn 4 sem (.entry e : Obs T))
    (hp : isPasseren sem o = isCallOn 5 sem (.entry e : Obs T)) (hno : ∀ n, isCallOn n sem o = false) :
    Tallied sem s' := by
  obtain ⟨hv₀, hp₀, hc₀⟩ := push_tally sem s (.entry e)
  obtain ⟨hv₁, hp₁, hc₁⟩ := push_tally sem s₁ o
  constructor
  · rw [h₂.verhogens, hv₁, h₁.verhogens, hv₀, h.verhogens, hv, h₂.calls, hc₁, h₁.calls, hc₀, hno]
    simp [isVerhogen]
  · rw [h₂.passerens, hp₁, h₁.passerens, hp₀, h.passerens, hp, h₂.calls, hc₁, h₁.calls, hc₀, hno]
    simp [isPasseren]

theorem Tallied.unused (h : Tallied sem s) (h₁ : SameTally sem (s.push (.entry e)) s')
    (h4 : isCallOn 4 sem (.entry e : Obs T) = false) (h5 : isCallOn 5 sem (.entry e : Obs T) = false) :
    Tallied sem s' := by
  obtain ⟨hv₀, hp₀, hc₀⟩ := push_tally sem s (.entry e)
  constructor
  · rw [h₁.verhogens, hv₀, h.verhogens, h₁.calls, hc₀, h4]
    simp [isVerhogen]
  · rw [h₁.passerens, hp₀, h.passerens, h₁.calls, hc₀, h5]
    simp [isPasseren]

theorem step_tallied (hbounds : InBounds cfg e) (hk : kernelStep cfg e s = .exit st s') (h : Tallied sem s) :
    Tallied sem s' := by
  have hacc := accounted_tally sem cfg s e
  have hcalled : SameTally sem (s.push (.entry e)) (s.called cfg e) := hacc.trans (.of_hist rfl)
  have hon : ∀ {n}, IsCall e n → isCallOn n sem (.entry e : Obs T) = decide (e.st T.sysArg1 = sem) := fun hn => by
    simp [isCallOn, hn]
  have hoff : ∀ {n}, ¬ IsCall e n → isCallOn n sem (.entry e : Obs T) = false := fun hn => by
    simp [isCallOn, hn]
  by_cases h4 : IsCall e 4
  · have h5 : ¬ IsCall e 5 := fun h5 => absurd (h4.2.2.symm.trans h5.2.2) (by decide)
    obtain ⟨n, s₁, ⟨b, rfl⟩, h₁, h₂⟩ := step_uses h4 (verhogen_once (e.st T.sysArg1)) (called_verhogen s h4.2.2) hk
    exact h.used (hcalled.trans (.acts h₁)) (.acts h₂) (hon h4).symm (hoff h5).symm fun _ => rfl
  · by_cases h5 : IsCall e 5
    · obtain ⟨n, s₁, ⟨b, rfl⟩, h₁, h₂⟩ := step_uses h5 (passeren_once (e.st T.sysArg1)) (called_passeren s h5.2.2) hk
      exact h.used (hcalled.trans (.acts h₁)) (.acts h₂) (hoff h4).symm (hon h5).symm fun _ => rfl
    · have hok : Permits Apart e := ⟨trivial, fun _ => trivial, fun _ => trivial, fun hc => hc.elim h4 h5⟩
      exact h.unused (hacc.trans (.acts (step_times hbounds hok hk))) (hoff h4) (hoff h5)

/-- So in every run. -/
theorem run_tallied {ok : KState T → Entry T → Prop} (hbounds : ∀ {s e}, ok s e → InBounds cfg e) (h : Run cfg ok s) :
    Tallied sem s := by
  induction h with
  | boot hb =>
    have htimes : TimeActs cfg Apart _ _ := boot_times hb
    have hboot : SameTally sem _ _ := .acts htimes
    exact ⟨hboot.verhogens.trans (hboot.calls 4).symm, hboot.passerens.trans (hboot.calls 5).symm⟩
  | step e _ he hk ih => exact step_tallied (hbounds he) hk ih

end Bikaya.Kernel
