import Bikaya.Kernel.Run
import Bikaya.Spec.Operations

/-!
# The service of devices

`Service … fs …` : the completed operations of the functions `fs` are reported to their waiters and acknowledged, and
nothing else happens. `Attends … P` : a piece of the interrupt handler serves the completed functions with the
property `P`, each once, unless it finds one of them without a waiter. Both compose, so the handler is followed
device by device and line by line.
-/

namespace Bikaya.Kernel
open Bikaya.Lib Bikaya.Model Bikaya.Spec Bikaya.Refine Bikaya.Model.KM

variable {T : Target}

/-! ## Functions -/

/-- The function is acknowledged: the last command is the acknowledgement, and it is ready without an interrupt. -/
structure Acked (hw : Hw) (f : DevFn) : Prop where
  command : hw.command f = cmdAck
  status : hw.status f = stReady
  pending : hw.pending f = false

theorem acked_issue {hw : Hw} {f : DevFn} (h : Finished hw f) : Acked (hw.issue f cmdAck) f := by
  have hnot : ¬ hw.inProgress f = true := Bool.eq_false_iff.mp h.not_inProgress
  unfold Hw.issue
  rw [if_neg hnot]
  exact ⟨Function.update_self _ _ _, Function.update_self _ _ _, Function.update_self _ _ _⟩

theorem Acked.congr {hw hw' : Hw} {f : DevFn} (h : Acked hw f) (hs : SameFn hw hw' f) : Acked hw' f :=
  ⟨hs.command.trans h.command, hs.status.trans h.status, hs.pending.trans h.pending⟩

theorem Acked.not_finished {hw : Hw} {f : DevFn} (h : Acked hw f) : ¬ Finished hw f := by
  unfold Finished
  rw [h.status, h.pending]
  split
  · exact fun hf => Bool.false_ne_true hf.2
  · exact fun hf => absurd hf.2 (by decide)

/-! ## Services -/

structure Service (cfg : Cfg T) (s : KState T) (q : Queues) (fs : List DevFn) (s' : KState T) (q' : Queues) :
    Prop where
  nodup : fs.Nodup
  finished : ∀ f ∈ fs, Finished s.m.hw f
  acked : ∀ f ∈ fs, Acked s'.m.hw f
  others : ∀ f, f ∉ fs → SameFn s.m.hw s'.m.hw f
  woken : ∀ f ∈ fs, ∃ p, q.waiting (devKey cfg f) = p :: q'.waiting (devKey cfg f) ∧ p ∈ q'.ready ∧
    (s'.m.pool.pcbs p).pS = (s.m.pool.pcbs p).pS.setReturn (s.m.hw.status f)
  waiting : ∀ key, (∀ f ∈ fs, key ≠ devKey cfg f) → q'.waiting key = q.waiting key
  ready : ∀ r ∈ q.ready, r ∈ q'.ready
  pS : ∀ r, (∀ f ∈ fs, (q.waiting (devKey cfg f)).head? ≠ some r) → (s'.m.pool.pcbs r).pS = (s.m.pool.pcbs r).pS
  acks : ∀ f, acks f s'.hist = acks f s.hist + fs.count f
  currentProc : s'.m.currentProc = s.m.currentProc
  oldAreas : s'.m.oldAreas = s.m.oldAreas

namespace Service
variable {cfg : Cfg T} {s s' s'' : KState T} {q q' q'' : Queues} {fs fs' : List DevFn} {out : List Pid}

theorem nil (s : KState T) (q : Queues) : Service cfg s q [] s q where
  nodup := List.nodup_nil
  finished _ hf := (List.not_mem_nil hf).elim
  acked _ hf := (List.not_mem_nil hf).elim
  others f _ := .refl s.m.hw f
  woken _ hf := (List.not_mem_nil hf).elim
  waiting _ _ := rfl
  ready _ hr := hr
  pS _ _ := rfl
  acks _ := rfl
  currentProc := rfl
  oldAreas := rfl

/-- What is left completed. -/
theorem left (h : Service cfg s q fs s' q') (f : DevFn) : Finished s'.m.hw f ↔ Finished s.m.hw f ∧ f ∉ fs := by
  by_cases hf : f ∈ fs
  · exact ⟨fun hfin => absurd hfin (h.acked f hf).not_finished, fun hfin => absurd hf hfin.2⟩
  · exact ⟨fun hfin => ⟨(h.others f hf).finished.mp hfin, hf⟩, fun hfin => (h.others f hf).finished.mpr hfin.1⟩

/-- The waiters of a completed function that is not served. -/
theorem waiting_left (h : Service cfg s q fs s' q') {f : DevFn} (hf : Finished s'.m.hw f) :
    q'.waiting (devKey cfg f) = q.waiting (devKey cfg f) := by
  refine h.waiting _ fun g hg he => ?_
  obtain rfl := devKey_inj cfg hf.exists (h.finished g hg).exists he
  exact ((h.left f).mp hf).2 hg

/-- One service after the other. -/
theorem trans (h : Service cfg s q fs s' q') (hs : Sound s'.m.pool q' out) (h' : Service cfg s' q' fs' s'' q'') :
    Service cfg s q (fs ++ fs') s'' q'' := by
  obtain ⟨asl, sf, hrep⟩ := hs.rep
  have hapart : ∀ f ∈ fs', Finished s.m.hw f ∧ f ∉ fs := fun f hf => (h.left f).mp (h'.finished f hf)
  have hkeys : ∀ f ∈ fs, ∀ g ∈ fs', devKey cfg f ≠ devKey cfg g := by
    intro f hf g hg he
    obtain rfl := devKey_inj cfg (h.finished f hf).exists (hapart g hg).1.exists he
    exact (hapart f hg).2 hf
  have hready : ∀ r ∈ q'.ready, ∀ g ∈ fs', (q'.waiting (devKey cfg g)).head? ≠ some r := by
    intro r hr g _ he
    exact hrep.waiting_not_ready (List.mem_of_mem_head? he) hr
  constructor
  · refine List.nodup_append.mpr ⟨h.nodup, h'.nodup, fun f hf g hg he => ?_⟩
    exact (hapart g hg).2 (he ▸ hf)
  · intro f hf
    rcases List.mem_append.mp hf with hf | hf
    · exact h.finished f hf
    · exact (hapart f hf).1
  · intro f hf
    by_cases hf' : f ∈ fs'
    · exact h'.acked f hf'
    · exact (h.acked f ((List.mem_append.mp hf).resolve_right hf')).congr (h'.others f hf')
  · intro f hf
    rw [List.mem_append, not_or] at hf
    exact (h.others f hf.1).trans (h'.others f hf.2)
  · intro f hf
    rcases List.mem_append.mp hf with hf | hf
    · obtain ⟨p, hw, hp, hpS⟩ := h.woken f hf
      refine ⟨p, ?_, h'.ready p hp, (h'.pS p (hready p hp)).trans hpS⟩
      rw [h'.waiting _ fun g hg => hkeys f hf g hg]
      exact hw
    · obtain ⟨p, hw, hp, hpS⟩ := h'.woken f hf
      have hstay : q'.waiting (devKey cfg f) = q.waiting (devKey cfg f) := h.waiting_left (h'.finished f hf)
      have hother : ∀ g ∈ fs, (q.waiting (devKey cfg g)).head? ≠ some p := by
        intro g hg he
        obtain ⟨r, hr, hready, -⟩ := h.woken g hg
        rw [hr] at he
        obtain rfl : r = p := Option.some.inj he
        refine hrep.waiting_not_ready (k := devKey cfg f) ?_ hready
        rw [hw]
        exact List.mem_cons_self
      refine ⟨p, hstay ▸ hw, hp, ?_⟩
      rw [hpS, h.pS p hother, (h.others f (hapart f hf).2).status]
  · intro key hk
    rw [h'.waiting key fun f hf => hk f (List.mem_append_right _ hf)]
    exact h.waiting key fun f hf => hk f (List.mem_append_left _ hf)
  · exact fun r hr => h'.ready r (h.ready r hr)
  · intro r hr
    rw [h'.pS r fun f hf => ?_]
    · exact h.pS r fun f hf => hr f (List.mem_append_left _ hf)
    · rw [h.waiting_left (h'.finished f hf)]
      exact hr f (List.mem_append_right _ hf)
  · intro f
    rw [h'.acks f, h.acks f, List.count_append, Nat.add_assoc]
  · exact h'.currentProc.trans h.currentProc
  · exact h'.oldAreas.trans h.oldAreas

end Service

/-! ## Attending -/

section
variable (cfg : Cfg T) (s : KState T) (q : Queues) (out : List Pid) (P : DevFn → Prop)

/-- The completed functions with the property `P` have been served. -/
def Serves (s' : KState T) : Prop :=
  ∃ fs q', Service cfg s q fs s' q' ∧ Sound s'.m.pool q' out ∧ ∀ f, f ∈ fs ↔ Finished s.m.hw f ∧ P f

/-- Nobody waits for one of the completed functions with the property `P`. -/
def Stuck (_ : Fault) : Prop := ∃ f, Finished s.m.hw f ∧ P f ∧ q.waiting (devKey cfg f) = []

/-- The code serves the completed functions with the property `P`, or is stuck at one of them. -/
def Attends (x : KM T Unit) : Prop :=
  Exec.wp x (fun _ s' => Serves cfg s q out P s') (fun _ _ => False) (Stuck cfg s q P) s

end

namespace Attends
variable {cfg : Cfg T} {s : KState T} {q : Queues} {out : List Pid} {P P' : DevFn → Prop} {x y : KM T Unit}

/-- Only the completed functions matter. -/
theorem congr (h : Attends cfg s q out P x) (hp : ∀ f, Finished s.m.hw f → (P f ↔ P' f)) : Attends cfg s q out P' x := by
  refine Exec.wp_mono h (fun _ s' hs' => ?_) (fun _ _ he => he) fun _ hf => ?_
  · obtain ⟨fs, q', hserv, hs, hfs⟩ := hs'
    refine ⟨fs, q', hserv, hs, fun f => ?_⟩
    rw [hfs f]
    exact and_congr_right (hp f)
  · obtain ⟨f, hfin, hf, hw⟩ := hf
    exact ⟨f, hfin, (hp f hfin).mp hf, hw⟩

/-- Nothing to do. -/
theorem skip (hs : Sound s.m.pool q out) (h : ∀ f, Finished s.m.hw f → ¬ P f) :
    Attends cfg s q out P (Pure.pure ()) := by
  refine (Exec.wp_pure ()).mpr ⟨[], q, .nil s q, hs, fun f => ?_⟩
  exact ⟨fun hf => (List.not_mem_nil hf).elim, fun hf => absurd hf.2 (h f hf.1)⟩

/-- One piece of code after the other. -/
theorem bind (hx : Attends cfg s q out P x)
    (hy : ∀ fs s' q', Service cfg s q fs s' q' → Sound s'.m.pool q' out → (∀ f, f ∈ fs ↔ Finished s.m.hw f ∧ P f) →
      Attends cfg s' q' out P' y) :
    Attends cfg s q out (fun f => P f ∨ P' f) (x >>= fun _ => y) := by
  unfold Attends
  rw [Exec.wp_bind]
  refine Exec.wp_mono hx (fun _ s' hs' => ?_) (fun _ _ he => he) fun _ hf => ?_
  · obtain ⟨fs, q', hserv, hs, hfs⟩ := hs'
    refine Exec.wp_mono (hy fs s' q' hserv hs hfs) (fun _ s'' hs'' => ?_) (fun _ _ he => he) fun _ hf => ?_
    · obtain ⟨fs', q'', hserv', hs', hfs'⟩ := hs''
      refine ⟨fs ++ fs', q'', hserv.trans hs hserv', hs', fun f => ?_⟩
      rw [List.mem_append, hfs' f, hserv.left f, hfs f]
      by_cases hP : P f <;> simp [hP]
    · obtain ⟨f, hfin, hP, hw⟩ := hf
      exact ⟨f, ((hserv.left f).mp hfin).1, Or.inr hP, (hserv.waiting_left hfin).symm.trans hw⟩
  · obtain ⟨f, hfin, hP, hw⟩ := hf
    exact ⟨f, hfin, Or.inl hP, hw⟩

theorem guarded {c : Bool} (hs : Sound s.m.pool q out) (hx : c = true → Attends cfg s q out P x)
    (hskip : c = false → ∀ f, Finished s.m.hw f → ¬ P f) : Attends cfg s q out P (Exec.guarded c x) := by
  cases c with
  | true => exact hx rfl
  | false => exact skip hs (hskip rfl)

end Attends

/-! ## One function -/

theorem acks_push (f : DevFn) (s : KState T) (o : Obs T) :
    acks f (s.push o).hist = acks f s.hist + (isAck f o).toNat := by
  unfold acks KState.push
  rw [List.countP_cons]
  cases isAck f o <;> rfl

theorem serve_attends {cfg : Cfg T} {s : KState T} {q : Queues} {out : List Pid} (hs : Sound s.m.pool q out)
    {device command : Word} {rcpt : Nat} {f : DevFn} (hfn : Hw.fnAt T (device + command) = some f)
    (hkey : interruptsGetDevKey cfg device rcpt = devKey cfg f) (hfin : Finished s.m.hw f) :
    Attends cfg s q out (fun g => g = f) (serve cfg device command rcpt) := by
  unfold Attends serve
  refine wp_bind_ret (devStatus_ret hfn s) ?_
  rw [hkey]
  cases hk : q.waiting (devKey cfg f) with
  | nil =>
    rw [Exec.wp_bind]
    unfold Exec.wp
    rw [unblockProcess_none hs.rep hk]
    exact ⟨f, hfin, rfl, hk⟩
  | cons p rest =>
    obtain ⟨l, l', hrun, -, hs'⟩ := unblockProcess_run hs hk (s.m.hw.status f)
    refine wp_bind_ret hrun ?_
    unfold acknowledge
    refine wp_bind_ret (storeCommand_ret _ cmdAck _) (wp_ret (note_ret _ _) ?_)
    rw [commanded_fn hfn]
    refine ⟨[f], _, ?_, hs', fun g => ?_⟩
    · constructor
      · exact List.nodup_singleton f
      · intro g hg
        rwa [List.mem_singleton.mp hg]
      · intro g hg
        rw [List.mem_singleton.mp hg]
        exact acked_issue hfin
      · exact fun g hg => sameFn_issue cmdAck fun he => hg (List.mem_singleton.mpr he)
      · intro g hg
        rw [List.mem_singleton.mp hg]
        refine ⟨p, ?_, (mem_insertPrio _ p).mpr (Or.inl rfl), ?_⟩
        · show q.waiting (devKey cfg f) = p :: Function.update q.waiting (devKey cfg f) rest (devKey cfg f)
          rw [Function.update_self, hk]
        · exact (woken_pS s p l l' _ p).trans (if_pos rfl)
      · intro key hkey
        exact Function.update_of_ne (hkey f (List.mem_singleton_self f)) _ _
      · exact fun r hr => (mem_insertPrio _ p).mpr (Or.inr hr)
      · intro r hr
        have hne : r ≠ p := fun he => hr f (List.mem_singleton_self f) (by rw [hk, he]; rfl)
        exact (woken_pS s p l l' _ r).trans (if_neg hne)
      · intro g
        have hack : isAck (T := T) g (.ack (device + command)) = decide (f = g) := by
          show decide (Hw.fnAt T (device + command) = some g) = _
          rw [hfn, decide_eq_decide, Option.some_inj]
        refine (acks_push g _ _).trans ?_
        rw [hack, List.count_singleton]
        refine congrArg₂ (· + ·) rfl ?_
        by_cases he : f = g <;> simp [he]
      · rfl
      · rfl
    · rw [List.mem_singleton]
      exact ⟨fun he => ⟨he ▸ hfin, he⟩, fun hg => hg.2⟩

/-! ## One device -/

section
variable (cfg : Cfg T) {s : KState T} {q : Queues} {out : List Pid} (hs : Sound s.m.pool q out)
include hs

theorem handleTermSide_attends {i : Nat} (hi : i < 8) {command : Word} (rx : Bool)
    (hfn : Hw.fnAt T (T.devRegAddr ilTerminal i + command) = some ⟨devIndex ilTerminal i, rx⟩) :
    Attends cfg s q out (fun f => f = ⟨devIndex ilTerminal i, rx⟩)
      (handleTermSide cfg (T.devRegAddr ilTerminal i) command rx.toNat) := by
  have hl : IsLine ilTerminal := ⟨by decide, by decide⟩
  unfold Attends handleTermSide
  refine wp_bind_ret (devStatus_ret hfn s) (Attends.guarded hs (fun hst => ?_) fun hst f hf he => ?_)
  · have hfin := (finished_terminal hi rx).mpr (eq_of_beq hst)
    exact serve_attends hs hfn (getDevKey_eq hl hi cfg rx fun hne => absurd rfl hne) hfin
  · rw [he, finished_terminal hi rx] at hf
    rw [hf] at hst
    exact absurd hst (by decide)

/-- Both sides of a terminal. -/
theorem handleTerm_attends {i : Nat} (hi : i < 8) :
    Attends cfg s q out (fun f => f.dev = devIndex ilTerminal i) (handleTerm cfg (T.devRegAddr ilTerminal i)) := by
  have hl : IsLine ilTerminal := ⟨by decide, by decide⟩
  have htransm := handleTermSide_attends cfg hs hi false (fnAt_transm hl hi rfl)
  refine (htransm.bind fun fs s' q' _ hs' _ => handleTermSide_attends cfg hs' hi true (fnAt_command hl hi)).congr ?_
  intro f _
  obtain ⟨d, rx⟩ := f
  cases rx <;> simp

/-- A device of a line, whose interrupt is pending. -/
theorem handleDevice_attends {line i : Nat} (hl : IsLine line) (hi : i < 8)
    (hint : s.m.hw.interrupting line i = true) :
    Attends cfg s q out (fun f => f.dev = devIndex line i) (handleDevice cfg line i) := by
  unfold handleDevice
  dsimp only
  rw [isTerminal_devRegAddr hl hi]
  by_cases h7 : line = ilTerminal
  · subst h7
    rw [if_pos (by rfl)]
    exact handleTerm_attends cfg hs hi
  · rw [if_neg (by simpa using h7)]
    have hfn := fnAt_command (T := T) hl hi
    rw [decide_eq_false h7] at hfn
    have hkey := getDevKey_eq (T := T) hl hi cfg false fun _ => rfl
    refine (serve_attends hs hfn hkey ((finished_device hl h7 hi).mpr hint)).congr fun f hf => ?_
    have hrx : f.dev = devIndex line i → f.rx = false := by
      intro hd
      refine hf.exists.2 ?_
      obtain ⟨h1, h2⟩ := hl
      rw [hd]
      unfold devIndex
      simp only [devIlStart, nDevPerIl, ilTerminal] at h7 ⊢
      omega
    obtain ⟨d, rx⟩ := f
    exact ⟨fun he => congrArg DevFn.dev he, fun hd => by rw [show d = _ from hd, show rx = _ from hrx hd]⟩

end

/-! ## The lines -/

/-- The interrupt line of a function. -/
def devLine (f : DevFn) : Nat := devIlStart + f.dev / nDevPerIl

/-- The device of the function has an interrupt pending. -/
def Signals (hw : Hw) (f : DevFn) : Prop := hw.interrupting (devLine f) (f.dev % nDevPerIl) = true

theorem dev_eq_iff {line i : Nat} (hl : IsLine line) (hi : i < 8) (f : DevFn) :
    f.dev = devIndex line i ↔ devLine f = line ∧ f.dev % nDevPerIl = i := by
  obtain ⟨h1, h2⟩ := hl
  unfold devLine devIndex
  simp only [devIlStart, nDevPerIl]
  omega

theorem devLine_isLine {f : DevFn} (h : Exists f) : IsLine (devLine f) := by
  obtain ⟨h1, -⟩ := h
  unfold IsLine devLine
  simp only [devIlStart, nDevPerIl]
  omega

theorem signals_of_finished {hw : Hw} {f : DevFn} (h : Finished hw f) (h7 : devLine f ≠ ilTerminal) : Signals hw f := by
  have hl := devLine_isLine h.exists
  have hi : f.dev % nDevPerIl < 8 := Nat.mod_lt _ (by decide)
  have hrx : f.rx = false := by
    refine h.exists.2 ?_
    obtain ⟨h1, h2⟩ := hl
    unfold devLine at h1 h2 h7
    simp only [devIlStart, nDevPerIl, ilTerminal] at h1 h2 h7
    omega
  have hd := (dev_eq_iff hl hi f).mpr ⟨rfl, rfl⟩
  have hf : f = ⟨devIndex (devLine f) (f.dev % nDevPerIl), false⟩ := by
    rw [← hd, ← hrx]
  exact (finished_device hl h7 hi).mp (hf ▸ h)

theorem interrupting_congr {hw hw' : Hw} {line i : Nat} (h : ∀ f, f.dev = devIndex line i → SameFn hw hw' f) :
    hw'.interrupting line i = hw.interrupting line i := by
  unfold Hw.interrupting
  rw [← devIndex, (h ⟨devIndex line i, false⟩ rfl).pending, (h ⟨devIndex line i, true⟩ rfl).pending]

section
variable (cfg : Cfg T) {out : List Pid}

/-- The loop of `handle_interrupt`. -/
theorem handleBits_attends {line : Nat} (hl : IsLine line) : ∀ (n : Nat) {i bitmap : Nat} {s : KState T} {q : Queues},
    Sound s.m.pool q out → i + n = 8 → (∀ j < n, bitmap / 2 ^ j % 2 = 1 → s.m.hw.interrupting line (i + j) = true) →
    Attends cfg s q out (fun f => ∃ j < n, bitmap / 2 ^ j % 2 = 1 ∧ f.dev = devIndex line (i + j))
      (handleBits cfg line n i bitmap) := by
  intro n
  induction n with
  | zero =>
    intro i bitmap s q hs _ _
    refine Attends.skip hs fun f _ hf => ?_
    obtain ⟨j, hj, -⟩ := hf
    omega
  | succ n ih =>
    intro i bitmap s q hs hn hbits
    have hdiv : ∀ j, bitmap / 2 / 2 ^ j = bitmap / 2 ^ (j + 1) := by
      intro j
      rw [Nat.div_div_eq_div_mul, ← Nat.pow_succ']
    have hfirst : Attends cfg s q out (fun f => bitmap % 2 = 1 ∧ f.dev = devIndex line i)
        (Exec.guarded (bitmap % 2 == 1) (handleDevice cfg line i)) := by
      refine Attends.guarded hs (fun hb => ?_) fun hb f _ hf => ?_
      · have hb : bitmap % 2 = 1 := eq_of_beq hb
        have hint := hbits 0 (by omega) (by simpa using hb)
        exact (handleDevice_attends cfg hs hl (by omega) hint).congr fun f _ => (and_iff_right hb).symm
      · rw [hf.1] at hb
        cases hb
    have hloop : ∀ fs s' q', Service cfg s q fs s' q' → Sound s'.m.pool q' out →
        (∀ f, f ∈ fs ↔ Finished s.m.hw f ∧ bitmap % 2 = 1 ∧ f.dev = devIndex line i) →
        Attends cfg s' q' out (fun f => ∃ j < n, bitmap / 2 / 2 ^ j % 2 = 1 ∧ f.dev = devIndex line (i + 1 + j))
          (handleBits cfg line n (i + 1) (bitmap / 2)) := by
      intro fs s' q' hserv hs' hfs
      refine ih hs' (by omega) fun j hj hb => ?_
      rw [interrupting_congr fun f hf => hserv.others f fun hm => ?_]
      · have := hbits (j + 1) (by omega) (by rwa [← hdiv j])
        rwa [show i + (j + 1) = i + 1 + j by omega] at this
      · have hd := ((hfs f).mp hm).2.2
        rw [hf] at hd
        unfold devIndex at hd
        omega
    refine (hfirst.bind hloop).congr fun f _ => ?_
    constructor
    · intro h
      rcases h with ⟨hb, hd⟩ | ⟨j, hj, hb, hd⟩
      · exact ⟨0, by omega, by simpa using hb, hd⟩
      · exact ⟨j + 1, by omega, hdiv j ▸ hb, by rw [hd, show i + 1 + j = i + (j + 1) by omega]⟩
    · intro h
      obtain ⟨j, hj, hb, hd⟩ := h
      cases j with
      | zero => exact .inl ⟨by simpa using hb, hd⟩
      | succ j => exact .inr ⟨j, by omega, (hdiv j).symm ▸ hb, by rw [hd, show i + 1 + j = i + (j + 1) by omega]⟩

variable {s : KState T} {q : Queues}

theorem handleInterrupt_attends (hs : Sound s.m.pool q out) {line : Nat} (hl : IsLine line) :
    Attends cfg s q out (fun f => devLine f = line ∧ Signals s.m.hw f) (handleInterrupt cfg line) := by
  unfold Attends handleInterrupt
  refine wp_bind_ret (machine_ret s) ?_
  have hbits : ∀ j < 8, s.m.hw.bitmap line / 2 ^ j % 2 = 1 → s.m.hw.interrupting line (0 + j) = true := by
    intro j hj hb
    rw [Nat.zero_add]
    exact (bitmap_bit s.m.hw line j hj).mp hb
  refine (handleBits_attends cfg hl 8 hs (Nat.zero_add 8) hbits).congr fun f _ => ?_
  constructor
  · intro h
    obtain ⟨j, hj, hb, hd⟩ := h
    rw [Nat.zero_add, dev_eq_iff hl hj] at hd
    obtain ⟨hline, hmod⟩ := hd
    refine ⟨hline, ?_⟩
    unfold Signals
    rw [hline, hmod]
    exact (bitmap_bit s.m.hw line j hj).mp hb
  · intro h
    obtain ⟨hline, hsig⟩ := h
    have hj : f.dev % nDevPerIl < 8 := Nat.mod_lt _ (by decide)
    unfold Signals at hsig
    rw [hline] at hsig
    refine ⟨f.dev % nDevPerIl, hj, (bitmap_bit s.m.hw line _ hj).mpr hsig, ?_⟩
    rw [Nat.zero_add, dev_eq_iff hl hj]
    exact ⟨hline, rfl⟩

theorem handleLine_attends (hs : Sound s.m.pool q out) (cause : Word) (line : Nat) (served : Nat) (hl : IsLine served) :
    Attends cfg s q out (fun f => T.intIsPending cause line = true ∧ devLine f = served ∧ Signals s.m.hw f)
      (handleLine cfg cause line served) := by
  unfold handleLine
  refine Attends.guarded hs (fun hp => ?_) fun hp f _ hf => ?_
  · exact (handleInterrupt_attends cfg hs hl).congr fun f _ => (and_iff_right hp).symm
  · rw [hp] at hf
    exact Bool.false_ne_true hf.1

/-- A line is served after others: no terminal has been served so far. -/
theorem Attends.line {P : DevFn → Prop} {x : KM T Unit} (h : Attends cfg s q out P x)
    (hP : ∀ f, P f → devLine f ≠ ilTerminal) (cause : Word) (line served : Nat) (hl : IsLine served) :
    Attends cfg s q out
      (fun f => P f ∨ (T.intIsPending cause line = true ∧ devLine f = served ∧ Signals s.m.hw f))
      (x >>= fun _ => handleLine cfg cause line served) := by
  refine h.bind fun fs s' q' hserv hs' hfs => (handleLine_attends cfg hs' cause line served hl).congr fun f hf => ?_
  refine and_congr_right fun _ => and_congr_right fun _ => ?_
  by_cases h7 : devLine f = ilTerminal
  · unfold Signals
    rw [interrupting_congr fun g hg => hserv.others g fun hm => ?_]
    refine hP g ((hfs g).mp hm).2 ?_
    rw [← h7]
    exact ((dev_eq_iff (devLine_isLine hf.exists) (Nat.mod_lt _ (by decide)) g).mp hg).1
  · exact iff_of_true (signals_of_finished hf h7) (signals_of_finished ((hserv.left f).mp hf).1 h7)

/-- The five branches of `interrupts_handler`. -/
theorem lines_attends (hs : Sound s.m.pool q out) (cause : Word) :
    Attends cfg s q out (fun f => LineServed T cause (devLine f) ∧ Signals s.m.hw f)
      (handleLine cfg cause ilDisk ilDisk >>= fun _ => handleLine cfg cause ilTape ilTape >>= fun _ =>
        handleLine cfg cause ilEthernet ilEthernet >>= fun _ => handleLine cfg cause ilPrinter ilEthernet >>= fun _ =>
        handleLine cfg cause ilTerminal ilTerminal) := by
  have h₁ := handleLine_attends cfg hs cause ilDisk ilDisk ⟨by decide, by decide⟩
  have h₂ := h₁.line cfg (fun f hf => by rw [hf.2.1]; decide) cause ilTape ilTape ⟨by decide, by decide⟩
  have h₃ := h₂.line cfg (fun f hf => by rcases hf with hf | hf <;> rw [hf.2.1] <;> decide) cause ilEthernet
    ilEthernet ⟨by decide, by decide⟩
  have h₄ := h₃.line cfg (fun f hf => by rcases hf with (hf | hf) | hf <;> rw [hf.2.1] <;> decide) cause ilPrinter
    ilEthernet ⟨by decide, by decide⟩
  have h₅ := h₄.line cfg (fun f hf => by rcases hf with ((hf | hf) | hf) | hf <;> rw [hf.2.1] <;> decide) cause ilTerminal
    ilTerminal ⟨by decide, by decide⟩
  simp only [Exec.bind_bind] at h₅
  refine h₅.congr fun f hf => ?_
  obtain ⟨h1, h2⟩ := devLine_isLine hf.exists
  have hcases : devLine f = 3 ∨ devLine f = 4 ∨ devLine f = 5 ∨ devLine f = 6 ∨ devLine f = 7 := by omega
  unfold LineServed
  rcases hcases with hd | hd | hd | hd | hd <;> rw [hd] <;> simp [or_and_right]

end
/-! ## Going on -/

/-- The kernel leaves: the waiting processes still wait, and the ready ones are ready but for the one that runs now. -/
structure Resumed (s : KState T) (q : Queues) (s' : KState T) (q' : Queues) : Prop where
  sound : Sound s'.m.pool q' s'.m.currentProc.toList
  waiting : q'.waiting = q.waiting
  hw : s'.m.hw = s.m.hw
  ready : ∀ r ∈ q.ready, r ∈ q'.ready ∨ s'.m.currentProc = some r
  pS : ∀ r, s.m.currentProc ≠ some r → (s'.m.pool.pcbs r).pS = (s.m.pool.pcbs r).pS
  acks : ∀ f, acks f s'.hist = acks f s.hist

theorem acks_time {s s' : KState T} (ht : Timed s s') (f : DevFn) : acks f s'.hist = acks f s.hist :=
  ht.reading (g := acks f) fun n h hn => by
    unfold acks
    rw [List.countP_cons_of_neg]
    cases hn' : n.1 <;> rw [hn'] at hn <;> first | exact hn.elim | exact Bool.false_ne_true

section
variable (cfg : Cfg T) {s : KState T} {q : Queues} {F : Fault → Prop}

theorem schedulerRun_resumed (hs : Sound s.m.pool q []) (hn : q.ready ≠ []) :
    Exec.wp (schedulerRun cfg) (fun _ _ => False) (fun _ s' => ∃ q', Sound s'.m.pool q' s'.m.currentProc.toList ∧
      q'.waiting = q.waiting ∧ s'.m.hw = s.m.hw ∧ (∀ r ∈ q.ready, r ∈ q'.ready ∨ s'.m.currentProc = some r) ∧
      (∀ r, (s'.m.pool.pcbs r).pS = (s.m.pool.pcbs r).pS) ∧ ∀ f, acks f s'.hist = acks f s.hist) F s := by
  obtain ⟨p, rest, hpr⟩ := List.exists_cons_of_ne_nil hn
  have hp : q.Queued p := Or.inr (Or.inl (hpr ▸ List.mem_cons_self))
  have hplaced : Placed { q with ready := rest } [p] :=
    hs.placed.lift hp rfl (queued_pop_ready hs.rep.apart hpr hs.placed.heads)
  have htree : Tree { q with ready := rest } := hs.tree.congr rfl fun _ => Iff.rfl
  refine schedulerRun_first hs.rep hpr fun l s₂ hrep ht => ?_
  have hcur : s₂.m.currentProc = some p := ht.same.currentProc
  refine ⟨{ q with ready := rest }, ?_, rfl, ht.same.hw, fun r hr => ?_, ht.same.pS, fun f => ?_⟩
  · show Sound s₂.m.pool _ s₂.m.currentProc.toList
    rw [hcur]
    exact ht.same.sound (m := (((s.push .run).relink l).setCurrent (some p)).m) ⟨hrep, hplaced, htree⟩
  · rw [hpr] at hr
    rcases List.mem_cons.mp hr with he | hr
    · exact .inr (he ▸ hcur)
    · exact .inl hr
  · exact (acks_push f _ _).trans (acks_time ht f)

/-- `scheduler_resume` with an old area. -/
theorem schedulerResume_resumed (hs : Sound s.m.pool q s.m.currentProc.toList) (ended : Bool) (a : OldArea) :
    Exec.wp (schedulerResume cfg ended (some a)) (fun _ _ => False) (fun _ s' => ∃ q', Resumed s q s' q') F s := by
  unfold schedulerResume whenCurrent
  rw [Exec.wp_bind]
  refine wp_bind_ret (machine_ret s) ?_
  cases hp : s.m.currentProc with
  | none =>
    rw [hp] at hs
    refine wp_ret (a := ()) (t := s) rfl (wp_bind_ret (machine_ret s) ?_)
    rw [Exec.wp_bind, Exec.wp_guarded, hs.rep.listEmpty_ready]
    by_cases hr : q.ready = []
    · rw [if_pos (List.isEmpty_iff.mpr hr)]
      refine wp_ldst ⟨q, ?_, rfl, rfl, fun r hr => .inl hr, fun _ _ => rfl, fun f => acks_push f s _⟩
      show Sound s.m.pool q s.m.currentProc.toList
      rw [hp]
      exact hs
    · rw [if_neg fun he => hr (List.isEmpty_iff.mp he)]
      refine Exec.wp_mono (schedulerRun_resumed cfg hs hr) (fun _ _ h => h) (fun _ s' h => ?_) fun _ hf => hf
      obtain ⟨q', hs', hw, hhw, hready, hpS, hacks⟩ := h
      exact ⟨q', hs', hw, hhw, hready, fun r _ => hpS r, hacks⟩
  | some p =>
    rw [hp] at hs
    change Exec.wp (resumeCurrent cfg ended (some a) p) _ _ _ _
    unfold resumeCurrent
    refine wp_bind_time (.schedulerAccountTime cfg true) fun _ s₁ ht => ?_
    have hs₁ : Sound s₁.m.pool q [p] := ht.same.sound hs
    have hp₁ : s₁.m.currentProc = some p := ht.same.currentProc.trans hp
    cases ended with
    | false =>
      simp only [Exec.guarded, Bool.not_false, if_true]
      refine wp_bind_exits (wp_bind_ret (oldStateOf_ret a s₁) (wp_ldst ⟨q, ?_, rfl, ht.same.hw, fun r hr => .inl hr,
        fun r _ => ht.same.pS r, fun f => (acks_push f s₁ _).trans (acks_time ht f)⟩))
      show Sound s₁.m.pool q s₁.m.currentProc.toList
      rw [hp₁]
      exact hs₁
    | true =>
      obtain ⟨l, hrun, hs₂⟩ := preempt_ret cfg hs₁ a
      refine wp_bind_ret (a := ()) (t := s₁) rfl (wp_ret hrun (wp_bind_ret (machine_ret _) ?_))
      have hne : (q.enqueue ((s₁.expired cfg q.ready p (s₁.m.oldAreas a)).resetPrio p).prio p).ready ≠ [] :=
        insertPrio_ne_nil _ _ _
      rw [Exec.wp_bind, Exec.wp_guarded, hs₂.rep.listEmpty_ready, if_neg fun he => hne (List.isEmpty_iff.mp he)]
      refine Exec.wp_mono (schedulerRun_resumed cfg hs₂ hne) (fun _ _ h => h) (fun _ s' h => ?_) fun _ hf => hf
      obtain ⟨q', hs', hw, hhw, hready, hpS, hacks⟩ := h
      refine ⟨q', hs', hw, hhw.trans ht.same.hw, fun r hr => ?_, fun r hr => ?_, fun f => ?_⟩
      · exact hready r ((mem_insertPrio _ p).mpr (.inr hr))
      · have hne : r ≠ p := fun he => hr (he ▸ hp)
        exact (hpS r).trans ((expired_pS cfg s₁ q.ready l _ hne).trans (ht.same.pS r))
      · exact (hacks f).trans (acks_time ht f)

end
/-! ## The handler -/

/-- A whole interrupt at which the functions `fs` are served. -/
structure Interrupted (cfg : Cfg T) (s : KState T) (q : Queues) (fs : List DevFn) (s' : KState T) (q' : Queues) :
    Prop where
  sound : Sound s'.m.pool q' s'.m.currentProc.toList
  nodup : fs.Nodup
  finished : ∀ f ∈ fs, Finished s.m.hw f
  acked : ∀ f ∈ fs, Acked s'.m.hw f
  others : ∀ f, f ∉ fs → SameFn s.m.hw s'.m.hw f
  woken : ∀ f ∈ fs, ∃ p, q.waiting (devKey cfg f) = p :: q'.waiting (devKey cfg f) ∧
    (p ∈ q'.ready ∨ s'.m.currentProc = some p) ∧
    (s'.m.pool.pcbs p).pS = (s.m.pool.pcbs p).pS.setReturn (s.m.hw.status f)
  waiting : ∀ key, (∀ f ∈ fs, key ≠ devKey cfg f) → q'.waiting key = q.waiting key
  acks : ∀ f, acks f s'.hist = acks f s.hist + fs.count f

/-- The handler serves, each once, the completed functions whose device has an interrupt pending on a line that is
served; it faults only at one of them that nobody waits for. -/
theorem interruptsHandler_interrupted (cfg : Cfg T) {s : KState T} {q : Queues}
    (hs : Sound s.m.pool q s.m.currentProc.toList) :
    let P := fun f => LineServed T (s.m.oldAreas .int T.cause) (devLine f) ∧ Signals s.m.hw f
    Exec.wp (interruptsHandler cfg) (fun _ _ => False)
      (fun _ s' => ∃ fs q', Interrupted cfg s q fs s' q' ∧ ∀ f, f ∈ fs ↔ Finished s.m.hw f ∧ P f)
      (Stuck cfg s q P) s := by
  intro P
  unfold interruptsHandler
  refine wp_bind_time (.schedulerAccountTime cfg false) fun _ s₁ ht => wp_bind_ret (machine_ret s₁) ?_
  dsimp only
  rw [ht.same.oldAreas]
  refine wp_bind_ret (setOldArea_ret .int _ s₁) ?_
  have htimer : TimeOnly (T := T) (Exec.guarded (T.intIsPending (s.m.oldAreas .int T.cause) ilTimer)
    (setTimer 0xFFFFFFFF)) := .guarded (.setTimer _)
  refine wp_bind_time htimer fun _ s₂ ht₂ => ?_
  -- nothing but times and the old area so far
  have hcur : s₂.m.currentProc = s.m.currentProc := ht₂.same.currentProc.trans ht.same.currentProc
  have hs₂ : Sound s₂.m.pool q s.m.currentProc.toList :=
    ht₂.same.sound (m := (s₁.setAreas _ s₁.m.oldState).m) (ht.same.sound hs)
  have hhw : s₂.m.hw = s.m.hw := ht₂.same.hw.trans ht.same.hw
  have hpS : ∀ r, (s₂.m.pool.pcbs r).pS = (s.m.pool.pcbs r).pS := fun r => (ht₂.same.pS r).trans (ht.same.pS r)
  have hacks : ∀ f, Spec.acks f s₂.hist = Spec.acks f s.hist := fun f => (acks_time ht₂ f).trans (acks_time ht f)
  have hlines := lines_attends cfg hs₂ (s.m.oldAreas .int T.cause)
  rw [hhw] at hlines
  simp only [← Exec.bind_bind]
  rw [Exec.wp_bind]
  simp only [Exec.bind_bind]
  refine Exec.wp_mono hlines (fun _ s₃ hs₃ => ?_) (fun _ _ h => h.elim) fun x hx => ?_
  · obtain ⟨fs, q₃, hserv, hs₃, hfs⟩ := hs₃
    have hcur₃ : s₃.m.currentProc = s.m.currentProc := hserv.currentProc.trans hcur
    have hs₃ : Sound s₃.m.pool q₃ s₃.m.currentProc.toList := hcur₃ ▸ hs₃
    refine Exec.wp_mono (schedulerResume_resumed cfg hs₃ _ .int) (fun _ _ h => h) (fun _ s' hs' => ?_) fun _ h => h
    obtain ⟨q', hr⟩ := hs'
    rw [hhw] at hfs
    refine ⟨fs, q', ⟨hr.sound, hserv.nodup, fun f hf => ((hfs f).mp hf).1, fun f hf => ?_, fun f hf => ?_,
      fun f hf => ?_, fun key hk => ?_, fun f => ?_⟩, hfs⟩
    · rw [hr.hw]
      exact hserv.acked f hf
    · rw [hr.hw, ← hhw]
      exact hserv.others f hf
    · obtain ⟨p, hw, hp, hpS₃⟩ := hserv.woken f hf
      have hne : s₃.m.currentProc ≠ some p := by
        intro he
        rw [hcur₃] at he
        refine hs.placed.outside p (Option.mem_toList.mpr he) (.inr (.inr (.inl ⟨devKey cfg f, ?_⟩)))
        rw [hw]
        exact List.mem_cons_self
      refine ⟨p, by rw [hr.waiting]; exact hw, hr.ready p hp, (hr.pS p hne).trans (hpS₃.trans ?_)⟩
      rw [hpS, hhw]
    · rw [hr.waiting]
      exact hserv.waiting key hk
    · rw [hr.acks, hserv.acks, hacks]
  · obtain ⟨f, hf⟩ := hx
    rw [hhw] at hf
    exact ⟨f, hf⟩

/-- A kernel entry by an interrupt. -/
theorem kernelStep_interrupted (cfg : Cfg T) {s : KState T} {e : Entry T} {q : Queues}
    (hs : Sound s.m.pool q s.m.currentProc.toList) (hint : e.area = .int) :
    Exec.wp (kernelStep cfg e) (fun _ _ => False)
      (fun _ s' => ∃ fs q', Interrupted cfg (s.entered e) q fs s' q' ∧ ∀ f, f ∈ fs ↔ Wakes e f)
      (fun _ => ∃ f, Wakes e f ∧ q.waiting (devKey cfg f) = []) s := by
  have hst : (s.entered e).m.oldAreas .int = e.st := by
    show Function.update s.m.oldAreas e.area e.st .int = e.st
    rw [hint, Function.update_self]
  have hs' : Sound (s.entered e).m.pool q (s.entered e).m.currentProc.toList := hs
  have hwp := interruptsHandler_interrupted cfg hs'
  rw [hst] at hwp
  unfold kernelStep
  refine wp_bind_ret (enter_ret e s) ?_
  rw [hint]
  refine Exec.wp_mono hwp (fun _ _ h => h) (fun _ s' h => h) fun _ h => ?_
  obtain ⟨f, hfin, hf, hw⟩ := h
  exact ⟨f, ⟨hfin, hf⟩, hw⟩

theorem acks_entered (f : DevFn) (s : KState T) (e : Entry T) : acks f (s.entered e).hist = acks f s.hist := rfl

end Bikaya.Kernel
