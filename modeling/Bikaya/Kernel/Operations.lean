import Bikaya.Kernel.Run
import Bikaya.Spec.Operations

/-!
# Device operations, act by act

`Orderly` entries use device registers and device semaphores only for WAITIO. Then an act touches the devices and
those who wait for them in one of four ways (`Touch`, `Act.touch`): not at all, a WAITIO starts an operation, a
completed one is reported, or a process dies.
-/

namespace Bikaya.Kernel
open Bikaya.Lib Bikaya.Model Bikaya.Spec Bikaya.Refine

variable {T : Target} {cfg : Cfg T}

/-- WAITIO names device registers, and VERHOGEN and PASSEREN no semaphore of a device. -/
structure Orderly (cfg : Cfg T) (e : Entry T) : Prop where
  valid : ValidIo e
  semaphores : IsCall e 4 ∨ IsCall e 5 → ∀ f, Spec.Exists f → e.st T.sysArg1 ≠ devKey cfg f

/-- The last entry, if there is one, was orderly. -/
def InOrderly (cfg : Cfg T) (h : History T) : Prop := ∀ e m, lastEntry h = some (e, m) → Orderly cfg e

/-- Nothing happens to the functions other than `f`. -/
structure Elsewhere (cfg : Cfg T) (s : KState T) (q : Queues) (s' : KState T) (q' : Queues) (f : DevFn) : Prop where
  hw : ∀ g, g ≠ f → SameFn s.m.hw s'.m.hw g
  waiting : ∀ g, Spec.Exists g → g ≠ f → q'.waiting (devKey cfg g) = q.waiting (devKey cfg g)
  issued : ∀ g, g ≠ f → issued g s'.hist = issued g s.hist

inductive Touch (cfg : Cfg T) (s : KState T) (q : Queues) (s' : KState T) (q' : Queues) : Prop where
  | quiet : s'.m.hw = s.m.hw → (∀ f, Spec.Exists f → q'.waiting (devKey cfg f) = q.waiting (devKey cfg f)) →
      (∀ f, issued f s'.hist = issued f s.hist) → Touch cfg s q s' q'
  /-- `p`, which runs, makes a WAITIO on `f`, which does not accept the command while it is in progress. -/
  | start {e : Entry T} {m : Machine T} {p : Pid} {f : DevFn} {command : Word} :
      lastEntry s.hist = some (e, m) → Starts e f command → m.currentProc = some p → ¬ q.Queued p → Spec.Exists f →
      SameFn (s.m.hw.issue f command) s'.m.hw f →
      (∀ r, r ∈ q'.waiting (devKey cfg f) ↔ r = p ∨ r ∈ q.waiting (devKey cfg f)) →
      issued f s'.hist = (if s.m.hw.inProgress f = false then some (p, command) else issued f s.hist) →
      Elsewhere cfg s q s' q' f → Touch cfg s q s' q'
  /-- The completed operation of `f` is reported to `p`. -/
  | finish {f : DevFn} {p : Pid} : Finished s.m.hw f → SameFn (s.m.hw.issue f cmdAck) s'.m.hw f →
      q.waiting (devKey cfg f) = p :: q'.waiting (devKey cfg f) → issued f s'.hist = issued f s.hist →
      Elsewhere cfg s q s' q' f → Touch cfg s q s' q'
  | death {p : Pid} : KillCall cfg s.hist p → s'.m.hw = s.m.hw → (∀ key, q'.waiting key = (q.waiting key).erase p) →
      (∀ f, issued f s'.hist = (issued f s.hist).filter fun i => decide (i.1 ≠ p)) → Touch cfg s q s' q'

theorem issued_time {s s' : KState T} (ht : Timed s s') (f : DevFn) : issued f s'.hist = issued f s.hist := by
  refine ht.reading fun n h hn => ?_
  obtain ⟨o, m⟩ := n
  cases o <;> first | exact hn.elim | rfl

/-- What an act does to the devices and those who wait for them, after an orderly entry. -/
theorem Act.touch {s s' : KState T} {q q' : Queues} (ha : Act cfg s q s' q')
    (ho : InOrderly cfg s.hist) : Touch cfg s q s' q' := by
  have hsem : ∀ n key, n = 4 ∨ n = 5 → SemCall s n key → ∀ f, Spec.Exists f → devKey cfg f ≠ key := by
    intro n key hn hcall f hf he
    obtain ⟨e, m, hentry, hcall, hkey, -⟩ := hcall
    refine (ho e m hentry).semaphores ?_ f hf (hkey.symm.trans he.symm)
    rcases hn with hn | hn
    · exact .inl (hn ▸ hcall)
    · exact .inr (hn ▸ hcall)
  cases ha with
  | time ht => exact .quiet ht.same.hw (fun _ _ => rfl) (issued_time ht)
  | areas => exact .quiet rfl (fun _ _ => rfl) fun _ => rfl
  | output => exact .quiet rfl (fun _ _ => rfl) fun _ => rfl
  | register => exact .quiet rfl (fun _ _ => rfl) fun _ => rfl
  | resume => exact .quiet rfl (fun _ _ => rfl) fun _ => rfl
  | passUp => exact .quiet rfl (fun _ _ => rfl) fun _ => rfl
  | idle => exact .quiet rfl (fun _ _ => rfl) fun _ => rfl
  | preempt => exact .quiet rfl (fun _ _ => rfl) fun _ => rfl
  | dispatch _ ht => exact .quiet ht.same.hw (fun _ _ => rfl) fun f => issued_time ht f
  | @block s₁ s₂ _ p key st pool hcur hq _ hb ht hpool hentry =>
    obtain ⟨e, m, hentry, hm⟩ := hentry
    cases hb with
    | passeren _ hcall =>
      refine .quiet ht.same.hw (fun f hf => ?_) fun f => issued_time ht f
      exact Function.update_of_ne (hsem 5 key (.inr rfl) hcall f hf) _ _
    | waitIo command device subdev hcall =>
      obtain ⟨e', m', hentry', hcall, hcmd, hdevice, hsub⟩ := hcall
      obtain ⟨rfl, rfl⟩ : e = e' ∧ m = m' := by
        rw [hentry] at hentry'
        exact Prod.mk.inj (Option.some.inj hentry')
      obtain ⟨hd, hle⟩ := (ho e m hentry).valid hcall
      obtain ⟨f, hf, hfn, hkey⟩ := waitIo_fn cfg (hdevice ▸ hd) (hsub ▸ hle)
      have hstarts : Starts e f command := ⟨hcall, hcmd, by rw [← hdevice, ← hsub]; exact hfn⟩
      have hhw : s₂.m.hw = s.m.hw.issue f command := by
        refine ht.same.hw.trans ?_
        show ((s.push (.waitIo p (commandAddr T device subdev) command)).commanded _ command).m.hw = _
        rw [commanded_fn hfn]
        rfl
      have hissued : ∀ g, issued g s₂.hist =
          if some f = some g ∧ s.m.hw.inProgress g = false then some (p, command) else issued g s.hist := by
        intro g
        refine (issued_time ht g).trans ?_
        show issued g ((s.push (.waitIo p (commandAddr T device subdev) command)).commanded _ command).hist = _
        rw [commanded_hist, ← hfn]
        rfl
      rw [hkey]
      refine .start hentry hstarts hm hq hf (by rw [← hhw]; exact .refl _ _) (fun r => ?_) ?_ ⟨fun g hg => ?_,
        fun g hg hne => ?_, fun g hg => ?_⟩
      · show r ∈ Function.update q.waiting (devKey cfg f) _ (devKey cfg f) ↔ _
        rw [Function.update_self]
        exact mem_insertPrio _ p
      · refine (hissued f).trans ?_
        simp only [true_and]
      · show SameFn s.m.hw s₂.m.hw g
        rw [hhw]
        exact sameFn_issue command hg
      · exact Function.update_of_ne (fun he => hne (devKey_inj cfg hg hf he)) _ _
      · exact (hissued g).trans (if_neg fun he => hg (Option.some.inj he.1).symm)
  | @handOver _ key p rest l l' hcall hw =>
    refine .quiet rfl (fun f hf => ?_) fun _ => rfl
    exact Function.update_of_ne (hsem 4 key (.inl rfl) hcall f hf) _ _
  | verhogen => exact .quiet rfl (fun _ _ => rfl) fun _ => rfl
  | passeren => exact .quiet rfl (fun _ _ => rfl) fun _ => rfl
  | @serve _ f addr p rest l l' hfin hfn hw =>
    rw [commanded_fn hfn]
    refine .finish (p := p) hfin (.refl _ _) ?_ rfl ⟨fun g hg => sameFn_issue cmdAck hg, fun g hg hne => ?_, fun _ _ => rfl⟩
    · show _ = p :: Function.update q.waiting (devKey cfg f) rest (devKey cfg f)
      rw [Function.update_self]
      exact hw
    · exact Function.update_of_ne (fun he => hne (devKey_inj cfg hg hfin.exists he)) _ _
  | spawn => exact .quiet rfl (fun _ _ => rfl) fun _ => rfl
  | adopt => exact .quiet rfl (fun _ _ => rfl) fun _ => rfl
  | quit => exact .quiet rfl (fun _ _ => rfl) fun _ => rfl
  | bury hkill => exact .death hkill rfl (fun _ => rfl) fun _ => rfl

/-- A WAITIO writes to one function, which exists. -/
theorem starts_unique {e : Entry T} {f g : DevFn} {command command' : Word} (h : Starts e f command)
    (h' : Starts e g command') : f = g :=
  Option.some.inj (h.2.2.symm.trans h'.2.2)

theorem exists_of_starts {e : Entry T} (ho : Orderly cfg e) {f : DevFn} {command : Word} (h : Starts e f command) :
    Spec.Exists f := by
  obtain ⟨hd, hle⟩ := ho.valid h.1
  obtain ⟨g, hg, hfn, -⟩ := waitIo_fn cfg hd hle
  rw [h.2.2] at hfn
  cases hfn
  exact hg

/-- A WAITIO kills nobody. -/
theorem not_doomed_of_starts {e : Entry T} {m : Machine T} {f : DevFn} {command : Word} (h : Starts e f command)
    (p : Pid) : ¬ Doomed cfg e m p := by
  obtain ⟨⟨harea, hcause, hn⟩, -, -⟩ := h
  have hnot : ∀ n, n ≠ 6 → ¬ IsCall e n := fun n hne hc => hne (hc.2.2.symm.trans hn)
  intro hd
  obtain ⟨root, hc | hc | hc, -⟩ := hd
  · exact hnot 3 (by decide) hc.1
  · obtain ⟨-, type, hraise, -⟩ := hc
    unfold Raises at hraise
    rw [harea] at hraise
    exact hraise.2 ⟨6, by decide, by decide, harea, hcause, hn⟩
  · exact hnot 7 (by decide) hc.2.1

/-! ## Operations and their issuers -/

/-- Whoever started an operation that is not acknowledged waits for it, while alive. -/
structure Manned (cfg : Cfg T) (s : KState T) (q : Queues) : Prop where
  issuer : ∀ f p command, Spec.Exists f → Outstanding s.m.hw f → issued f s.hist = some (p, command) →
    p ∈ q.waiting (devKey cfg f)
  asked : ∀ f, Finished s.m.hw f → Outstanding s.m.hw f

theorem inOrderly_of_initial {s : KState T} {q : Queues} (h : Initial cfg s q) : InOrderly cfg s.hist := by
  intro e m he
  rw [h.hist] at he
  cases he

theorem inOrderly_entered {s : KState T} {e : Entry T} (ho : Orderly cfg e) : InOrderly cfg (s.entered e).hist := by
  intro e' m he
  cases he
  exact ho

theorem InOrderly.act {s s' : KState T} {q q' : Queues} (h : InOrderly cfg s.hist) (ha : Act cfg s q s' q') :
    InOrderly cfg s'.hist := by
  unfold InOrderly
  rw [ha.lastEntry_eq]
  exact h

theorem manned_of_initial {s : KState T} {q : Queues} (h : Initial cfg s q) (hq : NoOperation cfg.hw0) :
    Manned cfg s q where
  issuer f _ _ _ ho := absurd (h.hw ▸ ho) (hq f).1
  asked f hf := absurd (h.hw ▸ hf) (hq f).2

namespace Manned
variable {s s' : KState T} {q q' : Queues} (h : Manned cfg s q)
include h

theorem entered {e : Entry T} (hp : Progress s.m.hw e.hw) : Manned cfg (s.entered e) q where
  issuer f p command hf hout hi := h.issuer f p command hf (hp.outstanding hout) hi
  asked f hf := by
    rcases (hp f).2 with ⟨hs, hpend⟩ | ⟨-, -, hpend⟩
    · have hsame : SameFn s.m.hw e.hw f := ⟨hs, (hp f).1, hpend⟩
      exact hsame.outstanding.mpr (h.asked f (hsame.finished.mp hf))
    · exact .inr hpend

/-- Every act keeps it. -/
theorem act (ha : Act cfg s q s' q') (ho : InOrderly cfg s.hist) : Manned cfg s' q' := by
  cases ha.touch ho with
  | quiet hw hwait hissued =>
    constructor
    · intro f p command hf hout hi
      rw [hw] at hout
      rw [hissued f] at hi
      rw [hwait f hf]
      exact h.issuer f p command hf hout hi
    · rw [hw]
      exact h.asked
  | @start e m p f command _ _ _ _ hf hsame hwait hissued helse =>
    constructor
    · intro g r c hg hout hi
      by_cases he : g = f
      · subst he
        rw [hissued] at hi
        refine (hwait r).mpr ?_
        split at hi
        next =>
          cases hi
          exact .inl rfl
        next hbusy =>
          have hbusy : s.m.hw.inProgress g = true := Bool.eq_true_of_not_eq_false hbusy
          exact .inr (h.issuer g r c hg (outstanding_of_inProgress hbusy) hi)
      · rw [helse.issued g he] at hi
        rw [helse.waiting g hg he]
        exact h.issuer g r c hg ((helse.hw g he).outstanding.mp hout) hi
    · intro g hfin
      by_cases he : g = f
      · subst he
        exact absurd (hsame.finished.mp hfin) not_finished_issue
      · exact (helse.hw g he).outstanding.mpr (h.asked g ((helse.hw g he).finished.mp hfin))
  | @finish f p hfin hsame hwait hissued helse =>
    constructor
    · intro g r c hg hout hi
      have he : g ≠ f := by
        intro he
        subst he
        exact (outstanding_issue hfin.not_inProgress).mp (hsame.outstanding.mp hout) rfl
      rw [helse.issued g he] at hi
      rw [helse.waiting g hg he]
      exact h.issuer g r c hg ((helse.hw g he).outstanding.mp hout) hi
    · intro g hg
      have he : g ≠ f := by
        intro he
        subst he
        exact not_finished_issue (hsame.finished.mp hg)
      exact (helse.hw g he).outstanding.mpr (h.asked g ((helse.hw g he).finished.mp hg))
  | @death p _ hw hwait hissued =>
    constructor
    · intro f r c hf hout hi
      rw [hw] at hout
      rw [hissued f, Option.filter_eq_some_iff] at hi
      rw [hwait]
      exact (List.mem_erase_of_ne (of_decide_eq_true hi.2)).mpr (h.issuer f r c hf hout hi.1)
    · rw [hw]
      exact h.asked

end Manned
/-! ## A process that does not run -/

/-- An act leaves `p` its state and its place at a device, or reports a status to it. -/
inductive Rest (cfg : Cfg T) (s : KState T) (q : Queues) (s' : KState T) (q' : Queues) (p : Pid) : Prop where
  | kept : (s'.m.pool.pcbs p).pS = (s.m.pool.pcbs p).pS → (∀ key, p ∈ q'.waiting key → p ∈ q.waiting key) →
      (∀ f, Spec.Exists f → p ∈ q.waiting (devKey cfg f) → p ∈ q'.waiting (devKey cfg f)) → Rest cfg s q s' q' p
  | told {f : DevFn} : Finished s.m.hw f → p ∈ q.waiting (devKey cfg f) → (∀ key, p ∉ q'.waiting key) →
      (s'.m.pool.pcbs p).pS = (s.m.pool.pcbs p).pS.setReturn (s.m.hw.status f) → Rest cfg s q s' q' p

/-- What an act does to a living process that did not run at the entry and is not killed. -/
theorem Act.rest {s s' : KState T} {q q' : Queues} {out : List Pid} {p : Pid} (ha : Act cfg s q s' q')
    (hs : Sound s.m.pool q out) (ho : InOrderly cfg s.hist)
    (hrun : ∀ e m, lastEntry s.hist = some (e, m) → m.currentProc ≠ some p) (hkill : ¬ KillCall cfg s.hist p)
    (hfree : p ∉ q.free) : p ∉ q'.free ∧ Rest cfg s q s' q' p := by
  have hsem : ∀ key, SemCall s 4 key → ∀ f, Spec.Exists f → devKey cfg f ≠ key := by
    intro key hcall f hf he
    obtain ⟨e, m, hentry, hcall, hkey, -⟩ := hcall
    exact (ho e m hentry).semaphores (.inl hcall) f hf (hkey.symm.trans he.symm)
  have hpop : ∀ {key r rest k}, q.waiting key = r :: rest → p ∈ Function.update q.waiting key rest k → p ∈ q.waiting k := by
    intro key r rest k hw hm
    by_cases hk : k = key
    · subst hk
      rw [Function.update_self] at hm
      rw [hw]
      exact List.mem_cons_of_mem _ hm
    · rwa [Function.update_of_ne hk] at hm
  cases ha with
  | time ht => exact ⟨hfree, .kept (ht.same.pS p) (fun _ => id) fun _ _ => id⟩
  | areas => exact ⟨hfree, .kept rfl (fun _ => id) fun _ _ => id⟩
  | output => exact ⟨hfree, .kept rfl (fun _ => id) fun _ _ => id⟩
  | register r new old =>
    exact ⟨hfree, .kept (setPcb_field Pcb.pS s r (fun x => { x with excNewAreas := new, excOldAreas := old })
      (fun _ => rfl) p) (fun _ => id) fun _ _ => id⟩
  | resume => exact ⟨hfree, .kept rfl (fun _ => id) fun _ _ => id⟩
  | passUp => exact ⟨hfree, .kept rfl (fun _ => id) fun _ _ => id⟩
  | idle => exact ⟨hfree, .kept rfl (fun _ => id) fun _ _ => id⟩
  | @preempt _ r st l _ _ _ htimer _ _ =>
    obtain ⟨e, m, hentry, -, hm⟩ := htimer
    have hne : p ≠ r := fun he => hrun e m hentry (he ▸ hm)
    exact ⟨hfree, .kept (expired_pS cfg s q.ready l st hne) (fun _ => id) fun _ _ => id⟩
  | dispatch _ ht => exact ⟨hfree, .kept (ht.same.pS p) (fun _ => id) fun _ _ => id⟩
  | @block s₁ s₂ _ r key st pool _ _ _ hb ht hpool hentry =>
    obtain ⟨e, m, hentry, hm⟩ := hentry
    have hne : p ≠ r := fun he => hrun e m hentry (he ▸ hm)
    have hpS : (pool.pcbs p).pS = (s.m.pool.pcbs p).pS := by
      rw [hpool, Function.update_of_ne hne, ht.same.pS, setPcb_ne _ _ hne, hb.same.1]
    refine ⟨hfree, .kept hpS (fun k hm => ?_) fun f _ hm => ?_⟩
    · have hm : p ∈ Function.update q.waiting key (insertPrio s₂.prio r (q.waiting key)) k := hm
      by_cases hk : k = key
      · subst hk
        rw [Function.update_self] at hm
        exact ((mem_insertPrio _ r).mp hm).resolve_left hne
      · rwa [Function.update_of_ne hk] at hm
    · show p ∈ Function.update q.waiting key (insertPrio s₂.prio r (q.waiting key)) (devKey cfg f)
      by_cases hk : devKey cfg f = key
      · rw [hk, Function.update_self]
        exact (mem_insertPrio _ r).mpr (.inr (hk ▸ hm))
      · rwa [Function.update_of_ne hk]
  | @handOver _ key r rest l l' hcall hw =>
    refine ⟨hfree, .kept ?_ (fun k hm => hpop hw hm) fun f hf hm => ?_⟩
    · exact (resetPrio_field Pcb.pS (fun _ _ => rfl) _ r p).trans (popped_field Pcb.pS (fun _ _ => rfl) s r l p)
    · show p ∈ Function.update q.waiting key rest (devKey cfg f)
      rwa [Function.update_of_ne (hsem key hcall f hf)]
  | verhogen => exact ⟨hfree, .kept rfl (fun _ => id) fun _ _ => id⟩
  | passeren => exact ⟨hfree, .kept rfl (fun _ => id) fun _ _ => id⟩
  | @serve _ f addr r rest l l' hfin hfn hw =>
    obtain ⟨asl, sf, hrep⟩ := hs.rep
    rw [commanded_fn hfn]
    have hpS := woken_pS s r l l' (s.m.hw.status f) p
    by_cases he : p = r
    · subst he
      have hmem : p ∈ q.waiting (devKey cfg f) := hw ▸ List.mem_cons_self
      refine ⟨hfree, .told hfin hmem (fun k hm => ?_) (hpS.trans (if_pos rfl))⟩
      have hm : p ∈ Function.update q.waiting (devKey cfg f) rest k := hm
      by_cases hk : k = devKey cfg f
      · subst hk
        rw [Function.update_self] at hm
        have hnd := hrep.waiting_nodup (devKey cfg f)
        rw [hw] at hnd
        exact (List.nodup_cons.mp hnd).1 hm
      · rw [Function.update_of_ne hk] at hm
        exact hk (hrep.waiting_unique hm hmem)
    · refine ⟨hfree, .kept (hpS.trans (if_neg he)) (fun k hm => hpop hw hm) fun g hg hm => ?_⟩
      show p ∈ Function.update q.waiting (devKey cfg f) rest (devKey cfg g)
      by_cases hk : devKey cfg g = devKey cfg f
      · rw [hk, hw] at hm
        rw [hk, Function.update_self]
        exact (List.mem_cons.mp hm).resolve_left he
      · rwa [Function.update_of_ne hk]
  | @spawn _ r rest st prio l l' hf =>
    have hne : p ≠ r := fun he => hfree (he ▸ hf ▸ List.mem_cons_self)
    refine ⟨fun hm => hfree (List.mem_of_mem_tail hm), .kept ?_ (fun _ => id) fun _ _ => id⟩
    exact (resetPrio_field Pcb.pS (fun _ _ => rfl) _ r p).trans
      (congrArg Pcb.pS ((spawned_pcbs s r l st prio p).trans (if_neg hne)))
  | @adopt _ parent r l =>
    exact ⟨hfree, .kept (setPcb_field Pcb.pS s r (fun x => { x with pParent := some parent }) (fun _ => rfl) p)
      (fun _ => id) fun _ _ => id⟩
  | quit => exact ⟨hfree, .kept rfl (fun _ => id) fun _ _ => id⟩
  | @bury _ r pool hdead _ _ hpool =>
    have hne : p ≠ r := fun he => hkill (he ▸ hdead)
    have hpS : (pool.pcbs p).pS = (s.m.pool.pcbs p).pS := by
      rw [hpool, Function.update_of_ne hne]
    refine ⟨fun hm => (List.mem_cons.mp hm).elim hne hfree, .kept hpS (fun k hm => List.mem_of_mem_erase hm) fun f _ hm => ?_⟩
    exact (List.mem_erase_of_ne hne).mpr hm

end Bikaya.Kernel
