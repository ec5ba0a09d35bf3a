import Bikaya.Spec.Fates

/-!
# Waiting one's turn

`Sorted` : the processes that wait for a key stand in the order of their priorities. So while `p` waits it is overtaken
only by processes of a higher priority, and every VERHOGEN brings it one place forward (`Step.ahead`); over a run
(`ahead_path`) the VERHOGENs that leave `p` waiting are at most as many as the processes ahead of it at the start and
those that overtook it.
-/

namespace Bikaya.Spec
open Bikaya.Lib Bikaya.Model

variable {T : Target} {cfg : Cfg T} {S S' S₁ : System T} {o o' : Option Pid} {e : Entry T} {p : Pid} {key : Key}

/-! ## Order -/

def Sorted (S : System T) : Prop := ∀ key, Descending S.prio (S.waiting key)

/-- Who waits keeps its priority. -/
theorem Sorted.congr (h : Sorted S) (hwaiting : ∀ key, (S'.waiting key).Sublist (S.waiting key))
    (hprio : ∀ key, ∀ r ∈ S'.waiting key, S'.prio r = S.prio r) : Sorted S' :=
  fun key => Descending.congr ((h key).sublist (hwaiting key)) (hprio key)

theorem prio_update_ne (S : System T) {r : Pid} (hr : r ≠ p) (x : Option (Process T)) :
    ({ S with process := Function.update S.process p x } : System T).prio r = S.prio r := by
  simp [System.prio, hr]

theorem sorted_move (hm : Move cfg S o S' o') (hfit : Fit S o) (h : Sorted S) : Sorted S' := by
  have hsub : ∀ key, (S.waiting key).Sublist (S.waiting key) := fun key => List.Sublist.refl _
  cases hm with
  | memory _ => exact h
  | devices _ => exact h
  | adjust hf => exact h.congr hsub fun _ r _ => prio_alter S (fun x => (hf x).1) r
  | stop _ => exact h
  | @pop key p rest hk =>
    refine h.congr (fun key' => ?_) fun _ _ _ => rfl
    by_cases hkey : key' = key
    · subst hkey
      simp [System.setWaiting, hk]
    · simp [System.setWaiting, hkey]
  | @wake p =>
    refine h.congr hsub fun key r hr => prio_update_ne S (fun he => ?_) _
    exact hfit.held_nowhere (.waiting key) (by simp) (he ▸ hr)
  | @wait p key =>
    intro key'
    by_cases hkey : key' = key
    · subst hkey
      show Descending S.prio (Function.update S.waiting key' _ key')
      rw [Function.update_self]
      exact insertPrio_descending S.prio p (h key')
    · show Descending S.prio (Function.update S.waiting key _ key')
      rw [Function.update_of_ne hkey]
      exact h key'
  | age =>
    refine h.congr hsub fun key r hr => ?_
    have hready : r ∉ S.ready := fun hm => absurd (hfit.unique (a := .ready) (b := .waiting key) hm hr) (by simp)
    simp [System.prio, System.age, hready]
  | born hdead _ _ _ =>
    refine h.congr hsub fun key r hr => prio_update_ne S (fun he => ?_) _
    exact hfit.alive (a := .waiting key) hr (he ▸ hdead)
  | load _ _ => exact h
  | kill p =>
    refine h.congr (fun key => List.filter_sublist) fun key r hr => ?_
    have hs : S.spared p r = true := (List.mem_filter.mp hr).2
    simp [System.prio, System.kill, hs]

/-- Who waits for a key waits in the order of the priorities. -/
theorem reach_sorted {ok : System T → Entry T → Prop} (h : (abstractKernel cfg ok).Reach S) : Sorted S := by
  have hkeep := reach_keeps (I := fun S o => Fit S o ∧ Sorted S) ⟨fit_boot cfg, fun _ => List.Pairwise.nil⟩
    (fun hm hI => ⟨fit_move hm hI.1, sorted_move hm hI.1 hI.2⟩) h
  exact hkeep.2

/-! ## One entry -/

/-- What an entry does to the line for a key. -/
theorem Step.line {st : CpuState T} (h : Step cfg S e st S') (key : Key) :
    (∃ r, Blocks cfg S e key r ∧ S'.waiting key = insertPrio S.prio r (S.waiting key)) ∨
    (S'.waiting key).Sublist (S.waiting key) := by
  cases h with
  | call hc hl =>
    rw [hl.rescheduled.waiting]
    rcases hc.effect with hs | ⟨-, r, parent, st, prio, -, -, -, hs⟩ | ⟨v, -, rfl⟩ | ⟨-, r, rest, hw, rfl⟩ |
      ⟨r, key', S₁, hb, hs, rfl⟩
    · exact Or.inr (by rw [hs.waiting])
    · exact Or.inr (by rw [hs.waiting]; exact List.Sublist.refl _)
    · exact Or.inr List.filter_sublist
    · refine Or.inr ?_
      by_cases hk : key = e.st T.sysArg1
      · subst hk
        simp [System.wake, System.alter, System.setWaiting, hw]
      · simp [System.wake, System.alter, System.setWaiting, System.entered, hk]
    · by_cases hk : key = key'
      · subst hk
        refine Or.inl ⟨r, hb, ?_⟩
        show Function.update S₁.waiting key (insertPrio (S₁.save r (adjusted e)).prio r (S₁.waiting key)) key = _
        rw [Function.update_self, prio_save, funext hs.prio, hs.waiting]
      · refine Or.inr ?_
        show (Function.update S₁.waiting key' _ key).Sublist _
        rw [Function.update_of_ne hk, hs.waiting]
  | breakpoint _ _ hl => exact Or.inr (by rw [hl.rescheduled.waiting]; exact List.Sublist.refl _)
  | exception _ hh =>
    refine Or.inr ?_
    cases hh with
    | passUp _ _ _ _ => exact List.Sublist.refl _
    | die _ _ _ hd =>
      rw [hd.rescheduled.waiting]
      exact List.filter_sublist
  | interrupt _ hc hl =>
    rw [hl.rescheduled.waiting]
    exact Or.inr (hc.sublist key)

/-- A VERHOGEN takes the first one out of the line. -/
theorem Step.verhogen {st : CpuState T} (h : Step cfg S e st S') (hcall : IsCall e 4)
    (hw : S.waiting (e.st T.sysArg1) ≠ []) : S'.waiting (e.st T.sysArg1) = (S.waiting (e.st T.sysArg1)).tail := by
  obtain ⟨c, S₁, hc, hl⟩ := h.of_isCall hcall (by decide) (by decide)
  rw [hl.rescheduled.waiting]
  cases hc with
  | handOver _ hw' =>
    have hw' : S.waiting (e.st T.sysArg1) = _ := hw'
    simp [System.wake, System.alter, System.setWaiting, hw']
  | raise _ hnil => exact absurd hnil hw
  | _ => exact absurd (isCall_unique hcall ‹_›) (by decide)

/-- The place of `p` in the line, from 0. -/
def System.ahead (S : System T) (key : Key) (p : Pid) : Nat := (S.waiting key).idxOf p

/-- The entry blocks a process of a higher priority than `p` on `key`. -/
def Overtakes (cfg : Cfg T) (S : System T) (e : Entry T) (key : Key) (p : Pid) : Prop :=
  Waits cfg e key ∧ ∃ r ∈ S.running, S.prio p < S.prio r

instance (cfg : Cfg T) (S : System T) (e : Entry T) (key : Key) (p : Pid) : Decidable (Overtakes cfg S e key p) := by
  unfold Overtakes
  infer_instance

/-- The entry is a VERHOGEN of `key`. -/
def RaisesSem (e : Entry T) (key : Key) : Prop := IsCall e 4 ∧ e.st T.sysArg1 = key

instance (e : Entry T) (key : Key) : Decidable (RaisesSem e key) := by
  unfold RaisesSem
  infer_instance

theorem Step.ahead {st : CpuState T} (h : Step cfg S e st S') (hfit : Fit S none) (hsorted : Sorted S)
    (hp : p ∈ S.waiting key) (hp' : p ∈ S'.waiting key) :
    S'.ahead key p + (if RaisesSem e key then 1 else 0) ≤ S.ahead key p + (if Overtakes cfg S e key p then 1 else 0) := by
  unfold System.ahead
  by_cases hraise : RaisesSem e key
  · obtain ⟨hcall, rfl⟩ := hraise
    have htail := h.verhogen hcall (List.ne_nil_of_mem hp)
    rw [htail] at hp' ⊢
    obtain ⟨r, rest, hw⟩ := List.exists_cons_of_ne_nil (List.ne_nil_of_mem hp)
    have hnd := hfit.waiting_nodup (e.st T.sysArg1)
    rw [hw] at hnd hp' ⊢
    have hne : r ≠ p := fun he => (List.nodup_cons.mp hnd).1 (he ▸ hp')
    rw [if_pos ⟨hcall, rfl⟩, List.tail_cons, List.idxOf_cons_ne _ hne]
    omega
  · rw [if_neg hraise]
    rcases h.line key with ⟨r, hb, hline⟩ | hsub
    · have hne : r ≠ p := fun he => absurd (hfit.unique (a := .running) (b := .waiting key) (he ▸ hb.1) hp) (by simp)
      rw [hline]
      by_cases hover : S.prio p < S.prio r
      · rw [if_pos ⟨hb.2, r, hb.1, hover⟩]
        exact idxOf_insertPrio_le _ hne _
      · rw [idxOf_insertPrio _ (hsorted key) hp hne (by omega)]
        omega
    · have := idxOf_sublist_le hsub (hfit.waiting_nodup key) hp'
      omega

/-! ## A run -/

/-- While `p` waits. -/
theorem ahead_path {ok : System T → Entry T → Prop} {S₀ : System T} {tr : List (System T × (Entry T × CpuState T))}
    (h : (abstractKernel cfg ok).Path S₀ tr S) (h₀ : (abstractKernel cfg ok).Reach S₀)
    (hwait : ∀ x ∈ tr, p ∈ x.1.waiting key) (hp : p ∈ S.waiting key) :
    S.ahead key p + tr.countP (fun x => decide (RaisesSem x.2.1 key)) ≤
      S₀.ahead key p + tr.countP (fun x => decide (Overtakes cfg x.1 x.2.1 key p)) := by
  induction h with
  | refl => exact Nat.le_refl _
  | @step tr S S' a htr hs ih =>
    have hp₁ : p ∈ S.waiting key := hwait _ List.mem_cons_self
    have ih := ih (fun x hx => hwait x (List.mem_cons_of_mem _ hx)) hp₁
    have hreach := htr.reach h₀
    have hstep := hs.2.ahead (reach_fit hreach) (reach_sorted hreach) hp₁ hp
    simp only [List.countP_cons, decide_eq_true_eq]
    omega

end Bikaya.Spec
