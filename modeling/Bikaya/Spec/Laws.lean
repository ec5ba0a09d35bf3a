import Bikaya.Lib.Forest
import Bikaya.Spec.Moves

/-!
# Laws of the abstract kernel

* `Fit` : every live process is in exactly one place;
* `Rooted` : every live process descends from the first one, through live processes;
* `Sorted` : who waits for a key waits in the order of the priorities.

Each is kept by every move, so it holds of every system reached.
-/

namespace Bikaya.Spec
open Bikaya.Lib Bikaya.Model

variable {T : Target} {cfg : Cfg T}

/-! ## Places -/

inductive Place where
  | running
  | ready
  | waiting (key : Key)
  /-- In the hands of the kernel. -/
  | held

/-- `p` is in a place of `S`, where the kernel has `o` in its hands. -/
def At (S : System T) (o : Option Pid) (p : Pid) : Place → Prop
  | .running => S.running = some p
  | .ready => p ∈ S.ready
  | .waiting key => p ∈ S.waiting key
  | .held => o = some p

structure Fit (S : System T) (o : Option Pid) : Prop where
  unique : ∀ {p a b}, At S o p a → At S o p b → a = b
  lives : ∀ p, S.process p ≠ none ↔ ∃ a, At S o p a
  small : ∀ p, S.process p ≠ none → p < maxProc
  ready_nodup : S.ready.Nodup
  waiting_nodup : ∀ key, (S.waiting key).Nodup

namespace Fit
variable {S S' : System T} {o o' : Option Pid} {p : Pid}

/-- Only `p` changes its place. -/
theorem move (h : Fit S o) {y : Place} (hother : ∀ r, r ≠ p → ∀ a, At S' o' r a ↔ At S o r a)
    (hself : ∀ a, At S' o' p a ↔ a = y) (hlives : ∀ r, S'.process r ≠ none ↔ S.process r ≠ none ∨ r = p)
    (hsmall : p < maxProc) (hready : S'.ready.Nodup) (hwaiting : ∀ key, (S'.waiting key).Nodup) : Fit S' o' where
  unique {r a b} ha hb := by
    by_cases hr : r = p
    · subst hr
      rw [(hself a).mp ha, (hself b).mp hb]
    · exact h.unique ((hother r hr a).mp ha) ((hother r hr b).mp hb)
  lives r := by
    rw [hlives r]
    by_cases hr : r = p
    · subst hr
      exact iff_of_true (Or.inr rfl) ⟨y, (hself y).mpr rfl⟩
    · rw [or_iff_left hr, h.lives r]
      exact exists_congr fun a => (hother r hr a).symm
  small r hr := ((hlives r).mp hr).elim (h.small r) fun he => he ▸ hsmall
  ready_nodup := hready
  waiting_nodup := hwaiting

/-- Nobody changes places. -/
theorem congr (h : Fit S o) (hrunning : S'.running = S.running) (hready : S'.ready = S.ready)
    (hwaiting : S'.waiting = S.waiting) (hlives : ∀ r, S'.process r ≠ none ↔ S.process r ≠ none) : Fit S' o := by
  have hat : ∀ r a, At S' o r a ↔ At S o r a := by
    intro r a
    cases a <;> simp only [At, hrunning, hready, hwaiting]
  refine ⟨fun ha hb => h.unique ((hat _ _).mp ha) ((hat _ _).mp hb), fun r => ?_, fun r hr => ?_, ?_, fun key => ?_⟩
  · rw [hlives r, h.lives r]
    exact exists_congr fun a => (hat r a).symm
  · exact h.small r ((hlives r).mp hr)
  · rw [hready]
    exact h.ready_nodup
  · rw [hwaiting]
    exact h.waiting_nodup key

/-- The only place of a process. -/
theorem at_iff (h : Fit S o) {a : Place} (ha : At S o p a) (b : Place) : At S o p b ↔ b = a :=
  ⟨fun hb => h.unique hb ha, fun hb => hb ▸ ha⟩

theorem alive (h : Fit S o) {a : Place} (ha : At S o p a) : S.process p ≠ none := (h.lives p).mpr ⟨a, ha⟩

end Fit

theorem process_alter_ne_none (S : System T) (p : Pid) (f : Process T → Process T) (r : Pid) :
    (S.alter p f).process r ≠ none ↔ S.process r ≠ none := by
  by_cases hr : r = p
  · subst hr
    simp [System.alter]
  · simp [System.alter, hr]

theorem fit_boot (cfg : Cfg T) : Fit (.boot cfg) none := by
  have hlives : ∀ p, (System.boot cfg).process p ≠ none ↔ p = maxProc - 1 := by
    intro p
    by_cases hp : p = maxProc - 1
    · subst hp
      simp [System.boot]
    · refine iff_of_false (fun h => h ?_) hp
      simp only [System.boot, Function.update_of_ne hp]
  refine ⟨fun {p a b} ha hb => ?_, fun p => ?_, fun p hp => ?_, List.nodup_nil, fun _ => List.nodup_nil⟩
  · cases a <;> cases b <;> simp_all [At, System.boot]
  · rw [hlives]
    refine ⟨fun hp => ⟨.running, by rw [hp]; rfl⟩, fun hp => ?_⟩
    obtain ⟨a, ha⟩ := hp
    cases a <;> simp_all [At, System.boot]
  · rw [(hlives p).mp hp]
    decide

namespace Fit
variable {S : System T} {p : Pid}

theorem stop (h : Fit S none) (hp : S.running = some p) : Fit { S with running := none } (some p) := by
  have hat := h.at_iff (p := p) (a := .running) hp
  have hlive := h.alive (p := p) (a := .running) hp
  refine h.move (p := p) (y := .held) (fun r hr a => ?_) (fun a => ?_) (fun r => ?_) (h.small p hlive) h.ready_nodup
    h.waiting_nodup
  · cases a <;> simp [At, hp, Ne.symm hr]
  · have ha := hat a
    cases a <;> simp_all [At]
  · exact ⟨Or.inl, fun hr => hr.elim id fun he => he ▸ hlive⟩

theorem pop {key : Key} {rest : List Pid} (h : Fit S none) (hk : S.waiting key = p :: rest) :
    Fit (S.setWaiting key rest) (some p) := by
  have hp : At S none p (.waiting key) := by
    show p ∈ S.waiting key
    rw [hk]
    exact List.mem_cons_self
  have hnd := h.waiting_nodup key
  rw [hk, List.nodup_cons] at hnd
  have hlive := h.alive hp
  refine h.move (p := p) (y := .held) (fun r hr a => ?_) (fun a => ?_) (fun r => ?_) (h.small p hlive) h.ready_nodup
    fun key' => ?_
  · cases a with
    | waiting key' =>
      by_cases hkey : key' = key
      · subst hkey
        simp [At, System.setWaiting, hk, hr]
      · simp [At, System.setWaiting, hkey]
    | held => simp [At, Ne.symm hr]
    | _ => rfl
  · have ha := h.at_iff hp a
    cases a with
    | waiting key' =>
      by_cases hkey : key' = key
      · subst hkey
        simp [At, System.setWaiting, hnd.1]
      · simp_all [At, System.setWaiting]
    | _ => simp_all [At, System.setWaiting]
  · exact ⟨Or.inl, fun hr => hr.elim id fun he => he ▸ hlive⟩
  · by_cases hkey : key' = key
    · subst hkey
      simp [System.setWaiting, hnd.2]
    · simp [System.setWaiting, hkey, h.waiting_nodup]

/-- Who is in the hands of the kernel is nowhere else. -/
theorem held_nowhere (h : Fit S (some p)) (a : Place) (ha : a ≠ .held) : ¬ At S (some p) p a :=
  fun hp => ha (h.unique hp (b := .held) rfl)

theorem wake (h : Fit S (some p)) : Fit (S.wake p) none := by
  have hlive := h.alive (p := p) (a := .held) rfl
  have hready : p ∉ S.ready := h.held_nowhere .ready (by simp)
  refine h.move (p := p) (y := .ready) (fun r hr a => ?_) (fun a => ?_) (fun r => ?_) (h.small p hlive) ?_
    h.waiting_nodup
  · cases a <;> simp [At, System.wake, System.alter, hr, Ne.symm hr]
  · have ha := h.held_nowhere a
    cases a <;> simp_all [At, System.wake, System.alter]
  · refine (process_alter_ne_none S p _ r).trans ⟨Or.inl, fun hr => hr.elim id fun he => he ▸ hlive⟩
  · exact insertPrio_nodup _ _ hready h.ready_nodup

theorem wait (h : Fit S (some p)) (key : Key) :
    Fit (S.setWaiting key (insertPrio S.prio p (S.waiting key))) none := by
  have hlive := h.alive (p := p) (a := .held) rfl
  have hwaiting : ∀ key, p ∉ S.waiting key := fun key => h.held_nowhere (.waiting key) (by simp)
  refine h.move (p := p) (y := .waiting key) (fun r hr a => ?_) (fun a => ?_) (fun r => ?_) (h.small p hlive)
    h.ready_nodup fun key' => ?_
  · cases a with
    | waiting key' => by_cases hkey : key' = key <;> simp [At, System.setWaiting, hkey, hr]
    | held => simp [At, Ne.symm hr]
    | _ => rfl
  · have ha := h.held_nowhere a
    cases a with
    | waiting key' => by_cases hkey : key' = key <;> simp_all [At, System.setWaiting]
    | _ => simp_all [At, System.setWaiting]
  · exact ⟨Or.inl, fun hr => hr.elim id fun he => he ▸ hlive⟩
  · by_cases hkey : key' = key
    · subst hkey
      simp [System.setWaiting, insertPrio_nodup _ _ (hwaiting _) (h.waiting_nodup _)]
    · simp [System.setWaiting, hkey, h.waiting_nodup]

theorem age (h : Fit S none) (arith : PrioArith) : Fit (S.age arith) none := by
  refine h.congr rfl rfl rfl fun r => ?_
  unfold System.age
  by_cases hr : r ∈ S.ready <;> simp [hr]

theorem born (h : Fit S none) (hdead : S.process p = none) (hp : p < maxProc) (x : Process T) :
    Fit { S with process := Function.update S.process p (some x) } (some p) := by
  have hnowhere : ∀ a, ¬ At S none p a := fun a ha => h.alive ha hdead
  refine h.move (p := p) (y := .held) (fun r hr a => ?_) (fun a => ?_) (fun r => ?_) hp h.ready_nodup h.waiting_nodup
  · cases a <;> simp [At, Ne.symm hr]
  · have ha := hnowhere a
    cases a <;> simp_all [At]
  · by_cases hr : r = p <;> simp [hr]

theorem load {rest : List Pid} (h : Fit S none) (hn : S.running = none) (hr : S.ready = p :: rest) :
    Fit { S with ready := rest, running := some p } none := by
  have hp : At S none p .ready := by
    show p ∈ S.ready
    rw [hr]
    exact List.mem_cons_self
  have hnd := h.ready_nodup
  rw [hr, List.nodup_cons] at hnd
  have hlive := h.alive hp
  refine h.move (p := p) (y := .running) (fun r hne a => ?_) (fun a => ?_) (fun r => ?_) (h.small p hlive) hnd.2
    h.waiting_nodup
  · cases a <;> simp [At, hr, hn, hne, Ne.symm hne]
  · have ha := h.at_iff hp a
    cases a <;> simp_all [At]
  · exact ⟨Or.inl, fun hr => hr.elim id fun he => he ▸ hlive⟩

theorem kill (h : Fit S none) (p : Pid) : Fit (S.kill p) none := by
  have hat : ∀ r a, At (S.kill p) none r a ↔ At S none r a ∧ S.spared p r = true := by
    intro r a
    cases a with
    | running =>
      simp only [At, System.kill, Option.filter_eq_some_iff]
    | ready => simp only [At, System.kill, List.mem_filter]
    | waiting key => simp only [At, System.kill, List.mem_filter]
    | held => simp [At]
  have hlives : ∀ r, (S.kill p).process r ≠ none ↔ S.process r ≠ none ∧ S.spared p r = true := by
    intro r
    unfold System.kill
    cases hr : S.spared p r <;> simp [hr]
  refine ⟨fun ha hb => h.unique ((hat _ _).mp ha).1 ((hat _ _).mp hb).1, fun r => ?_, fun r hr => ?_,
    h.ready_nodup.filter _, fun key => (h.waiting_nodup key).filter _⟩
  · rw [hlives, h.lives, exists_and_right.symm]
    exact exists_congr fun a => (hat r a).symm
  · exact h.small r ((hlives r).mp hr).1

end Fit

theorem fit_move {S S' : System T} {o o' : Option Pid} (hm : Move cfg S o S' o') (h : Fit S o) : Fit S' o' := by
  cases hm with
  | memory _ => exact h.congr rfl rfl rfl fun _ => Iff.rfl
  | devices _ => exact h.congr rfl rfl rfl fun _ => Iff.rfl
  | adjust _ => exact h.congr rfl rfl rfl (process_alter_ne_none S _ _)
  | stop hp => exact h.stop hp
  | pop hk => exact h.pop hk
  | wake => exact h.wake
  | wait key => exact h.wait key
  | age => exact h.age _
  | born hdead hp _ _ => exact h.born hdead hp _
  | load hn hr => exact h.load hn hr
  | kill p => exact h.kill p

/-- Every live process is in exactly one place. -/
theorem reach_fit {ok : System T → Entry T → Prop} {S : System T} (h : (abstractKernel cfg ok).Reach S) :
    Fit S none := reach_keeps (fit_boot cfg) fit_move h

end Bikaya.Spec
