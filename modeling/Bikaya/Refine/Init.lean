import Bikaya.Model.Main
import Bikaya.Refine.AslOps
import Bikaya.Spec.Places

/-!
# `pcb_init` and `asl_init`

The loops that build the two free lists, from links on which only the static sentinels are initialised.
-/

namespace Bikaya.Refine
open Bikaya.Lib Bikaya.Model Bikaya.Spec

variable {T : Target}

/-- Without active descriptors the keys do not matter. -/
theorem rings_inactive (q : Queues) (sf : List Nat) (key key' : Nat → Key) :
    q.rings [] sf key = q.rings [] sf key' := by
  funext n
  cases n <;> simp [Queues.rings]

/-- One more free descriptor. -/
theorem rings_addSemd (q : Queues) (sf : List Nat) (key : Nat → Key) (d : Nat) :
    Function.update (Function.update (q.rings [] sf key) (.sProcQ d) (some [])) .semdFree
      (some (.sNext d :: sf.map .sNext)) = q.rings [] (d :: sf) key := by
  funext n
  cases n with
  | sProcQ e =>
    by_cases he : e = d
    · subst he; simp [Queues.rings]
    · simp [Queues.rings, he]
  | _ => simp [Queues.rings]

/-- The invariant of the loop of `asl_init`: the descriptors passed so far are free. -/
def SemdsFreed (q : Queues) (pool : Pool T) (rest : List Nat) (pool' : Pool T) : Prop :=
  ∃ done, done ++ rest = List.range maxProc ∧ Rings pool'.links (q.rings [] done.reverse pool'.sKey) ∧
    pool'.pcbs = pool.pcbs

theorem aslInit_step {q : Queues} {pool : Pool T} {i : Nat} {rest : List Nat} {s : Pool T}
    (h : SemdsFreed q pool (i :: rest) s) :
    ∃ s', (do
        setKey i 0
        PM.onLinks fun l => some (initListHead l (.sProcQ i))
        PM.onLinks fun l => listAdd l (.sNext i) .semdFree : PM T Unit) s = .ret () s' ∧
      SemdsFreed q pool rest s' := by
  obtain ⟨done, hdone, R, hpcbs⟩ := h
  have hi : i ∉ done.reverse := by
    have hnd : (done ++ i :: rest).Nodup := hdone ▸ List.nodup_range
    exact fun hm => (List.nodup_append.mp hnd).2.2 i (List.mem_reverse.mp hm) i List.mem_cons_self rfl
  have hproc : Fresh (q.rings [] done.reverse s.sKey) (.sProcQ i) := fun n xs hn hm =>
    (mem_rings hn hm).elim (fun hc => by cases hc) hi
  have R₁ := R.loop hproc
  have hnext : Fresh (Function.update (q.rings [] done.reverse s.sKey) (.sProcQ i) (some [])) (.sNext i) := by
    intro n xs hn hm
    by_cases he : n = .sProcQ i
    · subst he
      rw [Function.update_self] at hn
      cases hn
      simp at hm
    · rw [Function.update_of_ne he] at hn
      exact (mem_rings hn hm).elim (fun hc => by cases hc) hi
  have hfree : Function.update (q.rings [] done.reverse s.sKey) (.sProcQ i) (some []) .semdFree =
      some (done.reverse.map .sNext) := rfl
  obtain ⟨l, hl, -, R₂⟩ := listAdd_ring R₁ hfree hnext
  refine ⟨{ links := l, pcbs := s.pcbs, sKey := Function.update s.sKey i 0 }, ?_, done ++ [i], ?_, ?_, hpcbs⟩
  · rw [bind_ret (rfl : setKey i 0 s = .ret () { s with sKey := Function.update s.sKey i 0 })]
    exact onLinks_ret (f := fun l => listAdd l (.sNext i) .semdFree)
      (p := Pool.mk (s.links.loop (.sProcQ i)) s.pcbs (Function.update s.sKey i 0)) hl
  · rw [List.append_assoc]
    exact hdone
  · rw [rings_addSemd] at R₂
    rw [List.reverse_append, rings_inactive _ _ _ s.sKey]
    exact R₂

/-- After `asl_init` all descriptors are free, and nobody waits. -/
theorem aslInit_rep {q : Queues} {pool : Pool T} (R : Rings pool.links (q.rings [] [] pool.sKey))
    (F : Fields pool q) (hw : ∀ k, q.waiting k = []) :
    ∃ pool', aslInit pool = .ret () pool' ∧ RepAt pool' q [] (List.range maxProc).reverse ∧
      pool'.pcbs = pool.pcbs := by
  have hwp : Exec.wp aslInit (fun _ s' => SemdsFreed q pool [] s') (fun _ _ => False) (fun _ => False) pool := by
    refine Exec.wp_forEach (SemdsFreed q pool) ⟨[], rfl, R, rfl⟩ fun i rest s hs => ?_
    obtain ⟨s', hrun, hs'⟩ := aslInit_step hs
    unfold Exec.wp
    rw [hrun]
    exact hs'
  obtain ⟨⟨⟩, pool', hrun, done, hdone, R', hpcbs⟩ := Exec.wp_total_noExit hwp
  rw [List.append_nil] at hdone
  subst hdone
  refine ⟨pool', hrun, { rings := R'
                         semkey := by rw [hpcbs]; exact F.semkey
                         parent := by rw [hpcbs]; exact F.parent
                         freeKids := F.freeKids
                         freeParent := by rw [hpcbs]; exact F.freeParent
                         small := F.small
                         smallKids := F.smallKids
                         semds := List.reverse_perm _
                         keys := List.nodup_nil
                         active := by simp [hw] }, hpcbs⟩

/-- All lists empty, no tree. -/
def blank : Queues where
  free := []
  ready := []
  waiting := fun _ => []
  heads := fun _ => none
  kids := fun _ => none

theorem static_rings : Rings (Pool.static : Pool T).links (blank.rings [] [] (Pool.static : Pool T).sKey) := by
  have hx : ∀ {h : Node} {xs : List Node}, blank.rings [] [] (Pool.static : Pool T).sKey h = some xs →
      xs = [] ∧ (Pool.static : Pool T).links.next h = some h ∧ (Pool.static : Pool T).links.prev h = some h := by
    intro h xs hh
    cases h <;> simp [Queues.rings, blank] at hh <;>
      exact ⟨hh, by simp [Pool.static, initListHead], by simp [Pool.static, initListHead]⟩
  refine ⟨fun hh => ?_, fun hh => ?_, fun hh hh' hne y hy => ?_⟩
  · obtain ⟨rfl, h1, h2⟩ := hx hh
    exact ⟨h1, h2⟩
  · obtain ⟨rfl, -⟩ := hx hh
    exact List.nodup_singleton _
  · obtain ⟨rfl, -⟩ := hx hh
    obtain ⟨rfl, -⟩ := hx hh'
    rw [List.mem_singleton] at hy ⊢
    exact hy ▸ hne

/-- The invariant of the loop of `pcb_init`. -/
def PcbsFreed (pool : Pool T) (rest : List Nat) (pool' : Pool T) : Prop :=
  ∃ done, done ++ rest = List.range maxProc ∧
    Rings pool'.links (({ blank with free := done.reverse } : Queues).rings [] [] pool'.sKey) ∧
    pool'.pcbs = pool.pcbs

/-- After `pcb_init` all PCBs are free, the last one first. -/
theorem pcbInit_rings {pool : Pool T} (R : Rings pool.links (blank.rings [] [] pool.sKey)) :
    ∃ pool', pcbInit pool = .ret () pool' ∧ pool'.pcbs = pool.pcbs ∧
      Rings pool'.links
        (({ blank with free := (List.range maxProc).reverse } : Queues).rings [] [] pool'.sKey) := by
  have hwp : Exec.wp pcbInit (fun _ s' => PcbsFreed pool [] s') (fun _ _ => False) (fun _ => False) pool := by
    refine Exec.wp_forEach (PcbsFreed pool) ⟨[], rfl, R, rfl⟩ fun i rest s hs => ?_
    obtain ⟨done, hdone, R, hpcbs⟩ := hs
    have hi : i ∉ done.reverse := by
      have hnd : (done ++ i :: rest).Nodup := hdone ▸ List.nodup_range
      exact fun hm => (List.nodup_append.mp hnd).2.2 i (List.mem_reverse.mp hm) i List.mem_cons_self rfl
    have hfresh : ¬ ({ blank with free := done.reverse } : Queues).Queued i := by
      rintro (hc | hc | ⟨k, hc⟩ | ⟨n, xs, hc, -⟩)
      · exact hi hc
      · cases hc
      · cases hc
      · cases hc
    obtain ⟨l, hl, -, R'⟩ := listAdd_ring R (h := .pcbFree) rfl (RepAt.fresh_pNext hfresh)
    unfold Exec.wp
    rw [onLinks_ret hl]
    refine ⟨done ++ [i], ?_, ?_, hpcbs⟩
    · rw [List.append_assoc]
      exact hdone
    · rw [← List.map_cons, rings_free] at R'
      rw [List.reverse_append]
      exact R'
  obtain ⟨⟨⟩, pool', hrun, done, hdone, R', hpcbs⟩ := Exec.wp_total_noExit hwp
  rw [List.append_nil] at hdone
  subst hdone
  exact ⟨pool', hrun, hpcbs, R'⟩

/-! ## Both -/

/-- All PCBs are free, the last one first. -/
def initial : Queues := { blank with free := (List.range maxProc).reverse }

theorem initial_fields (pool : Pool T) (hp : pool.pcbs = fun _ => Pcb.zero) : Fields pool initial := by
  refine ⟨?_, ?_, fun _ _ => rfl, fun p _ => by rw [hp]; rfl, ?_, ?_⟩
  · intro k p hm
    cases hm
  · intro p c
    rw [hp]
    simp [Queues.Child, initial, blank, Pcb.zero]
  · rintro p (hm | hm | ⟨k, hm⟩ | ⟨n, xs, hn, -⟩)
    · exact lt_trans (List.mem_range.mp (List.mem_reverse.mp hm)) maxProc_lt
    · cases hm
    · cases hm
    · cases hn
  · rintro p c ⟨cs, hcs, -⟩
    cases hcs

theorem initial_places : Placed initial [] ∧ Tree initial := by
  have hmem : ∀ p, p ∈ initial.free ↔ p < maxProc := fun p => by
    unfold initial
    rw [List.mem_reverse, List.mem_range]
  refine ⟨⟨fun _ => rfl, fun p hp => Or.inl (Or.inl ((hmem p).mpr hp)), ?_, fun _ hm => (List.not_mem_nil hm).elim,
    fun _ hm => (List.not_mem_nil hm).elim⟩, ?_, fun p => ?_, ?_⟩
  · rintro p (hm | hm | ⟨k, hm⟩ | ⟨n, xs, hn, -⟩)
    · exact (hmem p).mp hm
    · cases hm
    · cases hm
    · cases hn
  · refine IsForest.empty.mono fun p c hc => ?_
    obtain ⟨cs, hcs, -⟩ := hc
    cases hcs
  · refine ⟨fun hk => ?_, fun hp => absurd ((hmem p).mpr hp.1) hp.2⟩
    obtain ⟨cs, hcs⟩ := hk
    cases hcs
  · rintro p c ⟨cs, hcs, -⟩
    cases hcs

/-- After `pcb_init` and `asl_init` all PCBs are free and all descriptors too. -/
theorem init_rep : ∃ pool₁ pool₂ : Pool T, pcbInit Pool.static = .ret () pool₁ ∧ aslInit pool₁ = .ret () pool₂ ∧
    Rep pool₂ initial ∧ pool₂.pcbs = fun _ => Pcb.zero := by
  obtain ⟨pool₁, hrun₁, hpcbs₁, R⟩ := pcbInit_rings (T := T) static_rings
  have hz : pool₁.pcbs = fun _ => Pcb.zero := hpcbs₁
  obtain ⟨pool₂, hrun₂, hrep, hpcbs₂⟩ := aslInit_rep R (initial_fields pool₁ hz) fun _ => rfl
  exact ⟨pool₁, pool₂, hrun₁, hrun₂, ⟨_, _, hrep⟩, hpcbs₂.trans hz⟩

end Bikaya.Refine
