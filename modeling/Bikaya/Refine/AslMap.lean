import Bikaya.Refine.Init
import Bikaya.Spec.BlockedMap

/-!
# `asl.c` refines a map from keys to waiting lists

`AslRel` relates a pool to a `BlockedMap`; one operation of `asl.c` is one `BlockedMap.step`
(`AslRel.step`), and a sequence of operations from `asl_init` on is a `BlockedMap.run` (`aslInit_refines`).
-/

namespace Bikaya.Refine
open Bikaya.Lib Bikaya.Model Bikaya.Spec

variable {T : Target}

/-- The operation of `asl.c`. -/
def aslExec : AslOp → PM T AslResult
  | .insertBlocked key p => do
    let r ← aslInsertBlocked key p
    pure (.full r)
  | .removeBlocked key => do
    let r ← aslRemoveBlocked key
    pure (.pcb r)
  | .findAndRemoveBlocked p => do
    let r ← aslFindAndRemoveBlocked p
    pure (.pcb r)
  | .blockedHead key => do
    let r ← aslBlockedHead key
    pure (.pcb r)
  | .semd key => do
    let r ← aslSemd key
    pure (.found r.isSome)

def aslExecAll : List AslOp → PM T (List AslResult)
  | [] => pure []
  | op :: ops => do
    let r ← aslExec op
    let rs ← aslExecAll ops
    pure (r :: rs)

/-- The priorities of the PCBs. -/
def Pool.prio (pool : Pool T) : Pid → Int := fun p => (pool.pcbs p).priority

/-- A PCB up to its `p_semkey`. -/
def noSemkey (x : Pcb T) : Pcb T := { x with pSemkey := 0 }

/-- `pool` holds the map `m` besides the other lists of `q`; nothing but `p_semkey` differs from the PCBs of
`pool₀`. -/
structure AslRel (pool₀ : Pool T) (q : Queues) (m : BlockedMap) (pool : Pool T) (asl sf : List Nat) : Prop where
  rep : RepAt pool { q with waiting := m.waiting } asl sf
  semkey : ∀ p, (pool.pcbs p).pSemkey = m.semkey p
  sorted : ∀ k, Descending (Pool.prio pool₀) (m.waiting k)
  rest : ∀ p, noSemkey (pool.pcbs p) = noSemkey (pool₀.pcbs p)

namespace AslRel
variable {pool₀ pool : Pool T} {q : Queues} {m : BlockedMap} {asl sf : List Nat}
  (h : AslRel pool₀ q m pool asl sf)
include h

theorem prio_eq (p : Pid) : (pool.pcbs p).priority = Pool.prio pool₀ p :=
  congrArg (fun x => x.priority) (h.rest p : noSemkey _ = noSemkey _)

theorem ncard_activeKeys : m.activeKeys.ncard = asl.length := by
  have hset : m.activeKeys = ((asl.map pool.sKey).toFinset : Set Key) := by
    ext k
    rw [Finset.mem_coe, List.mem_toFinset, ← h.rep.active k]
    rfl
  rw [hset, Set.ncard_coe_finset, List.toFinset_card_of_nodup h.rep.keys, List.length_map]

/-- There is no free descriptor exactly when `maxProc` keys are active. -/
theorem full_iff : sf = [] ↔ m.activeKeys.ncard = maxProc := by
  have hlen : asl.length + sf.length = maxProc := by
    rw [← List.length_append, h.rep.semds.length_eq, List.length_range]
  rw [h.ncard_activeKeys, ← List.length_eq_zero_iff]
  omega

theorem insert_full {key : Key} (p : Pid) (hk : m.waiting key = [] ∧ m.activeKeys.ncard = maxProc) :
    aslInsertBlocked key p pool = .ret true pool :=
  h.rep.aslInsertBlocked_full p (h.full_iff.mpr hk.2) hk.1

/-- The relation after the PCB `p` got the semaphore key `key`. -/
theorem update_rest (p : Pid) (key : Key) (r : Pid) :
    noSemkey (Function.update pool.pcbs p { pool.pcbs p with pSemkey := key } r) = noSemkey (pool₀.pcbs r) := by
  rw [← h.rest r]
  by_cases hr : r = p
  · subst hr
    rw [Function.update_self]
    rfl
  · rw [Function.update_of_ne hr]

theorem update_semkey (p : Pid) (key : Key) (r : Pid) :
    (Function.update pool.pcbs p { pool.pcbs p with pSemkey := key } r).pSemkey =
      Function.update m.semkey p key r := by
  by_cases hr : r = p
  · subst hr; simp
  · simpa [hr] using h.semkey r

theorem insert_new {key : Key} {p : Pid} (hk : ¬ (m.waiting key = [] ∧ m.activeKeys.ncard = maxProc))
    (hp : m.Allowed q (.insertBlocked key p)) :
    ∃ pool' asl' sf', aslInsertBlocked key p pool = .ret false pool' ∧
      AslRel pool₀ q (m.step (Pool.prio pool₀) (.insertBlocked key p)).2 pool' asl' sf' := by
  have hprio : (fun x => (pool.pcbs x).priority) = Pool.prio pool₀ := funext h.prio_eq
  have hplace : insertPrio (fun x => (pool.pcbs x).priority) p (m.waiting key) =
      BlockedMap.place (Pool.prio pool₀) p (m.waiting key) := by
    rw [hprio]
    exact insertPrio_eq_filter _ p (h.sorted key)
  have hstep : (m.step (Pool.prio pool₀) (.insertBlocked key p)).2 =
      { waiting := Function.update m.waiting key (BlockedMap.place (Pool.prio pool₀) p (m.waiting key))
        semkey := Function.update m.semkey p key } := by
    simp only [BlockedMap.step, if_neg hk]
  have hsorted : ∀ k, Descending (Pool.prio pool₀)
      (Function.update m.waiting key (BlockedMap.place (Pool.prio pool₀) p (m.waiting key)) k) := by
    intro k
    by_cases he : k = key
    · subst he
      rw [Function.update_self, ← hplace, hprio]
      exact insertPrio_descending _ p (h.sorted k)
    · rw [Function.update_of_ne he]
      exact h.sorted k
  rw [hstep]
  by_cases hw : m.waiting key = []
  · obtain ⟨d, rest, hsf⟩ := List.exists_cons_of_ne_nil (fun he : sf = [] => hk ⟨hw, h.full_iff.mp he⟩)
    obtain ⟨pool', hrun, hpcbs, hrep⟩ := h.rep.aslInsertBlocked_new hsf hw hp.1 hp.2
    refine ⟨pool', d :: asl, rest, hrun, ?_, fun r => ?_, hsorted, fun r => ?_⟩
    · have hone : BlockedMap.place (Pool.prio pool₀) p (m.waiting key) = [p] := by rw [hw]; rfl
      rw [hone]
      exact hrep
    · rw [hpcbs]
      exact h.update_semkey p key r
    · rw [hpcbs]
      exact h.update_rest p key r
  · obtain ⟨pool', hrun, hpcbs, hrep⟩ := h.rep.aslInsertBlocked_active hw hp.1 hp.2
    refine ⟨pool', asl, sf, hrun, ?_, fun r => ?_, hsorted, fun r => ?_⟩
    · rw [← hplace]
      exact hrep
    · rw [hpcbs]
      exact h.update_semkey p key r
    · rw [hpcbs]
      exact h.update_rest p key r

theorem remove {key : Key} {p : Pid} {xs : List Pid} (hk : m.waiting key = p :: xs) :
    ∃ pool' asl' sf', aslRemoveBlocked key pool = .ret (some p) pool' ∧
      AslRel pool₀ q { waiting := Function.update m.waiting key xs
                       semkey := Function.update m.semkey p 0 } pool' asl' sf' := by
  obtain ⟨l, asl', sf', hrun, hrep⟩ := h.rep.aslRemoveBlocked_cons hk
  refine ⟨_, asl', sf', hrun, hrep, h.update_semkey p 0, fun k => ?_, h.update_rest p 0⟩
  change Descending _ (Function.update m.waiting key xs k)
  by_cases he : k = key
  · subst he
    have hs := h.sorted k
    rw [hk] at hs
    rw [Function.update_self]
    exact (List.pairwise_cons.mp hs).2
  · rw [Function.update_of_ne he]
    exact h.sorted k

theorem findAndRemove {p : Pid} (hp : p ∈ m.waiting (m.semkey p)) :
    ∃ pool' asl' sf', aslFindAndRemoveBlocked p pool = .ret (some p) pool' ∧
      AslRel pool₀ q
        { m with waiting := Function.update m.waiting (m.semkey p) ((m.waiting (m.semkey p)).erase p) }
        pool' asl' sf' := by
  have hp' := hp
  rw [← h.semkey p] at hp'
  obtain ⟨l, asl', sf', hrun, hrep, -⟩ := h.rep.aslFindAndRemoveBlocked_mem hp'
  rw [h.semkey p] at hrep
  refine ⟨_, asl', sf', hrun, hrep, h.semkey, fun k => ?_, h.rest⟩
  change Descending _ (Function.update m.waiting (m.semkey p) ((m.waiting (m.semkey p)).erase p) k)
  by_cases he : k = m.semkey p
  · subst he
    rw [Function.update_self]
    exact (h.sorted _).sublist List.erase_sublist
  · rw [Function.update_of_ne he]
    exact h.sorted k

/-- One operation of `asl.c` is one step of the map. -/
theorem step (op : AslOp) (hop : m.Allowed q op) :
    ∃ pool' asl' sf', aslExec op pool = .ret (m.step (Pool.prio pool₀) op).1 pool' ∧
      AslRel pool₀ q (m.step (Pool.prio pool₀) op).2 pool' asl' sf' := by
  cases op with
  | insertBlocked key p =>
    by_cases hk : m.waiting key = [] ∧ m.activeKeys.ncard = maxProc
    · refine ⟨pool, asl, sf, ?_, ?_⟩
      · change (aslInsertBlocked key p >>= _) pool = _
        rw [bind_ret (h.insert_full p hk), BlockedMap.step, if_pos hk]
        rfl
      · rw [BlockedMap.step, if_pos hk]
        exact h
    · obtain ⟨pool', asl', sf', hrun, hrel⟩ := h.insert_new hk hop
      refine ⟨pool', asl', sf', ?_, hrel⟩
      change (aslInsertBlocked key p >>= _) pool = _
      rw [bind_ret hrun, BlockedMap.step, if_neg hk]
      rfl
  | removeBlocked key =>
    cases hk : m.waiting key with
    | nil =>
      refine ⟨pool, asl, sf, ?_, ?_⟩
      · change (aslRemoveBlocked key >>= _) pool = _
        rw [bind_ret (h.rep.aslRemoveBlocked_nil hk), BlockedMap.step, hk]
        rfl
      · rw [BlockedMap.step, hk]
        exact h
    | cons p xs =>
      obtain ⟨pool', asl', sf', hrun, hrel⟩ := h.remove hk
      refine ⟨pool', asl', sf', ?_, ?_⟩
      · change (aslRemoveBlocked key >>= _) pool = _
        rw [bind_ret hrun, BlockedMap.step, hk]
        rfl
      · rw [BlockedMap.step, hk]
        exact hrel
  | findAndRemoveBlocked p =>
    by_cases hp : p ∈ m.waiting (m.semkey p)
    · obtain ⟨pool', asl', sf', hrun, hrel⟩ := h.findAndRemove hp
      refine ⟨pool', asl', sf', ?_, ?_⟩
      · change (aslFindAndRemoveBlocked p >>= _) pool = _
        rw [bind_ret hrun, BlockedMap.step, if_pos hp]
        rfl
      · rw [BlockedMap.step, if_pos hp]
        exact hrel
    · have hp' := hp
      rw [← h.semkey p] at hp'
      refine ⟨pool, asl, sf, ?_, ?_⟩
      · change (aslFindAndRemoveBlocked p >>= _) pool = _
        rw [bind_ret (h.rep.aslFindAndRemoveBlocked_not_mem hp'), BlockedMap.step, if_neg hp]
        rfl
      · rw [BlockedMap.step, if_neg hp]
        exact h
  | blockedHead key =>
    refine ⟨pool, asl, sf, ?_, h⟩
    change (aslBlockedHead key >>= _) pool = _
    rw [bind_ret (h.rep.aslBlockedHead_eq key)]
    rfl
  | semd key =>
    refine ⟨pool, asl, sf, ?_, h⟩
    change (aslSemd key >>= _) pool = _
    by_cases hk : m.waiting key = []
    · rw [bind_ret (h.rep.aslSemd_none hk), BlockedMap.step]
      simp only [hk, ne_eq, not_true_eq_false, decide_false]
      rfl
    · obtain ⟨d, -, -, hrun⟩ := h.rep.aslSemd_some hk
      rw [bind_ret hrun, BlockedMap.step]
      simp only [hk, ne_eq, not_false_eq_true, decide_true]
      rfl

omit h in
/-- A sequence of operations is a run of the map. -/
theorem run (ops : List AslOp) : ∀ {m : BlockedMap} {pool : Pool T} {asl sf : List Nat},
    AslRel pool₀ q m pool asl sf → BlockedMap.AllAllowed q (Pool.prio pool₀) m ops →
    ∃ pool' asl' sf', aslExecAll ops pool = .ret (m.run (Pool.prio pool₀) ops).1 pool' ∧
      AslRel pool₀ q (m.run (Pool.prio pool₀) ops).2 pool' asl' sf' := by
  induction ops with
  | nil => exact fun h _ => ⟨_, _, _, rfl, h⟩
  | cons op ops ih =>
    intro m pool asl sf h hops
    obtain ⟨pool₁, asl₁, sf₁, hrun₁, h₁⟩ := h.step op hops.1
    obtain ⟨pool₂, asl₂, sf₂, hrun₂, h₂⟩ := ih h₁ hops.2
    refine ⟨pool₂, asl₂, sf₂, ?_, h₂⟩
    unfold aslExecAll
    rw [bind_ret hrun₁, bind_ret hrun₂]
    rfl

end AslRel

/-- The map with nobody waiting. -/
def noWaiters (pool : Pool T) : BlockedMap := ⟨fun _ => [], fun p => (pool.pcbs p).pSemkey⟩

/-- `asl_init` and then any sequence of operations: the results and the final lists are those of the map, and
a failed insertion changes nothing. -/
theorem aslInit_refines {q : Queues} {pool : Pool T} (R : Rings pool.links (q.rings [] [] pool.sKey))
    (F : Fields pool q) (hw : ∀ k, q.waiting k = []) (ops : List AslOp)
    (hops : BlockedMap.AllAllowed q (Pool.prio pool) (noWaiters pool) ops) :
    ∃ pool' asl sf, (do aslInit; aslExecAll ops : PM T (List AslResult)) pool =
        .ret ((noWaiters pool).run (Pool.prio pool) ops).1 pool' ∧
      AslRel pool q ((noWaiters pool).run (Pool.prio pool) ops).2 pool' asl sf ∧
      ∀ key p, ((noWaiters pool).run (Pool.prio pool) ops).2.waiting key = [] →
        ((noWaiters pool).run (Pool.prio pool) ops).2.activeKeys.ncard = maxProc →
        aslInsertBlocked key p pool' = .ret true pool' := by
  obtain ⟨pool₁, hinit, hrep, hpcbs⟩ := aslInit_rep R F hw
  have hq : ({ q with waiting := fun _ => [] } : Queues) = q := by
    rw [show (fun _ => []) = q.waiting from (funext hw).symm]
  have h : AslRel pool q (noWaiters pool) pool₁ [] (List.range maxProc).reverse :=
    { rep := by
        change RepAt pool₁ { q with waiting := fun _ => [] } _ _
        rw [hq]
        exact hrep
      semkey := fun p => by rw [hpcbs]; rfl
      sorted := fun k => List.Pairwise.nil
      rest := fun p => by rw [hpcbs] }
  obtain ⟨pool', asl, sf, hrun, h'⟩ := AslRel.run ops h hops
  refine ⟨pool', asl, sf, ?_, h', fun key p hk hfull => h'.insert_full p ⟨hk, hfull⟩⟩
  rw [bind_ret hinit]
  exact hrun

theorem blank_not_queued (p : Pid) : ¬ blank.Queued p := by
  rintro (hm | hm | ⟨k, hm⟩ | ⟨n, xs, hn, -⟩)
  · cases hm
  · cases hm
  · cases hm
  · cases hn

theorem static_fields : Fields (Pool.static : Pool T) blank := by
  refine ⟨?_, fun p c => ?_, ?_, ?_, fun p hq => absurd hq (blank_not_queued p), ?_⟩
  · intro k p hm
    cases hm
  · simp [Queues.Child, blank, Pool.static, Pcb.zero]
  · intro p hm
    cases hm
  · intro p hm
    cases hm
  · rintro p c ⟨cs, hcs, -⟩
    cases hcs

/-- On a machine just switched on, somebody is made to wait and is removed. -/
theorem aslInit_refines_static : ∃ pool' m asl sf,
    (do aslInit; aslExecAll [.insertBlocked 8 0, .removeBlocked 8] : PM .umps (List AslResult)) Pool.static =
      .ret [.full false, .pcb (some 0)] pool' ∧ AslRel (T := .umps) Pool.static blank m pool' asl sf := by
  have hops : BlockedMap.AllAllowed blank (Pool.prio (Pool.static : Pool .umps)) (noWaiters (Pool.static : Pool .umps))
      [.insertBlocked 8 0, .removeBlocked 8] :=
    ⟨⟨blank_not_queued 0, by decide⟩, trivial, trivial⟩
  have hstep : (noWaiters (Pool.static : Pool .umps)).step (Pool.prio (Pool.static : Pool .umps)) (.insertBlocked 8 0) =
      (.full false, { waiting := Function.update (fun _ => []) 8 [0]
                      semkey := Function.update (fun _ => 0) 0 8 }) := by
    have hkeys : (noWaiters (Pool.static : Pool .umps)).activeKeys = ∅ :=
      Set.eq_empty_of_forall_notMem fun _ hk => hk rfl
    rw [BlockedMap.step, if_neg (by rw [hkeys, Set.ncard_empty]; simp)]
    rfl
  have hrs : ((noWaiters (Pool.static : Pool .umps)).run (Pool.prio (Pool.static : Pool .umps))
      [.insertBlocked 8 0, .removeBlocked 8]).1 = [.full false, .pcb (some 0)] := by
    simp only [BlockedMap.run, hstep]
    simp [BlockedMap.step]
  obtain ⟨pool', asl, sf, hrun, hrel, -⟩ := aslInit_refines static_rings static_fields (fun _ => rfl) _ hops
  rw [hrs] at hrun
  exact ⟨pool', _, asl, sf, hrun, hrel⟩

end Bikaya.Refine
