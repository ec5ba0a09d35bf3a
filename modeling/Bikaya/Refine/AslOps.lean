import Bikaya.Refine.PcbOps

/-!
# `asl.c` on represented pools

One lemma for each function. A waiting list is the ring of the descriptor with its key; descriptors move
between the ASL and the free list, so the lemmas say which descriptors are active afterwards (`RepAt`).
`unlink_waiting` is the part that both removal paths share.
-/

namespace Bikaya.Refine
open Bikaya.Lib Bikaya.Model Bikaya.Spec

variable {T : Target}

/-- Descriptors only move from the ASL to the free list. -/
def Recycles (asl sf asl' sf' : List Nat) : Prop := asl'.Sublist asl ∧ sf <:+ sf'

theorem Recycles.refl (asl sf : List Nat) : Recycles asl sf asl sf := ⟨List.Sublist.refl asl, List.suffix_refl sf⟩

namespace RepAt
variable {pool : Pool T} {q : Queues} {asl sf : List Nat} (h : RepAt pool q asl sf)
include h

theorem aslSemd_none {key : Key} (hk : q.waiting key = []) : aslSemd key pool = .ret none pool := by
  rw [aslSemd_ring h.rings key rfl h.asl_short, List.find?_eq_none.mpr]
  intro d hd hdk
  exact (h.active key).mpr (List.mem_map.mpr ⟨d, hd, of_decide_eq_true hdk⟩) hk

theorem aslSemd_some {key : Key} (hk : q.waiting key ≠ []) :
    ∃ d ∈ asl, pool.sKey d = key ∧ aslSemd key pool = .ret (some d) pool := by
  rw [aslSemd_ring h.rings key rfl h.asl_short]
  cases hf : asl.find? fun d => decide (pool.sKey d = key) with
  | none =>
    obtain ⟨d, hd, hdk⟩ := h.exists_semd hk
    exact absurd (decide_eq_true hdk) (List.find?_eq_none.mp hf d hd)
  | some d =>
    have hdk := List.find?_some hf
    exact ⟨d, List.mem_of_find?_eq_some hf, of_decide_eq_true hdk, rfl⟩

/-! ## Insertion -/

/-- The new fields after `p` has joined the waiting list of `key`. -/
theorem fields_insert {key : Key} {p : Pid} {xs : List Pid} (hp : p < pcbObjects)
    (hxs : ∀ r, r ∈ xs ↔ r = p ∨ r ∈ q.waiting key) {links : Links Node} {sKey : Nat → Key}
    (hnew : ∀ k, p ∈ q.waiting k → k = key) :
    Fields { links := links, sKey := sKey
             pcbs := Function.update pool.pcbs p { pool.pcbs p with pSemkey := key } }
      (q.setWaiting key xs) where
  semkey k r hr := by
    by_cases hk : k = key
    · subst hk
      by_cases he : r = p
      · subst he; simp
      · simp only [Queues.setWaiting, Function.update_self, hxs, he, false_or] at hr
        simpa [he] using h.semkey k r hr
    · simp only [Queues.setWaiting, Function.update_of_ne hk] at hr
      have he : r ≠ p := fun e => hk (hnew k (e ▸ hr))
      simpa [he] using h.semkey k r hr
  parent r c := by
    rw [show (q.setWaiting key xs).Child r c ↔ q.Child r c from Iff.rfl, h.parent r c]
    by_cases he : c = p
    · subst he; simp
    · simp [he]
  freeKids := h.freeKids
  freeParent r hr := by
    by_cases he : r = p
    · subst he; simpa using h.freeParent r hr
    · simpa [he] using h.freeParent r hr
  small := by
    rintro r (hr | hr | ⟨k, hr⟩ | hr)
    · exact h.small r (Or.inl hr)
    · exact h.small r (Or.inr (Or.inl hr))
    · by_cases hk : k = key
      · subst hk
        simp only [Queues.setWaiting, Function.update_self, hxs] at hr
        rcases hr with rfl | hr
        · exact hp
        · exact h.small r (Or.inr (Or.inr (Or.inl ⟨k, hr⟩)))
      · simp only [Queues.setWaiting, Function.update_of_ne hk] at hr
        exact h.small r (Or.inr (Or.inr (Or.inl ⟨k, hr⟩)))
    · exact h.small r (Or.inr (Or.inr (Or.inr hr)))
  smallKids := h.smallKids

/-- `asl_insert_blocked` on a key that has waiters. -/
theorem aslInsertBlocked_active {key : Key} {p : Pid} (hk : q.waiting key ≠ []) (hp : ¬ q.Queued p)
    (hs : p < pcbObjects) :
    ∃ pool', aslInsertBlocked key p pool = .ret false pool' ∧
      pool'.pcbs = Function.update pool.pcbs p { pool.pcbs p with pSemkey := key } ∧
      RepAt pool' (q.setWaiting key (insertPrio (fun x => (pool.pcbs x).priority) p (q.waiting key))) asl sf := by
  obtain ⟨d, hd, hdk, hrun⟩ := h.aslSemd_some hk
  subst hdk
  obtain ⟨l, hl, R⟩ := pcbInsertInQueue_ring h.rings (ring_asl hd) (fresh_pNext hp) (h.waiting_short _)
  refine ⟨{ links := l, sKey := pool.sKey,
            pcbs := Function.update pool.pcbs p { pool.pcbs p with pSemkey := pool.sKey d } }, ?_, rfl,
    { toFields := h.fields_insert hs (fun r => by simp)
        (fun k hk => absurd (Or.inr (Or.inr (Or.inl ⟨k, hk⟩))) hp)
      rings := by rw [rings_waiting q asl sf pool.sKey hd h.keys] at R; exact R
      semds := h.semds
      keys := h.keys
      active := fun k => ?_ }⟩
  · have hsemd : aslSemdOrNew (pool.sKey d) pool = .ret (some d) pool := by
      unfold aslSemdOrNew
      rw [bind_ret hrun]
      rfl
    unfold aslInsertBlocked
    rw [bind_ret hsemd]
    change (pcbInsertInQueue (.sProcQ d) p >>= _) pool = _
    rw [bind_ret hl]
    change Outcome.ret false (Pool.mk l _ (Function.update pool.sKey d (pool.sKey d))) = _
    rw [Function.update_eq_self]
  · change _ ↔ k ∈ asl.map pool.sKey
    by_cases hke : k = pool.sKey d
    · subst hke
      simp only [Queues.setWaiting, Function.update_self, ne_eq, insertPrio_ne_nil, not_false_eq_true, true_iff]
      exact List.mem_map_of_mem hd
    · simpa only [Queues.setWaiting, Function.update_of_ne hke] using h.active k

/-- `asl_insert_blocked` on a key without waiters takes the first free descriptor. -/
theorem aslInsertBlocked_new {key : Key} {p : Pid} {d : Nat} {rest : List Nat} (hsf : sf = d :: rest)
    (hk : q.waiting key = []) (hp : ¬ q.Queued p) (hs : p < pcbObjects) :
    ∃ pool', aslInsertBlocked key p pool = .ret false pool' ∧
      pool'.pcbs = Function.update pool.pcbs p { pool.pcbs p with pSemkey := key } ∧
      RepAt pool' (q.setWaiting key [p]) (d :: asl) rest := by
  subst hsf
  have hnd := h.semds_nodup
  have hda : d ∉ asl := fun hm => (List.nodup_append.mp hnd).2.2 d hm d List.mem_cons_self rfl
  have hdr : d ∉ rest := (List.nodup_cons.mp (List.nodup_append.mp hnd).2.1).1
  -- the descriptor moves from one list to the other
  have hfree : q.rings asl (d :: rest) pool.sKey .semdFree = some ([] ++ .sNext d :: rest.map .sNext) := rfl
  obtain ⟨l₁, hl₁, -, R₁⟩ := listDel_ring h.rings hfree
  have hasl : Function.update (q.rings asl (d :: rest) pool.sKey) .semdFree (some ([] ++ rest.map .sNext)) .asl =
      some (asl.map .sNext) := rfl
  obtain ⟨l₂, hl₂, -, R₂⟩ := listAdd_ring R₁ hasl (h.rings.fresh_of_cut hfree rfl)
  -- `p` becomes the only member of its queue
  have hq : Function.update (Function.update (q.rings asl (d :: rest) pool.sKey) .semdFree
      (some ([] ++ rest.map .sNext))) .asl (some (.sNext d :: asl.map .sNext)) (.sProcQ d) =
      some (([] : List Pid).map .pNext) := by
    simp [Queues.rings, hda]
  have hfresh : Fresh (Function.update (Function.update (q.rings asl (d :: rest) pool.sKey) .semdFree
      (some ([] ++ rest.map .sNext))) .asl (some (.sNext d :: asl.map .sNext))) (.pNext p) := by
    intro n xs hn hm
    by_cases h1 : n = .asl
    · subst h1
      rw [Function.update_self] at hn
      cases hn
      simp at hm
    · rw [Function.update_of_ne h1] at hn
      by_cases h2 : n = .semdFree
      · subst h2
        rw [Function.update_self] at hn
        cases hn
        simp at hm
      · rw [Function.update_of_ne h2] at hn
        exact hp (mem_rings hn hm)
  obtain ⟨l₃, hl₃, R₃⟩ := @pcbInsertInQueue_ring T { pool with links := l₂ } _ R₂ _ _ _ hq hfresh
    (lt_walkFuel (by decide))
  have hmap : asl.map (Function.update pool.sKey d key) = asl.map pool.sKey :=
    List.map_congr_left fun e he => Function.update_of_ne (fun hed : e = d => hda (hed ▸ he)) _ _
  have hkey : ∀ e ∈ asl, pool.sKey e ≠ key := fun e he hek =>
    (h.active key).mpr (List.mem_map.mpr ⟨e, he, hek⟩) hk
  refine ⟨{ links := l₃, sKey := Function.update pool.sKey d key,
            pcbs := Function.update pool.pcbs p { pool.pcbs p with pSemkey := key } }, ?_, rfl,
    { toFields := h.fields_insert hs (fun r => by simp [hk])
        (fun k hk => absurd (Or.inr (Or.inr (Or.inl ⟨k, hk⟩))) hp)
      rings := ?_
      semds := (List.perm_middle.symm).trans h.semds
      keys := ?_
      active := fun k => ?_ }⟩
  · have hnew : aslNewSemd pool = .ret (some d) { pool with links := l₂ } := by
      unfold aslNewSemd
      rw [bind_ret (rfl : Exec.read pool = .ret pool pool), listEmpty_eq h.rings hfree,
        listNext_eq h.rings hfree]
      change (PM.onLinks (fun l => listDel l (.sNext d)) >>= _) pool = _
      rw [bind_ret (onLinks_ret hl₁)]
      rw [bind_ret (onLinks_ret hl₂)]
      rfl
    have hsemd : aslSemdOrNew key pool = .ret (some d) { pool with links := l₂ } := by
      unfold aslSemdOrNew
      rw [bind_ret (h.aslSemd_none hk)]
      exact hnew
    unfold aslInsertBlocked
    rw [bind_ret hsemd]
    change (pcbInsertInQueue (.sProcQ d) p >>= _) _ = _
    rw [bind_ret hl₃]
    rfl
  · refine R₃.mono fun n xs hn => ?_
    cases n with
    | sProcQ e =>
      by_cases he : e = d
      · subst he
        simpa [Queues.rings, Queues.setWaiting, insertPrio] using hn
      · by_cases hea : e ∈ asl
        · simpa [Queues.rings, Queues.setWaiting, he, hea, hkey e hea] using hn
        · simpa [Queues.rings, he, hea] using hn
    | pNext r => cases hn
    | pSib r => cases hn
    | sNext r => cases hn
    | _ => simpa [Queues.rings, Queues.setWaiting] using hn
  · change (Function.update pool.sKey d key d :: asl.map (Function.update pool.sKey d key)).Nodup
    rw [hmap, Function.update_self, List.nodup_cons]
    exact ⟨fun hm => (h.active key).mpr hm hk, h.keys⟩
  · change _ ↔ k ∈ Function.update pool.sKey d key d :: asl.map (Function.update pool.sKey d key)
    rw [hmap, Function.update_self, List.mem_cons, ← h.active k]
    by_cases hke : k = key
    · subst hke
      simp [Queues.setWaiting]
    · simp [Queues.setWaiting, hke]

/-- `asl_insert_blocked` without a descriptor for the key and without a free one. -/
theorem aslInsertBlocked_full {key : Key} (p : Pid) (hsf : sf = []) (hk : q.waiting key = []) :
    aslInsertBlocked key p pool = .ret true pool := by
  subst hsf
  have hfree : q.rings asl [] pool.sKey .semdFree = some [] := rfl
  have hnew : aslNewSemd pool = .ret none pool := by
    unfold aslNewSemd
    rw [bind_ret (rfl : Exec.read pool = .ret pool pool), listEmpty_eq h.rings hfree]
    rfl
  have hsemd : aslSemdOrNew key pool = .ret none pool := by
    unfold aslSemdOrNew
    rw [bind_ret (h.aslSemd_none hk)]
    exact hnew
  unfold aslInsertBlocked
  rw [bind_ret hsemd]
  rfl

/-! ## Removal -/

/-- The fields after `p` has left the waiting list of `k`. -/
theorem fields_unblock (k : Key) (p : Pid) {links : Links Node} :
    Fields { pool with links := links } (q.unblock k p) where
  semkey k' r hr := by
    by_cases hk : k' = k
    · subst hk
      simp only [Queues.unblock, Queues.setWaiting, Function.update_self] at hr
      exact h.semkey k' r (List.mem_of_mem_erase hr)
    · simp only [Queues.unblock, Queues.setWaiting, Function.update_of_ne hk] at hr
      exact h.semkey k' r hr
  parent := h.parent
  freeKids := h.freeKids
  freeParent := h.freeParent
  small := by
    rintro r (hr | hr | ⟨k', hr⟩ | hr)
    · exact h.small r (Or.inl hr)
    · exact h.small r (Or.inr (Or.inl hr))
    · refine h.small r (Or.inr (Or.inr (Or.inl ⟨k', ?_⟩)))
      by_cases hk : k' = k
      · subst hk
        simp only [Queues.unblock, Queues.setWaiting, Function.update_self] at hr
        exact List.mem_of_mem_erase hr
      · simpa only [Queues.unblock, Queues.setWaiting, Function.update_of_ne hk] using hr
    · exact h.small r (Or.inr (Or.inr (Or.inr hr)))
  smallKids := h.smallKids

/-- Taking a waiter out of its queue, and the descriptor out of the ASL when it was the last. -/
theorem unlink_waiting {d : Nat} {p : Pid} (hd : d ∈ asl) (hp : p ∈ q.waiting (pool.sKey d)) :
    ∃ l₁ l asl' sf', PM.onLinks (fun l => listDel l (.pNext p)) pool = .ret () { pool with links := l₁ } ∧
      aslReleaseIfEmpty d { pool with links := l₁ } = .ret () { pool with links := l } ∧
      RepAt { pool with links := l } (q.unblock (pool.sKey d) p) asl' sf' ∧ SibFrame pool.links l ∧
      Recycles asl sf asl' sf' := by
  have hring : q.rings asl sf pool.sKey (.sProcQ d) = some ((q.waiting (pool.sKey d)).map .pNext) := ring_asl hd
  obtain ⟨l₁, hl₁, R₁, hf₁⟩ := delete_ring h.rings hring hp
  have hsib₁ : SibFrame pool.links l₁ := fun c => hf₁ _ (by simp)
  by_cases he : (q.waiting (pool.sKey d)).erase p = []
  · -- the queue is empty now
    obtain ⟨as, bs, rfl⟩ := List.append_of_mem hd
    have hnd := h.semds_nodup
    have hna : d ∉ as := fun hm => by
      have := (List.nodup_append.mp (List.nodup_append.mp hnd).1).2.2 d hm d List.mem_cons_self
      exact this rfl
    have hnb : d ∉ bs := (List.nodup_cons.mp (List.nodup_append.mp (List.nodup_append.mp hnd).1).2.1).1
    have hempty : listEmpty l₁ (.sProcQ d) = true := by
      have hnil := Function.update_self (Node.sProcQ d) (some (((q.waiting (pool.sKey d)).erase p).map .pNext))
        (q.rings (as ++ d :: bs) sf pool.sKey)
      rw [listEmpty_eq R₁ hnil, he]
      rfl
    have hasl : Function.update (q.rings (as ++ d :: bs) sf pool.sKey) (.sProcQ d)
        (some (((q.waiting (pool.sKey d)).erase p).map .pNext)) .asl =
        some (as.map .sNext ++ .sNext d :: bs.map .sNext) := by
      simp [Queues.rings]
    obtain ⟨l₂, hl₂, hcut, R₂⟩ := listDel_ring R₁ hasl
    have hx : Function.update (q.rings (as ++ d :: bs) sf pool.sKey) (.sProcQ d)
        (some (((q.waiting (pool.sKey d)).erase p).map .pNext)) (.sNext d) = none := rfl
    have hfree : Function.update (Function.update (q.rings (as ++ d :: bs) sf pool.sKey) (.sProcQ d)
        (some (((q.waiting (pool.sKey d)).erase p).map .pNext))) .asl
        (some (as.map .sNext ++ bs.map .sNext)) .semdFree = some (sf.map .sNext) := rfl
    obtain ⟨l₃, hl₃, hsp, R₃⟩ := listAdd_ring R₂ hfree (R₁.fresh_of_cut hasl hx)
    have hwait : ∀ e ∈ as ++ bs, pool.sKey e ≠ pool.sKey d := by
      intro e hm hk
      have hm' : e ∈ as ++ d :: bs := by
        rcases List.mem_append.mp hm with hm | hm
        · exact List.mem_append_left _ hm
        · exact List.mem_append_right _ (List.mem_cons_of_mem _ hm)
      have := List.inj_on_of_nodup_map h.keys hm' hd hk
      subst this
      exact (List.mem_append.mp hm).elim hna hnb
    refine ⟨l₁, l₃, as ++ bs, d :: sf, hl₁, ?_,
      { toFields := h.fields_unblock _ p
        rings := ?_
        semds := ?_
        keys := ?_
        active := fun k => ?_ }, ?_,
      ((List.sublist_cons_self d bs).append_left as), List.suffix_cons d sf⟩
    · unfold aslReleaseIfEmpty
      rw [bind_ret (rfl : Exec.read _ = .ret { pool with links := l₁ } { pool with links := l₁ })]
      simp only [hempty, Exec.guarded, if_true]
      rw [bind_ret (onLinks_ret hl₂)]
      exact onLinks_ret hl₃
    · refine R₃.mono fun n xs hn => ?_
      cases n with
      | sProcQ e =>
        by_cases hed : e = d
        · subst hed
          simp only [Queues.rings, List.mem_append, hna, hnb, or_self, if_false, List.mem_cons_self, if_true] at hn
          simp [he, hn]
        · by_cases hem : e ∈ as ++ bs
          · have hem' : e ∈ as ∨ e ∈ bs := List.mem_append.mp hem
            have hem'' : e ∈ as ∨ e = d ∨ e ∈ bs := hem'.imp_right Or.inr
            simpa [Queues.rings, Queues.unblock, Queues.setWaiting, hed, hem', hem'', hwait e hem] using hn
          · have hem' : ¬ (e ∈ as ∨ e ∈ bs) := fun hc => hem (List.mem_append.mpr hc)
            have hem'' : ¬ (e ∈ as ∨ e = d ∨ e ∈ bs) := by tauto
            simpa [Queues.rings, hed, hem', hem''] using hn
      | pNext r => cases hn
      | pSib r => cases hn
      | sNext r => cases hn
      | _ => simpa [Queues.rings, Queues.unblock, Queues.setWaiting] using hn
    · refine List.Perm.trans ?_ h.semds
      calc (as ++ bs) ++ d :: sf
          _ |>.Perm (d :: (as ++ bs ++ sf)) := List.perm_middle
          _ |>.Perm (d :: (as ++ bs) ++ sf) := List.Perm.refl _
          _ |>.Perm ((as ++ d :: bs) ++ sf) := List.Perm.append_right sf List.perm_middle.symm
    · have := h.keys
      rw [List.map_append, List.map_cons, List.nodup_middle, List.nodup_cons] at this
      simpa [List.map_append] using this.2
    · by_cases hk : k = pool.sKey d
      · subst hk
        simp only [Queues.unblock, Queues.setWaiting, Function.update_self, he, ne_eq, not_true_eq_false,
          false_iff, List.mem_map, not_exists, not_and]
        exact hwait
      · simp only [Queues.unblock, Queues.setWaiting, Function.update_of_ne hk]
        rw [h.active k]
        simp only [List.map_append, List.map_cons, List.mem_append, List.mem_cons, hk, false_or]
    · refine SibFrame.trans hsib₁ (fun c => ?_)
      rw [hsp, Links.next_splice, if_neg (by simp), if_neg (by simp), hcut]
      exact l₁.next_cut_of_not_mem (by simp)
  · have hempty : listEmpty l₁ (.sProcQ d) = false := by
      rw [listEmpty_eq R₁ (Function.update_self _ _ _)]
      simpa using he
    refine ⟨l₁, l₁, asl, sf, hl₁, ?_,
      { toFields := h.fields_unblock _ p
        rings := by
          rw [rings_waiting q asl sf pool.sKey hd h.keys] at R₁
          exact R₁
        semds := h.semds
        keys := h.keys
        active := fun k => ?_ }, hsib₁, .refl asl sf⟩
    · unfold aslReleaseIfEmpty
      rw [bind_ret (rfl : Exec.read _ = .ret { pool with links := l₁ } { pool with links := l₁ })]
      simp only [hempty, Exec.guarded]
      rfl
    · by_cases hk : k = pool.sKey d
      · subst hk
        simp only [Queues.unblock, Queues.setWaiting, Function.update_self]
        exact ⟨fun _ => List.mem_map_of_mem hd, fun _ => he⟩
      · simpa only [Queues.unblock, Queues.setWaiting, Function.update_of_ne hk] using h.active k

/-- `asl_blocked_head`. -/
theorem aslBlockedHead_eq (key : Key) : aslBlockedHead key pool = .ret (q.waiting key).head? pool := by
  unfold aslBlockedHead
  by_cases hk : q.waiting key = []
  · rw [bind_ret (h.aslSemd_none hk), hk]
    rfl
  · obtain ⟨d, hd, rfl, hrun⟩ := h.aslSemd_some hk
    rw [bind_ret hrun]
    change (Exec.read >>= _) pool = _
    rw [bind_ret (rfl : Exec.read pool = .ret pool pool), listNext_eq h.rings (ring_asl hd)]
    cases hw : q.waiting (pool.sKey d) with
    | nil => exact absurd hw hk
    | cons p xs => rfl

theorem aslRemoveBlocked_nil {key : Key} (hk : q.waiting key = []) :
    aslRemoveBlocked key pool = .ret none pool := by
  unfold aslRemoveBlocked
  rw [bind_ret (h.aslSemd_none hk)]
  rfl

/-- `asl_remove_blocked` takes the first waiter. -/
theorem aslRemoveBlocked_cons {key : Key} {p : Pid} {xs : List Pid} (hk : q.waiting key = p :: xs) :
    ∃ l asl' sf', aslRemoveBlocked key pool = .ret (some p) { pool with
        links := l, pcbs := Function.update pool.pcbs p { pool.pcbs p with pSemkey := 0 } } ∧
      RepAt { pool with
        links := l, pcbs := Function.update pool.pcbs p { pool.pcbs p with pSemkey := 0 } }
        (q.setWaiting key xs) asl' sf' := by
  obtain ⟨d, hd, rfl, hrun⟩ := h.aslSemd_some (by rw [hk]; simp)
  have hp : p ∈ q.waiting (pool.sKey d) := by rw [hk]; exact List.mem_cons_self
  obtain ⟨l₁, l, asl', sf', hl₁, hrel, h', -, -⟩ := h.unlink_waiting hd hp
  have hq : q.unblock (pool.sKey d) p = q.setWaiting (pool.sKey d) xs := by
    simp [Queues.unblock, hk]
  rw [hq] at h'
  refine ⟨l, asl', sf', ?_, { h' with
    semkey := fun k r hr => ?_
    parent := fun r c => ?_
    freeParent := fun r hr => ?_ }⟩
  · unfold aslRemoveBlocked
    rw [bind_ret hrun]
    change (Exec.read >>= _) pool = _
    rw [bind_ret (rfl : Exec.read pool = .ret pool pool), listNext_eq h.rings (ring_asl hd), hk]
    change (PM.onLinks (fun l => listDel l (.pNext p)) >>= _) pool = _
    rw [bind_ret hl₁]
    rw [bind_ret hrel]
    rfl
  · have hne : r ≠ p := by
      rintro rfl
      have hnd := h.waiting_nodup (pool.sKey d)
      rw [hk] at hnd
      by_cases hke : k = pool.sKey d
      · subst hke
        simp only [Queues.setWaiting, Function.update_self] at hr
        exact (List.nodup_cons.mp hnd).1 hr
      · simp only [Queues.setWaiting, Function.update_of_ne hke] at hr
        exact hke (h.waiting_unique hr hp)
    simpa [hne] using h'.semkey k r hr
  · rw [h'.parent r c]
    by_cases he : c = p
    · subst he; simp
    · simp [he]
  · by_cases he : r = p
    · subst he; simpa using h'.freeParent r hr
    · simpa [he] using h'.freeParent r hr

/-- `asl_find_and_remove_blocked` of a PCB that is not in the queue of its `p_semkey`. -/
theorem aslFindAndRemoveBlocked_not_mem {p : Pid} (hp : p ∉ q.waiting (pool.pcbs p).pSemkey) :
    aslFindAndRemoveBlocked p pool = .ret none pool := by
  unfold aslFindAndRemoveBlocked
  rw [bind_ret (rfl : Exec.read pool = .ret pool pool)]
  by_cases hk : q.waiting (pool.pcbs p).pSemkey = []
  · rw [bind_ret (h.aslSemd_none hk)]
    rfl
  · obtain ⟨d, hd, hdk, hrun⟩ := h.aslSemd_some hk
    rw [← hdk] at hp
    rw [bind_ret hrun]
    change (listSearch (.sProcQ d) (isEntry p) >>= _) pool = _
    rw [bind_ret (listSearch_isEntry h.rings p (ring_asl hd) (h.waiting_short _)), if_neg hp]
    rfl

/-- `asl_find_and_remove_blocked` of a waiter. -/
theorem aslFindAndRemoveBlocked_mem {p : Pid} (hp : p ∈ q.waiting (pool.pcbs p).pSemkey) :
    ∃ l asl' sf', aslFindAndRemoveBlocked p pool = .ret (some p) { pool with links := l } ∧
      RepAt { pool with links := l } (q.unblock (pool.pcbs p).pSemkey p) asl' sf' ∧
      SibFrame pool.links l ∧ Recycles asl sf asl' sf' := by
  obtain ⟨d, hd, hdk, hrun⟩ := h.aslSemd_some (List.ne_nil_of_mem hp)
  rw [← hdk] at hp hrun ⊢
  obtain ⟨l₁, l, asl', sf', hl₁, hrel, h', hsib, hrec⟩ := h.unlink_waiting hd hp
  refine ⟨l, asl', sf', ?_, h', hsib, hrec⟩
  unfold aslFindAndRemoveBlocked
  rw [bind_ret (rfl : Exec.read pool = .ret pool pool), ← hdk, bind_ret hrun]
  change (listSearch (.sProcQ d) (isEntry p) >>= _) pool = _
  rw [bind_ret (listSearch_isEntry h.rings p (ring_asl hd) (h.waiting_short _)), if_pos hp]
  change (PM.onLinks (fun l => listDel l (.pNext p)) >>= _) pool = _
  rw [bind_ret hl₁]
  rw [bind_ret hrel]
  rfl

end RepAt
end Bikaya.Refine
