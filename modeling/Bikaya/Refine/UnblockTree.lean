import Bikaya.Refine.KillTree

/-!
# `asl_find_and_remove_blocked_child`

The walk goes below a PCB only when its `p_semkey` is the key of an active semaphore. `Unblocks` : a call took the
PCBs `ps` from their waiting lists, all of them below its argument. It took every waiter below exactly when the
walk was `Open` : whoever has a waiter below it has in `p_semkey` a semaphore with a waiter that the walk has not
taken before it comes there (`aslFindAndRemoveBlockedChild_spec`).
-/

namespace Bikaya.Refine
open Bikaya.Lib Bikaya.Model Bikaya.Spec

variable {T : Target}

/-- `w` is below a sibling older than `a`, or older than an ancestor of `a` below `p`. -/
def Before (q : Queues) (p a w : Pid) : Prop :=
  ∃ par cs c c', Desc q.Child p par ∧ q.kids par = some cs ∧ [c, c'].Sublist cs ∧ Desc q.Child c' a ∧ Desc q.Child c w

/-- Below `p` the walk is not cut off from a waiter. -/
def Open (q : Queues) (key : Pid → Key) (p : Pid) : Prop :=
  ∀ a, Desc q.Child p a → (∃ d, Desc q.Child a d ∧ q.Waits d) → ∃ w ∈ q.waiting (key a), ¬ Before q p a w

/-- The same for the children `cs` of one PCB, walked in their order. -/
def OpenBelow (q : Queues) (key : Pid → Key) (cs : List Pid) : Prop :=
  ∀ c ∈ cs, ∀ a, Desc q.Child c a → (∃ d, Desc q.Child a d ∧ q.Waits d) →
    ∃ w ∈ q.waiting (key a), ¬ Before q c a w ∧ ∀ c₀, [c₀, c].Sublist cs → ¬ Desc q.Child c₀ w

/-! ## Taking PCBs from the waiting lists -/

section
variable {q : Queues} {ps ps' : List Pid} {d : Pid}

theorem unblockAll_nil (q : Queues) : q.unblockAll [] = q := by
  simp [Queues.unblockAll]

theorem unblockAll_append (q : Queues) (ps ps' : List Pid) :
    (q.unblockAll ps).unblockAll ps' = q.unblockAll (ps ++ ps') := by
  unfold Queues.unblockAll
  congr 1
  funext k
  rw [List.filter_filter]
  refine List.filter_congr fun r _ => ?_
  by_cases hr : r ∈ ps <;> simp [hr]

theorem mem_unblockAll {k : Key} : d ∈ (q.unblockAll ps).waiting k ↔ d ∈ q.waiting k ∧ d ∉ ps := by
  unfold Queues.unblockAll
  rw [List.mem_filter, decide_eq_true_eq]

theorem waits_unblockAll : (q.unblockAll ps).Waits d ↔ q.Waits d ∧ d ∉ ps := by
  unfold Queues.Waits
  simp only [mem_unblockAll]
  exact ⟨fun ⟨k, hk, hd⟩ => ⟨⟨k, hk⟩, hd⟩, fun ⟨⟨k, hk⟩, hd⟩ => ⟨k, hk, hd⟩⟩

/-- Taking one more, as `asl_find_and_remove_blocked` does. -/
theorem unblockAll_erase (hnd : ∀ k, ((q.unblockAll ps).waiting k).Nodup) (p : Pid) :
    ({ q.unblockAll ps with waiting := fun k => ((q.unblockAll ps).waiting k).erase p } : Queues) =
      q.unblockAll (ps ++ [p]) := by
  have hw : (fun k => ((q.unblockAll ps).waiting k).erase p) =
      fun k => ((q.unblockAll ps).waiting k).filter fun r => decide (r ∉ [p]) := by
    funext k
    rw [(hnd k).erase_eq_filter]
    refine List.filter_congr fun r _ => ?_
    by_cases hr : r = p <;> simp [hr]
  rw [← unblockAll_append, hw]
  rfl

end

/-! ## What is passed on the way -/

section
variable {q : Queues} (hf : IsForest q.Child) {p c a : Pid} {cs : List Pid}
include hf

/-- Nothing is passed on the way to `p` itself. -/
theorem not_before_self (p w : Pid) : ¬ Before q p p w := by
  rintro ⟨par, cs, c, c', hd, hk, hsub, hc', -⟩
  have hchild : q.Child par c' := ⟨cs, hk, hsub.subset (List.mem_cons_of_mem _ List.mem_cons_self)⟩
  exact hf.not_desc hchild (hc'.trans hd)

/-- On the way to what is below a child of `p`, the older children are passed, and then what is passed below that
child. -/
theorem before_iff (hk : q.kids p = some cs) (hc : c ∈ cs) (ha : Desc q.Child c a) (w : Pid) :
    Before q p a w ↔ Before q c a w ∨ ∃ c₀, [c₀, c].Sublist cs ∧ Desc q.Child c₀ w := by
  have hchild : ∀ x ∈ cs, q.Child p x := fun x hx => ⟨cs, hk, hx⟩
  constructor
  · rintro ⟨par, ds, d, d', hd, hkd, hsub, hd', hw⟩
    have hpar : q.Child par d' := ⟨ds, hkd, hsub.subset (List.mem_cons_of_mem _ List.mem_cons_self)⟩
    rcases Relation.ReflTransGen.cases_head hd with rfl | ⟨e, ⟨es, hes, he⟩, hd⟩
    · -- an older sibling of the child itself
      rw [hk] at hkd
      cases hkd
      obtain rfl : d' = c := by
        by_contra hne
        exact hf.desc_disjoint (hchild c hc) hpar (Ne.symm hne) ha hd'
      exact Or.inr ⟨d, hsub, hw⟩
    · rw [hk] at hes
      cases hes
      obtain rfl : e = c := by
        by_contra hne
        exact hf.desc_disjoint (hchild c hc) (hchild e he) (Ne.symm hne) ha ((hd.tail hpar).trans hd')
      exact Or.inl ⟨par, ds, d, d', hd, hkd, hsub, hd', hw⟩
  · rintro (⟨par, ds, d, d', hd, hrest⟩ | ⟨c₀, hsub, hw⟩)
    · exact ⟨par, ds, d, d', Relation.ReflTransGen.head (hchild c hc) hd, hrest⟩
    · exact ⟨p, cs, c₀, c, Relation.ReflTransGen.refl, hk, hsub, ha, hw⟩

/-- A walk is open when it is at its start and then below each child. -/
theorem open_iff {key : Pid → Key} (hk : q.kids p = some cs) (hp : q.waiting (key p) ≠ []) :
    Open q key p ↔ OpenBelow q key cs := by
  have hchild : ∀ x ∈ cs, q.Child p x := fun x hx => ⟨cs, hk, hx⟩
  constructor
  · intro h c hc a ha hd
    obtain ⟨w, hw, hnot⟩ := h a (Relation.ReflTransGen.head (hchild c hc) ha) hd
    rw [before_iff hf hk hc ha, not_or] at hnot
    exact ⟨w, hw, hnot.1, fun c₀ hsub hw => hnot.2 ⟨c₀, hsub, hw⟩⟩
  · intro h a ha hd
    rcases Relation.ReflTransGen.cases_head ha with rfl | ⟨c, ⟨cs', hcs', hc⟩, ha⟩
    · obtain ⟨w, hw⟩ := List.exists_mem_of_ne_nil _ hp
      exact ⟨w, hw, not_before_self hf p w⟩
    · rw [hk] at hcs'
      cases hcs'
      obtain ⟨w, hw, hnot, hold⟩ := h c hc a ha hd
      refine ⟨w, hw, ?_⟩
      rw [before_iff hf hk hc ha]
      rintro (hb | ⟨c₀, hsub, hw⟩)
      · exact hnot hb
      · exact hold c₀ hsub hw

/-- The eldest child has been walked, and the PCBs `ps` below it, all that wait, are taken. -/
theorem openBelow_cons {key : Pid → Key} {rest ps : List Pid} (hchild : ∀ x ∈ c :: rest, q.Child p x)
    (hnd : (c :: rest).Nodup) (hps : ∀ r ∈ ps, Desc q.Child c r)
    (hall : ∀ d, Desc q.Child c d → q.Waits d → d ∈ ps) :
    OpenBelow q key (c :: rest) ↔ Open q key c ∧ OpenBelow (q.unblockAll ps) key rest := by
  have hc := hchild c List.mem_cons_self
  obtain ⟨hcr, -⟩ := List.nodup_cons.mp hnd
  have hrest : ∀ x ∈ rest, ∀ d, Desc q.Child x d → d ∉ ps := by
    intro x hx d hd hm
    have hxc : c ≠ x := fun e => hcr (e ▸ hx)
    exact hf.desc_disjoint hc (hchild x (List.mem_cons_of_mem _ hx)) hxc (hps d hm) hd
  have hwaits : ∀ x ∈ rest, ∀ a, Desc q.Child x a →
      ((∃ d, Desc q.Child a d ∧ (q.unblockAll ps).Waits d) ↔ ∃ d, Desc q.Child a d ∧ q.Waits d) := by
    intro x hx a ha
    refine exists_congr fun d => and_congr_right fun hd => ?_
    rw [waits_unblockAll]
    exact and_iff_left (hrest x hx d (ha.trans hd))
  have hold : ∀ x ∈ rest, ∀ w k, w ∈ q.waiting k →
      ((∀ c₀, [c₀, x].Sublist (c :: rest) → ¬ Desc q.Child c₀ w) ↔
        w ∉ ps ∧ ∀ c₀, [c₀, x].Sublist rest → ¬ Desc q.Child c₀ w) := by
    intro x hx w k hw
    constructor
    · intro h
      refine ⟨fun hm => h c ?_ (hps w hm), fun c₀ hsub => h c₀ (hsub.cons c)⟩
      exact (List.singleton_sublist.mpr hx).cons_cons c
    · rintro ⟨hm, h⟩ c₀ hsub hd
      cases hsub with
      | cons _ hsub => exact h c₀ hsub hd
      | cons_cons _ _ => exact hm (hall w hd ⟨k, hw⟩)
  constructor
  · intro h
    refine ⟨fun a ha hd => ?_, fun x hx a ha hd => ?_⟩
    · obtain ⟨w, hw, hnot, -⟩ := h c List.mem_cons_self a ha hd
      exact ⟨w, hw, hnot⟩
    · obtain ⟨w, hw, hnot, hw'⟩ := h x (List.mem_cons_of_mem _ hx) a ha ((hwaits x hx a ha).mp hd)
      obtain ⟨hm, hw'⟩ := (hold x hx w _ hw).mp hw'
      exact ⟨w, mem_unblockAll.mpr ⟨hw, hm⟩, hnot, hw'⟩
  · rintro ⟨hopen, h⟩ x hx a ha hd
    rcases List.mem_cons.mp hx with rfl | hx
    · obtain ⟨w, hw, hnot⟩ := hopen a ha hd
      refine ⟨w, hw, hnot, fun c₀ hsub => ?_⟩
      have hmem : x ∈ rest := by
        cases hsub with
        | cons _ hsub => exact hsub.subset (List.mem_cons_of_mem _ List.mem_cons_self)
        | cons_cons _ hsub => exact hsub.subset List.mem_cons_self
      exact absurd hmem hcr
    · obtain ⟨w, hw, hnot, hw'⟩ := h x hx a ha ((hwaits x hx a ha).mpr hd)
      obtain ⟨hw, hm⟩ := mem_unblockAll.mp hw
      exact ⟨w, hw, hnot, (hold x hx w _ hw).mpr ⟨hm, hw'⟩⟩

end

/-! ## The walk -/

/-- A call took the PCBs `ps` from their waiting lists. -/
structure Unblocks (pool : Pool T) (q : Queues) (asl sf : List Nat) (ps : List Pid) (l : Links Node)
    (asl' sf' : List Nat) : Prop where
  rep : RepAt { pool with links := l } (q.unblockAll ps) asl' sf'
  sib : SibFrame pool.links l
  recycles : Recycles asl sf asl' sf'

theorem Recycles.trans {asl sf asl' sf' asl'' sf'' : List Nat} (h : Recycles asl sf asl' sf')
    (h' : Recycles asl' sf' asl'' sf'') : Recycles asl sf asl'' sf'' := ⟨h'.1.trans h.1, h.2.trans h'.2⟩

theorem Unblocks.refl {pool : Pool T} {q : Queues} {asl sf : List Nat} (h : RepAt pool q asl sf) :
    Unblocks pool q asl sf [] pool.links asl sf where
  rep := by rw [unblockAll_nil]; exact h
  sib _ := rfl
  recycles := .refl asl sf

theorem Unblocks.trans {pool : Pool T} {q : Queues} {asl sf asl' sf' asl'' sf'' : List Nat} {ps ps' : List Pid}
    {l l' : Links Node} (h : Unblocks pool q asl sf ps l asl' sf')
    (h' : Unblocks { pool with links := l } (q.unblockAll ps) asl' sf' ps' l' asl'' sf'') :
    Unblocks pool q asl sf (ps ++ ps') l' asl'' sf'' where
  rep := by rw [← unblockAll_append]; exact h'.rep
  sib := h.sib.trans h'.sib
  recycles := h.recycles.trans h'.recycles

/-- `unblock` behaves like `asl_find_and_remove_blocked_child` on PCBs of some height. -/
def UnblockSpec (n : Nat) (unblock : Pid → PM T Unit) : Prop :=
  ∀ {pool : Pool T} {q : Queues} {asl sf : List Nat} {p : Pid}, RepAt pool q asl sf → IsForest q.Child →
    (∀ a b, q.Child a b → ∃ cs, q.kids b = some cs) → (∃ cs, q.kids p = some cs) → Height q.Child n p →
    ∃ ps l asl' sf', unblock p pool = .ret () { pool with links := l } ∧ Unblocks pool q asl sf ps l asl' sf' ∧
      (∀ r ∈ ps, Desc q.Child p r) ∧
      ((∀ d, Desc q.Child p d → q.Waits d → d ∈ ps) ↔ Open q (fun r => (pool.pcbs r).pSemkey) p)

/-- The loop over the children. -/
theorem unblockChildren_run {n : Nat} {unblock : Pid → PM T Unit} (hunblock : UnblockSpec n unblock) {p : Pid} :
    ∀ (cs : List Pid) {as : List Pid} {fuel : Nat} {pool : Pool T} {q : Queues} {asl sf : List Nat},
      RepAt pool q asl sf → IsForest q.Child → (∀ a b, q.Child a b → ∃ cs, q.kids b = some cs) →
      q.kids p = some (as ++ cs) → cs.length < fuel → (∀ c ∈ cs, Height q.Child n c) →
      ∃ ps l asl' sf', unblockChildren unblock (.pChild p) fuel (some (firstOf (cs.map .pSib) (.pChild p))) pool =
          .ret () { pool with links := l } ∧ Unblocks pool q asl sf ps l asl' sf' ∧
        (∀ r ∈ ps, ∃ c ∈ cs, Desc q.Child c r) ∧
        ((∀ c ∈ cs, ∀ d, Desc q.Child c d → q.Waits d → d ∈ ps) ↔
          OpenBelow q (fun r => (pool.pcbs r).pSemkey) cs) := by
  intro cs
  induction cs with
  | nil =>
    intro as fuel pool q asl sf h _ _ _ hlen _
    obtain ⟨f, rfl⟩ := Nat.exists_eq_add_one_of_ne_zero (Nat.ne_of_gt (Nat.lt_of_le_of_lt (Nat.zero_le _) hlen))
    refine ⟨[], pool.links, asl, sf, ?_, .refl h, fun r hr => (List.not_mem_nil hr).elim, ?_⟩
    · simp only [List.map_nil, firstOf_nil, unblockChildren, if_true]
      rfl
    · exact ⟨fun _ c hc => (List.not_mem_nil hc).elim, fun _ c hc => (List.not_mem_nil hc).elim⟩
  | cons c rest ih =>
    intro as fuel pool q asl sf h hf halive hk hlen hheight
    obtain ⟨f, rfl⟩ := Nat.exists_eq_add_one_of_ne_zero (Nat.ne_of_gt (Nat.lt_of_le_of_lt (Nat.zero_le _) hlen))
    have hchild : ∀ x ∈ c :: rest, q.Child p x := fun x hx => ⟨_, hk, List.mem_append_right _ hx⟩
    have hc := hchild c List.mem_cons_self
    have hnd := (List.nodup_append.mp (h.kids_nodup hk)).2.1
    obtain ⟨ps₁, l₁, asl₁, sf₁, hrun₁, hu₁, hsub₁, hall₁⟩ :=
      hunblock h hf halive (halive p c hc) (hheight c List.mem_cons_self)
    -- the loop goes on in the lists without `ps₁`; the tree is the same
    have hk₁ : (q.unblockAll ps₁).kids p = some ((as ++ [c]) ++ rest) := by
      rw [List.append_assoc]
      exact hk
    have hlen₁ : rest.length < f := by
      rw [List.length_cons] at hlen
      omega
    obtain ⟨ps₂, l₂, asl₂, sf₂, hrun₂, hu₂, hsub₂, hall₂⟩ := ih hu₁.rep hf halive hk₁ hlen₁
      fun x hx => hheight x (List.mem_cons_of_mem _ hx)
    have hdisj : ∀ x ∈ rest, ∀ d, Desc q.Child x d → ¬ Desc q.Child c d := by
      intro x hx d hd hcd
      have hne : c ≠ x := fun e => (List.nodup_cons.mp hnd).1 (e ▸ hx)
      exact hf.desc_disjoint hc (hchild x (List.mem_cons_of_mem _ hx)) hne hcd hd
    refine ⟨ps₁ ++ ps₂, l₂, asl₂, sf₂, ?_, hu₁.trans hu₂, fun r hr => ?_, ?_⟩
    · have hpos : (Node.pSib c) ≠ .pChild p := by simp
      simp only [List.map_cons, firstOf_cons, unblockChildren, if_neg hpos]
      have hring : q.rings asl sf pool.sKey (.pChild p) = some (as.map .pSib ++ .pSib c :: rest.map .pSib) := by
        simp [Queues.rings, hk]
      have hnext : l₁.next (.pSib c) = some (firstOf (rest.map .pSib) (.pChild p)) :=
        (hu₁.sib c).trans (h.rings.seg hring).neighbours.2
      change (unblock c >>= _) pool = _
      rw [bind_ret hrun₁]
      change unblockChildren unblock (.pChild p) f (l₁.next (.pSib c)) { pool with links := l₁ } = _
      rw [hnext]
      exact hrun₂
    · rcases List.mem_append.mp hr with hr | hr
      · exact ⟨c, List.mem_cons_self, hsub₁ r hr⟩
      · obtain ⟨x, hx, hd⟩ := hsub₂ r hr
        exact ⟨x, List.mem_cons_of_mem _ hx, hd⟩
    · -- of what is below `c` all is in `ps₁`, of what is below the others in `ps₂`
      have hsplit : (∀ x ∈ c :: rest, ∀ d, Desc q.Child x d → q.Waits d → d ∈ ps₁ ++ ps₂) ↔
          (∀ d, Desc q.Child c d → q.Waits d → d ∈ ps₁) ∧
          ∀ x ∈ rest, ∀ d, Desc (q.unblockAll ps₁).Child x d → (q.unblockAll ps₁).Waits d → d ∈ ps₂ := by
        constructor
        · intro hall
          refine ⟨fun d hd hw => ?_, fun x hx d hd hw => ?_⟩
          · rcases List.mem_append.mp (hall c List.mem_cons_self d hd hw) with hm | hm
            · exact hm
            · obtain ⟨x, hx, hxd⟩ := hsub₂ d hm
              exact absurd hd (hdisj x hx d hxd)
          · obtain ⟨hw, hnot⟩ := waits_unblockAll.mp hw
            exact (List.mem_append.mp (hall x (List.mem_cons_of_mem _ hx) d hd hw)).resolve_left hnot
        · rintro ⟨hall, hrest⟩ x hx d hd hw
          rcases List.mem_cons.mp hx with rfl | hx
          · exact List.mem_append_left _ (hall d hd hw)
          · by_cases hm : d ∈ ps₁
            · exact List.mem_append_left _ hm
            · exact List.mem_append_right _ (hrest x hx d hd (waits_unblockAll.mpr ⟨hw, hm⟩))
      rw [hsplit, hall₂]
      constructor
      · rintro ⟨hall, hopen⟩
        exact (openBelow_cons hf hchild hnd hsub₁ hall).mpr ⟨hall₁.mp hall, hopen⟩
      · intro hopen
        have hopen₁ : Open q (fun r => (pool.pcbs r).pSemkey) c := by
          intro a ha hd
          obtain ⟨w, hw, hnot, -⟩ := hopen c List.mem_cons_self a ha hd
          exact ⟨w, hw, hnot⟩
        have hall := hall₁.mpr hopen₁
        exact ⟨hall, ((openBelow_cons hf hchild hnd hsub₁ hall).mp hopen).2⟩

/-- `asl_find_and_remove_blocked_child`. -/
theorem aslFindAndRemoveBlockedChild_spec : ∀ n : Nat, UnblockSpec n (aslFindAndRemoveBlockedChild (T := T) n) := by
  intro n
  induction n with
  | zero => exact fun _ _ _ _ hh => hh.elim
  | succ n ih =>
    intro pool q asl sf p h hf halive hcs hheight
    obtain ⟨cs, hk⟩ := hcs
    have hchild : ∀ x ∈ cs, q.Child p x := fun x hx => ⟨_, hk, hx⟩
    by_cases hp : q.waiting (pool.pcbs p).pSemkey = []
    · -- the walk ends here
      refine ⟨[], pool.links, asl, sf, ?_, .refl h, fun r hr => (List.not_mem_nil hr).elim, ?_⟩
      · unfold aslFindAndRemoveBlockedChild
        rw [bind_ret (rfl : Exec.read pool = .ret pool pool), bind_ret (h.aslSemd_none hp)]
        rfl
      · constructor
        · intro hall a ha hd
          obtain ⟨d, hd, hw⟩ := hd
          exact (List.not_mem_nil (hall d (ha.trans hd) hw)).elim
        · intro hopen d hd hw
          obtain ⟨w, hw, -⟩ := hopen p Relation.ReflTransGen.refl ⟨d, hd, hw⟩
          rw [hp] at hw
          cases hw
    · obtain ⟨d₀, -, -, hsemd⟩ := h.aslSemd_some hp
      obtain ⟨ps, l₁, asl₁, sf₁, hrun₁, hu₁, hsub₁, hall₁⟩ := unblockChildren_run ih cs h hf halive
        (show q.kids p = some ([] ++ cs) from hk) (h.kids_short hk) fun c hc => hheight c (hchild c hc)
      obtain ⟨l₂, r, asl₂, sf₂, hrun₂, hrep₂, hsib₂, hrec₂⟩ := hu₁.rep.unwait p
      rw [unblockAll_erase hu₁.rep.waiting_nodup] at hrep₂
      refine ⟨ps ++ [p], l₂, asl₂, sf₂, ?_, ⟨hrep₂, hu₁.sib.trans hsib₂, hu₁.recycles.trans hrec₂⟩, fun r hr => ?_, ?_⟩
      · have hstart : pool.links.next (.pChild p) = some (firstOf (cs.map .pSib) (.pChild p)) :=
          h.rings.next_head (by simp [Queues.rings, hk])
        unfold aslFindAndRemoveBlockedChild
        rw [bind_ret (rfl : Exec.read pool = .ret pool pool), bind_ret hsemd]
        change (unblockChildren _ (.pChild p) walkFuel (pool.links.next (.pChild p)) >>= _) pool = _
        rw [hstart, bind_ret hrun₁, bind_ret hrun₂]
        rfl
      · rcases List.mem_append.mp hr with hr | hr
        · obtain ⟨c, hc, hd⟩ := hsub₁ r hr
          exact Relation.ReflTransGen.head (hchild c hc) hd
        · rw [List.mem_singleton] at hr
          exact hr ▸ Relation.ReflTransGen.refl
      · rw [open_iff hf hk hp, ← hall₁]
        constructor
        · intro hall c hc d hd hw
          have hne : d ≠ p := by
            rintro rfl
            exact hf.not_desc (hchild c hc) hd
          have hm := hall d (Relation.ReflTransGen.head (hchild c hc) hd) hw
          rw [List.mem_append, List.mem_singleton] at hm
          exact hm.resolve_right hne
        · intro hall d hd hw
          rcases Relation.ReflTransGen.cases_head hd with rfl | ⟨c, ⟨cs', hcs', hc⟩, hd⟩
          · exact List.mem_append_right _ (List.mem_singleton.mpr rfl)
          · rw [hk] at hcs'
            cases hcs'
            exact List.mem_append_left _ (hall c hc d hd hw)

end Bikaya.Refine
