import Bikaya.Refine.State

/-!
# `kill_tree`

`bury_run` : what happens to one process. `Buries s q ps s' q'` : the processes `ps` are buried one after
another. `killTree_run` : from a sound state `kill_tree` buries exactly the descendants of its argument,
children first. The loop goes on from the `p_sib.next` of a child that was already freed; `Rep` gives that
field its value just before the child is buried, and burying does not write it.
-/

namespace Bikaya.Refine
open Bikaya.Lib Bikaya.Model Bikaya.Spec

variable {T : Target}

namespace Rep
variable {pool : Pool T} {q : Queues}

theorem apart (h : Rep pool q) : Apart q := by
  obtain ⟨asl, sf, h⟩ := h
  exact ⟨h.free_nodup, h.ready_nodup, h.waiting_nodup, h.ready_not_free, h.waiting_not_free,
    h.waiting_not_ready, h.waiting_unique⟩

theorem kids_nodup (h : Rep pool q) {p : Pid} {cs : List Pid} (hk : q.kids p = some cs) : cs.Nodup := by
  obtain ⟨asl, sf, h⟩ := h
  exact h.kids_nodup hk

theorem kids_short (h : Rep pool q) {p : Pid} {cs : List Pid} (hk : q.kids p = some cs) :
    cs.length < walkFuel := by
  obtain ⟨asl, sf, h⟩ := h
  exact h.kids_short hk

theorem parent_iff (h : Rep pool q) (p c : Pid) : q.Child p c ↔ (pool.pcbs c).pParent = some p := by
  obtain ⟨asl, sf, h⟩ := h
  exact h.parent p c

/-- The links of a list of children. -/
theorem kids_seg (h : Rep pool q) {p : Pid} {cs : List Pid} (hk : q.kids p = some cs) :
    pool.links.Seg (.pChild p) (cs.map .pSib) (.pChild p) := by
  obtain ⟨asl, sf, h⟩ := h
  exact h.rings.seg (by simp only [Queues.rings, hk]; rfl)

end Rep

namespace RepAt
variable {pool : Pool T} {q : Queues} {asl sf : List Nat} (h : RepAt pool q asl sf)
include h

/-- `pcb_find_and_remove_child`, whether there is a parent or not. -/
theorem detach (p : Pid) :
    ∃ l r, pcbFindAndRemoveChild p pool = .ret r { pool with
        links := l, pcbs := Function.update pool.pcbs p { pool.pcbs p with pParent := none } } ∧
      RepAt { pool with
        links := l, pcbs := Function.update pool.pcbs p { pool.pcbs p with pParent := none } }
        { q with kids := fun r => (q.kids r).map (·.erase p) } asl sf ∧
      l.next (.pSib p) = pool.links.next (.pSib p) := by
  have herase : ∀ r cs, q.kids r = some cs → ¬ q.Child r p → cs.erase p = cs := fun r cs hcs hr =>
    List.erase_of_not_mem fun hm => hr ⟨cs, hcs, hm⟩
  cases hpar : (pool.pcbs p).pParent with
  | none =>
    have hsame : ({ q with kids := fun r => (q.kids r).map (·.erase p) } : Queues) = q := by
      have hkids : (fun r => (q.kids r).map (·.erase p)) = q.kids := by
        funext r
        cases hcs : q.kids r with
        | none => rfl
        | some cs =>
          have hr : ¬ q.Child r p := by
            rw [h.parent, hpar]
            simp
          rw [Option.map_some, herase r cs hcs hr]
      rw [hkids]
    have hpcbs : Function.update pool.pcbs p { pool.pcbs p with pParent := none } = pool.pcbs := by
      rw [← hpar]
      exact Function.update_eq_self p pool.pcbs
    rw [hpcbs, hsame]
    exact ⟨pool.links, none, Rep.findAndRemoveChild_none hpar, h, rfl⟩
  | some parent =>
    have horphan : q.orphan parent p = { q with kids := fun r => (q.kids r).map (·.erase p) } := by
      have hkids : Function.update q.kids parent ((q.kids parent).map (·.erase p)) =
          fun r => (q.kids r).map (·.erase p) := by
        funext r
        by_cases hr : r = parent
        · subst hr
          rw [Function.update_self]
        · rw [Function.update_of_ne hr]
          cases hcs : q.kids r with
          | none => rfl
          | some cs =>
            have hc : ¬ q.Child r p := by
              rw [h.parent, hpar]
              exact fun he => hr (Option.some.inj he).symm
            rw [Option.map_some, herase r cs hcs hc]
      unfold Queues.orphan Queues.setKids
      rw [hkids]
    obtain ⟨l, hl, hrep, hsib, -⟩ := h.findAndRemoveChild_some hpar
    rw [horphan] at hrep
    exact ⟨l, some p, hl, hrep, hsib⟩

/-- `asl_find_and_remove_blocked`, whether the PCB waits or not. -/
theorem unwait (p : Pid) :
    ∃ l r asl' sf', aslFindAndRemoveBlocked p pool = .ret r { pool with links := l } ∧
      RepAt { pool with links := l } { q with waiting := fun k => (q.waiting k).erase p } asl' sf' ∧
      SibFrame pool.links l ∧ Recycles asl sf asl' sf' := by
  by_cases hp : p ∈ q.waiting (pool.pcbs p).pSemkey
  · obtain ⟨l, asl', sf', hl, hrep, hsib, hrec⟩ := h.aslFindAndRemoveBlocked_mem hp
    have hq : q.unblock (pool.pcbs p).pSemkey p = { q with waiting := fun k => (q.waiting k).erase p } := by
      have hw : Function.update q.waiting (pool.pcbs p).pSemkey ((q.waiting (pool.pcbs p).pSemkey).erase p) =
          fun k => (q.waiting k).erase p := by
        funext k
        by_cases hk : k = (pool.pcbs p).pSemkey
        · subst hk
          rw [Function.update_self]
        · rw [Function.update_of_ne hk, List.erase_of_not_mem fun hm => hk (h.waiting_unique hm hp)]
      unfold Queues.unblock Queues.setWaiting
      rw [hw]
    rw [hq] at hrep
    exact ⟨l, _, asl', sf', hl, hrep, hsib, hrec⟩
  · have hw : (fun k => (q.waiting k).erase p) = q.waiting := by
      funext k
      refine List.erase_of_not_mem fun hm => hp ?_
      rw [h.semkey k p hm]
      exact hm
    rw [hw]
    exact ⟨pool.links, none, asl, sf, h.aslFindAndRemoveBlocked_not_mem hp, h, fun _ => rfl, .refl asl sf⟩

end RepAt

/-! ## One process -/

/-- `p` is buried: what changes besides the lists. -/
structure Buried (pool : Pool T) (q : Queues) (p : Pid) (pool' : Pool T) : Prop where
  pcbs : pool'.pcbs = Function.update pool.pcbs p { pool.pcbs p with pParent := none }
  sKey : pool'.sKey = pool.sKey
  semds : ∃ asl sf asl' sf', RepAt pool q asl sf ∧ RepAt pool' (q.bury p) asl' sf' ∧ Recycles asl sf asl' sf'
  sib : pool'.links.next (.pSib p) = pool.links.next (.pSib p)

namespace Sound
variable {pool : Pool T} {q : Queues} {out : List Pid}

theorem not_free (h : Sound pool q out) {p : Pid} {cs : List Pid} (hk : q.kids p = some cs) : p ∉ q.free :=
  ((h.tree.alive p).mp ⟨cs, hk⟩).2

theorem lt_maxProc (h : Sound pool q out) {p : Pid} {cs : List Pid} (hk : q.kids p = some cs) : p < maxProc :=
  ((h.tree.alive p).mp ⟨cs, hk⟩).1

theorem bury (h : Sound pool q out) {pool' : Pool T} {p : Pid} (hs : p < maxProc) (hrep : Rep pool' (q.bury p)) :
    Sound pool' (q.bury p) (out.filter (fun r => decide (r ≠ p))) where
  rep := hrep
  placed :=
    { heads := h.placed.heads
      covered := fun r hr => by
        rw [queued_bury]
        by_cases he : r = p
        · exact Or.inl (Or.inr he)
        · refine (h.placed.covered r hr).imp Or.inl fun hr => ?_
          exact List.mem_filter.mpr ⟨hr, decide_eq_true he⟩
      small := fun r hr => ((queued_bury r).mp hr).elim (h.placed.small r) (fun he => he ▸ hs)
      outSmall := fun r hr => h.placed.outSmall r (List.mem_filter.mp hr).1
      outside := fun r hr hq => by
        have hne : r ≠ p := by simpa using (List.mem_filter.mp hr).2
        exact ((queued_bury r).mp hq).elim (h.placed.outside r (List.mem_filter.mp hr).1) hne }
  tree := h.tree.bury fun r cs hcs => h.rep.kids_nodup hcs

end Sound

/-- The last part of `kill_tree`, for a process without children. -/
theorem bury_run {s : KState T} {q : Queues} {out : List Pid} {p : Pid} (h : Sound s.m.pool q out)
    (hk : q.kids p = some []) :
    ∃ pool', bury p s = .ret () ((s.setPool pool').push (.bury p)) ∧ Buried s.m.pool q p pool' ∧
      Rep pool' (q.bury p) := by
  have hfree := h.not_free hk
  have hs := h.lt_maxProc hk
  have ha := h.rep.apart
  obtain ⟨asl, sf, hrep⟩ := h.rep
  obtain ⟨l₁, r₁, hrun₁, hrep₁, hsib₁⟩ := hrep.detach p
  obtain ⟨l₂, r₂, asl', sf', hrun₂, hrep₂, hsib₂, hrec⟩ := hrep₁.unwait p
  obtain ⟨l₃, r₃, hrun₃, hrep₃, hsib₃⟩ := hrep₂.findAndRemoveReady p
  have hq : ¬ ({ q with
      kids := fun r => (q.kids r).map (·.erase p)
      waiting := fun k => (q.waiting k).erase p
      ready := q.ready.erase p } : Queues).Queued p := by
    rintro (hm | hm | ⟨k, hm⟩ | ⟨n, xs, hn, -⟩)
    · exact hfree hm
    · exact ha.ready_nodup.not_mem_erase hm
    · exact (ha.waiting_nodup k).not_mem_erase hm
    · have hnone : q.heads n = none := h.placed.heads n
      rw [show q.heads n = some xs from hn] at hnone
      cases hnone
  obtain ⟨l₄, hrun₄, hrep₄, hsib₄⟩ := hrep₃.free hq (lt_trans hs maxProc_lt) (by simp [hk]) (by simp)
  have hbury : ({ q with
      kids := fun r => (q.kids r).map (·.erase p)
      waiting := fun k => (q.waiting k).erase p
      ready := q.ready.erase p } : Queues).release p = q.bury p := by
    have hkids : Function.update (fun r => (q.kids r).map (·.erase p)) p none =
        fun r => if r = p then none else (q.kids r).map (·.erase p) := by
      funext r
      by_cases hr : r = p
      · subst hr; simp
      · simp [hr]
    unfold Queues.release Queues.setKids Queues.bury
    rw [hkids]
  rw [hbury] at hrep₄
  let pcbs := Function.update s.m.pool.pcbs p { s.m.pool.pcbs p with pParent := none }
  refine ⟨{ s.m.pool with links := l₄, pcbs := pcbs }, ?_,
    ⟨rfl, rfl, ⟨asl, sf, asl', sf', hrep, hrep₄, hrec⟩, ?_⟩, asl', sf', hrep₄⟩
  · unfold Model.bury
    rw [bind_ret (pool_ret hrun₁), bind_ret (pool_ret (s := s.setPool _) hrun₂),
      bind_ret (pool_ret (s := (s.setPool _).setPool _) hrun₃),
      bind_ret (pool_ret (s := ((s.setPool _).setPool _).setPool _) hrun₄)]
    rfl
  · exact ((hsib₄ p).trans (hsib₃ p)).trans ((hsib₂ p).trans hsib₁)

/-! ## Many processes -/

/-- The processes of a list are buried one after another; `out` is who was in no list before. -/
inductive Buries : List Pid → KState T → Queues → List Pid → KState T → Queues → Prop where
  | nil (out : List Pid) (s : KState T) (q : Queues) : Buries out s q [] s q
  | cons {out : List Pid} {s s' : KState T} {q q' : Queues} {p : Pid} {ps : List Pid} {pool' : Pool T} :
      q.kids p = some [] → Buried s.m.pool q p pool' → Rep pool' (q.bury p) →
      Buries (out.filter (fun r => decide (r ≠ p))) ((s.setPool pool').push (.bury p)) (q.bury p) ps s' q' →
      Buries out s q (p :: ps) s' q'

/-- Who of `out` is not among `ps`. -/
abbrev without (out ps : List Pid) : List Pid := out.filter fun r => decide (r ∉ ps)

theorem without_cons (out : List Pid) (p : Pid) (ps : List Pid) :
    without (out.filter fun r => decide (r ≠ p)) ps = without out (p :: ps) := by
  unfold without
  rw [List.filter_filter]
  refine List.filter_congr fun r _ => ?_
  by_cases hr : r = p <;> simp [hr]

namespace Buries
variable {out : List Pid} {s s' s'' : KState T} {q q' q'' : Queues} {ps ps' : List Pid}

theorem append (h : Buries out s q ps s' q') : Buries (without out ps) s' q' ps' s'' q'' →
    Buries out s q (ps ++ ps') s'' q'' := by
  induction h with
  | nil out s q =>
    have he : without out [] = out := by simp [without]
    rw [he]
    exact id
  | cons h1 h2 h3 _ ih =>
    rw [without_cons] at ih
    exact fun h' => .cons h1 h2 h3 (ih h')

theorem sound (h : Buries out s q ps s' q') (hs : Sound s.m.pool q out) :
    Sound s'.m.pool q' (without out ps) := by
  induction h with
  | nil out s q =>
    have he : without out [] = out := by simp [without]
    rw [he]
    exact hs
  | cons h1 _ h3 _ ih =>
    rw [← without_cons]
    exact ih (hs.bury (hs.lt_maxProc h1) h3)

theorem child (h : Buries out s q ps s' q') (hs : Sound s.m.pool q out) (r c : Pid) :
    q'.Child r c ↔ q.Child r c ∧ r ∉ ps ∧ c ∉ ps := by
  induction h with
  | nil => simp
  | cons h1 _ h3 _ ih =>
    rw [ih (hs.bury (hs.lt_maxProc h1) h3), Tree.child_bury fun cs hcs => hs.rep.kids_nodup hcs]
    simp only [List.mem_cons]
    tauto

/-- The children lists of the others lose the buried ones. -/
theorem kids (h : Buries out s q ps s' q') (hs : Sound s.m.pool q out) {r : Pid} {cs : List Pid}
    (hk : q.kids r = some cs) (hr : r ∉ ps) : q'.kids r = some (cs.filter (fun c => decide (c ∉ ps))) := by
  induction h generalizing cs with
  | nil => simpa using hk
  | @cons out s s' q q' p ps pool' h1 _ h3 _ ih =>
    simp only [List.mem_cons, not_or] at hr
    have hk' : (q.bury p).kids r = some (cs.erase p) := by simp [Queues.bury, hr.1, hk]
    rw [ih (hs.bury (hs.lt_maxProc h1) h3) hk' hr.2, (hs.rep.kids_nodup hk).erase_eq_filter,
      List.filter_filter]
    congr 1
    refine List.filter_congr fun c _ => ?_
    by_cases hc : c = p <;> simp [hc]

/-- The descendants of a process none of whose descendants was buried. -/
theorem desc (h : Buries out s q ps s' q') (hs : Sound s.m.pool q out) {c : Pid}
    (hc : ∀ d, Desc q.Child c d → d ∉ ps) (d : Pid) : Desc q'.Child c d ↔ Desc q.Child c d := by
  constructor
  · exact Desc.mono fun a b hab => ((h.child hs a b).mp hab).1
  · intro hd
    induction hd with
    | refl => exact Relation.ReflTransGen.refl
    | @tail b e hb he ih =>
      exact ih.tail ((h.child hs b e).mpr ⟨he, hc b hb, hc e (hb.tail he)⟩)

end Buries

/-- What a call `kill pid` does. -/
structure Killed (out : List Pid) (s : KState T) (q : Queues) (pid : Pid) (ps : List Pid) (s' : KState T)
    (q' : Queues) : Prop where
  buries : Buries out s q ps s' q'
  mem : ∀ p, p ∈ ps ↔ Desc q.Child pid p
  /-- The stale `p_sib.next` of `pid` leads to the sibling that followed it. -/
  sib : ∀ {par as bs}, q.kids par = some (as ++ pid :: bs) →
    s'.m.pool.links.next (.pSib pid) = some (firstOf (bs.map .pSib) (.pChild par))

/-- `kill` behaves like `kill_tree` on processes of some height. -/
def KillSpec (n : Nat) (kill : Pid → KM T Unit) : Prop :=
  ∀ {out : List Pid} {s : KState T} {q : Queues} {pid : Pid}, Sound s.m.pool q out →
    (∃ cs, q.kids pid = some cs) → Height q.Child n pid →
    ∃ ps s' q', kill pid s = .ret () s' ∧ Killed out s q pid ps s' q'

/-- The loop over the children. -/
theorem killChildren_run {n : Nat} {kill : Pid → KM T Unit} (hkill : KillSpec n kill) {pid : Pid} :
    ∀ (cs : List Pid) {fuel : Nat} {out : List Pid} {s : KState T} {q : Queues}, Sound s.m.pool q out →
      q.kids pid = some cs → cs.length < fuel → (∀ c ∈ cs, Height q.Child n c) →
      ∃ ps s' q', killChildren kill (.pChild pid) fuel
          (some (firstOf (cs.map .pSib) (.pChild pid))) s = .ret () s' ∧
        Buries out s q ps s' q' ∧ q'.kids pid = some [] ∧
        ∀ p, p ∈ ps ↔ ∃ c ∈ cs, Desc q.Child c p := by
  intro cs
  induction cs with
  | nil =>
    intro fuel out s q _ hk hlen _
    obtain ⟨f, rfl⟩ := Nat.exists_eq_add_one_of_ne_zero (Nat.ne_of_gt (Nat.lt_of_le_of_lt (Nat.zero_le _) hlen))
    refine ⟨[], s, q, ?_, .nil out s q, hk, by simp⟩
    simp only [List.map_nil, firstOf_nil, killChildren, if_true]
    rfl
  | cons c rest ih =>
    intro fuel out s q hs hk hlen hheight
    obtain ⟨f, rfl⟩ := Nat.exists_eq_add_one_of_ne_zero (Nat.ne_of_gt (Nat.lt_of_le_of_lt (Nat.zero_le _) hlen))
    have hchild : ∀ x ∈ c :: rest, q.Child pid x := fun x hx => ⟨_, hk, hx⟩
    have hc := hchild c List.mem_cons_self
    have hnd := List.nodup_cons.mp (hs.rep.kids_nodup hk)
    have hcalive := (hs.tree.alive c).mpr (hs.tree.child_alive pid c hc)
    have hne : ∀ d, Desc q.Child c d → d ≠ pid := fun d hd he => hs.tree.forest.not_desc hc (he ▸ hd)
    obtain ⟨ps₁, s₁, q₁, hrun₁, hkd⟩ := hkill hs hcalive (hheight c List.mem_cons_self)
    have hs₁ := hkd.buries.sound hs
    have hpid : pid ∉ ps₁ := fun hm => hne pid ((hkd.mem pid).mp hm) rfl
    -- the remaining children and their descendants are untouched
    have hrest : ∀ x ∈ rest, ∀ d, Desc q.Child x d → d ∉ ps₁ := by
      intro x hx d hd hm
      have hxc : c ≠ x := fun e => hnd.1 (e ▸ hx)
      exact hs.tree.forest.desc_disjoint hc (hchild x (List.mem_cons_of_mem _ hx)) hxc ((hkd.mem d).mp hm) hd
    have hk₁ : q₁.kids pid = some rest := by
      rw [hkd.buries.kids hs hk hpid, List.filter_cons_of_neg, List.filter_eq_self.mpr]
      · exact fun x hx => decide_eq_true (hrest x hx x Relation.ReflTransGen.refl)
      · simpa using (hkd.mem c).mpr Relation.ReflTransGen.refl
    have hsub : ∀ a b, q₁.Child a b → q.Child a b := fun a b hab => ((hkd.buries.child hs a b).mp hab).1
    obtain ⟨ps₂, s₂, q₂, hrun₂, hb₂, hk₂, hmem₂⟩ := @ih f _ s₁ q₁ hs₁ hk₁
      (by simp only [List.length_cons] at hlen; omega)
      (fun x hx => (hheight x (List.mem_cons_of_mem _ hx)).mono hsub)
    refine ⟨ps₁ ++ ps₂, s₂, q₂, ?_, hkd.buries.append hb₂, hk₂, fun p => ?_⟩
    · have hpos : (Node.pSib c) ≠ .pChild pid := by simp
      simp only [List.map_cons, firstOf_cons, killChildren, if_neg hpos]
      have hnext := @hkd.sib pid [] rest hk
      change (kill c >>= _) s = _
      rw [bind_ret hrun₁]
      change killChildren kill (.pChild pid) f (s₁.m.pool.links.next (.pSib c)) s₁ = _
      rw [hnext]
      exact hrun₂
    · rw [List.mem_append, hkd.mem, hmem₂]
      constructor
      · rintro (hp | ⟨x, hx, hp⟩)
        · exact ⟨c, List.mem_cons_self, hp⟩
        · exact ⟨x, List.mem_cons_of_mem _ hx, Desc.mono hsub hp⟩
      · rintro ⟨x, hx, hp⟩
        rcases List.mem_cons.mp hx with rfl | hx
        · exact Or.inl hp
        · exact Or.inr ⟨x, hx, (hkd.buries.desc hs (hrest x hx) p).mpr hp⟩

/-- `kill_tree` buries the process and all its descendants. -/
theorem killTree_spec : ∀ n : Nat, KillSpec n (killTree (T := T) n) := by
  intro n
  induction n with
  | zero => exact fun _ _ hh => hh.elim
  | succ n ih =>
    intro out s q pid hs hcs hheight
    obtain ⟨cs, hk⟩ := hcs
    have hchild : ∀ x ∈ cs, q.Child pid x := fun x hx => ⟨_, hk, hx⟩
    obtain ⟨ps, s₁, q₁, hrun₁, hb, hk₁, hmem⟩ := killChildren_run ih cs hs hk (hs.rep.kids_short hk)
      (fun c hc => hheight c (hchild c hc))
    have hs₁ := hb.sound hs
    obtain ⟨pool', hrun₂, hbd, hs₂⟩ := bury_run hs₁ hk₁
    refine ⟨ps ++ [pid], _, _, ?_, hb.append (.cons hk₁ hbd hs₂ (.nil _ _ _)), fun p => ?_, fun {par as bs} hpar => ?_⟩
    · have hstart : s.m.pool.links.next (.pChild pid) = some (firstOf (cs.map .pSib) (.pChild pid)) :=
        (hs.rep.kids_seg hk).next_start
      change (killChildren (killTree n) (.pChild pid) walkFuel (s.m.pool.links.next (.pChild pid)) >>= _) s = _
      rw [hstart, bind_ret hrun₁]
      exact hrun₂
    · rw [List.mem_append, hmem, List.mem_singleton]
      constructor
      · rintro (⟨c, hc, hp⟩ | rfl)
        · exact Relation.ReflTransGen.head (hchild c hc) hp
        · exact Relation.ReflTransGen.refl
      · intro hd
        rcases Relation.ReflTransGen.cases_head hd with rfl | ⟨c, ⟨cs', hcs', hc⟩, hp⟩
        · exact Or.inr rfl
        · rw [hk] at hcs'
          cases hcs'
          exact Or.inl ⟨c, hc, hp⟩
    · -- the siblings are still there when `pid` is buried
      have hpp : q.Child par pid := ⟨_, hpar, List.mem_append_right _ List.mem_cons_self⟩
      have hkeep : ∀ x ∈ as ++ pid :: bs, x ∉ ps := by
        intro x hx hm
        obtain ⟨c, hc, hd⟩ := (hmem x).mp hm
        have hcp := hchild c hc
        by_cases hxc : x = c
        · subst hxc
          have : par = pid := hs.tree.forest.parent_unique ⟨_, hpar, hx⟩ hcp
          exact hs.tree.forest.irrefl pid (this ▸ hpp)
        · exact hs.tree.forest.not_desc hcp ((hs.tree.forest.desc_parent hd hxc ⟨_, hpar, hx⟩).tail hpp)
      have hparps : par ∉ ps := by
        intro hm
        obtain ⟨c, hc, hd⟩ := (hmem par).mp hm
        exact hs.tree.forest.not_desc (hchild c hc) (hd.tail hpp)
      have hpar₁ : q₁.kids par = some (as ++ pid :: bs) := by
        rw [hb.kids hs hpar hparps, List.filter_eq_self.mpr fun x hx => decide_eq_true (hkeep x hx)]
      have hseg := hs₁.rep.kids_seg hpar₁
      rw [List.map_append, List.map_cons] at hseg
      exact hbd.sib.trans hseg.neighbours.2

/-- `kill_tree` as `scheduler_kill_process` calls it. -/
theorem killTree_run {s : KState T} {q : Queues} {out : List Pid} {pid : Pid} (hs : Sound s.m.pool q out)
    (hcs : ∃ cs, q.kids pid = some cs) :
    ∃ ps s' q', killTree walkFuel pid s = .ret () s' ∧ Killed out s q pid ps s' q' := by
  have hdom : ∀ p c, q.Child p c → c ∈ Finset.range maxProc :=
    fun p c hc => Finset.mem_range.mpr (hs.tree.child_alive p c hc).1
  have hh := hs.tree.forest.height hdom pid
  rw [Finset.card_range] at hh
  exact killTree_spec walkFuel hs hcs (hh.le (lt_walkFuel (by decide)).le)

end Bikaya.Refine
