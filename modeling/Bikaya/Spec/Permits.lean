import Mathlib.Algebra.BigOperators.Group.Finset.Piecewise
import Mathlib.Algebra.Order.BigOperators.Group.Finset
import Bikaya.Spec.Frame
import Bikaya.Spec.Turns

/-!
# Permits

A semaphore whose clients keep to the rules (`Fair`: who raises it holds a permit, nobody else writes there) deals out
permits: PASSEREN gains one, now or when a VERHOGEN hands it over, VERHOGEN gives one back. `Permits` keeps the books
beside a run. No permit appears or vanishes (`Balanced`): the value, what the living hold and what the dead took with
them add up to the first value, so no more processes hold one than there were; and nobody waits while one is left.
-/

namespace Bikaya.Spec
open Bikaya.Lib Bikaya.Model

variable {T : Target} {cfg : Cfg T} {S S' : System T} {e : Entry T} {sem : Key} {p : Pid}

structure Permits where
  holds : Pid → Nat
  /-- Held by processes when they died. -/
  lost : Nat

namespace Permits

/-- At the start nobody holds one. -/
def none : Permits := ⟨fun _ => 0, 0⟩

/-- A PASSEREN that goes through, or a VERHOGEN that hands over. -/
def Gains (sem : Key) (S : System T) (e : Entry T) (p : Pid) : Prop :=
  IsCall e 5 ∧ e.st T.sysArg1 = sem ∧ e.mem sem ≠ 0 ∧ S.running = some p ∨
    RaisesSem e sem ∧ (S.waiting sem).head? = some p

def Loses (sem : Key) (S : System T) (e : Entry T) (p : Pid) : Prop := RaisesSem e sem ∧ S.running = some p

instance (sem : Key) (S : System T) (e : Entry T) (p : Pid) : Decidable (Gains sem S e p) := by
  unfold Gains
  infer_instance

instance (sem : Key) (S : System T) (e : Entry T) (p : Pid) : Decidable (Loses sem S e p) := by
  unfold Loses
  infer_instance

/-- What `p` holds after the entry, if it survives. -/
def moved (g : Permits) (sem : Key) (S : System T) (e : Entry T) (p : Pid) : Nat :=
  g.holds p + (if Gains sem S e p then 1 else 0) - if Loses sem S e p then 1 else 0

/-- The books after an entry. -/
def step (sem : Key) (S : System T) (e : Entry T) (S' : System T) (g : Permits) : Permits where
  holds p := if (S'.process p).isNone then 0 else g.moved sem S e p
  lost := g.lost + ∑ p ∈ Finset.range maxProc, if (S'.process p).isNone then g.moved sem S e p else 0

end Permits

/-- The rules of the clients of `sem`. -/
structure Fair (cfg : Cfg T) (sem : Key) (S : System T) (g : Permits) (e : Entry T) : Prop where
  owner : RaisesSem e sem → ∃ p, S.running = some p ∧ 0 < g.holds p
  caller : IsCall e 5 → e.st T.sysArg1 = sem → S.running ≠ none
  mem : e.mem sem = S.mem sem
  outputs : ¬ Writes S e sem
  device : ¬ (IsCall e 6 ∧ sem = interruptsGetDevKey cfg (e.st T.sysArg2) ((e.st T.sysArg3).toNat % 256))

theorem fair_iff {g : Permits} : Fair cfg sem S g e ↔
    (RaisesSem e sem → ∃ p ∈ S.running, 0 < g.holds p) ∧ (IsCall e 5 → e.st T.sysArg1 = sem → S.running ≠ none) ∧
    e.mem sem = S.mem sem ∧ ¬ Writes S e sem ∧
    ¬ (IsCall e 6 ∧ sem = interruptsGetDevKey cfg (e.st T.sysArg2) ((e.st T.sysArg3).toNat % 256)) :=
  ⟨fun h => ⟨h.owner, h.caller, h.mem, h.outputs, h.device⟩, fun h => ⟨h.1, h.2.1, h.2.2.1, h.2.2.2.1, h.2.2.2.2⟩⟩

instance (cfg : Cfg T) (sem : Key) (S : System T) (g : Permits) (e : Entry T) : Decidable (Fair cfg sem S g e) :=
  decidable_of_iff' _ fair_iff

/-- The books balance, opened with `v₀` permits. -/
structure Balanced (sem : Key) (v₀ : Nat) (S : System T) (g : Permits) : Prop where
  total : (S.mem sem).toNat + ∑ p ∈ Finset.range maxProc, g.holds p + g.lost = v₀
  living : ∀ p, 0 < g.holds p → S.process p ≠ none
  closed : S.waiting sem ≠ [] → S.mem sem = 0

/-! ## One entry -/

theorem sum_indicator {P : Pid → Prop} [DecidablePred P] {n : Nat} {r : Pid} (hr : r < n) (hP : ∀ p, P p ↔ p = r) :
    ∑ p ∈ Finset.range n, (if P p then 1 else 0) = 1 := by
  simp only [hP]
  rw [Finset.sum_ite_eq', if_pos (Finset.mem_range.mpr hr)]

theorem sum_indicator_none {P : Pid → Prop} [DecidablePred P] {n : Nat} (hP : ∀ p, ¬ P p) :
    ∑ p ∈ Finset.range n, (if P p then 1 else 0) = 0 := Finset.sum_eq_zero fun p _ => if_neg (hP p)

namespace Permits
variable {g : Permits}

/-- Deaths only move permits to the lost ones. -/
theorem sum_step (g : Permits) (sem : Key) (S : System T) (e : Entry T) (S' : System T) :
    ∑ p ∈ Finset.range maxProc, (g.step sem S e S').holds p + (g.step sem S e S').lost =
    ∑ p ∈ Finset.range maxProc, g.moved sem S e p + g.lost := by
  have hsplit : ∑ p ∈ Finset.range maxProc, g.moved sem S e p =
      ∑ p ∈ Finset.range maxProc, (g.step sem S e S').holds p +
        ∑ p ∈ Finset.range maxProc, if (S'.process p).isNone then g.moved sem S e p else 0 := by
    rw [← Finset.sum_add_distrib]
    refine Finset.sum_congr rfl fun p _ => ?_
    unfold step
    dsimp only
    split <;> simp
  rw [hsplit]
  unfold step
  dsimp only
  omega

/-- What is gained and lost. -/
theorem sum_moved (howner : ∀ p, Loses sem S e p → 0 < g.holds p) :
    ∑ p ∈ Finset.range maxProc, g.moved sem S e p + ∑ p ∈ Finset.range maxProc, (if Loses sem S e p then 1 else 0) =
      ∑ p ∈ Finset.range maxProc, g.holds p + ∑ p ∈ Finset.range maxProc, if Gains sem S e p then 1 else 0 := by
  rw [← Finset.sum_add_distrib, ← Finset.sum_add_distrib]
  refine Finset.sum_congr rfl fun p _ => ?_
  unfold moved
  by_cases hl : Loses sem S e p
  · have := howner p hl
    rw [if_pos hl]
    omega
  · rw [if_neg hl]
    omega

end Permits

theorem Fair.loser {g : Permits} (h : Fair cfg sem S g e) (p : Pid) (hl : Permits.Loses sem S e p) : 0 < g.holds p := by
  obtain ⟨r, hr, hpos⟩ := h.owner hl.1
  exact Option.some.inj (hr.symm.trans hl.2) ▸ hpos

theorem toNat_add_one {x : Word} (h : x.toNat + 1 < 2 ^ 32) : (x + 1).toNat = x.toNat + 1 := by
  rw [BitVec.toNat_add]
  exact Nat.mod_eq_of_lt h

theorem toNat_sub_one {x : Word} (h : x ≠ 0) : (x - 1).toNat + 1 = x.toNat := by
  have hpos : 0 < x.toNat := Nat.pos_of_ne_zero fun h0 => h (BitVec.eq_of_toNat_eq h0)
  have hle : (1 : Word) ≤ x := hpos
  rw [BitVec.toNat_sub_of_le hle]
  show x.toNat - 1 + 1 = x.toNat
  omega

/-- Value and permits move against each other. -/
theorem semValue_moved {g : Permits} {v₀ : Nat} (h : Balanced sem v₀ S g) (hfit : Fit S Option.none)
    (hfair : Fair cfg sem S g e) (hv : v₀ < 2 ^ 32) :
    (semValue S e sem).toNat + ∑ p ∈ Finset.range maxProc, g.moved sem S e p =
      (S.mem sem).toNat + ∑ p ∈ Finset.range maxProc, g.holds p := by
  have hsum := Permits.sum_moved (g := g) (S := S) (e := e) hfair.loser
  have hsmall : ∀ {p a}, At S Option.none p a → p < maxProc := fun ha => hfit.small _ (hfit.alive ha)
  by_cases hraise : RaisesSem e sem
  · have hnot : ¬ IsCall e 5 := fun h5 => absurd (isCall_unique hraise.1 h5) (by decide)
    obtain ⟨r, hr, hpos⟩ := hfair.owner hraise
    have hrs : r < maxProc := hsmall (a := .running) hr
    have hloses : ∀ p, Permits.Loses sem S e p ↔ p = r := by
      intro p
      unfold Permits.Loses
      rw [hr, Option.some.injEq, eq_comm]
      exact and_iff_right hraise
    have hgains : ∀ p, Permits.Gains sem S e p ↔ (S.waiting sem).head? = some p := by
      intro p
      unfold Permits.Gains
      rw [and_iff_right hraise]
      exact or_iff_right fun hp => hnot hp.1
    rw [sum_indicator hrs hloses] at hsum
    cases hw : S.waiting sem with
    | nil =>
      have hval : semValue S e sem = S.mem sem + 1 := by
        unfold semValue
        rw [if_pos ⟨hraise.1, hraise.2, hw⟩, hfair.mem]
      have hone : g.holds r ≤ ∑ p ∈ Finset.range maxProc, g.holds p :=
        Finset.single_le_sum (fun _ _ => Nat.zero_le _) (Finset.mem_range.mpr hrs)
      have htotal := h.total
      rw [sum_indicator_none (P := Permits.Gains sem S e) fun p hp => by simp [hgains, hw] at hp] at hsum
      rw [hval, toNat_add_one (by omega)]
      omega
    | cons w rest =>
      have hws : w < maxProc := hsmall (a := .waiting sem) (show w ∈ S.waiting sem by rw [hw]; exact List.mem_cons_self)
      have hval : semValue S e sem = S.mem sem := by
        unfold semValue
        rw [if_neg fun hc => absurd (hw.symm.trans hc.2.2) (by simp), if_neg fun hc => hnot hc.1, hfair.mem]
      rw [sum_indicator hws fun p => by rw [hgains, hw, List.head?_cons, Option.some.injEq, eq_comm]] at hsum
      rw [hval]
      omega
  · rw [sum_indicator_none (P := Permits.Loses sem S e) fun p hp => hraise hp.1] at hsum
    have hgains : ∀ p, Permits.Gains sem S e p ↔
        (IsCall e 5 ∧ e.st T.sysArg1 = sem ∧ e.mem sem ≠ 0) ∧ S.running = some p := by
      intro p
      unfold Permits.Gains
      rw [or_iff_left fun hp => hraise hp.1, and_assoc, and_assoc]
    by_cases hpass : IsCall e 5 ∧ e.st T.sysArg1 = sem ∧ e.mem sem ≠ 0
    · obtain ⟨r, hr⟩ := Option.ne_none_iff_exists'.mp (hfair.caller hpass.1 hpass.2.1)
      have hval : semValue S e sem = S.mem sem - 1 := by
        unfold semValue
        rw [if_neg fun hc => hraise ⟨hc.1, hc.2.1⟩, if_pos hpass, hfair.mem]
      have hne : S.mem sem ≠ 0 := fun h0 => hpass.2.2 (hfair.mem.trans h0)
      rw [sum_indicator (hsmall (a := .running) hr) fun p => by
        rw [hgains, hr, Option.some.injEq, and_iff_right hpass]; exact eq_comm] at hsum
      have := toNat_sub_one hne
      rw [hval]
      omega
    · have hval : semValue S e sem = S.mem sem := by
        unfold semValue
        rw [if_neg fun hc => hraise ⟨hc.1, hc.2.1⟩, if_neg hpass, hfair.mem]
      rw [sum_indicator_none (P := Permits.Gains sem S e) fun p hp => hpass ((hgains p).mp hp).1] at hsum
      rw [hval]
      omega

/-- Every entry that keeps to the rules keeps the balance. -/
theorem Balanced.step {g : Permits} {v₀ : Nat} {st : CpuState T} (h : Balanced sem v₀ S g) (hfit : Fit S Option.none)
    (hfair : Fair cfg sem S g e) (hv : v₀ < 2 ^ 32) (hs : Step cfg S e st S') :
    Balanced sem v₀ S' (g.step sem S e S') where
  total := by
    have hmoved := semValue_moved h hfit hfair hv
    have hstep := Permits.sum_step g sem S e S'
    have htotal := h.total
    rw [hs.mem hfair.outputs]
    omega
  living p hp := by
    intro hdead
    simp [Permits.step, hdead] at hp
  closed hw := by
    rw [hs.mem hfair.outputs]
    rcases hs.line sem with ⟨r, hb, -⟩ | hsub
    · rcases hb.2 with ⟨h5, -, hzero⟩ | h6
      · unfold semValue
        rw [if_neg fun hc => absurd (isCall_unique h5 hc.1) (by decide), if_neg fun hc => hc.2.2 hzero, hzero]
      · exact absurd h6 hfair.device
    · have hne : S.waiting sem ≠ [] := fun hnil => hw (List.sublist_nil.mp (hnil ▸ hsub))
      have hzero : e.mem sem = 0 := hfair.mem.trans (h.closed hne)
      unfold semValue
      rw [if_neg fun hc => hne hc.2.2, if_neg fun hc => hc.2.2 hzero, hzero]

theorem Permits.holds_of_gains {g : Permits} (hgain : Permits.Gains sem S e p) (hlose : ¬ Permits.Loses sem S e p)
    (hlive : S'.process p ≠ Option.none) : (g.step sem S e S').holds p = g.holds p + 1 := by
  have hsome : ¬ (S'.process p).isNone = true := by simpa using hlive
  show (if (S'.process p).isNone then 0 else g.moved sem S e p) = _
  rw [if_neg hsome]
  unfold moved
  rw [if_pos hgain, if_neg hlose]
  omega

/-- Who has waited for `sem` and goes on got a permit. -/
theorem Step.woken_permit {g : Permits} {st : CpuState T} (hs : Step cfg S e st S') (hfit : Fit S Option.none)
    (hdev : ∀ f, Exists f → sem ≠ devKey cfg f) (hp : p ∈ S.waiting sem) (hp' : p ∉ S'.waiting sem)
    (hlive : S'.process p ≠ Option.none) : (g.step sem S e S').holds p = g.holds p + 1 := by
  have hnot : ¬ Permits.Loses sem S e p := fun hl =>
    absurd (hfit.unique (a := .running) (b := .waiting sem) hl.2 hp) (by simp)
  refine Permits.holds_of_gains (Or.inr ?_) hnot hlive
  rcases (hs.fate p).wakes hp hlive with hw | ⟨-, ⟨hcall, rfl⟩ | ⟨-, f, hf, hkey⟩⟩
  · exact absurd hw hp'
  · refine ⟨⟨hcall, rfl⟩, ?_⟩
    have htail := hs.verhogen hcall (List.ne_nil_of_mem hp)
    obtain ⟨r, rest, hr⟩ := List.exists_cons_of_ne_nil (List.ne_nil_of_mem hp)
    rw [htail, hr] at hp'
    rw [hr] at hp ⊢
    rcases List.mem_cons.mp hp with rfl | hm
    · rfl
    · exact absurd hm hp'
  · have hwakes := of_decide_eq_true (List.mem_filter.mp hf).2
    exact absurd hkey.symm (hdev f hwakes.1.exists)

/-- A PASSEREN that does not block gets a permit. -/
theorem Step.passed_permit {g : Permits} {st : CpuState T} (hs : Step cfg S e st S') (hcall : IsCall e 5)
    (harg : e.st T.sysArg1 = sem) (hp : S.running = some p) (hp' : p ∉ S'.waiting sem)
    (hlive : S'.process p ≠ Option.none) : (g.step sem S e S').holds p = g.holds p + 1 := by
  subst harg
  have hnot : ¬ Permits.Loses (e.st T.sysArg1) S e p := fun hl => absurd (isCall_unique hcall hl.1.1) (by decide)
  obtain ⟨c, S₁, hc, hl⟩ := hs.of_isCall hcall (by decide) (by decide)
  rw [hl.rescheduled.waiting] at hp'
  cases hc with
  | pass _ hne => exact Permits.holds_of_gains (Or.inl ⟨hcall, rfl, hne, hp⟩) hnot hlive
  | wait _ _ hr =>
    obtain rfl := Option.some.inj (hp.symm.trans hr)
    exact absurd hp' (by simp [System.block, System.setWaiting])
  | _ => exact absurd (isCall_unique hcall ‹_›) (by decide)

/-! ## A run -/

/-- The abstract kernel with clients of `sem` that keep to the rules. -/
def clients (cfg : Cfg T) (sem : Key) (ok : System T → Entry T → Prop) :
    Lts (System T × Permits) (Entry T × CpuState T) :=
  (abstractKernel cfg ok).ghost Permits.none (fun S g a => Fair cfg sem S g a.1) fun S a S' => Permits.step sem S a.1 S'

theorem balanced_path {ok : System T → Entry T → Prop} {x y : System T × Permits}
    {tr : List ((System T × Permits) × (Entry T × CpuState T))} {v₀ : Nat} (h : (clients cfg sem ok).Path x tr y)
    (h₀ : (abstractKernel cfg ok).Reach x.1) (hb : Balanced sem v₀ x.1 x.2) (hv : v₀ < 2 ^ 32) :
    (abstractKernel cfg ok).Reach y.1 ∧ Balanced sem v₀ y.1 y.2 := by
  refine h.keeps (I := fun y => (abstractKernel cfg ok).Reach y.1 ∧ Balanced sem v₀ y.1 y.2) (fun hI hs => ?_) ⟨h₀, hb⟩
  obtain ⟨hreach, hb⟩ := hI
  obtain ⟨hstep, hfair, hg⟩ := hs
  obtain ⟨tr, htr⟩ := hreach
  refine ⟨⟨_, htr.step hstep⟩, ?_⟩
  rw [hg]
  exact hb.step (reach_fit htr.reach) hfair hv hstep.2

end Bikaya.Spec
