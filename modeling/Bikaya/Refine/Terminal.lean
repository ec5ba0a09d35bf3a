import Mathlib.Order.Filter.AtTopBot.Basic
import Mathlib.Order.Filter.Finite
import Bikaya.Refine.Walk
import Bikaya.Spec.Console

/-!
# One character

What `tgetchar` and `tputchar` do with one response of the device, once the polling has enough rounds.
-/

namespace Bikaya.Refine
open Bikaya.Lib Bikaya.Model Bikaya.Spec

variable {T : Target}

/-- A program that settles from a state settles in one way. -/
theorem eventually_unique {α : Type} {x : Nat → TM α} {t t₁ t₂ : Terminal} {a b : α}
    (h₁ : ∀ᶠ n in Filter.atTop, x n t = .ret a t₁) (h₂ : ∀ᶠ n in Filter.atTop, x n t = .ret b t₂) : a = b ∧ t₁ = t₂ := by
  obtain ⟨n, hn₁, hn₂⟩ := (h₁.and h₂).exists
  exact Outcome.ret.inj (hn₁.symm.trans hn₂)

/-- How many readings of the status say busy. -/
def busyFor : Response → Nat
  | .unready _ _ => 0
  | .answer _ busy _ _ _ => busy

theorem busy_masked : stBusy &&& termStatusMask = stBusy := by decide

theorem not_takes {status : Word} (h : ¬ TakesCommand status) :
    status &&& termStatusMask ≠ stReady ∧ status &&& termStatusMask ≠ stTransmitted :=
  not_or.mp h

theorem takes {status : Word} (h : TakesCommand status) :
    ¬ (status &&& termStatusMask ≠ stReady ∧ status &&& termStatusMask ≠ stTransmitted) :=
  fun hn => h.elim hn.1 hn.2

/-- Polling counts the busy readings down to the status that the operation ends with. -/
theorem poll_ret {status : TM Word} {stat : Word} (hstat : stat ≠ stBusy) {s : Nat → Terminal}
    (hended : status (s 0) = .ret stat (s 0)) (hbusy : ∀ k, status (s (k + 1)) = .ret stBusy (s k)) :
    ∀ {busy n : Nat}, busy < n → poll status n (s busy) = .ret stat (s 0) := by
  intro busy
  induction busy with
  | zero =>
    intro n hn
    obtain ⟨n, rfl⟩ := Nat.exists_eq_add_one_of_ne_zero (Nat.ne_of_gt hn)
    unfold poll
    rw [bind_ret hended, if_neg hstat]
    rfl
  | succ busy ih =>
    intro n hn
    obtain ⟨n, rfl⟩ := Nat.exists_eq_add_one_of_ne_zero (Nat.ne_of_gt (Nat.lt_of_le_of_lt (Nat.zero_le _) hn))
    unfold poll
    rw [bind_ret (hbusy busy), if_pos rfl]
    exact ih (Nat.lt_of_succ_lt_succ hn)

/-- `tgetchar` uses one response up: it returns the character, or -1 when the attempt failed. -/
theorem tgetchar_ret (t : Terminal) (script : Nat → Response) {pos n : Nat} (hn : busyFor (script pos) < n) :
    tgetchar T n (receiving t script pos) =
      .ret ((char? (script pos)).elim (-1) (charInt T)) (receiving t script (pos + 1)) := by
  cases hr : script pos with
  | unready status h =>
    have hstat : rxStatus (receiving t script pos) = .ret (status &&& termStatusMask) (receiving t script (pos + 1)) := by
      refine map_ret (· &&& termStatusMask) ?_
      simp only [recvStatus, receiving, Side.read, hr]
    unfold tgetchar
    rw [bind_ret hstat, if_pos (not_takes h)]
    rfl
  | answer idle busy done htakes hended =>
    rw [hr] at hn
    change busy < n at hn
    have hstat : rxStatus (receiving t script pos) = .ret (idle &&& termStatusMask) (receiving t script pos) := by
      refine map_ret (· &&& termStatusMask) ?_
      simp only [recvStatus, receiving, Side.read, hr]
    let s : Nat → Terminal := fun k => { t with rx := ⟨script, pos, .working k done⟩ }
    have hcmd : recvCommand cmdReceive (receiving t script pos) = .ret () (s busy) := by
      simp [recvCommand, Exec.modify, receiving, Side.write, hr, s]
    have hlast : rxStatus (s 0) = .ret (done &&& termStatusMask) (s 0) := rfl
    have hbusy : ∀ k, rxStatus (s (k + 1)) = .ret stBusy (s k) := fun k => by
      have hread : recvStatus (s (k + 1)) = .ret stBusy (s k) := rfl
      unfold rxStatus
      rw [map_ret (· &&& termStatusMask) hread, busy_masked]
    have hpoll : poll rxStatus n (s busy) = .ret (done &&& termStatusMask) (s 0) := poll_ret hended hlast hbusy hn
    have hread : recvStatus (s 0) = .ret done (s 0) := rfl
    have hack : recvCommand cmdAck (s 0) = .ret () (receiving t script (pos + 1)) := by
      simp [recvCommand, Exec.modify, receiving, Side.write, s]
    unfold tgetchar
    rw [bind_ret hstat, if_neg (takes htakes), bind_ret hcmd, bind_ret hpoll, bind_ret hread]
    rw [bind_ret hack]
    by_cases hok : done &&& termStatusMask = stReceived
    · have hc : char? (.answer idle busy done htakes hended) = some ((done >>> charOffset).setWidth 8) := if_pos hok
      rw [hc, if_neg (not_not.mpr hok)]
      rfl
    · have hc : char? (.answer idle busy done htakes hended) = none := if_neg hok
      rw [hc, if_pos hok]
      rfl

/-- Converted to `int` and back, a `char` is the same. -/
@[simp] theorem ofInt_charInt (c : Byte) : BitVec.ofInt 8 (charInt T c) = c := by
  cases T
  · exact BitVec.ofInt_toInt
  · change BitVec.ofInt 8 (c.toNat : Int) = c
    rw [BitVec.ofInt_natCast, BitVec.ofNat_toNat, BitVec.setWidth_eq]

/-! ## The transmitter -/

/-- The program settles with `a` and has transmitted `xs`; the transmitter still accepts. -/
structure Shows {α : Type} (x : Nat → TM α) (t : Terminal) (a : α) (xs : List Byte) (t' : Terminal) : Prop where
  ret : ∀ᶠ n in Filter.atTop, x n t = .ret a t'
  accepts : Accepts t'
  sent : t'.sent = t.sent ++ xs

theorem Shows.bind {α β : Type} {x : Nat → TM α} {f : Nat → α → TM β} {t t' t'' : Terminal} {a : α} {b : β}
    {xs ys : List Byte} (h : Shows x t a xs t') (h' : Shows (fun n => f n a) t' b ys t'') :
    Shows (fun n => x n >>= f n) t b (xs ++ ys) t'' where
  ret := by
    filter_upwards [h.ret, h'.ret] with n hn hn'
    rw [bind_ret hn, hn']
  accepts := h'.accepts
  sent := by rw [h'.sent, h.sent, List.append_assoc]

theorem Shows.pure {α : Type} (a : α) {t : Terminal} (h : Accepts t) : Shows (fun _ => Pure.pure a) t a [] t where
  ret := Filter.Eventually.of_forall fun _ => rfl
  accepts := h
  sent := (List.append_nil _).symm

/-- The result is thrown away for another one. -/
theorem Shows.result {α β : Type} {x : Nat → TM α} {t t' : Terminal} {a : α} {xs : List Byte}
    (h : Shows x t a xs t') (b : β) : Shows (fun n => x n >>= fun _ => Pure.pure b) t b xs t' := by
  have := h.bind (f := fun _ _ => Pure.pure b) (Shows.pure b h.accepts)
  rwa [List.append_nil] at this

/-- A command to transmit carries its character. -/
theorem command_char (w : Word) : ((w <<< charOffset ||| cmdTransmit) >>> charOffset).setWidth 8 = w.setWidth 8 := by
  have hcmd : cmdTransmit >>> charOffset = 0#32 := rfl
  rw [BitVec.ushiftRight_or_distrib, hcmd, BitVec.or_zero]
  apply BitVec.eq_of_getLsbD_eq
  intro i hi
  have hi' : i + 8 < 32 := by omega
  simp [charOffset, hi, hi', Nat.add_comm 8, -BitVec.getLsbD_eq_getElem]

theorem command_ne_ack (w : Word) : w <<< charOffset ||| cmdTransmit ≠ cmdAck := by
  intro h
  have := congrArg (BitVec.getLsbD · 0) h
  simp [charOffset, cmdTransmit, cmdAck] at this

theorem setWidth_ofInt (c : Int) : (BitVec.ofInt 32 c).setWidth 8 = BitVec.ofInt 8 c := by
  apply BitVec.eq_of_toNat_eq
  rw [BitVec.toNat_setWidth, BitVec.toNat_ofInt, BitVec.toNat_ofInt]
  omega

theorem tputchar_shows {t : Terminal} (h : Accepts t) (c : Int) :
    ∃ t', Shows (fun n => tputchar n c) t 0 [BitVec.ofInt 8 c] t' := by
  obtain ⟨rx, ⟨script, pos, phase⟩, sent, mem, buffer⟩ := t
  obtain ⟨hidle, hshown⟩ := h
  change phase = .idle at hidle
  change ∀ i ≥ pos, Shown (script i) at hshown
  subst hidle
  have hnow := hshown pos (Nat.le_refl pos)
  cases hr : script pos with
  | unready status hs =>
    rw [hr] at hnow
    exact absurd hnow id
  | answer idle busy done htakes hended =>
    rw [hr] at hnow
    change done &&& termStatusMask = stTransmitted at hnow
    let s : Nat → Terminal := fun k =>
      ⟨rx, ⟨script, pos, .working k done⟩, sent ++ [BitVec.ofInt 8 c], mem, buffer⟩
    refine ⟨⟨rx, ⟨script, pos + 1, .idle⟩, sent ++ [BitVec.ofInt 8 c], mem, buffer⟩, ?_, ?_, rfl⟩
    · filter_upwards [Filter.eventually_gt_atTop busy] with n hn
      have hstat : txStatus ⟨rx, ⟨script, pos, .idle⟩, sent, mem, buffer⟩ =
          .ret (idle &&& termStatusMask) ⟨rx, ⟨script, pos, .idle⟩, sent, mem, buffer⟩ := by
        refine map_ret (· &&& termStatusMask) ?_
        simp only [transmStatus, Side.read, hr]
      have hwrite : Side.write ⟨script, pos, .idle⟩ ((BitVec.ofInt 32 c <<< charOffset) ||| cmdTransmit) =
          ⟨script, pos, .working busy done⟩ := by
        simp only [Side.write, hr, if_neg (command_ne_ack _)]
      have hshow : shown ⟨script, pos, .idle⟩ ((BitVec.ofInt 32 c <<< charOffset) ||| cmdTransmit) =
          [BitVec.ofInt 8 c] := by
        simp only [shown, hr, if_pos (And.intro (command_ne_ack _) hnow), command_char, setWidth_ofInt]
      have hcmd : transmCommand ((BitVec.ofInt 32 c <<< charOffset) ||| cmdTransmit)
          ⟨rx, ⟨script, pos, .idle⟩, sent, mem, buffer⟩ = .ret () (s busy) := by
        simp only [transmCommand, Exec.modify, hwrite, hshow, s]
      have hlast : txStatus (s 0) = .ret (done &&& termStatusMask) (s 0) := rfl
      have hbusy : ∀ k, txStatus (s (k + 1)) = .ret stBusy (s k) := fun k => by
        have hread : transmStatus (s (k + 1)) = .ret stBusy (s k) := rfl
        unfold txStatus
        rw [map_ret (· &&& termStatusMask) hread, busy_masked]
      have hpoll : poll txStatus n (s busy) = .ret (done &&& termStatusMask) (s 0) := poll_ret hended hlast hbusy hn
      have hack : transmCommand cmdAck (s 0) =
          .ret () ⟨rx, ⟨script, pos + 1, .idle⟩, sent ++ [BitVec.ofInt 8 c], mem, buffer⟩ := by
        simp [transmCommand, Exec.modify, Side.write, shown, s]
      unfold tputchar
      rw [bind_ret hstat, if_neg (takes htakes), bind_ret hcmd, bind_ret hpoll, bind_ret hack, hnow]
      rfl
    · exact ⟨rfl, fun i hi => hshown i (Nat.le_of_succ_le hi)⟩

end Bikaya.Refine
