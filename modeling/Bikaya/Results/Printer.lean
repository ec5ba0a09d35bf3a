import Mathlib.Order.Filter.AtTopBot.Basic
import Bikaya.Model.Printer
import Bikaya.Refine.Terminal

/-!
# Printing on paper

`prtr_puts` stops at the first character for which the printer is not ready, and does not look at how the others end:
what fails is missing on the paper, and nobody is told (`prtrPuts_prints`).
-/

namespace Bikaya.Results
open Bikaya.Lib Bikaya.Model Bikaya.Refine

variable {T : Target}

/-- What appears of a string whose first character is the attempt `pos`. -/
def paperOf (script : Nat → PrinterResponse) : Nat → List Byte → List Byte
  | _, [] => []
  | pos, c :: xs =>
    match script pos with
    | .unready _ _ => []
    | .answer _ _ _ => (script pos).shown c ++ paperOf script (pos + 1) xs

/-- How many attempts are made. -/
def attempts (script : Nat → PrinterResponse) : Nat → List Byte → Nat
  | _, [] => 0
  | pos, _ :: xs =>
    match script pos with
    | .unready _ _ => 1
    | .answer _ _ _ => 1 + attempts script (pos + 1) xs

/-- The attempt prints its character. -/
def Succeeds (r : PrinterResponse) : Prop := ∀ c, r.shown c = [c]

/-- Polling counts the busy readings down. -/
theorem printerPoll_ret (p : Printer) {done : Word} (hdone : done ≠ stBusy) : ∀ {busy n : Nat}, busy < n →
    printerPoll n { p with phase := .working busy done } = .ret done { p with phase := .working 0 done } := by
  intro busy
  induction busy with
  | zero =>
    intro n hn
    obtain ⟨n, rfl⟩ := Nat.exists_eq_add_one_of_ne_zero (Nat.ne_of_gt hn)
    have hread : printerStatus { p with phase := .working 0 done } = .ret done { p with phase := .working 0 done } := rfl
    unfold printerPoll
    rw [bind_ret hread, if_neg hdone]
    rfl
  | succ busy ih =>
    intro n hn
    obtain ⟨n, rfl⟩ := Nat.exists_eq_add_one_of_ne_zero (Nat.ne_of_gt (Nat.lt_of_le_of_lt (Nat.zero_le _) hn))
    have hread : printerStatus { p with phase := .working (busy + 1) done } =
        .ret stBusy { p with phase := .working busy done } := rfl
    unfold printerPoll
    rw [bind_ret hread, if_pos rfl]
    exact ih (Nat.lt_of_succ_lt_succ hn)

theorem prtrPutchar_unready {p : Printer} (hp : p.phase = .idle) {status : Word} {h : status ≠ stReady}
    (hr : p.script p.pos = .unready status h) (n : Nat) (c : Byte) :
    prtrPutchar T n c p = .ret (-1) { p with pos := p.pos + 1 } := by
  have hread : printerStatus p = .ret status { p with pos := p.pos + 1 } := by
    simp only [printerStatus, Printer.read, hp, hr]
  unfold prtrPutchar
  rw [bind_ret hread, if_pos h]
  rfl

/-- A character that the printer takes; `n` readings see its end. -/
theorem prtrPutchar_answer {p : Printer} (hp : p.phase = .idle) {busy n : Nat} {done : Word} {h : done ≠ stBusy}
    (hr : p.script p.pos = .answer busy done h) (hn : busy < n) (c : Byte) :
    prtrPutchar T n c p = .ret 0 { p with
      pos := p.pos + 1
      data0 := BitVec.ofInt 32 (charInt T c)
      paper := p.paper ++ (p.script p.pos).shown c } := by
  let w := BitVec.ofInt 32 (charInt T c)
  let q : Printer := { p with data0 := w, paper := p.paper ++ (p.script p.pos).shown c }
  have hread : printerStatus p = .ret stReady p := by
    simp only [printerStatus, Printer.read, hp, hr]
  have hdata : printerData w p = .ret () { p with data0 := w } := rfl
  have hcmd : printerCommand cmdPrintChr { p with data0 := w } = .ret () { q with phase := .working busy done } := by
    simp [printerCommand, Exec.modify, Printer.write, hp, hr, q, w, setWidth_ofInt]
  have hpoll : printerPoll n { q with phase := .working busy done } = .ret done { q with phase := .working 0 done } :=
    printerPoll_ret q h hn
  have hack : printerCommand cmdAck { q with phase := .working 0 done } =
      .ret () { q with phase := .idle, pos := p.pos + 1 } := by
    simp [printerCommand, Exec.modify, Printer.write, q]
  unfold prtrPutchar
  rw [bind_ret hread, if_neg (not_not.mpr rfl), bind_ret hdata, bind_ret hcmd, bind_ret hpoll, bind_ret hack]
  simp only [q, hp]
  rfl

theorem prtrPuts_run {xs rest : List Byte} : ∀ {p : Printer}, p.phase = .idle → 0 ∉ xs →
    ∃ p', (∀ᶠ n in Filter.atTop, prtrPuts T n (xs ++ 0 :: rest) p = .ret () p') ∧ p'.phase = .idle ∧
      p'.pos = p.pos + attempts p.script p.pos xs ∧ p'.paper = p.paper ++ paperOf p.script p.pos xs := by
  induction xs with
  | nil =>
    intro p hp _
    exact ⟨p, Filter.Eventually.of_forall fun n => rfl, hp, rfl, (List.append_nil _).symm⟩
  | cons c xs ih =>
    intro p hp hxs
    rw [List.mem_cons, not_or] at hxs
    obtain ⟨hc, hxs⟩ := hxs
    cases hr : p.script p.pos with
    | unready status h =>
      refine ⟨{ p with pos := p.pos + 1 }, Filter.Eventually.of_forall fun n => ?_, hp, ?_, ?_⟩
      · rw [List.cons_append, prtrPuts, if_neg (Ne.symm hc), bind_ret (prtrPutchar_unready hp hr n c)]
        rfl
      · simp only [attempts, hr]
      · simp only [paperOf, hr, List.append_nil]
    | answer busy done h =>
      let q : Printer := { p with
        pos := p.pos + 1
        data0 := BitVec.ofInt 32 (charInt T c)
        paper := p.paper ++ (p.script p.pos).shown c }
      obtain ⟨p', hrun, hidle, hpos, hpaper⟩ := ih (p := q) hp hxs
      refine ⟨p', ?_, hidle, ?_, ?_⟩
      · filter_upwards [hrun, Filter.eventually_gt_atTop busy] with n hn hbusy
        rw [List.cons_append, prtrPuts, if_neg (Ne.symm hc), bind_ret (prtrPutchar_answer hp hr hbusy c)]
        exact hn
      · simp only [attempts, hr]
        rw [hpos]
        exact Nat.add_assoc _ _ _
      · simp only [paperOf, hr]
        rw [hpaper, ← hr]
        exact List.append_assoc _ _ _

theorem shown_length (r : PrinterResponse) (c : Byte) : (r.shown c).length ≤ 1 := by
  unfold PrinterResponse.shown
  split
  · exact Nat.zero_le 1
  · split
    · exact Nat.le_refl 1
    · exact Nat.zero_le 1

theorem paperOf_length (script : Nat → PrinterResponse) (xs : List Byte) : ∀ pos,
    (paperOf script pos xs).length ≤ xs.length := by
  induction xs with
  | nil => exact fun _ => Nat.le_refl 0
  | cons c xs ih =>
    intro pos
    have hshown := shown_length (script pos) c
    have hrest := ih (pos + 1)
    unfold paperOf
    split
    · exact Nat.zero_le _
    · rw [List.length_append, List.length_cons]
      omega

/-- The whole string is on the paper if and only if every attempt prints. -/
theorem paperOf_eq_iff {script : Nat → PrinterResponse} {xs : List Byte} : ∀ {pos : Nat},
    paperOf script pos xs = xs ↔ ∀ i < xs.length, Succeeds (script (pos + i)) := by
  induction xs with
  | nil => exact fun {_} => ⟨fun _ i hi => absurd hi (Nat.not_lt_zero i), fun _ => rfl⟩
  | cons c xs ih =>
    intro pos
    have hall : (∀ i < (c :: xs).length, Succeeds (script (pos + i))) ↔
        Succeeds (script pos) ∧ ∀ i < xs.length, Succeeds (script (pos + 1 + i)) := by
      rw [List.length_cons, Nat.forall_lt_succ_left]
      simp only [Nat.add_zero, Nat.add_assoc, Nat.add_comm 1]
    rw [hall, ← ih]
    cases hr : script pos with
    | unready status h =>
      have hno : ¬ Succeeds (.unready status h) := fun hp => absurd (hp 0) (by simp [PrinterResponse.shown])
      simp [paperOf, hr, hno]
    | answer busy done h =>
      simp only [paperOf, hr]
      by_cases hdone : done = stReady
      · have hshown : ∀ c, (PrinterResponse.answer busy done h).shown c = [c] := fun c => if_pos hdone
        have hp : Succeeds (.answer busy done h) := hshown
        simp [hshown, hp]
      · have hshown : ∀ c, (PrinterResponse.answer busy done h).shown c = [] := fun c => if_neg hdone
        have hno : ¬ Succeeds (.answer busy done h) := fun hp => absurd (hp 0) (by simp [hshown])
        have hlen := paperOf_length script xs (pos + 1)
        refine iff_of_false (fun he => ?_) fun hp => hno hp.1
        rw [hshown, List.nil_append] at he
        rw [he, List.length_cons] at hlen
        omega

/-- For every string and every behaviour of the printer, `prtr_puts` returns once the printer's operations end; what it
put on the paper, and when that is the string. -/
theorem prtrPuts_prints (T : Target) {p : Printer} (hp : p.phase = .idle) {xs : List Byte} (hxs : 0 ∉ xs)
    (rest : List Byte) :
    (∃ p', (∀ᶠ n in Filter.atTop, prtrPuts T n (xs ++ 0 :: rest) p = .ret () p') ∧ p'.phase = .idle ∧
      p'.pos = p.pos + attempts p.script p.pos xs ∧ p'.paper = p.paper ++ paperOf p.script p.pos xs) ∧
    (paperOf p.script p.pos xs = xs ↔ ∀ i < xs.length, Succeeds (p.script (p.pos + i))) :=
  ⟨prtrPuts_run hp hxs, paperOf_eq_iff⟩

/-- The second of three characters fails. -/
def jammed : Printer where
  script i := .answer 1 (if i = 1 then 4 else stReady) (by split <;> decide)
  pos := 0
  phase := .idle
  data0 := 0
  paper := []

theorem prtrPuts_prints_jammed : ∃ p', (∀ᶠ n in Filter.atTop, prtrPuts .umps n [97, 98, 99, 0] jammed = .ret () p') ∧
    p'.paper = [97, 99] := by
  obtain ⟨⟨p', hrun, -, -, hpaper⟩, -⟩ := prtrPuts_prints .umps (p := jammed) rfl (show 0 ∉ [97, 98, 99] by decide) []
  exact ⟨p', hrun, hpaper.trans (by decide)⟩

end Bikaya.Results
