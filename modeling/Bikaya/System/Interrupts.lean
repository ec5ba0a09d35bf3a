import Bikaya.Kernel.Service
import Bikaya.System.Calls

/-!
# Device interrupts, on systems

`Reports … fs x` : the code `x` reports the operations of the functions `fs` to their waiters, in this order, and
faults where one of them has none. It composes, so the handler is followed device by device and line by line; the lists
are read off the devices as they were at the start (`lineFns`), since a function that is served is never met again.
-/

namespace Bikaya.Kernel
open Bikaya.Lib Bikaya.Model Bikaya.Spec Bikaya.Refine Bikaya.Model.KM

variable {T : Target} {cfg : Cfg T} {s s' : KState T} {q q' : Queues} {out : List Pid} {S S' : System T}
  {fs fs' : List DevFn} {x y : KM T Unit}

/-- Only the functions that are served change. -/
theorem completes_others (h : Completes cfg S fs S') {f : DevFn} (hf : f ∉ fs) : SameFn S.hw S'.hw f := by
  induction h with
  | nil S => exact .refl S.hw f
  | cons _ _ ih =>
    rw [List.mem_cons, not_or] at hf
    exact (sameFn_issue cmdAck hf.1).trans (ih hf.2)

theorem completes_running (h : Completes cfg S fs S') : S'.running = S.running := by
  induction h with
  | nil => rfl
  | cons _ _ ih => exact ih

/-! ## Reports -/

def Reports (cfg : Cfg T) (s : KState T) (out : List Pid) (S : System T) (fs : List DevFn) (x : KM T Unit) : Prop :=
  Exec.wp x (fun _ s' => s'.m.oldAreas = s.m.oldAreas ∧ ∃ q' S', Shows cfg s' q' out S' ∧ Completes cfg S fs S')
    (fun _ _ => False) (fun _ => ∀ S', ¬ Completes cfg S fs S') s

namespace Reports

theorem skip (h : Shows cfg s q out S) : Reports cfg s out S [] (Pure.pure ()) :=
  (Exec.wp_pure ()).mpr ⟨rfl, q, S, h, .nil S⟩

theorem bind (hx : Reports cfg s out S fs x) (fs' : List DevFn)
    (hy : ∀ {s' q' S'}, Shows cfg s' q' out S' → Completes cfg S fs S' → Reports cfg s' out S' fs' y) :
    Reports cfg s out S (fs ++ fs') (x >>= fun _ => y) := by
  unfold Reports
  rw [Exec.wp_bind]
  refine Exec.wp_mono hx (fun _ s₁ hs₁ => ?_) (fun _ _ he => he) fun _ hf S₂ h₂ => ?_
  · obtain ⟨hareas, q₁, S₁, h₁, hc₁⟩ := hs₁
    refine Exec.wp_mono (hy h₁ hc₁) (fun _ s₂ hs₂ => ?_) (fun _ _ he => he) fun _ hf S₂ h₂ => ?_
    · obtain ⟨hareas', q₂, S₂, h₂, hc₂⟩ := hs₂
      exact ⟨hareas'.trans hareas, q₂, S₂, h₂, hc₁.append hc₂⟩
    · obtain ⟨S', hc, hc'⟩ := h₂.of_append
      exact hf S₂ (hc₁.unique hc ▸ hc')
  · obtain ⟨S₁, hc, -⟩ := h₂.of_append
    exact hf S₁ hc

theorem guarded {c : Bool} (h : Shows cfg s q out S) (hx : c = true → Reports cfg s out S fs x) :
    Reports cfg s out S (if c then fs else []) (Exec.guarded c x) := by
  cases c with
  | true => exact hx rfl
  | false => exact skip h

end Reports

/-! ## One device -/

theorem serve_reports (h : Shows cfg s q out S) {device command : Word} {rcpt : Nat} {f : DevFn}
    (hfn : Hw.fnAt T (device + command) = some f) (hkey : interruptsGetDevKey cfg device rcpt = devKey cfg f) :
    Reports cfg s out S [f] (serve cfg device command rcpt) := by
  unfold Reports serve
  refine wp_bind_ret (devStatus_ret hfn s) ?_
  rw [hkey]
  cases hk : S.waiting (devKey cfg f) with
  | nil =>
    rw [Exec.wp_bind]
    unfold Exec.wp
    rw [unblockProcess_none h.sound.rep (h.waiting ▸ hk)]
    intro S' hc
    cases hc with
    | cons hw _ => exact absurd (hk.symm.trans hw) (by simp)
  | cons p rest =>
    obtain ⟨l, hpop, hp, h₁⟩ := h.pop hk
    obtain ⟨l', henq, h₂⟩ := h₁.enqueue hp
    have h₃ := h₂.setPcb p (f := fun x => { x with pS := x.pS.setReturn (s.m.hw.status f) }) (fun _ => rfl) (fun _ => rfl)
      (g := fun x => { x with context := x.context.setReturn (s.m.hw.status f) }) fun _ => rfl
    have h₄ := ((h₃.push (.complete (devKey cfg f) p (s.m.hw.status f))).command (device + command) cmdAck).push
      (.ack (device + command))
    have hrun : unblockProcess (devKey cfg f) (s.m.hw.status f) s = .ret ()
        ((((s.popped p l).enqueued p l').setPcb p fun x => { x with pS := x.pS.setReturn (s.m.hw.status f) }).push
          (.complete (devKey cfg f) p (s.m.hw.status f))) := by
      unfold unblockProcess
      rw [bind_ret hpop, bind_ret henq, bind_ret (orFault_ret p _), bind_ret (modifyPcb_ret p _ _)]
      rfl
    refine wp_bind_ret hrun ?_
    unfold acknowledge
    refine wp_bind_ret (storeCommand_ret _ cmdAck _) (wp_ret (note_ret _ _) ⟨?_, _, _, h₄, .cons hk ?_⟩)
    · rw [commanded_fn hfn]
      rfl
    · unfold System.command System.complete
      rw [hfn, ← h.hw]
      exact .nil _

/-- The functions of a device that have finished. -/
def finishedFns (hw : Hw) (d : Nat) : List DevFn := (deviceFns d).filter fun f => decide (Finished hw f)

theorem finishedFns_congr {hw hw' : Hw} {d : Nat} (h : ∀ f, f.dev = d → SameFn hw hw' f) :
    finishedFns hw' d = finishedFns hw d := by
  have hf : ∀ rx, decide (Finished hw' ⟨d, rx⟩) = decide (Finished hw ⟨d, rx⟩) := fun rx =>
    decide_eq_decide.mpr (h ⟨d, rx⟩ rfl).finished
  simp [finishedFns, deviceFns, List.filter_cons, hf]

theorem mem_finishedFns {hw : Hw} {d : Nat} {f : DevFn} : f ∈ finishedFns hw d ↔ f.dev = d ∧ Finished hw f := by
  obtain ⟨d', rx⟩ := f
  cases rx <;> simp [finishedFns, deviceFns, eq_comm]

theorem handleTermSide_reports (h : Shows cfg s q out S) {i : Nat} (hi : i < 8) {command : Word} (rx : Bool)
    (hfn : Hw.fnAt T (T.devRegAddr ilTerminal i + command) = some ⟨devIndex ilTerminal i, rx⟩) :
    Reports cfg s out S (if Finished S.hw ⟨devIndex ilTerminal i, rx⟩ then [⟨devIndex ilTerminal i, rx⟩] else [])
      (handleTermSide cfg (T.devRegAddr ilTerminal i) command rx.toNat) := by
  have hl : IsLine ilTerminal := ⟨by decide, by decide⟩
  have hkey := getDevKey_eq (T := T) hl hi cfg rx fun hne => absurd rfl hne
  have hst : decide (Finished S.hw ⟨devIndex ilTerminal i, rx⟩) =
      (s.m.hw.status ⟨devIndex ilTerminal i, rx⟩ &&& termStatusMask == stTransmitted) := by
    rw [Bool.eq_iff_iff, decide_eq_true_iff, beq_iff_eq, h.hw]
    exact finished_terminal hi rx
  unfold Reports handleTermSide
  refine wp_bind_ret (devStatus_ret hfn s) ?_
  rw [← hst]
  have hserve := Reports.guarded h (c := decide (Finished S.hw ⟨devIndex ilTerminal i, rx⟩)) fun _ => serve_reports h hfn hkey
  simp only [decide_eq_true_eq] at hserve
  exact hserve

/-- A device of a line, whose interrupt is pending. -/
theorem handleDevice_reports (h : Shows cfg s q out S) {line i : Nat} (hl : IsLine line) (hi : i < 8)
    (hint : S.hw.interrupting line i = true) :
    Reports cfg s out S (finishedFns S.hw (devIndex line i)) (handleDevice cfg line i) := by
  unfold handleDevice
  dsimp only
  rw [isTerminal_devRegAddr hl hi]
  by_cases h7 : line = ilTerminal
  · subst h7
    rw [if_pos (by rfl)]
    have htransm := handleTermSide_reports h hi false (fnAt_transm hl hi rfl)
    have hboth := htransm.bind (if Finished S.hw ⟨devIndex ilTerminal i, true⟩ then [⟨devIndex ilTerminal i, true⟩]
      else []) (y := handleTermSide cfg (T.devRegAddr ilTerminal i) 4 1) fun {s' q' S'} h' hc => by
        have hsame : SameFn S.hw S'.hw ⟨devIndex ilTerminal i, true⟩ := completes_others hc (by split <;> simp)
        have hrecv := handleTermSide_reports h' hi true (fnAt_command hl hi)
        simp only [hsame.finished] at hrecv
        exact hrecv
    have hfns : finishedFns S.hw (devIndex ilTerminal i) =
        (if Finished S.hw ⟨devIndex ilTerminal i, false⟩ then [⟨devIndex ilTerminal i, false⟩] else []) ++
        (if Finished S.hw ⟨devIndex ilTerminal i, true⟩ then [⟨devIndex ilTerminal i, true⟩] else []) := by
      unfold finishedFns deviceFns
      by_cases ht : Finished S.hw ⟨devIndex ilTerminal i, false⟩ <;>
        by_cases hr : Finished S.hw ⟨devIndex ilTerminal i, true⟩ <;> simp [ht, hr]
    rw [hfns]
    exact hboth
  · rw [if_neg (by simpa using h7)]
    have hfn := fnAt_command (T := T) hl hi
    rw [decide_eq_false h7] at hfn
    have hkey := getDevKey_eq (T := T) hl hi cfg false fun _ => rfl
    have hdev : devIndex line i < 32 := by
      obtain ⟨h1, h2⟩ := hl
      unfold devIndex
      simp only [devIlStart, nDevPerIl, ilTerminal] at h7 ⊢
      omega
    have hrx : ¬ Finished S.hw ⟨devIndex line i, true⟩ := fun hf => Bool.false_ne_true (hf.exists.2 hdev).symm
    have hfns : finishedFns S.hw (devIndex line i) = [⟨devIndex line i, false⟩] := by
      unfold finishedFns deviceFns
      simp [(finished_device hl h7 hi).mpr hint, hrx]
    rw [hfns]
    exact serve_reports h hfn hkey

/-! ## The lines -/

/-- The functions of a line that are served, as the devices are. -/
def lineFns (hw : Hw) (line : Nat) : List DevFn :=
  (List.range 8).flatMap fun i => if hw.interrupting line i then finishedFns hw (devIndex line i) else []

theorem mem_lineFns {hw : Hw} {line : Nat} {f : DevFn} :
    f ∈ lineFns hw line ↔ ∃ i < 8, hw.interrupting line i = true ∧ f.dev = devIndex line i ∧ Finished hw f := by
  unfold lineFns
  rw [List.mem_flatMap]
  refine exists_congr fun i => ?_
  rw [List.mem_range]
  refine and_congr_right fun _ => ?_
  split
  next hi => rw [mem_finishedFns, and_iff_right hi]
  next hi => simp [hi]

theorem lineFns_congr {hw hw' : Hw} {line : Nat} (h : ∀ f, (∃ i < 8, f.dev = devIndex line i) → SameFn hw hw' f) :
    lineFns hw' line = lineFns hw line := by
  have hfns : ∀ i < 8, ∀ f, f.dev = devIndex line i → SameFn hw hw' f := fun i hi f hf => h f ⟨i, hi, hf⟩
  unfold lineFns
  refine List.flatMap_congr fun i hi => ?_
  have hi := List.mem_range.mp hi
  rw [interrupting_congr (hfns i hi), finishedFns_congr (hfns i hi)]

/-- The loop of `handle_interrupt`. -/
theorem handleBits_reports {line : Nat} (hl : IsLine line) : ∀ (n : Nat) {i b : Nat} {s : KState T} {q : Queues}
    {S : System T}, Shows cfg s q out S → i + n = 8 →
    (∀ j < n, b / 2 ^ j % 2 = 1 → S.hw.interrupting line (i + j) = true) →
    Reports cfg s out S ((List.range n).flatMap fun j =>
      if b / 2 ^ j % 2 == 1 then finishedFns S.hw (devIndex line (i + j)) else [])
      (handleBits cfg line n i b) := by
  intro n
  induction n with
  | zero => exact fun h _ _ => .skip h
  | succ n ih =>
    intro i b s q S h hn hbits
    have hdiv : ∀ j, b / 2 / 2 ^ j = b / 2 ^ (j + 1) := by
      intro j
      rw [Nat.div_div_eq_div_mul, ← Nat.pow_succ']
    have hfirst := Reports.guarded h (c := b % 2 == 1) fun hb =>
      handleDevice_reports h hl (by omega : i < 8) (hbits 0 (by omega) (by simpa using hb))
    have hloop := hfirst.bind ((List.range n).flatMap fun j =>
      if b / 2 / 2 ^ j % 2 == 1 then finishedFns S.hw (devIndex line (i + 1 + j)) else [])
      (y := handleBits cfg line n (i + 1) (b / 2)) fun {s' q' S'} h' hc => by
        -- the first device is another one
        have hsame : ∀ j, ∀ f : DevFn, f.dev = devIndex line (i + 1 + j) → SameFn S.hw S'.hw f := by
          intro j f hf
          refine completes_others hc fun hm => ?_
          have hd : f.dev = devIndex line i := by
            split at hm
            · exact (mem_finishedFns.mp hm).1
            · exact absurd hm List.not_mem_nil
          rw [hf] at hd
          unfold devIndex at hd
          omega
        have hrest := ih h' (i := i + 1) (b := b / 2) (by omega) fun j hj hb => by
          rw [interrupting_congr (hsame j)]
          have := hbits (j + 1) (by omega) (by rwa [← hdiv j])
          rwa [show i + (j + 1) = i + 1 + j by omega] at this
        simp only [finishedFns_congr (hsame _)] at hrest
        exact hrest
    have hlist : ((List.range (n + 1)).flatMap fun j =>
        if b / 2 ^ j % 2 == 1 then finishedFns S.hw (devIndex line (i + j)) else []) =
        (if b % 2 == 1 then finishedFns S.hw (devIndex line i) else []) ++
        (List.range n).flatMap fun j =>
          if b / 2 / 2 ^ j % 2 == 1 then finishedFns S.hw (devIndex line (i + 1 + j)) else [] := by
      rw [List.range_succ_eq_map, List.flatMap_cons, List.flatMap_map]
      simp only [Nat.pow_zero, Nat.div_one, Nat.add_zero, hdiv]
      refine congrArg₂ (· ++ ·) rfl (List.flatMap_congr fun j _ => ?_)
      rw [show i + (j + 1) = i + 1 + j by omega]
    rw [hlist]
    exact hloop

theorem handleInterrupt_reports (h : Shows cfg s q out S) {line : Nat} (hl : IsLine line) :
    Reports cfg s out S (lineFns S.hw line) (handleInterrupt cfg line) := by
  have hbit : ∀ j < 8, S.hw.bitmap line / 2 ^ j % 2 = 1 ↔ S.hw.interrupting line j = true := fun j hj =>
    bitmap_bit S.hw line j hj
  have hbits := handleBits_reports hl 8 (i := 0) (b := S.hw.bitmap line) h (by omega) fun j hj hb => by
    rw [Nat.zero_add]
    exact (hbit j hj).mp hb
  have hfns : lineFns S.hw line = (List.range 8).flatMap fun j =>
      if S.hw.bitmap line / 2 ^ j % 2 == 1 then finishedFns S.hw (devIndex line (0 + j)) else [] := by
    unfold lineFns
    refine List.flatMap_congr fun j hj => ?_
    have hj := hbit j (List.mem_range.mp hj)
    simp only [Nat.zero_add, beq_iff_eq, hj]
  unfold Reports handleInterrupt
  refine wp_bind_ret (machine_ret s) ?_
  rw [hfns, ← h.hw]
  exact hbits

theorem handleLine_reports (h : Shows cfg s q out S) (cause : Word) (line : Nat) {served : Nat} (hl : IsLine served) :
    Reports cfg s out S (if T.intIsPending cause line then lineFns S.hw served else [])
      (handleLine cfg cause line served) := by
  unfold handleLine
  exact Reports.guarded h fun _ => handleInterrupt_reports h hl

/-- What is served has not finished any more. -/
theorem completes_acked (h : Completes cfg S fs S') {f : DevFn} (hf : f ∈ fs) : ¬ Finished S'.hw f := by
  induction h with
  | nil => exact absurd hf List.not_mem_nil
  | @cons S S' g fs p rest _ hc ih =>
    by_cases hrest : f ∈ fs
    · exact ih hrest
    · obtain rfl := (List.mem_cons.mp hf).resolve_right hrest
      exact fun hfin => not_finished_issue ((completes_others hc hrest).finished.mp hfin)

/-- Of a line other than the terminals nothing is left. -/
theorem lineFns_served (h : Completes cfg S fs S') {line : Nat} (hl : IsLine line) (h7 : line ≠ ilTerminal)
    (hfs : ∀ f ∈ lineFns S.hw line, f ∈ fs) : lineFns S'.hw line = [] := by
  refine List.eq_nil_iff_forall_not_mem.mpr fun f hm => ?_
  obtain ⟨i, hi, hint, hd, hfin⟩ := mem_lineFns.mp hm
  have hnot : f ∉ fs := fun hf => completes_acked h hf hfin
  have hsame := completes_others h hnot
  have hfin₀ := hsame.finished.mp hfin
  refine hnot (hfs f (mem_lineFns.mpr ⟨i, hi, ?_, hd, hfin₀⟩))
  have hrx : f.rx = false := by
    refine hfin₀.exists.2 ?_
    obtain ⟨h1, h2⟩ := hl
    rw [hd]
    unfold devIndex
    simp only [devIlStart, nDevPerIl, ilTerminal] at h7 ⊢
    omega
  refine (finished_device hl h7 hi).mp ?_
  rwa [← hd, ← hrx]

theorem devLine_lineFns {hw : Hw} {line : Nat} (hl : IsLine line) {f : DevFn} (hf : f ∈ lineFns hw line) :
    devLine f = line := by
  obtain ⟨i, hi, -, hd, -⟩ := mem_lineFns.mp hf
  exact ((dev_eq_iff hl hi f).mp hd).1

/-- After other lines a line is as it was. -/
theorem Reports.line (hx : Reports cfg s out S fs x) (cause : Word) (line : Nat) {served : Nat} (hl : IsLine served)
    (hfs : ∀ f ∈ fs, devLine f ≠ served) :
    Reports cfg s out S (fs ++ if T.intIsPending cause line then lineFns S.hw served else [])
      (x >>= fun _ => handleLine cfg cause line served) := by
  refine hx.bind _ fun {s' q' S'} h' hc => ?_
  have hsame : lineFns S'.hw served = lineFns S.hw served := by
    refine lineFns_congr fun f hf => completes_others hc fun hm => ?_
    obtain ⟨i, hi, hd⟩ := hf
    exact hfs f hm ((dev_eq_iff hl hi f).mp hd).1
  rw [← hsame]
  exact handleLine_reports h' cause line hl

/-- The lines whose functions are served: the printer bit has the Ethernet line served. -/
def servedLines (T : Target) (cause : Word) : List Nat :=
  [ilDisk, ilTape, ilEthernet, ilTerminal].filter fun line => decide (LineServed T cause line)

/-- The five branches of `interrupts_handler`. -/
theorem lines_reports (h : Shows cfg s q out S) (cause : Word) :
    Reports cfg s out S ((servedLines T cause).flatMap (lineFns S.hw))
      (handleLine cfg cause ilDisk ilDisk >>= fun _ => handleLine cfg cause ilTape ilTape >>= fun _ =>
        handleLine cfg cause ilEthernet ilEthernet >>= fun _ => handleLine cfg cause ilPrinter ilEthernet >>= fun _ =>
        handleLine cfg cause ilTerminal ilTerminal) := by
  have hcond : ∀ {c : Bool} {line line' : Nat} {f : DevFn}, IsLine line → line ≠ line' →
      f ∈ (if c then lineFns S.hw line else []) → devLine f ≠ line' := by
    intro c line line' f hl hne hf
    cases c with
    | false => exact absurd hf List.not_mem_nil
    | true => exact (devLine_lineFns hl hf).trans_ne hne
  have h3 : IsLine ilDisk := ⟨by decide, by decide⟩
  have h4 : IsLine ilTape := ⟨by decide, by decide⟩
  have h5 : IsLine ilEthernet := ⟨by decide, by decide⟩
  have h7 : IsLine ilTerminal := ⟨by decide, by decide⟩
  have hdisk := handleLine_reports h cause ilDisk h3
  have htape := hdisk.line cause ilTape h4 fun f => hcond h3 (by decide)
  have hether := htape.line cause ilEthernet h5 fun f hf =>
    (List.mem_append.mp hf).elim (hcond h3 (by decide)) (hcond h4 (by decide))
  -- the Ethernet line again: nothing is left of it, unless its own bit was not set
  have hprinter : Reports cfg s out S
      (((if T.intIsPending cause ilDisk then lineFns S.hw ilDisk else []) ++
        (if T.intIsPending cause ilTape then lineFns S.hw ilTape else [])) ++
        (if T.intIsPending cause ilEthernet || T.intIsPending cause ilPrinter then lineFns S.hw ilEthernet else []))
      (((handleLine cfg cause ilDisk ilDisk >>= fun _ => handleLine cfg cause ilTape ilTape) >>= fun _ =>
        handleLine cfg cause ilEthernet ilEthernet) >>= fun _ => handleLine cfg cause ilPrinter ilEthernet) := by
    cases hp : T.intIsPending cause ilEthernet with
    | false =>
      rw [hp] at hether
      have hnext := hether.line cause ilPrinter h5 fun f hf => by
        rw [if_neg Bool.false_ne_true, List.append_nil] at hf
        exact (List.mem_append.mp hf).elim (hcond h3 (by decide)) (hcond h4 (by decide))
      rw [if_neg Bool.false_ne_true, List.append_nil] at hnext
      exact hnext
    | true =>
      rw [hp] at hether
      have hnext := hether.bind [] (y := handleLine cfg cause ilPrinter ilEthernet) fun {s' q' S'} h' hc => by
        have hnil : lineFns S'.hw ilEthernet = [] :=
          lineFns_served hc h5 (by decide) fun f hf => List.mem_append_right _ (by simpa using hf)
        have hagain := handleLine_reports h' cause ilPrinter h5
        rw [hnil, ite_self] at hagain
        exact hagain
      rw [List.append_nil] at hnext
      exact hnext
  have hterm := hprinter.line cause ilTerminal h7 fun f hf => by
    rcases List.mem_append.mp hf with hf | hf
    · exact (List.mem_append.mp hf).elim (hcond h3 (by decide)) (hcond h4 (by decide))
    · exact hcond h5 (by decide) hf
  simp only [Exec.bind_bind] at hterm
  have hlist : (servedLines T cause).flatMap (lineFns S.hw) =
      (((if T.intIsPending cause ilDisk then lineFns S.hw ilDisk else []) ++
        (if T.intIsPending cause ilTape then lineFns S.hw ilTape else [])) ++
        (if T.intIsPending cause ilEthernet || T.intIsPending cause ilPrinter then lineFns S.hw ilEthernet else [])) ++
        (if T.intIsPending cause ilTerminal then lineFns S.hw ilTerminal else []) := by
    have hdisk : LineServed T cause ilDisk ↔ T.intIsPending cause ilDisk = true := by simp [LineServed]
    have htape : LineServed T cause ilTape ↔ T.intIsPending cause ilTape = true := by simp [LineServed]
    have hether : LineServed T cause ilEthernet ↔
        T.intIsPending cause ilEthernet = true ∨ T.intIsPending cause ilPrinter = true := by simp [LineServed]
    have hterm : LineServed T cause ilTerminal ↔ T.intIsPending cause ilTerminal = true := by simp [LineServed]
    unfold servedLines
    simp only [List.filter_cons, List.filter_nil, hdisk, htape, hether, hterm]
    cases T.intIsPending cause ilDisk <;> cases T.intIsPending cause ilTape <;>
      cases T.intIsPending cause ilEthernet <;> cases T.intIsPending cause ilPrinter <;>
      cases T.intIsPending cause ilTerminal <;> simp
  rw [hlist]
  exact hterm

/-- The functions are the completed ones, in the order of their devices. -/
theorem completions_eq (e : Entry T) : completions e = (servedLines T (e.st T.cause)).flatMap (lineFns e.hw) := by
  have hrange : List.range 40 = [3, 4, 5, 6, 7].flatMap fun line => (List.range 8).map (devIndex line) := by decide
  have hdevice : ∀ line, IsLine line → ∀ i < 8, (deviceFns (devIndex line i)).filter (fun f => decide (Wakes e f)) =
      if LineServed T (e.st T.cause) line then
        if e.hw.interrupting line i then finishedFns e.hw (devIndex line i) else [] else [] := by
    intro line hl i hi
    have hw : ∀ rx, decide (Wakes e ⟨devIndex line i, rx⟩) = (decide (Finished e.hw ⟨devIndex line i, rx⟩) &&
        (decide (LineServed T (e.st T.cause) line) && e.hw.interrupting line i)) := by
      intro rx
      have hiff : Wakes e ⟨devIndex line i, rx⟩ ↔ Finished e.hw ⟨devIndex line i, rx⟩ ∧
          LineServed T (e.st T.cause) line ∧ e.hw.interrupting line i = true := by
        unfold Wakes
        dsimp only
        rw [devIndex_div hl hi, devIndex_mod hi]
      rw [Bool.eq_iff_iff]
      simp [hiff]
    unfold finishedFns deviceFns
    by_cases hs : LineServed T (e.st T.cause) line <;> cases hint : e.hw.interrupting line i <;>
      simp [List.filter_cons, hw, hs, hint]
  have hline : ∀ line, IsLine line →
      (((List.range 8).map (devIndex line)).flatMap deviceFns).filter (fun f => decide (Wakes e f)) =
      if LineServed T (e.st T.cause) line then lineFns e.hw line else [] := by
    intro line hl
    rw [List.flatMap_map, List.filter_flatMap]
    split
    next hs =>
      refine List.flatMap_congr fun i hi => ?_
      rw [hdevice line hl i (List.mem_range.mp hi), if_pos hs]
    next hs =>
      refine List.flatMap_eq_nil_iff.mpr fun i hi => ?_
      rw [hdevice line hl i (List.mem_range.mp hi), if_neg hs]
  have hprinter : ¬ LineServed T (e.st T.cause) 6 := by
    unfold LineServed
    simp
  unfold completions servedLines
  rw [hrange, List.flatMap_assoc, List.filter_flatMap]
  simp only [List.flatMap_cons, List.flatMap_nil, List.append_nil, List.filter_cons, List.filter_nil]
  rw [hline 3 ⟨by decide, by decide⟩, hline 4 ⟨by decide, by decide⟩, hline 5 ⟨by decide, by decide⟩,
    hline 6 ⟨by decide, by decide⟩, hline 7 ⟨by decide, by decide⟩, if_neg hprinter]
  by_cases h3 : LineServed T (e.st T.cause) ilDisk <;> by_cases h4 : LineServed T (e.st T.cause) ilTape <;>
    by_cases h5 : LineServed T (e.st T.cause) ilEthernet <;> by_cases h7 : LineServed T (e.st T.cause) ilTerminal <;>
    simp [h3, h4, h5, h7]

end Bikaya.Kernel
