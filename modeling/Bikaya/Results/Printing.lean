import Bikaya.Refine.Strings

/-!
# `vtprintf`, negative numbers and a last `%`

`%d` passes its argument to `convert` as an unsigned number, and a `%` at the end of the format makes the cursor
jump over the NUL. Otherwise `vtprintf` transmits the reference text (`vtprintf_prints_iff`).
-/

namespace Bikaya.Results
open Bikaya.Lib Bikaya.Model Bikaya.Spec Bikaya.Refine

variable {T : Target}

/-- What `%d` shows. -/
def unsigned (w : Word) : List Byte := numeral 10 w.toNat

/-! ## One conversion -/

/-- The conversion characters. -/
theorem ofByte_some {c : Byte} {k : Conv} (h : Conv.ofByte c = some k) :
    c = 99 ∧ k = .char ∨ c = 100 ∧ k = .int ∨ c = 115 ∧ k = .string ∨ c = 112 ∧ k = .pointer := by
  unfold Conv.ofByte at h
  split_ifs at h with hc hd hs hp <;> simp_all

theorem ofByte_none {c : Byte} (h : Conv.ofByte c = none) : c ≠ 99 ∧ c ≠ 100 ∧ c ≠ 115 ∧ c ≠ 112 := by
  unfold Conv.ofByte at h
  split_ifs at h with hc hd hs hp
  exact ⟨hc, hd, hs, hp⟩

theorem conversion_other {c : Byte} (h : Conv.ofByte c = none) (n : Nat) (args : List Arg) :
    conversion T n c args = pure args := by
  obtain ⟨hc, hd, hs, hp⟩ := ofByte_none h
  unfold conversion
  rw [if_neg hc, if_neg hd, if_neg hs, if_neg hp]

theorem conversion_shows {c : Byte} {k : Conv} (h : Conv.ofByte c = some k) {a : Arg} {xs : List Byte}
    (ha : k.text unsigned a = some xs) (args : List Arg) {t : Terminal} (hacc : Accepts t) :
    ∃ t', Shows (fun n => conversion T n c (a :: args)) t args xs t' := by
  rcases ofByte_some h with ⟨rfl, rfl⟩ | ⟨rfl, rfl⟩ | ⟨rfl, rfl⟩ | ⟨rfl, rfl⟩
  · cases a with
    | int w =>
      obtain ⟨t', hshow⟩ := tputchar_shows hacc w.toInt
      obtain rfl : [w.setWidth 8] = xs := Option.some.inj ha
      have hchar : BitVec.ofInt 8 w.toInt = w.setWidth 8 := by rw [← setWidth_ofInt, BitVec.ofInt_toInt]
      exact ⟨t', hchar ▸ hshow.result args⟩
    | str s => exact absurd ha nofun
    | ptr w => exact absurd ha nofun
  · cases a with
    | int w =>
      obtain ⟨t', hshow⟩ := numeral_shows (T := T) w (show 1 < (10 : Word).toNat by decide) (by decide) args hacc
      obtain rfl : unsigned w = xs := Option.some.inj ha
      exact ⟨t', hshow⟩
    | str s => exact absurd ha nofun
    | ptr w => exact absurd ha nofun
  · cases a with
    | str s =>
      have hnul : 0 ∈ s := by
        by_contra hn
        exact absurd ((if_neg hn).symm.trans ha) nofun
      obtain ⟨t', hshow⟩ := tputs_shows (T := T) s hnul hacc
      obtain rfl : s.takeWhile (· ≠ 0) = xs := Option.some.inj ((if_pos hnul).symm.trans ha)
      exact ⟨t', hshow.result args⟩
    | int w => exact absurd ha nofun
    | ptr w => exact absurd ha nofun
  · cases a with
    | ptr w =>
      obtain ⟨t₁, hshow₁⟩ := tputs_shows (T := T) [48, 120, 0] (by decide) hacc
      obtain ⟨t₂, hshow₂⟩ := numeral_shows (T := T) w (show 1 < (16 : Word).toNat by decide) (by decide) args hshow₁.accepts
      obtain rfl : 48 :: 120 :: numeral 16 w.toNat = xs := Option.some.inj ha
      exact ⟨t₂, hshow₁.bind hshow₂⟩
    | int w => exact absurd ha nofun
    | str s => exact absurd ha nofun

/-! ## The format -/

theorem pieces_char {c : Byte} (h : c ≠ percent) (fmt : List Byte) : pieces (c :: fmt) = .char c :: pieces fmt := by
  rw [pieces.eq_def]
  exact if_neg h

theorem pieces_percent (c : Byte) (fmt : List Byte) :
    pieces (percent :: c :: fmt) = (Conv.ofByte c).elim (.other c) .conv :: pieces fmt := by
  rw [pieces.eq_def]
  exact if_pos rfl

theorem endsLone_char {c : Byte} (h : c ≠ percent) (fmt : List Byte) : endsLone (c :: fmt) = endsLone fmt := by
  rw [endsLone.eq_def]
  exact if_neg h

theorem endsLone_percent (c : Byte) (fmt : List Byte) : endsLone (percent :: c :: fmt) = endsLone fmt := by
  rw [endsLone.eq_def]
  exact if_pos rfl

/-- An ordinary character. -/
theorem vtprintf_char {c : Byte} (h₀ : c ≠ 0) (h : c ≠ percent) (n : Nat) (fmt : List Byte) (args : List Arg) :
    vtprintf T n (c :: fmt) args = tputchar n (charInt T c) >>= fun _ => vtprintf T n fmt args := by
  rw [vtprintf.eq_def]
  simp only [if_neg h₀, if_neg h]

/-- A conversion. -/
theorem vtprintf_percent (c : Byte) (n : Nat) (fmt : List Byte) (args : List Arg) :
    vtprintf T n (percent :: c :: fmt) args = conversion T n c args >>= fun args => vtprintf T n fmt args := by
  rw [vtprintf.eq_def]
  rfl

/-- The text goes out, with negative numbers as unsigned ones; a last `%` makes the cursor leave the format. -/
theorem vtprintf_run : ∀ (fmt : List Byte) {args : List Arg} {text : List Byte} {t : Terminal}, 0 ∉ fmt →
    renderWith unsigned (pieces fmt) args = some text → Accepts t →
      ∃ t', t'.sent = t.sent ++ text ∧ ∀ᶠ n in Filter.atTop,
        vtprintf T n (fmt ++ [0]) args t = if endsLone fmt then .fault .badIndex else .ret () t' := by
  intro fmt
  induction fmt using pieces.induct with
  | case1 =>
    intro args text t _ htext _
    cases args with
    | nil =>
      obtain rfl : [] = text := Option.some.inj htext
      exact ⟨t, (List.append_nil _).symm, Filter.Eventually.of_forall fun n => rfl⟩
    | cons a args => exact absurd htext nofun
  | case2 =>
    intro args text t _ htext _
    cases args with
    | nil =>
      obtain rfl : [] = text := Option.some.inj htext
      refine ⟨t, (List.append_nil _).symm, Filter.Eventually.of_forall fun n => ?_⟩
      rw [List.singleton_append, vtprintf_percent]
      rfl
    | cons a args => exact absurd htext nofun
  | case3 c fmt ih =>
    intro args text t hnul htext hacc
    have hnul : 0 ∉ fmt := fun h => hnul (List.mem_cons_of_mem _ (List.mem_cons_of_mem _ h))
    rw [pieces_percent] at htext
    cases hk : Conv.ofByte c with
    | none =>
      rw [hk] at htext
      obtain ⟨t', hsent, hrun⟩ := ih hnul htext hacc
      refine ⟨t', hsent, ?_⟩
      filter_upwards [hrun] with n hrun
      rw [List.cons_append, List.cons_append, vtprintf_percent, conversion_other hk, endsLone_percent]
      exact hrun
    | some k =>
      rw [hk] at htext
      cases args with
      | nil => exact absurd htext nofun
      | cons a args =>
        obtain ⟨xs, hxs, htext⟩ := Option.bind_eq_some_iff.mp htext
        obtain ⟨rest, hrest, rfl⟩ := Option.map_eq_some_iff.mp htext
        obtain ⟨t₁, hshow⟩ := conversion_shows (T := T) hk hxs args hacc
        obtain ⟨t', hsent, hrun⟩ := ih hnul hrest hshow.accepts
        refine ⟨t', ?_, ?_⟩
        · rw [hsent, hshow.sent, List.append_assoc]
        · filter_upwards [hshow.ret, hrun] with n hn hrun
          rw [List.cons_append, List.cons_append, vtprintf_percent, bind_ret hn, hrun, endsLone_percent]
  | case4 c fmt hc ih =>
    intro args text t hnul htext hacc
    obtain ⟨hc₀, hnul⟩ := not_or.mp (mt List.mem_cons.mpr hnul)
    rw [pieces_char hc] at htext
    obtain ⟨rest, hrest, rfl⟩ := Option.map_eq_some_iff.mp htext
    obtain ⟨t₁, hshow⟩ := tputchar_shows hacc (charInt T c)
    obtain ⟨t', hsent, hrun⟩ := ih hnul hrest hshow.accepts
    refine ⟨t', ?_, ?_⟩
    · rw [hsent, hshow.sent, ofInt_charInt, List.append_assoc, List.singleton_append]
    · filter_upwards [hshow.ret, hrun] with n hn hrun
      rw [List.cons_append, vtprintf_char (Ne.symm hc₀) hc, bind_ret hn, hrun, endsLone_char hc]

/-! ## Signed and unsigned -/

theorem numeral_ne_nil (base n : Nat) : numeral base n ≠ [] := by
  unfold numeral
  split
  · exact List.cons_ne_nil _ _
  · rename_i hn
    rw [ne_eq, List.reverse_eq_nil_iff, List.map_eq_nil_iff]
    exact Nat.digits_ne_nil_iff_ne_zero.mpr hn

/-- A negative number is shown otherwise than the reference shows it, from the first character on. -/
theorem unsigned_append_ne {w : Word} (h : w.toInt < 0) (xs ys : List Byte) : unsigned w ++ xs ≠ decimal w ++ ys := by
  obtain ⟨c, cs, hcs⟩ := List.exists_cons_of_ne_nil (numeral_ne_nil 10 w.toNat)
  have hmem : c ∈ numeral 10 w.toNat := hcs ▸ List.mem_cons_self
  obtain ⟨d, hd, rfl⟩ := mem_numeral (by decide) (by decide) c hmem
  have hminus : ∀ d < 16, digitChar d ≠ 45 := by decide
  unfold unsigned decimal
  rw [if_pos h, hcs]
  exact fun he => hminus d hd (List.cons.inj he).1

theorem decimal_eq_unsigned {w : Word} (h : 0 ≤ w.toInt) : decimal w = unsigned w :=
  if_neg (not_lt.mpr h)

/-- The two texts agree exactly when no `%d` argument is negative. -/
theorem render_unsigned : ∀ (ps : List Piece) {args : List Arg} {text : List Byte},
    renderWith decimal ps args = some text →
      ∃ text', renderWith unsigned ps args = some text' ∧ (text' = text ↔ NonNegative ps args) := by
  intro ps
  induction ps with
  | nil =>
    intro args text h
    cases args with
    | nil => exact ⟨text, h, iff_of_true rfl trivial⟩
    | cons a args => exact absurd h nofun
  | cons piece ps ih =>
    intro args text h
    cases piece with
    | char c =>
      obtain ⟨rest, hrest, rfl⟩ := Option.map_eq_some_iff.mp h
      obtain ⟨rest', hrest', hiff⟩ := ih hrest
      refine ⟨c :: rest', Option.map_eq_some_iff.mpr ⟨rest', hrest', rfl⟩, ?_⟩
      rw [List.cons_inj_right, hiff]
      rfl
    | other c => exact ih h
    | conv k =>
      cases args with
      | nil => exact absurd h nofun
      | cons a args =>
        obtain ⟨xs, hxs, h⟩ := Option.bind_eq_some_iff.mp h
        obtain ⟨rest, hrest, rfl⟩ := Option.map_eq_some_iff.mp h
        obtain ⟨rest', hrest', hiff⟩ := ih hrest
        -- only a `%d` depends on how a number is shown
        have hsame : k.text unsigned a = some xs →
            (NonNegative (.conv k :: ps) (a :: args) ↔ NonNegative ps args) →
            ∃ text', renderWith unsigned (.conv k :: ps) (a :: args) = some text' ∧
              (text' = xs ++ rest ↔ NonNegative (.conv k :: ps) (a :: args)) := by
          intro hx hn
          refine ⟨xs ++ rest', ?_, by rw [hn, List.append_right_inj, hiff]⟩
          exact Option.bind_eq_some_iff.mpr ⟨xs, hx, Option.map_eq_some_iff.mpr ⟨rest', hrest', rfl⟩⟩
        cases k with
        | char =>
          cases a with
          | int w => exact hsame hxs Iff.rfl
          | str s => exact absurd hxs nofun
          | ptr w => exact absurd hxs nofun
        | int =>
          cases a with
          | int w =>
            obtain rfl : decimal w = xs := Option.some.inj hxs
            rcases lt_or_ge w.toInt 0 with hneg | hpos
            · refine ⟨unsigned w ++ rest', ?_, iff_of_false (unsigned_append_ne hneg _ _) fun hn => ?_⟩
              · exact Option.bind_eq_some_iff.mpr ⟨unsigned w, rfl, Option.map_eq_some_iff.mpr ⟨rest', hrest', rfl⟩⟩
              · exact not_lt.mpr hn.1 hneg
            · exact hsame (congrArg some (decimal_eq_unsigned hpos).symm) (and_iff_right hpos)
          | str s => exact absurd hxs nofun
          | ptr w => exact absurd hxs nofun
        | string =>
          cases a with
          | str s => exact hsame hxs Iff.rfl
          | int w => exact absurd hxs nofun
          | ptr w => exact absurd hxs nofun
        | pointer =>
          cases a with
          | ptr w => exact hsame hxs Iff.rfl
          | int w => exact absurd hxs nofun
          | str s => exact absurd hxs nofun

/-- The text goes out as it should exactly when neither happens. -/
theorem prints_iff {fmt : List Byte} (hnul : 0 ∉ fmt) {args : List Arg} {text : List Byte}
    (htext : render fmt args = some text) {t : Terminal} (hacc : Accepts t) :
    Prints T t fmt args text ↔ endsLone fmt = false ∧ NonNegative (pieces fmt) args := by
  obtain ⟨text', htext', hsame⟩ := render_unsigned (pieces fmt) htext
  obtain ⟨t', hsent, hrun⟩ := vtprintf_run (T := T) fmt hnul htext' hacc
  constructor
  · rintro ⟨t'', hret, hsent'⟩
    obtain ⟨n, hn, hn'⟩ := (hrun.and hret).exists
    rw [hn'] at hn
    cases hlone : endsLone fmt with
    | true =>
      rw [if_pos hlone] at hn
      exact absurd hn nofun
    | false =>
      rw [if_neg (hlone ▸ Bool.false_ne_true)] at hn
      rw [(Outcome.ret.inj hn).2, hsent] at hsent'
      exact ⟨rfl, hsame.mp (List.append_cancel_left hsent')⟩
  · rintro ⟨hlone, hnonneg⟩
    refine ⟨t', ?_, by rw [hsent, hsame.mpr hnonneg]⟩
    simpa only [hlone, Bool.false_eq_true, if_false] using hrun

/-- `vtprintf` returns without having read past the NUL and has transmitted the reference text if and only if the
format does not end in a lone `%` and no `%d` argument is negative; `convert` always stays inside its buffer. -/
theorem vtprintf_prints_iff {fmt : List Byte} (hnul : 0 ∉ fmt) {args : List Arg} {text : List Byte}
    (htext : render fmt args = some text) {t : Terminal} (hacc : Accepts t) :
    (Prints T t fmt args text ↔ endsLone fmt = false ∧ NonNegative (pieces fmt) args) ∧
    ∀ num base : Word, base = 10 ∨ base = 16 → ∃ s b, convert num base t = .ret s { t with buffer := b } := by
  refine ⟨prints_iff hnul htext hacc, ?_⟩
  rintro num base (rfl | rfl)
  · obtain ⟨b, hret⟩ := convert_ret num (show 1 < (10 : Word).toNat by decide) (by decide) t
    exact ⟨_, b, hret⟩
  · obtain ⟨b, hret⟩ := convert_ret num (show 1 < (16 : Word).toNat by decide) (by decide) t
    exact ⟨_, b, hret⟩

/-! ## A terminal that accepts every character -/

/-- Every character is shown at once. -/
def accepting : Terminal :=
  let script := fun _ => .answer stReady 0 stTransmitted (by decide) (by decide)
  ⟨⟨script, 0, .idle⟩, ⟨script, 0, .idle⟩, [], fun _ => 0, fun _ => 0⟩

theorem accepts_accepting : Accepts accepting := ⟨rfl, fun _ _ => rfl⟩

/-- `"%d: %s"` with 42 and `"ok"`. -/
theorem vtprintf_prints_iff_answer :
    Prints .umps accepting [37, 100, 58, 32, 37, 115] [.int 42, .str [111, 107, 0]] [52, 50, 58, 32, 111, 107] := by
  have htext : render [37, 100, 58, 32, 37, 115] [.int 42, .str [111, 107, 0]] = some [52, 50, 58, 32, 111, 107] := by
    decide +kernel
  exact (vtprintf_prints_iff (by decide) htext accepts_accepting).1.mpr ⟨rfl, by decide, trivial⟩

/-- `"%d"` with -5 does not show `-5`, and `"%"` is read past its NUL. -/
theorem vtprintf_misprints :
    render [37, 100] [.int (-5)] = some [45, 53] ∧ ¬ Prints .umps accepting [37, 100] [.int (-5)] [45, 53] ∧
    render [37] [] = some [] ∧ ¬ Prints .umps accepting [37] [] [] := by
  have hneg : render [37, 100] [.int (-5)] = some [45, 53] := by decide +kernel
  have hlone : render [37] [] = some [] := by decide
  refine ⟨hneg, mt (prints_iff (by decide) hneg accepts_accepting).mp ?_, hlone,
    mt (prints_iff (by decide) hlone accepts_accepting).mp ?_⟩
  · exact fun h => absurd h.2.1 (by decide)
  · exact fun h => absurd h.1 (by decide)

end Bikaya.Results
