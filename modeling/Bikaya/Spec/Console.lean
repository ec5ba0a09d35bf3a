import Mathlib.Data.Nat.Digits.Defs
import Mathlib.Order.Filter.AtTopBot.Defs
import Bikaya.Model.Terminal

/-!
# What `terminal.c` is for

What a receiver hands over (`char?`), what a call of `tgets` and a series of calls should leave in the buffer
(`Delivered`, `Calls`), and what a format and its arguments should look like on the terminal (`render`). A call
ends once the polling has enough rounds.
-/

namespace Bikaya.Spec
open Bikaya.Lib Bikaya.Model

/-! ## Receiving -/

/-- The character received, if the attempt succeeded. -/
def char? : Response → Option Byte
  | .unready _ _ => none
  | .answer _ _ done _ _ =>
    if done &&& termStatusMask = stReceived then some ((done >>> charOffset).setWidth 8) else none

/-- The characters received in the attempts between two positions. -/
def received (script : Nat → Response) (first last : Nat) : List Byte :=
  (List.range' first (last - first)).filterMap fun i => char? (script i)

/-- A terminal whose receiver is idle and will answer as the script says from a position on. -/
def receiving (t : Terminal) (script : Nat → Response) (pos : Nat) : Terminal :=
  { t with rx := ⟨script, pos, .idle⟩ }

/-- The buffer holds the characters `xs` and a NUL. -/
def Holds (t : Terminal) (buf : Word) (xs : List Byte) : Prop :=
  (∀ i (h : i < xs.length), t.mem (buf + BitVec.ofNat 32 i) = xs[i]) ∧ t.mem (buf + BitVec.ofNat 32 xs.length) = 0

/-- A call of `tgets` on `t` that returned `r` in `t'` has stored the characters `xs` as it should. -/
structure Delivered (t t' : Terminal) (buf : Word) (size : Int) (r : Option Word) (xs : List Byte) : Prop where
  /-- Exactly the characters received by this call. -/
  exact : xs = received t.rx.script t.rx.pos t'.rx.pos
  holds : Holds t' buf xs
  inside : ∀ a, (∀ i < size.toNat, a ≠ buf + BitVec.ofNat 32 i) → t'.mem a = t.mem a
  /-- No newline but the last character, which is one unless the buffer is full. -/
  first : newline ∉ xs.dropLast
  stop : xs.getLast? = some newline ∨ xs.length = (size - 1).toNat
  fits : xs.length ≤ (size - 1).toNat
  null : r = none ↔ xs.getLast? = some newline
  pointer : r = none ∨ r = some buf

/-- `tgets` returns as soon as every operation of the receiver ends, and has delivered what was received. -/
def Delivers (T : Target) (t : Terminal) (buf : Word) (size : Int) : Prop :=
  ∃ r t', (∀ᶠ n in Filter.atTop, tgets T n buf size t = .ret r t') ∧
    Delivered t t' buf size r (received t.rx.script t.rx.pos t'.rx.pos)

/-- Among `len` attempts, none fails that is not behind a newline. -/
def Clean (script : Nat → Response) (pos len : Nat) : Prop :=
  ∀ k < len, (∀ j < k, char? (script (pos + j)) ≠ some newline) → char? (script (pos + k)) ≠ none

/-- The receiver hands over a line: attempt after attempt, its characters. -/
def Spells (script : Nat → Response) (pos : Nat) (xs : List Byte) : Prop :=
  ∀ i (h : i < xs.length), char? (script (pos + i)) = some xs[i]

/-- Calls of `tgets` with the given sizes, until one returns NULL: what each of them delivers. -/
inductive Calls (T : Target) (buf : Word) : Terminal → List Int → List (List Byte) → Prop where
  | nil {t : Terminal} : Calls T buf t [] []
  | more {t t' : Terminal} {size : Int} {sizes : List Int} {xs : List Byte} {xss : List (List Byte)} :
      (∀ᶠ n in Filter.atTop, tgets T n buf size t = .ret (some buf) t') → Delivered t t' buf size (some buf) xs →
      Calls T buf t' sizes xss → Calls T buf t (size :: sizes) (xs :: xss)
  | last {t t' : Terminal} {size : Int} {sizes : List Int} {xs : List Byte} :
      (∀ᶠ n in Filter.atTop, tgets T n buf size t = .ret none t') → Delivered t t' buf size none xs →
      Calls T buf t (size :: sizes) [xs]

/-- How many characters calls with the given sizes have room for. -/
def room (sizes : List Int) : Nat := (sizes.map fun size => (size - 1).toNat).sum

/-! ## Printing -/

/-- The transmitter shows a character. -/
def Shown : Response → Prop
  | .unready _ _ => False
  | .answer _ _ done _ _ => done &&& termStatusMask = stTransmitted

/-- The transmitter is idle and accepts every character from here on. -/
structure Accepts (t : Terminal) : Prop where
  idle : t.tx.phase = .idle
  shown : ∀ i ≥ t.tx.pos, Shown (t.tx.script i)

/-- `0` to `9`, `A` to `F`. -/
def digitChar (d : Nat) : Byte := BitVec.ofNat 8 (if d < 10 then 48 + d else 55 + d)

/-- A number in a base, most significant digit first, without leading zeros. -/
def numeral (base n : Nat) : List Byte :=
  if n = 0 then [digitChar 0] else ((Nat.digits base n).map digitChar).reverse

/-- The decimal representation of a signed `int`. -/
def decimal (w : Word) : List Byte :=
  if w.toInt < 0 then 45 :: numeral 10 w.toInt.natAbs else numeral 10 w.toNat

/-- The conversions. -/
inductive Conv where
  | char
  | int
  | string
  | pointer

def Conv.ofByte (c : Byte) : Option Conv :=
  if c = 99 then some .char else if c = 100 then some .int else if c = 115 then some .string
  else if c = 112 then some .pointer else none

/-- What a format consists of: ordinary characters, conversions, and `%` before any other character. -/
inductive Piece where
  | char (c : Byte)
  | conv (k : Conv)
  | other (c : Byte)

def pieces : List Byte → List Piece
  | [] => []
  | c :: fmt =>
    if c = percent then
      match fmt with
      | [] => []
      | c :: fmt => (Conv.ofByte c).elim (.other c) .conv :: pieces fmt
    else .char c :: pieces fmt

/-- The format ends in a `%` without a conversion. -/
def endsLone : List Byte → Bool
  | [] => false
  | c :: fmt =>
    if c = percent then
      match fmt with
      | [] => true
      | _ :: fmt => endsLone fmt
    else endsLone fmt

/-- A conversion of its argument, where it is one of the right type; `dec` represents an `int`. -/
def Conv.text (dec : Word → List Byte) : Conv → Arg → Option (List Byte)
  | .char, .int w => some [w.setWidth 8]
  | .int, .int w => some (dec w)
  | .string, .str s => if 0 ∈ s then some (s.takeWhile (· ≠ 0)) else none
  | .pointer, .ptr w => some (48 :: 120 :: numeral 16 w.toNat)
  | _, _ => none

/-- The text of a format and its arguments, where these match it. -/
def renderWith (dec : Word → List Byte) : List Piece → List Arg → Option (List Byte)
  | [], [] => some []
  | [], _ :: _ => none
  | .char c :: ps, args => (renderWith dec ps args).map (c :: ·)
  | .other _ :: ps, args => renderWith dec ps args
  | .conv _ :: _, [] => none
  | .conv k :: ps, a :: args => (k.text dec a).bind fun xs => (renderWith dec ps args).map (xs ++ ·)

/-- The reference: `%d` shows the decimal representation of the signed argument. -/
def render (fmt : List Byte) (args : List Arg) : Option (List Byte) := renderWith decimal (pieces fmt) args

/-- No argument of a `%d` is negative. -/
def NonNegative : List Piece → List Arg → Prop
  | .conv .int :: ps, .int w :: args => 0 ≤ w.toInt ∧ NonNegative ps args
  | .conv _ :: ps, _ :: args => NonNegative ps args
  | .char _ :: ps, args => NonNegative ps args
  | .other _ :: ps, args => NonNegative ps args
  | _, _ => True

/-- `vtprintf` returns, without reading past the NUL of the format, and has transmitted the text. -/
def Prints (T : Target) (t : Terminal) (fmt : List Byte) (args : List Arg) (text : List Byte) : Prop :=
  ∃ t', (∀ᶠ n in Filter.atTop, vtprintf T n (fmt ++ [0]) args t = .ret () t') ∧ t'.sent = t.sent ++ text

end Bikaya.Spec
