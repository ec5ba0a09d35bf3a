import Bikaya.Model.Terminal

/-!
# `src/printer.c`

A printer answers like a side of a terminal, one attempt after the other as its `script` says, but its status is
compared as a whole. What it prints is the character in `data0` when the command comes.
-/

namespace Bikaya.Model
open Bikaya.Lib

/-- `CMD_PRINTCHR`. -/
abbrev cmdPrintChr : Word := 2

/-- How the printer answers one attempt: it is not ready, or it is ready, busy for some readings of its status and then
ends with the status `done`. -/
inductive PrinterResponse where
  | unready (status : Word) (h : status ≠ stReady)
  | answer (busy : Nat) (done : Word) (ended : done ≠ stBusy)

/-- What a command makes appear on the paper: nothing if the operation fails. -/
def PrinterResponse.shown (r : PrinterResponse) (c : Byte) : List Byte :=
  match r with
  | .unready _ _ => []
  | .answer _ done _ => if done = stReady then [c] else []

structure Printer where
  script : Nat → PrinterResponse
  /-- The next response. -/
  pos : Nat
  phase : Phase
  data0 : Word
  paper : List Byte

namespace Printer

/-- The status register is read. -/
def read (p : Printer) : Word × Printer :=
  match p.phase with
  | .idle =>
    match p.script p.pos with
    | .unready status _ => (status, { p with pos := p.pos + 1 })
    | .answer _ _ _ => (stReady, p)
  | .working 0 done => (done, p)
  | .working (n + 1) done => (stBusy, { p with phase := .working n done })

/-- The command register is written. -/
def write (p : Printer) (command : Word) : Printer :=
  match p.phase with
  | .idle =>
    if command = cmdAck then p
    else
      match p.script p.pos with
      | .unready _ _ => p
      | .answer busy done h => { p with
          phase := .working busy done
          paper := p.paper ++ (PrinterResponse.answer busy done h).shown (p.data0.setWidth 8) }
  | .working _ _ => if command = cmdAck then { p with pos := p.pos + 1, phase := .idle } else p

end Printer

/-- The code of `printer.c`. -/
abbrev PrM := Exec Printer Empty Fault

/-- `printer0->status`. -/
def printerStatus : PrM Word := fun p => .ret p.read.1 p.read.2

/-- `printer0->command = command`. -/
def printerCommand (command : Word) : PrM Unit := Exec.modify fun p => p.write command

/-- `printer0->data0 = c`. -/
def printerData (w : Word) : PrM Unit := Exec.modify fun p => { p with data0 := w }

/-- `while ((status = printer0->status) == ST_BUSY);`, for at most `n` readings. -/
def printerPoll : Nat → PrM Word
  | 0 => Exec.fault .hang
  | n + 1 => do
    let status ← printerStatus
    if status = stBusy then printerPoll n else pure status

variable (T : Target)

def prtrPutchar (n : Nat) (c : Byte) : PrM Int := do
  let status ← printerStatus
  if status ≠ stReady then pure (-1)
  else do
    printerData (BitVec.ofInt 32 (charInt T c))
    printerCommand cmdPrintChr
    let _ ← printerPoll n
    printerCommand cmdAck
    pure 0

def prtrPuts (n : Nat) : List Byte → PrM Unit
  | [] => Exec.fault .badIndex
  | c :: str => do
    if c = 0 then pure ()
    else do
      let r ← prtrPutchar T n c
      if r ≠ 0 then pure () else prtrPuts n str

end Bikaya.Model
