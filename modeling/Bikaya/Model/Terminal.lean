import Bikaya.Model.Types

/-!
# `src/terminal.c`

A terminal is two sides, each with a status and a command register. `Side` is the device behind them: it answers
the operations one after the other as its `script` says, and its registers are read and written one access at a
time. `Terminal` adds what has been transmitted, memory, and the static buffer of `convert`. A pointer into a
string is what remains of the object from there on; past its end nothing may be read.
-/

namespace Bikaya.Model
open Bikaya.Lib

abbrev Byte := BitVec 8

/-- `CHAR_OFFSET`. -/
abbrev charOffset : Nat := 8

/-- `CMD_TRANSMIT` (= `CMD_RECEIVE`). -/
abbrev cmdTransmit : Word := 2
abbrev cmdReceive : Word := cmdTransmit

/-- `ST_RECEIVED`. -/
abbrev stReceived : Word := stTransmitted

/-! ## The device -/

/-- A status with which a side takes a command. -/
def TakesCommand (status : Word) : Prop :=
  status &&& termStatusMask = stReady ∨ status &&& termStatusMask = stTransmitted

instance (status : Word) : Decidable (TakesCommand status) := by
  unfold TakesCommand
  infer_instance

/-- How a side answers one attempt: it is not ready, or it takes the command, is busy for some readings of its
status and then ends with the status `done`. -/
inductive Response where
  | unready (status : Word) (h : ¬ TakesCommand status)
  | answer (idle : Word) (busy : Nat) (done : Word) (takes : TakesCommand idle)
      (ended : done &&& termStatusMask ≠ stBusy)

inductive Phase where
  | idle
  | working (busy : Nat) (done : Word)

structure Side where
  script : Nat → Response
  /-- The next response. -/
  pos : Nat
  phase : Phase

namespace Side

/-- The status register is read. -/
def read (d : Side) : Word × Side :=
  match d.phase with
  | .idle =>
    match d.script d.pos with
    | .unready status _ => (status, { d with pos := d.pos + 1 })
    | .answer idle _ _ _ _ => (idle, d)
  | .working 0 done => (done, d)
  | .working (n + 1) done => (stBusy, { d with phase := .working n done })

/-- The command register is written. -/
def write (d : Side) (command : Word) : Side :=
  match d.phase with
  | .idle =>
    if command = cmdAck then d
    else
      match d.script d.pos with
      | .unready _ _ => d
      | .answer _ busy done _ _ => { d with phase := .working busy done }
  | .working _ _ => if command = cmdAck then { d with pos := d.pos + 1, phase := .idle } else d

end Side

structure Terminal where
  rx : Side
  tx : Side
  /-- The characters shown. -/
  sent : List Byte
  mem : Word → Byte
  /-- `convert`'s `static char buffer[64]`. -/
  buffer : Fin 64 → Byte

/-- The code of `terminal.c`. -/
abbrev TM := Exec Terminal Empty Fault

/-- `term->recv_status`. -/
def recvStatus : TM Word := fun t => .ret t.rx.read.1 { t with rx := t.rx.read.2 }

/-- `term->transm_status`. -/
def transmStatus : TM Word := fun t => .ret t.tx.read.1 { t with tx := t.tx.read.2 }

/-- `RX_STATUS(term)`. -/
def rxStatus : TM Word := do
  let status ← recvStatus
  pure (status &&& termStatusMask)

/-- `TX_STATUS(term)`. -/
def txStatus : TM Word := do
  let status ← transmStatus
  pure (status &&& termStatusMask)

/-- `term->recv_command = command`. -/
def recvCommand (command : Word) : TM Unit := Exec.modify fun t => { t with rx := t.rx.write command }

/-- The character that a command to the idle transmitter makes appear. -/
def shown (d : Side) (command : Word) : List Byte :=
  match d.phase, d.script d.pos with
  | .idle, .answer _ _ done _ _ =>
    if command ≠ cmdAck ∧ done &&& termStatusMask = stTransmitted then [(command >>> charOffset).setWidth 8] else []
  | _, _ => []

/-- `term->transm_command = command`. -/
def transmCommand (command : Word) : TM Unit := Exec.modify fun t =>
  { t with tx := t.tx.write command, sent := t.sent ++ shown t.tx command }

/-- `while ((stat = STATUS(term)) == ST_BUSY);`, for at most `n` readings. -/
def poll (status : TM Word) : Nat → TM Word
  | 0 => Exec.fault .hang
  | n + 1 => do
    let stat ← status
    if stat = stBusy then poll status n else pure stat

/-! ## Characters -/

variable (T : Target)

/-- A `char` converted to `int`. -/
def charInt (c : Byte) : Int :=
  match T with
  | .umps => c.toInt
  | .uarm => c.toNat

def tputchar (n : Nat) (c : Int) : TM Int := do
  let stat ← txStatus
  if stat ≠ stReady ∧ stat ≠ stTransmitted then pure (-1)
  else do
    transmCommand ((BitVec.ofInt 32 c <<< charOffset) ||| cmdTransmit)
    let stat ← poll txStatus n
    transmCommand cmdAck
    if stat ≠ stTransmitted then pure (-1) else pure 0

def tgetchar (n : Nat) : TM Int := do
  let stat ← rxStatus
  if stat ≠ stReady ∧ stat ≠ stReceived then pure (-1)
  else do
    recvCommand cmdReceive
    let stat ← poll rxStatus n
    let status ← recvStatus
    let c : Byte := (status >>> charOffset).setWidth 8
    recvCommand cmdAck
    if stat ≠ stReceived then pure (-1) else pure (charInt T c)

/-! ## Lines -/

def newline : Byte := 10

/-- `*addr = c`. -/
def storeByte (addr : Word) (c : Byte) : TM Unit :=
  Exec.modify fun t => { t with mem := Function.update t.mem addr c }

/-- The loop of `tgets` from `i` on, with `len - i` rounds to go. -/
def tgetsFrom (n : Nat) (buf : Word) : Nat → Nat → TM (Option Word)
  | 0, i => do
    storeByte (buf + BitVec.ofNat 32 i) 0
    pure (some buf)
  | k + 1, i => do
    let r ← tgetchar T n
    let c : Byte := BitVec.ofInt 8 r
    storeByte (buf + BitVec.ofNat 32 i) c
    if c = newline then do
      storeByte (buf + BitVec.ofNat 32 (i + 1)) 0
      pure none
    else tgetsFrom n buf k (i + 1)

def tgets (n : Nat) (buf : Word) (size : Int) : TM (Option Word) := tgetsFrom T n buf (size - 1).toNat 0

/-! ## Strings -/

/-- `const char digits[]`. -/
def digits : List Byte := [48, 49, 50, 51, 52, 53, 54, 55, 56, 57, 65, 66, 67, 68, 69, 70, 0]

/-- `buffer[i] = c`. -/
def setBuffer (i : Nat) (c : Byte) : TM Unit :=
  if h : i < 64 then Exec.modify fun t => { t with buffer := Function.update t.buffer ⟨i, h⟩ c }
  else Exec.fault .badIndex

/-- The loop of `convert`, with `ptr` at an index of the buffer. -/
def convertFrom (base : Word) : Nat → Word → TM Nat
  | 0, _ => Exec.fault .badIndex
  | ptr + 1, num => do
    let digit ← Exec.orFault .badIndex digits[(num % base).toNat]?
    setBuffer ptr digit
    if num / base ≠ 0 then convertFrom base ptr (num / base) else pure ptr

/-- The result points into the buffer. -/
def convert (num base : Word) : TM (List Byte) := do
  setBuffer 63 0
  let ptr ← convertFrom base 63 num
  let t ← Exec.read
  pure ((List.ofFn t.buffer).drop ptr)

def tputs (n : Nat) : List Byte → TM Unit
  | [] => Exec.fault .badIndex
  | c :: str => do
    if c = 0 then pure ()
    else do
      let r ← tputchar n (charInt T c)
      if r ≠ 0 then pure () else tputs n str

/-- An argument of `tprintf`: an `int`, a string (the rest of its object), or another pointer. -/
inductive Arg where
  | int (w : Word)
  | str (s : List Byte)
  | ptr (w : Word)

/-- `'%'`. -/
def percent : Byte := 37

/-- One conversion, by its character; the arguments that remain. An argument of another type or a missing one is
an access to no object of the type. -/
def conversion (n : Nat) (c : Byte) (args : List Arg) : TM (List Arg) :=
  if c = 99 then
    match args with
    | .int w :: args => do
      let _ ← tputchar n w.toInt
      pure args
    | _ => Exec.fault .wild
  else if c = 100 then
    match args with
    | .int w :: args => do
      let s ← convert w 10
      tputs T n s
      pure args
    | _ => Exec.fault .wild
  else if c = 115 then
    match args with
    | .str s :: args => do
      tputs T n s
      pure args
    | _ => Exec.fault .wild
  else if c = 112 then
    match args with
    | .ptr w :: args => do
      tputs T n [48, 120, 0]
      let s ← convert w 16
      tputs T n s
      pure args
    | _ => Exec.fault .wild
  else pure args

def vtprintf (n : Nat) : List Byte → List Arg → TM Unit
  | [], _ => Exec.fault .badIndex
  | c :: fmt, args => do
    if c = 0 then pure ()
    else if c = percent then
      match fmt with
      | [] => Exec.fault .badIndex
      | c :: fmt => do
        let args ← conversion T n c args
        vtprintf n fmt args
    else do
      let _ ← tputchar n (charInt T c)
      vtprintf n fmt args

def tprintf (n : Nat) (fmt : List Byte) (args : List Arg) : TM Unit := vtprintf T n fmt args

end Bikaya.Model
