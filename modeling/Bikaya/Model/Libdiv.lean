import Bikaya.Lib.Arm

/-!
# `uarm/libdiv.s`

The division routines that the compiler calls on uARM, line by line.
-/

namespace Bikaya.Model.Libdiv
open Bikaya.Lib.Arm Bikaya.Lib.Arm.Instr Bikaya.Lib.Arm.Reg Bikaya.Lib.Arm.Operand

inductive Label where
  | udivmodsi4 | L4 | L5 | L8 | L7 | L6 | L9 | L3
  | aeabiUidiv | aeabiUidivmod
  | aeabiIdiv | L13 | L14 | L15 | aeabiIdivmod
  deriving DecidableEq

def udivmodsi4 : List (Instr Label) := [
  label .udivmodsi4,
  strPre fp sp (-4),
  add fp sp (imm 0),
  sub sp sp (imm 28),
  str r0 fp (-16),
  str r1 fp (-20),
  str r2 fp (-24),
  mov r3 (imm 0),
  str r3 fp (-8),
  mov r3 (imm 1),
  str r3 fp (-12),
  ldr r3 fp (-20),
  cmp r3 (imm 0),
  b .ne .L4,
  mov r3 (imm 0),
  b .al .L3,
  label .L5,
  ldr r3 fp (-20),
  mov r3 (asl r3 1),
  str r3 fp (-20),
  ldr r3 fp (-12),
  mov r3 (asl r3 1),
  str r3 fp (-12),
  label .L4,
  ldr r3 fp (-20),
  cmp r3 (imm 0),
  b .ge .L5,
  b .al .L6,
  label .L8,
  ldr r2 fp (-20),
  ldr r3 fp (-16),
  cmp r2 (reg r3),
  b .hi .L7,
  ldr r2 fp (-16),
  ldr r3 fp (-20),
  rsb r3 r3 (reg r2),
  str r3 fp (-16),
  ldr r2 fp (-8),
  ldr r3 fp (-12),
  add r3 r2 (reg r3),
  str r3 fp (-8),
  label .L7,
  ldr r3 fp (-20),
  mov r3 (lsr r3 1),
  str r3 fp (-20),
  ldr r3 fp (-12),
  mov r3 (lsr r3 1),
  str r3 fp (-12),
  label .L6,
  ldr r3 fp (-12),
  cmp r3 (imm 0),
  b .ne .L8,
  ldr r3 fp (-24),
  cmp r3 (imm 0),
  b .eq .L9,
  ldr r3 fp (-24),
  ldr r2 fp (-16),
  str r2 r3 0,
  label .L9,
  ldr r3 fp (-8),
  label .L3,
  mov r0 (reg r3),
  sub sp fp (imm 0),
  ldrPost fp sp 4,
  bx lr]

def aeabiUidiv : List (Instr Label) := [
  label .aeabiUidiv,
  stmfd sp [fp, lr],
  add fp sp (imm 4),
  sub sp sp (imm 8),
  str r0 fp (-8),
  str r1 fp (-12),
  mov r2 (imm 0),
  ldr r1 fp (-12),
  ldr r0 fp (-8),
  bl .udivmodsi4,
  mov r3 (reg r0),
  mov r0 (reg r3),
  sub sp fp (imm 4),
  ldmfd sp [fp, lr],
  bx lr]

def aeabiUidivmod : List (Instr Label) := [
  label .aeabiUidivmod,
  stmfd sp [r0, r1, ip, lr],
  bl .aeabiUidiv,
  ldmfd sp [r1, r2, ip, lr],
  mul r3 r0 r2,
  sub r1 r1 (reg r3),
  bx lr]

def aeabiIdiv : List (Instr Label) := [
  label .aeabiIdiv,
  stmfd sp [fp, lr],
  add fp sp (imm 4),
  sub sp sp (imm 16),
  str r0 fp (-16),
  str r1 fp (-20),
  mov r3 (imm 0),
  str r3 fp (-8),
  ldr r3 fp (-16),
  cmp r3 (imm 0),
  b .ge .L13,
  ldr r3 fp (-16),
  rsb r3 r3 (imm 0),
  str r3 fp (-16),
  mov r3 (imm 1),
  str r3 fp (-8),
  label .L13,
  ldr r3 fp (-20),
  cmp r3 (imm 0),
  b .ge .L14,
  ldr r3 fp (-20),
  rsb r3 r3 (imm 0),
  str r3 fp (-20),
  ldr r3 fp (-8),
  eor r3 r3 (imm 1),
  str r3 fp (-8),
  label .L14,
  ldr r3 fp (-16),
  ldr r1 fp (-20),
  mov r2 (imm 0),
  mov r0 (reg r3),
  bl .udivmodsi4,
  mov r3 (reg r0),
  str r3 fp (-12),
  ldr r3 fp (-8),
  cmp r3 (imm 0),
  b .eq .L15,
  ldr r3 fp (-12),
  rsb r3 r3 (imm 0),
  str r3 fp (-12),
  label .L15,
  ldr r3 fp (-12),
  mov r0 (reg r3),
  sub sp fp (imm 4),
  ldmfd sp [fp, lr],
  bx lr]

def aeabiIdivmod : List (Instr Label) := [
  label .aeabiIdivmod,
  stmfd sp [r0, r1, ip, lr],
  bl .aeabiIdiv,
  ldmfd sp [r1, r2, ip, lr],
  mul r3 r0 r2,
  sub r1 r1 (reg r3),
  bx lr]

def code : List (Instr Label) := udivmodsi4 ++ aeabiUidiv ++ aeabiUidivmod ++ aeabiIdiv ++ aeabiIdivmod

end Bikaya.Model.Libdiv
