import Bikaya.Model.Scheduler
import Bikaya.Refine.AslOps
import Bikaya.Spec.Places

/-!
# Kernel states

What the primitive operations of the kernel monad do to a `KState`, and `Sound`: the pool of a state
represents lists that place every PCB.
-/

namespace Bikaya.Model
open Bikaya.Lib

variable {T : Target}

namespace KState

def setPool (s : KState T) (pool : Pool T) : KState T := { s with m := { s.m with pool := pool } }

/-- Add to the history. -/
def push (s : KState T) (o : Obs T) : KState T := { s with hist := (o, s.m) :: s.hist }

end KState
end Bikaya.Model

namespace Bikaya.Refine
open Bikaya.Lib Bikaya.Model Bikaya.Spec

variable {T : Target}

/-- The pool holds the lists of `q`, which place all PCBs but those in `out`, and the process tree. -/
structure Sound (pool : Pool T) (q : Queues) (out : List Pid) : Prop where
  rep : Rep pool q
  placed : Placed q out
  tree : Tree q

theorem pool_ret {α : Type} {x : PM T α} {s : KState T} {a : α} {pool' : Pool T}
    (h : x s.m.pool = .ret a pool') : KM.pool x s = .ret a (s.setPool pool') := by
  unfold KM.pool Exec.zoom
  simp only [h]
  rfl

theorem note_ret (o : Obs T) (s : KState T) : KM.note o s = .ret () (s.push o) := rfl

end Bikaya.Refine
