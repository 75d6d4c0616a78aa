import BundleStore.Model.FrameWork

set_option autoImplicit false

/-!
# The workers of the web server

SOURCE: src/cwf/frame.cc:141-325

Every worker is a process that serves one request after the other. The workers share
nothing but the file system.
-/

namespace BundleStore

namespace Cwf

open Machine Posix

/-- What comes in with a request: its body and its environment, what the clock shows while
it is served, and how often an `Allocate` goes round. -/
structure Arrival where
  stream : InStream
  envp : List Bytes
  clock : ℕ → Calendar
  rounds : ℕ

/-- The request that `Init` makes of it. -/
def Arrival.request (arrival : Arrival) : Request :=
  (Request.init arrival.stream arrival.envp).1

/-- A worker between its rounds: the requests that it has served, each with its whole
output, the writers that were left, and whether it goes on. -/
structure Worker where
  served : List (Request × Bytes) := []
  left : List Writer := []
  alive : Bool := true

namespace Worker

/-- After a round. -/
def after (worker : Worker) (request : Request) : Served → Worker
  | .output out live =>
      { worker with
        served := worker.served ++ [(request, out)]
        left := worker.left ++ live.map Prod.snd }
  | .stopped => { worker with alive := false }

def run (setting : Setting) (worker : Worker) (arrival : Arrival) : Serving Worker := do
  let served ← fastcgiRound setting arrival.clock arrival.rounds arrival.stream arrival.envp
  pure (worker.after arrival.request served)

end Worker

section System

variable {ι : Type} [DecidableEq ι]

/-- A reader's call changes nothing but `errno`. What it answers is not told here. -/
def ReadsOnly (i : ι) (w w' : World ι ι) : Prop :=
  w' = w ∨ ∃ e, w' = w.setErrno i e

/-- What the calls of a worker do. -/
def serverSem (cwd : Loc) (i : ι) :
    (o : ServerCall) → World ι ι → o.Answer → World ι ι → Prop
  | .sys o, w, a, w' => World.Sem cwd id i o w a w'
  | .reading _, w, _, w' => ReadsOnly i w w'

/-- The workers `ι`, each a process of its own. -/
def webSystem (cwd : Loc) (setting : Setting) :
    System ServerCall ServerCall.Answer ι (World ι ι) Worker Arrival where
  sem := serverSem cwd
  enabled _ worker _ _ := worker.alive
  body _ worker arrival := worker.run setting arrival

end System

end Cwf

end BundleStore
