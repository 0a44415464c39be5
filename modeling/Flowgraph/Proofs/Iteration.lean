import Mathlib.Data.PFun
/-!
# Loops

A loop takes steps until its state is done (`iterate`). It is a partial function: it has no value if it goes on forever, so an
equation that gives it one says that it ends.
-/

namespace Flowgraph

variable {σ ε : Type}

/-- Takes steps until the state is done or a step fails. -/
def iterate (done : σ → Bool) (step : σ → Except ε σ) (s : σ) : ExceptT ε Part σ :=
  ExceptT.mk <| PFun.fix (fun s => Part.some <|
    if done s then Sum.inl (.ok s)
    else match step s with
      | .ok s' => Sum.inr s'
      | .error fault => Sum.inl (.error fault)) s

variable {done : σ → Bool} {step : σ → Except ε σ} {s s' : σ} {fault : ε}

theorem iterate_of_done (hdone : done s = true) : iterate done step s = pure s := by
  refine Part.eq_some_iff.2 (PFun.fix_stop ?_)
  rw [hdone]
  exact Part.mem_some _

theorem iterate_of_step (hdone : done s = false) (hstep : step s = .ok s') :
    iterate done step s = iterate done step s' := by
  refine PFun.fix_fwd_eq ?_
  rw [hdone, hstep]
  exact Part.mem_some _

theorem iterate_of_error (hdone : done s = false) (hstep : step s = .error fault) :
    iterate done step s = throw fault := by
  refine Part.eq_some_iff.2 (PFun.fix_stop ?_)
  rw [hdone, hstep]
  exact Part.mem_some _

theorem throw_bind {α β : Type} (fault : ε) (f : α → ExceptT ε Part β) :
    (throw fault : ExceptT ε Part α) >>= f = throw fault := by
  apply ExceptT.ext
  rw [ExceptT.run_bind, ExceptT.run_throw, ExceptT.run_throw, pure_bind]

end Flowgraph
