/-!
Exploring a finite transition system from a worklist.

`explore next` expands each state that it meets once, in the order in which the states were
queued, and answers the expanded states, the last one first.
-/

namespace RouteCheck

/-- Expand the states of `queue`, at most `fuel` of them, states already `done` apart. -/
def explore {σ : Type} [BEq σ] (next : σ → List σ) : Nat → List σ → List σ → List σ
  | 0, _, done => done
  | _ + 1, [], done => done
  | fuel + 1, s :: queue, done =>
    if done.contains s then explore next fuel queue done
    else explore next fuel (queue ++ next s) (s :: done)

end RouteCheck
