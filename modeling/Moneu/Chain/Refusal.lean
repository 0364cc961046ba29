/-
# A refused reorganisation

`ActivateBestChainLocked` that returns false has taken blocks off and put blocks on, and back again.  With
distinct txids nothing of that is left to see.
-/
import Moneu.Chain.Totals

namespace Moneu

open NetParams Journal UTXOSet BlockData ChainState

end Moneu
