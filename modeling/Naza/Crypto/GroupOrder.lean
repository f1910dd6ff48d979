import Naza.Crypto.ScalarMult
import Naza.Lib.Primality

/-!
# The group order is prime

By certificates, down to numbers of at most eight digits.
-/

open Lib

namespace Naza

namespace CryptoOps

def smallPrimes : List ℕ :=
  [2, 3, 5, 7, 11, 23, 41, 43, 73, 269, 307, 1361, 2851, 5879, 30703, 82163, 132667, 137849,
    531581, 1224481, 58964693]

theorem prime_smallPrimes : ∀ q ∈ smallPrimes, q.Prime := by
  simp only [smallPrimes, List.forall_mem_cons]
  norm_num

/-- The last one is for the group order. -/
def orderCertificates : List Certificate :=
  [(1257559732178653, 2, 64, [2, 2, 3, 7, 23, 531581, 1224481]),
    (4434155615661930479, 17, 64, [2, 41, 43, 1257559732178653]),
    (172054593956031949258510691, 2, 128, [2, 5, 1361, 2851, 4434155615661930479]),
    (292386187, 2, 64, [2, 3, 3, 3, 3, 307, 5879]),
    (213441916511, 13, 64, [2, 5, 73, 292386187]),
    (19757330305831588566944191468367130476339, 2, 256,
      [2, 269, 213441916511, 172054593956031949258510691]),
    (276602624281642239937218680557139826668747, 2, 256,
      [2, 7, 19757330305831588566944191468367130476339]),
    (3044861653679985063343, 5, 128, [2, 3, 11, 30703, 82163, 132667, 137849]),
    (198211423230930754013084525763697, 5, 128,
      [2, 2, 2, 2, 3, 23, 58964693, 3044861653679985063343]),
    (groupOrder, 2, 256, [2, 2, 3, 11, 198211423230930754013084525763697,
      276602624281642239937218680557139826668747])]

theorem chain_orderCertificates : Chain smallPrimes orderCertificates := by
  decide +kernel

theorem prime_groupOrder : groupOrder.Prime := by
  have hlast : orderCertificates.getLast? = some (groupOrder, 2, 256,
      [2, 2, 3, 11, 198211423230930754013084525763697,
        276602624281642239937218680557139826668747]) := rfl
  exact chain_orderCertificates.prime prime_smallPrimes _ (List.mem_of_getLast? hlast)

end CryptoOps

end Naza
