import Bixd.Ledger.TrustLine

-- The fields of trust lines.

open TrustLine

namespace trustCreate

end trustCreate
