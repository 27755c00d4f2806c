import Mathlib

-- The result of a transaction.
abbrev TER := Int

def telLOCAL_ERROR           : TER := -399
def telBAD_DOMAIN            : TER := -398
def telBAD_PUBLIC_KEY        : TER := -396
def telFAILED_PROCESSING     : TER := -395
def telINSUF_FEE_P           : TER := -394
def temMALFORMED             : TER := -299
def temBAD_FEE               : TER := -295
def temBAD_REGKEY            : TER := -289
def temBAD_SIGNATURE         : TER := -282
def temBAD_SRC_ACCOUNT       : TER := -281
def temBAD_TRANSFER_RATE     : TER := -280
def temINVALID               : TER := -277
def temINVALID_FLAG          : TER := -276
def temBAD_SIGNER            : TER := -272
def temBAD_QUORUM            : TER := -271
def temBAD_WEIGHT            : TER := -270
def temBAD_TICK_SIZE         : TER := -269
def temSEQ_AND_TICKET        : TER := -263
def tefFAILURE               : TER := -199
def tefALREADY               : TER := -198
def tefBAD_AUTH              : TER := -196
def tefBAD_LEDGER            : TER := -195
def tefEXCEPTION             : TER := -193
def tefINTERNAL              : TER := -192
def tefPAST_SEQ              : TER := -190
def tefWRONG_PRIOR           : TER := -189
def tefMASTER_DISABLED       : TER := -188
def tefMAX_LEDGER            : TER := -187
def tefBAD_SIGNATURE         : TER := -186
def tefBAD_QUORUM            : TER := -185
def tefNOT_MULTI_SIGNING     : TER := -184
def tefBAD_AUTH_MASTER       : TER := -183
def tefINVARIANT_FAILED      : TER := -182
def tefNO_TICKET             : TER := -180
def terRETRY                 : TER := -99
def terINSUF_FEE_B           : TER := -97
def terNO_ACCOUNT            : TER := -96
def terOWNERS                : TER := -93
def terPRE_SEQ               : TER := -92
def terPRE_TICKET            : TER := -88
def tesSUCCESS               : TER := 0
def tecCLAIM                 : TER := 100
def tecPATH_PARTIAL          : TER := 101
def tecUNFUNDED_OFFER        : TER := 103
def tecFAILED_PROCESSING     : TER := 105
def tecDIR_FULL              : TER := 121
def tecPATH_DRY              : TER := 128
def tecNO_ALTERNATIVE_KEY    : TER := 130
def tecOWNERS                : TER := 132
def tecINSUFF_FEE            : TER := 136
def tecNO_TARGET             : TER := 138
def tecINSUFFICIENT_RESERVE  : TER := 141
def tecNEED_MASTER_KEY       : TER := 142
def tecOVERSIZE              : TER := 145
def tecINVARIANT_FAILED      : TER := 147
def tecEXPIRED               : TER := 148
def tecKILLED                : TER := 150

def isTelLocal (x : TER) : Bool :=
  telLOCAL_ERROR ≤ x ∧ x < temMALFORMED

def isTemMalformed (x : TER) : Bool :=
  temMALFORMED ≤ x ∧ x < tefFAILURE

def isTefFailure (x : TER) : Bool :=
  tefFAILURE ≤ x ∧ x < terRETRY

def isTesSuccess (x : TER) : Bool :=
  x = tesSUCCESS

def isTecClaim (x : TER) : Bool :=
  tecCLAIM ≤ x
