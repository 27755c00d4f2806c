import Mathlib

-- The types that a serialized field can have.
inductive SerializedTypeID
  | STI_UINT16
  | STI_UINT32
  | STI_UINT64
  | STI_HASH128
  | STI_HASH256
  | STI_AMOUNT
  | STI_VL
  | STI_ACCOUNT
  | STI_OBJECT
  | STI_ARRAY
  | STI_UINT8
  | STI_HASH160
  | STI_PATHSET
  | STI_VECTOR256
  deriving DecidableEq

namespace SerializedTypeID

def code : SerializedTypeID → Nat
  | STI_UINT16    => 1
  | STI_UINT32    => 2
  | STI_UINT64    => 3
  | STI_HASH128   => 4
  | STI_HASH256   => 5
  | STI_AMOUNT    => 6
  | STI_VL        => 7
  | STI_ACCOUNT   => 8
  | STI_OBJECT    => 14
  | STI_ARRAY     => 15
  | STI_UINT8     => 16
  | STI_HASH160   => 17
  | STI_PATHSET   => 18
  | STI_VECTOR256 => 19

def ofCode : Nat → Option SerializedTypeID
  | 1  => STI_UINT16
  | 2  => STI_UINT32
  | 3  => STI_UINT64
  | 4  => STI_HASH128
  | 5  => STI_HASH256
  | 6  => STI_AMOUNT
  | 7  => STI_VL
  | 8  => STI_ACCOUNT
  | 14 => STI_OBJECT
  | 15 => STI_ARRAY
  | 16 => STI_UINT8
  | 17 => STI_HASH160
  | 18 => STI_PATHSET
  | 19 => STI_VECTOR256
  | _  => none

@[simp]
theorem ofCode_code (t : SerializedTypeID) : ofCode t.code = some t := by
  cases t <;> rfl

theorem code_inj {t t' : SerializedTypeID} (h : t.code = t'.code) : t = t' := by
  have hs : some t = some t' := by rw [← ofCode_code t, h, ofCode_code]
  exact Option.some.inj hs

theorem code_pos (t : SerializedTypeID) : 0 < t.code := by
  cases t <;> decide

theorem code_lt (t : SerializedTypeID) : t.code < 256 := by
  cases t <;> decide

end SerializedTypeID

open SerializedTypeID

-- There is one `SField` for each pair of a type and a value.
structure SField where
  fieldType  : SerializedTypeID
  fieldValue : Nat
  deriving DecidableEq

namespace SField

def fieldCode (f : SField) : Nat :=
  (f.fieldType.code <<< 16) ||| f.fieldValue

-- The values and names of the fields that `SField.cpp` constructs, by their type.
def known : SerializedTypeID → List (Nat × String)
  | STI_UINT8 =>
    [(1, "CloseResolution"), (2, "Method"), (3, "TransactionResult"), (16, "TickSize"),
     (17, "UNLModifyDisabling")]
  | STI_UINT16 =>
    [(1, "LedgerEntryType"), (2, "TransactionType"), (3, "SignerWeight"), (16, "Version")]
  | STI_UINT32 =>
    [(2, "Flags"), (3, "SourceTag"), (4, "Sequence"), (5, "PreviousTxnLgrSeq"),
     (6, "LedgerSequence"), (7, "CloseTime"), (8, "ParentCloseTime"), (9, "SigningTime"),
     (10, "Expiration"), (11, "TransferRate"), (12, "WalletSize"), (13, "OwnerCount"),
     (14, "DestinationTag"), (16, "HighQualityIn"), (17, "HighQualityOut"), (18, "LowQualityIn"),
     (19, "LowQualityOut"), (20, "QualityIn"), (21, "QualityOut"), (22, "StampEscrow"),
     (23, "BondAmount"), (24, "LoadFee"), (25, "OfferSequence"), (26, "FirstLedgerSequence"),
     (27, "LastLedgerSequence"), (28, "TransactionIndex"), (29, "OperationLimit"),
     (30, "ReferenceFeeUnits"), (31, "ReserveBase"), (32, "ReserveIncrement"), (33, "SetFlag"),
     (34, "ClearFlag"), (35, "SignerQuorum"), (36, "CancelAfter"), (37, "FinishAfter"),
     (38, "SignerListID"), (39, "SettleDelay"), (40, "TicketCount"), (41, "TicketSequence")]
  | STI_UINT64 =>
    [(1, "IndexNext"), (2, "IndexPrevious"), (3, "BookNode"), (4, "OwnerNode"), (5, "BaseFee"),
     (6, "ExchangeRate"), (7, "LowNode"), (8, "HighNode"), (9, "DestinationNode"), (10, "Cookie"),
     (11, "ServerVersion")]
  | STI_HASH128 => [(1, "EmailHash")]
  | STI_HASH160 =>
    [(1, "TakerPaysCurrency"), (2, "TakerPaysIssuer"), (3, "TakerGetsCurrency"),
     (4, "TakerGetsIssuer")]
  | STI_HASH256 =>
    [(1, "LedgerHash"), (2, "ParentHash"), (3, "TransactionHash"), (4, "AccountHash"),
     (5, "PreviousTxnID"), (6, "LedgerIndex"), (7, "WalletLocator"), (8, "RootIndex"),
     (9, "AccountTxnID"), (16, "BookDirectory"), (17, "InvoiceID"), (18, "Nickname"),
     (19, "Amendment"), (21, "Digest"), (22, "Channel"), (23, "ConsensusHash"), (24, "CheckID"),
     (25, "ValidatedHash"), (257, "hash"), (258, "index")]
  | STI_AMOUNT =>
    [(1, "Amount"), (2, "Balance"), (3, "LimitAmount"), (4, "TakerPays"), (5, "TakerGets"),
     (6, "LowLimit"), (7, "HighLimit"), (8, "Fee"), (9, "SendMax"), (10, "DeliverMin"),
     (16, "MinimumOffer"), (17, "BixdEscrow"), (18, "DeliveredAmount")]
  | STI_VL =>
    [(1, "PublicKey"), (2, "MessageKey"), (3, "SigningPubKey"), (4, "TxnSignature"),
     (6, "Signature"), (7, "Domain"), (8, "FundCode"), (9, "RemoveCode"), (10, "ExpireCode"),
     (11, "CreateCode"), (12, "MemoType"), (13, "MemoData"), (14, "MemoFormat"),
     (16, "Fulfillment"), (17, "Condition"), (18, "MasterSignature"), (19, "UNLModifyValidator"),
     (20, "ValidatorToDisable"), (21, "ValidatorToReEnable")]
  | STI_ACCOUNT =>
    [(1, "Account"), (2, "Owner"), (3, "Destination"), (4, "Issuer"), (5, "Authorize"),
     (6, "Unauthorize"), (8, "RegularKey")]
  | STI_VECTOR256 => [(1, "Indexes"), (2, "Hashes"), (3, "Amendments")]
  | STI_PATHSET => [(1, "Paths")]
  | STI_OBJECT =>
    [(2, "TransactionMetaData"), (3, "CreatedNode"), (4, "DeletedNode"), (5, "ModifiedNode"),
     (6, "PreviousFields"), (7, "FinalFields"), (8, "NewFields"), (9, "TemplateEntry"),
     (10, "Memo"), (11, "SignerEntry"), (16, "Signer"), (18, "Majority"),
     (19, "DisabledValidator")]
  | STI_ARRAY =>
    [(3, "Signers"), (4, "SignerEntries"), (5, "Template"), (6, "Necessary"), (7, "Sufficient"),
     (8, "AffectedNodes"), (9, "Memos"), (16, "Majorities"), (17, "DisabledValidators")]

def fieldName (f : SField) : String :=
  ((known f.fieldType).lookup f.fieldValue).getD ""

def IsKnown (f : SField) : Prop :=
  f.fieldValue ∈ (known f.fieldType).map Prod.fst

instance (f : SField) : Decidable f.IsKnown :=
  inferInstanceAs (Decidable (_ ∈ _))

-- `SField::getField(type, value)`, where `none` stands for `sfInvalid`.
def getField (type value : Nat) : Option SField :=
  match ofCode type with
  | some t => if IsKnown ⟨t, value⟩ then some ⟨t, value⟩ else none
  | none   => none

def isBinary (f : SField) : Bool :=
  f.fieldValue < 256

def isDiscardable (f : SField) : Bool :=
  256 < f.fieldValue

end SField

def sfSignerWeight        : SField := ⟨STI_UINT16, 3⟩
def sfTickSize            : SField := ⟨STI_UINT8, 16⟩
def sfUNLModifyDisabling  : SField := ⟨STI_UINT8, 17⟩
def sfFlags               : SField := ⟨STI_UINT32, 2⟩
def sfSequence            : SField := ⟨STI_UINT32, 4⟩
def sfLedgerSequence      : SField := ⟨STI_UINT32, 6⟩
def sfCloseTime           : SField := ⟨STI_UINT32, 7⟩
def sfTransferRate        : SField := ⟨STI_UINT32, 11⟩
def sfOwnerCount          : SField := ⟨STI_UINT32, 13⟩
def sfHighQualityIn       : SField := ⟨STI_UINT32, 16⟩
def sfHighQualityOut      : SField := ⟨STI_UINT32, 17⟩
def sfLowQualityIn        : SField := ⟨STI_UINT32, 18⟩
def sfLowQualityOut       : SField := ⟨STI_UINT32, 19⟩
def sfFirstLedgerSequence : SField := ⟨STI_UINT32, 26⟩
def sfLastLedgerSequence  : SField := ⟨STI_UINT32, 27⟩
def sfSetFlag             : SField := ⟨STI_UINT32, 33⟩
def sfClearFlag           : SField := ⟨STI_UINT32, 34⟩
def sfSignerQuorum        : SField := ⟨STI_UINT32, 35⟩
def sfSignerListID        : SField := ⟨STI_UINT32, 38⟩
def sfTicketCount         : SField := ⟨STI_UINT32, 40⟩
def sfTicketSequence      : SField := ⟨STI_UINT32, 41⟩
def sfIndexNext           : SField := ⟨STI_UINT64, 1⟩
def sfIndexPrevious       : SField := ⟨STI_UINT64, 2⟩
def sfBookNode            : SField := ⟨STI_UINT64, 3⟩
def sfOwnerNode           : SField := ⟨STI_UINT64, 4⟩
def sfLowNode             : SField := ⟨STI_UINT64, 7⟩
def sfHighNode            : SField := ⟨STI_UINT64, 8⟩
def sfEmailHash           : SField := ⟨STI_HASH128, 1⟩
def sfWalletLocator       : SField := ⟨STI_HASH256, 7⟩
def sfRootIndex           : SField := ⟨STI_HASH256, 8⟩
def sfAccountTxnID        : SField := ⟨STI_HASH256, 9⟩
def sfBookDirectory       : SField := ⟨STI_HASH256, 16⟩
def sfAmendment           : SField := ⟨STI_HASH256, 19⟩
def sfAmount              : SField := ⟨STI_AMOUNT, 1⟩
def sfBalance             : SField := ⟨STI_AMOUNT, 2⟩
def sfTakerPays           : SField := ⟨STI_AMOUNT, 4⟩
def sfTakerGets           : SField := ⟨STI_AMOUNT, 5⟩
def sfLowLimit            : SField := ⟨STI_AMOUNT, 6⟩
def sfHighLimit           : SField := ⟨STI_AMOUNT, 7⟩
def sfFee                 : SField := ⟨STI_AMOUNT, 8⟩
def sfPublicKey           : SField := ⟨STI_VL, 1⟩
def sfMessageKey          : SField := ⟨STI_VL, 2⟩
def sfSigningPubKey       : SField := ⟨STI_VL, 3⟩
def sfTxnSignature        : SField := ⟨STI_VL, 4⟩
def sfSignature           : SField := ⟨STI_VL, 6⟩
def sfDomain              : SField := ⟨STI_VL, 7⟩
def sfMasterSignature     : SField := ⟨STI_VL, 18⟩
def sfUNLModifyValidator  : SField := ⟨STI_VL, 19⟩
def sfValidatorToDisable  : SField := ⟨STI_VL, 20⟩
def sfValidatorToReEnable : SField := ⟨STI_VL, 21⟩
def sfAccount             : SField := ⟨STI_ACCOUNT, 1⟩
def sfOwner               : SField := ⟨STI_ACCOUNT, 2⟩
def sfRegularKey          : SField := ⟨STI_ACCOUNT, 8⟩
def sfPaths               : SField := ⟨STI_PATHSET, 1⟩
def sfIndexes             : SField := ⟨STI_VECTOR256, 1⟩
def sfHashes              : SField := ⟨STI_VECTOR256, 2⟩
def sfAmendments          : SField := ⟨STI_VECTOR256, 3⟩
def sfSignerEntry         : SField := ⟨STI_OBJECT, 11⟩
def sfSigner              : SField := ⟨STI_OBJECT, 16⟩
def sfMajority            : SField := ⟨STI_OBJECT, 18⟩
def sfDisabledValidator   : SField := ⟨STI_OBJECT, 19⟩
def sfSigners             : SField := ⟨STI_ARRAY, 3⟩
def sfSignerEntries       : SField := ⟨STI_ARRAY, 4⟩
def sfMajorities          : SField := ⟨STI_ARRAY, 16⟩
def sfDisabledValidators  : SField := ⟨STI_ARRAY, 17⟩

namespace SField

variable {f g : SField}

def isSigningField (f : SField) : Bool :=
  f ∉ [sfTxnSignature, sfSignature, sfMasterSignature, sfSigners]

def shouldInclude (f : SField) (withSigningField : Bool) : Bool :=
  f.isBinary && (withSigningField || f.isSigningField)

theorem getField_eq_some (h : getField type value = some f) :
    (f.fieldType.code = type) ∧ (f.fieldValue = value) ∧ f.IsKnown := by
  unfold getField at h
  split at h
  case h_1 t ht =>
    split at h
    case isTrue hk =>
      cases h
      refine ⟨?_, rfl, hk⟩
      unfold ofCode at ht
      split at ht <;> simp_all <;> subst ht <;> rfl
    case isFalse => exact absurd h (by simp)
  case h_2 => exact absurd h (by simp)

theorem IsKnown.getField (h : f.IsKnown) : getField f.fieldType.code f.fieldValue = some f := by
  simp only [SField.getField, ofCode_code]
  exact if_pos h

theorem IsKnown.value_bounds (h : f.IsKnown) : (0 < f.fieldValue) ∧ (f.fieldValue < 2 ^ 16) := by
  have hall : ∀ t, ∀ v ∈ (known t).map Prod.fst, (0 < v) ∧ (v < 2 ^ 16) := by
    intro t
    cases t <;> decide
  exact hall _ _ h

theorem IsKnown.not_endMarker (h : f.IsKnown) :
    ¬(f.fieldType = STI_OBJECT ∧ f.fieldValue = 1) ∧
    ¬(f.fieldType = STI_ARRAY ∧ f.fieldValue = 1) := by
  have ⟨t, v⟩ := f
  constructor <;> rintro ⟨rfl, rfl⟩ <;> exact absurd h (by decide)

theorem IsKnown.eq_of_fieldCode (hf : f.IsKnown) (hg : g.IsKnown) (h : f.fieldCode = g.fieldCode) :
    f = g := by
  have hb := hf.value_bounds.right
  have hb' := hg.value_bounds.right
  rw [fieldCode, fieldCode, ← Nat.shiftLeft_add_eq_or_of_lt hb,
    ← Nat.shiftLeft_add_eq_or_of_lt hb', Nat.shiftLeft_eq, Nat.shiftLeft_eq] at h
  obtain ⟨t, v⟩ := f
  obtain ⟨t', v'⟩ := g
  have ht : t.code = t'.code := by simp only at h hb hb'; omega
  have hv : v = v' := by simp only at h hb hb'; omega
  rw [code_inj ht, hv]

end SField
