import Bixd.Protocol.Serializer

abbrev PublicKey := Blob

-- A manifest that has been read. A revocation does not have a signing key.
structure Manifest where
  masterKey  : PublicKey
  signingKey : PublicKey
  sequence   : UInt32
  -- Whether the signatures are correct.
  verify     : Bool
  deriving DecidableEq

def Manifest.revoked (m : Manifest) : Bool :=
  m.sequence = 0xFFFFFFFF

inductive ManifestDisposition
  | accepted
  | stale
  | invalid
  deriving DecidableEq

-- The manifests with the highest sequence numbers.
structure ManifestCache where
  map_ : PublicKey → Option Manifest := fun _ => none
  signingToMasterKeys_ : PublicKey → Option PublicKey := fun _ => none

namespace ManifestCache

def getSigningKey (c : ManifestCache) (pk : PublicKey) : PublicKey :=
  match c.map_ pk with
  | some m => if !m.revoked then m.signingKey else pk
  | none   => pk

def getMasterKey (c : ManifestCache) (pk : PublicKey) : PublicKey :=
  match c.signingToMasterKeys_ pk with
  | some master => master
  | none => pk

def applyManifest (c : ManifestCache) (m : Manifest) : ManifestDisposition × ManifestCache :=
  let old := c.map_ m.masterKey
  if old.any (m.sequence ≤ ·.sequence) then
    (.stale, c)
  else if !m.verify then
    (.invalid, c)
  else
    let signingToMasterKeys :=
      match old with
      | none     => c.signingToMasterKeys_
      | some old => Function.update c.signingToMasterKeys_ old.signingKey none
    let signingToMasterKeys :=
      if !m.revoked then
        Function.update signingToMasterKeys m.signingKey (some m.masterKey)
      else
        signingToMasterKeys
    (.accepted, ⟨Function.update c.map_ m.masterKey (some m), signingToMasterKeys⟩)

-- The cache after manifests have been applied to an empty one, in this order.
def applied (ms : List Manifest) : ManifestCache :=
  ms.foldl (fun c m => (c.applyManifest m).2) {}

end ManifestCache
