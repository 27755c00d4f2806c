import Mathlib

namespace IP

inductive Address
  | v4 (bits : UInt32)
  | v6 (bits : BitVec 128) (scope : UInt32)
  deriving DecidableEq, Repr

namespace AddressV4

def is_loopback (addr : UInt32) : Bool :=
  addr &&& 0xff000000 == 0x7f000000

def is_multicast (addr : UInt32) : Bool :=
  addr &&& 0xf0000000 == 0xe0000000

def is_private (addr : UInt32) : Bool :=
  addr &&& 0xff000000 == 0x0a000000 ||
  addr &&& 0xfff00000 == 0xac100000 ||
  addr &&& 0xffff0000 == 0xc0a80000 ||
  is_loopback addr

def is_public (addr : UInt32) : Bool :=
  !is_private addr && !is_multicast addr

end AddressV4

namespace AddressV6

def firstByte (addr : BitVec 128) : BitVec 8 :=
  (addr >>> 120).setWidth 8

def is_multicast (addr : BitVec 128) : Bool :=
  firstByte addr == 0xff#8

def is_v4_mapped (addr : BitVec 128) : Bool :=
  addr >>> 32 == 0xffff#128

def to_v4 (addr : BitVec 128) : UInt32 :=
  ⟨addr.setWidth 32⟩

-- The first byte is only tested for a common bit with `0xfd`.
def is_private (addr : BitVec 128) : Bool :=
  firstByte addr &&& 0xfd#8 != 0#8 || (is_v4_mapped addr && AddressV4.is_private (to_v4 addr))

def is_public (addr : BitVec 128) : Bool :=
  !is_private addr && !is_multicast addr

end AddressV6

def Address.is_public : Address → Bool
  | v4 addr   => AddressV4.is_public addr
  | v6 addr _ => AddressV6.is_public addr

structure Endpoint where
  address : Address
  port    : UInt16
  deriving DecidableEq, Repr

def Endpoint.is_public (ep : Endpoint) : Bool :=
  ep.address.is_public

def Endpoint.at_port (ep : Endpoint) (port : UInt16) : Endpoint :=
  { ep with port }

end IP
