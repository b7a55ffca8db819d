import Terracoin.Net.Message

/-!
# Network addresses

`CNetAddr` and `CService` of `netbase.cpp` and `CAddress` of `protocol.h`: the ranges that are not
routable, the group that an address counts for, and the key of a service.
-/

namespace Terracoin

/-! ## `CNetAddr` -/

/-- The bytes in network order. -/
structure CNetAddr where
  ip : Bytes 16
deriving DecidableEq, Repr

def NET_UNROUTABLE : UInt8 := 0
def NET_IPV4 : UInt8 := 1
def NET_IPV6 : UInt8 := 2
def NET_TOR : UInt8 := 3

def pchIPv4 : List UInt8 := [0, 0, 0, 0, 0, 0, 0, 0, 0, 0, 0xff, 0xff]

def pchOnionCat : List UInt8 := [0xFD, 0x87, 0xD8, 0x7E, 0xEB, 0x43]

namespace CNetAddr

def startsWith (a : CNetAddr) (pch : List UInt8) : Bool := a.ip.1.take pch.length == pch

def getByte (a : CNetAddr) (n : Nat) : UInt8 := a.ip.1.getD (15 - n) 0

def isIPv4 (a : CNetAddr) : Bool := a.startsWith pchIPv4

def isRFC1918 (a : CNetAddr) : Bool :=
  a.isIPv4 && (a.getByte 3 == 10 || (a.getByte 3 == 192 && a.getByte 2 == 168) ||
    (a.getByte 3 == 172 && (16 ≤ a.getByte 2 && a.getByte 2 ≤ 31)))

def isRFC3927 (a : CNetAddr) : Bool := a.isIPv4 && (a.getByte 3 == 169 && a.getByte 2 == 254)

def isRFC3849 (a : CNetAddr) : Bool := a.startsWith [0x20, 0x01, 0x0D, 0xB8]

def isRFC3964 (a : CNetAddr) : Bool := a.startsWith [0x20, 0x02]

def isRFC6052 (a : CNetAddr) : Bool := a.startsWith [0, 0x64, 0xFF, 0x9B, 0, 0, 0, 0, 0, 0, 0, 0]

def isRFC4380 (a : CNetAddr) : Bool := a.startsWith [0x20, 0x01, 0, 0]

def isRFC4862 (a : CNetAddr) : Bool := a.startsWith [0xFE, 0x80, 0, 0, 0, 0, 0, 0]

def isRFC4193 (a : CNetAddr) : Bool := a.getByte 15 &&& 0xFE == 0xFC

def isRFC6145 (a : CNetAddr) : Bool := a.startsWith [0, 0, 0, 0, 0, 0, 0, 0, 0xFF, 0xFF, 0, 0]

def isRFC4843 (a : CNetAddr) : Bool :=
  a.startsWith [0x20, 0x01, 0x00] && a.getByte 12 &&& 0xF0 == 0x10

def isTor (a : CNetAddr) : Bool := a.startsWith pchOnionCat

def isLocal (a : CNetAddr) : Bool :=
  (a.isIPv4 && (a.getByte 3 == 127 || a.getByte 3 == 0)) ||
    a.startsWith [0, 0, 0, 0, 0, 0, 0, 0, 0, 0, 0, 0, 0, 0, 0, 1]

def isValid (a : CNetAddr) : Bool :=
  -- an address of an old `addr` message that was read three bytes late
  if a.startsWith (pchIPv4.drop 3) then false
  else if a.ip.1 == List.replicate 16 0 then false
  else if a.isRFC3849 then false
  else if a.isIPv4 then
    -- `INADDR_NONE` and 0
    !(a.ip.1.drop 12 == [0xff, 0xff, 0xff, 0xff] || a.ip.1.drop 12 == [0, 0, 0, 0])
  else true

def isRoutable (a : CNetAddr) : Bool :=
  a.isValid && !(a.isRFC1918 || a.isRFC3927 || a.isRFC4862 || (a.isRFC4193 && !a.isTor) ||
    a.isRFC4843 || a.isLocal)

/-- The end of `GetGroup`: the class and the first `nBits` bits from byte `nStartByte`. -/
def groupOf (a : CNetAddr) (nClass : UInt8) (nStartByte nBits : Nat) : List UInt8 :=
  let vchRet := nClass :: (a.ip.1.drop nStartByte).take (nBits / 8)
  if nBits % 8 = 0 then vchRet
  else vchRet ++ [a.getByte (15 - (nStartByte + nBits / 8)) ||| UInt8.ofNat (2 ^ (nBits % 8) - 1)]

def getGroup (a : CNetAddr) : List UInt8 :=
  -- no local address is routable, so the class 255 is always replaced
  if !a.isRoutable then a.groupOf NET_UNROUTABLE 0 0
  else if a.isIPv4 || a.isRFC6145 || a.isRFC6052 then a.groupOf NET_IPV4 12 16
  else if a.isRFC3964 then a.groupOf NET_IPV4 2 16
  else if a.isRFC4380 then [NET_IPV4, a.getByte 3 ^^^ 0xFF, a.getByte 2 ^^^ 0xFF]
  else if a.isTor then a.groupOf NET_TOR 6 4
  else if a.startsWith [0x20, 0x11, 0x04, 0x70] then a.groupOf NET_IPV6 0 36
  else a.groupOf NET_IPV6 0 32

end CNetAddr

structure CService extends CNetAddr where
  port : UInt16
deriving DecidableEq, Repr

def CService.getKey (a : CService) : List UInt8 :=
  a.ip.1 ++ [UInt8.ofNat (a.port.toNat / 0x100), UInt8.ofNat (a.port.toNat % 0x100)]

/-- A service with what is known of it as a peer; `nLastTry` is only kept in memory. -/
structure CAddress extends CService where
  nServices : UInt64
  nTime : UInt32
  nLastTry : Int64
deriving DecidableEq, Repr

end Terracoin
