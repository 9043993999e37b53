/-
The smart gateway data that `gateway.c` puts in the host part of an HNA netmask: the speeds in one byte each, the
netmask a gateway sends, and the fields that a receiver reads from it.
-/
import Olsrd.Message.Hna

namespace Olsrd.Gateway

open Bytes
open Olsrd.Message (prefixToNetmask netmaskToPrefix)

/-! ## Speeds -/

/-- The loop of `serialize_gw_speed`; a speed has at most nine digits when it is entered. -/
def serializeLoop : Nat → Nat → Nat → Nat × Nat
  | 0, speed, exp => (speed, exp)
  | rounds + 1, speed, exp =>
    if speed > 32 ∨ speed % 10 = 0 then serializeLoop rounds (speed / 10) (exp + 1) else (speed, exp)

/-- `serialize_gw_speed` -/
def serializeGwSpeed (speed : Nat) : UInt8 :=
  if speed = 0 ∨ speed > 320000000 then 0
  else
    let (speed, exp) := serializeLoop 9 speed 0
    UInt8.ofNat ((speed - 1) <<< 3 ||| exp)

/-- `deserialize_gw_speed` -/
def deserializeGwSpeed (value : UInt8) : Nat := (value.toNat >>> 3 + 1) * 10 ^ (value.toNat &&& 7)

/-! ## Configuration -/

/-- What `gateway.c` reads of `struct olsrd_config`. -/
structure GwCnf where
  ipVersion : IpVersion
  smartGwActive : Bool
  smartGwAllowNat : Bool
  smartGwUplinkNat : Bool
  smartGwUplink : Nat
  smartGwDownlink : Nat
  smartGwPrefix : List UInt8
  length_smartGwPrefix : smartGwPrefix.length = 16
  smartGwPrefixLen : UInt8
  hasIpv4Gateway : Bool
  hasIpv6Gateway : Bool
  useNiit : Bool

/-- `GW_HNA_FLAG_LINKSPEED` and so on -/
def flagLinkspeed : UInt8 := 1
def flagIpv4 : UInt8 := 2
def flagIpv4Nat : UInt8 := 4
def flagIpv6 : UInt8 := 8
def flagIpv6Prefix : UInt8 := 16

/-- `GW_HNA_FLAGS` and so on; `GW_HNA_PAD` is 0. -/
def gwHnaFlags : Nat := 1
def gwHnaUplink : Nat := 2
def gwHnaDownlink : Nat := 3
def gwHnaV6PrefixLen : Nat := 4
def gwHnaV6Prefix : Nat := 5

/-- The prefixes of internet gateways: `ipv4_internet_route`, `ipv6_internet_route` and `ipv6_mappedv4_route`. -/
inductive InetRoute where
  | ipv4
  | ipv6
  | mappedv4
  deriving DecidableEq

def InetRoute.ipVersion : InetRoute → IpVersion
  | .ipv4 => .inet
  | _ => .inet6

def InetRoute.prefixLen : InetRoute → Nat
  | .ipv4 => 0
  | .ipv6 => 3
  | .mappedv4 => 96

def InetRoute.addr : InetRoute → IpAddr
  | .ipv4 => [0, 0, 0, 0]
  | .ipv6 => 0x20 :: List.replicate 15 0
  | .mappedv4 => List.replicate 10 0 ++ [0xff, 0xff, 0, 0, 0, 0]

/-! ## The netmask of a gateway -/

/-- The two flags `refresh_smartgw_netmask` sets. -/
def refreshFlags (linkspeed v6prefix : Bool) : UInt8 :=
  (if linkspeed then flagLinkspeed else 0) ||| (if v6prefix then flagIpv6Prefix else 0)

def GwCnf.hasLinkspeed (cnf : GwCnf) : Bool := cnf.smartGwUplink > 0 || cnf.smartGwDownlink > 0

def GwCnf.hasPrefix (cnf : GwCnf) : Bool := cnf.ipVersion == .inet6 && cnf.smartGwPrefixLen > 0

/-- `smart_gateway_netmask`, as `refresh_smartgw_netmask` leaves it -/
def refreshSmartgwNetmask (cnf : GwCnf) : List UInt8 :=
  if !cnf.smartGwActive then List.replicate 16 0
  else
    [0, refreshFlags cnf.hasLinkspeed cnf.hasPrefix,
      if cnf.hasLinkspeed then serializeGwSpeed cnf.smartGwUplink else 0,
      if cnf.hasLinkspeed then serializeGwSpeed cnf.smartGwDownlink else 0,
      if cnf.hasPrefix then cnf.smartGwPrefixLen else 0] ++
    (if cnf.hasPrefix then cnf.smartGwPrefix.take 8 else List.replicate 8 0) ++ [0, 0, 0]

/-- What `olsr_modifiy_inetgw_netmask` makes of the byte with the flags. -/
def gatewayFlags (has4 uplinkNat has6 v6route : Bool) (flags : UInt8) : UInt8 :=
  let flags := if has4 then (if uplinkNat then flags ||| flagIpv4 ||| flagIpv4Nat else flags ||| flagIpv4) else flags
  let flags := if has6 then flags ||| flagIpv6 else flags
  if !has6 || !v6route then flags &&& ~~~flagIpv6Prefix else flags

/-- Where the host part of a netmask begins for the gateway data. -/
def hostPart (prefixlen : Nat) : Nat := (prefixlen + 7) / 8

/-- `olsr_modifiy_inetgw_netmask` -/
def olsrModifiyInetgwNetmask (cnf : GwCnf) (prefixlen : Nat) (mask : Mem) : Mem :=
  let ptr := hostPart prefixlen
  let mask := mask.write ptr ((refreshSmartgwNetmask cnf).take (16 - prefixlen / 8))
  mask.write (ptr + gwHnaFlags) [gatewayFlags cnf.hasIpv4Gateway cnf.smartGwUplinkNat cnf.hasIpv6Gateway
    (prefixlen == InetRoute.ipv6.prefixLen) (mask (ptr + gwHnaFlags))]

/-- The bytes of the netmask that `olsr_modifiy_inetgw_netmask` writes to. -/
def inetgwNetmaskWrites (prefixlen : Nat) : List Nat :=
  (List.range (16 - prefixlen / 8)).map (hostPart prefixlen + ·) ++ [hostPart prefixlen + gwHnaFlags]

/-- The netmask of a gateway's HNA as `serialize_hna4` and `serialize_hna6` put it in the message. -/
def gatewayNetmask (cnf : GwCnf) (route : InetRoute) : Mem :=
  olsrModifiyInetgwNetmask cnf route.prefixLen
    (Mem.write (fun _ => 0) 0 (prefixToNetmask cnf.ipVersion.ipsize route.prefixLen))

/-! ## The receiver -/

/-- `is_prefix_inetgw`; `ip_prefix_is_v6_inetgw` compares no byte of the prefix, since 3 / 8 is 0. -/
def isPrefixInetgw (v : IpVersion) (addr : IpAddr) (prefixLen : Nat) : Bool :=
  match v with
  | .inet => prefixLen == InetRoute.ipv4.prefixLen && addr == InetRoute.ipv4.addr
  | .inet6 => prefixLen == InetRoute.ipv6.prefixLen ||
      (prefixLen == InetRoute.mappedv4.prefixLen && addr.take 12 == InetRoute.mappedv4.addr.take 12)

/-- `olsr_is_smart_gateway` -/
def olsrIsSmartGateway (v : IpVersion) (addr : IpAddr) (prefixLen : Nat) (mask : Mem) : Bool :=
  isPrefixInetgw v addr prefixLen && mask (hostPart prefixLen) == 0 && mask (hostPart prefixLen + gwHnaFlags) != 0

/-- `struct olsr_ip_prefix` -/
structure ExternalPrefix where
  addr : List UInt8
  prefixLen : UInt8
  deriving DecidableEq

def ExternalPrefix.zero : ExternalPrefix := ⟨List.replicate 16 0, 0⟩

/-- The cleanup timer of an entry: `cleanup_timer` may go on to point to a timer that has fired. -/
inductive CleanupTimer where
  | none
  | running
  | fired
  deriving DecidableEq

/-- `struct gateway_entry`. `deleted` is for the record: the entry lost its last family by
`olsr_delete_gateway_entry`. -/
structure GatewayEntry where
  originator : IpAddr
  externalPrefix : ExternalPrefix
  uplink : Nat
  downlink : Nat
  ipv4 : Bool
  ipv4nat : Bool
  ipv6 : Bool
  cleanupTimer : CleanupTimer
  seqno : UInt16
  deleted : Bool
  deriving DecidableEq

/-- The external prefix that is read from the netmask of an HNA of 2000::/3; the whole netmask, and not the prefix, is
compared with 2000::. -/
def readExternalPrefix (ptr : Nat) (mask : Mem) : ExternalPrefix :=
  if mask (ptr + gwHnaFlags) &&& flagIpv6Prefix ≠ 0 ∧ mask.slice 0 IpVersion.inet6.ipsize = InetRoute.ipv6.addr then
    ⟨mask.slice (ptr + gwHnaV6Prefix) 8 ++ List.replicate 8 0, mask (ptr + gwHnaV6PrefixLen)⟩
  else .zero

/-- The part of `olsr_update_gateway_entry` that reads the netmask. -/
def GatewayEntry.readNetmask (gw : GatewayEntry) (v : IpVersion) (prefixlen : Nat) (mask : Mem) : GatewayEntry :=
  let ptr := hostPart prefixlen
  let flags := mask (ptr + gwHnaFlags)
  let linkspeed := flags &&& flagLinkspeed ≠ 0
  { gw with
    uplink := if linkspeed then deserializeGwSpeed (mask (ptr + gwHnaUplink)) else 1
    downlink := if linkspeed then deserializeGwSpeed (mask (ptr + gwHnaDownlink)) else 1
    ipv4 := flags &&& flagIpv4 != 0
    ipv4nat := flags &&& flagIpv4Nat != 0
    ipv6 := if v = .inet6 then flags &&& flagIpv6 != 0 else gw.ipv6
    -- an HNA of ::ffff:0:0/96 does not reset the prefix
    externalPrefix :=
      if v = .inet6 ∧ prefixlen = InetRoute.ipv6.prefixLen then readExternalPrefix ptr mask else gw.externalPrefix }

end Olsrd.Gateway
