/-
The part of the configuration the modelled code reads (`struct olsrd_config`), IP addresses as
the bytes they have in a packet (`union olsr_ip_addr`), and the deny list of `net_olsr.c`.
-/
import Olsrd.Lib.Bytes

namespace Olsrd

open Bytes

/-- What the C code leaves to the machine it is compiled for. -/
structure Platform where
  /-- byte order of `uint16_t` and `uint32_t` in memory -/
  littleEndian : Bool
  /-- `sizeof` of a pointer -/
  sizeofPtr : Nat

/-- `olsr_cnf->ip_version`. -/
inductive IpVersion where
  | inet
  | inet6
  deriving DecidableEq, Repr

/-- `olsr_cnf->ipsize`, which the configuration parser sets together with `ip_version`. -/
def IpVersion.ipsize : IpVersion → Nat
  | .inet => 4
  | .inet6 => 16

/-- An address: its `ipsize` bytes in network order. -/
abbrev IpAddr := List UInt8

structure Cnf where
  ipVersion : IpVersion
  mainAddr : IpAddr
  lqLevel : Nat
  /-- `deny_entries` of `net_olsr.c` -/
  denyEntries : List IpAddr

def Cnf.ipsize (cnf : Cnf) : Nat := cnf.ipVersion.ipsize

/-- `ipequal`: only the first `ipsize` bytes of the union are compared. -/
def ipequal (cnf : Cnf) (a b : IpAddr) : Bool := a.take cnf.ipsize == b.take cnf.ipsize

/-- `olsr_validate_address`: the address is not on the deny list. (The loop's second exit compares
an entry pointer with `&olsr_cnf->main_addr`, which no allocated entry equals.) -/
def olsrValidateAddress (cnf : Cnf) (adr : IpAddr) : Bool :=
  !cnf.denyEntries.any fun deny => ipequal cnf adr deny

/-- The node has an address of its own, without which `olsr_add_tc_entry` returns no entry. -/
def Cnf.HasMainAddr (cnf : Cnf) : Prop := ipequal cnf cnf.mainAddr (List.replicate cnf.ipsize 0) = false

/-- The configuration of `init_net` for IPv4: 0.0.0.0 and 127.0.0.1 are denied. -/
def denyIpv4Defaults : List IpAddr := [[0, 0, 0, 0], [127, 0, 0, 1]]

/-! ## The order of the address trees -/

/-- The number whose digits to base 256 are the bytes, the first being the highest. -/
def bigEndian (bytes : List UInt8) : Nat := bytes.foldl (fun n b => n * 256 + b.toNat) 0

/-- What `avl_comp_default` compares. `ip4cmp` compares `s_addr` as a number of the machine, without
`ntohl`; `ip6cmp` is a `memcmp`. -/
def addrKey (platform : Platform) (v : IpVersion) (a : IpAddr) : Nat :=
  match v with
  | .inet => if platform.littleEndian then bigEndian a.reverse else bigEndian a
  | .inet6 => bigEndian a

/-- `avl_comp_default(a, b) < 0` -/
def addrLt (platform : Platform) (v : IpVersion) (a b : IpAddr) : Bool :=
  addrKey platform v a < addrKey platform v b

theorem addrLt_asymm (platform : Platform) (v : IpVersion) (a b : IpAddr) (h : addrLt platform v a b = true) :
    addrLt platform v b a = false := by
  simp only [addrLt, decide_eq_true_eq, decide_eq_false_iff_not] at h ⊢; omega

theorem addrLt_trans (platform : Platform) (v : IpVersion) (a b c : IpAddr) (h : addrLt platform v a b = true)
    (h' : addrLt platform v c b = false) : addrLt platform v c a = false := by
  simp only [addrLt, decide_eq_true_eq, decide_eq_false_iff_not] at h h' ⊢; omega

theorem IpVersion.ipsize_pos (v : IpVersion) : 0 < v.ipsize := by cases v <;> decide

theorem Cnf.ipsize_pos (cnf : Cnf) : 0 < cnf.ipsize := cnf.ipVersion.ipsize_pos

/-- Both address sizes are multiples of four. -/
theorem Cnf.ipsize_cases (cnf : Cnf) : cnf.ipsize = 4 ∨ cnf.ipsize = 16 := by
  unfold Cnf.ipsize; cases cnf.ipVersion <;> simp [IpVersion.ipsize]

end Olsrd
