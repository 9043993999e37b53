/-
The netmask of a gateway at its receiver: which speeds the encoding of one byte carries, and for which configurations
and prefixes the receiver gets back what the gateway put in.
-/
import Olsrd.Gateway.Invariant

namespace Olsrd.Gateway

open Bytes
open Olsrd.Flood (olsrSeqnoDiff)
open Olsrd.Message (prefixToNetmask netmaskToPrefix)

/-! ## Speeds -/

/-- A speed rounded down to a mantissa of at most 32. -/
def roundSpeed (speed : Nat) : Nat := if speed ≤ 32 then speed else 10 * roundSpeed (speed / 10)

/-- The speeds whose exponent fits in three bits. -/
def SpeedEncodable (speed : Nat) : Prop := speed ≤ 320000000 ∧ speed / 10 ^ 7 ∉ [10, 20, 30]

instance (speed : Nat) : Decidable (SpeedEncodable speed) := inferInstanceAs (Decidable (_ ∧ _))

theorem roundSpeed_of_le {speed : Nat} (h : speed ≤ 32) : roundSpeed speed = speed := by
  rw [roundSpeed, if_pos h]

theorem roundSpeed_of_gt {speed : Nat} (h : 32 < speed) : roundSpeed speed = 10 * roundSpeed (speed / 10) := by
  rw [roundSpeed, if_neg (by omega)]

theorem roundSpeed_le (speed : Nat) : roundSpeed speed ≤ speed := by
  induction speed using Nat.strong_induction_on with
  | _ speed ih =>
    by_cases h : speed ≤ 32
    · rw [roundSpeed_of_le h]
    · rw [roundSpeed_of_gt (by omega)]
      have := ih (speed / 10) (by omega)
      omega

theorem roundSpeed_pos {speed : Nat} (h : 0 < speed) : 0 < roundSpeed speed := by
  induction speed using Nat.strong_induction_on with
  | _ speed ih =>
    by_cases hle : speed ≤ 32
    · rwa [roundSpeed_of_le hle]
    · rw [roundSpeed_of_gt (by omega)]
      have := ih (speed / 10) (by omega) (by omega)
      omega

/-- The loop ends with a mantissa and an exponent of the rounded speed. -/
theorem serializeLoop_spec : ∀ (rounds speed exp : Nat), 0 < speed → speed < 10 ^ rounds →
    ∃ m e, serializeLoop rounds speed exp = (m, exp + e) ∧ 0 < m ∧ m ≤ 32 ∧ m % 10 ≠ 0 ∧
      m * 10 ^ e = roundSpeed speed ∧ m = speed / 10 ^ e
  | 0, speed, exp, h, hlt => by simp at hlt; omega
  | rounds + 1, speed, exp, h, hlt => by
    rw [serializeLoop]
    by_cases hgo : speed > 32 ∨ speed % 10 = 0
    · rw [if_pos hgo]
      obtain ⟨m, e, heq, hpos, hle, hmod, hround, hquot⟩ := serializeLoop_spec rounds (speed / 10) (exp + 1) (by omega)
        (by rw [Nat.pow_succ] at hlt; omega)
      have hten : roundSpeed speed = 10 * roundSpeed (speed / 10) := by
        by_cases hgt : 32 < speed
        · exact roundSpeed_of_gt hgt
        · rw [roundSpeed_of_le (by omega), roundSpeed_of_le (by omega)]
          omega
      refine ⟨m, e + 1, by rw [heq]; congr 1; omega, hpos, hle, hmod, ?_, ?_⟩
      · rw [hten, ← hround, Nat.pow_succ]
        ring
      · rw [hquot, Nat.div_div_eq_div_mul, Nat.pow_succ, Nat.mul_comm]
    · rw [if_neg hgo]
      exact ⟨speed, 0, rfl, h, by omega, by omega, by rw [Nat.pow_zero, Nat.mul_one, roundSpeed_of_le (by omega)],
        by rw [Nat.pow_zero, Nat.div_one]⟩

/-- A mantissa and an exponent of three bits have the byte for themselves. -/
theorem fields_fit {m e : Nat} (hm : 0 < m) (hle : m ≤ 32) (he : e < 8) :
    (UInt8.ofNat ((m - 1) <<< 3 ||| e)).toNat >>> 3 + 1 = m ∧ (UInt8.ofNat ((m - 1) <<< 3 ||| e)).toNat &&& 7 = e := by
  have hor : (m - 1) <<< 3 ||| e = (m - 1) * 8 + e := by
    rw [← Nat.shiftLeft_add_eq_or_of_lt (by omega), Nat.shiftLeft_eq]
  have hnat : (UInt8.ofNat ((m - 1) <<< 3 ||| e)).toNat = (m - 1) * 8 + e := by
    rw [hor, UInt8.toNat_ofNat']
    omega
  rw [hnat, Nat.shiftRight_eq_div_pow, show (7 : Nat) = 2 ^ 3 - 1 from rfl, Nat.and_two_pow_sub_one_eq_mod]
  omega

/-- A mantissa and an exponent of three bits come back. -/
theorem deserialize_fits {m e : Nat} (hm : 0 < m) (hle : m ≤ 32) (he : e < 8) :
    deserializeGwSpeed (UInt8.ofNat ((m - 1) <<< 3 ||| e)) = m * 10 ^ e := by
  obtain ⟨hmant, hexp⟩ := fields_fit hm hle he
  rw [deserializeGwSpeed, hmant, hexp]

/-- From 100000000 on the rounding leaves eight digits. -/
theorem roundSpeed_large {speed : Nat} (hge : 100000000 ≤ speed) (hle : speed ≤ 320000000) :
    roundSpeed speed = 10 ^ 7 * (speed / 10 ^ 7) := by
  rw [roundSpeed_of_gt (by omega), roundSpeed_of_gt (by omega), roundSpeed_of_gt (by omega),
    roundSpeed_of_gt (by omega),
    roundSpeed_of_gt (by omega), roundSpeed_of_gt (by omega), roundSpeed_of_gt (by omega), roundSpeed_of_le (by omega)]
  omega

/-- The exponent fits in its three bits exactly for the encodable speeds. -/
theorem exponent_fits {speed m e : Nat} (hle : speed ≤ 320000000) (hpos : 0 < m) (hmod : m % 10 ≠ 0)
    (hround : m * 10 ^ e = roundSpeed speed) : e < 8 ↔ SpeedEncodable speed := by
  have hspeed := roundSpeed_le speed
  constructor
  · intro he
    refine ⟨hle, fun hmem => ?_⟩
    have hge : 100000000 ≤ speed := by
      simp at hmem
      omega
    rw [roundSpeed_large hge hle] at hround
    simp at hmem
    interval_cases e <;> omega
  · rintro ⟨-, hnot⟩
    by_contra he
    obtain ⟨k, rfl⟩ := Nat.exists_eq_add_of_le (Nat.le_of_not_lt he)
    have hge : 10 ^ 8 ≤ m * 10 ^ (8 + k) := by
      rw [Nat.pow_add]
      have := Nat.pow_pos (n := k) (show 0 < 10 by decide)
      nlinarith
    have hlarge := roundSpeed_large (by omega) hle
    obtain rfl : k = 0 := by
      by_contra hk
      have : 10 ^ 9 ≤ m * 10 ^ (8 + k) :=
        le_trans (Nat.pow_le_pow_right (by decide) (by omega)) (Nat.le_mul_of_pos_left _ hpos)
      omega
    refine hnot ?_
    have : m ≤ 3 := by omega
    interval_cases m <;> simp <;> omega

/-- A speed comes back rounded exactly if it can be encoded; a speed of zero comes back as 1. -/
theorem deserialize_serialize (speed : Nat) :
    deserializeGwSpeed (serializeGwSpeed speed) = max 1 (roundSpeed speed) ↔ SpeedEncodable speed := by
  unfold serializeGwSpeed
  by_cases hz : speed = 0
  · subst hz
    simp [roundSpeed_of_le, deserializeGwSpeed, SpeedEncodable]
  · have hpos := roundSpeed_pos (Nat.pos_of_ne_zero hz)
    by_cases hbig : speed > 320000000
    · rw [if_pos (.inr hbig)]
      have hround : 10 ≤ roundSpeed speed := by
        rw [roundSpeed_of_gt (by omega)]
        have := roundSpeed_pos (show 0 < speed / 10 by omega)
        omega
      have hone : deserializeGwSpeed 0 = 1 := rfl
      constructor
      · intro h
        omega
      · rintro ⟨hle, -⟩
        omega
    · rw [if_neg (by omega)]
      obtain ⟨m, e, hloop, hm, hle, hmod, hround, -⟩ := serializeLoop_spec 9 speed 0 (by omega) (by omega)
      rw [Nat.max_eq_right hpos, ← exponent_fits (by omega) hm hmod hround]
      simp only [hloop, Nat.zero_add]
      constructor
      · intro hback
        by_contra he
        have hspeed := roundSpeed_le speed
        obtain rfl : e = 8 := by
          by_contra hne
          have : 10 ^ 9 ≤ m * 10 ^ e :=
            le_trans (Nat.pow_le_pow_right (by decide) (by omega)) (Nat.le_mul_of_pos_left _ hm)
          omega
        have : m ≤ 3 := by omega
        rw [← hround] at hback
        interval_cases m <;> simp [deserializeGwSpeed] at hback
      · intro he
        rw [deserialize_fits hm hle he, hround]

/-! ## The byte of a speed -/

/-- The fields of the byte do not overlap, and a receiver gets the speed up to one unit of its exponent. -/
structure SpeedCarried (speed m e : Nat) : Prop where
  exponent : e ≤ 7
  mantissa : m ≤ 32
  fields : (serializeGwSpeed speed).toNat >>> 3 + 1 = m ∧ (serializeGwSpeed speed).toNat &&& 7 = e
  le : deserializeGwSpeed (serializeGwSpeed speed) ≤ speed
  lt : speed < deserializeGwSpeed (serializeGwSpeed speed) + 10 ^ e

/-- The loop comes to an end, and the byte carries its result unless seven divisions leave a multiple of ten. -/
theorem speedCarried_iff (speed : Nat) (hpos : 1 ≤ speed) (hle : speed ≤ 320000000) :
    ∃ m e, serializeLoop 9 speed 0 = (m, e) ∧ ¬(m > 32 ∨ m % 10 = 0) ∧
      (SpeedCarried speed m e ↔ speed / 10 ^ 7 ∉ [10, 20, 30]) := by
  obtain ⟨m, e, hloop, hm, hm32, hmod, hround, hquot⟩ := serializeLoop_spec 9 speed 0 (by omega) (by omega)
  have hfits := exponent_fits hle hm hmod hround
  rw [Nat.zero_add] at hloop
  have hbyte : serializeGwSpeed speed = UInt8.ofNat ((m - 1) <<< 3 ||| e) := by
    rw [serializeGwSpeed, if_neg (by omega), hloop]
  refine ⟨m, e, hloop, by omega, ?_⟩
  constructor
  · exact fun h => (hfits.1 (Nat.lt_succ_of_le h.exponent)).2
  · intro hnot
    have he := hfits.2 ⟨hle, hnot⟩
    have hback : deserializeGwSpeed (serializeGwSpeed speed) = m * 10 ^ e := by
      rw [hbyte, deserialize_fits hm hm32 he]
    obtain ⟨hmant, hexp⟩ := fields_fit hm hm32 he
    refine ⟨Nat.le_of_lt_succ he, hm32, ?_, ?_, ?_⟩
    · rw [hbyte]
      exact ⟨hmant, hexp⟩
    · rw [hback, hquot]
      exact Nat.div_mul_le_self ..
    · rw [hback, hquot]
      exact Nat.lt_div_mul_add (by positivity)

theorem speedCarried_2048 : ∃ m e, serializeLoop 9 2048 0 = (m, e) ∧ ¬(m > 32 ∨ m % 10 = 0) ∧
    (SpeedCarried 2048 m e ↔ 2048 / 10 ^ 7 ∉ [10, 20, 30]) :=
  speedCarried_iff 2048 (by decide) (by decide)

/-- 100 Gbit/s get the exponent 8, and come back as 2 kbit/s. -/
theorem not_speedCarried : ¬∀ speed, 1 ≤ speed → speed ≤ 320000000 →
    ∃ m e, serializeLoop 9 speed 0 = (m, e) ∧ SpeedCarried speed m e := by
  intro h
  obtain ⟨m, e, hloop, hcarried⟩ := h 100000000 (by decide) (by decide)
  have hresult : serializeLoop 9 100000000 0 = (1, 8) := by decide
  obtain ⟨rfl, rfl⟩ := Prod.mk.inj (hresult.symm.trans hloop)
  exact absurd hcarried.exponent (by decide)

/-! ## The netmask -/

variable {platform : Platform} {cnf : GwCnf} {route : InetRoute} {mask : Mem} {s : GwState}

/-- The flags that a gateway sends. -/
def sentFlags (cnf : GwCnf) (route : InetRoute) : UInt8 :=
  gatewayFlags cnf.hasIpv4Gateway cnf.smartGwUplinkNat cnf.hasIpv6Gateway (route.prefixLen == InetRoute.ipv6.prefixLen)
    (refreshFlags cnf.hasLinkspeed cnf.hasPrefix)

/-- What each flag of the byte says. -/
theorem gatewayFlags_read : ∀ has4 uplinkNat has6 v6route linkspeed v6prefix : Bool,
    let flags := gatewayFlags has4 uplinkNat has6 v6route (refreshFlags linkspeed v6prefix)
    (flags &&& flagLinkspeed ≠ 0 ↔ linkspeed = true) ∧ (flags &&& flagIpv4 != 0) = has4 ∧
      (flags &&& flagIpv4Nat != 0) = (has4 && uplinkNat) ∧ (flags &&& flagIpv6 != 0) = has6 := by
  decide

/-- The bytes of the gateway data in the netmask. -/
structure Carries (cnf : GwCnf) (route : InetRoute) (ptr : Nat) (mask : Mem) : Prop where
  pad : mask ptr = 0
  flags : mask (ptr + gwHnaFlags) = sentFlags cnf route
  uplink : mask (ptr + gwHnaUplink) = if cnf.hasLinkspeed then serializeGwSpeed cnf.smartGwUplink else 0
  downlink : mask (ptr + gwHnaDownlink) = if cnf.hasLinkspeed then serializeGwSpeed cnf.smartGwDownlink else 0

theorem refreshSmartgwNetmask_take (hact : cnf.smartGwActive = true) {n : Nat} (hn : 4 ≤ n) :
    ∃ tail, (refreshSmartgwNetmask cnf).take n = [0, refreshFlags cnf.hasLinkspeed cnf.hasPrefix,
      if cnf.hasLinkspeed then serializeGwSpeed cnf.smartGwUplink else 0,
      if cnf.hasLinkspeed then serializeGwSpeed cnf.smartGwDownlink else 0] ++ tail := by
  obtain ⟨k, rfl⟩ := Nat.exists_eq_add_of_le hn
  rw [refreshSmartgwNetmask, hact]
  exact ⟨_, by simp [Nat.add_comm 4 k]; rfl⟩

theorem gatewayNetmask_carries (hact : cnf.smartGwActive = true) (route : InetRoute) :
    Carries cnf route (hostPart route.prefixLen) (gatewayNetmask cnf route) := by
  have hn : 4 ≤ 16 - route.prefixLen / 8 := by cases route <;> decide
  obtain ⟨tail, htail⟩ := refreshSmartgwNetmask_take hact hn
  obtain ⟨m, hm⟩ : ∃ m : Mem, m = Mem.write (fun _ => 0) 0 (prefixToNetmask cnf.ipVersion.ipsize route.prefixLen) :=
    ⟨_, rfl⟩
  have hwrite : ∀ i (h : i < 4), (m.write (hostPart route.prefixLen) ((refreshSmartgwNetmask cnf).take
      (16 - route.prefixLen / 8))) (hostPart route.prefixLen + i) = ([0, refreshFlags cnf.hasLinkspeed cnf.hasPrefix,
      if cnf.hasLinkspeed then serializeGwSpeed cnf.smartGwUplink else 0,
      if cnf.hasLinkspeed then serializeGwSpeed cnf.smartGwDownlink else 0] : List UInt8)[i] := by
    intro i hi
    rw [Mem.write_apply (by rw [htail]; simp; omega)]
    simp only [htail]
    rw [List.getElem_append_left]
  rw [gatewayNetmask, ← hm]
  simp only [olsrModifiyInetgwNetmask]
  constructor
  · rw [Mem.write_apply_out (.inl (by simp [gwHnaFlags]))]
    exact hwrite 0 (by decide)
  · rw [Mem.write_one, sentFlags]
    congr 1
    exact hwrite 1 (by decide)
  · rw [Mem.write_apply_out (.inr (by simp [gwHnaFlags, gwHnaUplink]))]
    exact hwrite 2 (by decide)
  · rw [Mem.write_apply_out (.inr (by simp [gwHnaFlags, gwHnaDownlink]))]
    exact hwrite 3 (by decide)

/-! ## The receiver -/

/-- The bytes of a netmask that come through the wire. -/
def Received (cnf : GwCnf) (route : InetRoute) (mask : Mem) : Prop :=
  ∀ i < cnf.ipVersion.ipsize, mask i = gatewayNetmask cnf route i

/-- The length that `olsr_hna_tap` takes from a netmask. -/
def receivedPrefixLen (v : IpVersion) (mask : Mem) : Nat := (netmaskToPrefix (mask.slice 0 v.ipsize)).toNat

/-- What the receiver is to know about the gateway. -/
structure Recovered (cnf : GwCnf) (route : InetRoute) (gw : GatewayEntry) : Prop where
  ipv4 : gw.ipv4 = cnf.hasIpv4Gateway
  ipv4nat : gw.ipv4nat = (cnf.hasIpv4Gateway && cnf.smartGwUplinkNat)
  ipv6 : gw.ipv6 = cnf.hasIpv6Gateway
  uplink : gw.uplink = max 1 (roundSpeed cnf.smartGwUplink)
  downlink : gw.downlink = max 1 (roundSpeed cnf.smartGwDownlink)
  externalPrefix : route = .ipv6 → cnf.hasIpv6Gateway = true → cnf.hasPrefix = true →
    gw.externalPrefix = ⟨cnf.smartGwPrefix, cnf.smartGwPrefixLen⟩

/-- The netmask of a gateway is written inside its 16 bytes, and a receiver of the same family that has no newer HNA
recognises the gateway and knows what it offers. -/
structure RoundTrip (platform : Platform) (cnf : GwCnf) (route : InetRoute) : Prop where
  inside : ∀ i ∈ inetgwNetmaskWrites route.prefixLen, i < 16
  recognised : ∀ mask, Received cnf route mask → sentFlags cnf route ≠ 0 →
    olsrIsSmartGateway cnf.ipVersion route.addr (receivedPrefixLen cnf.ipVersion mask) mask = true
  recovered : ∀ mask, Received cnf route mask → ∀ (rcnf : GwCnf) (s : GwState) (a : IpAddr) (seqno : UInt16)
    (block : GwPtr),
    rcnf.ipVersion = cnf.ipVersion → Reachable platform rcnf (fun _ _ => True) s → block ∉ s.tree.map Prod.snd →
    (∀ gw, olsrFindGatewayEntry s a = some gw → 0 < olsrSeqnoDiff seqno (s.mem gw).seqno) →
    let s' := olsrUpdateGatewayEntry platform rcnf s a mask (receivedPrefixLen cnf.ipVersion mask) seqno block
    ∃ gw, olsrFindGatewayEntry s' a = some gw ∧ Recovered cnf route (s'.mem gw)

/-- The entry after an update is an old or a new one that was refreshed. -/
theorem olsrUpdateGatewayEntry_entry (platform : Platform) (mask : Mem) (prefixlen : Nat) {a : IpAddr} {seqno : UInt16}
    {block : GwPtr} (h : Wf cnf s) (hblock : block ∉ s.tree.map Prod.snd)
    (hnew : ∀ gw, olsrFindGatewayEntry s a = some gw → 0 < olsrSeqnoDiff seqno (s.mem gw).seqno) :
    let s' := olsrUpdateGatewayEntry platform cnf s a mask prefixlen seqno block
    ∃ gw, ∃ e : GatewayEntry, olsrFindGatewayEntry s' a = some gw ∧ s'.mem gw = e.refresh cnf mask prefixlen seqno ∧
      (cnf.ipVersion = .inet → e.ipv6 = false) := by
  have hwf : Wf cnf (olsrUpdateGatewayEntry platform cnf s a mask prefixlen seqno block) := h.update hblock
  revert hwf
  unfold olsrUpdateGatewayEntry
  cases hf : olsrFindGatewayEntry s a with
  | none =>
    have hi := h.insert platform hf hblock (refresh_originator mask prefixlen seqno (newGatewayEntry a))
      (refresh_ok (fun _ => rfl) mask prefixlen seqno)
    have hc := (gwDefaultUpdateHandler_spec cnf hi.findable block).1
    intro hwf
    refine ⟨block, newGatewayEntry a, hwf.find_iff.2 ?_, ?_, fun _ => rfl⟩
    · rw [hc.tree]
      exact Keyed.mem_insert.2 (.inl rfl)
    · rw [hc.mem]
      exact Function.update_self ..
  | some gw =>
    dsimp only
    rw [if_neg (by have := hnew gw hf; omega)]
    have hm := h.modify (p := gw) (refresh_originator mask prefixlen seqno)
      (refresh_ok (h.entry_of_mem (h.originator hf).1).inet mask prefixlen seqno)
    have hc := (gwDefaultUpdateHandler_spec cnf hm.findable gw).1
    intro hwf
    refine ⟨gw, s.mem gw, hwf.find_iff.2 ?_, ?_, (h.entry_of_mem (h.originator hf).1).inet⟩
    · rw [hc.tree]
      exact h.find_iff.1 hf
    · rw [hc.mem, modify_mem_self]

/-- The gateway data of the prefixes that are not 2000::/3 lies in the netmask. -/
theorem Received.carries (hact : cnf.smartGwActive = true) (hv : route.ipVersion = cnf.ipVersion)
    (hroute : route ≠ .ipv6) (h : Received cnf route mask) : Carries cnf route (hostPart route.prefixLen) mask := by
  have hin : hostPart route.prefixLen + 3 < cnf.ipVersion.ipsize := by
    rw [← hv]
    cases route with
    | ipv4 => decide
    | ipv6 => exact absurd rfl hroute
    | mappedv4 => decide
  obtain ⟨h1, h2, h3, h4⟩ := gatewayNetmask_carries hact route
  constructor
  · rw [h _ (by omega), h1]
  · rw [h _ (by simp only [gwHnaFlags]; omega), h2]
  · rw [h _ (by simp only [gwHnaUplink]; omega), h3]
  · rw [h _ (by simp only [gwHnaDownlink]; omega), h4]

/-- The gateway data behind the netmask proper does not change the length that is read from it. -/
theorem Received.prefixLen (hact : cnf.smartGwActive = true) (hv : route.ipVersion = cnf.ipVersion)
    (hroute : route ≠ .ipv6)
    (h : Received cnf route mask) : receivedPrefixLen cnf.ipVersion mask = route.prefixLen := by
  have hpad := (h.carries hact hv hroute).pad
  unfold receivedPrefixLen
  rw [← hv]
  cases route with
  | ipv4 =>
    have hslice : mask.slice 0 4 = 0 :: mask.slice 1 3 := by
      rw [Mem.slice_succ, show mask 0 = 0 from hpad]
    exact congrArg (fun adr => (netmaskToPrefix adr).toNat) hslice
  | ipv6 => exact absurd rfl hroute
  | mappedv4 =>
    have hff : ∀ i < 12, mask i = 0xff := by
      intro i hi
      rw [h i (by rw [← hv]; exact Nat.lt_trans hi (by decide))]
      simp only [gatewayNetmask, olsrModifiyInetgwNetmask, ← hv]
      have hptr : hostPart InetRoute.mappedv4.prefixLen = 12 := rfl
      rw [hptr, Mem.write_apply_out (.inl (by simp [gwHnaFlags]; omega)), Mem.write_apply_out (.inl (by omega))]
      revert i
      decide
    have hslice : mask.slice 0 16 = List.replicate 12 0xff ++ (0 :: mask.slice 13 3) := by
      rw [show (16 : Nat) = 12 + 4 from rfl, Mem.slice_add, Mem.slice_succ (mask) (0 + 12),
        show mask (0 + 12) = 0 from hpad]
      congr 1
      refine List.ext_getElem (by simp) fun i h1 h2 => ?_
      simp only [Mem.slice, List.getElem_map, List.getElem_range, List.getElem_replicate, Nat.zero_add]
      exact hff i (by simpa using h2)
    exact congrArg (fun adr => (netmaskToPrefix adr).toNat) hslice

/-- An entry that was refreshed from the netmask. -/
theorem refresh_recovered {rcnf : GwCnf} {gw : GatewayEntry} {seqno : UInt16} (hcarries : Carries cnf route
    (hostPart route.prefixLen) mask) (hroute : route ≠ .ipv6) (hv : rcnf.ipVersion = cnf.ipVersion)
    (hgw : rcnf.ipVersion = .inet → gw.ipv6 = false) :
    Recovered cnf route (gw.refresh rcnf mask route.prefixLen seqno) ↔
      SpeedEncodable cnf.smartGwUplink ∧ SpeedEncodable cnf.smartGwDownlink ∧
        (cnf.ipVersion = .inet → cnf.hasIpv6Gateway = false) := by
  obtain ⟨hspeed, h4, hnat, h6⟩ := gatewayFlags_read cnf.hasIpv4Gateway cnf.smartGwUplinkNat cnf.hasIpv6Gateway
    (route.prefixLen == InetRoute.ipv6.prefixLen) cnf.hasLinkspeed cnf.hasPrefix
  obtain ⟨-, hflags, hup, hdown⟩ := hcarries
  change (sentFlags cnf route &&& flagLinkspeed ≠ 0 ↔ _) at hspeed
  change (sentFlags cnf route &&& flagIpv4 != 0) = _ at h4
  change (sentFlags cnf route &&& flagIpv4Nat != 0) = _ at hnat
  change (sentFlags cnf route &&& flagIpv6 != 0) = _ at h6
  have hread : ∀ (speed : Nat) (byte : UInt8), (byte = if cnf.hasLinkspeed then serializeGwSpeed speed else 0) →
      (cnf.hasLinkspeed = false → speed = 0) →
      ((if sentFlags cnf route &&& flagLinkspeed ≠ 0 then deserializeGwSpeed byte else 1) = max 1 (roundSpeed speed) ↔
        SpeedEncodable speed) := by
    intro speed byte hbyte hzero
    by_cases hl : cnf.hasLinkspeed = true
    · rw [if_pos (hspeed.2 hl), hbyte, if_pos hl]
      exact deserialize_serialize speed
    · rw [if_neg (fun hf => hl (hspeed.1 hf)), hzero (by simpa using hl)]
      exact iff_of_true (by simp [roundSpeed_of_le]) (by decide)
  have hno : cnf.hasLinkspeed = false → cnf.smartGwUplink = 0 ∧ cnf.smartGwDownlink = 0 := by
    intro hl
    simpa [GwCnf.hasLinkspeed] using hl
  have hupread := hread _ _ hup fun hl => (hno hl).1
  have hdownread := hread _ _ hdown fun hl => (hno hl).2
  have hfields : ∀ e : GatewayEntry, e = gw.refresh rcnf mask route.prefixLen seqno →
      e.ipv4 = cnf.hasIpv4Gateway ∧ e.ipv4nat = (cnf.hasIpv4Gateway && cnf.smartGwUplinkNat) ∧
      e.ipv6 = (if rcnf.ipVersion = .inet6 then cnf.hasIpv6Gateway else gw.ipv6) ∧
      (e.uplink = max 1 (roundSpeed cnf.smartGwUplink) ↔ SpeedEncodable cnf.smartGwUplink) ∧
      (e.downlink = max 1 (roundSpeed cnf.smartGwDownlink) ↔ SpeedEncodable cnf.smartGwDownlink) := by
    rintro e rfl
    simp only [GatewayEntry.refresh, GatewayEntry.readNetmask, hflags]
    exact ⟨h4, hnat, by rw [h6], hupread, hdownread⟩
  obtain ⟨e4, enat, e6, eup, edown⟩ := hfields _ rfl
  have hsix : (gw.refresh rcnf mask route.prefixLen seqno).ipv6 = cnf.hasIpv6Gateway ↔
      (cnf.ipVersion = .inet → cnf.hasIpv6Gateway = false) := by
    rw [e6]
    rw [← hv]
    cases hver : rcnf.ipVersion with
    | inet => rw [if_neg (by decide), hgw hver]; exact ⟨fun h _ => h.symm, fun h => (h rfl).symm⟩
    | inet6 => rw [if_pos rfl]; exact iff_of_true rfl fun h => absurd h (by decide)
  constructor
  · intro h
    exact ⟨eup.1 h.uplink, edown.1 h.downlink, hsix.1 h.ipv6⟩
  · rintro ⟨hu, hd, h6'⟩
    exact ⟨e4, enat, hsix.2 h6', eup.2 hu, edown.2 hd, fun hr => absurd hr hroute⟩

/-- The condition under which a gateway's netmask makes the round trip. -/
def Carried (cnf : GwCnf) (route : InetRoute) : Prop :=
  route ≠ .ipv6 ∧ SpeedEncodable cnf.smartGwUplink ∧ SpeedEncodable cnf.smartGwDownlink ∧
    (cnf.ipVersion = .inet → cnf.hasIpv6Gateway = false)

/-- The data for 2000::/3 is written behind the end of the netmask. -/
theorem roundTrip_iff (hact : cnf.smartGwActive = true) (hv : route.ipVersion = cnf.ipVersion) :
    RoundTrip platform cnf route ↔ Carried cnf route := by
  constructor
  · intro h
    have hroute : route ≠ .ipv6 := by
      rintro rfl
      have := h.inside 16 (by decide)
      omega
    have hself : Received cnf route (gatewayNetmask cnf route) := fun _ _ => rfl
    have hcarries := hself.carries hact hv hroute
    refine ⟨hroute, ?_⟩
    -- a receiver that has no entry yet
    obtain ⟨gw, hfind, hrec⟩ :=
      h.recovered _ hself cnf (.initial (fun _ => newGatewayEntry []) fun _ => none) [] 0 0 rfl
      (.init ⟨_, _, rfl⟩) (fun hm => (nomatch hm)) (fun _ hf => (nomatch hf))
    obtain ⟨gw', e, hfind', hmem, he⟩ := olsrUpdateGatewayEntry_entry platform (gatewayNetmask cnf route)
      (receivedPrefixLen cnf.ipVersion (gatewayNetmask cnf route)) (a := [])
      (Wf.initial (fun _ => newGatewayEntry []) fun _ => none) (fun hm => (nomatch hm)) (fun _ hf => (nomatch hf))
    obtain rfl : gw' = gw := Option.some.inj (hfind'.symm.trans hfind)
    rw [hmem, hself.prefixLen hact hv hroute] at hrec
    exact (refresh_recovered hcarries hroute rfl he).1 hrec
  · rintro ⟨hroute, hcond⟩
    refine ⟨?_, fun mask hmask hflags => ?_, fun mask hmask rcnf s a seqno block hr hreach hblock hnew => ?_⟩
    · cases route with
      | ipv4 => decide
      | ipv6 => exact absurd rfl hroute
      | mappedv4 => decide
    · have hcarries := hmask.carries hact hv hroute
      rw [hmask.prefixLen hact hv hroute, olsrIsSmartGateway, hcarries.pad, hcarries.flags]
      have hinet : isPrefixInetgw cnf.ipVersion route.addr route.prefixLen = true := by
        rw [← hv]
        cases route <;> decide
      simp [hinet, hflags]
    · obtain ⟨gw, e, hfind, hmem, he⟩ := olsrUpdateGatewayEntry_entry platform mask
        (receivedPrefixLen cnf.ipVersion mask) (reachable_wf hreach) hblock hnew
      refine ⟨gw, hfind, ?_⟩
      rw [hmem, hmask.prefixLen hact hv hroute]
      exact (refresh_recovered (hmask.carries hact hv hroute) hroute hr he).2 hcond

/-- A gateway of an IPv6 mesh with an external prefix. -/
def testCnf6 : GwCnf :=
  { testCnf with
    ipVersion := .inet6
    smartGwPrefix := [0x20, 0x01, 0x0d, 0xb8] ++ List.replicate 12 0
    length_smartGwPrefix := rfl
    smartGwPrefixLen := 48
    hasIpv6Gateway := true }

/-- With 2000::/3 a byte behind the netmask is written, and the speed 100000000 comes back as 2. -/
theorem ipv6_not_roundTrip :
    ¬ RoundTrip testPlatform testCnf6 .ipv6 ∧ deserializeGwSpeed (serializeGwSpeed 100000000) = 2 := by
  constructor
  · intro h
    have := h.inside 16 (by decide)
    omega
  · decide

theorem ipv4_roundTrip : RoundTrip testPlatform testCnf .ipv4 :=
  (roundTrip_iff rfl rfl).2 ⟨by decide, by decide, by decide, fun _ => rfl⟩

end Olsrd.Gateway
