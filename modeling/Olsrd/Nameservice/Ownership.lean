/-
The services a node may announce: `allowed_service` of the nameservice plugin, and the addresses of `allowed_ip`. The
names of a node are kept without the suffix, which the comparison of names does not reckon with.
-/
import Olsrd.Message.Hna
import Olsrd.Nameservice.Message

namespace Olsrd.Nameservice

open Olsrd.Message (HnaEntry prefixToNetmask)

/-- `regmatch_t`; -1 stands for a part that is not in the match. -/
structure Regmatch where
  rmSo : Int
  rmEo : Int

/-- What is left to the C library: the first submatch of `regex_t_service` in a line that matches, and the addresses of
`inet_pton`. -/
structure Libc where
  regexec : List UInt8 → Option Regmatch
  regexec_inside : ∀ line m, regexec line = some m → m.rmSo < 0 ∨ m.rmEo < 0 ∨ m.rmSo ≤ m.rmEo ∧ m.rmEo ≤ line.length
  inetPton : IpVersion → List UInt8 → Option IpAddr

/-- `MAX_SUFFIX` -/
def maxSuffix : Nat := 63

/-- What the functions read of the configuration. -/
structure OwnCnf where
  ipVersion : IpVersion
  ifnet : List IpAddr
  hnaEntries : List HnaEntry
  myNames : List NameEntry
  mySuffix : List UInt8
  length_myNames : ∀ name ∈ myNames, name.name.length ≤ maxName
  length_mySuffix : mySuffix.length < maxSuffix

/-- A difference as `size_t` -/
def sizeT (i : Int) : Nat := (i % 2 ^ 64).toNat

/-- `strndup` -/
def strndup (s : List UInt8) (n : Nat) : List UInt8 := s.take n

/-- `strncmp(a, b, n) == 0`, the strings being given by their characters -/
def strncmpEq (a b : List UInt8) (n : Nat) : Bool := a.take n == b.take n

/-- The bits of an address that the netmask of `olsr_prefix_to_netmask` has. -/
def masked (v : IpVersion) (addr : IpAddr) (prefixLen : UInt8) : IpAddr :=
  List.zipWith (· &&& ·) addr (prefixToNetmask v.ipsize prefixLen.toNat)

/-- `allowed_ip` -/
def allowedIp (cnf : OwnCnf) (addr : IpAddr) : Bool :=
  cnf.ifnet.any (· == addr) ||
    cnf.hnaEntries.any fun hna => hna.prefixLen != 0 && masked cnf.ipVersion addr hna.prefixLen == hna.pfx

/-- `is_service_wellformed`, with the submatch it leaves -/
def isServiceWellformed (libc : Libc) (serviceLine : List UInt8) : Option Regmatch := libc.regexec serviceLine

/-- `allowed_hostname_or_ip_in_service` -/
def allowedHostnameOrIpInService (libc : Libc) (cnf : OwnCnf) (serviceLine : List UInt8) (m : Regmatch) : Bool :=
  if m.rmSo < 0 ∨ m.rmEo < 0 then false
  else
    let hostnameOrIp := strndup (serviceLine.drop m.rmSo.toNat) (sizeT (m.rmEo - m.rmSo))
    if cnf.myNames.any fun name =>
      strncmpEq name.name hostnameOrIp (sizeT (name.name.length - cnf.mySuffix.length)) then true
    else (libc.inetPton cnf.ipVersion hostnameOrIp).any (allowedIp cnf)

/-- `allowed_service` -/
def allowedService (libc : Libc) (cnf : OwnCnf) (serviceLine : List UInt8) : Bool :=
  match isServiceWellformed libc serviceLine with
  | none => false
  | some m => allowedHostnameOrIpInService libc cnf serviceLine m

/-! ## Ownership -/

/-- The host part of a well-formed line -/
def HostPart (libc : Libc) (serviceLine host : List UInt8) : Prop :=
  ∃ m, isServiceWellformed libc serviceLine = some m ∧ ¬(m.rmSo < 0 ∨ m.rmEo < 0) ∧
    host = (serviceLine.drop m.rmSo.toNat).take (m.rmEo.toNat - m.rmSo.toNat)

def OwnName (cnf : OwnCnf) (host : List UInt8) : Prop := ∃ name ∈ cnf.myNames, host = name.name ++ cnf.mySuffix

def InNetwork (cnf : OwnCnf) (addr : IpAddr) (hna : HnaEntry) : Prop :=
  masked cnf.ipVersion addr hna.prefixLen = masked cnf.ipVersion hna.pfx hna.prefixLen

def OwnIp (libc : Libc) (cnf : OwnCnf) (host : List UInt8) : Prop :=
  ∃ ip, libc.inetPton cnf.ipVersion host = some ip ∧
    (ip ∈ cnf.ifnet ∨ ∃ hna ∈ cnf.hnaEntries, hna.prefixLen ≠ 0 ∧ InNetwork cnf ip hna)

/-- The line is well formed, and its host is the node itself or in a network of it. -/
def Owned (libc : Libc) (cnf : OwnCnf) (serviceLine : List UInt8) : Prop :=
  ∃ host, HostPart libc serviceLine host ∧ (OwnName cnf host ∨ OwnIp libc cnf host)

/-! ## What is compared -/

/-- The start of a host is compared with a name without as many characters as the suffix has, and all of it with a name
that has not so many. -/
def Cut (suffix name host : List UInt8) : Prop :=
  if name.length < suffix.length then host = name else name.take (name.length - suffix.length) <+: host

/-- The prefix of the network has no bits behind it. -/
def NoHostBits (cnf : OwnCnf) (hna : HnaEntry) : Prop := masked cnf.ipVersion hna.pfx hna.prefixLen = hna.pfx

/-- The host has the start of a name, or the address of an interface or in a network without bits behind its prefix. -/
def Recognized (libc : Libc) (cnf : OwnCnf) (host : List UInt8) : Prop :=
  (∃ name ∈ cnf.myNames, Cut cnf.mySuffix name.name host) ∨
    ∃ ip, libc.inetPton cnf.ipVersion host = some ip ∧
      (ip ∈ cnf.ifnet ∨ ∃ hna ∈ cnf.hnaEntries, hna.prefixLen ≠ 0 ∧ InNetwork cnf ip hna ∧ NoHostBits cnf hna)

variable {libc : Libc} {cnf : OwnCnf} {line host : List UInt8}

theorem strncmpEq_iff_cut {suffix name : List UInt8} (hname : name.length ≤ maxName)
    (hsuffix : suffix.length < maxSuffix)
    (hhost : host.length < 2 ^ 63) : strncmpEq name host (sizeT (name.length - suffix.length)) = true ↔
      Cut suffix name host := by
  unfold strncmpEq Cut
  unfold maxName at hname
  unfold maxSuffix at hsuffix
  rw [beq_iff_eq]
  split
  · next hshort =>
    -- the difference is below zero, and a `size_t` that is larger than any string
    have hlarge : 2 ^ 63 ≤ sizeT (name.length - suffix.length) := by
      unfold sizeT
      omega
    rw [List.take_of_length_le (by omega), List.take_of_length_le (by omega), eq_comm]
  · next hlong =>
    have hn : sizeT (name.length - suffix.length) = name.length - suffix.length := by
      unfold sizeT
      omega
    rw [hn, List.prefix_iff_eq_take, List.length_take, Nat.min_eq_left (Nat.sub_le ..)]

theorem masked_masked (v : IpVersion) (addr : IpAddr) (prefixLen : UInt8) :
    masked v (masked v addr prefixLen) prefixLen = masked v addr prefixLen := by
  unfold masked
  generalize prefixToNetmask v.ipsize prefixLen.toNat = mask
  induction addr generalizing mask with
  | nil => rfl
  | cons b addr ih =>
    cases mask with
    | nil => rfl
    | cons c mask =>
      simp only [List.zipWith_cons_cons, List.cons.injEq]
      exact ⟨by rw [UInt8.and_assoc, UInt8.and_self], ih mask⟩

theorem masked_eq_iff {ip : IpAddr} {hna : HnaEntry} :
    masked cnf.ipVersion ip hna.prefixLen = hna.pfx ↔ InNetwork cnf ip hna ∧ NoHostBits cnf hna := by
  unfold InNetwork NoHostBits
  constructor
  · intro h
    have hbits : masked cnf.ipVersion hna.pfx hna.prefixLen = hna.pfx := by
      rw [← h, masked_masked]
    exact ⟨h.trans hbits.symm, hbits⟩
  · rintro ⟨hin, hbits⟩
    exact hin.trans hbits

theorem allowedIp_iff {ip : IpAddr} : allowedIp cnf ip = true ↔
    ip ∈ cnf.ifnet ∨ ∃ hna ∈ cnf.hnaEntries, hna.prefixLen ≠ 0 ∧ InNetwork cnf ip hna ∧ NoHostBits cnf hna := by
  unfold allowedIp
  simp only [Bool.or_eq_true, List.any_eq_true, Bool.and_eq_true, bne_iff_ne, beq_iff_eq, masked_eq_iff]
  exact or_congr_left ⟨fun ⟨a, ha, heq⟩ => heq ▸ ha, fun h => ⟨ip, h, rfl⟩⟩

/-- The host part is what `strndup` copies. -/
theorem hostPart_iff {m : Regmatch} (hline : line.length < 2 ^ 63) (hm : isServiceWellformed libc line = some m)
    (hpart : ¬(m.rmSo < 0 ∨ m.rmEo < 0)) :
    HostPart libc line host ↔ host = strndup (line.drop m.rmSo.toNat) (sizeT (m.rmEo - m.rmSo)) := by
  have hsize : sizeT (m.rmEo - m.rmSo) = m.rmEo.toNat - m.rmSo.toNat := by
    unfold sizeT
    have hinside := libc.regexec_inside line m hm
    omega
  unfold HostPart strndup
  rw [hsize]
  constructor
  · rintro ⟨m', hm', -, hhost⟩
    rw [hm] at hm'
    obtain rfl := Option.some.inj hm'
    exact hhost
  · exact fun hhost => ⟨m, hm, hpart, hhost⟩

/-- A line is accepted exactly if its host is recognized. -/
theorem allowedService_iff (hline : line.length < 2 ^ 63) :
    allowedService libc cnf line = true ↔ ∃ host, HostPart libc line host ∧ Recognized libc cnf host := by
  unfold allowedService
  cases hm : isServiceWellformed libc line with
  | none =>
    refine iff_of_false Bool.false_ne_true ?_
    rintro ⟨host, ⟨m, hm', -⟩, -⟩
    rw [hm] at hm'
    cases hm'
  | some m =>
    simp only [allowedHostnameOrIpInService]
    by_cases hpart : m.rmSo < 0 ∨ m.rmEo < 0
    · rw [if_pos hpart]
      refine iff_of_false Bool.false_ne_true ?_
      rintro ⟨host, ⟨m', hm', hpart', -⟩, -⟩
      rw [hm] at hm'
      obtain rfl := Option.some.inj hm'
      exact hpart' hpart
    · rw [if_neg hpart]
      obtain ⟨host, hhost⟩ : ∃ host, host = strndup (line.drop m.rmSo.toNat) (sizeT (m.rmEo - m.rmSo)) := ⟨_, rfl⟩
      have hlen : host.length < 2 ^ 63 := by
        rw [hhost, strndup, List.length_take, List.length_drop]
        omega
      rw [← hhost]
      have hrecognized : (if cnf.myNames.any fun name => strncmpEq name.name host
        (sizeT (name.name.length - cnf.mySuffix.length))
          then true else (libc.inetPton cnf.ipVersion host).any (allowedIp cnf)) = true ↔ Recognized libc cnf host := by
        have hnames : (cnf.myNames.any fun name => strncmpEq name.name host
            (sizeT (name.name.length - cnf.mySuffix.length))) = true ↔
              ∃ name ∈ cnf.myNames, Cut cnf.mySuffix name.name host := by
          rw [List.any_eq_true]
          exact exists_congr fun name => and_congr_right fun hname =>
            strncmpEq_iff_cut (cnf.length_myNames name hname) cnf.length_mySuffix hlen
        rw [Bool.if_true_left, Bool.or_eq_true, decide_eq_true_eq, hnames, Option.any_eq_true]
        unfold Recognized
        simp only [allowedIp_iff]
      rw [hrecognized]
      constructor
      · exact fun h => ⟨host, (hostPart_iff hline hm hpart).2 hhost, h⟩
      · rintro ⟨host', hhost', h⟩
        rw [hhost, ← (hostPart_iff hline hm hpart).1 hhost']
        exact h

theorem hostPart_unique {host' : List UInt8} (h : HostPart libc line host) (h' : HostPart libc line host') :
    host = host' := by
  obtain ⟨m, hm, -, rfl⟩ := h
  obtain ⟨m', hm', -, rfl⟩ := h'
  rw [hm] at hm'
  obtain rfl := Option.some.inj hm'
  rfl

/-! ## When ownership decides -/

/-- The start of a name leads to nobody else's host, and what is owned by a name without the length of the suffix or by
a network with bits behind its prefix is recognized by something else. -/
structure Distinguished (libc : Libc) (cnf : OwnCnf) (host : List UInt8) : Prop where
  cut : ∀ name ∈ cnf.myNames, Cut cnf.mySuffix name.name host → OwnName cnf host ∨ OwnIp libc cnf host
  short : ∀ name ∈ cnf.myNames, name.name.length < cnf.mySuffix.length → host = name.name ++ cnf.mySuffix →
    Recognized libc cnf host
  hostBits : ∀ ip, libc.inetPton cnf.ipVersion host = some ip → ∀ hna ∈ cnf.hnaEntries, hna.prefixLen ≠ 0 →
    InNetwork cnf ip hna →
    ¬NoHostBits cnf hna → Recognized libc cnf host

/-- The host of an own line is recognized and the other way round, if nothing stands in the way. -/
theorem Distinguished.recognized_iff (h : Distinguished libc cnf host) :
    Recognized libc cnf host ↔ OwnName cnf host ∨ OwnIp libc cnf host := by
  constructor
  · rintro (⟨name, hname, hcut⟩ | ⟨ip, hip, hiface | ⟨hna, hmem, hlen, hin, -⟩⟩)
    · exact h.cut name hname hcut
    · exact .inr ⟨ip, hip, .inl hiface⟩
    · exact .inr ⟨ip, hip, .inr ⟨hna, hmem, hlen, hin⟩⟩
  · rintro (⟨name, hname, hhost⟩ | ⟨ip, hip, hiface | ⟨hna, hmem, hlen, hin⟩⟩)
    · by_cases hshort : name.name.length < cnf.mySuffix.length
      · exact h.short name hname hshort hhost
      · refine .inl ⟨name, hname, ?_⟩
        rw [Cut, if_neg hshort, hhost]
        exact (List.take_prefix ..).trans (List.prefix_append ..)
    · exact .inr ⟨ip, hip, .inl hiface⟩
    · by_cases hbits : NoHostBits cnf hna
      · exact .inr ⟨ip, hip, .inr ⟨hna, hmem, hlen, hin, hbits⟩⟩
      · exact h.hostBits ip hip hna hmem hlen hin hbits

theorem distinguished_of_iff (h : Recognized libc cnf host ↔ OwnName cnf host ∨ OwnIp libc cnf host) :
    Distinguished libc cnf host where
  cut name hname hcut := h.1 (.inl ⟨name, hname, hcut⟩)
  short name hname _ hhost := h.2 (.inl ⟨name, hname, hhost⟩)
  hostBits ip hip hna hmem hlen hin _ := h.2 (.inr ⟨ip, hip, .inr ⟨hna, hmem, hlen, hin⟩⟩)

/-- Exactly the own lines are accepted, if and only if the names and networks tell the host from others. -/
theorem allowedService_iff_owned_iff (libc : Libc) (cnf : OwnCnf) (hline : line.length < 2 ^ 63) :
    (allowedService libc cnf line = true ↔ Owned libc cnf line) ↔
      ∀ host, HostPart libc line host → Distinguished libc cnf host := by
  rw [allowedService_iff hline]
  unfold Owned
  constructor
  · intro h host hhost
    have honly : ∀ {P : List UInt8 → Prop}, (∃ host, HostPart libc line host ∧ P host) ↔ P host :=
      ⟨fun ⟨_, hhost', hP⟩ => hostPart_unique hhost' hhost ▸ hP, fun hP => ⟨host, hhost, hP⟩⟩
    refine distinguished_of_iff ?_
    rwa [honly, honly] at h
  · intro h
    exact exists_congr fun host => and_congr_right fun hhost => (h host hhost).recognized_iff

/-- `http://` with this host, a port, a protocol and a description -/
def serviceOf (host : List UInt8) : List UInt8 :=
  [0x68, 0x74, 0x74, 0x70, 0x3a, 0x2f, 0x2f] ++ host ++ [0x3a, 0x38, 0x30, 0x7c, 0x74, 0x63, 0x70, 0x7c, 0x78]

/-- The library where the line with this host is the one that is looked at. -/
def libcFor (host : List UInt8) : Libc where
  regexec line := if line = serviceOf host then some ⟨7, 7 + host.length⟩ else none
  regexec_inside line m h := by
    split at h
    · next hline =>
      obtain rfl := Option.some.inj h
      rw [hline]
      refine .inr (.inr ⟨Int.le_add_of_nonneg_right (Int.natCast_nonneg _), ?_⟩)
      simp only [serviceOf, List.length_append, List.length_cons, List.length_nil]
      omega
    · cases h
  inetPton _ _ := none

/-- A node by the name of `proxy` with the suffix `.olsr` -/
def proxyCnf : OwnCnf where
  ipVersion := .inet
  ifnet := []
  hnaEntries := []
  myNames := [⟨[], .host, [0x70, 0x72, 0x6f, 0x78, 0x79]⟩]
  mySuffix := [0x2e, 0x6f, 0x6c, 0x73, 0x72]
  length_myNames := by decide
  length_mySuffix := by decide

theorem hostPart_libcFor (host : List UInt8) : HostPart (libcFor host) (serviceOf host) host := by
  refine ⟨⟨7, 7 + host.length⟩, if_pos rfl, by simp only; omega, ?_⟩
  have hn : ((7 : Int) + host.length).toNat - (7 : Int).toNat = host.length := by omega
  simp only [hn]
  change host = (host ++ _).take host.length
  rw [List.take_left]

/-- `other.olsr` is accepted by the node, its name being as long as the suffix. -/
theorem allowedService_not_owned : ∃ host, allowedService (libcFor host) proxyCnf (serviceOf host) = true ∧
    ¬Owned (libcFor host) proxyCnf (serviceOf host) := by
  refine ⟨[0x6f, 0x74, 0x68, 0x65, 0x72, 0x2e, 0x6f, 0x6c, 0x73, 0x72], by decide, ?_⟩
  rintro ⟨host, hhost, ⟨name, hname, hown⟩ | ⟨ip, hip, -⟩⟩
  · rw [← hostPart_unique (hostPart_libcFor _) hhost, List.mem_singleton.1 hname] at hown
    exact absurd hown (by decide)
  · cases hip

theorem allowedService_iff_owned_iff_proxy :
    allowedService (libcFor [0x70, 0x72, 0x6f, 0x78, 0x79, 0x2e, 0x6f, 0x6c, 0x73, 0x72]) proxyCnf
        (serviceOf [0x70, 0x72, 0x6f, 0x78, 0x79, 0x2e, 0x6f, 0x6c, 0x73, 0x72]) = true ↔
      Owned (libcFor [0x70, 0x72, 0x6f, 0x78, 0x79, 0x2e, 0x6f, 0x6c, 0x73, 0x72]) proxyCnf
        (serviceOf [0x70, 0x72, 0x6f, 0x78, 0x79, 0x2e, 0x6f, 0x6c, 0x73, 0x72]) := by
  refine (allowedService_iff_owned_iff _ proxyCnf (by decide)).2 fun host hhost => ?_
  rw [← hostPart_unique (hostPart_libcFor _) hhost]
  refine ⟨fun _ _ _ => .inl ⟨_, List.mem_singleton_self _, rfl⟩, fun name hname hshort => ?_, fun ip hip => ?_⟩
  · rw [List.mem_singleton.1 hname] at hshort
    exact absurd hshort (by decide)
  · cases hip

end Olsrd.Nameservice
