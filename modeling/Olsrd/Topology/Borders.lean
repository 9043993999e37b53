/-
The borders of a fragmented LQ_TC. The sender marks the first bit in which the last address of a
fragment and the first address of the next differ, and both sides of the cut are rebuilt from that
bit to the same address. What the fragments revoke together is everything from the lower border of
the first up to, but without, the upper border of the last.
-/
import Olsrd.Topology.TcAgreement
import Olsrd.Topology.TcFreshness

namespace Olsrd.Topology

open Bytes

variable {Lq : Type} {env : Env Lq}

/-! ## Bytes -/

theorem or_and_absorb (x m b : UInt8) : (x &&& (m ||| b)) ||| b = (x &&& m) ||| b := by
  refine UInt8.toBitVec_inj.1 (BitVec.eq_of_getLsbD_eq fun i _ => ?_)
  simp only [UInt8.toBitVec_or, UInt8.toBitVec_and, BitVec.getLsbD_or, BitVec.getLsbD_and]
  cases x.toBitVec.getLsbD i <;> cases m.toBitVec.getLsbD i <;> cases b.toBitVec.getLsbD i <;> rfl

/-- Setting a bit hides what it was. -/
theorem setBit_eq {x y k : UInt8} (hk : 0xff <<< k = 0xfe <<< k ||| 1 <<< k)
    (h : x &&& (0xfe <<< k) = y &&& (0xfe <<< k)) :
    (x &&& (0xff <<< k)) ||| (1 <<< k) = (y &&& (0xff <<< k)) ||| (1 <<< k) := by
  rw [hk, or_and_absorb, or_and_absorb, h]

theorem shift_mask {k : Nat} (hk : k < 8) :
    (0xff : UInt8) <<< UInt8.ofNat k = 0xfe <<< UInt8.ofNat k ||| 1 <<< UInt8.ofNat k := by
  interval_cases k <;> decide

/-- Two bytes agree above some bit. -/
theorem firstBitpos_spec (x y : UInt8) : firstBitpos x y < 8 ∧
    x &&& (0xfe <<< UInt8.ofNat (firstBitpos x y)) = y &&& (0xfe <<< UInt8.ofNat (firstBitpos x y)) := by
  unfold firstBitpos
  cases hf : (List.range 8).find? fun bitpos =>
      x &&& (0xfe <<< UInt8.ofNat bitpos) == y &&& (0xfe <<< UInt8.ofNat bitpos) with
  | none =>
    -- the mask for the last bit is empty
    have hlast := List.find?_eq_none.1 hf 7 (by decide)
    have hmask : (0xfe : UInt8) <<< UInt8.ofNat 7 = 0 := by decide
    simp only [hmask, UInt8.and_zero, beq_self_eq_true, not_true_eq_false] at hlast
  | some k =>
    have hmem := List.mem_of_find?_eq_some hf
    have heq := List.find?_some hf
    exact ⟨List.mem_range.1 hmem, by simpa using heq⟩

theorem bigEndian_append (l : List UInt8) (b : UInt8) : bigEndian (l ++ [b]) = bigEndian l * 256 + b.toNat := by
  simp [bigEndian]

theorem bigEndian_lt (l : List UInt8) : bigEndian l < 256 ^ l.length := by
  induction l using List.reverseRecOn with
  | nil => simp [bigEndian]
  | append_singleton l b ih =>
    have := b.toNat_lt
    rw [bigEndian_append, List.length_append, List.length_singleton, Nat.pow_succ]
    omega

theorem bigEndian_ones (n : Nat) : bigEndian (List.replicate n 0xff) + 1 = 256 ^ n := by
  induction n with
  | zero => rfl
  | succ n ih =>
    rw [List.replicate_succ', bigEndian_append, Nat.pow_succ, ← ih]
    show _ * 256 + 255 + 1 = _
    omega

theorem bigEndian_zeros (n : Nat) : bigEndian (List.replicate n 0) = 0 := by
  induction n with
  | zero => rfl
  | succ n ih => rw [List.replicate_succ', bigEndian_append, ih]; rfl

theorem bigEndian_inj {l l' : List UInt8} (hlen : l.length = l'.length) (h : bigEndian l = bigEndian l') : l = l' := by
  induction l using List.reverseRecOn generalizing l' with
  | nil => rw [List.length_nil] at hlen; exact (List.length_eq_zero_iff.1 hlen.symm).symm
  | append_singleton l b ih =>
    rcases List.eq_nil_or_concat l' with rfl | ⟨l'', b', rfl⟩
    · simp at hlen
    · rw [List.concat_eq_append] at h hlen ⊢
      rw [bigEndian_append, bigEndian_append] at h
      have h1 := b.toNat_lt
      have h2 := b'.toNat_lt
      rw [ih (by simpa using hlen) (by omega), UInt8.toNat_inj.1 (by omega : b.toNat = b'.toNat)]

/-! ## Border addresses -/

@[simp] theorem length_setAt (ip : IpAddr) (i : Int) (f : UInt8 → UInt8) : (setAt ip i f).length = ip.length := by
  unfold setAt; split <;> simp

theorem getElem?_setAt (ip : IpAddr) (j : Nat) (f : UInt8 → UInt8) (i : Nat) :
    (setAt ip j f)[i]? = if j = i then ip[i]?.map f else ip[i]? := by
  unfold setAt
  rw [if_pos (Int.natCast_nonneg j), Int.toNat_natCast, List.getElem?_modify]
  by_cases h : j = i
  · simp [h]
  · simp [h]

/-- The bytes that the loop over the lower bytes of an address clears. -/
theorem getElem?_cleared (n : Nat) (ip : IpAddr) (hlen : ip.length = n) (i : Nat) : ∀ q ≤ n,
    ((List.range q).foldl (fun ip (j : Nat) => setAt ip ((n : Int) - j - 1) fun _ => 0) ip)[i]? =
      if n - q ≤ i ∧ i < n then some (0 : UInt8) else ip[i]?
  | 0, _ => by
    rw [if_neg (by omega)]; rfl
  | q + 1, hq => by
    have hidx : (n : Int) - (q : Nat) - 1 = ((n - q - 1 : Nat) : Int) := by omega
    rw [List.range_succ, List.foldl_append, List.foldl_cons, List.foldl_nil, hidx, getElem?_setAt,
      getElem?_cleared n ip hlen i q (by omega)]
    by_cases hi : n - q - 1 = i
    · have hlt : i < ip.length := by omega
      rw [if_pos hi, if_neg (by omega), if_pos (by omega), List.getElem?_eq_getElem hlt]
      rfl
    · rw [if_neg hi]
      have hiff : (n - q ≤ i ∧ i < n) ↔ (n - (q + 1) ≤ i ∧ i < n) := by omega
      simp only [hiff]

/-- The border address for bit `k` of the byte `part`. -/
theorem getElem?_borderIp {platform : Platform} {cnf : Cnf} {fill flag : UInt8} {ip : IpAddr} {part k : Nat}
    (hlen : ip.length = cnf.ipsize) (hff : flag ≠ 0xff) (hk : k < 8) (hpart : part < cnf.ipsize)
    (hflag : (flag - 1).toNat = k + 8 * (cnf.ipsize - part - 1)) (i : Nat) :
    (borderIp platform cnf fill flag ip)[i]? =
      if part < i ∧ i < cnf.ipsize then some (0 : UInt8)
      else if part = i then
        ip[i]?.map (fun b : UInt8 => (b &&& (0xff <<< UInt8.ofNat k)) ||| (1 <<< UInt8.ofNat k))
      else ip[i]? := by
  have hdiv : (flag - 1).toNat / 8 = cnf.ipsize - part - 1 := by omega
  have hmod : (flag - 1).toNat % 8 = k := by omega
  have hidx : (cnf.ipsize : Int) - ((cnf.ipsize - part - 1 : Nat) : Nat) - 1 = (part : Int) := by omega
  unfold borderIp
  rw [if_neg hff]
  simp only [hdiv, hmod]
  rw [hidx, getElem?_setAt, getElem?_cleared cnf.ipsize ip hlen i _ (by omega)]
  by_cases hi : part = i
  · rw [if_pos hi, if_neg (by omega), if_neg (by omega), if_pos hi]
  · rw [if_neg hi, if_neg hi]
    have hiff : (cnf.ipsize - (cnf.ipsize - part - 1) ≤ i ∧ i < cnf.ipsize) ↔ (part < i ∧ i < cnf.ipsize) := by omega
    simp only [hiff]

@[simp] theorem length_borderIp (platform : Platform) (cnf : Cnf) (fill flag : UInt8) (ip : IpAddr) :
    (borderIp platform cnf fill flag ip).length = ip.length := by
  unfold borderIp
  split
  · simp [memsetPtr]
  · simp only [length_setAt]
    generalize List.range ((flag - 1).toNat / 8) = l
    induction l generalizing ip with
    | nil => rfl
    | cons j l ih => rw [List.foldl_cons, ih]; exact length_setAt _ _ _

/-- Where two addresses differ first. -/
theorem firstDifference_spec {cnf : Cnf} {a b : IpAddr} (ha : a.length = cnf.ipsize) (hb : b.length = cnf.ipsize)
    (hne : a ≠ b) : ∃ part, firstDifference cnf a b = some part ∧ part < cnf.ipsize ∧ ∀ i < part, a[i]? = b[i]? := by
  have hget : ∀ i < cnf.ipsize, (a.getD i 0 = b.getD i 0 ↔ a[i]? = b[i]?) := by
    intro i hi
    rw [List.getElem?_eq_getElem (by omega), List.getElem?_eq_getElem (by omega)]
    simp [List.getD, List.getElem?_eq_getElem (ha ▸ hi), List.getElem?_eq_getElem (hb ▸ hi)]
  unfold firstDifference
  cases hf : (List.range cnf.ipsize).find? fun part => a.getD part 0 != b.getD part 0 with
  | none =>
    refine absurd (List.ext_getElem? fun i => ?_) hne
    by_cases hi : i < cnf.ipsize
    · have := List.find?_eq_none.1 hf i (List.mem_range.2 hi)
      exact (hget i hi).1 (by simpa using this)
    · rw [List.getElem?_eq_none (by omega), List.getElem?_eq_none (by omega)]
  | some part =>
    have hmem := List.mem_range.1 (List.mem_of_find?_eq_some hf)
    refine ⟨part, rfl, hmem, fun i hi => (hget i (by omega)).1 ?_⟩
    have hnot := (List.find?_range_eq_some.1 hf).2.2 i hi
    simpa using hnot

/-- The flag of a cut is no special value, and both sides of the cut are rebuilt to the same address. -/
theorem borderIp_meet (platform : Platform) {cnf : Cnf} {a b : IpAddr} (ha : a.length = cnf.ipsize)
    (hb : b.length = cnf.ipsize) (hne : a ≠ b) (fill fill' : UInt8) :
    calculateBorderFlag cnf a b ≠ 0 ∧ calculateBorderFlag cnf a b ≠ 0xff ∧
      borderIp platform cnf fill (calculateBorderFlag cnf a b) a =
        borderIp platform cnf fill' (calculateBorderFlag cnf a b) b := by
  obtain ⟨part, hpart, hlt, heq⟩ := firstDifference_spec ha hb hne
  obtain ⟨hk, hmask⟩ := firstBitpos_spec (a.getD part 0) (b.getD part 0)
  generalize hkdef : firstBitpos (a.getD part 0) (b.getD part 0) = k at hk hmask
  have hflag : calculateBorderFlag cnf a b = UInt8.ofNat (k + 8 * (cnf.ipsize - part - 1)) + 1 := by
    unfold calculateBorderFlag; rw [hpart]; simp only [hkdef]
  have hsmall : k + 8 * (cnf.ipsize - part - 1) < 128 := by rcases cnf.ipsize_cases with h | h <;> omega
  have hsub : (calculateBorderFlag cnf a b - 1).toNat = k + 8 * (cnf.ipsize - part - 1) := by
    rw [hflag, UInt8.add_sub_cancel, UInt8.toNat_ofNat']; omega
  have hnat : (calculateBorderFlag cnf a b).toNat = k + 8 * (cnf.ipsize - part - 1) + 1 := by
    rw [hflag, UInt8.toNat_add, UInt8.toNat_ofNat']
    show (_ % 2 ^ 8 + 1) % 2 ^ 8 = _
    omega
  have hff : calculateBorderFlag cnf a b ≠ 0xff := by
    intro h; rw [h] at hnat; change 255 = _ at hnat; omega
  refine ⟨?_, hff, List.ext_getElem? fun i => ?_⟩
  · intro h; rw [h] at hnat; change 0 = _ at hnat; omega
  · rw [getElem?_borderIp ha hff hk hlt hsub, getElem?_borderIp hb hff hk hlt hsub]
    by_cases hi : part = i
    · subst hi
      have hset := setBit_eq (shift_mask hk) hmask
      rw [List.getD_eq_getElem?_getD, List.getD_eq_getElem?_getD, List.getElem?_eq_getElem (ha ▸ hlt),
        List.getElem?_eq_getElem (hb ▸ hlt), Option.getD_some, Option.getD_some] at hset
      rw [if_neg (by omega), if_pos rfl, if_neg (by omega), if_pos rfl, List.getElem?_eq_getElem (ha ▸ hlt),
        List.getElem?_eq_getElem (hb ▸ hlt), Option.map_some, Option.map_some, hset]
    · by_cases hgt : part < i ∧ i < cnf.ipsize
      · rw [if_pos hgt, if_pos hgt]
      · rw [if_neg hgt, if_neg hi, if_neg hgt, if_neg hi]
        by_cases hlt' : i < part
        · exact heq i hlt'
        · rw [List.getElem?_eq_none (by omega), List.getElem?_eq_none (by omega)]

/-! ## Intervals -/

/-- The borders the receiver rebuilds for a fragment. -/
def fragmentInterval (env : Env Lq) (f : TcFragment) : Option (IpAddr × IpAddr) :=
  olsrCalculateTcBorder env.platform env.cnf f.lower f.upper (firstAddr f.neighbors) (lastAddr f.neighbors)

/-- `b` lies in the interval of `f`. -/
def InInterval (env : Env Lq) (f : TcFragment) (b : IpAddr) : Prop :=
  ∃ lower upper, fragmentInterval env f = some (lower, upper) ∧ env.between lower upper b = true

/-- The address with all bits set. -/
def onesAddr (cnf : Cnf) : IpAddr := List.replicate cnf.ipsize 0xff

/-- The fragments divide the address space among them, and each one's addresses are in its own part. -/
structure BorderPartition (env : Env Lq) (fs : List TcFragment) : Prop where
  covers : ∀ b : IpAddr, b.length = env.cnf.ipsize → ∃ f ∈ fs, InInterval env f b
  disjoint : fs.Pairwise fun f g => ∀ b, ¬ (InInterval env f b ∧ InInterval env g b)
  own : ∀ f ∈ fs, ∀ n ∈ f.neighbors, InInterval env f n.1

theorem addrKey_le_ones (env : Env Lq) {b : IpAddr} (hb : b.length = env.cnf.ipsize) :
    addrKey env.platform env.cnf.ipVersion b ≤ addrKey env.platform env.cnf.ipVersion (onesAddr env.cnf) := by
  have hones := bigEndian_ones env.cnf.ipsize
  have hlt := bigEndian_lt b
  have hlt' := bigEndian_lt b.reverse
  rw [List.length_reverse] at hlt'
  rw [hb] at hlt hlt'
  unfold addrKey onesAddr
  cases env.cnf.ipVersion with
  | inet =>
    dsimp only
    rw [List.reverse_replicate]
    split <;> omega
  | inet6 => dsimp only; omega

theorem length_firstAddr {cnf : Cnf} {k : Nat} {L : List TcMprAddr} (h : WellSized cnf k L) (hne : L ≠ []) :
    (firstAddr L).length = cnf.ipsize := by
  cases L with
  | nil => exact absurd rfl hne
  | cons n L => exact (h n (List.mem_cons_self ..)).1

theorem lastAddr_eq {L : List TcMprAddr} (hne : L ≠ []) : lastAddr L = (L.getLast hne).1 := by
  unfold lastAddr; rw [List.getLast?_eq_some_getLast hne]; rfl

theorem length_lastAddr {cnf : Cnf} {k : Nat} {L : List TcMprAddr} (h : WellSized cnf k L) (hne : L ≠ []) :
    (lastAddr L).length = cnf.ipsize := by
  rw [lastAddr_eq hne]; exact (h _ (List.getLast_mem hne)).1

/-- The upper border is outside the interval, and nothing is above the address with all bits set. -/
theorem not_inInterval_ones {env : Env Lq} {f : TcFragment} {k : Nat} (hsized : WellSized env.cnf k f.neighbors)
    (hne : f.neighbors ≠ []) : ¬ InInterval env f (onesAddr env.cnf) := by
  rintro ⟨lower, upper, hi, hb⟩
  have hlen : upper.length = env.cnf.ipsize := by
    unfold fragmentInterval olsrCalculateTcBorder at hi
    split at hi
    · cases hi
    · obtain ⟨-, rfl⟩ := Prod.mk.inj (Option.some.inj hi)
      rw [length_borderIp, length_lastAddr hsized hne]
  have hle := addrKey_le_ones env hlen
  simp only [Env.between, Env.addrLt, addrLt, Bool.and_eq_true, decide_eq_true_eq] at hb
  omega

theorem inInterval_iff {env : Env Lq} {f : TcFragment} {b : IpAddr} (h : ¬ (f.lower = 0 ∧ f.upper = 0)) :
    InInterval env f b ↔ env.addrLt b (borderIp env.platform env.cnf 0 f.lower (firstAddr f.neighbors)) = false ∧
      env.addrLt b (borderIp env.platform env.cnf 0xff f.upper (lastAddr f.neighbors)) = true := by
  unfold InInterval fragmentInterval olsrCalculateTcBorder
  rw [if_neg h]
  constructor
  · rintro ⟨lower, upper, hi, hb⟩
    obtain ⟨rfl, rfl⟩ := Prod.mk.inj (Option.some.inj hi)
    simpa [Env.between] using hb
  · rintro ⟨h1, h2⟩
    exact ⟨_, _, rfl, by simp [Env.between, h1, h2]⟩

/-- A list cut into nonempty fragments. -/
structure CutInto (ns : List TcMprAddr) (frags : List (List TcMprAddr)) : Prop where
  flatten : frags.flatten = ns
  nonempty : ∀ L ∈ frags, L ≠ []

theorem CutInto.tail {ns L : List TcMprAddr} {frags : List (List TcMprAddr)}
    (h : CutInto ns (L :: frags)) : CutInto frags.flatten frags :=
  ⟨rfl, fun M hM => h.nonempty M (List.mem_cons_of_mem _ hM)⟩

/-- Where one fragment ends the next begins, so that together they reach from the lower border of the first
to the upper border of the last. -/
theorem exists_inInterval {env : Env Lq} {k : Nat} {b : IpAddr}
    (htop : ∀ a : IpAddr, a.length = env.cnf.ipsize → env.addrLt b (borderIp env.platform env.cnf 0xff 0xff a) = true) :
    ∀ (frags : List (List TcMprAddr)) (L : List TcMprAddr) (left : UInt8), CutInto (L :: frags).flatten (L :: frags) →
      WellSized env.cnf k (L :: frags).flatten → ((L :: frags).flatten.map Prod.fst).Nodup → left ≠ 0 →
      env.addrLt b (borderIp env.platform env.cnf 0 left (firstAddr L)) = false →
      ∃ f ∈ lqTcFragments env.cnf left (L :: frags), InInterval env f b
  | [], L, left, hcut, hsized, _, hleft, hlow => by
    have hL : L ≠ [] := hcut.nonempty L (List.mem_cons_self ..)
    rw [List.flatten_cons, List.flatten_nil, List.append_nil] at hsized
    refine ⟨⟨left, 0xff, L⟩, by simp [lqTcFragments], (inInterval_iff fun h => hleft h.1).2 ⟨hlow, ?_⟩⟩
    exact htop _ (length_lastAddr hsized hL)
  | L' :: frags, L, left, hcut, hsized, hnd, hleft, hlow => by
    have hL : L ≠ [] := hcut.nonempty L (List.mem_cons_self ..)
    have hL' : L' ≠ [] := hcut.nonempty L' (by simp)
    have hsizedL : WellSized env.cnf k L := fun n hn => hsized n (by simp [hn])
    have hsized' : WellSized env.cnf k (L' :: frags).flatten := fun n hn => hsized n (by
      rw [List.flatten_cons]; exact List.mem_append_right _ hn)
    have hsizedL' : WellSized env.cnf k L' := fun n hn => hsized' n (by simp [hn])
    rw [List.flatten_cons, List.map_append, List.nodup_append] at hnd
    have hne : lastAddr L ≠ firstAddr L' := by
      obtain ⟨n, M, rfl⟩ := List.exists_cons_of_ne_nil hL'
      rw [lastAddr_eq hL]
      exact hnd.2.2 _ (List.mem_map_of_mem (List.getLast_mem hL)) n.1 (by simp)
    obtain ⟨hflag, -, hmeet⟩ := borderIp_meet env.platform (length_lastAddr hsizedL hL)
      (length_firstAddr hsizedL' hL') hne 0xff 0
    generalize hborder : calculateBorderFlag env.cnf (lastAddr L) (firstAddr L') = border at hflag hmeet
    have hfs : lqTcFragments env.cnf left (L :: L' :: frags) =
        ⟨left, border, L⟩ :: lqTcFragments env.cnf border (L' :: frags) := by rw [lqTcFragments, hborder]
    rw [hfs]
    cases hup : env.addrLt b (borderIp env.platform env.cnf 0xff border (lastAddr L)) with
    | true => exact ⟨_, List.mem_cons_self .., (inInterval_iff fun h => hleft h.1).2 ⟨hlow, hup⟩⟩
    | false =>
      rw [hmeet] at hup
      obtain ⟨f, hf, hin⟩ := exists_inInterval htop frags L' border hcut.tail hsized' hnd.2.1 hflag hup
      exact ⟨f, List.mem_cons_of_mem _ hf, hin⟩

theorem memsetPtr_inet {platform : Platform} {cnf : Cnf} (hv : cnf.ipVersion = .inet) (hptr : 4 ≤ platform.sizeofPtr)
    (v : UInt8) {ip : IpAddr} (hlen : ip.length = cnf.ipsize) :
    memsetPtr platform v ip = List.replicate cnf.ipsize v := by
  have hsize : cnf.ipsize = 4 := by unfold Cnf.ipsize; rw [hv]; rfl
  refine List.ext_getElem (by simp [memsetPtr, hlen]) fun i h1 _ => ?_
  have hi : i < platform.sizeofPtr := by
    unfold memsetPtr at h1; rw [List.length_mapIdx] at h1; omega
  simp [memsetPtr, hi]

theorem addrKey_inj {platform : Platform} {v : IpVersion} {a b : IpAddr} (hlen : a.length = b.length)
    (h : addrKey platform v a = addrKey platform v b) : a = b := by
  unfold addrKey at h
  cases v with
  | inet =>
    dsimp only at h
    split at h
    · exact List.reverse_injective (bigEndian_inj (by simpa using hlen) h)
    · exact bigEndian_inj hlen h
  | inet6 => exact bigEndian_inj hlen h

/-- With addresses no longer than a pointer, the fragments reach every address but the highest. -/
theorem exists_inInterval_inet {env : Env Lq} {k : Nat} (hv : env.cnf.ipVersion = .inet)
    (hptr : 4 ≤ env.platform.sizeofPtr)
    {ns : List TcMprAddr} {frags : List (List TcMprAddr)} (hcut : CutInto ns frags) (hne : ns ≠ [])
    (hsized : WellSized env.cnf k ns) (hnd : (ns.map Prod.fst).Nodup) {b : IpAddr} (hb : b.length = env.cnf.ipsize)
    (hones : b ≠ onesAddr env.cnf) : ∃ f ∈ lqTcFragments env.cnf 0xff frags, InInterval env f b := by
  have hle := addrKey_le_ones env hb
  have hlen : b.length = (onesAddr env.cnf).length := by rw [hb]; exact List.length_replicate.symm
  have hneq : addrKey env.platform env.cnf.ipVersion b ≠ addrKey env.platform env.cnf.ipVersion (onesAddr env.cnf) :=
    fun h => hones (addrKey_inj hlen h)
  obtain rfl := hcut.flatten
  cases frags with
  | nil => exact absurd rfl hne
  | cons L frags =>
    refine exists_inInterval (fun a ha => ?_) frags L 0xff hcut hsized hnd (by decide) ?_
    · unfold borderIp
      rw [if_pos rfl, memsetPtr_inet hv hptr _ ha]
      simp only [Env.addrLt, addrLt, decide_eq_true_eq]
      exact lt_of_le_of_ne hle hneq
    · have hL : L ≠ [] := hcut.nonempty L (List.mem_cons_self ..)
      have hsizedL : WellSized env.cnf k L := fun n hn => hsized n (by simp [hn])
      have hzero : addrKey env.platform .inet (List.replicate env.cnf.ipsize 0) = 0 := by
        unfold addrKey; dsimp only
        rw [List.reverse_replicate, bigEndian_zeros]; split <;> rfl
      unfold borderIp
      rw [if_pos rfl, memsetPtr_inet hv hptr _ (length_firstAddr hsizedL hL)]
      simp [Env.addrLt, addrLt, hv, hzero]

/-! ## What remains after all fragments -/

variable {s s' : Lsdb Lq} {hd : TcHead}

theorem bordersAfter_some (a b : IpAddr) (l : List IpAddr) :
    bordersAfter (some (a, b)) l = some (a, (l.getLast?).getD b) := by
  unfold bordersAfter
  induction l generalizing b with
  | nil => rfl
  | cons c l ih => rw [List.foldl_cons, Option.map_some, Option.getD_some, ih, List.getLast?_cons]; rfl

/-- The receiver takes the borders from the first and the last record. -/
theorem tcBorders_eq {msg : Mem} {f : TcFragment} (hc : Carries env hd msg f) (hne : f.neighbors ≠ []) :
    tcBorders env (headerOf env msg) (f.neighbors.map Prod.fst) = fragmentInterval env f := by
  unfold tcBorders fragmentInterval
  rw [hc.lower, hc.upper]
  obtain ⟨n, L, hL⟩ := List.exists_cons_of_ne_nil hne
  have hlast : ((L.map Prod.fst).getLast?).getD n.1 = lastAddr (n :: L) := by
    unfold lastAddr
    rw [List.getLast?_map, List.getLast?_cons]
    cases L.getLast? <;> rfl
  have hafter : bordersAfter none ((n :: L).map Prod.fst) = bordersAfter (some (n.1, n.1)) (L.map Prod.fst) := rfl
  rw [hL, hafter, bordersAfter_some, hlast]
  rfl

theorem inStep_of_allowed (hlq : 0 < env.cnf.lqLevel) (E : EdgeMap Lq) {L : List TcMprAddr}
    (h : ∀ n ∈ L, olsrValidateAddress env.cnf n.1 = true) : InStep env E L := by
  intro n hn
  exact .inr (by rw [h n (mem_of_mem_guarded hn)]; simp [hlq])

theorem revokeWithin_fragment {f : TcFragment} (ansn : UInt16) (E : EdgeMap Lq) (b : IpAddr) (d : TcEdgeEntry Lq) :
    revokeWithin env ansn E (fragmentInterval env f) b = some d ↔
      E b = some d ∧ ¬ (seqnoGreaterThan ansn d.ansn = true ∧ InInterval env f b) := by
  unfold InInterval
  cases hi : fragmentInterval env f with
  | none => simp [revokeWithin]
  | some lu =>
    obtain ⟨lower, upper⟩ := lu
    simp only [revokeWithin, revoke, Option.filter_eq_some_iff, Option.some.injEq, Prod.mk.injEq, Bool.not_eq_true']
    refine and_congr_right fun _ => ?_
    rw [← Bool.not_eq_true, Bool.and_eq_true]
    refine not_congr (and_comm.trans (and_congr_right fun _ => ⟨fun h => ⟨lower, upper, ⟨rfl, rfl⟩, h⟩, ?_⟩))
    rintro ⟨l, u, ⟨rfl, rfl⟩, h⟩; exact h

/-- Of the edges that are not advertised again, a run removes those that are older and in the interval of
one of its fragments. -/
theorem RunOf.remains (hlq : 0 < env.cnf.lqLevel) : ∀ {fs : List TcFragment} {msgs : List Mem} {s : Lsdb Lq}
    {rs : List (TcResult Lq)}, RunOf env hd s msgs fs s' rs → (∀ f ∈ fs, f.neighbors ≠ []) →
    (∀ n ∈ allNeighbors fs, olsrValidateAddress env.cnf n.1 = true) → ∀ b, b ∉ (allNeighbors fs).map Prod.fst → ∀ d,
      (edgesFrom s' hd.originator b = some d ↔ edgesFrom s hd.originator b = some d ∧
        ¬ (seqnoGreaterThan hd.ansn d.ansn = true ∧ ∃ f ∈ fs, InInterval env f b))
  | [], msgs, s, rs, h, _, _, b, _, d => by
    have hmsgs := h.carries
    rw [List.forall₂_nil_right_iff] at hmsgs
    subst hmsgs
    obtain ⟨rfl, rfl⟩ := Prod.mk.inj (Option.some.inj h.receives)
    simp
  | f :: fs, [], s, rs, h, _, _, _, _, _ => by cases h.carries
  | f :: fs, msg :: msgs, s, rs, h, hne, hallowed, b, hb, d => by
    obtain ⟨r, rs', p, rfl, hacc, hc, hrest⟩ := h.cons
    have hnd := h.nodup
    have hsized := h.sized
    rw [allNeighbors, List.flatMap_cons] at hsized hnd hallowed hb
    rw [List.map_append, List.nodup_append] at hnd
    rw [List.map_append, List.mem_append, not_or] at hb
    have hf := hne f (List.mem_cons_self ..)
    obtain ⟨E, hst, hE⟩ := (hacc.fragment hc (fun n hn => hsized n (List.mem_append_left _ hn)) hnd.1
      fun hk => hf hk.1).2 (inStep_of_allowed hlq _ fun n hn => hallowed n (List.mem_append_left _ hn))
    rw [RunOf.remains hlq hrest (fun g hg => hne g (List.mem_cons_of_mem _ hg))
      (fun n hn => hallowed n (List.mem_append_right _ hn)) b hb.2 d, hE, tcBorders_eq hc hf,
      revokeWithin_fragment, hst.others b hb.1]
    simp only [List.mem_cons, exists_eq_or_imp]
    rw [and_assoc, ← not_or, ← and_or_left]

theorem RunOf.advertised (hlq : 0 < env.cnf.lqLevel) {fs : List TcFragment} {msgs : List Mem} {rs : List (TcResult Lq)}
    (h : RunOf env hd s msgs fs s' rs) (hne : ∀ f ∈ fs, f.neighbors ≠ [])
    (hallowed : ∀ n ∈ allNeighbors fs, olsrValidateAddress env.cnf n.1 = true) {n : TcMprAddr}
    (hn : n ∈ allNeighbors fs) :
    ∃ d, edgesFrom s' hd.originator n.1 = some d ∧ d.ansn = hd.ansn := by
  obtain ⟨hfacts, hplace⟩ := h.facts (fun f hf hk => hne f hf hk.1) fun hz => by omega
  have hin := hplace (fun f hf => inStep_of_allowed hlq _ fun m hm => hallowed m (List.mem_flatMap.2 ⟨f, hf, hm⟩))
    fun m hm _ => hallowed m hm
  exact (hfacts hin).1.withLq hlq n hn

theorem nodup_of_sorted {ns : List TcMprAddr} (h : ns.Pairwise fun n m => env.addrLt n.1 m.1 = true) :
    (ns.map Prod.fst).Nodup := by
  refine List.pairwise_map.2 (h.imp fun {n m} hlt heq => ?_)
  simp [heq, Env.addrLt, addrLt] at hlt

/-- Whatever the list and its fragments, the address with all bits set is in no interval. In IPv4 it is the
only one. Of the edges that are not advertised again those to an address in no interval remain. -/
theorem not_borderPartition (env : Env Lq) {ns : List TcMprAddr} {frags : List (List TcMprAddr)}
    (hcut : CutInto ns frags) (hne : ns ≠ []) (hsized : WellSized env.cnf 4 ns)
    (hsorted : ns.Pairwise fun n m => env.addrLt n.1 m.1 = true) :
    ¬ BorderPartition env (lqTcFragments env.cnf 0xff frags) ∧
      (env.cnf.ipVersion = .inet → 4 ≤ env.platform.sizeofPtr → ∀ b : IpAddr, b.length = env.cnf.ipsize →
        ((∃ f ∈ lqTcFragments env.cnf 0xff frags, InInterval env f b) ↔ b ≠ onesAddr env.cnf)) ∧
      ∀ (hd : TcHead) (s s' : Lsdb Lq) (msgs : List Mem) (rs : List (TcResult Lq)),
        RunOf env hd s msgs (lqTcFragments env.cnf 0xff frags) s' rs → 0 < env.cnf.lqLevel →
        (∀ n ∈ ns, olsrValidateAddress env.cnf n.1 = true) →
        (∀ n ∈ ns, ∃ d, edgesFrom s' hd.originator n.1 = some d ∧ d.ansn = hd.ansn) ∧
          ∀ b, b ∉ ns.map Prod.fst → ∀ d, edgesFrom s' hd.originator b = some d ↔
            edgesFrom s hd.originator b = some d ∧ ¬ (seqnoGreaterThan hd.ansn d.ansn = true ∧
              ∃ f ∈ lqTcFragments env.cnf 0xff frags, InInterval env f b) := by
  have hmap := neighbors_lqTcFragments env.cnf 0xff frags
  have hmem : ∀ f ∈ lqTcFragments env.cnf 0xff frags, f.neighbors ∈ frags := fun f hf => by
    rw [← hmap]; exact List.mem_map_of_mem hf
  have hall : allNeighbors (lqTcFragments env.cnf 0xff frags) = ns := by
    rw [allNeighbors, List.flatMap_def, hmap, hcut.flatten]
  have hfne : ∀ f ∈ lqTcFragments env.cnf 0xff frags, f.neighbors ≠ [] := fun f hf => hcut.nonempty _ (hmem f hf)
  have hfsized : ∀ f ∈ lqTcFragments env.cnf 0xff frags, WellSized env.cnf 4 f.neighbors := fun f hf n hn =>
    hsized n (by rw [← hall]; exact List.mem_flatMap.2 ⟨f, hf, hn⟩)
  have hones : ¬ ∃ f ∈ lqTcFragments env.cnf 0xff frags, InInterval env f (onesAddr env.cnf) := by
    rintro ⟨f, hf, hin⟩
    exact not_inInterval_ones (hfsized f hf) (hfne f hf) hin
  refine ⟨fun h => hones (h.covers _ List.length_replicate), fun hv hptr b hb => ⟨?_, ?_⟩, ?_⟩
  · rintro hex rfl; exact hones hex
  · exact exists_inInterval_inet hv hptr hcut hne hsized (nodup_of_sorted hsorted) hb
  · intro hd s s' msgs rs hrun hlq hallowed
    rw [← hall] at hallowed ⊢
    exact ⟨fun n hn => hrun.advertised hlq hfne hallowed hn, hrun.remains hlq hfne hallowed⟩

/-- 10.0.0.2 with number 6. -/
def olderHead : TcHead := ⟨202, 0x86, [10, 0, 0, 2], 255, 0, 6⟩

/-- A message that names 10.0.0.4. -/
def olderMsg : Mem := memOf (tcBytes olderHead 99 0xff 0xff (records [([10, 0, 0, 4], [0, 0, 0, 0])]))

/-- 10.0.0.2 with number 7. -/
def newerHead : TcHead := { olderHead with ansn := 7 }

/-- Its neighbours, in two messages. -/
def twoParts : List (List TcMprAddr) :=
  [[([10, 0, 0, 3], [0, 0, 0, 0])], [([10, 0, 0, 5], [0, 0, 0, 0]), ([10, 0, 0, 9], [0, 0, 0, 0])]]

def newerMsg (seqno : UInt16) (f : TcFragment) : Mem :=
  memOf (tcBytes newerHead seqno f.lower f.upper (records f.neighbors))

theorem twoParts_fragments : lqTcFragments plainEnv.cnf 0xff twoParts =
    [⟨0xff, 3, [([10, 0, 0, 3], [0, 0, 0, 0])]⟩,
      ⟨3, 0xff, [([10, 0, 0, 5], [0, 0, 0, 0]), ([10, 0, 0, 9], [0, 0, 0, 0])]⟩] := rfl

/-- The three messages, one after the other. -/
theorem twoParts_run : ∃ s s' rs, RunOf plainEnv newerHead s
    [newerMsg 100 ⟨0xff, 3, [([10, 0, 0, 3], [0, 0, 0, 0])]⟩,
      newerMsg 101 ⟨3, 0xff, [([10, 0, 0, 5], [0, 0, 0, 0]), ([10, 0, 0, 9], [0, 0, 0, 0])]⟩]
    (lqTcFragments plainEnv.cnf 0xff twoParts) s' rs ∧
    ∃ d, edgesFrom s [10, 0, 0, 2] [10, 0, 0, 4] = some d ∧ d.ansn = 6 := by
  have hmain : plainEnv.cnf.HasMainAddr := rfl
  have htype₀ : IsTc olderMsg := .inl rfl
  have hgate₀ : GateOpen (emptyLsdb Unit) (headerOf plainEnv olderMsg) := fun p t hp => by cases hp
  obtain ⟨r₀, -, hw₀, ho₀, h₀, -⟩ := applied_of_processed (wf_empty Unit) (fun _ _ h => by cases h) htype₀ hgate₀ hmain
  have hedge := h₀.edges _ (recordAddrs_first plainEnv (emptyLsdb Unit) olderMsg (by decide)) (by decide)
  have hn₀ : storedNumbers r₀.db [10, 0, 0, 2] = some (UInt16.ofNat 99, UInt16.ofNat 6) :=
    h₀.numbers fun hclean => absurd hclean.1 (by decide)
  have htype₁ : IsTc (newerMsg 100 ⟨0xff, 3, [([10, 0, 0, 3], [0, 0, 0, 0])]⟩) := .inl rfl
  obtain ⟨r₁, hr₁, hw₁, ho₁, h₁⟩ := applied_next (k := 100) (b := 7) hw₀ ho₀ hmain htype₁ hn₀ rfl rfl (by decide)
    (by decide) (by decide) (by decide)
  have hn₁ : storedNumbers r₁.db [10, 0, 0, 2] = some (UInt16.ofNat 100, UInt16.ofNat 7) :=
    h₁.numbers fun hclean => absurd hclean.1 (by decide)
  have htype₂ : IsTc (newerMsg 101 ⟨3, 0xff, [([10, 0, 0, 5], [0, 0, 0, 0]), ([10, 0, 0, 9], [0, 0, 0, 0])]⟩) :=
    .inl rfl
  obtain ⟨r₂, hr₂, -, -, h₂⟩ := applied_next (k := 101) (b := 7) hw₁ ho₁ hmain htype₂ hn₁ rfl rfl (by decide)
    (by decide) (by decide) (by decide)
  refine ⟨r₀.db, r₂.db, [r₁, r₂], ⟨hw₀, ho₀, ?_, .inl rfl, by unfold WellSized; decide, by decide,
    by simp [receiveTcs, hr₁, hr₂], by simp [h₁.forward, h₂.forward]⟩, hedge⟩
  rw [twoParts_fragments]
  exact .cons (carries_of_holds rfl (by decide) (holds_memOf _))
    (.cons (carries_of_holds rfl (by decide) (holds_memOf _)) .nil)

/-- After both messages the older edge is gone and the named ones are there, although the intervals are no partition. -/
theorem not_borderPartition_twoParts : ¬ BorderPartition plainEnv (lqTcFragments plainEnv.cnf 0xff twoParts) ∧
    ∃ s s' msgs rs, RunOf plainEnv newerHead s msgs (lqTcFragments plainEnv.cnf 0xff twoParts) s' rs ∧
      (edgesFrom s [10, 0, 0, 2] [10, 0, 0, 4]).isSome = true ∧ edgesFrom s' [10, 0, 0, 2] [10, 0, 0, 4] = none ∧
      ∀ n ∈ twoParts.flatten, ∃ d, edgesFrom s' [10, 0, 0, 2] n.1 = some d ∧ d.ansn = 7 := by
  have hcut : CutInto twoParts.flatten twoParts := ⟨rfl, by simp [twoParts]⟩
  obtain ⟨hno, hinet, hruns⟩ := not_borderPartition plainEnv hcut (by decide) (by unfold WellSized; decide) (by decide)
  obtain ⟨s, s', rs, hrun, d, hd, hansn⟩ := twoParts_run
  obtain ⟨hnamed, hrest⟩ := hruns newerHead s s' _ rs hrun (by decide) (by decide)
  refine ⟨hno, s, s', _, rs, hrun, by rw [hd]; rfl, ?_, hnamed⟩
  refine Option.eq_none_iff_forall_ne_some.2 fun x hx => ?_
  obtain ⟨hold, hkept⟩ := (hrest [10, 0, 0, 4] (by decide) x).1 hx
  obtain rfl := Option.some.inj (hd.symm.trans hold)
  exact hkept ⟨by rw [hansn]; decide, (hinet rfl (by decide) [10, 0, 0, 4] rfl).2 (by decide)⟩


/-- A node that uses IPv6. -/
def plainEnv6 : Env Unit :=
  { plainEnv with cnf := ⟨.inet6, [0xfd, 0, 0, 0, 0, 0, 0, 0, 0, 0, 0, 0, 0, 0, 0, 1], 2, []⟩ }

/-- The message for fd00::9 covers neither the address with all bits set nor, with pointers of 8 bytes, ::1. -/
theorem oneNeighbor_uncovered :
    (¬ ∃ f ∈ lqTcFragments plainEnv.cnf 0xff [[([10, 0, 0, 3], [0, 0, 0, 0])]],
    InInterval plainEnv f [255, 255, 255, 255]) ∧
    ¬ ∃ f ∈ lqTcFragments plainEnv6.cnf 0xff [[([0xfd, 0, 0, 0, 0, 0, 0, 0, 0, 0, 0, 0, 0, 0, 0, 9], [0, 0, 0, 0])]],
      InInterval plainEnv6 f [0, 0, 0, 0, 0, 0, 0, 0, 0, 0, 0, 0, 0, 0, 0, 1] := by
  constructor
  · simp only [lqTcFragments, List.mem_singleton, exists_eq_left]
    rw [inInterval_iff (by decide)]
    decide
  · simp only [lqTcFragments, List.mem_singleton, exists_eq_left]
    rw [inInterval_iff (by decide)]
    decide

end Olsrd.Topology
