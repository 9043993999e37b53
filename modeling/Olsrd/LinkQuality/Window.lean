/-
The windows of received packets of the link quality plugins `etx_ff` and `etx_hybrid_plc`. Each has a slot for a second,
with the packets that came and those that the sequence numbers say were sent. `valueLq` is a fixed-point ratio of their
sums, less what the missed HELLO messages of the own interval would have taken.
-/
import Olsrd.Flood.Output
import Olsrd.LinkQuality.HybridPlc
import Olsrd.Plc.Peers

namespace Olsrd.LinkQuality

open Olsrd.Flood.Output (IfMode)
open Olsrd.Plc (PlcTable lookupPlcPeerByIp)

/-! ## Fixed point -/

/-- A `long`; none of its values here needs more than 64 bits. -/
abbrev Fpm := Int

def itofpm (a : Int) : Fpm := a <<< (10 : Nat)

def fpmtoi (a : Fpm) : Int := a >>> (10 : Nat)

def fpmmuli (a : Fpm) (b : Int) : Fpm := a * b

def fpmidiv (a : Fpm) (b : Int) : Fpm := a.tdiv b

/-- `LINK_LOSS_MULTIPLIER` -/
def linkLossMultiplier : Nat := 65536

/-! ## Windows -/

/-- `LQ_FF_WINDOW` and `LQ_HYBRID_PLC_WINDOW` -/
def lqWindow : Nat := 32

/-- The part that `struct default_lq_ff_hello` and `struct default_lq_hybrid_plc_hello` have in common -/
structure LqWindow where
  windowSize : UInt8
  activePtr : UInt8
  lastSeqNr : UInt16
  missedHellos : UInt16
  received : Nat → UInt16
  total : Nat → UInt16

/-- What the sequence numbers say was sent since the last packet; a jump counts as one packet. -/
def seqDiff (lastSeqNr seqno : UInt16) : Nat :=
  let seqDiff :=
    if lastSeqNr > seqno then seqno.toNat + 65536 - lastSeqNr.toNat else seqno.toNat - lastSeqNr.toNat
  if seqDiff > 256 then 1 else seqDiff

namespace LqWindow

/-- The memory of a new link, cleared. -/
def clear : LqWindow := ⟨4, 0, 0, 0, fun _ => 0, fun _ => 3⟩

/-- A packet from the link -/
def parser (w : LqWindow) (seqno : UInt16) : LqWindow :=
  -- ignore double package
  if w.lastSeqNr = seqno then w
  else
    { w with
      received := Function.update w.received w.activePtr.toNat (w.received w.activePtr.toNat + 1)
      total := Function.update w.total w.activePtr.toNat
        (w.total w.activePtr.toNat + UInt16.ofNat (seqDiff w.lastSeqNr seqno))
      lastSeqNr := seqno
      missedHellos := 0 }

def packetLossWorker (w : LqWindow) (lost : Bool) : LqWindow :=
  if lost then { w with missedHellos := w.missedHellos + 1 } else w

/-- Enlarge the window if it is still in its quickstart phase. -/
def enlarge (w : LqWindow) : LqWindow :=
  if w.windowSize < 32 then { w with windowSize := w.windowSize + 1 } else w

def sum (w : LqWindow) (slots : Nat → UInt16) : Nat :=
  ((List.range w.windowSize.toNat).map fun i => (slots i).toNat).sum

/-- `received`, with the missed HELLO periods in mind. The product with `hello_etime` is unsigned, and the difference
too. -/
def receivedLess (w : LqWindow) (helloEtime : UInt32) : Int :=
  if w.missedHellos > 1 then
    (UInt32.ofNat (w.sum w.received) -
      UInt32.ofNat (w.sum w.received) * w.missedHellos.toUInt32 * helloEtime / 1000 / 32).toBitVec.toInt
  else w.sum w.received

/-- The link quality of the window -/
def valueLq (w : LqWindow) (lossLinkMultiplier helloEtime : UInt32) : UInt8 :=
  if w.sum w.total = 0 then 0
  else
    -- start with link-loss-factor
    let ratio := fpmidiv (itofpm lossLinkMultiplier.toNat) linkLossMultiplier
    -- calculate received/total factor
    let ratio := fpmmuli ratio (w.receivedLess helloEtime)
    let ratio := fpmidiv ratio (w.sum w.total)
    let ratio := fpmmuli ratio 255
    UInt8.ofInt (fpmtoi ratio)

/-- Shift the buffer. -/
def shift (w : LqWindow) : LqWindow :=
  let activePtr := (w.activePtr + 1) % 32
  { w with
    activePtr := activePtr
    total := Function.update w.total activePtr.toNat 0
    received := Function.update w.received activePtr.toNat 0 }

end LqWindow

/-! ## The two handlers -/

/-- What the timers use of a link and of its interface -/
structure Link where
  neighborIfaceAddr : IpAddr
  lossLinkMultiplier : UInt32
  mode : IfMode
  helloEtime : UInt32

/-- `struct default_lq_ff_hello`, without the smoothed quality -/
structure DefaultLqFfHello where
  valueLq : UInt8
  valueNlq : UInt8
  window : LqWindow

def defaultLqClearFfHello : DefaultLqFfHello := ⟨0, 0, .clear⟩

def defaultLqParserFf (h : DefaultLqFfHello) (seqno : UInt16) : DefaultLqFfHello :=
  { h with window := h.window.parser seqno }

def defaultLqPacketLossWorkerFf (h : DefaultLqFfHello) (lost : Bool) : DefaultLqFfHello :=
  { h with window := h.window.packetLossWorker lost }

/-- `default_lq_ff_timer` for one link -/
def defaultLqFfTimer (link : Link) (h : DefaultLqFfHello) : DefaultLqFfHello :=
  let w := h.window.enlarge
  { h with valueLq := w.valueLq link.lossLinkMultiplier link.helloEtime, window := w.shift }

/-- `struct default_lq_hybrid_plc_hello`, without the smoothed quality -/
structure DefaultLqHybridPlcHello where
  lq : DefaultLqHybridPlc
  window : LqWindow
  perfectEth : Bool

def defaultLqClearHybridPlcHello : DefaultLqHybridPlcHello := ⟨⟨0, 0, 0, 0⟩, .clear, false⟩

def defaultLqParserHybridPlc (h : DefaultLqHybridPlcHello) (seqno : UInt16) : DefaultLqHybridPlcHello :=
  { h with window := h.window.parser seqno }

def defaultLqPacketLossWorkerHybridPlc (h : DefaultLqHybridPlcHello) (lost : Bool) : DefaultLqHybridPlcHello :=
  { h with window := h.window.packetLossWorker lost }

/-- The ethernet booster, and what other links lose. -/
def boost (mode : IfMode) (h : DefaultLqHybridPlcHello) : DefaultLqHybridPlcHello :=
  if mode = .ether then
    let perfectEth := if h.lq.valueLq > 242 then true else if h.lq.valueLq > 229 then false else h.perfectEth
    { h with perfectEth := perfectEth, lq := { h.lq with valueLq := if perfectEth then 255 else h.lq.valueLq } }
  else if h.lq.valueLq > 0 then { h with lq := { h.lq with valueLq := h.lq.valueLq - 1 } }
  else h

/-- The quality and the bandwidth of a PLC link -/
def plcRates (plc : PlcTable) (link : Link) (lq : DefaultLqHybridPlc) : DefaultLqHybridPlc :=
  if link.mode = .plc then
    let quality := ((lookupPlcPeerByIp plc link.neighborIfaceAddr).bind plc.entry).elim lq.quality fun e =>
      e.plcData.txRate
    { lq with bandwidth := 151, quality := if quality < 1 then 1 else quality }
  else lq

/-- `default_lq_hybrid_plc_timer` for one link -/
def defaultLqHybridPlcTimer (plc : PlcTable) (link : Link) (h : DefaultLqHybridPlcHello) : DefaultLqHybridPlcHello :=
  let w := h.window.enlarge
  let h := { h with lq := { h.lq with valueLq := w.valueLq link.lossLinkMultiplier link.helloEtime } }
  let h := boost link.mode h
  { h with window := w.shift, lq := plcRates plc link h.lq }

/-! ## What happens to a link -/

inductive LinkEvent where
  | packet (seqno : UInt16)
  | hello (lost : Bool)
  | tick (plc : PlcTable)

/-- A handler keeps a window in what a link has of its quality. -/
structure WindowHandler (H : Type) where
  window : H → LqWindow
  clear : H
  parser : H → UInt16 → H
  packetLossWorker : H → Bool → H
  timer : PlcTable → Link → H → H
  window_clear : window clear = .clear
  window_packet : ∀ h seqno, window (parser h seqno) = (window h).parser seqno
  window_lost : ∀ h lost, window (packetLossWorker h lost) = (window h).packetLossWorker lost
  window_timer : ∀ plc link h, window (timer plc link h) = (window h).enlarge.shift

/-- `lq_etx_ff_handler` -/
def lqEtxFfHandler : WindowHandler DefaultLqFfHello where
  window := DefaultLqFfHello.window
  clear := defaultLqClearFfHello
  parser := defaultLqParserFf
  packetLossWorker := defaultLqPacketLossWorkerFf
  timer _ := defaultLqFfTimer
  window_clear := rfl
  window_packet _ _ := rfl
  window_lost _ _ := rfl
  window_timer _ _ _ := rfl

/-- `lq_etx_hybrid_plc_handler` -/
def lqEtxHybridPlcHandler : WindowHandler DefaultLqHybridPlcHello where
  window := DefaultLqHybridPlcHello.window
  clear := defaultLqClearHybridPlcHello
  parser := defaultLqParserHybridPlc
  packetLossWorker := defaultLqPacketLossWorkerHybridPlc
  timer := defaultLqHybridPlcTimer
  window_clear := rfl
  window_packet _ _ := rfl
  window_lost _ _ := rfl
  window_timer _ _ _ := rfl

/-- A link and the packets since its last tick -/
structure Running (H : Type) where
  hello : H
  packets : Nat

variable {H : Type} {x : WindowHandler H} {link : Link}

def step (x : WindowHandler H) (link : Link) (s : Running H) : LinkEvent → Option (Running H)
  | .packet seqno => some ⟨x.parser s.hello seqno, s.packets + 1⟩
  | .hello lost => some ⟨x.packetLossWorker s.hello lost, s.packets⟩
  | .tick plc => some ⟨x.timer plc link s.hello, 0⟩

/-- There are fewer than 256 packets in a slot. -/
def FewPackets (s : Running H) : LinkEvent → Prop
  | .packet _ => s.packets + 1 < 256
  | .hello _ => True
  | .tick _ => True

instance decidableFewPackets (s : Running H) : ∀ e : LinkEvent, Decidable (FewPackets s e)
  | .packet _ => Nat.decLt _ _
  | .hello _ => .isTrue trivial
  | .tick _ => .isTrue trivial

def Reachable (x : WindowHandler H) (link : Link) : Running H → Prop :=
  Run.Reaches (· = ⟨x.clear, 0⟩) FewPackets (step x link)

/-! ## The slots -/

variable {w : LqWindow} {packets : Nat}

theorem seqDiff_bounds {last seqno : UInt16} (h : last ≠ seqno) : 1 ≤ seqDiff last seqno ∧
    seqDiff last seqno ≤ 256 := by
  have hne : last.toNat ≠ seqno.toNat := fun heq => h (UInt16.toNat_inj.1 heq)
  have hlast := UInt16.toNat_lt last
  unfold seqDiff
  simp only [gt_iff_lt, UInt16.lt_iff_toNat_lt]
  split_ifs <;> omega

/-- The slots of a window with `packets` packets since the last tick. The slot that is active has at most as many, and
at most 256 for each of them are said to have been sent. -/
structure Slots (w : LqWindow) (packets : Nat) : Prop where
  size : w.windowSize.toNat ≤ lqWindow
  active : w.activePtr.toNat < lqWindow
  le : ∀ i, (w.received i).toNat ≤ (w.total i).toNat
  few : ∀ i, (w.received i).toNat < 256
  received : (w.received w.activePtr.toNat).toNat ≤ packets
  total : (w.total w.activePtr.toNat).toNat ≤ 3 + 256 * packets

theorem slots_clear : Slots .clear 0 := by
  have hle : (0 : UInt16).toNat ≤ (3 : UInt16).toNat := by decide
  have hfew : (0 : UInt16).toNat < 256 := by decide
  constructor
  · decide
  · decide
  · exact fun _ => hle
  · exact fun _ => hfew
  · decide
  · decide

theorem Slots.parser (h : Slots w packets) (hfew : packets + 1 < 256) (seqno : UInt16) :
    Slots (w.parser seqno) (packets + 1) := by
  unfold LqWindow.parser
  split
  · exact ⟨h.size, h.active, h.le, h.few, h.received.trans (Nat.le_succ _), h.total.trans (by omega)⟩
  · next hne =>
    obtain ⟨hpos, hle⟩ := seqDiff_bounds hne
    have hactive := h.le w.activePtr.toNat
    have hreceived : (w.received w.activePtr.toNat + 1).toNat = (w.received w.activePtr.toNat).toNat + 1 := by
      have := h.received
      rw [UInt16.toNat_add, Nat.mod_eq_of_lt]
      · rfl
      · change _ + 1 < 65536
        omega
    have htotal : (w.total w.activePtr.toNat + UInt16.ofNat (seqDiff w.lastSeqNr seqno)).toNat =
        (w.total w.activePtr.toNat).toNat + seqDiff w.lastSeqNr seqno := by
      have := h.total
      have hdiff : (UInt16.ofNat (seqDiff w.lastSeqNr seqno)).toNat = seqDiff w.lastSeqNr seqno :=
        UInt16.toNat_ofNat_of_lt' (lt_of_le_of_lt hle (by decide))
      rw [UInt16.toNat_add, hdiff, Nat.mod_eq_of_lt]
      omega
    constructor
    · exact h.size
    · exact h.active
    · intro i
      dsimp only
      by_cases hi : i = w.activePtr.toNat
      · subst hi
        rw [Function.update_self, Function.update_self, hreceived, htotal]
        omega
      · rw [Function.update_of_ne hi, Function.update_of_ne hi]
        exact h.le i
    · intro i
      dsimp only
      by_cases hi : i = w.activePtr.toNat
      · subst hi
        have := h.received
        rw [Function.update_self, hreceived]
        omega
      · rw [Function.update_of_ne hi]
        exact h.few i
    · have := h.received
      dsimp only
      rw [Function.update_self, hreceived]
      omega
    · have := h.total
      dsimp only
      rw [Function.update_self, htotal]
      omega

theorem Slots.packetLossWorker (h : Slots w packets) (lost : Bool) : Slots (w.packetLossWorker lost) packets := by
  unfold LqWindow.packetLossWorker
  split
  · exact ⟨h.size, h.active, h.le, h.few, h.received, h.total⟩
  · exact h

theorem Slots.enlarge (h : Slots w packets) : Slots w.enlarge packets := by
  unfold LqWindow.enlarge
  split
  · next hlt =>
    refine ⟨?_, h.active, h.le, h.few, h.received, h.total⟩
    have hlt' : w.windowSize.toNat < 32 := UInt8.lt_iff_toNat_lt.1 hlt
    change (w.windowSize + 1).toNat ≤ 32
    rw [UInt8.toNat_add, Nat.mod_eq_of_lt]
    · exact hlt'
    · change _ + 1 < 256
      omega
  · exact h

theorem Slots.shift (h : Slots w packets) : Slots w.shift 0 := by
  unfold LqWindow.shift
  constructor
  · exact h.size
  · dsimp only
    rw [UInt8.toNat_mod]
    exact Nat.mod_lt _ (by decide)
  · intro i
    dsimp only
    by_cases hi : i = ((w.activePtr + 1) % 32).toNat
    · rw [hi, Function.update_self, Function.update_self]
    · rw [Function.update_of_ne hi, Function.update_of_ne hi]
      exact h.le i
  · intro i
    dsimp only
    by_cases hi : i = ((w.activePtr + 1) % 32).toNat
    · rw [hi, Function.update_self]
      decide
    · rw [Function.update_of_ne hi]
      exact h.few i
  · dsimp only
    rw [Function.update_self]
    decide
  · dsimp only
    rw [Function.update_self]
    decide

theorem reachable_slots {s : Running H} (h : Reachable x link s) : Slots (x.window s.hello) s.packets := by
  refine Run.Reaches.invariant (P := fun s => Slots (x.window s.hello) s.packets) ?_ ?_ h
  · rintro s rfl
    rw [x.window_clear]
    exact slots_clear
  · intro s e s' hs hfew hstep
    cases e with
    | packet seqno =>
      cases hstep
      rw [x.window_packet]
      exact hs.parser hfew seqno
    | hello lost =>
      cases hstep
      rw [x.window_lost]
      exact hs.packetLossWorker lost
    | tick plc =>
      cases hstep
      rw [x.window_timer]
      exact hs.enlarge.shift

/-! ## The ratio -/

theorem Slots.sum_le (h : Slots w packets) : w.sum w.received ≤ w.sum w.total :=
  List.sum_le_sum fun i _ => h.le i

theorem Slots.sum_lt (h : Slots w packets) : w.sum w.received ≤ 8160 := by
  have hall : w.sum w.received ≤ ((List.range w.windowSize.toNat).map fun _ => 255).sum :=
    List.sum_le_sum fun i _ => Nat.le_of_lt_succ (h.few i)
  rw [List.map_const', List.sum_replicate, List.length_range, smul_eq_mul] at hall
  have hsize : w.windowSize.toNat ≤ 32 := h.size
  omega

/-- The missed HELLO messages, in the own interval, do not take more than was received. -/
def MissedFit (w : LqWindow) (helloEtime : UInt32) : Prop :=
  1 < w.missedHellos.toNat →
    w.sum w.received * w.missedHellos.toNat * helloEtime.toNat < 32000 * (w.sum w.received + 1)

/-- What is left of the received packets -/
def leftOver (received missed helloEtime : Nat) : Nat :=
  if 1 < missed then received - received * missed * helloEtime / 32000 else received

theorem missed_iff (missed : UInt16) : missed > 1 ↔ 1 < missed.toNat := UInt16.lt_iff_toNat_lt

/-- No product is cut, and the difference is not negative. -/
theorem Slots.receivedLess (h : Slots w packets) {helloEtime : UInt32} (hfit : MissedFit w helloEtime) :
    w.receivedLess helloEtime = leftOver (w.sum w.received) w.missedHellos.toNat helloEtime.toNat := by
  have hsum := h.sum_lt
  unfold MissedFit at hfit
  unfold LqWindow.receivedLess leftOver
  simp only [missed_iff]
  generalize w.sum w.received = received at *
  split
  · next hmissed =>
    have hlt := hfit hmissed
    have hle : received * w.missedHellos.toNat * helloEtime.toNat / 32000 ≤ received :=
      Nat.le_of_lt_succ (Nat.div_lt_of_lt_mul hlt)
    have hreceived : (UInt32.ofNat received).toNat = received := UInt32.toNat_ofNat_of_lt' (by
      change received < 4294967296
      omega)
    have hless : (UInt32.ofNat received * w.missedHellos.toUInt32 * helloEtime / 1000 / 32).toNat =
        received * w.missedHellos.toNat * helloEtime.toNat / 32000 := by
      rw [UInt32.toNat_div, UInt32.toNat_div, UInt32.toNat_mul, UInt32.toNat_mul, hreceived, Nat.mod_mul_mod,
        UInt16.toNat_toUInt32, Nat.mod_eq_of_lt (by omega)]
      exact Nat.div_div_eq_div_mul _ _ _
    have hdiff : (UInt32.ofNat received - UInt32.ofNat received * w.missedHellos.toUInt32 * helloEtime /
        1000 / 32).toNat =
          received - received * w.missedHellos.toNat * helloEtime.toNat / 32000 := by
      rw [UInt32.toNat_sub_of_le _ _ (by rw [UInt32.le_iff_toNat_le, hreceived, hless]; exact hle), hreceived, hless]
    rw [BitVec.toInt_eq_toNat_of_lt]
    · exact congrArg Nat.cast hdiff
    · change 2 * UInt32.toNat _ < _
      rw [hdiff]
      omega
  · rfl

/-- The fixed point does not round up: `ratio` is at most 1. -/
theorem ratio_le {ratio received total : Nat} (hratio : ratio ≤ 1024) :
    ratio * received / total * 255 / 1024 ≤ 255 * received / total := by
  rcases Nat.eq_zero_or_pos total with rfl | htotal
  · simp
  · rw [Nat.le_div_iff_mul_le htotal]
    have hquot : ratio * received / total * total ≤ 1024 * received :=
      (Nat.div_mul_le_self _ _).trans (Nat.mul_le_mul_right _ hratio)
    have hcut : ratio * received / total * 255 / 1024 * 1024 ≤ ratio * received / total * 255 := Nat.div_mul_le_self _ _
    generalize ratio * received / total = quot at *
    generalize quot * 255 / 1024 = value at *
    nlinarith

/-- On natural numbers the fixed-point operations are those of natural numbers. -/
theorem fpm_natCast (mult left total : Nat) :
    fpmtoi (fpmmuli (fpmidiv (fpmmuli (fpmidiv (itofpm mult) linkLossMultiplier) left) total) 255) =
      ((mult * 1024 / 65536 * left / total * 255 / 1024 : Nat) : Int) := by
  have hshift : itofpm mult = ((mult * 1024 : Nat) : Int) := by
    rw [itofpm, Int.shiftLeft_eq]
    push_cast
    norm_num
  simp only [fpmtoi, fpmmuli, fpmidiv, hshift, linkLossMultiplier, Int.shiftRight_eq_div_pow]
  rw [← Int.ofNat_tdiv, ← Int.natCast_mul, ← Int.ofNat_tdiv]
  norm_cast

theorem leftOver_le (received missed helloEtime : Nat) : leftOver received missed helloEtime ≤ received := by
  unfold leftOver
  split
  · exact Nat.sub_le _ _
  · exact le_rfl

/-- The bound of the ratio, for what is left of the received packets -/
theorem ratio_leftOver_le {mult received missed helloEtime total : Nat} (hmult : mult ≤ linkLossMultiplier) :
    mult * 1024 / 65536 * leftOver received missed helloEtime / total * 255 / 1024 ≤ 255 * received / total := by
  have hratio : mult * 1024 / 65536 ≤ 1024 :=
    (Nat.div_le_div_right (Nat.mul_le_mul_right _ hmult)).trans (by norm_num [linkLossMultiplier])
  exact (ratio_le hratio).trans (Nat.div_le_div_right (Nat.mul_le_mul_left _ (leftOver_le _ _ _)))

/-- The link quality in natural numbers, when the missed HELLO messages fit. -/
theorem Slots.valueLq (h : Slots w packets) {lossLinkMultiplier helloEtime : UInt32}
    (hmult : lossLinkMultiplier.toNat ≤ linkLossMultiplier) (hfit : MissedFit w helloEtime) :
    (w.valueLq lossLinkMultiplier helloEtime).toNat =
      lossLinkMultiplier.toNat * 1024 / 65536 * leftOver (w.sum w.received) w.missedHellos.toNat helloEtime.toNat /
        w.sum w.total * 255 / 1024 := by
  unfold LqWindow.valueLq
  split
  · next hzero =>
    rw [hzero, Nat.div_zero]
    rfl
  · next htotal =>
    dsimp only
    rw [h.receivedLess hfit, fpm_natCast]
    have hbyte : 255 * w.sum w.received / w.sum w.total ≤ 255 :=
      Nat.div_le_of_le_mul (by rw [Nat.mul_comm]; exact Nat.mul_le_mul_right _ h.sum_le)
    have hle : lossLinkMultiplier.toNat * 1024 / 65536 *
        leftOver (w.sum w.received) w.missedHellos.toNat helloEtime.toNat / w.sum w.total * 255 / 1024 ≤ 255 :=
      (ratio_leftOver_le hmult).trans hbyte
    generalize lossLinkMultiplier.toNat * 1024 / 65536 *
      leftOver (w.sum w.received) w.missedHellos.toNat helloEtime.toNat / w.sum w.total * 255 / 1024 = value at *
    have hcast : (value : Int) % 2 ^ 8 = ((value % 256 : Nat) : Int) := by omega
    rw [UInt8.ofInt, hcast, Int.toNat_natCast, UInt8.toNat_ofNat', Nat.mod_mod]
    exact Nat.mod_eq_of_lt (by omega)

theorem leftOver_anti {received missed missed' helloEtime : Nat} (hle : missed ≤ missed') :
    leftOver received missed' helloEtime ≤ leftOver received missed helloEtime := by
  unfold leftOver
  split
  · split
    · exact Nat.sub_le_sub_left (Nat.div_le_div_right (Nat.mul_le_mul_right _ (Nat.mul_le_mul_left _ hle))) _
    · exact Nat.sub_le _ _
  · next hfew =>
    rw [if_neg fun hmissed => hfew (lt_of_lt_of_le hmissed hle)]

/-- What a handler keeps on a link: no slot has more packets than were sent, and as far as the missed HELLO messages
fit, the link quality of a tick is not above the ratio of the window and not higher with more of them. -/
def WindowKept (x : WindowHandler H) (link : Link) : Prop :=
  ∀ s : Running H, Reachable x link s →
    (∀ i, (x.window s.hello).received i ≤ (x.window s.hello).total i) ∧
    ∀ w, w = (x.window s.hello).enlarge →
      (MissedFit w link.helloEtime →
        (w.valueLq link.lossLinkMultiplier link.helloEtime).toNat ≤ 255 * w.sum w.received / w.sum w.total) ∧
      ∀ missed w', w.missedHellos ≤ missed → w' = { w with missedHellos := missed } → MissedFit w' link.helloEtime →
        w'.valueLq link.lossLinkMultiplier link.helloEtime ≤ w.valueLq link.lossLinkMultiplier link.helloEtime

theorem MissedFit.mono {missed : UInt16} {helloEtime : UInt32} (hle : w.missedHellos ≤ missed)
    (hfit : MissedFit { w with missedHellos := missed } helloEtime) : MissedFit w helloEtime := by
  have hle' : w.missedHellos.toNat ≤ missed.toNat := UInt16.le_iff_toNat_le.1 hle
  intro hmissed
  exact lt_of_le_of_lt (Nat.mul_le_mul_right _ (Nat.mul_le_mul_left _ hle')) (hfit (lt_of_lt_of_le hmissed hle'))

theorem windowKept (x : WindowHandler H) (hmult : link.lossLinkMultiplier.toNat ≤ linkLossMultiplier) :
    WindowKept x link := by
  intro s hreach
  have hslots := reachable_slots hreach
  refine ⟨fun i => UInt16.le_iff_toNat_le.2 (hslots.le i), ?_⟩
  rintro w rfl
  have h := hslots.enlarge
  generalize (x.window s.hello).enlarge = w at h
  constructor
  · intro hfit
    rw [h.valueLq hmult hfit]
    exact ratio_leftOver_le hmult
  · rintro missed w' hle rfl hfit
    have h' : Slots { w with missedHellos := missed } s.packets := ⟨h.size, h.active, h.le, h.few, h.received, h.total⟩
    rw [UInt8.le_iff_toNat_le, h.valueLq hmult (hfit.mono hle), h'.valueLq hmult hfit]
    refine Nat.div_le_div_right (Nat.mul_le_mul_right _ (Nat.div_le_div_right (Nat.mul_le_mul_left _ ?_)))
    exact leftOver_anti (UInt16.le_iff_toNat_le.1 hle)

theorem windowKept_handlers (link : Link) (hmult : link.lossLinkMultiplier.toNat ≤ linkLossMultiplier) :
    WindowKept lqEtxFfHandler link ∧ WindowKept lqEtxHybridPlcHandler link :=
  ⟨windowKept _ hmult, windowKept _ hmult⟩

/-- A link over an interface with a HELLO message every 20 seconds -/
def slowLink : Link := ⟨[10, 0, 0, 2], 65536, .mesh, 20000⟩

instance (w : LqWindow) (helloEtime : UInt32) : Decidable (MissedFit w helloEtime) :=
  inferInstanceAs (Decidable (_ → _))

/-- Three of four packets in the first second, and two HELLO messages lost -/
def fewLost : List LinkEvent := [.packet 1, .packet 2, .packet 4, .hello true, .hello true]

theorem windowKept_slowLink : ∃ (s : Running DefaultLqFfHello) (w : LqWindow), Reachable lqEtxFfHandler slowLink s ∧
    w = s.hello.window.enlarge ∧ w.missedHellos = 2 ∧ MissedFit w slowLink.helloEtime ∧
      (w.valueLq slowLink.lossLinkMultiplier slowLink.helloEtime).toNat ≤ 255 * w.sum w.received / w.sum w.total := by
  have hrounds : Run.Rounds FewPackets (step lqEtxFfHandler slowLink) fewLost ⟨defaultLqClearFfHello, 0⟩ := by
    decide +kernel
  have hrun : ((Run.forEach (step lqEtxFfHandler slowLink) fewLost ⟨defaultLqClearFfHello, 0⟩).any fun s =>
      s.hello.window.enlarge.missedHellos == 2 &&
        decide (MissedFit s.hello.window.enlarge slowLink.helloEtime)) = true := by
    decide +kernel
  obtain ⟨s, hs, hrun⟩ := (Option.any_eq_true _ _).1 hrun
  rw [Bool.and_eq_true, beq_iff_eq, decide_eq_true_eq] at hrun
  have hreach : Reachable lqEtxFfHandler slowLink s := Run.reaches_forEach (.init rfl) hrounds hs
  have hkept := ((windowKept_handlers slowLink (by decide)).1 s hreach).2 _ rfl
  exact ⟨s, _, hreach, rfl, hrun.1, hrun.2, hkept.1 hrun.2⟩

/-- Eight packets in the first second, and two HELLO messages lost -/
def lossy : List LinkEvent :=
  [.packet 1, .packet 2, .packet 3, .packet 4, .packet 5, .packet 6, .packet 7, .packet 8, .hello true, .hello true]

theorem not_valueLq_le : ¬∀ (link : Link) (s : Running DefaultLqFfHello),
    link.lossLinkMultiplier.toNat ≤ linkLossMultiplier → Reachable lqEtxFfHandler link s →
      ∀ w, w = s.hello.window.enlarge →
        (w.valueLq link.lossLinkMultiplier link.helloEtime).toNat ≤ 255 * w.sum w.received / w.sum w.total := by
  intro h
  have hrounds : Run.Rounds FewPackets (step lqEtxFfHandler slowLink) lossy ⟨defaultLqClearFfHello, 0⟩ := by
    decide +kernel
  have hle := h slowLink _ (by decide) (Run.reaches_forEach (.init rfl) hrounds rfl) _ rfl
  revert hle
  decide +kernel

end Olsrd.LinkQuality
