/-
`zclient_read` of the Quagga plugin (`client.c`): messages of zebra are read off a stream socket into a buffer that
grows, and their ends are found from their lengths. The buffer behind what has been received holds whatever lies there.
-/
import Olsrd.Lib.Bytes
import Olsrd.Lib.Framed

namespace Olsrd.Quagga

open Bytes Framed

/-! ## The socket -/

/-- What a read meets: nothing yet, `n + 1` bytes at most, the end of the stream, or an error. -/
inductive Event where
  | wouldBlock
  | upTo (n : Nat)
  | closed
  | failed
  deriving DecidableEq, Repr

/-- The socket of `zebra`: the bytes that are still to be read, and how they come. -/
structure Zebra where
  bytes : List UInt8
  events : List Event
  nonblock : Bool
  connected : Bool

inductive ReadResult where
  | data (bs : List UInt8)
  | wouldBlock
  | closed
  | failed

/-- `read(2)` of at most `space` bytes. A blocking read waits until there is something, perhaps for ever. -/
def readEvents (space : Nat) (nonblock : Bool) (bytes : List UInt8) : List Event → Option (ReadResult × List Event)
  | [] => if nonblock then some (.wouldBlock, []) else none
  | .wouldBlock :: es => if nonblock then some (.wouldBlock, es) else readEvents space nonblock bytes es
  | .upTo n :: es =>
    if bytes = [] then if nonblock then some (.wouldBlock, es) else readEvents space nonblock bytes es
    else some (.data (bytes.take (min (n + 1) space)), es)
  | .closed :: es => some (.closed, es)
  | .failed :: es => some (.failed, es)

/-! ## Reading -/

/-- `BUFSIZE` -/
def bufsizeStep : Nat := 1024

/-- The loop over the lengths: the offset behind the last message, and whether a length has been taken from bytes that
had not been received. -/
def scanLengths (mem : Mem) (size : Nat) : Nat → UInt16 → Bool → Option (UInt16 × Bool)
  | 0, _, _ => none
  | fuel + 1, offset, beyond =>
    let length := UInt16.ofNat (mem.u16 offset.toNat)
    let beyond := beyond || decide (size < offset.toNat + 2)
    let offset := offset + length
    if offset.toNat + 2 ≤ size then scanLengths mem size fuel offset beyond else some (offset, beyond)

/-- The variables of `zclient_read`; `data` is the part of the buffer that has been filled. -/
structure Reading where
  data : List UInt8
  bufsize : Nat
  offset : UInt16
  beyond : Bool

/-- What a call returns, and whether it has taken a length from bytes that had not been received. -/
structure Outcome where
  buffer : Option (List UInt8)
  beyond : Bool

/-- The loop of `zclient_read`; `junk` is the memory around the buffer. -/
def readLoop (junk : Nat → Mem) (sockstatus : Bool) : Nat → Reading → Zebra → Option (Outcome × Zebra)
  | 0, _, _ => none
  | fuel + 1, r, z =>
    let bufsize := if r.data.length = r.bufsize then r.bufsize + bufsizeStep else r.bufsize
    match readEvents (bufsize - r.data.length) z.nonblock z.bytes z.events with
    | none => none
    | some (.data bs, es) =>
      let data := r.data ++ bs
      match scanLengths ((junk data.length).write 0 data) data.length fuel r.offset r.beyond with
      | none => none
      | some (offset, beyond) =>
        -- set blocking socket on fragmented packet, restore socket status at the end
        let z := { z with bytes := z.bytes.drop bs.length, events := es, nonblock := sockstatus }
        if data.length = offset.toNat then some (⟨some data, beyond⟩, z)
        else readLoop junk sockstatus fuel ⟨data, bufsize, offset, beyond⟩ z
    | some (.failed, es) => some (⟨none, r.beyond⟩, { z with events := es, connected := false })
    | some (_, es) => some (⟨none, r.beyond⟩, { z with events := es })

/-- `zclient_read`; a call that returns no buffer leaves the socket non-blocking. -/
def zclientRead (junk : Nat → Mem) (fuel : Nat) (z : Zebra) : Option (Outcome × Zebra) :=
  readLoop junk z.nonblock fuel ⟨[], 0, 0, false⟩ { z with nonblock := true }

/-! ## Messages -/

/-- The header of a message: the length, and a command with or without a marker and a version. -/
def headerSize (version : Nat) : Nat := if version = 0 then 3 else 6

/-- A message has a header, and begins with its length. -/
structure WellFormed (version : Nat) (m : List UInt8) : Prop where
  header : headerSize version ≤ m.length
  short : m.length ≤ 65535
  begins : m.take 2 = bigEnd 2 m.length

theorem WellFormed.two_le {version : Nat} {m : List UInt8} (h : WellFormed version m) : 2 ≤ m.length := by
  have := h.header
  unfold headerSize at this
  split at this <;> omega

/-- The bytes received after a read, of a stream of `len` bytes; the buffer has room up to the next multiple of its
step. -/
def nextSize (len size n : Nat) : Nat := min (size + min (n + 1) (bufsizeStep - size % bufsizeStep)) len

/-- The messages end with what has been received. -/
def AtEnd (ms : List (List UInt8)) (size : Nat) : Prop := ends 2 ms size = size

instance decidableAtEnd (ms : List (List UInt8)) (size : Nat) : Decidable (AtEnd ms size) :=
  inferInstanceAs (Decidable (_ = _))

/-- The messages that are left when those have been taken of which all has been received. -/
def left (ms : List (List UInt8)) (size : Nat) : List (List UInt8) := ms.drop (arrived 2 ms size).length

/-- How a stream may be cut: there is nothing to read between messages only, and no call gets more than 65535 bytes;
`size` bytes of it have been received in the current call. -/
def CutOk : List (List UInt8) → Nat → List Event → Prop
  | _, size, [] => size = 0
  | ms, size, .wouldBlock :: es => size = 0 ∧ CutOk ms size es
  | ms, size, .upTo n :: es =>
    if ms = [] then CutOk ms size es
    else if AtEnd ms (nextSize ms.flatten.length size n) then
      nextSize ms.flatten.length size n ≤ 65535 ∧ CutOk (left ms (nextSize ms.flatten.length size n)) 0 es
    else CutOk ms (nextSize ms.flatten.length size n) es
  | _, _, .closed :: _ | _, _, .failed :: _ => False

/-- Every read reaches the length behind the last message whose length the reads before it have reached. -/
def Timely : List (List UInt8) → Nat → List Event → Prop
  | _, _, [] => True
  | ms, size, .wouldBlock :: es => Timely ms size es
  | ms, size, .upTo n :: es =>
    if ms = [] then Timely ms size es
    else ends 2 ms size + 2 ≤ nextSize ms.flatten.length size n ∧
      if AtEnd ms (nextSize ms.flatten.length size n) then Timely (left ms (nextSize ms.flatten.length size n)) 0 es
      else Timely ms (nextSize ms.flatten.length size n) es
  | _, _, .closed :: _ | _, _, .failed :: _ => True

/-! ## What is asked of the calls -/

/-- The first read of a call finds nothing. -/
def Idle (z : Zebra) : Prop :=
  match z.events with
  | [] | .wouldBlock :: _ => True
  | .upTo _ :: _ => z.bytes = []
  | .closed :: _ | .failed :: _ => False

/-- A call with the messages `ms` to come: it returns some of them whole and leaves the others, or there is nothing to
read yet; no length comes from bytes that have not been received. -/
inductive CallOk (ms : List (List UInt8)) (idle : Prop) : Outcome → Zebra → List (List UInt8) → Prop
  | whole {done todo : List (List UInt8)} {z : Zebra} : done ≠ [] → ms = done ++ todo → z.bytes = todo.flatten →
      CallOk ms idle ⟨some done.flatten, false⟩ z todo
  | nothing {z : Zebra} : idle → z.bytes = ms.flatten → CallOk ms idle ⟨none, false⟩ z ms

/-- The next `n` calls come to an end and are as they should be; every call has its own memory. -/
def CallsOk : Nat → (Nat → Nat → Mem) → List (List UInt8) → Zebra → Prop
  | 0, _, _, _ => True
  | n + 1, junk, ms, z => ∃ fuel o z' todo, zclientRead (junk 0) fuel z = some (o, z') ∧ CallOk ms (Idle z) o z' todo ∧
      CallsOk n (fun i => junk (i + 1)) todo z'

/-! ## The loop over the lengths -/

section Scan

variable {mem : Mem} {size : Nat} {offset : UInt16} {beyond : Bool} {x y : UInt16 × Bool}

theorem scanLengths_succ : ∀ {fuel : Nat} {offset : UInt16} {beyond : Bool},
    scanLengths mem size fuel offset beyond = some x → scanLengths mem size (fuel + 1) offset beyond = some x
  | 0, _, _, h => by cases h
  | fuel + 1, offset, beyond, h => by
    unfold scanLengths at h ⊢
    dsimp only at h ⊢
    split at h
    · next hmore =>
      rw [if_pos hmore]
      exact scanLengths_succ h
    · next hmore =>
      rw [if_neg hmore]
      exact h

theorem scanLengths_mono {fuel fuel' : Nat} (hle : fuel ≤ fuel')
    (h : scanLengths mem size fuel offset beyond = some x) : scanLengths mem size fuel' offset beyond = some x := by
  induction hle with
  | refl => exact h
  | step _ ih => exact scanLengths_succ ih

theorem scanLengths_unique {fuel fuel' : Nat} (h : scanLengths mem size fuel offset beyond = some x)
    (h' : scanLengths mem size fuel' offset beyond = some y) : x = y := by
  rcases Nat.le_total fuel fuel' with hle | hle
  · exact Option.some.inj ((scanLengths_mono hle h).symm.trans h')
  · exact Option.some.inj (h.symm.trans (scanLengths_mono hle h'))

theorem scanLengths_beyond : ∀ {fuel : Nat} {offset : UInt16},
    scanLengths mem size fuel offset true = some x → x.2 = true
  | 0, _, h => by cases h
  | fuel + 1, offset, h => by
    unfold scanLengths at h
    simp only [Bool.true_or] at h
    split at h
    · exact scanLengths_beyond h
    · obtain rfl := Option.some.inj h
      rfl

/-- A length that is not there yet is taken all the same. -/
theorem scanLengths_short {fuel : Nat} (hshort : size < offset.toNat + 2)
    (h : scanLengths mem size fuel offset beyond = some x) : x.2 = true := by
  cases fuel with
  | zero => cases h
  | succ fuel =>
    unfold scanLengths at h
    rw [decide_eq_true hshort, Bool.or_true] at h
    dsimp only at h
    split at h
    · exact scanLengths_beyond h
    · obtain rfl := Option.some.inj h
      rfl

theorem u16_of_slice {off v : Nat} (h : mem.slice off 2 = bigEnd 2 v) (hv : v ≤ 65535) : mem.u16 off = v := by
  have hbytes : bigEnd 2 v = [UInt8.ofNat (v / 256), UInt8.ofNat v] := rfl
  rw [hbytes, Mem.slice_succ, Mem.slice_succ] at h
  obtain ⟨hhigh, htail⟩ := List.cons.inj h
  obtain ⟨hlow, -⟩ := List.cons.inj htail
  unfold Mem.u16
  rw [hhigh, hlow, UInt8.toNat_ofNat', UInt8.toNat_ofNat']
  omega

/-- The scan stops behind the last message whose length has been received. -/
theorem scanLengths_ends {version : Nat} : ∀ {todo : List (List UInt8)} {offset : UInt16},
    (∀ m ∈ todo, WellFormed version m) → offset.toNat + 2 ≤ size → size ≤ offset.toNat + todo.flatten.length →
    mem.slice offset.toNat (size - offset.toNat) = todo.flatten.take (size - offset.toNat) →
    offset.toNat + ends 2 todo (size - offset.toNat) ≤ 65535 →
    ∃ fuel offset', scanLengths mem size fuel offset beyond = some (offset', beyond) ∧
      offset'.toNat = offset.toNat + ends 2 todo (size - offset.toNat)
  | [], offset, _, hlow, hhigh, _, _ => by
    rw [List.flatten_nil, List.length_nil] at hhigh
    omega
  | m :: ms, offset, hwf, hlow, hhigh, hmem, hmax => by
    have hm := hwf m (List.mem_cons_self ..)
    have htwo := hm.two_le
    have hends : ends 2 (m :: ms) (size - offset.toNat) =
        m.length + ends 2 ms (size - offset.toNat - m.length) := by
      unfold ends
      rw [arrived_cons_of_le (by omega), List.flatten_cons, List.length_append]
    rw [hends] at hmax ⊢
    have hlength : mem.u16 offset.toNat = m.length := by
      refine u16_of_slice ?_ hm.short
      have hsub := Mem.slice_sub hmem (show 0 + 2 ≤ _ by omega)
      rw [Nat.add_zero, List.drop_zero, List.take_take, Nat.min_eq_left (by omega), List.flatten_cons,
        List.take_append_of_le_length htwo, hm.begins] at hsub
      exact hsub
    have hnext : (offset + UInt16.ofNat m.length).toNat = offset.toNat + m.length := by
      rw [UInt16.toNat_add, UInt16.toNat_ofNat', Nat.mod_eq_of_lt (show m.length < 2 ^ 16 by omega)]
      exact Nat.mod_eq_of_lt (show _ < 65536 by omega)
    have hthere : (beyond || decide (size < offset.toNat + 2)) = beyond := by
      rw [decide_eq_false (by omega), Bool.or_false]
    by_cases hmore : offset.toNat + m.length + 2 ≤ size
    · have hrest : size - offset.toNat - m.length = size - (offset + UInt16.ofNat m.length).toNat := by
        rw [hnext]
        omega
      rw [List.flatten_cons, List.length_append] at hhigh
      obtain ⟨fuel, offset', hscan, hoffset⟩ := scanLengths_ends
        (fun g hg => hwf g (List.mem_cons_of_mem _ hg)) (by rw [hnext]; exact hmore) (by rw [hnext]; omega) (by
          have hsub := Mem.slice_sub hmem (show m.length + (size - offset.toNat - m.length) ≤ _ by omega)
          rw [← hrest, hnext, hsub, List.flatten_cons, List.drop_take, List.drop_left' rfl, List.take_take,
            Nat.min_self]) (by rw [← hrest, hnext]; omega)
      refine ⟨fuel + 1, offset', ?_, by rw [hoffset, ← hrest, hnext, Nat.add_assoc]⟩
      unfold scanLengths
      dsimp only
      rw [hlength, hthere, if_pos (by rw [hnext]; exact hmore)]
      exact hscan
    · refine ⟨1, offset + UInt16.ofNat m.length, ?_, ?_⟩
      · unfold scanLengths
        dsimp only
        rw [hlength, hthere, if_neg (by rw [hnext]; exact hmore)]
      · have hnone : ends 2 ms (size - offset.toNat - m.length) = 0 := by
          unfold ends
          rw [arrived_of_lt (by omega)]
          rfl
        rw [hnone, hnext]
        rfl

end Scan

/-! ## The loop over the reads -/

section Loop

variable {junk : Nat → Mem} {sockstatus : Bool} {r : Reading} {z z' : Zebra} {o : Outcome} {ms : List (List UInt8)}
  {size n : Nat} {es : List Event}

/-- The reading after `bs` has been read. -/
def afterRead (junk : Nat → Mem) (sockstatus : Bool) (fuel : Nat) (r : Reading) (z : Zebra) (bufsize : Nat)
    (bs : List UInt8) (es : List Event) : Option (Outcome × Zebra) :=
  match scanLengths ((junk (r.data ++ bs).length).write 0 (r.data ++ bs))
    (r.data ++ bs).length fuel r.offset r.beyond with
  | none => none
  | some (offset, beyond) =>
    let z := { z with bytes := z.bytes.drop bs.length, events := es, nonblock := sockstatus }
    if (r.data ++ bs).length = offset.toNat then some (⟨some (r.data ++ bs), beyond⟩, z)
    else readLoop junk sockstatus fuel ⟨r.data ++ bs, bufsize, offset, beyond⟩ z

/-- The size of the buffer at a read. -/
def grown (r : Reading) : Nat := if r.data.length = r.bufsize then r.bufsize + bufsizeStep else r.bufsize

theorem readLoop_eq (fuel : Nat) : readLoop junk sockstatus (fuel + 1) r z =
    match readEvents (grown r - r.data.length) z.nonblock z.bytes z.events with
    | none => none
    | some (.data bs, es) => afterRead junk sockstatus fuel r z (grown r) bs es
    | some (.failed, es) => some (⟨none, r.beyond⟩, { z with events := es, connected := false })
    | some (_, es) => some (⟨none, r.beyond⟩, { z with events := es }) := rfl

theorem readLoop_succ : ∀ {fuel : Nat} {r : Reading} {z : Zebra}, readLoop junk sockstatus fuel r z = some (o, z') →
    readLoop junk sockstatus (fuel + 1) r z = some (o, z')
  | 0, _, _, h => by cases h
  | fuel + 1, r, z, h => by
    rw [readLoop_eq] at h ⊢
    cases hread : readEvents (grown r - r.data.length) z.nonblock z.bytes z.events with
    | none =>
      rw [hread] at h
      cases h
    | some x =>
      obtain ⟨res, es⟩ := x
      rw [hread] at h
      cases res with
      | data bs =>
        dsimp only at h ⊢
        unfold afterRead at h ⊢
        cases hscan : scanLengths ((junk (r.data ++ bs).length).write 0 (r.data ++ bs)) (r.data ++ bs).length fuel
            r.offset r.beyond with
        | none =>
          rw [hscan] at h
          cases h
        | some x =>
          rw [hscan] at h
          rw [scanLengths_succ hscan]
          dsimp only at h ⊢
          split at h
          · next hend =>
            rw [if_pos hend]
            exact h
          · next hend =>
            rw [if_neg hend]
            exact readLoop_succ h
      | wouldBlock => exact h
      | closed => exact h
      | failed => exact h

theorem readLoop_mono {fuel fuel' : Nat} (hle : fuel ≤ fuel') (h : readLoop junk sockstatus fuel r z = some (o, z')) :
    readLoop junk sockstatus fuel' r z = some (o, z') := by
  induction hle with
  | refl => exact h
  | step _ ih => exact readLoop_succ ih

/-- A length that was taken from bytes that had not been received is not forgotten. -/
theorem readLoop_beyond : ∀ {fuel : Nat} {r : Reading} {z : Zebra}, r.beyond = true →
    readLoop junk sockstatus fuel r z = some (o, z') → o.beyond = true
  | 0, _, _, _, h => by cases h
  | fuel + 1, r, z, hr, h => by
    rw [readLoop_eq] at h
    cases hread : readEvents (grown r - r.data.length) z.nonblock z.bytes z.events with
    | none =>
      rw [hread] at h
      cases h
    | some x =>
      obtain ⟨res, es⟩ := x
      rw [hread] at h
      cases res with
      | data bs =>
        dsimp only at h
        unfold afterRead at h
        cases hscan : scanLengths ((junk (r.data ++ bs).length).write 0 (r.data ++ bs)) (r.data ++ bs).length fuel
            r.offset r.beyond with
        | none =>
          rw [hscan] at h
          cases h
        | some x =>
          rw [hscan] at h
          rw [hr] at hscan
          have hx := scanLengths_beyond hscan
          dsimp only at h
          split at h
          · obtain ⟨rfl, rfl⟩ := Prod.mk.inj (Option.some.inj h)
            exact hx
          · exact readLoop_beyond hx h
      | wouldBlock =>
        obtain ⟨rfl, rfl⟩ := Prod.mk.inj (Option.some.inj h)
        exact hr
      | closed =>
        obtain ⟨rfl, rfl⟩ := Prod.mk.inj (Option.some.inj h)
        exact hr
      | failed =>
        obtain ⟨rfl, rfl⟩ := Prod.mk.inj (Option.some.inj h)
        exact hr

/-- Between two reads of a call: `size` bytes of the messages have been received. -/
structure Holds (ms : List (List UInt8)) (size : Nat) (r : Reading) (z : Zebra) : Prop where
  data : r.data = ms.flatten.take size
  le : size ≤ ms.flatten.length
  bytes : z.bytes = ms.flatten.drop size
  offset : r.offset.toNat = ends 2 ms size
  beyond : r.beyond = false
  step : ∃ k, r.bufsize = bufsizeStep * k
  room : size ≤ r.bufsize ∧ r.bufsize < size + bufsizeStep

theorem Holds.length (h : Holds ms size r z) : r.data.length = size := by
  rw [h.data, List.length_take]
  exact Nat.min_eq_left h.le

/-- The buffer has room up to the next multiple of its step. -/
theorem Holds.grown (h : Holds ms size r z) : (∃ k, grown r = bufsizeStep * k) ∧
    Quagga.grown r = size + (bufsizeStep - size % bufsizeStep) := by
  obtain ⟨k, hk⟩ := h.step
  have hroom := h.room
  have hlength := h.length
  unfold Quagga.grown
  unfold bufsizeStep at *
  split
  · exact ⟨⟨k + 1, by omega⟩, by omega⟩
  · exact ⟨⟨k, hk⟩, by omega⟩

theorem nextSize_gt {len : Nat} (h : size < len) : size < nextSize len size n := by
  have := Nat.mod_lt size (show 0 < bufsizeStep by decide)
  unfold nextSize
  omega

theorem nextSize_le {len : Nat} : nextSize len size n ≤ len := Nat.min_le_right _ _

/-- The socket after a read of a call that has got some more bytes. -/
def Zebra.behind (z : Zebra) (ms : List (List UInt8)) (size : Nat) (sockstatus : Bool) (es : List Event) : Zebra :=
  { z with bytes := ms.flatten.drop size, events := es, nonblock := sockstatus }

/-- A read that gets something. -/
theorem Holds.readLoop (h : Holds ms size r z) (hlt : size < ms.flatten.length) (hevents : z.events = .upTo n :: es)
    (fuel : Nat) {next : Nat} (hnext : next = nextSize ms.flatten.length size n) :
    Quagga.readLoop junk sockstatus (fuel + 1) r z =
      match scanLengths ((junk next).write 0 (ms.flatten.take next)) next fuel r.offset false with
      | none => none
      | some (offset, beyond) =>
        if next = offset.toNat then some (⟨some (ms.flatten.take next), beyond⟩, z.behind ms next sockstatus es)
        else Quagga.readLoop junk sockstatus fuel ⟨ms.flatten.take next, Quagga.grown r, offset, beyond⟩
          (z.behind ms next sockstatus es) := by
  obtain ⟨bs, hbs⟩ : ∃ bs, bs = (ms.flatten.drop size).take (min (n + 1) (bufsizeStep - size % bufsizeStep)) := ⟨_, rfl⟩
  have hlen : size + bs.length = next := by
    rw [hbs, hnext, List.length_take, List.length_drop]
    unfold nextSize
    omega
  have hdata : r.data ++ bs = ms.flatten.take next := by
    have hprefix : bs <+: ms.flatten.drop size := hbs ▸ List.take_prefix _ _
    rw [h.data, ← hlen, List.take_add, ← List.prefix_iff_eq_take.1 hprefix]
  have hne : z.bytes ≠ [] := by
    rw [h.bytes]
    exact List.ne_nil_of_length_pos (by rw [List.length_drop]; omega)
  have hread : readEvents (Quagga.grown r - r.data.length) z.nonblock z.bytes z.events = some (.data bs, es) := by
    rw [hevents]
    unfold readEvents
    rw [if_neg hne, h.grown.2, h.length, Nat.add_sub_cancel_left, h.bytes, hbs]
  rw [readLoop_eq, hread]
  have hbytes : z.bytes.drop bs.length = ms.flatten.drop next := by
    rw [h.bytes, List.drop_drop, hlen]
  have hsize : (ms.flatten.take next).length = next := by
    rw [List.length_take, hnext]
    exact Nat.min_eq_left nextSize_le
  dsimp only
  unfold afterRead Zebra.behind
  rw [hdata, hsize, hbytes, h.beyond]

theorem flatten_left (ms : List (List UInt8)) (size : Nat) :
    (left ms size).flatten = ms.flatten.drop (ends 2 ms size) := by
  have happend := congrArg List.flatten (append_drop_arrived 2 ms size)
  rw [List.flatten_append] at happend
  unfold left ends
  rw [← happend, List.drop_left' rfl]

theorem left_subset {m : List UInt8} (h : m ∈ left ms size) : m ∈ ms := List.mem_of_mem_drop h

/-- The read reaches the next length: the scan goes on to the last message whose length has been received. -/
theorem Holds.scan {version : Nat} (h : Holds ms size r z) (hwf : ∀ m ∈ ms, WellFormed version m) {next : Nat}
    (hlen : next ≤ ms.flatten.length) (hnext : ends 2 ms size + 2 ≤ next) (hmax : ends 2 ms next ≤ 65535) (junk : Mem) :
    ∃ fuel offset, scanLengths (junk.write 0 (ms.flatten.take next)) next fuel r.offset false = some (offset, false) ∧
      offset.toNat = ends 2 ms next := by
  have hends : ends 2 ms next = ends 2 ms size + ends 2 (left ms size) (next - ends 2 ms size) := by
    have happend := append_drop_arrived 2 ms size
    have harrived : arrived 2 (arrived 2 ms size ++ left ms size) next =
        arrived 2 ms size ++ arrived 2 (left ms size) (next - (arrived 2 ms size).flatten.length) :=
      arrived_append (fun m hm => (hwf m ((arrived_isPrefix 2 ms size).subset hm)).two_le) hnext
    unfold left at harrived ⊢
    rw [happend] at harrived
    unfold ends
    rw [harrived, List.flatten_append, List.length_append]
  have hflatten := flatten_left ms size
  have hleft : (left ms size).flatten.length = ms.flatten.length - ends 2 ms size := by
    rw [hflatten, List.length_drop]
  have htake : (ms.flatten.take next).length = next := by
    rw [List.length_take]
    exact Nat.min_eq_left hlen
  rw [hends, ← h.offset] at hmax
  rw [hends, ← h.offset]
  rw [← h.offset] at hnext hleft hflatten
  refine scanLengths_ends (fun m hm => hwf m (left_subset hm)) hnext (by omega) ?_ hmax
  have hslice : (junk.write 0 (ms.flatten.take next)).slice (0 + r.offset.toNat) (next - r.offset.toNat) =
      ((ms.flatten.take next).drop r.offset.toNat).take (next - r.offset.toNat) := Mem.slice_write_mid (by omega)
  rw [Nat.zero_add] at hslice
  rw [hslice, hflatten, List.drop_take, List.take_take, Nat.min_self]

theorem readLoop_unique {fuel fuel' : Nat} {o' : Outcome} {z'' : Zebra}
    (h : readLoop junk sockstatus fuel r z = some (o, z')) (h' : readLoop junk sockstatus fuel' r z = some (o', z'')) :
    o = o' ∧ z' = z'' := by
  rcases Nat.le_total fuel fuel' with hle | hle
  · exact Prod.mk.inj (Option.some.inj ((readLoop_mono hle h).symm.trans h'))
  · exact Prod.mk.inj (Option.some.inj (h.symm.trans (readLoop_mono hle h')))

end Loop

/-! ## Cuts -/

section Cuts

variable {version : Nat} {ms : List (List UInt8)} {size next : Nat} {es : List Event}

theorem ends_le_ends (hle : next ≤ ms.flatten.length) (hlt : size < next) : ends 2 ms size ≤ ends 2 ms next := by
  have hnext := lt_ends (show 0 < 2 by decide) hle
  have happend := append_drop_arrived 2 ms next
  have hends : ends 2 (arrived 2 ms next ++ left ms next) size ≤ ends 2 ms next :=
    ends_le (by decide) (show size ≤ ends 2 ms next by omega)
  unfold left at hends
  rwa [happend] at hends

theorem atEnd_length (hwf : ∀ m ∈ ms, WellFormed version m) : AtEnd ms ms.flatten.length := by
  unfold AtEnd ends
  rw [arrived_all fun m hm => (hwf m hm).two_le]

theorem size_lt (hwf : ∀ m ∈ ms, WellFormed version m) (hms : ms ≠ []) (hle : size ≤ ms.flatten.length)
    (hmid : size = 0 ∨ ¬AtEnd ms size) : size < ms.flatten.length := by
  rcases hmid with rfl | hmid
  · obtain ⟨m, rest, rfl⟩ := List.exists_cons_of_ne_nil hms
    have := (hwf m (List.mem_cons_self ..)).two_le
    rw [List.flatten_cons, List.length_append]
    omega
  · refine Nat.lt_of_le_of_ne hle ?_
    rintro rfl
    exact hmid (atEnd_length hwf)

theorem ends_zero (ms : List (List UInt8)) : ends 2 ms 0 = 0 := by
  unfold ends
  rw [arrived_of_lt (by decide)]
  rfl

/-- No message that has begun in a call ends behind what a call may get. -/
theorem ends_of_cutOk (hwf : ∀ m ∈ ms, WellFormed version m) : ∀ {es : List Event} {size : Nat}, CutOk ms size es →
    size ≤ ms.flatten.length → (size = 0 ∨ ¬AtEnd ms size) → ends 2 ms size ≤ 65535
  | [], size, hcut, _, _ => by
    rw [show size = 0 from hcut, ends_zero]
    exact Nat.zero_le _
  | .wouldBlock :: es, size, hcut, _, _ => by
    rw [hcut.1, ends_zero]
    exact Nat.zero_le _
  | .upTo n :: es, size, hcut, hle, hmid => by
    by_cases hms : ms = []
    · subst hms
      exact Nat.zero_le _
    · have hlt := size_lt hwf hms hle hmid
      have hgrows := ends_le_ends nextSize_le (nextSize_gt (n := n) hlt)
      unfold CutOk at hcut
      rw [if_neg hms] at hcut
      split at hcut
      · next hend =>
        rw [hend] at hgrows
        exact hgrows.trans hcut.1
      · next hend => exact hgrows.trans (ends_of_cutOk hwf hcut nextSize_le (.inr hend))
  | .closed :: _, _, hcut, _, _ => hcut.elim
  | .failed :: _, _, hcut, _, _ => hcut.elim

end Cuts

/-! ## Calls -/

section Calls

variable {version n : Nat} {junk : Nat → Nat → Mem} {ms : List (List UInt8)} {idle : Prop} {sockstatus : Bool}
  {r : Reading} {z z' : Zebra} {size next : Nat} {es : List Event}

/-- A call that is under way, and the next `n` calls after it. -/
def LoopOk (n : Nat) (junk : Nat → Nat → Mem) (ms : List (List UInt8)) (idle : Prop) (sockstatus : Bool) (r : Reading)
    (z : Zebra) : Prop :=
  ∃ fuel o z' todo, readLoop (junk 0) sockstatus fuel r z = some (o, z') ∧ CallOk ms idle o z' todo ∧
    CallsOk n (fun i => junk (i + 1)) todo z'

theorem forall_callsOk_iff : (∀ n, CallsOk n junk ms z) ↔
    ∀ n, LoopOk n junk ms (Idle z) z.nonblock ⟨[], 0, 0, false⟩ { z with nonblock := true } := by
  constructor
  · exact fun h n => h (n + 1)
  · intro h n
    cases n with
    | zero => trivial
    | succ n => exact h n

theorem holds_start (hbytes : z.bytes = ms.flatten) : Holds ms 0 ⟨[], 0, 0, false⟩ { z with nonblock := true } where
  data := rfl
  le := Nat.zero_le _
  bytes := hbytes
  offset := (ends_zero ms).symm
  beyond := rfl
  step := ⟨0, rfl⟩
  room := ⟨le_refl _, by decide⟩

/-- A call that finds nothing leaves everything to the next. -/
theorem loopOk_nothing (hidle : idle) (hbytes : z'.bytes = ms.flatten)
    (hloop : ∀ fuel, readLoop (junk 0) sockstatus (fuel + 1) r z = some (⟨none, false⟩, z')) :
    LoopOk n junk ms idle sockstatus r z ↔ CallsOk n (fun i => junk (i + 1)) ms z' := by
  constructor
  · rintro ⟨fuel, o, z'', todo, hrun, hcall, hcalls⟩
    obtain ⟨rfl, rfl⟩ := readLoop_unique hrun (hloop 0)
    cases hcall with
    | nothing => exact hcalls
  · intro hcalls
    exact ⟨1, _, z', ms, hloop 0, .nothing hidle hbytes, hcalls⟩

/-- A call that ends where messages end. -/
theorem loopOk_whole (hwf : ∀ m ∈ ms, WellFormed version m) {fuel : Nat} (hpos : 0 < next) (hend : AtEnd ms next)
    (hbytes : z'.bytes = ms.flatten.drop next)
    (hrun : readLoop (junk 0) sockstatus fuel r z = some (⟨some (ms.flatten.take next), false⟩, z')) :
    LoopOk n junk ms idle sockstatus r z ↔ CallsOk n (fun i => junk (i + 1)) (left ms next) z' := by
  have happend := append_drop_arrived 2 ms next
  have htake : ms.flatten.take next = (arrived 2 ms next).flatten := by
    have hflatten := congrArg List.flatten happend
    rw [List.flatten_append] at hflatten
    rw [← hflatten, List.take_left' hend]
  rw [htake] at hrun
  constructor
  · rintro ⟨fuel', o, z'', todo, hrun', hcall, hcalls⟩
    obtain ⟨rfl, rfl⟩ := readLoop_unique hrun hrun'
    generalize ho : (⟨some (arrived 2 ms next).flatten, false⟩ : Outcome) = o at hcall
    cases hcall with
    | whole hdone hms hz =>
      have hflatten := Option.some.inj (congrArg Outcome.buffer ho)
      have hne : ∀ m ∈ arrived 2 ms next ++ ms.drop (arrived 2 ms next).length, m ≠ [] := by
        intro m hm
        rw [happend] at hm
        exact List.ne_nil_of_length_pos (lt_of_lt_of_le (by decide) (hwf m hm).two_le)
      obtain ⟨-, hleft⟩ := eq_of_length_flatten hne (happend.trans hms) (congrArg List.length hflatten)
      unfold left
      rw [hleft]
      exact hcalls
    | nothing => cases ho
  · intro hcalls
    refine ⟨fuel, _, z', left ms next, hrun, .whole ?_ happend.symm ?_, hcalls⟩
    · intro hnil
      unfold AtEnd ends at hend
      rw [hnil] at hend
      exact absurd hend hpos.ne
    · rw [hbytes, flatten_left, hend]

/-- A read that does not reach the next length. -/
theorem not_loopOk_short (h : Holds ms size r z) (hlt : size < ms.flatten.length) {k : Nat}
    (hevents : z.events = .upTo k :: es) (hnext : next = nextSize ms.flatten.length size k)
    (hshort : next < ends 2 ms size + 2) : ¬LoopOk n junk ms idle sockstatus r z := by
  rintro ⟨fuel, o, z', todo, hrun, hcall, -⟩
  have hbeyond : o.beyond = true := by
    cases fuel with
    | zero => cases hrun
    | succ fuel =>
      rw [h.readLoop hlt hevents fuel hnext] at hrun
      cases hscan : scanLengths ((junk 0 next).write 0 (ms.flatten.take next)) next fuel r.offset false with
      | none =>
        rw [hscan] at hrun
        cases hrun
      | some x =>
        have hx := scanLengths_short (by rw [h.offset]; exact hshort) hscan
        rw [hscan] at hrun
        dsimp only at hrun
        split at hrun
        · obtain ⟨rfl, rfl⟩ := Prod.mk.inj (Option.some.inj hrun)
          exact hx
        · exact readLoop_beyond hx hrun
  cases hcall with
  | whole => cases hbeyond
  | nothing => cases hbeyond

/-- A read that reaches the next length, but not the end of a message. -/
theorem loopOk_more (h : Holds ms size r z) (hwf : ∀ m ∈ ms, WellFormed version m) (hlt : size < ms.flatten.length)
    {k : Nat} (hevents : z.events = .upTo k :: es) (hnext : next = nextSize ms.flatten.length size k)
    (hreach : ends 2 ms size + 2 ≤ next) (hmax : ends 2 ms next ≤ 65535) (hend : ¬AtEnd ms next) :
    ∃ r', Holds ms next r' (z.behind ms next sockstatus es) ∧
      ∀ n, LoopOk n junk ms idle sockstatus r z ↔
        LoopOk n junk ms idle sockstatus r' (z.behind ms next sockstatus es) := by
  have hle : next ≤ ms.flatten.length := hnext ▸ nextSize_le
  have hgt : size < next := hnext ▸ nextSize_gt hlt
  obtain ⟨fuel₀, offset, hscan, hoffset⟩ := h.scan hwf hle hreach hmax (junk 0 next)
  have hne : ¬next = offset.toNat := by
    rw [hoffset]
    exact fun heq => hend heq.symm
  have hgrown := h.grown
  refine ⟨⟨ms.flatten.take next, grown r, offset, false⟩, ⟨rfl, hle, rfl, hoffset, rfl, hgrown.1, ?_⟩, fun n => ?_⟩
  · have hroom := hgrown.2
    have := Nat.mod_lt size (show 0 < bufsizeStep by decide)
    unfold nextSize at hnext
    dsimp only
    omega
  · constructor
    · rintro ⟨fuel, o, z', todo, hrun, hcalls⟩
      cases fuel with
      | zero => cases hrun
      | succ fuel =>
        rw [h.readLoop hlt hevents fuel hnext] at hrun
        cases hscan' : scanLengths ((junk 0 next).write 0 (ms.flatten.take next)) next fuel r.offset false with
        | none =>
          rw [hscan'] at hrun
          cases hrun
        | some x =>
          obtain rfl := scanLengths_unique hscan hscan'
          rw [hscan'] at hrun
          dsimp only at hrun
          rw [if_neg hne] at hrun
          exact ⟨fuel, o, z', todo, hrun, hcalls⟩
    · rintro ⟨fuel, o, z', todo, hrun, hcalls⟩
      refine ⟨max fuel₀ fuel + 1, o, z', todo, ?_, hcalls⟩
      rw [h.readLoop hlt hevents _ hnext, scanLengths_mono (Nat.le_max_left fuel₀ fuel) hscan]
      dsimp only
      rw [if_neg hne]
      exact readLoop_mono (Nat.le_max_right fuel₀ fuel) hrun

/-- A read that reaches the end of a message. -/
theorem Holds.readLoop_end (h : Holds ms size r z) (hwf : ∀ m ∈ ms, WellFormed version m)
    (hlt : size < ms.flatten.length) {k : Nat} (hevents : z.events = .upTo k :: es)
    (hnext : next = nextSize ms.flatten.length size k)
    (hreach : ends 2 ms size + 2 ≤ next) (hmax : next ≤ 65535) (hend : AtEnd ms next) (junk : Nat → Mem) :
    ∃ fuel, Quagga.readLoop junk sockstatus fuel r z =
      some (⟨some (ms.flatten.take next), false⟩, z.behind ms next sockstatus es) := by
  have hle : next ≤ ms.flatten.length := hnext ▸ nextSize_le
  obtain ⟨fuel, offset, hscan, hoffset⟩ := h.scan hwf hle hreach (le_of_eq_of_le hend hmax) (junk next)
  refine ⟨fuel + 1, ?_⟩
  rw [h.readLoop hlt hevents fuel hnext, hscan]
  dsimp only
  rw [if_pos (hoffset.trans hend).symm]

theorem left_wf (hwf : ∀ m ∈ ms, WellFormed version m) : ∀ m ∈ left ms next, WellFormed version m :=
  fun m hm => hwf m (left_subset hm)

theorem Holds.readLoop_nothing (h : Holds ms size r z)
    (hread : readEvents (Quagga.grown r - r.data.length) z.nonblock z.bytes z.events = some (.wouldBlock, es))
    (junk : Nat → Mem) (fuel : Nat) :
    Quagga.readLoop junk sockstatus (fuel + 1) r z = some (⟨none, false⟩, { z with events := es }) := by
  rw [readLoop_eq, hread, h.beyond]

/-- A call that finds nothing, because there is nothing yet. -/
theorem Holds.loopOk_nothing (h : Holds ms 0 r z) (hidle : idle)
    (hread : readEvents (Quagga.grown r - r.data.length) z.nonblock z.bytes z.events = some (.wouldBlock, es))
    (n : Nat) :
    LoopOk n junk ms idle sockstatus r z ↔ CallsOk n (fun i => junk (i + 1)) ms { z with events := es } :=
  Quagga.loopOk_nothing hidle h.bytes (h.readLoop_nothing hread (junk 0))

/-- Where nothing comes any more, every call finds nothing. -/
theorem callsOk_nil (hevents : z.events = []) (hbytes : z.bytes = ms.flatten) :
    ∀ (n : Nat) (junk : Nat → Nat → Mem) {z' : Zebra}, z'.events = z.events → z'.bytes = z.bytes → CallsOk n junk ms z'
  | 0, _, _, _, _ => trivial
  | n + 1, junk, z', hevents', hbytes' => by
    have hidle : Idle z' := by
      unfold Idle
      rw [hevents', hevents]
      trivial
    have hread : readEvents (grown ⟨[], 0, 0, false⟩ - 0) true z'.bytes z'.events = some (.wouldBlock, []) := by
      rw [hevents', hevents]
      rfl
    have hloop : zclientRead (junk 0) 1 z' = some (⟨none, false⟩, { z' with events := [], nonblock := true }) :=
      (holds_start (hbytes'.trans hbytes)).readLoop_nothing hread (junk 0) 0
    exact ⟨1, _, _, ms, hloop, .nothing hidle (hbytes'.trans hbytes),
      callsOk_nil hevents hbytes n _ hevents.symm hbytes'⟩

/-- The cut decides, from any point of a call on, whether this call and all that follow are as they should be. -/
theorem loopOk_iff (version : Nat) : ∀ (es : List Event) {junk : Nat → Nat → Mem} {ms : List (List UInt8)} {idle : Prop}
    {sockstatus : Bool} {size : Nat} {r : Reading} {z : Zebra}, (∀ m ∈ ms, WellFormed version m) → z.events = es →
    Holds ms size r z → CutOk ms size es → (size = 0 ∨ ¬AtEnd ms size) →
    (size = 0 → z.nonblock = true) → (size = 0 ∧ Idle z ↔ idle) →
    ((∀ n, LoopOk n junk ms idle sockstatus r z) ↔ Timely ms size es)
  | [], junk, ms, idle, sockstatus, size, r, z, hwf, hevents, h, hcut, hmid, hnonblock, hidle => by
    obtain rfl : size = 0 := hcut
    have hread : readEvents (grown r - r.data.length) z.nonblock z.bytes z.events = some (.wouldBlock, []) := by
      rw [hevents, hnonblock rfl]
      rfl
    have hnothing : idle := hidle.1 ⟨rfl, by unfold Idle; rw [hevents]; trivial⟩
    refine iff_of_true (fun n => ?_) trivial
    rw [h.loopOk_nothing hnothing hread]
    exact callsOk_nil hevents h.bytes n _ hevents.symm rfl
  | .wouldBlock :: es, junk, ms, idle, sockstatus, size, r, z, hwf, hevents, h, hcut, hmid, hnonblock, hidle => by
    obtain ⟨rfl, hcut⟩ := hcut
    have hread : readEvents (grown r - r.data.length) z.nonblock z.bytes z.events = some (.wouldBlock, es) := by
      rw [hevents, hnonblock rfl]
      rfl
    have hnothing : idle := hidle.1 ⟨rfl, by unfold Idle; rw [hevents]; trivial⟩
    rw [forall_congr' (h.loopOk_nothing hnothing hread), forall_callsOk_iff]
    exact loopOk_iff version es hwf rfl (holds_start h.bytes) hcut (.inl rfl) (fun _ => rfl) (and_iff_right rfl)
  | .upTo k :: es, junk, ms, idle, sockstatus, size, r, z, hwf, hevents, h, hcut, hmid, hnonblock, hidle => by
    unfold CutOk at hcut
    unfold Timely
    by_cases hms : ms = []
    · rw [if_pos hms] at hcut ⊢
      subst hms
      obtain rfl : size = 0 := Nat.le_zero.1 h.le
      have hbytes : z.bytes = [] := h.bytes
      have hread : readEvents (grown r - r.data.length) z.nonblock z.bytes z.events = some (.wouldBlock, es) := by
        rw [hevents, hnonblock rfl, hbytes]
        rfl
      have hnothing : idle := hidle.1 ⟨rfl, by unfold Idle; rw [hevents]; exact hbytes⟩
      rw [forall_congr' (h.loopOk_nothing hnothing hread), forall_callsOk_iff]
      exact loopOk_iff version es hwf rfl (holds_start h.bytes) hcut (.inl rfl) (fun _ => rfl) (and_iff_right rfl)
    · obtain ⟨next, hnext⟩ : ∃ next, next = nextSize ms.flatten.length size k := ⟨_, rfl⟩
      have hlt := size_lt hwf hms h.le hmid
      have hle : next ≤ ms.flatten.length := hnext ▸ nextSize_le
      rw [if_neg hms, ← hnext] at hcut ⊢
      by_cases hreach : ends 2 ms size + 2 ≤ next
      · have hpos : 0 < next := lt_of_lt_of_le (by decide) (Nat.le_of_add_left_le hreach)
        rw [and_iff_right hreach]
        by_cases hend : AtEnd ms next
        · rw [if_pos hend] at hcut ⊢
          obtain ⟨fuel, hrun⟩ := h.readLoop_end hwf hlt hevents hnext hreach hcut.1 hend (junk 0)
          rw [forall_congr' fun n => loopOk_whole hwf hpos hend rfl hrun, forall_callsOk_iff]
          have hbytes : (z.behind ms next sockstatus es).bytes = (left ms next).flatten := by
            rw [flatten_left, hend]
            rfl
          exact loopOk_iff version es (left_wf hwf) rfl (holds_start hbytes) hcut.2 (.inl rfl) (fun _ => rfl)
            (and_iff_right rfl)
        · rw [if_neg hend] at hcut ⊢
          have hmax := ends_of_cutOk hwf hcut hle (.inr hend)
          obtain ⟨r', hr', hloop⟩ := loopOk_more h hwf hlt hevents hnext hreach hmax hend
          rw [forall_congr' hloop]
          have hbusy : ¬idle := by
            rw [← hidle]
            rintro ⟨-, hz⟩
            unfold Idle at hz
            rw [hevents, h.bytes] at hz
            exact absurd (List.drop_eq_nil_iff.1 hz) (Nat.not_le.2 hlt)
          exact loopOk_iff version es hwf rfl hr' hcut (.inr hend) (fun hzero => absurd hzero hpos.ne')
            (iff_of_false (fun hzero => hpos.ne' hzero.1) hbusy)
      · refine iff_of_false (fun hall => ?_) fun hreach' => hreach hreach'.1
        exact not_loopOk_short h hlt hevents hnext (Nat.lt_of_not_le hreach) (hall 0)
  | .closed :: _, _, _, _, _, _, _, _, _, _, _, hcut, _, _, _ => hcut.elim
  | .failed :: _, _, _, _, _, _, _, _, _, _, _, hcut, _, _, _ => hcut.elim

end Calls

/-- The calls return the messages whole and in order, however the stream is cut, exactly if every read reaches the
length behind the last message whose length the reads before it have reached. -/
theorem callsOk_iff_timely (version : Nat) (junk : Nat → Nat → Mem) (ms : List (List UInt8)) (z : Zebra)
    (hwf : ∀ m ∈ ms, WellFormed version m) (hbytes : z.bytes = ms.flatten) (hcut : CutOk ms 0 z.events) :
    (∀ n, CallsOk n junk ms z) ↔ Timely ms 0 z.events := by
  rw [forall_callsOk_iff]
  exact loopOk_iff version z.events hwf rfl (holds_start hbytes) hcut (.inl rfl) (fun _ => rfl) (and_iff_right rfl)

/-- A message without more than its header, and one of ten bytes. -/
def twoMessages : List (List UInt8) := [[0, 3, 11], [0, 10, 7, 1, 0, 0, 32, 10, 0, 0]]

theorem wellFormed_twoMessages : ∀ m ∈ twoMessages, WellFormed 0 m := by
  unfold twoMessages
  intro m hm
  rcases List.mem_cons.1 hm with rfl | hm
  · exact ⟨by decide, by decide, by decide⟩
  · obtain rfl := List.mem_singleton.1 hm
    exact ⟨by decide, by decide, by decide⟩

/-- The first read brings the first message and a half, and the second read the rest with the message after it. -/
theorem callsOk_threeMessages : (∀ m ∈ twoMessages ++ [[0, 3, 11]], WellFormed 0 m) ∧
    ∀ n, CallsOk n (fun _ _ _ => 0) (twoMessages ++ [[0, 3, 11]])
      ⟨(twoMessages ++ [[0, 3, 11]]).flatten, [.upTo 8, .upTo 99], false, true⟩ := by
  have hformed : ∀ m ∈ twoMessages ++ [[0, 3, 11]], WellFormed 0 m := by
    intro m hm
    rcases List.mem_append.1 hm with hm | hm
    · exact wellFormed_twoMessages m hm
    · obtain rfl := List.mem_singleton.1 hm
      exact ⟨by decide, by decide, by decide⟩
  refine ⟨hformed, (callsOk_iff_timely 0 (fun _ _ _ => 0) (twoMessages ++ [[0, 3, 11]])
    ⟨(twoMessages ++ [[0, 3, 11]]).flatten, [.upTo 8, .upTo 99], false, true⟩ hformed rfl ?_).2 ?_⟩
  · rw [CutOk, if_neg (by decide), if_neg (by decide), CutOk, if_neg (by decide), if_pos (by decide)]
    exact ⟨by decide, rfl⟩
  · rw [Timely, if_neg (by decide), if_neg (by decide), Timely, if_neg (by decide), if_pos (by decide)]
    exact ⟨by decide, by decide, trivial⟩

/-- The second read brings what was missing of a message, and nothing behind it. -/
theorem not_callsOk_twoMessages : (∀ m ∈ twoMessages, WellFormed 0 m) ∧
    CutOk twoMessages 0 [.upTo 7, .upTo 4] ∧
    ¬∀ n, CallsOk n (fun _ _ _ => 0) twoMessages ⟨twoMessages.flatten, [.upTo 7, .upTo 4], false, true⟩ := by
  have hcut : CutOk twoMessages 0 [.upTo 7, .upTo 4] := by
    rw [CutOk, if_neg (by decide), if_neg (by decide), CutOk, if_neg (by decide), if_pos (by decide)]
    exact ⟨by decide, rfl⟩
  refine ⟨wellFormed_twoMessages, hcut, fun hall => ?_⟩
  have hloop := forall_callsOk_iff.1 hall
  have hstart : Holds twoMessages 0 ⟨[], 0, 0, false⟩ ⟨twoMessages.flatten, [.upTo 7, .upTo 4], true, true⟩ :=
    holds_start (z := ⟨twoMessages.flatten, [.upTo 7, .upTo 4], false, true⟩) rfl
  have htimely := (loopOk_iff 0 [.upTo 7, .upTo 4] wellFormed_twoMessages rfl hstart hcut (.inl rfl) (fun _ => rfl)
    (and_iff_right rfl)).1 hloop
  rw [Timely, if_neg (by decide), if_neg (by decide), Timely, if_neg (by decide)] at htimely
  exact absurd htimely.2.1 (by decide)

/-! ## Parsing -/

/-- The messages that the loop of `zparse` finds in a buffer; a message of length zero ends the daemon. -/
def zparse : Nat → List UInt8 → Option (List (List UInt8))
  | 0, _ => none
  | fuel + 1, f =>
    let length := ofLittleEnd (f.take 2).reverse
    if length = 0 then none
    else if f.drop length = [] then some [f.take length]
    else (zparse fuel (f.drop length)).map (f.take length :: ·)

theorem WellFormed.length_eq {version : Nat} {m : List UInt8} (h : WellFormed version m) :
    ofLittleEnd (m.take 2).reverse = m.length := by
  rw [h.begins]
  unfold bigEnd
  rw [List.reverse_reverse, ofLittleEnd_littleEnd]
  exact Nat.mod_eq_of_lt (Nat.lt_succ_of_le h.short)

/-- What a call returns is taken apart into the messages again. -/
theorem zparse_flatten {version : Nat} : ∀ {ms : List (List UInt8)}, (∀ m ∈ ms, WellFormed version m) → ms ≠ [] →
    zparse ms.length ms.flatten = some ms
  | [], _, hne => absurd rfl hne
  | m :: ms, hwf, _ => by
    have hm := hwf m (List.mem_cons_self ..)
    have htwo := hm.two_le
    have hlength : ofLittleEnd (((m :: ms).flatten).take 2).reverse = m.length := by
      rw [List.flatten_cons, List.take_append_of_le_length htwo]
      exact hm.length_eq
    rw [List.length_cons]
    unfold zparse
    dsimp only
    rw [hlength, if_neg (by omega), List.flatten_cons, List.drop_left' rfl, List.take_left' rfl]
    cases ms with
    | nil => rfl
    | cons m' ms =>
      have hne : (m' :: ms).flatten ≠ [] := by
        have := (hwf m' (List.mem_cons_of_mem _ (List.mem_cons_self ..))).two_le
        refine List.ne_nil_of_length_pos ?_
        rw [List.flatten_cons, List.length_append]
        omega
      rw [if_neg hne, zparse_flatten (fun g hg => hwf g (List.mem_cons_of_mem _ hg)) (List.cons_ne_nil _ _)]
      rfl

end Olsrd.Quagga
